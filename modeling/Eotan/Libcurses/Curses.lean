import Mathlib.Algebra.Order.Ring.Nat
import Mathlib.Tactic.Common

/-!
`addch` of `curses.c`. A write outside of the buffer has no result.
-/

namespace Eotan.Libcurses

structure Window where
  columns : ℕ
  lines : ℕ
  columns_pos : 0 < columns
  lines_pos : 0 < lines

structure Screen where
  bufBack : ℕ → UInt8
  cursorX : ℕ
  cursorY : ℕ
  dirty : Bool

def nextLine (w : Window) (s : Screen) : Screen :=
  if s.cursorY ≠ w.lines - 1 then { s with cursorX := 0, cursorY := s.cursorY + 1 } else s

def store (w : Window) (s : Screen) (len : ℕ) (ch : UInt8) : Option Screen :=
  let i := s.cursorY * w.columns + s.cursorX
  if len = 0 ∨ i + len ≤ w.columns * w.lines then
    some { s with bufBack := fun j => if i ≤ j ∧ j < i + len then ch else s.bufBack j, dirty := true }
  else none

-- The difference is compared as an unsigned number.
def tabLength (w : Window) (x : ℕ) : ℕ :=
  if x ≤ w.columns ∧ w.columns - x < 8 - x % 8 then w.columns - x else 8 - x % 8

def addch (w : Window) (s : Screen) (ch : UInt8) : Option Screen :=
  if ch = 0x0a then (store w s (w.columns - s.cursorX) 0).map (nextLine w)
  else if ch = 0x09 then
    let len := tabLength w s.cursorX
    (store w s len 0x20).map fun s =>
      let s := { s with cursorX := s.cursorX + len }
      if s.cursorX = w.columns then nextLine w s else s
  else
    (store w s 1 ch).map fun s =>
      if s.cursorX = w.columns - 1 then nextLine w s else { s with cursorX := s.cursorX + 1 }

structure Inside (w : Window) (s : Screen) : Prop where
  column : s.cursorX < w.columns
  line : s.cursorY < w.lines

/-- A tab that ends at the right edge of the last line. -/
structure AtEdge (w : Window) (s : Screen) (ch : UInt8) : Prop where
  tab : ch = 0x09
  line : s.cursorY + 1 = w.lines
  column : w.columns ≤ s.cursorX + (8 - s.cursorX % 8)

def Kept (w : Window) : Screen → List UInt8 → Prop
  | _, [] => True
  | s, ch :: cs => ∃ s', addch w s ch = some s' ∧ Inside w s' ∧ Kept w s' cs

def Clear (w : Window) : Screen → List UInt8 → Prop
  | _, [] => True
  | s, ch :: cs => ¬AtEdge w s ch ∧ ∀ s', addch w s ch = some s' → Clear w s' cs

variable {w : Window} {s : Screen} {ch : UInt8}

theorem store_inside (h : Inside w s) {len : ℕ} (hlen : s.cursorX + len ≤ w.columns) (ch : UInt8) :
    ∃ s', store w s len ch = some s' ∧ s'.cursorX = s.cursorX ∧ s'.cursorY = s.cursorY := by
  have hline := Nat.mul_le_mul_right w.columns (Nat.succ_le_of_lt h.line)
  rw [Nat.succ_mul, Nat.mul_comm w.lines] at hline
  unfold store
  rw [if_pos (.inr (by omega))]
  exact ⟨_, rfl, rfl, rfl⟩

theorem nextLine_inside_iff (hline : s.cursorY < w.lines) :
    Inside w (nextLine w s) ↔ s.cursorX < w.columns ∨ s.cursorY + 1 ≠ w.lines := by
  have := w.columns_pos
  unfold nextLine
  split_ifs with hlast
  · exact iff_of_true ⟨w.columns_pos, by simp only; omega⟩ (by omega)
  · exact ⟨fun h => .inl h.column, fun h => ⟨by omega, hline⟩⟩

theorem addch_inside_iff (h : Inside w s) : (∃ s', addch w s ch = some s' ∧ Inside w s') ↔ ¬AtEdge w s ch := by
  have hcolumn := h.column
  have hline := h.line
  have hother (htab : ch ≠ 0x09) : ¬AtEdge w s ch := fun hedge => htab hedge.tab
  unfold addch
  split_ifs with hnewline htab
  · obtain ⟨s', hstore, hx, hy⟩ := store_inside h (show s.cursorX + (w.columns - s.cursorX) ≤ w.columns by omega) 0
    rw [hstore]
    exact iff_of_true ⟨_, rfl, (nextLine_inside_iff (by omega)).mpr (by omega)⟩ (hother (by simp [hnewline]))
  · have hlen : tabLength w s.cursorX = min (w.columns - s.cursorX) (8 - s.cursorX % 8) := by
      unfold tabLength
      split_ifs <;> omega
    obtain ⟨s', hstore, hx, hy⟩ :=
      store_inside h (show s.cursorX + tabLength w s.cursorX ≤ w.columns by omega) 0x20
    have hedge : AtEdge w s ch ↔ s.cursorY + 1 = w.lines ∧ w.columns ≤ s.cursorX + (8 - s.cursorX % 8) :=
      ⟨fun h => ⟨h.line, h.column⟩, fun h => ⟨htab, h.1, h.2⟩⟩
    simp only [hstore, hedge, Option.map_some, Option.some.injEq, exists_eq_left']
    split_ifs with hend
    · rw [nextLine_inside_iff (by simp only; omega)]
      simp only
      omega
    · exact iff_of_true ⟨by simp only; omega, by simp only; omega⟩ (by omega)
  · obtain ⟨s', hstore, hx, hy⟩ := store_inside h (show s.cursorX + 1 ≤ w.columns from hcolumn) ch
    simp only [hstore, Option.map_some, Option.some.injEq, exists_eq_left']
    split_ifs with hend
    · exact iff_of_true ((nextLine_inside_iff (by omega)).mpr (by omega)) (hother htab)
    · exact iff_of_true ⟨by simp only; omega, by simp only; omega⟩ (hother htab)

theorem addch_run_iff (w : Window) (s : Screen) (h : Inside w s) (cs : List UInt8) : Kept w s cs ↔ Clear w s cs := by
  induction cs generalizing s with
  | nil => exact Iff.rfl
  | cons ch cs ih =>
    have hstep : (∃ s', addch w s ch = some s' ∧ Inside w s') ↔ ¬AtEdge w s ch := addch_inside_iff h
    constructor
    · rintro ⟨s', heq, hinside, hrest⟩
      refine ⟨hstep.mp ⟨s', heq, hinside⟩, fun s2 hs2 => ?_⟩
      obtain rfl := Option.some.inj (heq.symm.trans hs2)
      exact (ih s' hinside).mp hrest
    · rintro ⟨hedge, hrest⟩
      obtain ⟨s', heq, hinside⟩ := hstep.mpr hedge
      exact ⟨s', heq, hinside, (ih s' hinside).mpr (hrest s' heq)⟩

def tiny : Window := ⟨8, 1, by decide, by decide⟩

def blank : Screen := ⟨fun _ => 0, 0, 0, false⟩

theorem addch_run_tiny : Kept tiny blank [0x41, 0x0a] :=
  (addch_run_iff tiny blank ⟨by decide, by decide⟩ _).mpr
    ⟨fun h => (nomatch h.tab), fun _ _ => ⟨fun h => (nomatch h.tab), fun _ _ => trivial⟩⟩

/-- After a tab the cursor is beyond the last column, and the next character is not in the buffer. -/
theorem tab_leaves_screen : (addch tiny blank 0x09).map Screen.cursorX = some tiny.columns ∧
    ((addch tiny blank 0x09).bind fun s => addch tiny s 0x41).isNone := by
  decide

end Eotan.Libcurses
