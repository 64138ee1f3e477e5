import Mathlib.Data.List.Chain
import Mathlib.Tactic.Common

/-!
Writes to the `cons` device (`servers/console/device.c`) when no copy fails. All of them use one
static buffer, which is printed up to its first NUL.
-/

namespace Eotan.Console

open List

def consMax : ℕ := 1024 - 1

structure Cons where
  consBuf : List UInt8
  printed : List UInt8

def Cons.initial : Cons := ⟨replicate 1024 0, []⟩

/-- What the turns of the loop in `cons_write` copy. -/
def pieces : ℕ → List UInt8 → List (List UInt8)
  | 0, _ => []
  | n + 1, rest =>
    if rest.length = 0 then []
    else
      let len := if consMax < rest.length then consMax else rest.length
      rest.take len :: pieces n (rest.drop len)

/-- One turn: `copier->copy`, then `printk("%s", cons_buf)`. -/
def writePiece (c : Cons) (piece : List UInt8) : Cons :=
  let consBuf := piece ++ c.consBuf.drop piece.length
  ⟨consBuf, c.printed ++ consBuf.takeWhile (· ≠ 0)⟩

def consWrite (c : Cons) (data : List UInt8) : Cons := (pieces data.length data).foldl writePiece c

def piecesOf (ws : List (List UInt8)) : List (List UInt8) := ws.flatMap fun data => pieces data.length data

def Holds (c : Cons) (old : List UInt8) : Prop := 0 ∉ old ∧ ∃ n, c.consBuf = old ++ replicate n 0

variable {c : Cons} {old : List UInt8} {ps : List (List UInt8)}

theorem flatten_pieces (n : ℕ) {data : List UInt8} (h : data.length ≤ n) : (pieces n data).flatten = data := by
  induction n generalizing data with
  | zero => exact (length_eq_zero_iff.mp (Nat.le_zero.mp h)).symm
  | succ n ih =>
    rw [pieces, consMax]
    split_ifs with hend
    · exact (length_eq_zero_iff.mp hend).symm
    all_goals
      rw [flatten_cons, ih, take_append_drop]
      rw [length_drop]
      omega

theorem flatten_piecesOf (ws : List (List UInt8)) : (piecesOf ws).flatten = ws.flatten := by
  induction ws with
  | nil => rfl
  | cons data ws ih =>
    rw [piecesOf] at ih ⊢
    rw [flatMap_cons, flatten_append, flatten_cons, flatten_pieces _ le_rfl, ih]

theorem writePiece_printed (h : Holds c old) {p : List UInt8} (hp : 0 ∉ p) :
    (writePiece c p).printed = c.printed ++ (p ++ old.drop p.length) ∧
      Holds (writePiece c p) (p ++ old.drop p.length) := by
  obtain ⟨hold, n, hbuf⟩ := h
  have hclean : 0 ∉ p ++ old.drop p.length := by
    rw [mem_append, not_or]
    exact ⟨hp, fun hmem => hold (mem_of_mem_drop hmem)⟩
  have hnew : p ++ c.consBuf.drop p.length =
      p ++ old.drop p.length ++ replicate (n - (p.length - old.length)) 0 := by
    rw [hbuf, drop_append, drop_replicate, append_assoc]
  refine ⟨?_, hclean, _, hnew⟩
  simp only [writePiece]
  rw [hnew, takeWhile_append_of_pos, takeWhile_replicate]
  · simp
  · intro b hb
    exact decide_eq_true fun hzero => hclean (hzero ▸ hb)

theorem length_le_printed (h : Holds c old) (hps : ∀ p ∈ ps, 0 ∉ p) :
    c.printed.length + ps.flatten.length ≤ (ps.foldl writePiece c).printed.length := by
  induction ps generalizing c old with
  | nil => exact le_rfl
  | cons p ps ih =>
    rw [forall_mem_cons] at hps
    obtain ⟨hprinted, hholds⟩ := writePiece_printed h hps.1
    have hrest := ih hholds hps.2
    rw [hprinted, length_append, length_append] at hrest
    rw [foldl_cons, flatten_cons, length_append]
    omega

theorem printed_eq_iff (h : Holds c old) (hps : ∀ p ∈ ps, 0 ∉ p) :
    (ps.foldl writePiece c).printed = c.printed ++ ps.flatten ↔
      (old.length :: ps.map length).IsChain (· ≤ ·) := by
  induction ps generalizing c old with
  | nil => simp
  | cons p ps ih =>
    rw [forall_mem_cons] at hps
    obtain ⟨hprinted, hholds⟩ := writePiece_printed h hps.1
    rw [foldl_cons, flatten_cons, map_cons, isChain_cons_cons]
    by_cases hle : old.length ≤ p.length
    · have hnext := ih hholds hps.2
      rw [hprinted, drop_of_length_le hle, append_nil, append_assoc] at hnext
      exact hnext.trans (and_iff_right hle).symm
    · -- the end of the longer piece before is printed again, and all of it gets too long
      refine iff_of_false (fun heq => ?_) fun hchain => hle hchain.1
      have hrest := length_le_printed hholds hps.2
      rw [heq, hprinted] at hrest
      simp only [length_append, length_drop] at hrest
      omega

theorem console_prints_iff (ws : List (List UInt8)) (hws : ∀ data ∈ ws, 0 ∉ data) :
    (ws.foldl consWrite .initial).printed = ws.flatten ↔ ((piecesOf ws).map length).Pairwise (· ≤ ·) := by
  have hclean : ∀ p ∈ piecesOf ws, 0 ∉ p := by
    intro p hp hzero
    have hmem := mem_flatten_of_mem hp hzero
    rw [flatten_piecesOf, mem_flatten] at hmem
    obtain ⟨data, hdata, hzero⟩ := hmem
    exact hws data hdata hzero
  have hrun : ws.foldl consWrite .initial = (piecesOf ws).foldl writePiece .initial := foldl_flatMap.symm
  have hinitial : Holds .initial [] := ⟨not_mem_nil, 1024, rfl⟩
  have hiff := printed_eq_iff hinitial hclean
  rw [flatten_piecesOf, ← hrun] at hiff
  refine hiff.trans ?_
  rw [isChain_cons, isChain_iff_pairwise]
  simp

theorem console_prints_two :
    (([[65], [66, 67]] : List (List UInt8)).foldl consWrite .initial).printed = [65, 66, 67] :=
  (console_prints_iff [[65], [66, 67]] (by decide)).mpr (by decide)

/-- The second letter of the first write is printed after the second write, too. -/
theorem console_prints_again :
    (([[65, 66], [67]] : List (List UInt8)).foldl consWrite .initial).printed = [65, 66, 67, 66] := by
  decide

end Eotan.Console
