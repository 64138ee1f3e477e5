import Mathlib.Algebra.Order.Ring.Nat
import Mathlib.Tactic.Ring

/-!
Range coding with an adaptive model. A message narrows an interval: each symbol takes a part of the
current range, which is then scaled up by a power of the base. The code of the message is the low
end of the last interval, counted from the low end of the first one.
-/

namespace Eotan.Lib.RangeCode

structure Coder (σ α : Type*) where
  base : ℕ
  next : σ → α → σ
  start : σ → ℕ → α → ℕ
  width : σ → ℕ → α → ℕ
  growth : ℕ → ℕ

namespace Coder

variable {σ α : Type*} (c : Coder σ α)

def scaled (s : σ) (range : ℕ) (a : α) : ℕ :=
  c.width s range a * c.base ^ c.growth (c.width s range a)

def shifts : σ → ℕ → List α → ℕ
  | _, _, [] => 0
  | s, range, a :: l => c.growth (c.width s range a) + shifts (c.next s a) (c.scaled s range a) l

def point : σ → ℕ → List α → ℕ
  | _, _, [] => 0
  | s, range, a :: l =>
    c.start s range a * c.base ^ c.shifts s range (a :: l) +
      point (c.next s a) (c.scaled s range a) l

structure Divides (symbol : α → Prop) (admissible : ℕ → Prop) : Prop where
  pos : ∀ range, admissible range → 0 < range
  fits : ∀ s range a, admissible range → symbol a →
    c.start s range a + c.width s range a ≤ range
  scaled : ∀ s range a, admissible range → symbol a → admissible (c.scaled s range a)

variable {c} {symbol : α → Prop} {admissible : ℕ → Prop}

section

variable (s : σ) (range : ℕ) (a : α) (l : List α)

theorem shifts_cons : c.shifts s range (a :: l) =
      c.growth (c.width s range a) + c.shifts (c.next s a) (c.scaled s range a) l := rfl

theorem point_cons : c.point s range (a :: l) = c.start s range a * c.base ^ c.shifts s range (a :: l) +
      c.point (c.next s a) (c.scaled s range a) l := rfl

theorem scaled_mul : c.scaled s range a * c.base ^ c.shifts (c.next s a) (c.scaled s range a) l =
      c.width s range a * c.base ^ c.shifts s range (a :: l) := by
  rw [shifts_cons, pow_add, ← Nat.mul_assoc]
  rfl

end

theorem point_lt (h : c.Divides symbol admissible) (s : σ) (range : ℕ) (l : List α)
    (hrange : admissible range) (hl : ∀ a ∈ l, symbol a) :
    c.point s range l < range * c.base ^ c.shifts s range l := by
  induction l generalizing s range with
  | nil =>
    rw [point, shifts, pow_zero, Nat.mul_one]
    exact h.pos range hrange
  | cons a l ih =>
    obtain ⟨ha, hl⟩ := List.forall_mem_cons.mp hl
    have hrest := ih (c.next s a) _ (h.scaled s range a hrange ha) hl
    rw [scaled_mul] at hrest
    have hfits := Nat.mul_le_mul_right (c.base ^ c.shifts s range (a :: l)) (h.fits s range a hrange ha)
    rw [Nat.add_mul] at hfits
    rw [point_cons]
    omega

theorem point_cons_lt (h : c.Divides symbol admissible) (s : σ) (range : ℕ) (a : α) (l : List α)
    (hrange : admissible range) (hl : ∀ b ∈ a :: l, symbol b) : c.point s range (a :: l) <
      (c.start s range a + c.width s range a) * c.base ^ c.shifts s range (a :: l) := by
  obtain ⟨ha, hl⟩ := List.forall_mem_cons.mp hl
  have hrest := point_lt h (c.next s a) _ l (h.scaled s range a hrange ha) hl
  rw [scaled_mul] at hrest
  rw [point_cons, Nat.add_mul]
  omega

end Coder

end Eotan.Lib.RangeCode
