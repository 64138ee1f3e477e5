import Mathlib.Data.Nat.Digits.Lemmas
import Mathlib.Tactic.Ring

/-!
Numbers written with the most significant digit first.
-/

namespace Eotan.Lib.Radix

open List

variable (b : ℕ)

def value (l : List ℕ) : ℕ := Nat.ofDigits b l.reverse

@[simp]
theorem value_nil : value b [] = 0 := rfl

theorem value_append (l m : List ℕ) : value b (l ++ m) = value b l * b ^ m.length + value b m := by
  unfold value
  rw [reverse_append, Nat.ofDigits_append, length_reverse]
  ring

@[simp]
theorem value_singleton (d : ℕ) : value b [d] = d := by
  simp [value, Nat.ofDigits_singleton]

theorem value_cons (d : ℕ) (l : List ℕ) : value b (d :: l) = d * b ^ l.length + value b l := by
  have h := value_append b [d] l
  rwa [value_singleton] at h

theorem value_concat (l : List ℕ) (d : ℕ) : value b (l ++ [d]) = value b l * b + d := by
  rw [value_append, value_singleton, length_singleton, pow_one]

@[simp]
theorem value_replicate_zero (n : ℕ) : value b (replicate n 0) = 0 := by
  induction n with
  | zero => rfl
  | succ n ih => rw [replicate_succ, value_cons, ih, Nat.zero_mul]

variable {b}

theorem value_replicate_pred (hb : 0 < b) (n : ℕ) : value b (replicate n (b - 1)) + 1 = b ^ n := by
  induction n with
  | zero => rfl
  | succ n ih =>
    rw [replicate_succ, value_cons, length_replicate, Nat.add_assoc, ih,
      ← Nat.succ_mul, Nat.succ_eq_add_one, Nat.sub_add_cancel hb, pow_succ']

theorem value_append_replicate_pred (hb : 0 < b) (l : List ℕ) (n : ℕ) :
    value b (l ++ replicate n (b - 1)) + 1 = (value b l + 1) * b ^ n := by
  rw [value_append, length_replicate, Nat.add_assoc, value_replicate_pred hb, Nat.add_mul, Nat.one_mul]

theorem value_lt (hb : 1 < b) {l : List ℕ} (h : ∀ d ∈ l, d < b) : value b l < b ^ l.length := by
  have := Nat.ofDigits_lt_base_pow_length hb (l := l.reverse) fun d hd =>
    h d (mem_reverse.mp hd)
  rwa [length_reverse] at this

theorem value_carry (hb : 0 < b) (l : List ℕ) (d n : ℕ) : value b (l ++ (d :: replicate n (b - 1))) + 1 =
      value b (l ++ ((d + 1) :: replicate n 0)) := by
  have h := value_replicate_pred hb n
  simp only [value_append, value_cons, value_replicate_zero, length_cons, length_replicate]
  rw [Nat.add_assoc, Nat.add_assoc, h]
  ring

/-- `l` is how `n` is written in base `b`, without leading zeros. -/
structure Numeral (b n : ℕ) (l : List ℕ) : Prop where
  value_eq : value b l = n
  lt_base : ∀ d ∈ l, d < b
  leading : l = [0] ∨ ∃ d m, l = d :: m ∧ d ≠ 0

theorem Numeral.length_le_iff {n : ℕ} {l : List ℕ} (h : Numeral b n l) (hb : 1 < b) {m : ℕ} (hm : 1 ≤ m) :
    l.length ≤ m ↔ n < b ^ m := by
  constructor
  · intro hl
    have hlt := value_lt hb h.lt_base
    rw [h.value_eq] at hlt
    exact hlt.trans_le (Nat.pow_le_pow_right (by omega) hl)
  · intro hn
    obtain rfl | ⟨d, l, rfl, hd⟩ := h.leading
    · exact hm
    · have hvalue := h.value_eq
      rw [value_cons] at hvalue
      have hpow : b ^ l.length < b ^ m := by
        have := Nat.le_mul_of_pos_left (b ^ l.length) (Nat.pos_of_ne_zero hd)
        omega
      exact (Nat.pow_lt_pow_iff_right hb).mp hpow

theorem Numeral.concat {n : ℕ} {l : List ℕ} (h : Numeral b (n / b) l) (hb : 1 < b) (hn : n / b ≠ 0) :
    Numeral b n (l ++ [n % b]) := by
  have hmod : n % b < b := Nat.mod_lt n (by omega)
  refine ⟨?_, ?_, ?_⟩
  · rw [value_concat, h.value_eq, Nat.div_add_mod']
  · intro d hd
    obtain hd | hd := mem_append.mp hd
    · exact h.lt_base d hd
    · rwa [mem_singleton.mp hd]
  · obtain rfl | ⟨d, m, rfl, hd⟩ := h.leading
    · exact absurd h.value_eq.symm hn
    · exact .inr ⟨d, m ++ [n % b], rfl, hd⟩

theorem Numeral.singleton {n : ℕ} (hn : n < b) : Numeral b n [n] := by
  refine ⟨value_singleton b n, fun d hd => ?_, ?_⟩
  · rwa [mem_singleton.mp hd]
  · by_cases hzero : n = 0
    · exact .inl (by rw [hzero])
    · exact .inr ⟨n, [], rfl, hzero⟩

end Eotan.Lib.Radix
