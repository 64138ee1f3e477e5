import Mathlib.Algebra.BigOperators.Intervals
import Mathlib.Algebra.Order.BigOperators.Group.Finset
import Mathlib.Data.Nat.Bitwise
import Mathlib.Algebra.Order.Ring.Nat
import Mathlib.Data.Nat.Factorization.Basic
import Mathlib.Tactic.Ring

/-!
Binary indexed trees. Node `c` holds the sum of the weights in the interval that ends at `c` and
has the length of the lowest set bit of `c`.
-/

namespace Eotan.Lib.Fenwick

open Function
open Nat

def low (c : ℕ) : ℕ := c - (c &&& (c - 1))

variable {a b c p : ℕ}

theorem and_split {n x y : ℕ} (hx : x < 2 ^ n) (hy : y < 2 ^ n) :
    (2 ^ n * a + x) &&& (2 ^ n * b + y) = 2 ^ n * (a &&& b) + (x &&& y) := by
  apply eq_of_testBit_eq
  intro i
  rw [testBit_and, testBit_two_pow_mul_add _ hx, testBit_two_pow_mul_add _ hy,
    testBit_two_pow_mul_add _ (lt_of_le_of_lt and_le_left hx)]
  split_ifs
  · rw [testBit_and]
  · rw [testBit_and]

theorem exists_eq (h : 0 < c) : ∃ k m, c = 2 ^ (k + 1) * m + 2 ^ k := by
  obtain ⟨k, m, hm, rfl⟩ := exists_eq_two_pow_mul_odd h.ne'
  obtain ⟨j, rfl⟩ := hm
  refine ⟨k, j, ?_⟩
  ring

theorem and_pred_eq (k m : ℕ) :
    (2 ^ (k + 1) * m + 2 ^ k) &&& (2 ^ (k + 1) * m + 2 ^ k - 1) = 2 ^ (k + 1) * m := by
  have hlt : 2 ^ k < 2 ^ (k + 1) := Nat.pow_lt_pow_right (by decide) (Nat.lt_succ_self k)
  have hsub : 2 ^ (k + 1) * m + 2 ^ k - 1 = 2 ^ (k + 1) * m + (2 ^ k - 1) := by omega
  rw [hsub, and_split hlt (by omega), Nat.and_self, Nat.and_two_pow_sub_one_eq_mod, Nat.mod_self, Nat.add_zero]

theorem low_eq (k m : ℕ) : low (2 ^ (k + 1) * m + 2 ^ k) = 2 ^ k := by
  rw [low, and_pred_eq, Nat.add_sub_cancel_left]

theorem and_pred (c : ℕ) : c &&& (c - 1) = c - low c := by
  have hle : c &&& (c - 1) ≤ c := Nat.and_le_left
  unfold low
  omega

theorem low_pos (h : 0 < c) : 0 < low c := by
  obtain ⟨k, m, rfl⟩ := exists_eq h
  rw [low_eq]
  exact Nat.two_pow_pos k

theorem low_le (c : ℕ) : low c ≤ c := Nat.sub_le ..

theorem and_neg {n : ℕ} (h : 0 < c) (hn : c < 2 ^ n) : c &&& (2 ^ n - c) = low c := by
  obtain ⟨k, m, rfl⟩ := exists_eq h
  have hpos := Nat.two_pow_pos k
  have hk : k + 1 ≤ n := by
    by_contra hlt
    have : 2 ^ n ≤ 2 ^ k := Nat.pow_le_pow_right (by decide) (by omega)
    omega
  obtain ⟨j, rfl⟩ := Nat.exists_eq_add_of_le hk
  have hm : m < 2 ^ j := by
    rw [Nat.pow_add 2 (k + 1) j] at hn
    by_contra hge
    have := Nat.mul_le_mul_left (2 ^ (k + 1)) (not_lt.mp hge)
    omega
  have hcompl : 2 ^ (k + 1 + j) - (2 ^ (k + 1) * m + 2 ^ k) = 2 ^ (k + 1) * (2 ^ j - (m + 1)) + 2 ^ k := by
    have h1 : 2 ^ (k + 1 + j) = 2 ^ (k + 1) * (2 ^ j - (m + 1)) + 2 ^ (k + 1) * (m + 1) := by
      rw [← Nat.mul_add, Nat.sub_add_cancel hm, pow_add]
    have h2 : 2 ^ (k + 1) * (m + 1) = 2 ^ (k + 1) * m + 2 ^ k + 2 ^ k := by ring
    omega
  have hdisj : m &&& (2 ^ j - (m + 1)) = 0 := by
    apply eq_of_testBit_eq
    intro i
    rw [testBit_and, testBit_two_pow_sub_succ hm, zero_testBit]
    cases m.testBit i <;> simp
  have hlt : 2 ^ k < 2 ^ (k + 1) := Nat.pow_lt_pow_right (by decide) (Nat.lt_succ_self k)
  rw [hcompl, and_split hlt hlt, hdisj, Nat.and_self, low_eq, Nat.mul_zero, Nat.zero_add]

theorem low_add {e : ℕ} (hc : 0 < c) (he : 0 < e) (h : e < low c) : low (c + e) = low e := by
  obtain ⟨k, m, rfl⟩ := exists_eq hc
  obtain ⟨i, j, rfl⟩ := exists_eq he
  rw [low_eq] at h
  have hi : i < k := by
    by_contra hge
    have : 2 ^ k ≤ 2 ^ i := Nat.pow_le_pow_right (by decide) (by omega)
    omega
  obtain ⟨d, rfl⟩ := Nat.exists_eq_add_of_lt hi
  have : 2 ^ (i + d + 1 + 1) * m + 2 ^ (i + d + 1) + (2 ^ (i + 1) * j + 2 ^ i) =
      2 ^ (i + 1) * (2 ^ (d + 1) * m + 2 ^ d + j) + 2 ^ i := by ring
  rw [this, low_eq, low_eq]

theorem two_mul_low_le (hc : 0 < c) : 2 * low c ≤ low (c + low c) := by
  obtain ⟨k, m, rfl⟩ := exists_eq hc
  rw [low_eq]
  have hsum : 2 ^ (k + 1) * m + 2 ^ k + 2 ^ k = 2 ^ (k + 1) * (m + 1) := by ring
  rw [hsum]
  obtain ⟨i, j, hij⟩ := exists_eq (succ_pos m)
  have : 2 ^ (k + 1) * (m + 1) = 2 ^ (k + 1 + i + 1) * j + 2 ^ (k + 1 + i) := by
    rw [show m + 1 = m.succ from rfl, hij]
    ring
  rw [this, low_eq, ← pow_succ']
  exact Nat.pow_le_pow_right (by decide) (by omega)

theorem low_two_pow_add {k i : ℕ} (h : 2 ^ (k + 1) ∣ i) : low (i + 2 ^ k) = 2 ^ k := by
  obtain ⟨m, rfl⟩ := h
  exact low_eq k m

theorem low_of_odd (h : c % 2 = 1) : low c = 1 := by
  have : c = 2 ^ (0 + 1) * (c / 2) + 2 ^ 0 := by omega
  rw [this, low_eq]
  rfl

def Covers (c p : ℕ) : Prop := c - low c < p ∧ p ≤ c

instance (c p : ℕ) : Decidable (Covers c p) := by unfold Covers; infer_instance

theorem covers_self (h : 0 < p) : Covers p p := by
  have := low_pos h
  have := low_le p
  unfold Covers
  omega

theorem covers_next (hc : 0 < c) (h : Covers c p) : Covers (c + low c) p := by
  have h1 := two_mul_low_le hc
  obtain ⟨hlo, hhi⟩ := h
  unfold Covers
  omega

theorem not_covers_between {d : ℕ} (hc : 0 < c) (h : Covers c p) (hlt : c < d)
    (hd : d < c + low c) : ¬Covers d p := by
  have hlow : low d = low (d - c) := by
    have := low_add hc (e := d - c) (by omega) (by omega)
    rwa [Nat.add_sub_cancel' hlt.le] at this
  have := low_le (d - c)
  obtain ⟨-, hhi⟩ := h
  unfold Covers
  omega

theorem le_sub_low {i : ℕ} (hc : 0 < c) (hlo : c - low c < i) (hhi : i < c) : c - low c ≤ i - low i := by
  by_cases hz : c - low c = 0
  · omega
  have hpos : 0 < c - low c := by omega
  have hlow : low c ≤ low (c - low c) := by
    obtain ⟨k, m, rfl⟩ := exists_eq hc
    rw [low_eq] at hz hpos ⊢
    have hsub : 2 ^ (k + 1) * m + 2 ^ k - 2 ^ k = 2 ^ (k + 1) * m := by omega
    rw [hsub] at hz hpos ⊢
    have hm : 0 < m := by
      by_contra hm
      simp [Nat.eq_zero_of_not_pos hm] at hz
    obtain ⟨i, j, rfl⟩ := exists_eq hm
    have : 2 ^ (k + 1) * (2 ^ (i + 1) * j + 2 ^ i) = 2 ^ (k + 1 + i + 1) * j + 2 ^ (k + 1 + i) := by ring
    rw [this, low_eq]
    exact Nat.pow_le_pow_right (by decide) (by omega)
  have hi : low i = low (i - (c - low c)) := by
    have := low_add hpos (e := i - (c - low c)) (by omega) (by omega)
    rwa [Nat.add_sub_cancel' hlo.le] at this
  have := low_le (i - (c - low c))
  omega

section

variable (w : ℕ → ℕ)

def span (a b : ℕ) : ℕ := ∑ i ∈ Finset.Ioc a b, w i

def node (c : ℕ) : ℕ := span w (c - low c) c

theorem span_self (a : ℕ) : span w a a = 0 := by simp [span]

theorem span_add (hab : a ≤ b) (hbc : b ≤ c) : span w a b + span w b c = span w a c :=
  Finset.sum_Ioc_consecutive w hab hbc

theorem span_succ (h : a ≤ b) : span w a (b + 1) = span w a b + w (b + 1) := Finset.sum_Ioc_succ_top h w

theorem span_mono (hab : a ≤ b) (hbc : b ≤ c) : span w a b ≤ span w a c := by
  rw [← span_add w hab hbc]
  exact le_add_right _ _

theorem node_add_span (h : a ≤ c - low c) : span w a (c - low c) + node w c = span w a c :=
  span_add w h (sub_le _ _)

theorem node_eq_add_span (h : 0 < c) : node w c = w c + span w (c - low c) (c - 1) := by
  have hlow := low_pos h
  have hsucc := span_succ w (show c - low c ≤ c - 1 by omega)
  rw [Nat.sub_add_cancel h] at hsucc
  rw [node, hsucc, add_comm]

theorem node_of_odd (h : c % 2 = 1) : node w c = w c := by
  rw [node_eq_add_span w (by omega), low_of_odd h, span_self, add_zero]

theorem node_update (c p x : ℕ) :
    (node (update w p x) c : ℤ) = node w c + if Covers c p then (x : ℤ) - w p else 0 := by
  unfold node span
  have hmem : p ∈ Finset.Ioc (c - low c) c ↔ Covers c p := by
    rw [Finset.mem_Ioc]
    rfl
  split_ifs with h
  · have hp := hmem.mpr h
    rw [← Finset.add_sum_erase _ _ hp, ← Finset.add_sum_erase _ w hp, update_self]
    have : ∑ i ∈ (Finset.Ioc (c - low c) c).erase p, update w p x i =
        ∑ i ∈ (Finset.Ioc (c - low c) c).erase p, w i := by
      apply Finset.sum_congr rfl
      intro i hi
      rw [update_of_ne (Finset.ne_of_mem_erase hi)]
    rw [this]
    push_cast
    ring
  · have : ∑ i ∈ Finset.Ioc (c - low c) c, update w p x i = ∑ i ∈ Finset.Ioc (c - low c) c, w i := by
      apply Finset.sum_congr rfl
      intro i hi
      rw [update_of_ne]
      rintro rfl
      exact h (hmem.mp hi)
    rw [this, add_zero]

end

end Eotan.Lib.Fenwick
