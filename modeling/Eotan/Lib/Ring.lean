import Mathlib.Data.List.Range
import Mathlib.Tactic.Common

/-!
Circular buffers with one cell left free: the cells from `r` up to `w` are in use, going round at
the end.
-/

namespace Eotan.Lib.Ring

open List

variable {α : Type} {n r w : ℕ}

def used (n r w : ℕ) : ℕ := (w + n - r) % n

def contents (n : ℕ) (buf : ℕ → α) (r w : ℕ) : List α :=
  (List.range (used n r w)).map fun i => buf ((r + i) % n)

@[simp]
theorem length_contents (buf : ℕ → α) : (contents n buf r w).length = used n r w := by
  simp [contents]

theorem used_eq (hr : r < n) (hw : w < n) : used n r w = if r ≤ w then w - r else w + n - r := by
  unfold used
  split_ifs with h
  · rw [show w + n - r = w - r + n by omega, Nat.add_mod_right, Nat.mod_eq_of_lt (by omega)]
  · exact Nat.mod_eq_of_lt (by omega)

theorem used_eq_zero (hr : r < n) (hw : w < n) : used n r w = 0 ↔ r = w := by
  rw [used_eq hr hw]
  split_ifs <;> omega

theorem contents_self (buf : ℕ → α) (hr : r < n) : contents n buf r r = [] := by
  rw [← length_eq_zero_iff, length_contents, used_eq_zero hr hr]

variable {k : ℕ}

theorem used_advance_read (hr : r < n) (hw : w < n) (hk : k ≤ used n r w) :
    used n ((r + k) % n) w = used n r w - k := by
  have hn : 0 < n := by omega
  have hlt : (r + k) % n < n := Nat.mod_lt _ hn
  rw [used_eq hlt hw]
  rw [used_eq hr hw] at hk ⊢
  by_cases hrk : r + k < n
  · rw [Nat.mod_eq_of_lt hrk]
    split_ifs at * <;> omega
  · rw [Nat.mod_eq_sub_mod (by omega), Nat.mod_eq_of_lt (by split_ifs at hk <;> omega)]
    split_ifs at * <;> omega

theorem used_advance_write (hr : r < n) (hw : w < n) (hk : used n r w + k < n) :
    used n r ((w + k) % n) = used n r w + k := by
  have hn : 0 < n := by omega
  have hlt : (w + k) % n < n := Nat.mod_lt _ hn
  rw [used_eq hr hlt]
  rw [used_eq hr hw] at hk ⊢
  by_cases hwk : w + k < n
  · rw [Nat.mod_eq_of_lt hwk]
    split_ifs at * <;> omega
  · rw [Nat.mod_eq_sub_mod (by omega), Nat.mod_eq_of_lt (by split_ifs at hk <;> omega)]
    split_ifs at * <;> omega

theorem contents_take (buf : ℕ → α) (hr : r < n) (hw : w < n) (hk : k ≤ used n r w) : contents n buf r w =
      (range k).map (fun i => buf ((r + i) % n)) ++ contents n buf ((r + k) % n) w := by
  unfold contents
  rw [used_advance_read hr hw hk]
  conv_lhs => rw [show used n r w = k + (used n r w - k) by omega, range_add]
  rw [map_append, map_map]
  congr 1
  apply map_congr_left
  intro i _
  simp only [Function.comp_apply]
  rw [Nat.mod_add_mod, Nat.add_assoc]

theorem contents_put {buf buf' data : ℕ → α} (hr : r < n) (hw : w < n)
    (hk : used n r w + k < n) (hnew : ∀ i < k, buf' ((w + i) % n) = data i)
    (hold : ∀ i < used n r w, buf' ((r + i) % n) = buf ((r + i) % n)) :
    contents n buf' r ((w + k) % n) = contents n buf r w ++ (range k).map data := by
  unfold contents
  rw [used_advance_write hr hw hk, range_add, map_append, map_map]
  congr 1
  · apply map_congr_left
    intro i hi
    exact hold i (mem_range.mp hi)
  · apply map_congr_left
    intro i hi
    have hwr : (r + (used n r w + i)) % n = (w + i) % n := by
      rw [← Nat.add_assoc, Nat.add_mod, Nat.add_mod w i]
      congr 2
      rw [used_eq hr hw]
      split_ifs with h
      · rw [show r + (w - r) = w by omega]
      · rw [show r + (w + n - r) = w + n by omega, Nat.add_mod_right]
    simp only [Function.comp_apply]
    rw [hwr]
    exact hnew i (mem_range.mp hi)

end Eotan.Lib.Ring
