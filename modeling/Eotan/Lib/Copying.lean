import Mathlib.Data.Set.Function
import Mathlib.Logic.Function.Basic

/-!
Copies of cells from one place to another, where the places are given by functions of the index.
-/

namespace Eotan.Lib.Copying

open Function

variable {ι β : Type*} [DecidableEq ι] {m m' : ι → β} {dst src : ℕ → ι} {n : ℕ}

/-- Cell `dst i` gets what was in cell `src i`, for `i = 0, 1, …, n - 1`. -/
def flat (m : ι → β) (dst src : ℕ → ι) : ℕ → ι → β
  | 0 => m
  | n + 1 => Function.update (flat m dst src n) (dst n) (m (src n))

theorem flat_of_ne {a : ι} (ha : ∀ i < n, a ≠ dst i) : flat m dst src n a = m a := by
  induction n with
  | zero => rfl
  | succ n ih =>
    rw [flat, update_of_ne (ha n (Nat.lt_succ_self n))]
    exact ih fun i hi => ha i (Nat.lt_succ_of_lt hi)

theorem flat_dst (hinj : Set.InjOn dst {i | i < n}) {i : ℕ} (hi : i < n) :
    flat m dst src n (dst i) = m (src i) := by
  induction n with
  | zero => exact absurd hi (Nat.not_lt_zero i)
  | succ n ih =>
    rw [flat]
    by_cases heq : i = n
    · rw [heq, update_self]
    have hlt : i < n := by omega
    have hne : dst i ≠ dst n := fun h => heq (hinj hi (Nat.lt_succ_self n) h)
    rw [update_of_ne hne]
    apply ih _ hlt
    exact hinj.mono fun j hj => Nat.lt_succ_of_lt hj

theorem flat_congr {dst' src' : ℕ → ι} (hdst : ∀ d < n, dst d = dst' d) (hsrc : ∀ d < n, src d = src' d) :
    flat m dst src n = flat m dst' src' n := by
  induction n with
  | zero => rfl
  | succ n ih =>
    rw [flat, flat, ih (fun d hd => hdst d (Nat.lt_succ_of_lt hd)) fun d hd => hsrc d (Nat.lt_succ_of_lt hd),
      hdst n (Nat.lt_succ_self n), hsrc n (Nat.lt_succ_self n)]

theorem flat_add (len : ℕ) (hread : ∀ d < len, m' (src (n + d)) = m (src (n + d))) (hm : m' = flat m dst src n) :
    flat m' (fun d => dst (n + d)) (fun d => src (n + d)) len = flat m dst src (n + len) := by
  induction len with
  | zero => exact hm
  | succ len ih =>
    rw [← Nat.add_assoc, flat, flat, ih fun d hd => hread d (Nat.lt_succ_of_lt hd),
      hread len (Nat.lt_succ_self len)]

theorem flat_first (m : ι → β) (dst src : ℕ → ι) (len : ℕ) (hread : ∀ d < len, src (1 + d) ≠ dst 0) :
    flat (update m (dst 0) (m (src 0))) (fun d => dst (1 + d)) (fun d => src (1 + d)) len =
      flat m dst src (1 + len) := by
  have hone : update m (dst 0) (m (src 0)) = flat m dst src 1 := rfl
  rw [hone]
  apply flat_add len _ rfl
  intro d hd
  exact update_of_ne (hread d hd) _ _

end Eotan.Lib.Copying
