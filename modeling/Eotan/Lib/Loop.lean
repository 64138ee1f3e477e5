import Mathlib.Algebra.Order.Ring.Nat
import Mathlib.Tactic.Ring

/-!
Loops whose body may end them with an error, and their invariants. The state is kept in both cases.
-/

namespace Eotan.Lib.Loop

variable {σ ε : Type*}

def Ends (r : Option ε × σ) (ok : σ → Prop) (bad : ε → σ → Prop) : Prop :=
  match r.1 with
  | none => ok r.2
  | some e => bad e r.2

theorem Ends.always {r : Option ε × σ} {P : σ → Prop} (h : Ends r P fun _ => P) : P r.2 := by
  rcases r with ⟨_ | e, s⟩ <;> exact h

theorem ends_always {r : Option ε × σ} {P : σ → Prop} (h : P r.2) : Ends r P fun _ => P := by
  rcases r with ⟨_ | e, s⟩ <;> exact h

def forRange (body : ℕ → σ → Option ε × σ) : ℕ → ℕ → σ → Option ε × σ
  | 0, _, s => (none, s)
  | n + 1, j, s =>
    match body j s with
    | (some e, s) => (some e, s)
    | (none, s) => forRange body n (j + 1) s

theorem forRange_ends {body : ℕ → σ → Option ε × σ} {I : ℕ → σ → Prop} {bad : ε → σ → Prop}
    (n : ℕ) {j : ℕ} {s : σ}
    (hbody : ∀ k s, j ≤ k → k < j + n → I k s → Ends (body k s) (I (k + 1)) bad) (h : I j s) :
    Ends (forRange body n j s) (I (j + n)) bad := by
  induction n generalizing j s with
  | zero => exact h
  | succ n ih =>
    have hfirst := hbody j s le_rfl (by omega) h
    unfold forRange
    rcases hr : body j s with ⟨_ | e, s'⟩
    · rw [hr] at hfirst
      have hrest : Ends (forRange body n (j + 1) s') (I (j + 1 + n)) bad := by
        apply ih _ hfirst
        intro k t hk hlt
        exact hbody k t (by omega) (by omega)
      rw [show j + (n + 1) = j + 1 + n by omega]
      exact hrest
    · rw [hr] at hfirst
      exact hfirst

/-- `rest` items from item `offset` of chunk `i` on, where a chunk has `width` items:
`body i lo hi` is for the items from `lo` to `hi` of chunk `i`. -/
def forChunks (width : ℕ) (body : ℕ → ℕ → ℕ → σ → Option ε × σ) :
    ℕ → ℕ → ℕ → ℕ → σ → Option ε × σ
  | 0, _, _, _, s => (none, s)
  | fuel + 1, i, offset, rest, s =>
    if rest = 0 then (none, s)
    else
      let max := if width - offset > rest then offset + rest else width
      match body i offset max s with
      | (some e, s) => (some e, s)
      | (none, s) => forChunks width body fuel (i + 1) 0 (rest - (max - offset)) s

/-- The invariant speaks of the number of the next item, counted through all chunks. Each turn takes
an item at least, so that `rest` turns are enough. -/
theorem forChunks_ends {width : ℕ} {body : ℕ → ℕ → ℕ → σ → Option ε × σ} {I : ℕ → σ → Prop}
    {bad : ε → σ → Prop} (fuel : ℕ) {i offset rest : ℕ} {s : σ}
    (hbody : ∀ k lo hi s, lo < hi → hi ≤ width → i * width + offset ≤ k * width + lo →
      k * width + hi ≤ i * width + offset + rest → I (k * width + lo) s →
      Ends (body k lo hi s) (I (k * width + hi)) bad)
    (hoffset : offset < width) (hfuel : rest ≤ fuel) (h : I (i * width + offset) s) :
    Ends (forChunks width body fuel i offset rest s) (I (i * width + offset + rest)) bad := by
  induction fuel generalizing i offset rest s with
  | zero =>
    obtain rfl : rest = 0 := by omega
    exact h
  | succ fuel ih =>
    unfold forChunks
    by_cases hrest : rest = 0
    · rw [if_pos hrest, hrest]
      exact h
    rw [if_neg hrest]
    generalize hmax : (if width - offset > rest then offset + rest else width) = max
    have hbounds : offset < max ∧ max ≤ width ∧ max ≤ offset + rest ∧ (max = offset + rest ∨ max = width) := by
      rw [← hmax]
      split_ifs <;> omega
    obtain ⟨hlt, hle, hsum, hcases⟩ := hbounds
    have hfirst := hbody i offset max s hlt hle le_rfl (by omega) h
    simp only
    rcases hr : body i offset max s with ⟨_ | e, s'⟩
    · rw [hr] at hfirst
      have hfirst : I (i * width + max) s' := hfirst
      rcases hcases with hdone | hfull
      · -- nothing is left for the next chunk
        rw [hdone, ← Nat.add_assoc] at hfirst
        rw [hdone, show rest - (offset + rest - offset) = 0 by omega]
        cases fuel with
        | zero => exact hfirst
        | succ fuel => exact hfirst
      · have hnext : (i + 1) * width + 0 = i * width + max := by
          rw [hfull]
          ring
        have htotal : (i + 1) * width + 0 + (rest - (max - offset)) = i * width + offset + rest := by
          omega
        rw [← htotal]
        apply ih _ (by omega) (by omega)
        · rw [hnext]
          exact hfirst
        · intro k lo hi t hlo hhi hfrom hto
          exact hbody k lo hi t hlo hhi (by omega) (by omega)
    · rw [hr] at hfirst
      exact hfirst

end Eotan.Lib.Loop
