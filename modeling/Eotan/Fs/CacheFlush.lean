import Eotan.Fs.CacheSpec
import Mathlib.Data.Multiset.Filter

namespace Eotan.Fs.Cache


variable {κ : Type} [DecidableEq κ]

theorem filter_pinsOf {c : Cache κ} (h : c.Ok) {i : ℕ} (hi : c.Used i) :
    (c.pins).filter (· ≠ (c.cache i).key) = pinsOf c.cache (c.lockedList.erase i) := by
  have hrest : (pinsOf c.cache (c.lockedList.erase i)).filter (· ≠ (c.cache i).key) =
      pinsOf c.cache (c.lockedList.erase i) := by
    apply Multiset.filter_eq_self.mpr
    intro k hk
    obtain ⟨j, hj, -, rfl⟩ := mem_pinsOf.mp hk
    obtain ⟨hne, hj'⟩ := h.mem_erase_locked.mp hj
    exact fun heq => hne (h.inj j i (.inl hj') hi heq)
  by_cases hl : i ∈ c.lockedList
  · rw [pins, pinsOf_erase c.cache hl, Multiset.filter_add, hrest]
    have hnone : (Multiset.replicate (c.cache i).lockCount (c.cache i).key).filter
        (· ≠ (c.cache i).key) = 0 := by
      apply Multiset.filter_eq_nil.mpr
      intro k hk hne
      exact hne (Multiset.eq_of_mem_replicate hk)
    rw [hnone, Multiset.zero_add]
  · rw [List.erase_of_not_mem hl] at hrest ⊢
    exact hrest

theorem dispose_spec {c : Cache κ} (h : c.Ok) {i : ℕ} {k : κ} (hk : c.hash k = some i) :
    Kept {k} c (dispose c i) ∧ (dispose c i).pins = c.pins.filter (· ≠ k) ∧
      (∀ j, (dispose c i).Used j → ((dispose c i).cache j).key ≠ k) ∧
      (dispose c i).hash k = none ∧ i ∈ (dispose c i).freeList ∧ (dispose c i).cache = c.cache := by
  obtain ⟨hi, rfl⟩ := h.hash k i hk
  have hg : GivenUp c i (dispose c i) := h.give_up hi ⟨rfl, rfl, rfl⟩ rfl rfl rfl fun _ _ => rfl
  have hpins : (dispose c i).pins = c.pins.filter (· ≠ (c.cache i).key) := (filter_pinsOf h hi).symm
  refine ⟨⟨hg.ok, ?_, hg.orphan, hg.view, fun _ _ => rfl, fun k _ => hg.saved k⟩, hpins, hg.key,
    Function.update_self .., List.mem_cons_self, rfl⟩
  rintro j k ⟨hj, rfl⟩ hk
  refine ⟨h.mem_erase_locked.mpr ⟨?_, hj⟩, rfl⟩
  rintro rfl
  rw [hpins, Multiset.mem_filter] at hk
  exact hk.2 rfl

end Eotan.Fs.Cache
