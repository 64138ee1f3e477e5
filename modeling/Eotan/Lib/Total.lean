import Mathlib.Algebra.BigOperators.Group.List.Basic
import Mathlib.Data.List.AList

/-!
The sum of a weight over the values of a finite map.
-/

namespace Eotan.Lib.Total

variable {α β γ : Type} [DecidableEq α] [AddCommMonoid γ]

def total (f : β → γ) (m : AList fun _ : α => β) : γ := (m.entries.map fun e => f e.2).sum

variable {a : α} {m : AList fun _ : α => β}

theorem perm_erase_of_lookup {b : β}
    (h : m.lookup a = some b) : m.entries.Perm (⟨a, b⟩ :: (m.erase a).entries) := by
  have hmem : a ∈ m.entries.keys := AList.lookup_isSome.mp (by rw [h]; rfl)
  obtain ⟨b', l1, l2, -, hl, herase⟩ := List.exists_of_kerase hmem
  have hb' : m.lookup a = some b' := by
    apply AList.mem_lookup_iff.mpr
    rw [hl]
    simp
  rw [h, Option.some.injEq] at hb'
  subst hb'
  change m.entries.Perm (⟨a, b⟩ :: m.entries.kerase a)
  rw [herase, hl]
  exact List.perm_middle

theorem total_of_lookup (f : β → γ) {b : β}
    (h : m.lookup a = some b) : total f m = f b + total f (m.erase a) := by
  unfold total
  rw [((perm_erase_of_lookup h).map fun e => f e.2).sum_eq, List.map_cons, List.sum_cons]

theorem total_insert (f : β → γ) (m : AList fun _ : α => β) (a : α) (b : β) :
    total f (m.insert a b) = f b + total f (m.erase a) := by
  unfold total
  rw [AList.entries_insert, List.map_cons, List.sum_cons]
  rfl

theorem erase_of_lookup_none (h : m.lookup a = none) : m.erase a = m :=
  AList.ext (List.kerase_of_notMem_keys (AList.lookup_eq_none.mp h))

theorem erase_insert (m : AList fun _ : α => β) (a : α) (b : β) : (m.insert a b).erase a = m.erase a := by
  apply AList.ext
  change (⟨a, b⟩ :: m.entries.kerase a).kerase a = m.entries.kerase a
  exact List.kerase_cons_eq rfl

end Eotan.Lib.Total
