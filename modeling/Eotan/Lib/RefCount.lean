import Mathlib.Data.Finset.Card
import Mathlib.Data.Multiset.Count

/-!
Reference counts in a forest. Every node counts the references to it: those held outside, a
multiset, and the links of its children. A node goes away with its last reference, and its link
then becomes a reference that is still to be dropped.
-/

namespace Eotan.Lib.RefCount

open Function

variable {ν : Type} [DecidableEq ν]

structure Node (ν : Type) where
  count : ℕ
  parent : Option ν

def link (x : Option (Node ν)) : Option ν := x.bind Node.parent

def children (pool : Finset ν) (g : ν → Option (Node ν)) (w : ν) : ℕ :=
  (pool.filter fun v => link (g v) = some w).card

theorem children_update {pool : Finset ν} (g : ν → Option (Node ν)) {v : ν} (hv : v ∈ pool)
    (x : Option (Node ν)) (w : ν) : children pool (update g v x) w + (if link (g v) = some w then 1 else 0) =
      children pool g w + if link x = some w then 1 else 0 := by
  have hrest : ((pool.erase v).filter fun u => link (update g v x u) = some w) =
      (pool.erase v).filter fun u => link (g u) = some w := by
    apply Finset.filter_congr
    intro u hu
    rw [update_of_ne (Finset.ne_of_mem_erase hu)]
  have hsplit (f : ν → Option (Node ν)) : children pool f w =
      ((pool.erase v).filter fun u => link (f u) = some w).card +
        if link (f v) = some w then 1 else 0 := by
    unfold children
    rw [← Finset.insert_erase hv, Finset.filter_insert, Finset.erase_insert_eq_erase]
    split_ifs with h
    · rw [Finset.card_insert_of_notMem]
      · simp
      · simp
    · simp
  rw [hsplit, hsplit g, hrest, update_self]
  omega

structure Counted (pool : Finset ν) (g : ν → Option (Node ν)) (refs : Multiset ν) : Prop where
  pooled : ∀ v n, g v = some n → v ∈ pool
  live : ∀ v n, g v = some n → n.count = refs.count v + children pool g v ∧ 0 < n.count
  dead : ∀ v, g v = none → refs.count v + children pool g v = 0

variable {pool : Finset ν} {g : ν → Option (Node ν)} {refs : Multiset ν} {v : ν} {n : Node ν}

theorem Counted.exists_of_mem (h : Counted pool g refs) (hv : v ∈ refs) : ∃ n, g v = some n := by
  cases hg : g v with
  | none =>
    have := h.dead v hg
    have := Multiset.count_pos.mpr hv
    omega
  | some n => exact ⟨n, rfl⟩

theorem Counted.exists_parent (h : Counted pool g refs) {p : ν} (hv : g v = some n)
    (hp : n.parent = some p) : ∃ m, g p = some m := by
  have hpos : 0 < children pool g p := by
    apply Finset.card_pos.mpr
    refine ⟨v, Finset.mem_filter.mpr ⟨h.pooled v n hv, ?_⟩⟩
    rw [hv]
    exact hp
  cases hg : g p with
  | none =>
    have := h.dead p hg
    omega
  | some m => exact ⟨m, rfl⟩

theorem Counted.update (h : Counted pool g refs) (hv : v ∈ pool) {x : Option (Node ν)} {refs' : Multiset ν}
    (hbalance : ∀ w, w ≠ v → refs'.count w + (if link x = some w then 1 else 0) =
      refs.count w + if link (g v) = some w then 1 else 0)
    (hself : ∀ m, x = some m → m.count = refs'.count v + children pool (update g v x) v ∧ 0 < m.count)
    (hgone : x = none → refs'.count v + children pool (update g v x) v = 0) :
    Counted pool (update g v x) refs' where
  pooled := by
    intro w m hw
    by_cases hwv : w = v
    · rwa [hwv]
    · rw [update_of_ne hwv] at hw
      exact h.pooled w m hw
  live := by
    intro w m hw
    by_cases hwv : w = v
    · rw [hwv, update_self] at hw
      rw [hwv]
      exact hself m hw
    rw [update_of_ne hwv] at hw
    have hlive := h.live w m hw
    have hchildren := children_update g hv x w
    have := hbalance w hwv
    omega
  dead := by
    intro w hw
    by_cases hwv : w = v
    · rw [hwv, update_self] at hw
      rw [hwv]
      exact hgone hw
    rw [update_of_ne hwv] at hw
    have hdead := h.dead w hw
    have hchildren := children_update g hv x w
    have := hbalance w hwv
    omega

theorem Counted.retain (h : Counted pool g refs) (hv : g v = some n) :
    Counted pool (Function.update g v (some { n with count := n.count + 1 })) (v ::ₘ refs) := by
  have hpool := h.pooled v n hv
  have hchildren := children_update g hpool (some { n with count := n.count + 1 }) v
  have hlink : link (some { n with count := n.count + 1 }) = link (g v) := by
    rw [hv]
    rfl
  rw [hlink] at hchildren
  apply h.update hpool
  · intro w hw
    rw [Multiset.count_cons_of_ne hw, hlink]
  · rintro m ⟨⟩
    have hlive := h.live v n hv
    rw [Multiset.count_cons_self]
    refine ⟨?_, Nat.succ_pos _⟩
    change n.count + 1 = _
    omega
  · intro hx
    cases hx

theorem Counted.create {refs1 : Multiset ν} {p : Option ν} (h : Counted pool g refs1)
    (hv : g v = none) (hpool : v ∈ pool)
    (hrefs : ∀ w, refs1.count w = refs.count w + if p = some w then 1 else 0) :
    Counted pool (Function.update g v (some ⟨1, p⟩)) (v ::ₘ refs) := by
  have hdead := h.dead v hv
  have hpv := hrefs v
  have hchildren := children_update g hpool (some ⟨1, p⟩) v
  have hlink : link (g v) = none := by
    rw [hv]
    rfl
  rw [hlink] at hchildren
  change _ = _ + (if p = some v then 1 else 0) at hchildren
  rw [if_neg (Option.some_ne_none v).symm] at hchildren
  apply h.update hpool
  · intro w hw
    rw [Multiset.count_cons_of_ne hw, hlink, hrefs w, if_neg (Option.some_ne_none w).symm]
    rfl
  · rintro m ⟨⟩
    rw [Multiset.count_cons_self]
    refine ⟨?_, Nat.one_pos⟩
    change 1 = _
    omega
  · intro hx
    cases hx

theorem Counted.release (h : Counted pool g (v ::ₘ refs)) (hv : g v = some n) (hn : 1 < n.count) :
    Counted pool (Function.update g v (some { n with count := n.count - 1 })) refs := by
  have hpool := h.pooled v n hv
  have hchildren := children_update g hpool (some { n with count := n.count - 1 }) v
  have hlink : link (some { n with count := n.count - 1 }) = link (g v) := by
    rw [hv]
    rfl
  rw [hlink] at hchildren
  apply h.update hpool
  · intro w hw
    rw [Multiset.count_cons_of_ne hw, hlink]
  · rintro m ⟨⟩
    have hlive := h.live v n hv
    rw [Multiset.count_cons_self] at hlive
    refine ⟨?_, Nat.sub_pos_of_lt hn⟩
    change n.count - 1 = _
    omega
  · intro hx
    cases hx

theorem Counted.release_last (h : Counted pool g (v ::ₘ refs)) (hv : g v = some n)
    (hn : n.count ≤ 1) {refs' : Multiset ν}
    (hrefs : ∀ w, refs'.count w = refs.count w + if n.parent = some w then 1 else 0) :
    Counted pool (Function.update g v none) refs' := by
  have hpool := h.pooled v n hv
  have hlive := h.live v n hv
  rw [Multiset.count_cons_self] at hlive
  have hchildren := children_update g hpool none v
  have hlink : link (g v) = n.parent := by
    rw [hv]
    rfl
  rw [hlink] at hchildren
  change _ = _ + (if none = some v then 1 else 0) at hchildren
  rw [if_neg (Option.some_ne_none v).symm] at hchildren
  apply h.update hpool
  · intro w hw
    rw [Multiset.count_cons_of_ne hw, hlink, hrefs w]
    rfl
  · intro m hm
    cases hm
  · intro _
    have := hrefs v
    omega

end Eotan.Lib.RefCount
