import Eotan.Fs.Frames
import Eotan.Fs.Vfs
import Mathlib.Data.Finset.Range

/-!
The reference counts of the vnodes. `Own s dying refs` says that they are what the references in
`refs` and the parents of the vnodes amount to; `dying` are the vnodes that `vnodes_remove` has
closed and not freed yet.
-/

namespace Eotan.Fs

open Lib.RefCount
open Function
open Option
open Finset

def pool : Finset ℕ := Finset.range slabVnodes

def graph (s : Vfs) (dying : Finset ℕ) (v : ℕ) : Option (Lib.RefCount.Node ℕ) :=
  if v ∈ dying then none else (s.vnodes v).map Vnode.node

structure Own (s : Vfs) (dying : Finset ℕ) (refs : Multiset ℕ) : Prop where
  counted : Counted pool (graph s dying) refs
  spare_nodup : s.spare.Nodup
  mem_spare : ∀ v, v ∈ s.spare ↔ v < slabVnodes ∧ s.vnodes v = none
  list_nodup : s.list.Nodup
  mem_list : ∀ v ∈ s.list, s.vnodes v ≠ none

variable {s s' : Vfs} {dying : Finset ℕ} {refs : Multiset ℕ} {n : Vnode} {v parent : ℕ}

theorem Steady.vnodes_eq_none (h : Steady s s') (v : ℕ) : s'.vnodes v = none ↔ s.vnodes v = none := by
  rw [← map_eq_none_iff (f := Vnode.node), h.node, map_eq_none_iff]

theorem Steady.graph_eq (h : Steady s s') (dying : Finset ℕ) : graph s' dying = graph s dying := by
  funext v
  unfold graph
  rw [h.node]

theorem Own.congr {dying' : Finset ℕ} {refs' : Multiset ℕ} (h : Own s dying refs) (hspare : s'.spare = s.spare)
    (hlist : s'.list = s.list) (hnone : ∀ v, s'.vnodes v = none ↔ s.vnodes v = none)
    (hcounted : Counted pool (graph s' dying') refs') : Own s' dying' refs' where
  counted := hcounted
  spare_nodup := by
    rw [hspare]
    exact h.spare_nodup
  mem_spare := by
    intro v
    rw [hspare, hnone]
    exact h.mem_spare v
  list_nodup := by
    rw [hlist]
    exact h.list_nodup
  mem_list := by
    intro v hv
    rw [hlist] at hv
    rw [Ne, hnone]
    exact h.mem_list v hv

theorem Own.steady (h : Own s dying refs) (hs : Steady s s') : Own s' dying refs := by
  apply h.congr hs.spare hs.list hs.vnodes_eq_none
  rw [hs.graph_eq]
  exact h.counted

theorem graph_of_notMem (hv : v ∉ dying) (hn : s.vnodes v = some n) : graph s dying v = some n.node := by
  rw [graph, if_neg hv, hn, map_some]

theorem exists_of_graph {x : Lib.RefCount.Node ℕ}
    (h : graph s dying v = some x) : v ∉ dying ∧ ∃ n, s.vnodes v = some n ∧ n.node = x := by
  unfold graph at h
  split_ifs at h with hv
  exact ⟨hv, map_eq_some_iff.mp h⟩

theorem graph_setVnode (s : Vfs) (hv : v ∉ dying) (n : Vnode) :
    graph (s.setVnode v n) dying = update (graph s dying) v (some n.node) := by
  funext w
  by_cases hw : w = v
  · rw [hw, update_self]
    exact graph_of_notMem hv (setVnode_self s v n)
  · rw [update_of_ne hw]
    unfold graph
    change (if w ∈ dying then none else (update s.vnodes v (some n) w).map Vnode.node) = _
    rw [update_of_ne hw]

theorem graph_insert (s : Vfs) (dying : Finset ℕ) (v : ℕ) :
    graph s (insert v dying) = update (graph s dying) v none := by
  funext w
  unfold graph
  by_cases hw : w = v
  · rw [hw, update_self, if_pos (mem_insert_self v dying)]
  · rw [update_of_ne hw]
    simp [hw]

theorem graph_freeVnode (s : Vfs) (dying : Finset ℕ) (v : ℕ) :
    graph (s.freeVnode v) dying = graph s (insert v dying) := by
  rw [graph_insert]
  funext w
  unfold graph
  change (if w ∈ dying then none else (update s.vnodes v none w).map Vnode.node) = _
  by_cases hw : w = v
  · rw [hw, update_self, update_self]
    simp
  · rw [update_of_ne hw, update_of_ne hw]

theorem setVnode_eq_none (s : Vfs) (v : ℕ) (n : Vnode) (w : ℕ) :
    (s.setVnode v n).vnodes w = none ↔ w ≠ v ∧ s.vnodes w = none := by
  change update s.vnodes v (some n) w = none ↔ _
  by_cases hw : w = v
  · simp [hw]
  · simp [hw]

section Lists

variable {refs' : Multiset ℕ}

theorem Own.setVnode (h : Own s dying refs) (hn : s.vnodes v = some n) (n' : Vnode)
    (dying' : Finset ℕ) (hcounted : Counted pool (graph (s.setVnode v n') dying') refs') :
    Own (s.setVnode v n') dying' refs' := by
  refine h.congr rfl rfl (fun w => ?_) hcounted
  rw [setVnode_eq_none, and_iff_right_of_imp]
  rintro hw rfl
  cases hw.symm.trans hn

theorem Own.freeVnode (h : Own s (insert v dying) refs) (hv : v < slabVnodes)
    (hn : s.vnodes v = some n) : Own (s.freeVnode v) dying refs where
  counted := by
    rw [graph_freeVnode]
    exact h.counted
  spare_nodup := by
    apply List.nodup_cons.mpr
    refine ⟨?_, h.spare_nodup⟩
    rw [h.mem_spare, hn]
    simp
  mem_spare := by
    intro w
    change w ∈ v :: s.spare ↔ w < slabVnodes ∧ update s.vnodes v none w = none
    by_cases hw : w = v
    · rw [hw, update_self]
      exact iff_of_true List.mem_cons_self ⟨hv, rfl⟩
    · rw [update_of_ne hw, List.mem_cons, ← h.mem_spare w]
      simp [hw]
  list_nodup := h.list_nodup.erase v
  mem_list := by
    intro w hw
    obtain ⟨hwv, hw⟩ := (List.Nodup.mem_erase_iff h.list_nodup).mp hw
    change update s.vnodes v none w ≠ none
    rw [update_of_ne hwv]
    exact h.mem_list w hw

theorem Own.exists_vnode (h : Own s dying refs) (hv : v ∈ refs) : v ∉ dying ∧ ∃ n, s.vnodes v = some n := by
  obtain ⟨x, hx⟩ := h.counted.exists_of_mem hv
  obtain ⟨hd, n, hn, -⟩ := exists_of_graph hx
  exact ⟨hd, n, hn⟩

theorem Own.exists_parent (h : Own s dying refs) (hd : v ∉ dying) (hn : s.vnodes v = some n)
    {p : ℕ} (hp : n.parent = some p) : ∃ m, s.vnodes p = some m := by
  obtain ⟨x, hx⟩ := h.counted.exists_parent (graph_of_notMem hd hn) hp
  obtain ⟨-, m, hm, -⟩ := exists_of_graph hx
  exact ⟨m, hm⟩

theorem Own.lt (h : Own s dying refs) (hd : v ∉ dying) (hn : s.vnodes v = some n) : v < slabVnodes :=
  mem_range.mp (h.counted.pooled v _ (graph_of_notMem hd hn))

structure Fixed (s s' : Vfs) : Prop where
  root : s'.root = s.root
  stale : s'.stale = s.stale
  reused : s.cache.reused = true → s'.cache.reused = true

theorem Fixed.refl (s : Vfs) : Fixed s s := ⟨rfl, rfl, id⟩

theorem Fixed.trans {s1 s2 s3 : Vfs} (h1 : Fixed s1 s2) (h2 : Fixed s2 s3) : Fixed s1 s3 :=
  ⟨h2.root.trans h1.root, h2.stale.trans h1.stale, fun h => h2.reused (h1.reused h)⟩

theorem Steady.fixed (h : Steady s s') : Fixed s s' := { h with }

theorem retain_fixed (s : Vfs) (v : ℕ) : Fixed s (s.retain v) := by
  unfold Vfs.retain
  split
  · exact Fixed.refl s
  · exact ⟨rfl, rfl, id⟩

theorem Own.retain (h : Own s dying refs) (hd : v ∉ dying) (hn : s.vnodes v = some n) :
    Own (s.retain v) dying (v ::ₘ refs) := by
  unfold Vfs.retain
  rw [hn]
  apply h.setVnode hn
  rw [graph_setVnode s hd]
  exact h.counted.retain (graph_of_notMem hd hn)

theorem tfsClose_none (s : Vfs) (v : ℕ) : (tfsClose s v).1 = none := by
  fun_cases tfsClose
  all_goals grind [synchronizeVnode, Vfs.modify, cacheModify, Vfs.release, cacheRelease]

theorem closeVnode_spec (s : Vfs) (v : ℕ) (vnode : Vnode) :
    ∃ s', closeVnode s v vnode = (none, s') ∧ Steady s s' := by
  unfold closeVnode
  split
  · exact ⟨_, Prod.ext (tfsClose_none s v) rfl, tfsClose_steady s v⟩
  · exact ⟨s, rfl, Steady.refl s⟩

end Lists

def alive (s : Vfs) (dying : Finset ℕ) : ℕ :=
  (pool.filter fun v => (graph s dying v).isSome = true).card

theorem alive_insert_lt {x : Lib.RefCount.Node ℕ} (hpool : v ∈ pool) (hv : graph s dying v = some x)
    (hs' : graph s' (insert v dying) = update (graph s dying) v none) :
    alive s' (insert v dying) < alive s dying := by
  apply card_lt_card
  rw [ssubset_iff_of_subset]
  · refine ⟨v, ?_, ?_⟩
    · simp [hpool, hv]
    · simp [hs']
  · intro w hw
    rw [mem_filter, hs'] at hw
    rw [mem_filter]
    refine ⟨hw.1, ?_⟩
    by_cases hwv : w = v
    · simp [hwv] at hw
    · rw [update_of_ne hwv] at hw
      exact hw.2

structure Dropped (s s' : Vfs) (dying : Finset ℕ) (refs : Multiset ℕ) : Prop extends
    Fixed s s' where
  own : Own s' dying refs
  dying : ∀ d ∈ dying, s.vnodes d ≠ none → s'.vnodes d ≠ none

theorem Own.died {n' : Vnode}
    (h : Own s dying (v ::ₘ refs)) (refs' : Multiset ℕ) (hd : v ∉ dying) (hn : s.vnodes v = some n)
    (hcount : n.referCount ≤ 1) (hs' : Steady (s.setVnode v n') s')
    (hrefs : ∀ w, refs'.count w = refs.count w + if n.parent = some w then 1 else 0) :
    Own s' (insert v dying) refs' ∧ alive s' (insert v dying) < alive s dying := by
  have hgraph : graph s' (insert v dying) = update (graph s dying) v none := by
    rw [hs'.graph_eq, graph_insert, graph_setVnode s hd, update_idem]
  have hv := graph_of_notMem hd hn
  constructor
  · refine (h.setVnode hn n' (insert v dying) ?_).steady hs'
    rw [← hs'.graph_eq, hgraph]
    exact h.counted.release_last hv hcount hrefs
  · exact alive_insert_lt (h.counted.pooled v _ hv) hv hgraph

/-- By induction on how far up the ancestors it may go. The invariant is that the vnodes which are
being closed, `dying`, count for nothing and are left alone. -/
theorem removeLoop_spec (k : ℕ) : ∀ {s : Vfs} {dying : Finset ℕ} {v : ℕ} {refs : Multiset ℕ},
    Own s dying (v ::ₘ refs) → alive s dying < k →
      ∃ s', removeLoop k s v = (none, s') ∧ Dropped s s' dying refs := by
  induction k with
  | zero =>
    intro s dying v refs _ halive
    exact absurd halive (Nat.not_lt_zero _)
  | succ k ih =>
    intro s dying v refs h halive
    obtain ⟨hd, n, hn⟩ := h.exists_vnode (Multiset.mem_cons_self v refs)
    have hne : ∀ d ∈ dying, d ≠ v := by
      rintro d hdd rfl
      exact hd hdd
    have hset : ∀ d ∈ dying, (s.setVnode v { n with referCount := n.referCount - 1 }).vnodes d =
        s.vnodes d := fun d hdd => update_of_ne (hne d hdd) _ _
    have hfree (s2 : Vfs) : ∀ d ∈ dying, (s2.freeVnode v).vnodes d = s2.vnodes d :=
      fun d hdd => update_of_ne (hne d hdd) _ _
    unfold removeLoop
    rw [hn]
    by_cases hlast : n.referCount - 1 ≠ 0
    · refine ⟨_, if_pos hlast, ⟨rfl, rfl, id⟩, ?_, fun d hdd => by rw [hset d hdd]; exact id⟩
      apply h.setVnode hn
      rw [graph_setVnode s hd]
      exact h.counted.release (graph_of_notMem hd hn) (by change 1 < n.referCount; omega)
    obtain ⟨s2, hclose, hsteady⟩ := closeVnode_spec (s.setVnode v { n with referCount := n.referCount - 1 }) v n
    have hlt := h.lt hd hn
    have hkeep (d : ℕ) : (s.setVnode v { n with referCount := n.referCount - 1 }).vnodes d ≠
        none → s2.vnodes d ≠ none := by
      rw [Ne, Ne, hsteady.vnodes_eq_none]
      exact id
    have hn2 : s2.vnodes v ≠ none := by
      apply hkeep
      rw [setVnode_self]
      exact some_ne_none _
    have hd2 : ∀ d ∈ dying, s.vnodes d ≠ none → s2.vnodes d ≠ none := by
      intro d hdd hsome
      apply hkeep
      rwa [hset d hdd]
    have hfixed : Fixed s s2 := { hsteady with }
    simp only [if_neg hlast, hclose]
    cases hp : n.parent with
    | none =>
      obtain ⟨hown, -⟩ := h.died refs hd hn (by omega) hsteady (by simp [hp])
      obtain ⟨m, hm⟩ := ne_none_iff_exists'.mp hn2
      refine ⟨_, rfl, { hfixed with }, hown.freeVnode hlt hm, ?_⟩
      intro d hdd hsome
      rw [hfree s2 d hdd]
      exact hd2 d hdd hsome
    | some p =>
      obtain ⟨hown, hless⟩ := h.died (p ::ₘ refs) hd hn (by omega) hsteady
        (by intro w; rw [Multiset.count_cons, hp]; simp [eq_comm])
      obtain ⟨s3, hs3, hdropped⟩ := ih hown (by omega)
      have hn3 := hdropped.dying v (mem_insert_self v dying) hn2
      obtain ⟨m, hm⟩ := ne_none_iff_exists'.mp hn3
      have hfixed3 := hfixed.trans hdropped.toFixed
      simp only [hs3]
      refine ⟨_, rfl, { hfixed3 with }, hdropped.own.freeVnode hlt hm, ?_⟩
      intro d hdd hsome
      rw [hfree s3 d hdd]
      exact hdropped.dying d (mem_insert_of_mem hdd) (hd2 d hdd hsome)

theorem alive_le (s : Vfs) (dying : Finset ℕ) : alive s dying ≤ slabVnodes := by
  have := card_filter_le pool fun v => (graph s dying v).isSome = true
  rwa [pool, card_range] at this

theorem vnodesRemove_spec (h : Own s ∅ (v ::ₘ refs)) :
    (vnodesRemove s v).1 = none ∧ Own (vnodesRemove s v).2 ∅ refs ∧ Fixed s (vnodesRemove s v).2 := by
  obtain ⟨s', hs', hdropped⟩ := removeLoop_spec (slabVnodes + 1) h (Nat.lt_succ_of_le (alive_le s ∅))
  rw [vnodesRemove, hs']
  exact ⟨rfl, hdropped.own, hdropped.toFixed⟩

theorem vnodesRemove_last (hn : s.vnodes v = some n)
    (hcount : n.referCount ≤ 1) : (vnodesRemove s v).2.vnodes v = none := by
  obtain ⟨s', hclose, -⟩ := closeVnode_spec (s.setVnode v { n with referCount := n.referCount - 1 }) v n
  have hlast : ¬n.referCount - 1 ≠ 0 := by omega
  unfold vnodesRemove removeLoop
  simp only [hn, if_neg hlast, hclose]
  cases n.parent with
  | none => exact update_self ..
  | some p => exact update_self ..

theorem Own.taken {refs' : Multiset ℕ} (h : Own s ∅ refs) {spare : List ℕ}
    (hspare : s.spare = v :: spare) (hspare' : s'.spare = spare) (hlist : s'.list = s.list)
    (hnone : ∀ w, s'.vnodes w = none ↔ w ≠ v ∧ s.vnodes w = none)
    (hcounted : Counted pool (graph s' ∅) refs') : Own s' ∅ refs' where
  counted := hcounted
  spare_nodup := by
    have := h.spare_nodup
    rw [hspare] at this
    rw [hspare']
    exact this.of_cons
  mem_spare := by
    intro w
    have hnodup := h.spare_nodup
    have hmem := h.mem_spare w
    rw [hspare] at hmem hnodup
    rw [hspare', hnone, ← and_left_comm, ← hmem, List.mem_cons]
    constructor
    · intro hw
      refine ⟨?_, .inr hw⟩
      rintro rfl
      exact (List.nodup_cons.mp hnodup).1 hw
    · rintro ⟨hne, rfl | hw⟩
      · exact absurd rfl hne
      · exact hw
  list_nodup := by
    rw [hlist]
    exact h.list_nodup
  mem_list := by
    intro w hw
    rw [hlist] at hw
    rw [Ne, hnone]
    exact fun hw' => h.mem_list w hw hw'.2

theorem vnodesCreate_spec (h : Own s ∅ refs) {parent : Option ℕ}
    (hparent : ∀ p, parent = some p → s.vnodes p ≠ none) (hs' : vnodesCreate s parent = (some v, s')) :
    Own s' ∅ (v ::ₘ refs) ∧ Fixed s s' ∧ v ∉ s'.list ∧ (s'.vnodes v).map Vnode.node = some ⟨1, parent⟩ := by
  unfold vnodesCreate at hs'
  cases hspare : s.spare with
  | nil =>
    rw [hspare] at hs'
    cases hs'
  | cons u spare =>
    obtain ⟨hu, hunone⟩ := (h.mem_spare u).mp (by rw [hspare]; exact List.mem_cons_self)
    have hpool : u ∈ pool := mem_range.mpr hu
    have hgraph : graph s ∅ u = none := by
      rw [graph, hunone]
      simp
    have hulist : u ∉ s.list := fun hm => h.mem_list u hm hunone
    rw [hspare] at hs'
    cases parent with
    | none =>
      cases hs'
      refine ⟨h.taken hspare rfl rfl ?_ ?_, ⟨rfl, rfl, id⟩, hulist, ?_⟩
      · exact setVnode_eq_none _ v _
      · rw [graph_setVnode _ (notMem_empty v)]
        exact h.counted.create hgraph hpool (by simp [newVnode])
      · rw [setVnode_self]
        rfl
    | some p =>
      obtain ⟨m, hm⟩ := ne_none_iff_exists'.mp (hparent p rfl)
      have hpu : p ≠ u := by
        rintro rfl
        rw [hunone] at hm
        cases hm
      have hretain : Vfs.retain ({ s with spare := spare }.setVnode u (newVnode (some p))) p =
          ({ s with spare := spare }.setVnode u (newVnode (some p))).setVnode p
            { m with referCount := m.referCount + 1 } := by
        have hp : ({ s with spare := spare }.setVnode u (newVnode (some p))).vnodes p = some m :=
          (update_of_ne hpu _ _).trans hm
        unfold Vfs.retain
        rw [hp]
      simp only [hretain, Prod.mk.injEq, some.injEq] at hs'
      obtain ⟨rfl, rfl⟩ := hs'
      have hu' : ((({ s with spare := spare }.setVnode u (newVnode (some p))).setVnode p
          { m with referCount := m.referCount + 1 }).vnodes u) = some (newVnode (some p)) :=
        (update_of_ne hpu.symm _ _).trans (update_self ..)
      refine ⟨h.taken hspare rfl rfl ?_ ?_, ⟨rfl, rfl, id⟩, hulist, ?_⟩
      · intro w
        rw [setVnode_eq_none, setVnode_eq_none, and_iff_right_of_imp]
        rintro ⟨-, hw⟩ rfl
        cases hw.symm.trans hm
      · rw [graph_setVnode _ (notMem_empty p), graph_setVnode _ (notMem_empty u), update_comm hpu.symm]
        have hretained := h.counted.retain (graph_of_notMem (notMem_empty p) hm)
        refine hretained.create ?_ hpool ?_
        · rw [update_of_ne hpu.symm]
          exact hgraph
        · intro w
          rw [Multiset.count_cons]
          simp [newVnode, eq_comm]
      · rw [hu']
        rfl

theorem vnodesCreate_none {parent : Option ℕ} (h : vnodesCreate s parent = (none, s')) : s' = s := by
  unfold vnodesCreate at h
  cases hspare : s.spare with
  | nil =>
    rw [hspare] at h
    cases h
    rfl
  | cons v spare =>
    rw [hspare] at h
    cases parent <;> cases h

theorem Own.append (h : Own s ∅ refs) (hv : v ∉ s.list)
    (hn : s.vnodes v ≠ none) : Own (vnodesAppend s v) ∅ refs where
  counted := h.counted
  spare_nodup := h.spare_nodup
  mem_spare := h.mem_spare
  list_nodup := List.nodup_cons.mpr ⟨hv, h.list_nodup⟩
  mem_list := List.forall_mem_cons.mpr ⟨hn, h.mem_list⟩

structure Yields (s : Vfs) (r : Except Errno ℕ) (s' : Vfs) (refs : Multiset ℕ) : Prop extends
    Fixed s s' where
  error : ∀ e, r = .error e → Own s' ∅ refs
  ok : ∀ v, r = .ok v → Own s' ∅ (v ::ₘ refs)

theorem Yields.of_error {e : Errno} (hfixed : Fixed s s') (h : Own s' ∅ refs) : Yields s (.error e) s' refs where
  toFixed := hfixed
  error := fun _ _ => h
  ok := by
    rintro v ⟨⟩

theorem Yields.of_ok (hfixed : Fixed s s') (h : Own s' ∅ (v ::ₘ refs)) : Yields s (.ok v) s' refs where
  toFixed := hfixed
  error := by
    rintro e ⟨⟩
  ok := by
    rintro w ⟨⟩
    exact h

theorem Yields.of_fixed {s1 s2 s3 : Vfs} {r : Except Errno ℕ}
    (hfixed : Fixed s1 s2) (h : Yields s2 r s3 refs) : Yields s1 r s3 refs :=
  { h with toFixed := hfixed.trans h.toFixed }

theorem Yields.drop {r : Except Errno ℕ} {w : ℕ}
    (h : Yields s r s' (w ::ₘ refs)) : Yields s r (vnodesRemove s' w).2 refs := by
  cases r with
  | error e =>
    obtain ⟨-, hown, hfixed⟩ := vnodesRemove_spec (h.error e rfl)
    exact Yields.of_error (h.toFixed.trans hfixed) hown
  | ok v =>
    have hv := h.ok v rfl
    rw [Multiset.cons_swap] at hv
    obtain ⟨-, hown, hfixed⟩ := vnodesRemove_spec hv
    exact Yields.of_ok (h.toFixed.trans hfixed) hown

theorem Yields.fail {e : Errno} (hfixed : Fixed s s') (h : Own s' ∅ (v ::ₘ refs)) :
    Yields s (.error e) (vnodesRemove s' v).2 refs := (Yields.of_error hfixed h).drop

theorem tfsOpen_steady {p : Option ℕ} (ino : ℕ)
    (h : (s.vnodes v).map Vnode.node = some ⟨1, p⟩) : Steady s (tfsOpen s ino v).2 := by
  fun_cases tfsOpen
  all_goals grind [Vnode.node]

theorem openVnode_spec (h : Own s ∅ refs) (ino : ℕ) (hparent : s.vnodes parent ≠ none) :
    Yields s (openVnode s parent ino).1 (openVnode s parent ino).2 refs := by
  unfold openVnode
  cases hfind : vnodesFind s ino with
  | some v =>
    obtain ⟨n, hn⟩ := ne_none_iff_exists'.mp (h.mem_list v (List.mem_of_find?_eq_some hfind))
    exact Yields.of_ok (retain_fixed s v) (h.retain (notMem_empty v) hn)
  | none =>
    simp only
    rcases hcreate : vnodesCreate s (some parent) with ⟨_ | v, s1⟩
    · rw [vnodesCreate_none hcreate]
      exact Yields.of_error (Fixed.refl s) h
    obtain ⟨hown, hfixed, hlist, hnode⟩ := vnodesCreate_spec h (by rintro p ⟨⟩; exact hparent) hcreate
    have hsteady : Steady s1 (tfsOpen s1 ino v).2 := tfsOpen_steady ino hnode
    rcases hopen : tfsOpen s1 ino v with ⟨_ | e, s2⟩
    · rw [hopen] at hsteady
      have hfixed2 := hfixed.trans hsteady.fixed
      simp only [hopen]
      refine Yields.of_ok { hfixed2 with } ((hown.steady hsteady).append ?_ ?_)
      · rw [hsteady.list]
        exact hlist
      · rw [Ne, hsteady.vnodes_eq_none]
        rintro hnone
        rw [hnone] at hnode
        cases hnode
    · rw [hopen] at hsteady
      simp only [hopen]
      exact Yields.fail (hfixed.trans hsteady.fixed) (hown.steady hsteady)

theorem tfsWalk_spec (h : Own s ∅ refs) (name : List UInt8) (hparent : s.vnodes parent ≠ none) :
    Yields s (tfsWalk s parent name).1 (tfsWalk s parent name).2 refs := by
  unfold tfsWalk
  have hsteady := walkLoop_steady parent name (s.entries parent) 0 s
  rcases hwalk : walkLoop parent name (s.entries parent) 0 s with ⟨e | ino, s1⟩
  · rw [hwalk] at hsteady
    exact Yields.of_error hsteady.fixed (h.steady hsteady)
  · rw [hwalk] at hsteady
    rw [Ne, ← hsteady.vnodes_eq_none] at hparent
    exact (openVnode_spec (h.steady hsteady) ino hparent).of_fixed hsteady.fixed

theorem walkName_spec {first : ℕ}
    (h : Own s ∅ (parent ::ₘ refs)) (hfirst : first ∈ refs) (permission : Permission)
    (name : List UInt8) : Yields s (walkName s first parent permission name).1
      (walkName s first parent permission name).2 refs := by
  obtain ⟨hd, n, hn⟩ := h.exists_vnode (Multiset.mem_cons_self parent refs)
  have hfail (e : Errno) : Yields s (.error e) (vnodesRemove s parent).2 refs := Yields.fail (Fixed.refl s) h
  unfold walkName
  simp only [hn]
  split_ifs with hlong hdir hdots
  · exact hfail .enametoolong
  · exact hfail .enotdir
  · obtain ⟨m, hm⟩ : ∃ m, s.vnodes (n.parent.getD first) = some m := by
      cases hp : n.parent with
      | none => exact (h.exists_vnode (Multiset.mem_cons_of_mem hfirst)).2
      | some p => exact h.exists_parent hd hn hp
    have hretain := h.retain (notMem_empty (n.parent.getD first)) hm
    exact Yields.drop (Yields.of_ok (retain_fixed s _) hretain)
  · apply Yields.drop
    cases vfsPermit n permission (rOk ||| xOk) with
    | some e => exact Yields.of_error (Fixed.refl s) h
    | none =>
      apply tfsWalk_spec h
      rw [hn]
      exact some_ne_none n

theorem vfsWalkLoop_spec {first : ℕ} (hfirst : first ∈ refs)
    (permission : Permission) (path : List (List UInt8)) : ∀ {s : Vfs} {parent : ℕ}, Own s ∅ (parent ::ₘ refs) →
      Yields s (vfsWalkLoop first permission path parent s).1
        (vfsWalkLoop first permission path parent s).2 refs := by
  induction path with
  | nil =>
    intro s parent h
    exact Yields.of_ok (Fixed.refl s) h
  | cons name path ih =>
    intro s parent h
    unfold vfsWalkLoop
    split_ifs with hempty
    · exact ih h
    have hname := walkName_spec h hfirst permission name
    rcases hwalk : walkName s first parent permission name with ⟨e | v, s1⟩
    · rw [hwalk] at hname
      exact hname
    · rw [hwalk] at hname
      exact (ih (hname.ok v rfl)).of_fixed hname.toFixed

theorem vfsWalk_spec (h : Own s ∅ refs) {start : ℕ}
    (hstart : start ∈ refs) (path : List UInt8) (flags : ℕ) (permission : Permission) :
    Yields s (vfsWalk s (some start) path flags permission).1
      (vfsWalk s (some start) path flags permission).2 refs := by
  obtain ⟨hd, n, hn⟩ := h.exists_vnode hstart
  have hloop := (vfsWalkLoop_spec hstart permission (path.splitOn slash)
    (h.retain hd hn)).of_fixed (retain_fixed s start)
  unfold vfsWalk
  simp only
  rcases hwalk : vfsWalkLoop start permission (path.splitOn slash) start (s.retain start) with
    ⟨e | v, s1⟩
  · rw [hwalk] at hloop
    exact hloop
  rw [hwalk] at hloop
  have hown : Own s1 ∅ (v ::ₘ refs) := hloop.ok v rfl
  obtain ⟨-, m, hm⟩ := hown.exists_vnode (Multiset.mem_cons_self v refs)
  simp only [hm]
  cases vfsPermit m permission (modes flags) with
  | some e => exact Yields.fail hloop.toFixed hown
  | none => exact hloop

theorem tfsCreate_spec (h : Own s ∅ refs) (name : List UInt8) (hparent : s.vnodes parent ≠ none) :
    Yields s (tfsCreate s parent name).1 (tfsCreate s parent name).2 refs ∧
      ∀ v, (tfsCreate s parent name).1 = .ok v →
        ((tfsCreate s parent name).2.vnodes v).map Vnode.node = some ⟨1, some parent⟩ := by
  unfold tfsCreate
  rcases hcreate : vnodesCreate s (some parent) with ⟨_ | v, s1⟩
  · rw [vnodesCreate_none hcreate]
    exact ⟨Yields.of_error (Fixed.refl s) h, by rintro v ⟨⟩⟩
  obtain ⟨hown, hfixed, hlist, hnode⟩ := vnodesCreate_spec h (by rintro p ⟨⟩; exact hparent) hcreate
  have hsteady := tfsAllocateInode_steady s1 v
  rcases halloc : tfsAllocateInode s1 v with ⟨_ | e, s2⟩
  · rw [halloc] at hsteady
    have hnode2 : (s2.vnodes v).map Vnode.node = some ⟨1, some parent⟩ := by
      rw [hsteady.node, hnode]
    have hown3 : Own (vnodesAppend s2 v) ∅ (v ::ₘ refs) := by
      apply (hown.steady hsteady).append
      · rw [hsteady.list]
        exact hlist
      · intro hnone
        rw [hnone] at hnode2
        cases hnode2
    have hfixed2 := hfixed.trans hsteady.fixed
    have hfixed3 : Fixed s (vnodesAppend s2 v) := { hfixed2 with }
    simp only [halloc]
    have happend := tfsAppendEntry_steady (vnodesAppend s2 v) parent name
      (((vnodesAppend s2 v).vnodes v).elim 0 (·.index))
    rcases hentry : tfsAppendEntry (vnodesAppend s2 v) parent name
      (((vnodesAppend s2 v).vnodes v).elim 0 (·.index)) with ⟨_ | e, s4⟩
    · rw [hentry] at happend
      have hstamp := happend.trans (stampNew_steady s4 v)
      refine ⟨Yields.of_ok (hfixed3.trans hstamp.fixed) (hown3.steady hstamp), ?_⟩
      rintro w ⟨⟩
      rw [hstamp.node]
      exact hnode2
    · rw [hentry] at happend
      have hfree := happend.trans (tfsDeallocateInode_steady s4 v)
      refine ⟨Yields.fail (hfixed3.trans hfree.fixed) (hown3.steady hfree), ?_⟩
      rintro w ⟨⟩
  · rw [halloc] at hsteady
    simp only [halloc]
    refine ⟨Yields.fail (hfixed.trans hsteady.fixed) (hown.steady hsteady), ?_⟩
    rintro w ⟨⟩

theorem adopt_steady (parent mode : ℕ) (permission : Permission) {p : Option ℕ}
    (h : (s.vnodes v).map Vnode.node = some ⟨1, p⟩) : Steady s (adopt s parent v mode permission) := by
  fun_cases adopt
  all_goals grind [Vnode.node]

theorem vfsCreate_spec (h : Own s ∅ refs)
    (hparent : parent ∈ refs) (name : List UInt8) (flags mode : ℕ) (permission : Permission) :
    Yields s (vfsCreate s parent name flags mode permission).1
      (vfsCreate s parent name flags mode permission).2 refs := by
  obtain ⟨-, n, hn⟩ := h.exists_vnode hparent
  have hfail (e : Errno) : Yields s (.error e) s refs := Yields.of_error (Fixed.refl s) h
  unfold vfsCreate
  simp only [hn]
  split_ifs
  · exact hfail .enotdir
  · exact hfail .eacces
  · exact hfail .einval
  · exact hfail .einval
  · exact hfail .einval
  · have hwalk := vfsWalk_spec h hparent name oAccmode permission
    rcases hvfs : vfsWalk s (some parent) name oAccmode permission with ⟨e | v, s1⟩
    · rw [hvfs] at hwalk
      have hown := hwalk.error e rfl
      obtain ⟨-, m, hm⟩ := hown.exists_vnode hparent
      obtain ⟨hyields, hnode⟩ := tfsCreate_spec hown name (by rw [hm]; exact some_ne_none m)
      simp only
      rcases htfs : tfsCreate s1 parent name with ⟨e' | v, s2⟩
      · rw [htfs] at hyields
        exact hyields.of_fixed hwalk.toFixed
      · rw [htfs] at hyields hnode
        have hsteady := adopt_steady parent mode permission (hnode v rfl)
        exact Yields.of_ok ((hwalk.toFixed.trans hyields.toFixed).trans hsteady.fixed)
          ((hyields.ok v rfl).steady hsteady)
    · rw [hvfs] at hwalk
      exact Yields.fail hwalk.toFixed (hwalk.ok v rfl)

structure Removes (s : Vfs) (v : ℕ) (r : Option Errno) (s' : Vfs) (refs : Multiset ℕ) : Prop extends
    Fixed s s' where
  error : ∀ e, r = some e → Own s' ∅ (v ::ₘ refs)
  ok : r = none → Own s' ∅ refs ∧ s'.vnodes v = none

theorem vfsRemove_spec (h : Own s ∅ (v ::ₘ refs)) (permission : Permission) :
    Removes s v (vfsRemove s v permission).1 (vfsRemove s v permission).2 refs := by
  obtain ⟨hd, n, hn⟩ := h.exists_vnode (Multiset.mem_cons_self v refs)
  have hfail (e : Errno) : Removes s v (some e) s refs := ⟨Fixed.refl s, fun _ _ => h, by rintro ⟨⟩⟩
  unfold vfsRemove
  simp only [hn]
  cases hp : n.parent with
  | none => exact hfail .einval
  | some parent =>
    obtain ⟨dir, hdir⟩ := h.exists_parent hd hn hp
    simp only [hdir]
    split_ifs with hisdir hpermit hbusy
    · exact hfail .enotdir
    · exact hfail .eacces
    · exact hfail .ebusy
    · have hsteady := tfsRemove_steady s parent v
      rcases htfs : tfsRemove s parent v with ⟨_ | e, s1⟩
      · rw [htfs] at hsteady
        obtain ⟨m, hm, hnode⟩ := map_eq_some_iff.mp (hsteady.map_node hn)
        obtain ⟨-, hown, hfixed⟩ := vnodesRemove_spec (h.steady hsteady)
        have hcount : m.referCount ≤ 1 := by
          have : m.referCount = n.referCount := congrArg Lib.RefCount.Node.count hnode
          omega
        exact ⟨hsteady.fixed.trans hfixed, by rintro e ⟨⟩, fun _ => ⟨hown, vnodesRemove_last hm hcount⟩⟩
      · rw [htfs] at hsteady
        exact ⟨hsteady.fixed, fun _ _ => h.steady hsteady, by rintro ⟨⟩⟩

end Eotan.Fs
