import Eotan.Set.AaTreeOps

namespace Eotan.Lib.LevelTree

variable {α β : Type}

def map (f : α → β) : LevelTree α → LevelTree β
  | nil => nil
  | node a lv l r => node (f a) lv (map f l) (map f r)

section

variable (f : α → β) (t : LevelTree α)

theorem toList_map : (t.map f).toList = t.toList.map f := by
  induction t with
  | nil => rfl
  | node a lv l r ihl ihr =>
    rw [map, toList_node, toList_node, List.map_append, List.map_cons, ihl, ihr]

theorem level_map : (t.map f).level = t.level := by
  cases t <;> rfl

theorem right_map : (t.map f).right = t.right.map f := by
  cases t <;> rfl

end

theorem balanced_map (f : α → β) {t : LevelTree α} (h : Balanced t) : Balanced (t.map f) := by
  induction t with
  | nil => trivial
  | node a lv l r ihl ihr =>
    obtain ⟨hlv, hl, hr, hrr, hbl, hbr⟩ := h
    refine ⟨hlv, ?_, ?_, ?_, ihl hbl, ihr hbr⟩
    · rw [level_map, hl]
    · rw [level_map]
      exact hr
    · rw [right_map, level_map]
      exact hrr

end Eotan.Lib.LevelTree

namespace Eotan.AaTree

open Eotan.Lib LevelTree

variable {κ : Type} [LinearOrder κ]

structure Keyed (key : ℤ × Addr → κ) (tr : Tree) (m : Mem) (t : Shape) : Prop where
  repr : Repr m tr.root t
  balanced : Balanced t
  sorted : Sorted key t
  nodeNum : tr.nodeNum = t.toList.length

variable {key : ℤ × Addr → κ} {tr : Tree} {m : Mem} {t : Shape} {c : ℤ} {k : κ}

theorem Keyed.fuel (h : Keyed key tr m t) : t.toList.length < depthFuel tr := by
  rw [depthFuel, h.nodeNum]
  exact Nat.lt_succ_self _

theorem Keyed.get (h : Keyed key tr m t) (hc : Compares tr key t c k) :
    treeGet tr m c = some ((LevelTree.get key k t).map Prod.snd) := treeGetLoop_eq hc h.repr h.fuel

theorem Keyed.first (h : Keyed key tr m t) : treeFirst tr m = some ((t.toList.head?).map Prod.snd) := by
  rw [treeFirst]
  by_cases hr : isNil tr.root = true
  · obtain rfl := h.repr.held.isNil_iff.mp hr
    rw [if_pos hr]
    rfl
  have ht : t ≠ .nil := fun he => hr (h.repr.held.isNil_iff.mpr he)
  rw [if_neg hr, treeFirstLoop_eq h.repr ht h.fuel.le, first_eq_head?]
  obtain ⟨x, xs, hx⟩ : ∃ x xs, t.toList = x :: xs :=
    List.exists_cons_of_ne_nil fun he => ht (toList_eq_nil_iff.mp he)
  rw [hx]
  rfl

def prepared (m : Mem) (key : ℤ) (node : Addr) : Mem :=
  setRight (setLeft (setLevel (setKey m node key) node 1) node nilNode) node nilNode

theorem prepared_self (m : Mem) (key : ℤ) (node : Addr) :
    prepared m key node node = ⟨key, 1, nilNode, nilNode⟩ := by
  simp [prepared, setRight, setLeft, setLevel, setKey]

theorem prepared_within (m : Mem) (key : ℤ) (node : Addr) : Within m (prepared m key node) [node] := by
  intro a ha
  simp only [List.mem_singleton] at ha
  simp [prepared, setRight, setLeft, setLevel, setKey, ha]

theorem treePut_eq (t : Tree) (m : Mem) (key : ℤ) (node : Addr) : treePut t m key node =
    (nodePut t (depthFuel t) (prepared m key node) t.root node).bind fun x =>
      match x.2 with
      | some p => some ({ t with root := p, nodeNum := t.nodeNum + 1 }, x.1, some p)
      | none => some (t, x.1, none) := rfl

theorem Keyed.prepared (h : Keyed key tr m t) {node : Addr} (hn : node ≠ nilNode)
    (hf : node ∉ addrs t) : Repr (prepared m c node) tr.root t := by
  apply h.repr.frame (prepared_within _ _ _)
  · intro a ha he
    exact hf (List.mem_singleton.mp he ▸ ha)
  · rw [prepared_within _ _ _ _ (by simpa using hn.symm), h.repr.sentinel]

theorem Keyed.put_present (h : Keyed key tr m t) {node : Addr}
    (hc : Compares tr key t c (key (c, node))) (hn : node ≠ nilNode) (hf : node ∉ addrs t)
    (hk : ∃ y ∈ t.toList, key y = key (c, node)) :
    treePut tr m c node = some (tr, AaTree.prepared m c node, none) := by
  have hself := prepared_self m c node
  have hnone : put key ((AaTree.prepared m c node node).key, node) t = none := by
    rw [hself, put_eq_none_iff h.sorted]
    exact hk
  rw [treePut_eq, nodePut_none (by rw [hself]; exact hc) (h.prepared hn hf) h.fuel hnone]
  rfl

theorem Keyed.put_absent (h : Keyed key tr m t) (node : Addr)
    (hc : Compares tr key t c (key (c, node))) (hn : node ≠ nilNode) (hf : node ∉ addrs t)
    (hk : ¬∃ y ∈ t.toList, key y = key (c, node)) :
    ∃ tr' m' p t' xs ys, treePut tr m c node = some (tr', m', some p) ∧ Keyed key tr' m' t' ∧
      tr'.compare = tr.compare ∧ t.toList = xs ++ ys ∧ t'.toList = xs ++ (c, node) :: ys := by
  obtain ⟨t', ht'⟩ : ∃ t', put key (c, node) t = some t' := by
    rw [← Option.isSome_iff_exists, Option.isSome_iff_ne_none, ne_eq, put_eq_none_iff h.sorted]
    exact hk
  have hself := prepared_self m c node
  obtain ⟨m', q, hput, hrep, -⟩ := nodePut_some (m := AaTree.prepared m c node) hn
    (by rw [hself]) (by rw [hself]; exact hc) (h.prepared hn hf) hf h.fuel (by rw [hself]; exact ht')
  obtain ⟨xs, ys, hxy, hxay, -⟩ := put_toList h.sorted ht'
  refine ⟨{ tr with root := q, nodeNum := tr.nodeNum + 1 }, m', q, t', xs, ys, ?_, ?_, rfl, hxy, hxay⟩
  · rw [treePut_eq, hput]
    rfl
  · refine ⟨hrep, put_balanced key _ h.balanced ht', put_sorted h.sorted ht', ?_⟩
    simp only [h.nodeNum, hxy, hxay, List.length_append, List.length_cons]
    omega

theorem Keyed.remove (h : Keyed key tr m t) (hc : Compares tr key t c k) :
    ∃ tr' m', treeRemove tr m c = some (tr', m', (LevelTree.remove key k t).1.map Prod.snd) ∧
      Keyed key tr' m' (LevelTree.remove key k t).2 ∧ tr'.compare = tr.compare := by
  obtain ⟨m', q, hrem, hrep, -⟩ := nodeRemove_refines { tr with removed := none } hc h.repr h.balanced h.fuel
  refine ⟨{ destroyIf { tr with removed := none } (LevelTree.remove key k t).1 with root := q }, m',
    ?_, ⟨hrep, remove_balanced key k h.balanced, remove_sorted h.sorted k, ?_⟩, ?_⟩
  · simp only [treeRemove, depthFuel] at hrem ⊢
    rw [hrem]
    cases (LevelTree.remove key k t).1 <;> rfl
  · obtain ⟨hnone, heq, -⟩ | ⟨b, xs, ys, hsome, -, hxy, heq⟩ := remove_toList h.sorted k
    · simp only [hnone, heq, destroyIf, h.nodeNum]
    · simp only [hsome, heq, destroyIf, nodeDestroy, h.nodeNum, hxy, List.length_append, List.length_cons]
      omega
  · cases (LevelTree.remove key k t).1 <;> rfl

def relabel (a : Addr) (c : ℤ) (y : ℤ × Addr) : ℤ × Addr := if y.2 = a then (c, a) else y

theorem relabel_snd (a : Addr) (c : ℤ) (y : ℤ × Addr) : (relabel a c y).2 = y.2 := by
  unfold relabel
  split
  · rename_i h
    exact h.symm
  · rfl

theorem addrs_relabel (a : Addr) (c : ℤ) (t : Shape) : addrs (t.map (relabel a c)) = addrs t := by
  rw [addrs, addrs, toList_map, List.map_map]
  apply List.map_congr_left
  intro y _
  exact relabel_snd a c y

theorem Held.setKey {a : Addr} {c : ℤ} {p : Addr} (h : Held m p t) :
    Held (setKey m a c) p (t.map (relabel a c)) := by
  induction t generalizing p with
  | nil => exact h
  | node y lv l r ihl ihr =>
    obtain ⟨k, b⟩ := y
    obtain ⟨rfl, hn, hlv, hk, hl, hleft, hright⟩ := h
    by_cases hpa : p = a
    · subst hpa
      simp only [LevelTree.map, relabel, if_pos]
      refine ⟨rfl, hn, hlv, ?_, ?_, ?_, ?_⟩
      · simp [AaTree.setKey]
      · simp [AaTree.setKey, hl]
      · simpa [AaTree.setKey] using ihl hleft
      · simpa [AaTree.setKey] using ihr hright
    · simp only [LevelTree.map, relabel, if_neg hpa]
      refine ⟨rfl, hn, hlv, ?_, ?_, ?_, ?_⟩
      · simp [AaTree.setKey, hpa, hk]
      · simp [AaTree.setKey, hpa, hl]
      · simpa [AaTree.setKey, hpa] using ihl hleft
      · simpa [AaTree.setKey, hpa] using ihr hright

theorem Keyed.setKey (h : Keyed key tr m t) {a : Addr} (ha : a ≠ nilNode)
    (hk : ∀ y ∈ t.toList, key (relabel a c y) = key y) : Keyed key tr (setKey m a c) (t.map (relabel a c)) := by
  refine ⟨⟨h.repr.held.setKey, ?_, ?_⟩, balanced_map _ h.balanced, ?_, ?_⟩
  · rw [addrs_relabel]
    exact h.repr.nodup
  · rw [AaTree.setKey, Function.update_of_ne ha.symm]
    exact h.repr.sentinel
  · rw [Sorted, toList_map, List.pairwise_map]
    apply List.Pairwise.imp_of_mem _ h.sorted
    intro y z hy hz hlt
    rw [hk y hy, hk z hz]
    exact hlt
  · rw [toList_map, List.length_map]
    exact h.nodeNum

end Eotan.AaTree
