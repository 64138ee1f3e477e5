import Mathlib.Data.Nat.Log
import Eotan.Set.AaTreeKeyed

namespace Eotan.AaTree

open Eotan.Lib
open Eotan.Lib.LevelTree hiding node
open List

inductive Op where
  | put (key : ℤ) (node : Addr)
  | remove (key : ℤ)
  | get (key : ℤ)

/-- What the caller sees; of the pointer `tree_put` returns only whether it is `NULL`. -/
inductive Reply where
  | put (accepted : Bool)
  | node (p : Option Addr)
deriving DecidableEq

structure World where
  tree : Tree
  mem : Mem

def step (w : World) : Op → Option (World × Reply)
  | .put key node =>
    (treePut w.tree w.mem key node).map fun x => (⟨x.1, x.2.1⟩, .put x.2.2.isSome)
  | .remove key => (treeRemove w.tree w.mem key).map fun x => (⟨x.1, x.2.1⟩, .node x.2.2)
  | .get key => (treeGet w.tree w.mem key).map fun p => (w, .node p)

def run (w : World) : List Op → Option (World × List Reply)
  | [] => some (w, [])
  | op :: ops => do
    let (w, r) ← step w op
    let (w, rs) ← run w ops
    some (w, r :: rs)

abbrev NodeMap := Finmap fun _ : ℤ => Addr

def mapStep (M : NodeMap) : Op → NodeMap × Reply
  | .put key node => if key ∈ M then (M, .put false) else (M.insert key node, .put true)
  | .remove key => (M.erase key, .node (M.lookup key))
  | .get key => (M, .node (M.lookup key))

def mapRun (M : NodeMap) : List Op → NodeMap × List Reply
  | [] => (M, [])
  | op :: ops => ((mapRun (mapStep M op).1 ops).1, (mapStep M op).2 :: (mapRun (mapStep M op).1 ops).2)

inductive Linked (m : Mem) (root : Addr) : Addr → Prop
  | root : Linked m root root
  | left {p : Addr} : Linked m root p → p ≠ nilNode → Linked m root (m p).left
  | right {p : Addr} : Linked m root p → p ≠ nilNode → Linked m root (m p).right

def Offers (w : World) : Op → Prop
  | .put _ node => node ≠ nilNode ∧ ¬Linked w.mem w.tree.root node
  | _ => True

def Fresh (w : World) : List Op → Prop
  | [] => True
  | op :: ops => Offers w op ∧ ∀ x, step w op = some x → Fresh x.1 ops

structure AaInvariants (m : Mem) (root : Addr) : Prop where
  leaf : ∀ p, Linked m root p → p ≠ nilNode → (m p).left = nilNode → (m p).right = nilNode →
    (m p).level = 1
  left : ∀ p, Linked m root p → p ≠ nilNode → (m (m p).left).level = (m p).level - 1
  right : ∀ p, Linked m root p → p ≠ nilNode →
    (m (m p).right).level = (m p).level ∨ (m (m p).right).level = (m p).level - 1
  rightRight : ∀ p, Linked m root p → p ≠ nilNode → (m (m (m p).right).right).level < (m p).level
  full : ∀ p, Linked m root p → p ≠ nilNode → 1 < (m p).level →
    (m p).left ≠ nilNode ∧ (m p).right ≠ nilNode

structure Valid (w : World) (t : Shape) : Prop where
  repr : Repr w.mem w.tree.root t
  balanced : Balanced t
  sorted : Sorted keyOf t
  compare : w.tree.compare = compareInt
  nodeNum : w.tree.nodeNum = t.toList.length

def Models (t : Shape) (M : NodeMap) : Prop := ∀ k a, M.lookup k = some a ↔ (k, a) ∈ t.toList

variable {a p node : Addr} {m : Mem} {t : Shape} {M : NodeMap} {w : World} {key : ℤ}

theorem Repr.subtree (h : Repr m p t) (hb : Balanced t) (ha : a ∈ addrs t) :
    ∃ k lv l r, Repr m a (.node (k, a) lv l r) ∧ Balanced (.node (k, a) lv l r) := by
  induction t generalizing p with
  | nil => simp at ha
  | node y lv l r ihl ihr =>
    obtain ⟨k, b⟩ := y
    rw [addrs_node, mem_append, mem_cons] at ha
    rcases ha with ha | rfl | ha
    · exact ihl h.left hb.2.2.2.2.1 ha
    · obtain rfl := h.held.1
      exact ⟨k, lv, l, r, h, hb⟩
    · exact ihr h.right hb.2.2.2.2.2 ha

theorem Repr.root_mem (h : Repr m p t) : p = nilNode ∨ p ∈ addrs t := by
  cases t with
  | nil => exact .inl h.held
  | node y lv l r => obtain ⟨k, b⟩ := y; rw [h.held.1]; exact .inr (by simp)

theorem Repr.linked_mem (h : Repr m p t) (ha : Linked m p a) : a = nilNode ∨ a ∈ addrs t := by
  have hclosed : ∀ {q : Addr} {u : Shape}, Repr m q u → ∀ b ∈ addrs u,
      ((m b).left = nilNode ∨ (m b).left ∈ addrs u) ∧ ((m b).right = nilNode ∨ (m b).right ∈ addrs u) := by
    intro q u hu
    induction u generalizing q with
    | nil => simp
    | node y lv l r ihl ihr =>
      obtain ⟨k, c⟩ := y
      obtain rfl := hu.held.1
      simp only [addrs_node, mem_append, mem_cons]
      rintro b (hb | rfl | hb)
      · exact ⟨(ihl hu.left b hb).1.imp id .inl, (ihl hu.left b hb).2.imp id .inl⟩
      · exact ⟨hu.left.root_mem.imp id .inl, hu.right.root_mem.imp id fun hx => .inr (.inr hx)⟩
      · exact ⟨(ihr hu.right b hb).1.imp id fun hx => .inr (.inr hx),
          (ihr hu.right b hb).2.imp id fun hx => .inr (.inr hx)⟩
  induction ha with
  | root => exact h.root_mem
  | left hq hn ih => exact (hclosed h _ (ih.resolve_left hn)).1
  | right hq hn ih => exact (hclosed h _ (ih.resolve_left hn)).2

theorem Linked.trans {q : Addr} (h : Linked m p q) (h' : Linked m q a) : Linked m p a := by
  induction h' with
  | root => exact h
  | left _ hn ih => exact .left ih hn
  | right _ hn ih => exact .right ih hn

theorem Repr.linked_of_mem (h : Repr m p t) (ha : a ∈ addrs t) : Linked m p a := by
  induction t generalizing p with
  | nil => simp at ha
  | node y lv l r ihl ihr =>
    obtain ⟨k, b⟩ := y
    obtain ⟨rfl, hn, -⟩ := h.held
    rw [addrs_node, mem_append, mem_cons] at ha
    rcases ha with ha | rfl | ha
    · exact (Linked.root.left hn).trans (ihl h.left ha)
    · exact .root
    · exact (Linked.root.right hn).trans (ihr h.right ha)

theorem Repr.invariants (h : Repr m p t) (hb : Balanced t) : AaInvariants m p := by
  have hsub : ∀ a, Linked m p a → a ≠ nilNode → ∃ l r, (m (m a).left).level = l.level ∧
      (m (m a).right).level = r.level ∧ (m (m (m a).right).right).level = r.right.level ∧
      Held m (m a).left l ∧ Held m (m a).right r ∧ Balanced (.node ((m a).key, a) (m a).level l r) := by
    intro a ha hn
    obtain ⟨k, lv, l, r, hr, hbal⟩ := h.subtree hb ((h.linked_mem ha).resolve_left hn)
    obtain ⟨-, -, -, rfl, rfl, hl, hr'⟩ := hr.held
    exact ⟨l, r, hl.level h.sentinel, hr'.level h.sentinel, hr'.right_level h.sentinel, hl, hr', hbal⟩
  have hnil : (m nilNode).level = 0 := by rw [h.sentinel]; rfl
  refine ⟨?_, ?_, ?_, ?_, ?_⟩ <;> intro a ha hn <;>
    obtain ⟨l, r, el, er, err, hl, hr, h1, hbl, hbr, hbrr, -, -⟩ := hsub a ha hn
  · intro hln _
    rw [hln, hnil] at el
    omega
  · rw [el, hbl]
  · rw [er]; exact hbr
  · rw [err]; exact hbrr
  · intro hlt
    constructor
    · intro hln
      rw [hln, hnil] at el
      omega
    · intro hrn
      rw [hrn, hnil] at er
      omega

theorem Models.mem_iff (h : Models t M) (k : ℤ) : k ∈ M ↔ ∃ a, (k, a) ∈ t.toList := by
  rw [← Finmap.lookup_isSome, Option.isSome_iff_exists]
  exact exists_congr (h k)

theorem Valid.lookup_eq (h : Valid w t) (hM : Models t M)
    (k : ℤ) : (LevelTree.get keyOf k t).map Prod.snd = M.lookup k := by
  ext a
  rw [hM k a, Option.map_eq_some_iff]
  constructor
  · rintro ⟨⟨k', a'⟩, hg, rfl⟩
    obtain ⟨hm, rfl⟩ := (get_eq_some_iff h.sorted k _).mp hg
    exact hm
  · intro hm
    exact ⟨(k, a), (get_eq_some_iff h.sorted k _).mpr ⟨hm, rfl⟩, rfl⟩

theorem Valid.keyed (h : Valid w t) : Keyed keyOf w.tree w.mem t := { h with }

theorem Valid.get (h : Valid w t) (hM : Models t M) (k : ℤ) : treeGet w.tree w.mem k = some (M.lookup k) := by
  rw [h.keyed.get (compares_int h.compare t k), h.lookup_eq hM]

theorem Valid.put_present (h : Valid w t)
    (hn : node ≠ nilNode) (hf : node ∉ addrs t) (hk : ∃ a, (key, a) ∈ t.toList) :
    treePut w.tree w.mem key node = some (w.tree, AaTree.prepared w.mem key node, none) := by
  apply h.keyed.put_present (compares_int h.compare t key) hn hf
  obtain ⟨a, ha⟩ := hk
  exact ⟨(key, a), ha, rfl⟩

theorem Valid.put_absent (h : Valid w t)
    (hn : node ≠ nilNode) (hf : node ∉ addrs t) (hk : ¬∃ a, (key, a) ∈ t.toList) :
    ∃ w' p t', treePut w.tree w.mem key node = some (w'.tree, w'.mem, some p) ∧ Valid w' t' ∧
      (∀ x, x ∈ t'.toList ↔ x = (key, node) ∨ x ∈ t.toList) := by
  obtain ⟨tr', m', p, t', xs, ys, hput, hkeyed, hcompare, hxy, hxay⟩ :=
    h.keyed.put_absent node (compares_int h.compare t key) hn hf (by
      rintro ⟨⟨k, a⟩, ha, rfl⟩
      exact hk ⟨a, ha⟩)
  refine ⟨⟨tr', m'⟩, p, t', hput,
    ⟨hkeyed.repr, hkeyed.balanced, hkeyed.sorted, hcompare.trans h.compare, hkeyed.nodeNum⟩, ?_⟩
  intro x
  rw [hxy, hxay]
  simp only [mem_append, mem_cons]
  tauto

theorem Valid.remove (h : Valid w t) (key : ℤ) : ∃ w', treeRemove w.tree w.mem key =
        some (w'.tree, w'.mem, (LevelTree.remove keyOf key t).1.map Prod.snd) ∧
      Valid w' (LevelTree.remove keyOf key t).2 := by
  obtain ⟨tr', m', hremove, hkeyed, hcompare⟩ := h.keyed.remove (compares_int h.compare t key)
  exact ⟨⟨tr', m'⟩, hremove, hkeyed.repr, hkeyed.balanced, hkeyed.sorted, hcompare.trans h.compare,
    hkeyed.nodeNum⟩

def offered : Op → List Addr
  | .put _ node => [node]
  | _ => []

theorem Sorted.middle (h : Sorted keyOf t) (xs ys : List (ℤ × Addr)) {b : ℤ × Addr}
    (ht : t.toList = xs ++ b :: ys) : (∀ x ∈ xs, x.1 < b.1) ∧ (∀ y ∈ ys, b.1 < y.1) := by
  rw [Sorted, ht, pairwise_append, pairwise_cons] at h
  exact ⟨fun x hx => h.2.2 x hx b (by simp), h.2.1.1⟩

theorem Models.insert {t' : Shape} (h : Models t M)
    (hk : key ∉ M) (ht : ∀ x, x ∈ t'.toList ↔ x = (key, node) ∨ x ∈ t.toList) :
    Models t' (M.insert key node) := by
  intro k a
  rw [ht]
  by_cases he : k = key
  · subst he
    have hnot : (k, a) ∉ t.toList := fun hm => hk ((h.mem_iff k).mpr ⟨a, hm⟩)
    rw [Finmap.lookup_insert]
    simp [hnot, eq_comm]
  · rw [Finmap.lookup_insert_of_ne _ he, h k a]
    simp [he]

theorem Models.erase (h : Models t M) (hs : Sorted keyOf t) (key : ℤ) :
    Models (LevelTree.remove keyOf key t).2 (M.erase key) ∧
      (LevelTree.remove keyOf key t).1.map Prod.snd = M.lookup key := by
  obtain ⟨hnone, heq, hne⟩ | ⟨b, xs, ys, hsome, rfl, hxy, heq⟩ := remove_toList hs key
  · have hkey : M.lookup key = none := by
      rw [Finmap.lookup_eq_none, h.mem_iff]
      rintro ⟨a, ha⟩
      exact hne _ ha rfl
    rw [hnone, hkey]
    refine ⟨fun k a => ?_, rfl⟩
    rw [heq, ← h k a]
    by_cases he : k = key
    · rw [he, Finmap.lookup_erase, hkey]
    · rw [Finmap.lookup_erase_ne he]
  · obtain ⟨hx, hy⟩ := Sorted.middle hs xs ys hxy
    have hb : M.lookup b.1 = some b.2 := (h b.1 b.2).mpr (by rw [hxy]; simp)
    rw [hsome]
    refine ⟨fun k a => ?_, hb.symm⟩
    rw [heq]
    by_cases he : k = b.1
    · rw [he, Finmap.lookup_erase, mem_append]
      constructor
      · intro hc
        simp at hc
      · rintro (hm | hm)
        · exact absurd rfl (hx _ hm).ne
        · exact absurd rfl (hy _ hm).ne
    · rw [Finmap.lookup_erase_ne he, h k a, hxy]
      have : (k, a) ≠ b := fun hc => he (congrArg Prod.fst hc)
      simp [this]

theorem step_valid (h : Valid w t) (hM : Models t M) {op : Op} (ho : Offers w op) :
    ∃ w' t', step w op = some (w', (mapStep M op).2) ∧ Valid w' t' ∧ Models t' (mapStep M op).1 ∧
      ∀ a ∈ addrs t', a ∈ addrs t ∨ a ∈ offered op := by
  cases op with
  | put key node =>
    have hf : node ∉ addrs t := fun hm => ho.2 (h.repr.linked_of_mem hm)
    by_cases hk : key ∈ M
    · refine ⟨⟨w.tree, AaTree.prepared w.mem key node⟩, t, ?_, ?_, ?_, fun a ha => .inl ha⟩
      · simp only [step, mapStep, if_pos hk, h.put_present ho.1 hf ((hM.mem_iff key).mp hk)]
        rfl
      · exact ⟨h.keyed.prepared ho.1 hf, h.balanced, h.sorted, h.compare, h.nodeNum⟩
      · simpa only [mapStep, if_pos hk] using hM
    · obtain ⟨w', p, t', hput, hv, ht⟩ := h.put_absent ho.1 hf (fun hc => hk ((hM.mem_iff key).mpr hc))
      refine ⟨w', t', ?_, hv, ?_, ?_⟩
      · simp only [step, mapStep, if_neg hk, hput]
        rfl
      · simpa only [mapStep, if_neg hk] using hM.insert hk ht
      · intro a ha
        obtain ⟨x, hx, rfl⟩ := mem_map.mp ha
        rcases (ht x).mp hx with rfl | hx
        · exact .inr (by simp [offered])
        · exact .inl (mem_map_of_mem hx)
  | remove key =>
    obtain ⟨w', hrem, hv⟩ := h.remove key
    obtain ⟨hM', hlook⟩ := hM.erase h.sorted key
    refine ⟨w', _, ?_, hv, hM', fun a ha => .inl (addrs_remove_subset key t a ha)⟩
    simp only [step, hrem, mapStep, Option.map_some, hlook]
  | get key =>
    refine ⟨w, t, ?_, h, hM, fun a ha => .inl ha⟩
    simp only [step, mapStep, h.get hM, Option.map_some]

theorem run_valid (h : Valid w t) (hM : Models t M) {ops : List Op} (hf : Fresh w ops) :
    ∃ w' t', run w ops = some (w', (mapRun M ops).2) ∧ Valid w' t' ∧ Models t' (mapRun M ops).1 := by
  induction ops generalizing w t M with
  | nil => exact ⟨w, t, rfl, h, hM⟩
  | cons op ops ih =>
    obtain ⟨w', t', hstep, hv, hM', -⟩ := step_valid h hM hf.1
    obtain ⟨w'', t'', hrun, hv', hM''⟩ := ih hv hM' (hf.2 _ hstep)
    refine ⟨w'', t'', ?_, hv', hM''⟩
    simp only [run, hstep, hrun, Option.bind_eq_bind, Option.bind_some, mapRun]

theorem create_valid (hm : m nilNode = nilRecord) {compare : Option (ℤ → ℤ → ℤ)}
    (hc : compare.getD compareInt = compareInt) : Valid ⟨treeCreate compare, m⟩ .nil :=
  ⟨⟨rfl, nodup_nil, hm⟩, trivial, List.Pairwise.nil, hc, rfl⟩

theorem models_empty : Models .nil ∅ := fun k a => by simp

theorem fresh_of_nodup (h : Valid w t) (hM : Models t M)
    {ops : List Op} (hd : (ops.flatMap offered).Nodup) (hn : nilNode ∉ ops.flatMap offered)
    (ht : ∀ a ∈ addrs t, a ∉ ops.flatMap offered) : Fresh w ops := by
  induction ops generalizing w t M with
  | nil => trivial
  | cons op ops ih =>
    rw [flatMap_cons] at hd hn ht
    rw [nodup_append] at hd
    have ho : Offers w op := by
      cases op with
      | put key node =>
        refine ⟨fun he => hn (by simp [offered, he]), fun hl => ?_⟩
        rcases h.repr.linked_mem hl with he | hm
        · exact hn (by simp [offered, he])
        · exact ht node hm (by simp [offered])
      | remove key => trivial
      | get key => trivial
    refine ⟨ho, fun x hx => ?_⟩
    obtain ⟨w', t', hstep, hv, hM', hsub⟩ := step_valid h hM ho
    obtain rfl := Option.some.inj (hstep.symm.trans hx)
    apply ih hv hM' hd.2.1 (fun hc => hn (mem_append_right _ hc))
    intro a ha hc
    rcases hsub a ha with hm | hm
    · exact ht a hm (mem_append_right _ hc)
    · exact hd.2.2 a hm a hc rfl

theorem tree_run_balanced (m : Mem) (hm : m nilNode = nilRecord) (ops : List Op)
    (hf : Fresh ⟨treeCreate (some compareInt), m⟩ ops) :
    ∃ w rs, run ⟨treeCreate (some compareInt), m⟩ ops = some (w, rs) ∧
      AaInvariants w.mem w.tree.root ∧ w.mem nilNode = nilRecord := by
  obtain ⟨w, t, hrun, hv, -⟩ := run_valid (create_valid hm rfl) models_empty hf
  exact ⟨w, _, hrun, hv.repr.invariants hv.balanced, hv.repr.sentinel⟩

def blankMem : Mem := fun _ => nilRecord

def sampleRun : List Op :=
  [.put 7 1, .put 3 2, .put 9 3, .put 3 4, .put (-5) 5, .put 8 6, .put 1 7, .remove 7, .get 9,
    .remove 7, .remove (-5), .get 3]

theorem sampleRun_fresh (compare : Option (ℤ → ℤ → ℤ)) (hc : compare.getD compareInt = compareInt) :
    Fresh ⟨treeCreate compare, blankMem⟩ sampleRun := by
  apply fresh_of_nodup (create_valid (m := blankMem) rfl hc) models_empty
  · decide
  · decide
  · simp

theorem tree_run_balanced_sample :
    ∃ w rs, run ⟨treeCreate (some compareInt), blankMem⟩ sampleRun = some (w, rs) ∧
      AaInvariants w.mem w.tree.root ∧ w.mem nilNode = nilRecord :=
  tree_run_balanced blankMem rfl sampleRun (sampleRun_fresh _ rfl)

/-- There are `n` nodes one below the other from `p` on. -/
def Descends (m : Mem) : ℕ → Addr → Prop
  | 0, _ => True
  | n + 1, p => p ≠ nilNode ∧ (Descends m n (m p).left ∨ Descends m n (m p).right)

-- A right child may be on the level of its parent, but then its own right child is not.
theorem Held.descends_le (h : Held m p t) (hb : Balanced t) {n : ℕ} (hd : Descends m n p) :
    n ≤ 2 * t.level ∧ (t.right.level < t.level → n < 2 * t.level) := by
  induction t generalizing p n with
  | nil =>
    obtain _ | n := n
    · simp
    · exact absurd h hd.1
  | node a lv l r ihl ihr =>
    obtain ⟨hpos, hl, hr, hrr, hbl, hbr⟩ := hb
    obtain ⟨rfl, -, -, -, -, hleft, hright⟩ := h
    rw [level_node, right_node]
    obtain _ | n := n
    · omega
    rcases hd.2 with hd | hd
    · have := ihl hleft hbl hd
      omega
    · have := ihr hright hbr hd
      omega

theorem tree_run_depth (compare : Option (ℤ → ℤ → ℤ)) (hc : compare.getD compareInt = compareInt)
    (m : Mem) (hm : m nilNode = nilRecord) (ops : List Op) (hf : Fresh ⟨treeCreate compare, m⟩ ops) :
    ∃ w rs, run ⟨treeCreate compare, m⟩ ops = some (w, rs) ∧
      ∀ n, Descends w.mem n w.tree.root → n ≤ 2 * Nat.log 2 (treeSize w.tree + 1) := by
  obtain ⟨w, t, hrun, hv, -⟩ := run_valid (create_valid hm hc) models_empty hf
  refine ⟨w, _, hrun, ?_⟩
  intro n hd
  have hn := (hv.repr.held.descends_le hv.balanced hd).1
  have hlog := Nat.le_log_of_pow_le Nat.one_lt_two hv.balanced.two_pow_level_le
  rw [treeSize, hv.nodeNum]
  omega

theorem tree_run_depth_sample : ∃ w rs, run ⟨treeCreate none, blankMem⟩ sampleRun = some (w, rs) ∧
    ∀ n, Descends w.mem n w.tree.root → n ≤ 2 * Nat.log 2 (treeSize w.tree + 1) :=
  tree_run_depth none rfl blankMem rfl sampleRun (sampleRun_fresh none rfl)

structure Agrees (w : World) (M : NodeMap) : Prop where
  get : ∀ k, treeGet w.tree w.mem k = some (M.lookup k)
  size : treeSize w.tree = M.keys.card
  first_none : treeFirst w.tree w.mem = some none ↔ M = ∅
  first_least : ∀ a, treeFirst w.tree w.mem = some (some a) →
    ∃ k, M.lookup k = some a ∧ ∀ k' ∈ M, k ≤ k'
  first_total : ∃ p, treeFirst w.tree w.mem = some p
  traverse : ∃ l : List (ℤ × Addr), l.Pairwise (fun x y => x.1 < y.1) ∧
    (∀ k a, (k, a) ∈ l ↔ M.lookup k = some a) ∧
    ∀ {σ : Type} (callback : Addr → σ → σ × Bool) (state : σ),
      treeTraverse callback w.tree w.mem state = some (visit callback (l.map Prod.snd) state).1
  put_present : ∀ key node, key ∈ M → Offers w (.put key node) →
    ∃ m, treePut w.tree w.mem key node = some (w.tree, m, none) ∧ ∀ p, p ≠ node → m p = w.mem p

theorem Models.card_keys (h : Models t M) (hs : Sorted keyOf t) : t.toList.length = M.keys.card := by
  have hnd : (t.toList.map Prod.fst).Nodup := by
    rw [List.Nodup, pairwise_map]
    exact List.Pairwise.imp (fun hlt => ne_of_lt hlt) hs
  have hkeys : M.keys = (t.toList.map Prod.fst).toFinset := by
    ext k
    rw [Finmap.mem_keys, h.mem_iff, mem_toFinset, mem_map]
    constructor
    · rintro ⟨a, ha⟩
      exact ⟨(k, a), ha, rfl⟩
    · rintro ⟨⟨k', a⟩, ha, rfl⟩
      exact ⟨a, ha⟩
  rw [hkeys, toFinset_card_of_nodup hnd, length_map]

theorem Valid.first (h : Valid w t) :
    treeFirst w.tree w.mem = some ((t.toList.head?).map Prod.snd) := h.keyed.first

theorem Valid.agrees (h : Valid w t) (hM : Models t M) : Agrees w M where
  get := h.get hM
  size := by rw [treeSize, h.nodeNum, hM.card_keys h.sorted]
  first_none := by
    rw [h.first]
    constructor
    · intro he
      have hnil : t.toList = [] := by
        cases hl : t.toList with
        | nil => rfl
        | cons x xs => simp [hl] at he
      apply Finmap.ext_lookup
      intro k
      rw [Finmap.lookup_empty, Finmap.lookup_eq_none, hM.mem_iff, hnil]
      simp
    · rintro rfl
      have hnil : t.toList = [] := by
        apply eq_nil_iff_forall_not_mem.mpr
        rintro ⟨k, a⟩ hm
        simpa using (hM k a).mpr hm
      rw [hnil]
      rfl
  first_least := by
    intro a ha
    rw [h.first] at ha
    cases hl : t.toList with
    | nil => simp [hl] at ha
    | cons x xs =>
      obtain rfl : x.2 = a := by simpa [hl] using ha
      refine ⟨x.1, (hM _ _).mpr (by rw [hl]; simp), fun k' hk' => ?_⟩
      obtain ⟨a', ha'⟩ := (hM.mem_iff k').mp hk'
      rw [hl, mem_cons] at ha'
      rcases ha' with he | hm
      · exact le_of_eq (congrArg Prod.fst he).symm
      · exact ((Sorted.middle h.sorted [] xs hl).2 _ hm).le
  first_total := ⟨_, h.first⟩
  traverse := by
    refine ⟨t.toList, h.sorted, fun k a => (hM k a).symm, fun callback state => ?_⟩
    rw [treeTraverse, traverseFrom_eq callback h.repr (by rw [depthFuel, h.nodeNum]; omega)]
    rfl
  put_present := by
    intro key node hk ho
    have hf : node ∉ addrs t := fun hm => ho.2 (h.repr.linked_of_mem hm)
    refine ⟨_, h.put_present ho.1 hf ((hM.mem_iff key).mp hk), fun p hp => ?_⟩
    exact prepared_within _ _ _ p (by simpa using hp)

theorem tree_run_agrees (m : Mem) (hm : m nilNode = nilRecord) (ops : List Op)
    (hf : Fresh ⟨treeCreate none, m⟩ ops) :
    ∃ w, run ⟨treeCreate none, m⟩ ops = some (w, (mapRun ∅ ops).2) ∧ Agrees w (mapRun ∅ ops).1 := by
  obtain ⟨w, t, hrun, hv, hM⟩ := run_valid (create_valid hm rfl) models_empty hf
  exact ⟨w, hrun, hv.agrees hM⟩

theorem tree_run_agrees_sample :
    ∃ w, run ⟨treeCreate none, blankMem⟩ sampleRun = some (w, [.put true, .put true, .put true,
        .put false, .put true, .put true, .put true, .node (some 1), .node (some 3), .node none,
        .node (some 5), .node (some 2)]) ∧ Agrees w (mapRun ∅ sampleRun).1 := by
  have h := tree_run_agrees blankMem rfl sampleRun (sampleRun_fresh none rfl)
  have hr : (mapRun ∅ sampleRun).2 = [.put true, .put true, .put true,
      .put false, .put true, .put true, .put true, .node (some 1), .node (some 3), .node none,
      .node (some 5), .node (some 2)] := by decide
  rwa [hr] at h

end Eotan.AaTree
