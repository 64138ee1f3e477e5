import Eotan.Set.AaTreeRepr

/-!
The recursive functions of the tree act on memory as insertion, removal, search and traversal
act on level trees. Fuel beyond the number of nodes is enough for each of them.
-/

namespace Eotan.AaTree

open Eotan.Lib LevelTree
open List

theorem compareInt_eq_zero {a b : ℤ} : compareInt a b = 0 ↔ a = b := by
  unfold compareInt
  split_ifs <;> simp <;> omega

theorem compareInt_neg {a b : ℤ} : compareInt a b < 0 ↔ a < b := by
  unfold compareInt
  split_ifs <;> simp <;> omega

variable {a p q : Addr} {l r t : Shape} {lv k : ℤ} {m m' : Mem} {s : List Addr} {n : ℕ}

theorem Repr.left (h : Repr m p (.node (k, a) lv l r)) : Repr m (m p).left l :=
  ⟨by rw [h.held.1]; exact h.held.2.2.2.2.2.1, (nodup_node h.nodup).1, h.sentinel⟩

theorem Repr.right (h : Repr m p (.node (k, a) lv l r)) : Repr m (m p).right r :=
  ⟨by rw [h.held.1]; exact h.held.2.2.2.2.2.2, (nodup_node h.nodup).2.1, h.sentinel⟩

theorem Repr.enter (h : Repr m p (.node (k, a) lv l r)) (hn : (LevelTree.node (k, a) lv l r).toList.length < n) :
    p = a ∧ isNil p = false ∧ (m p).key = k ∧
      ∃ n', n = n' + 1 ∧ l.toList.length < n' ∧ r.toList.length < n' := by
  obtain ⟨rfl, hnil, -, hk, -, -, -⟩ := h.held
  simp only [toList_node, length_append, length_cons] at hn
  exact ⟨rfl, by simpa [isNil] using hnil, hk, n - 1, by omega, by omega, by omega⟩

theorem Repr.frame (h : Repr m p t)
    (hw : Within m m' s) (hd : ∀ a ∈ addrs t, a ∉ s) (hs : m' nilNode = nilRecord) : Repr m' p t :=
  ⟨hw.repr h.held hd, h.nodup, hs⟩

theorem Repr.place (hw : Within m m' [a]) (ha : m' a = ⟨k, lv, p, q⟩) (hn : a ≠ nilNode) (hlv : 1 ≤ lv)
    (hl : Repr m p l) (hr : Repr m q r) (hal : a ∉ addrs l) (har : a ∉ addrs r)
    (hlr : ∀ b ∈ addrs l, b ∉ addrs r) : Repr m' a (.node (k, a) lv l r) := by
  have hnd : (addrs (.node (k, a) lv l r)).Nodup := by
    rw [addrs_node, nodup_middle, nodup_cons, mem_append, nodup_append]
    refine ⟨not_or.mpr ⟨hal, har⟩, hl.nodup, hr.nodup, ?_⟩
    intro b hb c hc hbc
    exact hlr b hb (hbc ▸ hc)
  refine ⟨Held.place hw ha hn hlv hl.held hr.held hnd, hnd, ?_⟩
  rw [hw _ (by simpa using hn.symm), hl.sentinel]

section Relink

variable {G : Mem → Addr → Mem × Addr} {g : Shape → Shape} {Q : Shape → Prop}

theorem Refines.relinkLeft {l' : Shape} (hG : Refines G g Q) (h : Repr m p (.node (k, p) lv l r))
    (hw : Within m m' s) (hl : Repr m' q l') (hp : p ∉ s) (hr : ∀ a ∈ addrs r, a ∉ s)
    (hs : ∀ a ∈ addrs l', a ∈ s) (hq : Q (.node (k, p) lv l' r)) :
    Repr (G (setLeft m' p q) p).1 (G (setLeft m' p q) p).2 (g (.node (k, p) lv l' r)) ∧
      Within m' (G (setLeft m' p q) p).1 (addrs l' ++ p :: addrs r) ∧
      Within m (G (setLeft m' p q) p).1 (s ++ p :: addrs r) := by
  obtain ⟨-, hn, hlv, hk, hlev, -, -⟩ := h.held
  have hlink : Repr (setLeft m' p q) p (.node (k, p) lv l' r) :=
    Repr.place (update_within m' p _) (by simp [setLeft, hw p hp, hk, hlev]) hn hlv hl
      (h.right.frame hw hr hl.sentinel) (fun hm => hp (hs p hm)) (nodup_node h.nodup).2.2.2.1
      (fun b hb hb' => hr b hb' (hs b hb))
  obtain ⟨hrep, hw'⟩ := hG _ _ _ hlink hq
  rw [addrs_node] at hw'
  have hafter := Within.trans ((update_within m' p _).mono (by simp)) hw'
  refine ⟨hrep, hafter, Within.trans (hw.mono fun a => mem_append_left _) (hafter.mono ?_)⟩
  intro a ha
  exact mem_append.mpr ((mem_append.mp ha).imp (hs a) id)

theorem Refines.relinkRight {r' : Shape} (hG : Refines G g Q) (h : Repr m p (.node (k, p) lv l r))
    (hw : Within m m' s) (hr : Repr m' q r') (hp : p ∉ s) (hl : ∀ a ∈ addrs l, a ∉ s)
    (hs : ∀ a ∈ addrs r', a ∈ s) (hq : Q (.node (k, p) lv l r')) :
    Repr (G (setRight m' p q) p).1 (G (setRight m' p q) p).2 (g (.node (k, p) lv l r')) ∧
      Within m (G (setRight m' p q) p).1 (addrs l ++ p :: s) := by
  obtain ⟨-, hn, hlv, hk, hlev, -, -⟩ := h.held
  have hlink : Repr (setRight m' p q) p (.node (k, p) lv l r') :=
    Repr.place (update_within m' p _) (by simp [setRight, hw p hp, hk, hlev]) hn hlv
      (h.left.frame hw hl hr.sentinel) hr (nodup_node h.nodup).2.2.1 (fun hm => hp (hs p hm))
      (fun b hb hb' => hl b hb (hs b hb'))
  obtain ⟨hrep, hw'⟩ := hG _ _ _ hlink hq
  refine ⟨hrep, Within.trans ((hw.mono fun a ha => by simp [ha]).update (by simp)) (hw'.mono ?_)⟩
  intro a ha
  rw [addrs_node, mem_append, mem_cons] at ha
  rw [mem_append, mem_cons]
  exact ha.imp id fun hx => hx.imp id (hs a)

end Relink

theorem splitSkew_refines : Refines (fun m p => nodeSplit (nodeSkew m p).1 (nodeSkew m p).2)
    (fun t => split (skew t)) fun t => t ≠ .nil := by
  intro m p t h ht
  exact nodeSplit_refines.comp (nodeSkew_refines m p t h trivial) (toList_skew t) (ne_nil_congr (toList_skew t) ht)

abbrev keyOf : ℤ × Addr → ℤ := Prod.fst

section Keys

variable {κ : Type} [LinearOrder κ] {key : ℤ × Addr → κ}

/-- Comparing `c` with the nodes of the tree is comparing `k` with their keys. -/
def Compares (tr : Tree) (key : ℤ × Addr → κ) (t : Shape) (c : ℤ) (k : κ) : Prop :=
  ∀ y ∈ t.toList, (tr.compare c y.1 = 0 ↔ k = key y) ∧ (tr.compare c y.1 < 0 ↔ k < key y)

variable {c : ℤ} {tr : Tree} {y : ℤ × Addr} {t' : Shape}

theorem Compares.left {k : κ} (h : Compares tr key (.node y lv l r) c k) : Compares tr key l c k := by
  intro z hz
  apply h
  rw [toList_node]
  exact mem_append_left _ hz

theorem Compares.right {k : κ} (h : Compares tr key (.node y lv l r) c k) : Compares tr key r c k := by
  intro z hz
  apply h
  rw [toList_node]
  exact mem_append_right _ (mem_cons_of_mem _ hz)

theorem Compares.root {k : κ} (h : Compares tr key (.node y lv l r) c k) :
    (tr.compare c y.1 = 0 ↔ k = key y) ∧ (tr.compare c y.1 < 0 ↔ k < key y) := by
  apply h
  rw [toList_node]
  exact mem_append_right _ mem_cons_self

theorem compares_int (hc : tr.compare = compareInt) (t : Shape) (c : ℤ) : Compares tr keyOf t c c := by
  intro y _
  rw [hc]
  exact ⟨compareInt_eq_zero, compareInt_neg⟩

theorem addrs_put {x : ℤ × Addr} (h : put key x t = some t') : ∀ a, a ∈ addrs t' ↔ a = x.2 ∨ a ∈ addrs t := by
  induction t generalizing t' with
  | nil =>
    obtain rfl : LevelTree.node x 1 .nil .nil = t' := by simpa [put] using h
    simp [addrs]
  | node y lv l r ihl ihr =>
    intro a
    simp only [put] at h
    split_ifs at h
    · obtain ⟨l', hl', rfl⟩ := Option.map_eq_some_iff.mp h
      have := ihl hl' a
      simp only [addrs, toList_split, toList_skew, toList_node, map_append, map_cons,
        mem_append, mem_cons] at this ⊢
      rw [this, or_assoc]
    · obtain ⟨r', hr', rfl⟩ := Option.map_eq_some_iff.mp h
      have := ihr hr' a
      simp only [addrs, toList_split, toList_skew, toList_node, map_append, map_cons,
        mem_append, mem_cons] at this ⊢
      rw [this]
      tauto

theorem nodePut_none {child : Addr}
    (hc : Compares tr key t (m child).key (key ((m child).key, child))) (h : Repr m p t)
    (hn : t.toList.length < n) (hp : put key ((m child).key, child) t = none) :
    nodePut tr n m p child = some (m, none) := by
  induction t generalizing p n with
  | nil => simp [put] at hp
  | node y lv l r ihl ihr =>
    obtain ⟨k, a⟩ := y
    obtain ⟨rfl, hni, hk, n, rfl, hnl, hnr⟩ := h.enter hn
    simp only [put] at hp
    simp only [nodePut, hni, hk, hc.root.1, hc.root.2, Bool.false_eq_true, if_false]
    split_ifs at hp ⊢ with he hlt
    · rfl
    · rw [Option.map_eq_none_iff] at hp
      rw [ihl hc.left h.left hnl hp]
      rfl
    · rw [Option.map_eq_none_iff] at hp
      rw [ihr hc.right h.right hnr hp]
      rfl

theorem nodePut_some {child : Addr} (hcn : child ≠ nilNode)
    (hrec : m child = ⟨(m child).key, 1, nilNode, nilNode⟩)
    (hc : Compares tr key t (m child).key (key ((m child).key, child))) (h : Repr m p t)
    (hfresh : child ∉ addrs t) (hn : t.toList.length < n) (hp : put key ((m child).key, child) t = some t') :
    ∃ m' q, nodePut tr n m p child = some (m', some q) ∧ Repr m' q t' ∧ Within m m' (child :: addrs t) := by
  induction t generalizing p n t' with
  | nil =>
    obtain rfl : LevelTree.node ((m child).key, child) 1 .nil .nil = t' := by simpa [put] using hp
    obtain _ | n := n
    · simp at hn
    obtain rfl : p = nilNode := h.held
    have hnil : Repr m nilNode .nil := ⟨rfl, nodup_nil, h.sentinel⟩
    refine ⟨m, child, by simp [nodePut, isNil], ?_, fun a _ => rfl⟩
    exact Repr.place (fun _ _ => rfl) hrec hcn le_rfl hnil hnil (by simp) (by simp) (by simp)
  | node y lv l r ihl ihr =>
    obtain ⟨k, a⟩ := y
    obtain ⟨rfl, hni, hk, n, rfl, hnl, hnr⟩ := h.enter hn
    obtain ⟨-, -, hpl, hpr, hlr⟩ := nodup_node h.nodup
    simp only [addrs_node, mem_append, mem_cons, not_or] at hfresh
    simp only [put] at hp
    simp only [nodePut, hni, hk, hc.root.1, hc.root.2, Bool.false_eq_true, if_false]
    split_ifs at hp ⊢ with he hlt
    · obtain ⟨l', hl', rfl⟩ := Option.map_eq_some_iff.mp hp
      obtain ⟨m', q, hput, hrep, hw⟩ := ihl hc.left h.left hfresh.1 hnl hl'
      rw [hput]
      obtain ⟨hr, -, hw'⟩ := splitSkew_refines.relinkLeft h hw hrep (by simp [Ne.symm hfresh.2.1, hpl])
        (fun b hb hb' => (mem_cons.mp hb').elim (fun he => hfresh.2.2 (he ▸ hb)) (hlr b · hb))
        (fun b hb => by simpa using (addrs_put hl' b).mp hb) (by simp)
      refine ⟨_, _, rfl, hr, ?_⟩
      rw [addrs_node]
      exact hw'
    · obtain ⟨r', hr', rfl⟩ := Option.map_eq_some_iff.mp hp
      obtain ⟨m', q, hput, hrep, hw⟩ := ihr hc.right h.right hfresh.2.2 hnr hr'
      rw [hput]
      obtain ⟨hr, hw'⟩ := splitSkew_refines.relinkRight h hw hrep (by simp [Ne.symm hfresh.2.1, hpr])
        (fun b hb hb' => (mem_cons.mp hb').elim (fun he => hfresh.1 (he ▸ hb)) (hlr b hb))
        (fun b hb => by simpa using (addrs_put hr' b).mp hb) (by simp)
      refine ⟨_, _, rfl, hr, hw'.mono ?_⟩
      intro b hb
      simp only [addrs_node, mem_append, mem_cons] at hb ⊢
      tauto

theorem addrs_removeMin {x : ℤ × Addr} (h : removeMin t = some (x, t')) : addrs t = x.2 :: addrs t' := by
  rw [addrs, removeMin_toList h, map_cons, addrs]

theorem nodeRemoveSwap_refines (tr : Tree) (dst : Addr) (h : Repr m p t) (hb : Balanced t) (hdst : dst ∉ addrs t)
    (hn : t.toList.length ≤ n) (hm : removeMin t = some ((k, a), t')) :
    ∃ m' q, nodeRemoveSwap n tr m p dst = some (nodeDestroy tr dst, m', q, a) ∧ Repr m' q t' ∧
      Within m m' (addrs t) ∧ (m' a).key = k ∧ (m' a).level = (m dst).level ∧ (m' a).left = (m dst).left := by
  induction t generalizing p n t' with
  | nil => simp [removeMin] at hm
  | node y lv l r ihl ihr =>
    obtain ⟨j, b⟩ := y
    obtain ⟨rfl, hnil, hlv, hk, hlev, hleft, -⟩ := h.held
    obtain ⟨-, -, hpl, hpr, hlr⟩ := nodup_node h.nodup
    simp only [toList_node, length_append, length_cons] at hn
    obtain _ | n := n
    · omega
    cases l with
    | nil =>
      obtain ⟨⟨rfl, rfl⟩, rfl⟩ : (j = k ∧ p = a) ∧ r = t' := by simpa [removeMin] using hm
      have hl : (m p).left = nilNode := hleft
      have hdp : dst ≠ p := by
        rintro rfl
        exact hdst (by simp)
      simp only [nodeRemoveSwap, hl, isNil, beq_self_eq_true, if_true]
      set m1 := setLevel m p (m dst).level with hm1
      have hd1 : m1 dst = m dst := by simp [hm1, setLevel, hdp]
      rw [hd1]
      have hm2 : setLeft m1 p (m dst).left p = { m p with level := (m dst).level, left := (m dst).left } := by
        simp [setLeft, hm1, setLevel]
      have hw : Within m (setLeft m1 p (m dst).left) [p] :=
        (update_within m p _).update (mem_singleton_self p)
      refine ⟨_, _, rfl, ?_, hw.mono (by simp), ?_, ?_, ?_⟩
      · apply h.right.frame hw
        · intro c hc he
          exact hpr (mem_singleton.mp he ▸ hc)
        · rw [hw _ (by simpa using hnil.symm), h.sentinel]
      · rw [hm2]; exact hk
      · rw [hm2]
      · rw [hm2]
    | node z mm ll lr =>
      simp only [removeMin] at hm
      obtain ⟨⟨x, l'⟩, hl', he⟩ := Option.map_eq_some_iff.mp hm
      obtain ⟨rfl, rfl⟩ : x = (k, a) ∧ rebalance (.node (j, p) lv l' r) = t' := by simpa using he
      have hln : isNil (m p).left = false := by
        rw [Bool.eq_false_iff, ne_eq, hleft.isNil_iff]
        simp
      have hdl : dst ∉ addrs (.node z mm ll lr) := fun hc => hdst (by
        rw [addrs_node]; exact mem_append_left _ hc)
      obtain ⟨m', q, hswap, hrep, hw, hka, hla, hlefta⟩ :=
        ihl (n := n) h.left hb.2.2.2.2.1 hdl (by simp only [toList_node] at hn ⊢; omega) hl'
      have hadd := addrs_removeMin hl'
      simp only [nodeRemoveSwap, hln, Bool.false_eq_true, if_false]
      rw [hswap]
      have hmend := (shrunk_left hb (removeMin_shrunk hb.2.2.2.2.1 hl') (by simp)).2
      obtain ⟨hr, hafter, hw'⟩ := nodeRebalance_refines.relinkLeft h hw hrep hpl (fun c hc hc' => hlr c hc' hc)
        (fun c hc => by rw [hadd]; exact mem_cons_of_mem _ hc) hmend
      have hap : a ≠ p := fun he => hpl (by rw [hadd, he]; simp)
      have hal : a ∉ addrs l' := by
        have hnd := h.left.nodup
        rw [hadd, nodup_cons] at hnd
        exact hnd.1
      have har : a ∉ addrs r := hlr a (by rw [hadd]; simp)
      have hsame := hafter a (by simp [hal, hap, har])
      refine ⟨_, _, rfl, hr, ?_, ?_, ?_, ?_⟩
      · rw [addrs_node]
        exact hw'
      · rw [hsame, hka]
      · rw [hsame, hla]
      · rw [hsame, hlefta]

def destroyIf (tr : Tree) : Option (ℤ × Addr) → Tree
  | none => tr
  | some x => nodeDestroy tr x.2

theorem addrs_remove_subset (k : κ) (t : Shape) : ∀ a ∈ addrs (remove key k t).2, a ∈ addrs t := by
  induction t with
  | nil => simp [remove]
  | node y lv l r ihl ihr =>
    intro a ha
    obtain ⟨c, b⟩ := y
    simp only [remove] at ha
    rw [addrs_node, mem_append, mem_cons]
    split_ifs at ha
    · rcases l with _ | ⟨c, x, u, v⟩
      · exact .inr (.inr ha)
      rcases r with _ | ⟨d, y, w, z⟩
      · exact .inl ha
      obtain ⟨e, t', ht⟩ := removeMin_isSome (t := LevelTree.node d y w z) (by simp)
      simp only [ht, Option.map_some, Option.getD_some, addrs, toList_rebalance, toList_node e,
        map_append, map_cons, mem_append, mem_cons] at ha
      rw [addrs_removeMin ht]
      simp only [mem_cons]
      rcases ha with ha | ha | ha
      · exact .inl ha
      · exact .inr (.inr (.inl ha))
      · exact .inr (.inr (.inr ha))
    · simp only [addrs, toList_rebalance, toList_node, map_append, map_cons, mem_append, mem_cons] at ha
      exact ha.imp (ihl a) id
    · simp only [addrs, toList_rebalance, toList_node, map_append, map_cons, mem_append, mem_cons] at ha
      exact ha.imp id fun hx => hx.imp id (ihr a)

theorem nodeRemove_refines (tr : Tree) {i : κ}
    (hc : Compares tr key t c i) (h : Repr m p t) (hb : Balanced t) (hn : t.toList.length < n) :
    ∃ m' q, nodeRemove n tr m p c = some (destroyIf tr (remove key i t).1, m', q) ∧
      Repr m' q (remove key i t).2 ∧ Within m m' (addrs t) := by
  induction t generalizing p n with
  | nil =>
    obtain _ | n := n
    · simp at hn
    obtain rfl : p = nilNode := h.held
    exact ⟨m, nilNode, by simp [nodeRemove, isNil, remove, destroyIf], h, fun a _ => rfl⟩
  | node y lv l r ihl ihr =>
    obtain ⟨k, b⟩ := y
    obtain ⟨rfl, hni, hk, n, rfl, hnl, hnr⟩ := h.enter hn
    obtain ⟨-, -, hlv, -, hlev, hleft, hright⟩ := h.held
    obtain ⟨-, -, hpl, hpr, hlr⟩ := nodup_node h.nodup
    simp only [remove]
    simp only [nodeRemove, hni, hk, hc.root.1, hc.root.2, Bool.false_eq_true, if_false]
    by_cases he : i = key (k, p)
    · simp only [if_pos he]
      rcases l with _ | ⟨z, x, u, v⟩
      · rw [if_pos (hleft.isNil_iff.mpr rfl)]
        exact ⟨m, _, rfl, h.right, fun a _ => rfl⟩
      rcases r with _ | ⟨w, y, c, d⟩
      · rw [if_neg (fun hz => by simpa using hleft.isNil_iff.mp hz), if_pos (hright.isNil_iff.mpr rfl)]
        exact ⟨m, _, rfl, h.left, fun a _ => rfl⟩
      rw [if_neg (fun hz => by simpa using hleft.isNil_iff.mp hz),
        if_neg (fun hz => by simpa using hright.isNil_iff.mp hz)]
      obtain ⟨⟨j, a⟩, r', hmin⟩ := removeMin_isSome (t := LevelTree.node w y c d) (by simp)
      have hbr := hb.2.2.2.2.2
      have hadd := addrs_removeMin hmin
      obtain ⟨m', q, hswap, hrep, hw, hka, hla, hlefta⟩ := nodeRemoveSwap_refines tr p
        h.right hbr hpr hnr.le hmin
      rw [hswap]
      simp only [hmin, Option.map_some, Option.getD_some]
      have hnd := h.right.nodup
      rw [hadd, nodup_cons] at hnd
      have hal : a ∉ addrs (.node z x u v) := fun hin => hlr a hin (by rw [hadd]; simp)
      have han : a ≠ nilNode := h.right.held.ne_nilNode a (by rw [hadd]; simp)
      -- the successor already carries the level and the left subtree of the removed node
      have hplace : Repr (setRight m' a q) a (.node (j, a) lv (.node z x u v) r') := by
        apply Repr.place (update_within m' a _) _ han hlv (h.left.frame hw hlr hrep.sentinel) hrep hal hnd.1
        · exact fun b hb hb' => hlr b hb (by rw [hadd]; exact mem_cons_of_mem _ hb')
        · simp [hka, hla, hlev, hlefta]
      have hmend := (shrunk_right (b := (j, a)) hb (removeMin_shrunk hbr hmin) (by simp)).2
      obtain ⟨hr, hw'⟩ := nodeRebalance_refines _ _ _ hplace hmend
      refine ⟨_, _, rfl, hr, ?_⟩
      apply Within.trans ((hw.mono _).update _) (hw'.mono _)
      · intro b hb
        rw [addrs_node]
        exact mem_append_right _ (mem_cons_of_mem _ hb)
      · rw [addrs_node, hadd]; simp
      · intro b hb
        simp only [addrs_node j, addrs_node k, hadd, mem_append, mem_cons] at hb ⊢
        tauto
    · simp only [if_neg he]
      by_cases hlt : i < key (k, p)
      · simp only [if_pos hlt]
        obtain ⟨m', q, hrem, hrep, hw⟩ := ihl hc.left h.left hb.2.2.2.2.1 hnl
        have hmend : Mendable (.node (k, p) lv (remove key i l).2 r) := by
          by_cases hl : l = .nil
          · subst hl; exact .inl hb
          · exact (shrunk_left hb (remove_shrunk key i hb.2.2.2.2.1) hl).2
        obtain ⟨hr, -, hw'⟩ := nodeRebalance_refines.relinkLeft h hw hrep hpl (fun c hc hc' => hlr c hc' hc)
          (addrs_remove_subset i l) hmend
        rw [hrem, addrs_node]
        exact ⟨_, _, rfl, hr, hw'⟩
      · simp only [if_neg hlt]
        obtain ⟨m', q, hrem, hrep, hw⟩ := ihr hc.right h.right hb.2.2.2.2.2 hnr
        have hmend : Mendable (.node (k, p) lv l (remove key i r).2) := by
          by_cases hl : r = .nil
          · subst hl; exact .inl hb
          · exact (shrunk_right (b := (k, p)) hb (remove_shrunk key i hb.2.2.2.2.2) hl).2
        obtain ⟨hr, hw'⟩ := nodeRebalance_refines.relinkRight h hw hrep hpr hlr (addrs_remove_subset i r) hmend
        rw [hrem, addrs_node]
        exact ⟨_, _, rfl, hr, hw'⟩

theorem treeGetLoop_eq {i : κ} (hc : Compares tr key t c i) (h : Repr m p t) (hn : t.toList.length < n) :
    treeGetLoop tr m c n p = some ((LevelTree.get key i t).map Prod.snd) := by
  induction t generalizing p n with
  | nil =>
    obtain _ | n := n
    · simp at hn
    obtain rfl : p = nilNode := h.held
    simp [treeGetLoop, isNil, LevelTree.get]
  | node y lv l r ihl ihr =>
    obtain ⟨k, b⟩ := y
    obtain ⟨rfl, hni, hk, n, rfl, hnl, hnr⟩ := h.enter hn
    simp only [LevelTree.get]
    simp only [treeGetLoop, hni, hk, hc.root.1, hc.root.2, Bool.false_eq_true, if_false]
    split_ifs with he hlt
    · rfl
    · exact ihl hc.left h.left hnl
    · exact ihr hc.right h.right hnr

end Keys

theorem treeFirstLoop_eq (h : Repr m p t) (ht : t ≠ .nil) (hn : t.toList.length ≤ n) :
    treeFirstLoop m n p = (first t).map Prod.snd := by
  induction t generalizing p n with
  | nil => exact absurd rfl ht
  | node y lv l r ihl ihr =>
    obtain ⟨k, b⟩ := y
    obtain ⟨rfl, -, -, -, -, hleft, -⟩ := h.held
    simp only [toList_node, length_append, length_cons] at hn
    obtain _ | n := n
    · omega
    cases l with
    | nil => simp [treeFirstLoop, hleft.isNil_iff.mpr rfl, first]
    | node z x u v =>
      have hln : ¬isNil (m p).left = true := fun hz => by simpa using hleft.isNil_iff.mp hz
      rw [treeFirstLoop, if_neg hln, first]
      exact ihl h.left (by simp) (by omega)

section Traverse

variable {σ : Type} (callback : Addr → σ → σ × Bool)

def visit : List Addr → σ → σ × Bool
  | [], state => (state, false)
  | a :: as, state =>
    if (callback a state).2 then ((callback a state).1, true) else visit as (callback a state).1

theorem visit_append (as bs : List Addr) (state : σ) : visit callback (as ++ bs) state =
    if (visit callback as state).2 then ((visit callback as state).1, true)
    else visit callback bs (visit callback as state).1 := by
  induction as generalizing state with
  | nil => simp [visit]
  | cons a as ih =>
    simp only [cons_append, visit]
    by_cases hstop : (callback a state).2 = true
    · simp only [if_pos hstop, if_true]
    · simp only [if_neg hstop]
      exact ih _

theorem traverseFrom_eq (h : Repr m p t) (hn : t.toList.length < n) (state : σ) :
    traverseFrom callback m n p state = some (visit callback (addrs t) state) := by
  induction t generalizing p n state with
  | nil =>
    obtain _ | n := n
    · simp at hn
    obtain rfl : p = nilNode := h.held
    simp [traverseFrom, isNil, visit]
  | node y lv l r ihl ihr =>
    obtain ⟨k, b⟩ := y
    obtain ⟨rfl, hni, -, n, rfl, hnl, hnr⟩ := h.enter hn
    simp only [traverseFrom, hni, Bool.false_eq_true, if_false]
    rw [ihl h.left hnl, addrs_node, visit_append, visit]
    simp only [Option.bind_eq_bind, Option.bind_some]
    split_ifs with hstop hhere
    · rfl
    · rfl
    · exact ihr h.right hnr _

end Traverse

end Eotan.AaTree
