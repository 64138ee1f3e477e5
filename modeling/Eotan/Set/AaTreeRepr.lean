import Eotan.Lib.LevelTreeOrder
import Eotan.Set.AaTree

/-!
Trees in memory as level trees: which level tree a pointer stands for, and that the rotations
of the source act on memory as the rotations of level trees do, touching only their own nodes.
-/

namespace Eotan.AaTree

open Eotan.Lib LevelTree
open List

abbrev Shape := LevelTree (ℤ × Addr)

def addrs (t : Shape) : List Addr := t.toList.map Prod.snd

def nilRecord : Node := ⟨0, 0, nilNode, nilNode⟩

def Held (m : Mem) : Addr → Shape → Prop
  | p, .nil => p = nilNode
  | p, .node (k, a) lv l r => p = a ∧ a ≠ nilNode ∧ 1 ≤ lv ∧ (m a).key = k ∧ (m a).level = lv ∧
      Held m (m a).left l ∧ Held m (m a).right r

structure Repr (m : Mem) (p : Addr) (t : Shape) : Prop where
  held : Held m p t
  nodup : (addrs t).Nodup
  sentinel : m nilNode = nilRecord

@[simp] theorem addrs_nil : addrs .nil = [] := rfl

@[simp] theorem addrs_node (k : ℤ) (a : Addr) (lv : ℤ) (l r : Shape) :
    addrs (.node (k, a) lv l r) = addrs l ++ a :: addrs r := by
  simp [addrs]

variable {t : Shape} {m m' : Mem} {p : Addr} {s : List Addr}

theorem addrs_congr {t' : Shape} (h : t'.toList = t.toList) : addrs t' = addrs t := by
  rw [addrs, addrs, h]

theorem Held.congr (h : Held m p t) (hm : ∀ a ∈ addrs t, m' a = m a) : Held m' p t := by
  induction t generalizing p with
  | nil => exact h
  | node x lv l r ihl ihr =>
    obtain ⟨k, a⟩ := x
    obtain ⟨rfl, hn, hlv, hk, hl, hleft, hright⟩ := h
    simp only [addrs_node, mem_append, mem_cons] at hm
    have hp := hm p (.inr (.inl rfl))
    refine ⟨rfl, hn, hlv, by rw [hp, hk], by rw [hp, hl], ?_, ?_⟩
    · rw [hp]
      exact ihl hleft fun a ha => hm a (.inl ha)
    · rw [hp]
      exact ihr hright fun a ha => hm a (.inr (.inr ha))

theorem Held.ne_nilNode (h : Held m p t) : ∀ a ∈ addrs t, a ≠ nilNode := by
  induction t generalizing p with
  | nil => simp
  | node x lv l r ihl ihr =>
    obtain ⟨k, a⟩ := x
    obtain ⟨rfl, hn, -, -, -, hleft, hright⟩ := h
    simp only [addrs_node, mem_append, mem_cons]
    rintro b (hb | rfl | hb)
    · exact ihl hleft b hb
    · exact hn
    · exact ihr hright b hb

theorem Repr.nilNode_notMem (h : Repr m p t) : nilNode ∉ addrs t := fun hm => h.held.ne_nilNode _ hm rfl

theorem Held.level (h : Held m p t) (hs : m nilNode = nilRecord) : (m p).level = t.level := by
  cases t with
  | nil => rw [show p = nilNode from h, hs]; rfl
  | node x lv l r => obtain ⟨k, a⟩ := x; rw [h.1]; exact h.2.2.2.2.1

theorem Held.right_level (h : Held m p t)
    (hs : m nilNode = nilRecord) : (m (m p).right).level = t.right.level := by
  cases t with
  | nil => rw [show p = nilNode from h, hs]; simp only [nilRecord, hs, right_nil, level_nil]
  | node x lv l r => obtain ⟨k, a⟩ := x; rw [h.1]; exact h.2.2.2.2.2.2.level hs

theorem Held.isNil_iff (h : Held m p t) : isNil p = true ↔ t = .nil := by
  cases t with
  | nil => simp [isNil, show p = nilNode from h]
  | node x lv l r => obtain ⟨k, a⟩ := x; simp [isNil, h.1, h.2.1]

def Within (m m' : Mem) (s : List Addr) : Prop := ∀ a ∉ s, m' a = m a

theorem Within.trans {n o : Mem} (h : Within m n s) (h' : Within n o s) :
    Within m o s := fun a ha => (h' a ha).trans (h a ha)

theorem Within.mono {s' : List Addr} (h : Within m m' s) (hs : ∀ a ∈ s, a ∈ s') :
    Within m m' s' := fun a ha => h a fun hm => ha (hs a hm)

theorem Within.repr (h : Within m m' s) (hr : Held m p t) (hd : ∀ a ∈ addrs t, a ∉ s) : Held m' p t :=
  hr.congr fun a ha => h a (hd a ha)

/-- `F` does to a represented tree what `f` does to the level tree it represents. -/
def Refines (F : Mem → Addr → Mem × Addr) (f : Shape → Shape) (P : Shape → Prop) : Prop :=
  ∀ m p t, Repr m p t → P t → Repr (F m p).1 (F m p).2 (f t) ∧ Within m (F m p).1 (addrs t)

theorem setLeft_self {q : Addr} (h : (m p).left = q) : setLeft m p q = m := by
  rw [← h]; exact Function.update_eq_self p m

theorem setRight_self {q : Addr} (h : (m p).right = q) : setRight m p q = m := by
  rw [← h]; exact Function.update_eq_self p m

theorem nodeSkew_sentinel (h : m nilNode = nilRecord) : nodeSkew m nilNode = (m, nilNode) := by
  have hl : (m nilNode).left = nilNode := by rw [h]; rfl
  have hr : (m nilNode).right = nilNode := by rw [h]; rfl
  simp only [nodeSkew, hl, hr, if_true]
  rw [setLeft_self hl, setRight_self hr]

theorem nodup_node {k : ℤ} {a : Addr} {lv : ℤ} {l r : Shape} (h : (addrs (.node (k, a) lv l r)).Nodup) :
    (addrs l).Nodup ∧ (addrs r).Nodup ∧ a ∉ addrs l ∧ a ∉ addrs r ∧ ∀ b ∈ addrs l, b ∉ addrs r := by
  rw [addrs_node, nodup_middle, nodup_cons, mem_append, nodup_append] at h
  refine ⟨h.2.1, h.2.2.1, fun hm => h.1 (.inl hm), fun hm => h.1 (.inr hm), ?_⟩
  exact fun b hb hb' => h.2.2.2 b hb b hb' rfl

theorem Within.update {x : Node} (h : Within m m' s) (hp : p ∈ s) : Within m (Function.update m' p x) s := by
  intro a ha
  have hap : a ≠ p := fun he => ha (he ▸ hp)
  rw [Function.update_of_ne hap]
  exact h a ha

theorem update_within (m : Mem) (p : Addr) (x : Node) : Within m (Function.update m p x) [p] :=
  Within.update (fun _ _ => rfl) (mem_singleton_self p)

theorem Held.frame {a : Addr} (h : Held m p t) (hw : Within m m' [a]) (ha : a ∉ addrs t) : Held m' p t :=
  hw.repr h fun _ hb he => ha (mem_singleton.mp he ▸ hb)

/-- Writing the record of one node puts it over two trees that do not use its address. -/
theorem Held.place {k lv : ℤ} {a q : Addr} {l r : Shape} (hw : Within m m' [a]) (ha : m' a = ⟨k, lv, p, q⟩)
    (hn : a ≠ nilNode) (hlv : 1 ≤ lv) (hl : Held m p l) (hr : Held m q r)
    (hnd : (addrs (.node (k, a) lv l r)).Nodup) : Held m' a (.node (k, a) lv l r) := by
  obtain ⟨-, -, hal, har, -⟩ := nodup_node hnd
  refine ⟨rfl, hn, hlv, by rw [ha], by rw [ha], ?_, ?_⟩
  · rw [ha]
    exact hl.frame hw hal
  · rw [ha]
    exact hr.frame hw har

theorem Repr.rotate {t' : Shape} {q : Addr} (h : Repr m p t) (ht : t'.toList = t.toList)
    (hw : Within m m' (addrs t)) (hh : Held m' q t') : Repr m' q t' ∧ Within m m' (addrs t) := by
  refine ⟨⟨hh, ?_, ?_⟩, hw⟩
  · rw [addrs_congr ht]
    exact h.nodup
  · rw [hw _ h.nilNode_notMem, h.sentinel]

theorem nodeSkew_refines : Refines nodeSkew skew fun _ => True := by
  intro m p t h _
  obtain ⟨hh, hnd, hs⟩ := id h
  match t with
  | .nil =>
    rw [show p = nilNode from hh, nodeSkew_sentinel hs]
    exact ⟨⟨rfl, hnd, hs⟩, fun a _ => rfl⟩
  | .node (k, a) lv l r =>
    obtain ⟨rfl, hn, hlv, hk, hl, hleft, hright⟩ := id hh
    have hlev := hleft.level hs
    by_cases he : l.level = lv
    · obtain ⟨⟨j, b⟩, ll, lr, rfl⟩ := exists_node he (by omega)
      obtain ⟨hb, hbn, -, hbk, hbl, hbleft, hbright⟩ := hleft
      have hpl := (nodup_node hnd).2.2.1
      simp only [addrs_node, mem_append, mem_cons, not_or] at hpl
      have hnd' : (addrs (skew (.node (k, p) lv (.node (j, b) lv ll lr) r))).Nodup := by
        rwa [addrs_congr (toList_skew _)]
      apply h.rotate (toList_skew _)
      · simp only [nodeSkew, hb, hl, hbl, if_true]
        exact ((update_within m p _).mono (by simp)).update (by simp)
      · rw [skew_of_eq] at hnd' ⊢
        simp only [nodeSkew, hb, hl, hbl, if_true]
        have hlow : Held (setLeft m p (m b).right) p (.node (k, p) lv lr r) :=
          Held.place (update_within m p _) (by simp [setLeft, hk, hl]) hn hlv hbright hright (nodup_node hnd').2.1
        apply Held.place (update_within _ b _) _ hbn hlv (hbleft.frame (update_within m p _) hpl.1) hlow hnd'
        simp [setLeft, Ne.symm hpl.2.1, hbk, hbl]
    · rw [skew_of_ne he]
      simp only [nodeSkew, hlev, hl, he, if_false]
      exact ⟨⟨hh, hnd, hs⟩, fun a _ => rfl⟩

theorem nodeSplit_refines : Refines nodeSplit split fun t => t ≠ .nil := by
  intro m p t h ht
  obtain ⟨hh, hnd, hs⟩ := id h
  match t with
  | .nil => exact absurd rfl ht
  | .node (k, a) lv l r =>
    obtain ⟨rfl, hn, hlv, hk, hl, hleft, hright⟩ := id hh
    have hlev := hright.right_level hs
    by_cases he : r.right.level = lv
    · match r with
      | .nil => simp only [right_nil, level_nil] at he; omega
      | .node (j, b) n rl rr =>
        obtain ⟨⟨i, c⟩, x, y, rfl⟩ := exists_node (t := rr) he (by omega)
        obtain ⟨hb, hbn, hblv, hbk, hbl, hbleft, hbright⟩ := hright
        have hpr := (nodup_node hnd).2.2.2.1
        rw [addrs_node, mem_append, mem_cons, not_or, not_or] at hpr
        have hnd' : (addrs (split (.node (k, p) lv l (.node (j, b) n rl (.node (i, c) lv x y))))).Nodup := by
          rwa [addrs_congr (toList_split _)]
        have hfire : (m (m (m p).right).right).level = (m p).level := by rw [hlev, hl, he]
        apply h.rotate (toList_split _)
        · simp only [nodeSplit]
          rw [if_pos hfire, hb]
          exact (((update_within m p _).mono (by simp)).update (by simp)).update (by simp)
        · rw [split_of_eq] at hnd' ⊢
          simp only [nodeSplit]
          rw [if_pos hfire, hb]
          have hlow : Held (setRight m p (m b).left) p (.node (k, p) lv l rl) :=
            Held.place (update_within m p _) (by simp [setRight, hk, hl]) hn hlv hleft hbleft (nodup_node hnd').1
          have hup := hbright.frame (update_within m p { m p with right := (m b).left }) hpr.2.2
          refine Held.place ?_ ?_ hbn (by omega) hlow hup hnd'
          · exact (update_within _ b _).update (mem_singleton_self b)
          · simp [setLevel, setLeft, setRight, Ne.symm hpr.2.1, hbk, hbl]
    · rw [split_of_ne he]
      have hno : ¬(m (m (m p).right).right).level = (m p).level := by rw [hlev, hl]; exact he
      simp only [nodeSplit]
      rw [if_neg hno]
      exact ⟨⟨hh, hnd, hs⟩, fun a _ => rfl⟩

theorem onRight_refines {F : Mem → Addr → Mem × Addr} {f : Shape → Shape} {P : Shape → Prop}
    (hF : Refines F f P) (hf : ∀ t, (f t).toList = t.toList) :
    Refines (onRight F) (mapRight f) fun t => t ≠ .nil ∧ P t.right := by
  intro m p t h ht
  obtain ⟨hh, hnd, hs⟩ := id h
  match t with
  | .nil => exact absurd rfl ht.1
  | .node (k, a) lv l r =>
    obtain ⟨rfl, hn, hlv, hk, hl, hleft, hright⟩ := hh
    obtain ⟨-, hdr, -, hpr, hlr⟩ := nodup_node hnd
    obtain ⟨hrep, hw⟩ := hF m _ r ⟨hright, hdr, hs⟩ ht.2
    apply h.rotate (toList_mapRight hf _)
    · apply Within.update _ (by simp)
      exact hw.mono (by simp +contextual)
    · refine Held.place (update_within _ p _) ?_ hn hlv (hw.repr hleft hlr) hrep.held ?_
      · simp [onRight, setRight, hw p hpr, hk, hl]
      · rwa [← mapRight_node f, addrs_congr (toList_mapRight hf _)]

theorem right_mapRight_eq_nil {f : Shape → Shape} (hf : ∀ t, (f t).toList = t.toList) (t : Shape) :
    (mapRight f t).right = .nil ↔ t.right = .nil := by
  cases t with
  | nil => rfl
  | node x lv l r =>
    rw [mapRight_node, right_node, right_node, ← toList_eq_nil_iff, hf, toList_eq_nil_iff]

theorem ne_nil_congr {t' : Shape} (h : t'.toList = t.toList) (ht : t ≠ .nil) : t' ≠ .nil := by
  rwa [ne_eq, ← toList_eq_nil_iff, h, toList_eq_nil_iff]

theorem right_ne_nil_of_split (h : (split t).right ≠ .nil) : t.right ≠ .nil := by
  intro hr
  cases t with
  | nil => exact h rfl
  | node x lv l r =>
    obtain rfl : r = .nil := hr
    exact h rfl

def lower (t : Shape) : Shape :=
  match t with
  | .nil => .nil
  | .node x lv l r =>
    .node x (lv - 1) l (if r.level > lv - 1 then r.setLevel (lv - 1) else r)

def lowerNode (m : Mem) (p : Addr) : Mem × Addr :=
  let m := setLevel m p ((m p).level - 1)
  let m := if (m (m p).right).level > (m p).level then setLevel m (m p).right (m p).level else m
  (m, p)

theorem toList_lower (t : Shape) : (lower t).toList = t.toList := by
  cases t with
  | nil => rfl
  | node x lv l r => simp only [lower]; split_ifs <;> simp

theorem lowerNode_refines : Refines lowerNode lower fun t => 1 < t.level := by
  intro m p t h ht
  obtain ⟨hh, hnd, hs⟩ := id h
  match t with
  | .nil => simp at ht
  | .node (k, a) lv l r =>
    obtain ⟨rfl, hn, hlv, hk, hl, hleft, hright⟩ := hh
    obtain ⟨-, hdr, hpl, hpr, hlr⟩ := nodup_node hnd
    rw [level_node] at ht
    set m' := setLevel m p (lv - 1) with hm'
    have hw : Within m m' [p] := update_within m p _
    have hp : m' p = { m p with level := lv - 1 } := by simp [hm', setLevel]
    have hright' : Held m' (m p).right r := hright.frame hw hpr
    have hs' : m' nilNode = nilRecord := by rw [hw _ (by simpa using hn.symm), hs]
    apply h.rotate (toList_lower _)
    · simp only [lowerNode, hl, ← hm', hp, hright'.level hs']
      split_ifs with hgt
      · match r with
        | .nil => simp only [level_nil] at hgt; omega
        | .node (j, b) n x y =>
          rw [hright.1]
          exact (hw.mono (by simp)).update (by simp)
      · exact hw.mono (by simp)
    · simp only [lowerNode, lower, hl, ← hm', hp, hright'.level hs']
      split_ifs with hgt
      · match r with
        | .nil => simp only [level_nil] at hgt; omega
        | .node (j, b) n x y =>
          obtain ⟨hb, hbn, -, hbk, -, hbleft, hbright⟩ := hright'
          rw [addrs_node, mem_append, mem_cons, not_or, not_or] at hpr
          have hbl : b ∉ addrs l := fun hm => hlr b hm (by simp)
          rw [hb]
          have hp' : setLevel m' b (lv - 1) p = m' p := update_within m' b _ p (by simpa using hpr.2.1)
          refine ⟨rfl, hn, by omega, by rw [hp', hp]; exact hk, by rw [hp', hp], ?_, ?_⟩
          · rw [hp', hp]
            exact (hleft.frame hw hpl).frame (update_within m' b _) hbl
          · rw [hp', hp, hb]
            exact Held.place (update_within m' b _) (by simp [setLevel, hbk]) hbn (by omega) hbleft hbright
              (by rwa [addrs_node] at hdr ⊢)
      · exact Held.place hw (by rw [hp, ← hk]) hn (by omega) hleft hright (by rwa [addrs_node] at hnd ⊢)

theorem nodeRebalance_eq (m : Mem) (p : Addr) : nodeRebalance m p =
    if (m (m p).left).level < (m p).level - 1 ∨ (m (m p).right).level < (m p).level - 1 then
      let x := lowerNode m p
      let x := nodeSkew x.1 x.2
      let x := onRight nodeSkew x.1 x.2
      let x := onRight (onRight nodeSkew) x.1 x.2
      let x := nodeSplit x.1 x.2
      onRight nodeSplit x.1 x.2
    else (m, p) := rfl

theorem rebalance_eq (x : ℤ × Addr) (lv : ℤ) (l r : Shape) : rebalance (.node x lv l r) =
    if l.level < lv - 1 ∨ r.level < lv - 1 then
      mapRight split (split (mapRight (mapRight skew) (mapRight skew (skew (lower (.node x lv l r))))))
    else .node x lv l r := rfl

theorem Held.level_nonneg (h : Held m p t) : 0 ≤ t.level := by
  cases t with
  | nil => simp
  | node x lv l r => obtain ⟨k, a⟩ := x; have := h.2.2.1; simp only [level_node]; omega

theorem Refines.comp {G : Mem → Addr → Mem × Addr} {g : Shape → Shape} {Q : Shape → Prop} {u : Shape} {x : Mem × Addr} (hG : Refines G g Q)
    (hx : Repr x.1 x.2 u ∧ Within m x.1 (addrs t)) (hu : u.toList = t.toList) (hq : Q u) :
    Repr (G x.1 x.2).1 (G x.1 x.2).2 (g u) ∧ Within m (G x.1 x.2).1 (addrs t) := by
  obtain ⟨hr, hw⟩ := hG x.1 x.2 u hx.1 hq
  rw [addrs_congr hu] at hw
  exact ⟨hr, hx.2.trans hw⟩

theorem nodeRebalance_refines : Refines nodeRebalance rebalance Mendable := by
  intro m p t h ht
  obtain ⟨hh, hnd, hs⟩ := id h
  match t with
  | .nil =>
    obtain rfl : p = nilNode := hh
    have hno : nodeRebalance m nilNode = (m, nilNode) := by simp [nodeRebalance, hs, nilRecord]
    rw [hno]
    exact ⟨h, fun a _ => rfl⟩
  | .node (k, a) lv l r =>
    obtain ⟨rfl, hn, hlv, hk, hl, hleft, hright⟩ := id hh
    have hl0 := hleft.level_nonneg
    have hr0 := hright.level_nonneg
    rcases ht with hb | hpos
    · have hno : ¬(l.level < lv - 1 ∨ r.level < lv - 1) := by
        have := hb.2.1
        have := hb.2.2.1
        omega
      rw [nodeRebalance_eq, rebalance_eq, hl, hleft.level hs, hright.level hs, if_neg hno, if_neg hno]
      exact ⟨h, fun a _ => rfl⟩
    · rw [nodeRebalance_eq, hl, hleft.level hs, hright.level hs]
      rw [rebalance_eq] at hpos ⊢
      by_cases hfire : l.level < lv - 1 ∨ r.level < lv - 1
      · rw [if_pos hfire] at hpos ⊢
        rw [if_pos hfire]
        -- the right child survives, so no split ever meets the sentinel
        set t := LevelTree.node (k, p) lv l r with ht
        have e1 : (skew (lower t)).toList = t.toList := by rw [toList_skew, toList_lower]
        have e2 : (mapRight skew (skew (lower t))).toList = t.toList := by
          rw [toList_mapRight toList_skew, e1]
        have e3 : (mapRight (mapRight skew) (mapRight skew (skew (lower t)))).toList = t.toList := by
          rw [toList_mapRight (toList_mapRight toList_skew), e2]
        have e4 : (split (mapRight (mapRight skew) (mapRight skew (skew (lower t))))).toList =
            t.toList := by rw [toList_split, e3]
        have n4 : (split (mapRight (mapRight skew) (mapRight skew (skew (lower t))))).right ≠ .nil := by
          intro hnil
          rw [← right_mapRight_eq_nil toList_split] at hnil
          rw [hnil] at hpos
          simp at hpos
        have n3 := right_ne_nil_of_split n4
        have n2 : (mapRight skew (skew (lower t))).right ≠ .nil := fun hnil =>
          n3 ((right_mapRight_eq_nil (toList_mapRight toList_skew) _).mpr hnil)
        have hne : t ≠ .nil := by simp [ht]
        have r0 := lowerNode_refines m p t h (by simp only [ht, level_node]; omega)
        have r1 := nodeSkew_refines.comp r0 (toList_lower t) trivial
        have r2 := (onRight_refines nodeSkew_refines toList_skew).comp r1 e1 ⟨ne_nil_congr e1 hne, trivial⟩
        have r3 := (onRight_refines (onRight_refines nodeSkew_refines toList_skew)
          (toList_mapRight toList_skew)).comp r2 e2 ⟨ne_nil_congr e2 hne, n2, trivial⟩
        have r4 := nodeSplit_refines.comp r3 e3 (ne_nil_congr e3 hne)
        exact (onRight_refines nodeSplit_refines toList_split).comp r4 e4 ⟨ne_nil_congr e4 hne, n4⟩
      · rw [if_neg hfire, if_neg hfire]
        exact ⟨h, fun a _ => rfl⟩

end Eotan.AaTree
