import Mathlib.Data.List.Chain
import Mathlib.Data.List.Nodup
import Mathlib.Logic.Function.Basic

/-!
Nodes that are linked in both directions into rings. A ring is given by one of its nodes and the list
of the others, in the order of `next`.
-/

namespace Eotan.Lib

open List

@[ext]
structure Links (α : Type*) where
  next : α → α
  prev : α → α

namespace Links

variable {α : Type*}

section writes

variable [DecidableEq α] (m : Links α) (a b x : α)

def setNext : Links α := { m with next := Function.update m.next a b }

def setPrev : Links α := { m with prev := Function.update m.prev a b }

@[simp]
theorem setNext_next : (m.setNext a b).next x = if x = a then b else m.next x :=
  Function.update_apply m.next a b x

@[simp]
theorem setNext_prev : (m.setNext a b).prev x = m.prev x := rfl

@[simp]
theorem setPrev_prev : (m.setPrev a b).prev x = if x = a then b else m.prev x :=
  Function.update_apply m.prev a b x

@[simp]
theorem setPrev_next : (m.setPrev a b).next x = m.next x := rfl

end writes

def Follows (m : Links α) (a b : α) : Prop := m.next a = b ∧ m.prev b = a

structure Ring (m : Links α) (g : α) (l : List α) : Prop where
  nodup : (g :: l).Nodup
  chain : List.IsChain m.Follows (g :: (l ++ [g]))

variable {m m' : Links α} {g x : α} {l l₁ l₂ : List α}

theorem chain_congr {a : α} (l : List α) (h : List.IsChain m.Follows (a :: l))
    (hnext : ∀ x ∈ (a :: l).dropLast, m'.next x = m.next x) (hprev : ∀ x ∈ l, m'.prev x = m.prev x) :
    List.IsChain m'.Follows (a :: l) := by
  induction l generalizing a with
  | nil => exact .singleton a
  | cons b l ih =>
    rw [isChain_cons_cons] at h ⊢
    refine ⟨⟨?_, ?_⟩, ih h.2 ?_ ?_⟩
    · rw [hnext a (by simp)]
      exact h.1.1
    · rw [hprev b mem_cons_self]
      exact h.1.2
    · intro x hx
      apply hnext
      rw [dropLast_cons_cons]
      exact mem_cons_of_mem a hx
    · intro x hx
      exact hprev x (mem_cons_of_mem b hx)

theorem Ring.congr (h : m.Ring g l)
    (heq : ∀ x ∈ g :: l, m'.next x = m.next x ∧ m'.prev x = m.prev x) : m'.Ring g l := by
  refine ⟨h.nodup, chain_congr _ h.chain ?_ ?_⟩
  · intro x hx
    rw [← cons_append, dropLast_concat] at hx
    exact (heq x hx).1
  · intro x hx
    apply (heq x _).2
    simpa [or_comm] using hx

theorem Ring.rotate (h : m.Ring g (l₁ ++ x :: l₂)) : m.Ring x (l₂ ++ g :: l₁) := by
  constructor
  · have hperm : (x :: (l₂ ++ g :: l₁)).Perm (g :: (l₁ ++ x :: l₂)) := by
      rw [← cons_append, ← cons_append]
      exact perm_append_comm
    exact hperm.nodup_iff.mpr h.nodup
  · have hchain := h.chain
    rw [append_assoc, cons_append, ← cons_append, isChain_split] at hchain
    rw [append_assoc, cons_append, ← cons_append, isChain_split]
    exact ⟨hchain.2, hchain.1⟩

theorem Ring.next_eq (h : m.Ring g l) : m.next g = l.headD g := by
  have hchain := h.chain
  cases l with
  | nil =>
    rw [nil_append, isChain_cons_cons] at hchain
    exact hchain.1.1
  | cons a l =>
    rw [cons_append, isChain_cons_cons] at hchain
    exact hchain.1.1

theorem Ring.prev_eq (h : m.Ring g l) : m.prev g = l.getLastD g := by
  have hchain := h.chain
  cases l using reverseRecOn with
  | nil =>
    rw [nil_append, isChain_cons_cons] at hchain
    exact hchain.1.2
  | append_singleton l a =>
    rw [append_assoc, ← cons_append, singleton_append, isChain_append_cons_cons] at hchain
    rw [getLastD_concat]
    exact hchain.2.1.2

theorem ring_nil (hnext : m.next g = g) (hprev : m.prev g = g) : m.Ring g [] := by
  refine ⟨nodup_singleton g, ?_⟩
  rw [nil_append, isChain_cons_cons]
  exact ⟨⟨hnext, hprev⟩, .singleton g⟩

theorem Ring.next_mem (h : m.Ring g (l₁ ++ x :: l₂)) : m.next x = (l₂ ++ [g]).headD g := by
  rw [h.rotate.next_eq]
  cases l₂ <;> rfl

theorem Ring.not_mem (h : m.Ring g (l₁ ++ x :: l₂)) : x ∉ g :: (l₁ ++ l₂) := by
  have hswap : (x :: g :: (l₁ ++ l₂)).Perm (g :: (l₁ ++ x :: l₂)) :=
    (List.Perm.swap _ _ _).trans (perm_middle.symm.cons _)
  exact (nodup_cons.mp (hswap.nodup_iff.mpr h.nodup)).1

theorem Ring.before (h : m.Ring g l) (e : α) : ∃ l', m.Ring (m.prev g) l' ∧ (m.prev g :: l').Perm (g :: l) ∧
    m.next (m.prev g) = g ∧ ∀ m' : Links α, m'.Ring (m.prev g) (e :: l') → m'.Ring g (l ++ [e]) := by
  have hprev := h.prev_eq
  cases l using reverseRecOn with
  | nil =>
    rw [getLastD_nil] at hprev
    rw [hprev]
    exact ⟨[], h, .refl _, h.next_eq, fun m' h' => h'⟩
  | append_singleton l a =>
    rw [getLastD_concat] at hprev
    rw [hprev]
    have hrotate : m.Ring a (g :: l) := h.rotate
    refine ⟨g :: l, hrotate, ?_, hrotate.next_eq, ?_⟩
    · have hperm : (a :: (g :: l)).Perm ((g :: l) ++ [a]) := (perm_append_singleton a (g :: l)).symm
      exact hperm
    · intro m' h'
      have hsplit : m'.Ring a ([e] ++ g :: l) := h'
      have hback : m'.Ring g (l ++ a :: [e]) := hsplit.rotate
      rw [append_assoc]
      exact hback

def nodes (rs : List (α × List α)) : List α := rs.flatMap fun r => r.1 :: r.2

theorem nodes_cons (r : α × List α) (rs : List (α × List α)) :
    nodes (r :: rs) = r.1 :: r.2 ++ nodes rs := flatMap_cons

structure Rings (m : Links α) (rs : List (α × List α)) : Prop where
  ring : ∀ r ∈ rs, m.Ring r.1 r.2
  nodup : (nodes rs).Nodup

variable {rs rs' : List (α × List α)}

theorem Rings.perm (h : m.Rings rs) (hperm : rs.Perm rs') : m.Rings rs' where
  ring := fun r hr => h.ring r (hperm.mem_iff.mpr hr)
  nodup := (hperm.flatMap_right _).nodup_iff.mp h.nodup

variable {r : α × List α}

theorem Rings.tail (h : m.Rings (r :: rs)) : m.Rings rs where
  ring := fun r' hr' => h.ring r' (mem_cons_of_mem r hr')
  nodup := by
    have hnodup := h.nodup
    rw [nodes_cons] at hnodup
    exact hnodup.of_append_right

theorem Rings.head (h : m.Rings (r :: rs)) : m.Ring r.1 r.2 := h.ring r mem_cons_self

theorem Rings.apart (h : m.Rings (r :: rs)) {x : α} (hx : x ∈ r.1 :: r.2) : x ∉ nodes rs := by
  have hnodup := h.nodup
  rw [nodes_cons] at hnodup
  exact fun hmem => disjoint_of_nodup_append hnodup hx hmem

theorem Rings.not_mem (h : m.Rings ((g, l₁ ++ x :: l₂) :: rs)) : x ∉ nodes ((g, l₁ ++ l₂) :: rs) := by
  rw [nodes_cons, mem_append, not_or]
  exact ⟨Ring.not_mem h.head, h.apart (by simp)⟩

theorem Rings.congr (h : m.Rings rs)
    (heq : ∀ x ∈ nodes rs, m'.next x = m.next x ∧ m'.prev x = m.prev x) : m'.Rings rs where
  ring := by
    intro r hr
    apply (h.ring r hr).congr
    intro x hx
    exact heq x (mem_flatMap.mpr ⟨r, hr, hx⟩)
  nodup := h.nodup

theorem Rings.rotate (h : m.Rings ((g, l₁ ++ x :: l₂) :: rs)) : m.Rings ((x, l₂ ++ g :: l₁) :: rs) where
  ring := forall_mem_cons.mpr ⟨Ring.rotate h.head, fun r hr => h.ring r (mem_cons_of_mem _ hr)⟩
  nodup := by
    have hperm : (nodes ((x, l₂ ++ g :: l₁) :: rs)).Perm (nodes ((g, l₁ ++ x :: l₂) :: rs)) := by
      rw [nodes_cons, nodes_cons]
      apply List.Perm.append_right
      change (x :: l₂ ++ g :: l₁).Perm (g :: l₁ ++ x :: l₂)
      exact perm_append_comm
    exact hperm.nodup_iff.mpr h.nodup

theorem Rings.cons (h : m.Rings rs) (hr : m.Ring r.1 r.2)
    (hapart : ∀ x ∈ r.1 :: r.2, x ∉ nodes rs) : m.Rings (r :: rs) where
  ring := forall_mem_cons.mpr ⟨hr, h.ring⟩
  nodup := by
    rw [nodes_cons, nodup_append']
    exact ⟨hr.nodup, h.nodup, fun x hx hmem => hapart x hx hmem⟩

end Links

end Eotan.Lib
