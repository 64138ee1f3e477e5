import Eotan.Lib.Links

/-!
Intrusive lists (`list.c`): rings with a node that serves as guard.
-/

namespace Eotan.Intrusive

open Lib (Links)
open Lib.Links
open List

variable {α : Type*} [DecidableEq α]

def listInitialize (m : Links α) (entry : α) : Links α := (m.setNext entry entry).setPrev entry entry

def listAppend (m : Links α) (guard entry : α) : Links α :=
  let prev := m.prev guard
  let m := (m.setNext entry guard).setPrev entry prev
  (m.setPrev guard entry).setNext prev entry

def listInsert (m : Links α) (guard entry : α) : Links α :=
  let next := m.next guard
  let m := (m.setNext entry next).setPrev entry guard
  (m.setNext guard entry).setPrev next entry

def listRemove (m : Links α) (entry : α) : Links α :=
  let next := m.next entry
  let prev := m.prev entry
  listInitialize ((m.setPrev next prev).setNext prev next) entry

def listPick (m : Links α) (guard : α) : Option α × Links α :=
  let entry := m.next guard
  if guard = entry then (none, m) else (some entry, listRemove m entry)

variable {m : Links α} {g e x : α} {l l₁ l₂ : List α}

theorem listInitialize_ring (m : Links α) (e : α) : (listInitialize m e).Ring e [] := by
  apply ring_nil <;> simp [listInitialize]

theorem listInitialize_other (h : x ≠ e) :
    (listInitialize m e).next x = m.next x ∧ (listInitialize m e).prev x = m.prev x := by
  simp [listInitialize, h]

theorem listInsert_ring (h : m.Ring g l) (he : e ∉ g :: l) : (listInsert m g e).Ring g (e :: l) := by
  have hnext := h.next_eq
  have hnodup := h.nodup
  rw [mem_cons, not_or] at he
  refine ⟨?_, ?_⟩
  · rw [nodup_cons, nodup_cons]
    rw [nodup_cons] at hnodup
    refine ⟨?_, he.2, hnodup.2⟩
    rw [mem_cons, not_or]
    exact ⟨Ne.symm he.1, hnodup.1⟩
  · cases l with
    | nil =>
      rw [headD_nil] at hnext
      simp only [cons_append, nil_append, isChain_cons_cons]
      refine ⟨⟨?_, ?_⟩, ⟨?_, ?_⟩, .singleton g⟩ <;> simp [listInsert, hnext, he.1]
    | cons a l =>
      rw [headD_cons] at hnext
      have hchain := h.chain
      rw [cons_append, isChain_cons_cons] at hchain
      have hga : g ≠ a := by
        rintro rfl
        exact (nodup_cons.mp hnodup).1 mem_cons_self
      have hea : e ≠ a := by
        rintro rfl
        exact he.2 mem_cons_self
      rw [cons_append, cons_append, isChain_cons_cons, isChain_cons_cons]
      refine ⟨⟨?_, ?_⟩, ⟨?_, ?_⟩, ?_⟩
      · simp [listInsert]
      · simp [listInsert, hnext, hea]
      · simp [listInsert, hnext, he.1]
      · simp [listInsert, hnext]
      · -- the writes are to `next` of the guard and to `prev` of the old first entry
        apply chain_congr _ hchain.2
        · intro y hy
          rw [← cons_append, dropLast_concat] at hy
          have hyg : y ≠ g := by
            rintro rfl
            exact (nodup_cons.mp hnodup).1 hy
          have hye : y ≠ e := by
            rintro rfl
            exact he.2 hy
          simp [listInsert, hyg, hye]
        · intro y hy
          have hya : y ≠ a := by
            rintro rfl
            rcases mem_append.mp hy with hy | hy
            · exact (nodup_cons.mp (nodup_cons.mp hnodup).2).1 hy
            · exact hga (mem_singleton.mp hy).symm
          have hye : y ≠ e := by
            rintro rfl
            rcases mem_append.mp hy with hy | hy
            · exact he.2 (mem_cons_of_mem a hy)
            · exact he.1 (mem_singleton.mp hy)
          simp [listInsert, hnext, hya, hye]

theorem listInsert_other (h : m.Ring g l) (hx : x ∉ g :: l) (hxe : x ≠ e) :
    (listInsert m g e).next x = m.next x ∧ (listInsert m g e).prev x = m.prev x := by
  have hnext := h.next_eq
  rw [mem_cons, not_or] at hx
  have hxn : x ≠ m.next g := by
    rw [hnext]
    cases l with
    | nil => exact hx.1
    | cons a l =>
      rintro rfl
      exact hx.2 mem_cons_self
  simp [listInsert, hx.1, hxe, hxn]

theorem listAppend_eq (hlast : m.next (m.prev g) = g) : listAppend m g e = listInsert m (m.prev g) e := by
  ext y
  · simp only [listAppend, listInsert, setNext_next, setPrev_next, hlast]
  · simp only [listAppend, listInsert, setNext_prev, setPrev_prev, hlast]

theorem listAppend_ring (h : m.Ring g l) (he : e ∉ g :: l) : (listAppend m g e).Ring g (l ++ [e]) := by
  obtain ⟨l', hring, hperm, hlast, hback⟩ := h.before e
  rw [listAppend_eq hlast]
  apply hback
  apply listInsert_ring hring
  rwa [hperm.mem_iff]

theorem listAppend_other (h : m.Ring g l) (hx : x ∉ g :: l) (hxe : x ≠ e) :
    (listAppend m g e).next x = m.next x ∧ (listAppend m g e).prev x = m.prev x := by
  obtain ⟨l', hring, hperm, hlast, -⟩ := h.before e
  rw [listAppend_eq hlast]
  apply listInsert_other hring _ hxe
  rwa [hperm.mem_iff]

theorem listRemove_first (h : m.Ring e (x :: l)) : (listRemove m e).Ring x l := by
  have hnext : m.next e = x := h.next_eq
  have hprev := h.prev_eq
  have hnodup := nodup_cons.mp h.nodup
  refine ⟨hnodup.2, ?_⟩
  have hex : e ≠ x := by
    rintro rfl
    exact hnodup.1 mem_cons_self
  -- `y` is the last node: it is linked to `x`, and all else stays
  obtain ⟨l', y, hl⟩ : ∃ l' y, x :: l = l' ++ [y] :=
    ⟨(x :: l).dropLast, (x :: l).getLast (by simp), (dropLast_append_getLast (by simp)).symm⟩
  rw [hl, getLastD_concat] at hprev
  have hey : e ≠ y := by
    rintro rfl
    apply hnodup.1
    rw [hl]
    exact mem_append_right _ (mem_singleton_self e)
  have hchain := h.chain
  rw [← singleton_append, ← append_assoc] at hchain
  have hkept : List.IsChain (listRemove m e).Follows (x :: l) := by
    have hpart : List.IsChain m.Follows (x :: l) := hchain.left_of_append.right_of_append
    apply chain_congr _ hpart
    · intro z hz
      rw [hl, dropLast_concat] at hz
      have hzy : z ≠ y := by
        rintro rfl
        rw [hl, nodup_append] at hnodup
        exact hnodup.2.2.2 z hz z (mem_singleton_self z) rfl
      have hze : z ≠ e := by
        rintro rfl
        apply hnodup.1
        rw [hl]
        exact mem_append_left _ hz
      simp [listRemove, listInitialize, hnext, hprev, hzy, hze]
    · intro z hz
      have hzx : z ≠ x := by
        rintro rfl
        exact (nodup_cons.mp hnodup.2).1 hz
      have hze : z ≠ e := by
        rintro rfl
        exact hnodup.1 (mem_cons_of_mem x hz)
      simp [listRemove, listInitialize, hnext, hprev, hzx, hze]
  have hclose : (listRemove m e).Follows y x := by
    constructor <;> simp [listRemove, listInitialize, hnext, hprev, Ne.symm hey, Ne.symm hex]
  rw [← cons_append, hl, append_assoc, singleton_append, isChain_append_cons_cons]
  rw [hl] at hkept
  exact ⟨hkept, hclose, .singleton x⟩

theorem listRemove_ring (h : m.Ring g (l₁ ++ e :: l₂)) : (listRemove m e).Ring g (l₁ ++ l₂) := by
  have hrotate : m.Ring e (l₂ ++ g :: l₁) := h.rotate
  cases l₂ with
  | nil =>
    rw [append_nil]
    exact listRemove_first hrotate
  | cons a l₂ =>
    have hfirst : (listRemove m e).Ring a (l₂ ++ g :: l₁) := listRemove_first hrotate
    exact hfirst.rotate

theorem listRemove_other (h : m.Ring g (l₁ ++ e :: l₂)) (hx : x ∉ g :: (l₁ ++ e :: l₂)) :
    (listRemove m e).next x = m.next x ∧ (listRemove m e).prev x = m.prev x := by
  have hrotate : m.Ring e (l₂ ++ g :: l₁) := h.rotate
  have hperm : (e :: (l₂ ++ g :: l₁)).Perm (g :: (l₁ ++ e :: l₂)) := by
    rw [← cons_append, ← cons_append]
    exact perm_append_comm
  rw [← hperm.mem_iff, mem_cons, not_or] at hx
  have hnext : x ≠ m.next e := by
    rw [hrotate.next_eq]
    rintro rfl
    apply hx.2
    cases l₂ <;> simp
  have hprev : x ≠ m.prev e := by
    rw [hrotate.prev_eq]
    rintro rfl
    apply hx.2
    rw [getLastD_eq_getLast?]
    cases hlast : (l₂ ++ g :: l₁).getLast? with
    | none => simp at hlast
    | some y => exact mem_of_getLast? hlast
  simp [listRemove, listInitialize, hx.1, hnext, hprev]

theorem listPick_nil (h : m.Ring g []) : listPick m g = (none, m) := by
  have hnext : m.next g = g := h.next_eq
  simp [listPick, hnext]

theorem listPick_cons (h : m.Ring g (e :: l)) : listPick m g = (some e, listRemove m e) := by
  have hnext : m.next g = e := h.next_eq
  have hne : g ≠ e := by
    rintro rfl
    exact (nodup_cons.mp h.nodup).1 mem_cons_self
  simp [listPick, hnext, hne]

section rings

variable {rs : List (α × List α)}

theorem rings_init (h : m.Rings rs) (he : e ∉ nodes rs) : (listInitialize m e).Rings rs := by
  apply h.congr
  intro x hx
  apply listInitialize_other
  rintro rfl
  exact he hx

theorem rings_open (h : m.Rings rs) (he : e ∉ nodes rs) : (listInitialize m e).Rings ((e, []) :: rs) := by
  apply (rings_init h he).cons (listInitialize_ring m e)
  intro x hx
  rw [mem_singleton.mp hx]
  exact he

theorem rings_append (h : m.Rings ((g, l) :: rs)) (he : e ∉ nodes ((g, l) :: rs)) :
    (listAppend m g e).Rings ((g, l ++ [e]) :: rs) := by
  rw [nodes_cons, mem_append, not_or] at he
  have hrest : (listAppend m g e).Rings rs := by
    apply h.tail.congr
    intro x hx
    apply listAppend_other h.head
    · intro hmem
      exact h.apart hmem hx
    · rintro rfl
      exact he.2 hx
  apply hrest.cons
  · exact listAppend_ring h.head he.1
  · intro x hx
    rw [← cons_append, mem_append, mem_singleton] at hx
    rcases hx with hx | rfl
    · exact h.apart hx
    · exact he.2

theorem rings_detach (h : m.Rings ((g, e :: l) :: rs)) : (listRemove m g).Rings ((e, l) :: rs) := by
  have hring : m.Ring g (e :: l) := h.head
  have hrest : (listRemove m g).Rings rs := by
    apply h.tail.congr
    intro x hx
    have hsplit : m.Ring g ([] ++ e :: l) := hring
    have hrotate : m.Ring e (l ++ g :: []) := hsplit.rotate
    apply listRemove_other hrotate
    intro hmem
    apply h.apart _ hx
    have hperm : (e :: (l ++ [g])).Perm (g :: e :: l) := by
      rw [← cons_append]
      exact perm_append_singleton g (e :: l)
    exact hperm.mem_iff.mp hmem
  apply hrest.cons
  · exact listRemove_first hring
  · intro x hx
    exact h.apart (mem_cons_of_mem g hx)

theorem rings_take (h : m.Rings ((g, l₁ ++ e :: l₂) :: rs)) : (listRemove m e).Rings ((g, l₁ ++ l₂) :: rs) := by
  have hring : m.Ring g (l₁ ++ e :: l₂) := h.head
  have hrest : (listRemove m e).Rings rs := by
    apply h.tail.congr
    intro x hx
    apply listRemove_other hring
    intro hmem
    exact h.apart hmem hx
  apply hrest.cons
  · exact listRemove_ring hring
  · intro x hx
    apply h.apart
    rcases mem_cons.mp hx with rfl | hx
    · exact mem_cons_self
    · apply mem_cons_of_mem
      rw [perm_middle.mem_iff]
      exact mem_cons_of_mem e hx

theorem rings_remove (h : m.Rings ((g, e :: l) :: rs)) : (listRemove m e).Rings ((g, l) :: rs) := by
  have hsplit : m.Rings ((g, [] ++ e :: l) :: rs) := h
  exact rings_take hsplit

theorem rings_insert (h : m.Rings ((g, l) :: rs)) (he : e ∉ nodes ((g, l) :: rs)) :
    (listInsert m g e).Rings ((g, e :: l) :: rs) := by
  rw [nodes_cons, mem_append, not_or] at he
  have hrest : (listInsert m g e).Rings rs := by
    apply h.tail.congr
    intro x hx
    apply listInsert_other h.head
    · intro hmem
      exact h.apart hmem hx
    · rintro rfl
      exact he.2 hx
  apply hrest.cons
  · exact listInsert_ring h.head he.1
  · exact forall_mem_cons.mpr ⟨h.apart mem_cons_self,
      forall_mem_cons.mpr ⟨he.2, fun x hx => h.apart (mem_cons_of_mem g hx)⟩⟩

end rings

end Eotan.Intrusive
