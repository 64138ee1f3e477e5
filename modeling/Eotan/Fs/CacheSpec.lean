import Eotan.Fs.Cache
import Mathlib.Data.Multiset.Bind
import Mathlib.Data.List.Nodup

/-!
What the cache does to its users. `view` is the contents that a block has for them, wherever it
is, and `pins` counts the buffers they hold.
-/

namespace Eotan.Fs

open Lib.Bytes (Block)
open Function
open List

variable {κ : Type}

def pinsOf (cache : ℕ → Entry κ) (l : List ℕ) : Multiset κ :=
  Multiset.bind (l : Multiset ℕ) fun i => Multiset.replicate (cache i).lockCount (cache i).key

theorem pinsOf_cons (cache : ℕ → Entry κ) (i : ℕ) (l : List ℕ) : pinsOf cache (i :: l) =
      Multiset.replicate (cache i).lockCount (cache i).key + pinsOf cache l := by
  rw [pinsOf, ← Multiset.cons_coe, Multiset.cons_bind]
  rfl

variable {i : ℕ} {l : List ℕ} {k : κ} {c : Cache κ}

theorem pinsOf_erase (cache : ℕ → Entry κ) (h : i ∈ l) : pinsOf cache l =
      Multiset.replicate (cache i).lockCount (cache i).key + pinsOf cache (l.erase i) := by
  rw [← pinsOf_cons]
  have hperm : (l : Multiset ℕ) = ((i :: l.erase i : List ℕ) : Multiset ℕ) :=
    Multiset.coe_eq_coe.mpr (perm_cons_erase h)
  rw [pinsOf, hperm]
  rfl

theorem pinsOf_congr {cache cache' : ℕ → Entry κ}
    (h : ∀ i ∈ l, (cache' i).lockCount = (cache i).lockCount ∧ (cache' i).key = (cache i).key) :
    pinsOf cache' l = pinsOf cache l := by
  apply Multiset.bind_congr
  intro i hi
  rw [(h i hi).1, (h i hi).2]

theorem length_le_card_pinsOf (cache : ℕ → Entry κ) (l : List ℕ)
    (h : ∀ i ∈ l, 0 < (cache i).lockCount) : l.length ≤ Multiset.card (pinsOf cache l) := by
  induction l with
  | nil => exact Nat.zero_le _
  | cons i l ih =>
    obtain ⟨hi, h⟩ := forall_mem_cons.mp h
    have hl := ih h
    rw [pinsOf_cons, Multiset.card_add, Multiset.card_replicate, length_cons]
    omega

theorem mem_pinsOf {cache : ℕ → Entry κ} :
    k ∈ pinsOf cache l ↔ ∃ i ∈ l, 0 < (cache i).lockCount ∧ (cache i).key = k := by
  rw [pinsOf, Multiset.mem_bind]
  constructor
  · rintro ⟨i, hi, hk⟩
    rw [Multiset.mem_replicate] at hk
    exact ⟨i, hi, Nat.pos_of_ne_zero hk.1, hk.2.symm⟩
  · rintro ⟨i, hi, hpos, rfl⟩
    exact ⟨i, hi, Multiset.mem_replicate.mpr ⟨hpos.ne', rfl⟩⟩

namespace Cache

def Used (c : Cache κ) (i : ℕ) : Prop := i ∈ c.lockedList ∨ i ∈ c.lruList

def pins (c : Cache κ) : Multiset κ := pinsOf c.cache c.lockedList

def At (c : Cache κ) (i : ℕ) (k : κ) : Prop := i ∈ c.lockedList ∧ (c.cache i).key = k

/-- A buffer of `k` was released after `k` had been invalidated. -/
def Orphan (c : Cache κ) (k : κ) : Prop :=
  c.hash k = none ∧ ∃ i ∈ c.lruList, (c.cache i).key = k

def Saved (c : Cache κ) (k : κ) : Prop :=
  ∀ i, c.Used i → (c.cache i).key = k → (c.cache i).dirty = true ∨ (c.cache i).buf = c.disk k

theorem Used.mem (h : c.Used i) : i ∈ c.freeList ++ (c.lruList ++ c.lockedList) := by
  rw [mem_append, mem_append]
  exact .inr h.symm

theorem not_used_of_nodup (h : (c.freeList ++ (c.lruList ++ c.lockedList)).Nodup) (hi : i ∈ c.freeList) :
    ¬c.Used i := by
  intro hu
  exact disjoint_of_nodup_append h hi (mem_append.mpr hu.symm)

structure Ok (c : Cache κ) : Prop where
  nodup : (c.freeList ++ (c.lruList ++ c.lockedList)).Nodup
  mem : ∀ i, i ∈ c.freeList ++ (c.lruList ++ c.lockedList) ↔ i < maxCache
  inj : ∀ i j, c.Used i → c.Used j → (c.cache i).key = (c.cache j).key → i = j
  hash : ∀ k i, c.hash k = some i → c.Used i ∧ (c.cache i).key = k
  locked : ∀ i ∈ c.lockedList, c.hash (c.cache i).key = some i ∧ 0 < (c.cache i).lockCount
  lru : ∀ i ∈ c.lruList, (c.cache i).lockCount = 0 ∧
    ((c.cache i).dirty = true ∨ (c.cache i).buf = c.disk (c.cache i).key)
  faults : c.faults = []

theorem Ok.unused_of_hash (h : c.Ok) (hk : c.hash k = none)
    (ho : ¬c.Orphan k) : ∀ i, c.Used i → (c.cache i).key ≠ k := by
  rintro i (hi | hi) rfl
  · rw [(h.locked i hi).1] at hk
    cases hk
  · exact ho ⟨hk, i, hi, rfl⟩

theorem Ok.not_mem_locked (h : c.Ok) (hi : i ∈ c.lruList) : i ∉ c.lockedList := fun hl =>
  disjoint_of_nodup_append (List.Nodup.of_append_right h.nodup) hi hl

theorem Ok.not_used (h : c.Ok) (hi : i ∈ c.freeList) : ¬c.Used i := not_used_of_nodup h.nodup hi

theorem Ok.lt_of_used (h : c.Ok) (hi : c.Used i) : i < maxCache := (h.mem i).mp hi.mem

theorem Ok.length_eq (h : c.Ok) : c.freeList.length + (c.lruList.length + c.lockedList.length) = maxCache := by
  have hperm : (c.freeList ++ (c.lruList ++ c.lockedList)).Perm (range maxCache) := by
    apply (perm_ext_iff_of_nodup h.nodup nodup_range).mpr
    intro i
    rw [h.mem, mem_range]
  have := hperm.length_eq
  rwa [length_append, length_append, length_range] at this

theorem Ok.exists_entry (h : c.Ok) (hroom : Multiset.card c.pins < maxCache) :
    c.freeList ≠ [] ∨ c.lruList ≠ [] := by
  have hlocked := length_le_card_pinsOf c.cache c.lockedList fun i hi => (h.locked i hi).2
  have hlength := h.length_eq
  unfold pins at hroom
  by_contra hnone
  rw [not_or, not_not, not_not] at hnone
  rw [hnone.1, hnone.2, length_nil] at hlength
  omega

theorem mem_pins (h : c.Ok) : k ∈ c.pins ↔ ∃ i, c.At i k := by
  rw [pins, mem_pinsOf]
  constructor
  · rintro ⟨i, hi, -, hk⟩
    exact ⟨i, hi, hk⟩
  · rintro ⟨i, hi, hk⟩
    exact ⟨i, hi, (h.locked i hi).2, hk⟩

variable [DecidableEq κ]

def holder (c : Cache κ) (k : κ) : Option ℕ :=
  (c.lockedList ++ c.lruList).find? fun i => decide ((c.cache i).key = k)

def view (c : Cache κ) (k : κ) : Block :=
  match c.holder k with
  | some i => (c.cache i).buf
  | none => c.disk k

theorem view_of_used (h : c.Ok) (hi : c.Used i) : c.view (c.cache i).key = (c.cache i).buf := by
  have hmem : i ∈ c.lockedList ++ c.lruList := mem_append.mpr hi
  unfold view holder
  cases hf : (c.lockedList ++ c.lruList).find? fun j => decide ((c.cache j).key = (c.cache i).key) with
  | none =>
    have := find?_eq_none.mp hf i hmem
    simp at this
  | some j =>
    have hj := mem_append.mp (mem_of_find?_eq_some hf)
    have hkey := find?_some hf
    rw [h.inj j i hj hi (by simpa using hkey)]

theorem view_of_unused (hk : ∀ i, c.Used i → (c.cache i).key ≠ k) : c.view k = c.disk k := by
  unfold view holder
  cases hf : (c.lockedList ++ c.lruList).find? fun j => decide ((c.cache j).key = k) with
  | none => rfl
  | some j =>
    have hj := mem_append.mp (mem_of_find?_eq_some hf)
    have hkey := find?_some hf
    exact absurd (by simpa using hkey) (hk j hj)

theorem view_congr {c' : Cache κ} (h : c.Ok) (hok : c'.Ok)
    (hused : ∀ j, c'.Used j ∧ (c'.cache j).key = k ↔ c.Used j ∧ (c.cache j).key = k)
    (hbuf : ∀ j, c.Used j → (c.cache j).key = k → (c'.cache j).buf = (c.cache j).buf)
    (hdisk : c'.disk k = c.disk k) : c'.view k = c.view k := by
  by_cases hex : ∃ j, c.Used j ∧ (c.cache j).key = k
  · obtain ⟨j, hj, hk⟩ := hex
    obtain ⟨hj', hk'⟩ := (hused j).mpr ⟨hj, hk⟩
    have hview := view_of_used hok hj'
    rw [hk', hbuf j hj hk] at hview
    rw [hview, ← hk, view_of_used h hj]
  · rw [view_of_unused fun j hj hk => hex ⟨j, hj, hk⟩, view_of_unused, hdisk]
    exact fun j hj hk => hex ⟨j, (hused j).mp ⟨hj, hk⟩⟩

end Cache

theorem nodup_erase_all {a b d : List ℕ} (h : (a ++ (b ++ d)).Nodup) (i : ℕ) :
    (i :: (a.erase i ++ (b.erase i ++ d.erase i))).Nodup := by
  have hsub : (a.erase i ++ (b.erase i ++ d.erase i)).Sublist (a ++ (b ++ d)) :=
    erase_sublist.append (erase_sublist.append erase_sublist)
  rw [nodup_cons]
  refine ⟨?_, hsub.nodup h⟩
  have hbd := List.Nodup.of_append_right h
  rw [mem_append, mem_append]
  rintro (hi | hi | hi)
  · exact (List.Nodup.mem_erase_iff (List.Nodup.of_append_left h)).mp hi |>.1 rfl
  · exact (List.Nodup.mem_erase_iff (List.Nodup.of_append_left hbd)).mp hi |>.1 rfl
  · exact (List.Nodup.mem_erase_iff (List.Nodup.of_append_right hbd)).mp hi |>.1 rfl

namespace Cache

variable {j : ℕ} {dirty : Bool}

theorem Ok.mem_erase_locked (h : c.Ok) : j ∈ c.lockedList.erase i ↔ j ≠ i ∧ j ∈ c.lockedList :=
  List.Nodup.mem_erase_iff (List.Nodup.of_append_right (List.Nodup.of_append_right h.nodup))

inductive Place where
  | free
  | lru
  | locked
  deriving DecidableEq

structure Moved (c : Cache κ) (i : ℕ) (p : Place) (c' : Cache κ) : Prop where
  freeList : c'.freeList = (if p = .free then [i] else []) ++ c.freeList.erase i
  lruList : c'.lruList = (if p = .lru then [i] else []) ++ c.lruList.erase i
  lockedList : c'.lockedList = (if p = .locked then [i] else []) ++ c.lockedList.erase i

section Moved

variable {c' : Cache κ} {p : Place} (hm : Moved c i p c')
  (hnodup : (c.freeList ++ (c.lruList ++ c.lockedList)).Nodup)
include hm hnodup

theorem Moved.mem_free : j ∈ c'.freeList ↔ j = i ∧ p = .free ∨ j ≠ i ∧ j ∈ c.freeList := by
  rw [hm.freeList, mem_append, List.Nodup.mem_erase_iff (List.Nodup.of_append_left hnodup)]
  by_cases hp : p = .free <;> simp [hp]

theorem Moved.mem_lru : j ∈ c'.lruList ↔ j = i ∧ p = .lru ∨ j ≠ i ∧ j ∈ c.lruList := by
  have hright := List.Nodup.of_append_right hnodup
  rw [hm.lruList, mem_append, List.Nodup.mem_erase_iff (List.Nodup.of_append_left hright)]
  by_cases hp : p = .lru <;> simp [hp]

theorem Moved.mem_locked : j ∈ c'.lockedList ↔ j = i ∧ p = .locked ∨ j ≠ i ∧ j ∈ c.lockedList := by
  have hright := List.Nodup.of_append_right hnodup
  rw [hm.lockedList, mem_append, List.Nodup.mem_erase_iff (List.Nodup.of_append_right hright)]
  by_cases hp : p = .locked <;> simp [hp]

theorem Moved.used : c'.Used j ↔ j = i ∧ p ≠ .free ∨ j ≠ i ∧ c.Used j := by
  unfold Used
  rw [hm.mem_lru hnodup, hm.mem_locked hnodup]
  cases p <;> simp <;> tauto

theorem Moved.used_of_used (hi : c.Used i) (hp : p ≠ .free) : c'.Used j ↔ c.Used j := by
  rw [hm.used hnodup]
  by_cases hj : j = i
  · subst hj
    exact iff_of_true (.inl ⟨rfl, hp⟩) hi
  · simp [hj]

theorem Moved.nodup : (c'.freeList ++ (c'.lruList ++ c'.lockedList)).Nodup := by
  have hperm : (c'.freeList ++ (c'.lruList ++ c'.lockedList)).Perm
      (i :: (c.freeList.erase i ++ (c.lruList.erase i ++ c.lockedList.erase i))) := by
    rw [hm.freeList, hm.lruList, hm.lockedList]
    cases p with
    | free => exact List.Perm.refl _
    | lru => exact perm_middle
    | locked =>
      simp only [reduceCtorEq, if_false, nil_append, if_true, singleton_append]
      rw [← append_assoc, ← append_assoc]
      exact perm_middle
  exact hperm.nodup_iff.mpr (nodup_erase_all hnodup i)

theorem Moved.mem (hmem : ∀ j, j ∈ c.freeList ++ (c.lruList ++ c.lockedList) ↔ j < maxCache)
    (hi : i < maxCache) (j : ℕ) : j ∈ c'.freeList ++ (c'.lruList ++ c'.lockedList) ↔ j < maxCache := by
  have hj := hmem j
  simp only [mem_append] at hj ⊢
  rw [hm.mem_free hnodup, hm.mem_lru hnodup, hm.mem_locked hnodup]
  by_cases heq : j = i
  · subst heq
    refine iff_of_true ?_ hi
    cases p <;> simp
  · rw [← hj]
    simp [heq]

end Moved

theorem Ok.moved {c' : Cache κ} {p : Place} (h : c.Ok) (hi : i < maxCache) (hm : Moved c i p c')
    (hfaults : c'.faults = c.faults) (hother : ∀ j, j ≠ i → c'.cache j = c.cache j)
    (hkey : p ≠ .free → ∀ j, j ≠ i → c.Used j → (c.cache j).key ≠ (c'.cache i).key)
    (hhash : ∀ k j, j ≠ i → c'.hash k = some j → c.hash k = some j)
    (hself : ∀ k, c'.hash k = some i → p ≠ .free ∧ (c'.cache i).key = k)
    (hkept : ∀ j, j ≠ i → j ∈ c.lockedList → c'.hash (c.cache j).key = some j)
    (hdisk : ∀ j, j ≠ i → j ∈ c.lruList → c'.disk (c.cache j).key = c.disk (c.cache j).key)
    (hlocked : p = .locked → c'.hash (c'.cache i).key = some i ∧ 0 < (c'.cache i).lockCount)
    (hlru : p = .lru → (c'.cache i).lockCount = 0 ∧
      ((c'.cache i).dirty = true ∨ (c'.cache i).buf = c'.disk (c'.cache i).key)) : c'.Ok := by
  refine ⟨hm.nodup h.nodup, hm.mem h.nodup h.mem hi, ?_, ?_, ?_, ?_, hfaults.trans h.faults⟩
  · intro a b ha hb hab
    rcases (hm.used h.nodup).mp ha with ⟨rfl, hp⟩ | ⟨hne, hu⟩
    · rcases (hm.used h.nodup).mp hb with ⟨rfl, -⟩ | ⟨hne', hu'⟩
      · rfl
      · rw [hother b hne'] at hab
        exact absurd hab.symm (hkey hp b hne' hu')
    rw [hother a hne] at hab
    rcases (hm.used h.nodup).mp hb with ⟨rfl, hp⟩ | ⟨hne', hu'⟩
    · exact absurd hab (hkey hp a hne hu)
    · rw [hother b hne'] at hab
      exact h.inj a b hu hu' hab
  · intro k j hj
    rw [hm.used h.nodup]
    by_cases hji : j = i
    · subst hji
      obtain ⟨hp, hk⟩ := hself k hj
      exact ⟨.inl ⟨rfl, hp⟩, hk⟩
    · obtain ⟨hu, hk⟩ := h.hash k j (hhash k j hji hj)
      rw [hother j hji]
      exact ⟨.inr ⟨hji, hu⟩, hk⟩
  · intro j hj
    rcases (hm.mem_locked h.nodup).mp hj with ⟨rfl, hp⟩ | ⟨hne, hj'⟩
    · exact hlocked hp
    · rw [hother j hne]
      exact ⟨hkept j hne hj', (h.locked j hj').2⟩
  · intro j hj
    rcases (hm.mem_lru h.nodup).mp hj with ⟨rfl, hp⟩ | ⟨hne, hj'⟩
    · exact hlru hp
    · rw [hother j hne, hdisk j hne hj']
      exact h.lru j hj'

theorem Ok.of_locked {c' : Cache κ} (h : c.Ok) (hi : i ∈ c.lockedList)
    (hother : ∀ j, j ≠ i → c'.cache j = c.cache j)
    (hkey : (c'.cache i).key = (c.cache i).key) (hcount : 0 < (c'.cache i).lockCount)
    (hfree : c'.freeList = c.freeList) (hlru : c'.lruList = c.lruList)
    (hlocked : c'.lockedList = c.lockedList) (hdisk : c'.disk = c.disk)
    (hhash : c'.hash = c.hash) (hfaults : c'.faults = c.faults) : c'.Ok := by
  have hkeys (j : ℕ) : (c'.cache j).key = (c.cache j).key := by
    by_cases hj : j = i
    · rw [hj, hkey]
    · rw [hother j hj]
  have hused (j : ℕ) : c'.Used j ↔ c.Used j := by
    unfold Used
    rw [hlru, hlocked]
  refine ⟨?_, ?_, ?_, ?_, ?_, ?_, ?_⟩
  · rw [hfree, hlru, hlocked]
    exact h.nodup
  · rw [hfree, hlru, hlocked]
    exact h.mem
  · intro a b ha hb hab
    rw [hkeys a, hkeys b] at hab
    exact h.inj a b ((hused a).mp ha) ((hused b).mp hb) hab
  · intro k j hj
    rw [hhash] at hj
    rw [hused, hkeys j]
    exact h.hash k j hj
  · intro j hj
    rw [hlocked] at hj
    rw [hhash, hkeys j]
    refine ⟨(h.locked j hj).1, ?_⟩
    by_cases hji : j = i
    · rw [hji]
      exact hcount
    · rw [hother j hji]
      exact (h.locked j hj).2
  · intro j hj
    rw [hlru] at hj
    have hne : j ≠ i := by
      rintro rfl
      exact h.not_mem_locked hj hi
    rw [hother j hne, hdisk]
    exact h.lru j hj
  · rw [hfaults, h.faults]

theorem Ok.moved_used {c' : Cache κ} {p : Place} {e : Entry κ} (h : c.Ok) (hi : c.Used i)
    (hm : Moved c i p c') (hp : p ≠ .free) (hcache : c'.cache = update c.cache i e)
    (hkey : e.key = (c.cache i).key) (hhash : c'.hash = c.hash) (hdisk : c'.disk = c.disk)
    (hfaults : c'.faults = c.faults) (hlocked : p = .locked → c.hash (c.cache i).key = some i ∧ 0 < e.lockCount)
    (hlru : p = .lru → e.lockCount = 0 ∧ (e.dirty = true ∨ e.buf = c.disk e.key)) : c'.Ok := by
  have hself : c'.cache i = e := by rw [hcache, update_self]
  apply h.moved (h.lt_of_used hi) hm hfaults
  · intro j hj
    rw [hcache, update_of_ne hj]
  · intro _ j hj hu
    rw [hself, hkey]
    exact fun heq => hj (h.inj j i hu hi heq)
  · intro k j _ hj
    rwa [hhash] at hj
  · intro k hj
    rw [hhash] at hj
    rw [hself, hkey]
    exact ⟨hp, (h.hash k i hj).2⟩
  · intro j _ hj
    rw [hhash]
    exact (h.locked j hj).1
  · intro j _ _
    rw [hdisk]
  · rw [hself, hhash, hkey]
    exact hlocked
  · rw [hself, hdisk]
    exact hlru

theorem pinsOf_update (h : c.Ok) (e : Entry κ) :
    pinsOf (update c.cache i e) (c.lockedList.erase i) = pinsOf c.cache (c.lockedList.erase i) := by
  apply pinsOf_congr
  intro j hj
  rw [update_of_ne (h.mem_erase_locked.mp hj).1]
  exact ⟨rfl, rfl⟩

theorem saved_of_dirty {c' : Cache κ} {e : Entry κ} (h : c.Ok) (hi : c.Used i)
    (hused : ∀ j, c'.Used j ↔ c.Used j) (hcache : c'.cache = update c.cache i e)
    (hdirty : e.dirty = true) : c'.Saved (c.cache i).key := by
  intro j hj hk
  rw [hcache] at hk ⊢
  by_cases hji : j = i
  · rw [hji, update_self]
    exact .inl hdirty
  · rw [update_of_ne hji] at hk
    exact absurd (h.inj j i ((hused j).mp hj) hi hk) hji

variable [DecidableEq κ]

/-- A step of the cache that changes the contents of the blocks in `touched` at most. Pointers that
are still held stay valid. -/
structure Kept (touched : Set κ) (c c' : Cache κ) : Prop where
  ok : c'.Ok
  held : ∀ i k, c.At i k → k ∈ c'.pins → c'.At i k
  orphan : ∀ k, c'.Orphan k → c.Orphan k
  view : ∀ k, k ∉ touched → c'.view k = c.view k
  stored : ∀ k, k ∉ touched → c'.stored k = c.stored k
  saved : ∀ k, k ∉ touched → c.Saved k → c'.Saved k

theorem Kept.trans {t : Set κ} {c1 c2 c3 : Cache κ} (h1 : Kept t c1 c2) (h2 : Kept t c2 c3)
    (hpins : ∀ k, k ∈ c1.pins → k ∈ c3.pins → k ∈ c2.pins) (hok : c1.Ok) : Kept t c1 c3 where
  ok := h2.ok
  held := by
    intro i k hat hk
    exact h2.held i k (h1.held i k hat (hpins k ((mem_pins hok).mpr ⟨i, hat⟩) hk)) hk
  orphan := fun k hk => h1.orphan k (h2.orphan k hk)
  view := fun k hk => (h2.view k hk).trans (h1.view k hk)
  stored := fun k hk => (h2.stored k hk).trans (h1.stored k hk)
  saved := fun k hk hs => h2.saved k hk (h1.saved k hk hs)

theorem Kept.mono {t u : Set κ} {c' : Cache κ} (h : Kept t c c') (hsub : t ⊆ u) : Kept u c c' where
  ok := h.ok
  held := h.held
  orphan := h.orphan
  view := fun k hk => h.view k fun ht => hk (hsub ht)
  stored := fun k hk => h.stored k fun ht => hk (hsub ht)
  saved := fun k hk => h.saved k fun ht => hk (hsub ht)

section

variable (h : c.Ok)
include h

theorem kept_of_entries {c' : Cache κ} (hok : c'.Ok) (hused : ∀ i, c'.Used i ↔ c.Used i)
    (hkey : ∀ i, c.Used i → (c'.cache i).key = (c.cache i).key)
    (hbuf : ∀ i, c.Used i → (c'.cache i).buf = (c.cache i).buf)
    (hdirty : ∀ i, c.Used i → (c.cache i).dirty = true → (c'.cache i).dirty = true)
    (hdisk : c'.disk = c.disk) (hhash : c'.hash = c.hash) (hstored : c'.stored = c.stored) : Kept ∅ c c' where
  ok := hok
  held := by
    intro i k hat hk
    obtain ⟨j, hj⟩ := (mem_pins hok).mp hk
    have hi : c.Used i := .inl hat.1
    have hj' : c.Used j := (hused j).mp (.inl hj.1)
    obtain rfl : i = j := by
      apply h.inj i j hi hj'
      rw [hat.2, ← hj.2, hkey j hj']
    exact hj
  orphan := by
    rintro k ⟨hnone, i, hi, hk⟩
    rw [hhash] at hnone
    have hu : c.Used i := (hused i).mp (.inr hi)
    rw [hkey i hu] at hk
    refine ⟨hnone, i, ?_, hk⟩
    rcases hu with hl | hl
    · have := (h.locked i hl).1
      rw [hk, hnone] at this
      cases this
    · exact hl
  view := by
    intro k _
    refine view_congr h hok (fun i => ?_) (fun i hi _ => hbuf i hi) (by rw [hdisk])
    rw [hused]
    exact and_congr_right fun hi => by rw [hkey i hi]
  stored := by
    intro k _
    rw [hstored]
  saved := by
    intro k _ hs i hi hk
    have hu := (hused i).mp hi
    rw [hkey i hu] at hk
    rw [hbuf i hu, hdisk]
    rcases hs i hu hk with hd | hb
    · exact .inl (hdirty i hu hd)
    · exact .inr hb

/-- The entry `i` has become `e`, which differs in the lock count and in the mark at most. -/
theorem kept_of_entry {c' : Cache κ} {e : Entry κ} (hok : c'.Ok)
    (hused : ∀ j, c'.Used j ↔ c.Used j) (hcache : c'.cache = update c.cache i e)
    (hkey : e.key = (c.cache i).key) (hbuf : e.buf = (c.cache i).buf)
    (hdirty : (c.cache i).dirty = true → e.dirty = true)
    (hdisk : c'.disk = c.disk) (hhash : c'.hash = c.hash) (hstored : c'.stored = c.stored) : Kept ∅ c c' := by
  have hentry (j : ℕ) : (c'.cache j).key = (c.cache j).key ∧ (c'.cache j).buf = (c.cache j).buf ∧
      ((c.cache j).dirty = true → (c'.cache j).dirty = true) := by
    rw [hcache]
    by_cases hj : j = i
    · rw [hj, update_self]
      exact ⟨hkey, hbuf, hdirty⟩
    · rw [update_of_ne hj]
      exact ⟨rfl, rfl, id⟩
  exact kept_of_entries h hok hused (fun j _ => (hentry j).1) (fun j _ => (hentry j).2.1)
    (fun j _ => (hentry j).2.2) hdisk hhash hstored

theorem lock_spec (hk : c.hash k = some i) :
    Kept ∅ c (lock c i) ∧ (lock c i).pins = k ::ₘ c.pins ∧ (lock c i).At i k := by
  obtain ⟨hi, rfl⟩ := h.hash k i hk
  let e : Entry κ := { c.cache i with lockCount := (c.cache i).lockCount + 1 }
  have hcache : (lock c i).cache = update c.cache i e := rfl
  have hself : (lock c i).cache i = e := update_self ..
  have hm : Moved c i .locked (lock c i) := ⟨rfl, rfl, rfl⟩
  have hok : (lock c i).Ok := h.moved_used hi hm (by decide) hcache rfl rfl rfl rfl
    (fun _ => ⟨hk, Nat.succ_pos _⟩) fun hp => by cases hp
  refine ⟨kept_of_entry h hok (fun j => hm.used_of_used h.nodup hi (by decide)) hcache rfl rfl id
    rfl rfl rfl, ?_, mem_cons_self, by rw [hself]⟩
  change pinsOf (lock c i).cache (i :: c.lockedList.erase i) = _
  rw [pinsOf_cons, hself, hcache, pinsOf_update h, Multiset.replicate_succ, Multiset.cons_add, pins]
  congr 1
  rcases hi with hl | hl
  · rw [pinsOf_erase c.cache hl]
  · rw [(h.lru i hl).1, Multiset.replicate_zero, Multiset.zero_add, erase_of_not_mem (h.not_mem_locked hl)]

def evicted (c : Cache κ) (i : ℕ) : Cache κ :=
  { c with
    disk := if (c.cache i).dirty = true then Function.update c.disk (c.cache i).key (c.cache i).buf
      else c.disk
    hash := Function.update c.hash (c.cache i).key none
    freeList := i :: c.freeList
    lruList := c.lruList.erase i }

def admitted (c : Cache κ) (i : ℕ) (k : κ) : Cache κ :=
  { c with
    cache := Function.update c.cache i ⟨k, false, 0, c.disk k⟩
    hash := Function.update c.hash k (some i)
    freeList := c.freeList.erase i
    lruList := i :: c.lruList }

/-- The buffer `i` has gone to the free list and its block out of the hash. -/
structure GivenUp (c : Cache κ) (i : ℕ) (c' : Cache κ) : Prop where
  ok : c'.Ok
  used : ∀ j, c'.Used j ↔ j ≠ i ∧ c.Used j
  key : ∀ j, c'.Used j → (c.cache j).key ≠ (c.cache i).key
  orphan : ∀ k, c'.Orphan k → c.Orphan k
  view : ∀ k, k ≠ (c.cache i).key → c'.view k = c.view k
  saved : ∀ k, c.Saved k → c'.Saved k

theorem Ok.give_up {c' : Cache κ} (hi : c.Used i) (hm : Moved c i .free c')
    (hfaults : c'.faults = c.faults) (hcache : c'.cache = c.cache)
    (hnone : c'.hash = update c.hash (c.cache i).key none)
    (hdisk : ∀ k, k ≠ (c.cache i).key → c'.disk k = c.disk k) : GivenUp c i c' := by
  have hused (j : ℕ) : c'.Used j ↔ j ≠ i ∧ c.Used j := by
    rw [hm.used h.nodup]
    simp
  have hne (j : ℕ) (hji : j ≠ i) (hu : c.Used j) : (c.cache j).key ≠ (c.cache i).key :=
    fun heq => hji (h.inj j i hu hi heq)
  have hkey (j : ℕ) (hj : c'.Used j) : (c.cache j).key ≠ (c.cache i).key :=
    hne j ((hused j).mp hj).1 ((hused j).mp hj).2
  have hhash (k : κ) (hk : k ≠ (c.cache i).key) : c'.hash k = c.hash k := by
    rw [hnone, update_of_ne hk]
  have hgone (k : κ) (j : ℕ) (hj : c'.hash k = some j) : k ≠ (c.cache i).key := by
    rintro rfl
    rw [hnone, update_self] at hj
    cases hj
  have hok : c'.Ok := by
    apply h.moved (h.lt_of_used hi) hm hfaults fun _ _ => by rw [hcache]
    · exact fun hp => absurd rfl hp
    · intro k j hji hj
      rwa [hhash k (hgone k j hj)] at hj
    · intro k hj
      have hk := hgone k i hj
      rw [hhash k hk] at hj
      exact absurd (h.hash k i hj).2.symm hk
    · intro j hji hj
      rw [hhash _ (hne j hji (.inl hj))]
      exact (h.locked j hj).1
    · exact fun j hji hj => hdisk _ (hne j hji (.inr hj))
    · intro hp
      cases hp
    · intro hp
      cases hp
  refine ⟨hok, hused, hkey, ?_, ?_, ?_⟩
  · rintro k ⟨hk, j, hj, rfl⟩
    rw [hcache] at hk ⊢
    rw [hhash _ (hkey j (.inr hj))] at hk
    refine ⟨hk, j, ?_, rfl⟩
    exact (((hm.mem_lru h.nodup).mp hj).resolve_left (by simp)).2
  · intro k hk
    refine view_congr h hok (fun j => ?_) (fun j _ _ => by rw [hcache]) (hdisk k hk)
    rw [hused, hcache, and_assoc, and_iff_right_iff_imp]
    rintro ⟨-, hk'⟩ rfl
    exact hk hk'.symm
  · intro k hs j hj hk
    rw [hcache] at hk ⊢
    rw [hdisk k (hk ▸ hkey j hj)]
    exact hs j ((hused j).mp hj).2 hk

theorem evicted_spec (hi : i ∈ c.lruList) : Kept ∅ c (evicted c i) ∧ (evicted c i).pins = c.pins ∧
      ∀ k, (∀ j, c.Used j → (c.cache j).key ≠ k) → ∀ j, (evicted c i).Used j → (c.cache j).key ≠ k := by
  have hg : GivenUp c i (evicted c i) := by
    refine h.give_up (.inr hi) ⟨?_, rfl, ?_⟩ rfl rfl rfl ?_
    · rw [erase_of_not_mem fun hf => h.not_used hf (.inr hi)]
      rfl
    · rw [erase_of_not_mem (h.not_mem_locked hi)]
      rfl
    · intro k hk
      simp only [evicted]
      split_ifs
      · exact update_of_ne hk _ _
      · rfl
  have hview : (evicted c i).disk (c.cache i).key = (c.cache i).buf := by
    simp only [evicted]
    split_ifs with hd
    · exact update_self ..
    · rcases (h.lru i hi).2 with hd' | hb
      · exact absurd hd' hd
      · exact hb.symm
  refine ⟨⟨hg.ok, fun j k hat _ => hat, hg.orphan, ?_, fun _ _ => rfl, fun k _ => hg.saved k⟩, rfl, ?_⟩
  · intro k _
    by_cases hk : k = (c.cache i).key
    · rw [hk, view_of_used h (.inr hi), view_of_unused hg.key, hview]
    · exact hg.view k hk
  · intro k hk j hj
    exact hk j ((hg.used j).mp hj).2

theorem admitted_spec (hi : i ∈ c.freeList) (hk : ∀ j, c.Used j → (c.cache j).key ≠ k) :
    Kept ∅ c (admitted c i k) ∧ (admitted c i k).pins = c.pins ∧ (admitted c i k).hash k = some i := by
  have hnu := h.not_used hi
  have hlt : i < maxCache := by
    rw [← h.mem]
    exact mem_append_left _ hi
  have hm : Moved c i .lru (admitted c i k) := by
    refine ⟨rfl, ?_, ?_⟩
    · rw [erase_of_not_mem fun hl => hnu (.inr hl)]
      rfl
    · rw [erase_of_not_mem fun hl => hnu (.inl hl)]
      rfl
  have hused (j : ℕ) : (admitted c i k).Used j ↔ j = i ∨ c.Used j := by
    rw [hm.used h.nodup]
    by_cases hj : j = i
    · simp [hj]
    · simp [hj]
  have hself : (admitted c i k).cache i = ⟨k, false, 0, c.disk k⟩ := update_self ..
  have hother (j : ℕ) (hj : c.Used j) : (admitted c i k).cache j = c.cache j := by
    apply update_of_ne
    rintro rfl
    exact hnu hj
  have hhash (k' : κ) (hne : k' ≠ k) : (admitted c i k).hash k' = c.hash k' := update_of_ne hne _ _
  have hok : (admitted c i k).Ok := by
    apply h.moved hlt hm rfl fun j hj => update_of_ne hj _ _
    · intro _ j _ hu
      rw [hself]
      exact hk j hu
    · intro k' j hji hj
      by_cases hk' : k' = k
      · subst hk'
        rw [show (admitted c i k').hash k' = some i from update_self ..] at hj
        exact absurd (Option.some.inj hj).symm hji
      · rwa [hhash k' hk'] at hj
    · intro k' hj
      rw [hself]
      refine ⟨by decide, ?_⟩
      by_contra hne
      rw [hhash k' (Ne.symm hne)] at hj
      exact hnu (h.hash k' i hj).1
    · intro j _ hj
      rw [hhash _ (hk j (.inl hj))]
      exact (h.locked j hj).1
    · exact fun _ _ _ => rfl
    · intro hp
      cases hp
    · intro _
      rw [hself]
      exact ⟨rfl, .inr rfl⟩
  refine ⟨⟨hok, ?_, ?_, ?_, fun _ _ => rfl, ?_⟩, ?_, update_self ..⟩
  · rintro j k' ⟨hj, hk'⟩ _
    exact ⟨hj, by rw [hother j (.inl hj)]; exact hk'⟩
  · rintro k' ⟨hnone, j, hj, hk'⟩
    have hne : k' ≠ k := by
      rintro rfl
      rw [show (admitted c i k').hash k' = some i from update_self ..] at hnone
      cases hnone
    rw [hhash k' hne] at hnone
    rcases mem_cons.mp hj with rfl | hj'
    · rw [hself] at hk'
      exact absurd hk'.symm hne
    · rw [hother j (.inr hj')] at hk'
      exact ⟨hnone, j, hj', hk'⟩
  · intro k' _
    by_cases hk' : k' = k
    · subst hk'
      have hv := view_of_used hok ((hused i).mpr (.inl rfl))
      rw [hself] at hv
      rw [view_of_unused hk]
      exact hv
    refine view_congr h hok (fun j => ?_) (fun j hj _ => by rw [hother j hj]) rfl
    rw [hused]
    constructor
    · rintro ⟨rfl | hj, hkey⟩
      · rw [hself] at hkey
        exact absurd hkey.symm hk'
      · rw [hother j hj] at hkey
        exact ⟨hj, hkey⟩
    · rintro ⟨hj, hkey⟩
      rw [hother j hj]
      exact ⟨.inr hj, hkey⟩
  · intro k' _ hs j hj hkey
    rcases (hused j).mp hj with rfl | hu
    · rw [hself] at hkey ⊢
      obtain rfl : k = k' := hkey
      exact .inr rfl
    · rw [hother j hu] at hkey ⊢
      exact hs j hu hkey
  · apply pinsOf_congr
    intro j hj
    rw [hother j (.inl hj)]
    exact ⟨rfl, rfl⟩

theorem cacheGet_of_free (hfree : c.freeList = i :: l) (hk : c.hash k = none) :
    cacheGet k c = (some i, lock (admitted c i k) i) := by
  have hnu := h.not_used (i := i) (by rw [hfree]; exact mem_cons_self)
  have hlru : i ∉ c.lruList := fun hl => hnu (.inr hl)
  have hnl : i ∉ l := by
    have hd := List.Nodup.of_append_left h.nodup
    rw [hfree, nodup_cons] at hd
    exact hd.1
  simp only [cacheGet, hk, claim, hfree, fill, setEntry, h.faults]
  simp [lock, hashPut, admitted, setEntry, listRemove, hfree, h.faults, hnl, hlru, erase_of_not_mem]

theorem claim_of_lru (hfree : c.freeList = []) (hlru : c.lruList = i :: l) :
    claim c = (some i, { evicted c i with freeList := [], lruList := i :: l }) := by
  simp only [claim, hfree, hlru]
  split_ifs with hd
  · simp only [sweep, h.faults]
    simp [evicted, hashRemove, hd, hfree, hlru, h.faults]
  · simp [evicted, hashRemove, hd, hfree, hlru]

theorem cacheGet_of_lru (hfree : c.freeList = []) (hlru : c.lruList = i :: l) (hk : c.hash k = none) :
    cacheGet k c = (some i, lock (admitted (evicted c i) i k) i) := by
  have hfaults : (evicted c i).faults = [] := h.faults
  simp only [cacheGet, hk, claim_of_lru h hfree hlru, fill, setEntry, hfaults]
  simp [lock, hashPut, admitted, setEntry, listRemove, evicted, hfree, hlru, h.faults]

theorem cacheGet_spec (hk : ¬c.Orphan k) (hroom : Multiset.card c.pins < maxCache) :
    ∃ i c', cacheGet k c = (some i, c') ∧ Kept ∅ c c' ∧ c'.pins = k ::ₘ c.pins ∧ c'.At i k := by
  cases hhash : c.hash k with
  | some i =>
    obtain ⟨hkept, hpins, hat⟩ := lock_spec h hhash
    exact ⟨i, lock c i, by simp only [cacheGet, hhash], hkept, hpins, hat⟩
  | none =>
    have hunused := h.unused_of_hash hhash hk
    cases hfree : c.freeList with
    | cons i l =>
      obtain ⟨hadm, hpins, hput⟩ := admitted_spec h (i := i) (by rw [hfree]; exact mem_cons_self) hunused
      obtain ⟨hlock, hpins', hat⟩ := lock_spec hadm.ok hput
      refine ⟨i, _, cacheGet_of_free h hfree hhash, hadm.trans hlock ?_ h, ?_, hat⟩
      · intro k' hk' _
        rwa [hpins]
      · rw [hpins', hpins]
    | nil =>
      cases hlru : c.lruList with
      | nil => exact absurd (h.exists_entry hroom) (by simp [hfree, hlru])
      | cons i l =>
        have hi : i ∈ c.lruList := by rw [hlru]; exact mem_cons_self
        obtain ⟨hev, hpins1, hunused1⟩ := evicted_spec h hi
        obtain ⟨hadm, hpins2, hput⟩ := admitted_spec hev.ok (i := i) (k := k) mem_cons_self (hunused1 k hunused)
        obtain ⟨hlock, hpins3, hat⟩ := lock_spec hadm.ok hput
        have hpins : (lock (admitted (evicted c i) i k) i).pins = k ::ₘ c.pins := by
          rw [hpins3, hpins2, hpins1]
        refine ⟨i, _, cacheGet_of_lru h hfree hlru hhash, (hev.trans hadm ?_ h).trans hlock ?_ h, hpins, hat⟩
        · intro k' hk' _
          rwa [hpins1]
        · intro k' hk' _
          rwa [hpins2, hpins1]

end

section

variable (h : c.Ok) (hat : c.At i k)
include h hat

theorem store_spec (f : Block → Block) : Kept {k} c (c.store i f) ∧ (c.store i f).pins = c.pins ∧
      (c.store i f).view k = f (c.view k) ∧ (c.store i f).stored k = f (c.view k) := by
  obtain ⟨hi, rfl⟩ := hat
  have hentry (j : ℕ) : ((c.store i f).cache j).key = (c.cache j).key ∧
      ((c.store i f).cache j).lockCount = (c.cache j).lockCount ∧
      ((c.store i f).cache j).dirty = (c.cache j).dirty := by
    simp only [Cache.store, update_apply]
    split_ifs with hj
    · rw [hj]
      exact ⟨rfl, rfl, rfl⟩
    · exact ⟨rfl, rfl, rfl⟩
  have hother (j : ℕ) (hj : j ≠ i) : (c.store i f).cache j = c.cache j := update_of_ne hj _ _
  have hself : ((c.store i f).cache i).buf = f (c.cache i).buf := by
    simp only [Cache.store, update_self]
  have hview : c.view (c.cache i).key = (c.cache i).buf := view_of_used h (.inl hi)
  have hok : (c.store i f).Ok :=
    h.of_locked hi hother (hentry i).1 (by rw [(hentry i).2.1]; exact (h.locked i hi).2) rfl rfl rfl rfl rfl rfl
  refine ⟨⟨hok, ?_, ?_, ?_, ?_, ?_⟩, ?_, ?_, ?_⟩
  · rintro j k ⟨hj, hk⟩ _
    exact ⟨hj, by rw [(hentry j).1]; exact hk⟩
  · rintro k ⟨hnone, j, hj, hk⟩
    rw [(hentry j).1] at hk
    exact ⟨hnone, j, hj, hk⟩
  · intro k hk
    refine view_congr h hok (fun j => by rw [(hentry j).1]; rfl) (fun j _ hkey => ?_) rfl
    rw [hother j]
    rintro rfl
    exact hk hkey.symm
  · intro k hk
    exact update_of_ne hk _ _
  · intro k hk hs j hj hkey
    rw [(hentry j).1] at hkey
    have hne : j ≠ i := by
      rintro rfl
      exact hk hkey.symm
    rw [hother j hne]
    exact hs j hj hkey
  · apply pinsOf_congr
    intro j _
    exact ⟨(hentry j).2.1, (hentry j).1⟩
  · have hv := view_of_used hok (i := i) (.inl hi)
    rw [(hentry i).1, hself] at hv
    rw [hv, hview]
  · rw [hview]
    exact update_self ..

theorem buf_of_at : (c.cache i).buf = c.view k := by
  obtain ⟨hi, rfl⟩ := hat
  rw [view_of_used h (.inl hi)]

theorem cacheModify_spec :
    ∃ c', cacheModify (some i) c = (true, c') ∧ Kept ∅ c c' ∧ c'.pins = c.pins ∧ c'.Saved k := by
  obtain ⟨hi, rfl⟩ := hat
  refine ⟨c.setEntry i { c.cache i with dirty := true }, rfl, ?_⟩
  have hself : (c.setEntry i { c.cache i with dirty := true }).cache i =
      { c.cache i with dirty := true } := update_self ..
  have hok : (c.setEntry i { c.cache i with dirty := true }).Ok :=
    h.of_locked hi (fun j hj => update_of_ne hj _ _) (by rw [hself])
      (by rw [hself]; exact (h.locked i hi).2) rfl rfl rfl rfl rfl rfl
  refine ⟨kept_of_entry h hok (fun _ => Iff.rfl) rfl rfl rfl (fun _ => rfl) rfl rfl rfl, ?_,
    saved_of_dirty h (.inl hi) (fun _ => Iff.rfl) rfl rfl⟩
  change pinsOf (update _ _ _) c.lockedList = pinsOf c.cache c.lockedList
  rw [pinsOf_erase _ hi, pinsOf_erase c.cache hi, pinsOf_update h, update_self]

theorem cacheRelease_of_more (hcount : 1 < (c.cache i).lockCount) :
    ∃ c', cacheRelease (some i) dirty c = (true, c') ∧ Kept ∅ c c' ∧ c.pins = k ::ₘ c'.pins ∧
      (dirty = true → c'.Saved k) := by
  obtain ⟨hi, rfl⟩ := hat
  let e : Entry κ :=
    { c.cache i with
      dirty := (c.cache i).dirty || dirty
      lockCount := (c.cache i).lockCount - 1 }
  have heq : cacheRelease (some i) dirty c = (true, c.setEntry i e) := by
    simp only [cacheRelease, setEntry, update_self, update_idem]
    rw [if_pos (by omega), if_neg (by omega)]
  have hself : (c.setEntry i e).cache i = e := update_self ..
  have hok : (c.setEntry i e).Ok := h.of_locked hi (fun j hj => update_of_ne hj _ _) (by rw [hself])
      (by rw [hself]; change 0 < _ - 1; omega) rfl rfl rfl rfl rfl rfl
  have hmark (hd : (c.cache i).dirty = true) : e.dirty = true := by
    change ((c.cache i).dirty || dirty) = true
    rw [hd, Bool.true_or]
  refine ⟨_, heq, kept_of_entry h hok (fun _ => Iff.rfl) rfl rfl rfl hmark rfl rfl rfl, ?_, ?_⟩
  · change pinsOf c.cache c.lockedList = _ ::ₘ pinsOf (update c.cache i e) c.lockedList
    rw [pinsOf_erase _ hi, pinsOf_erase (update c.cache i e) hi, pinsOf_update h, update_self,
      ← Multiset.cons_add]
    congr 1
    rw [← Multiset.replicate_succ]
    congr 1
    change _ = (c.cache i).lockCount - 1 + 1
    omega
  · rintro rfl
    exact saved_of_dirty h (.inl hi) (fun _ => Iff.rfl) rfl (Bool.or_true _)

theorem cacheRelease_of_last (hsaved : dirty = true ∨ c.Saved k) (hcount : (c.cache i).lockCount = 1) :
    ∃ c', cacheRelease (some i) dirty c = (true, c') ∧ Kept ∅ c c' ∧ c.pins = k ::ₘ c'.pins ∧
      (dirty = true → c'.Saved k) := by
  obtain ⟨hi, rfl⟩ := hat
  let e : Entry κ :=
    { c.cache i with
      dirty := (c.cache i).dirty || dirty
      lockCount := 0 }
  let c' : Cache κ :=
    { c.setEntry i e with
      freeList := c.freeList.erase i
      lruList := i :: c.lruList.erase i
      lockedList := c.lockedList.erase i }
  have heq : cacheRelease (some i) dirty c = (true, c') := by
    simp only [cacheRelease, setEntry, update_self, update_idem]
    rw [if_pos (by omega), if_pos (by omega), hcount]
    rfl
  have hm : Moved c i .lru c' := ⟨rfl, rfl, rfl⟩
  have hused (j : ℕ) : c'.Used j ↔ c.Used j := hm.used_of_used h.nodup (.inl hi) (by decide)
  have hmark (hd : (c.cache i).dirty = true) : e.dirty = true := by
    change ((c.cache i).dirty || dirty) = true
    rw [hd, Bool.true_or]
  have hdirty : e.dirty = true ∨ e.buf = c.disk e.key := by
    rcases hsaved with rfl | hs
    · exact .inl (Bool.or_true _)
    · exact (hs i (.inl hi) rfl).imp hmark id
  have hok : c'.Ok := h.moved_used (.inl hi) hm (by decide) rfl rfl rfl rfl rfl
    (fun hp => by cases hp) fun _ => ⟨rfl, hdirty⟩
  refine ⟨c', heq, kept_of_entry h hok hused rfl rfl rfl hmark rfl rfl rfl, ?_, ?_⟩
  · change pinsOf c.cache c.lockedList = _ ::ₘ pinsOf (update c.cache i e) (c.lockedList.erase i)
    rw [pinsOf_erase _ hi, pinsOf_update h, hcount, Multiset.replicate_one, Multiset.singleton_add]
  · rintro rfl
    exact saved_of_dirty h (.inl hi) hused rfl (Bool.or_true _)

theorem cacheRelease_spec (hsaved : dirty = true ∨ c.Saved k) :
    ∃ c', cacheRelease (some i) dirty c = (true, c') ∧ Kept ∅ c c' ∧ c.pins = k ::ₘ c'.pins ∧
      (dirty = true → c'.Saved k) := by
  have hpos := (h.locked i hat.1).2
  by_cases hcount : (c.cache i).lockCount = 1
  · exact cacheRelease_of_last h hat hsaved hcount
  · exact cacheRelease_of_more h hat (by omega)

end

end Cache

end Eotan.Fs
