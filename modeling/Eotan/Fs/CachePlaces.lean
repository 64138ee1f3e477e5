import Eotan.Fs.CacheSpec

/-!
The lists and the hash of the cache, whatever device operations fail. The block of a locked buffer is
not invalidated here.
-/

namespace Eotan.Fs.Cache

open Lib.Bytes (Block)
open Function
open List

variable {κ : Type}

structure Placed (c : Cache κ) : Prop where
  nodup : (c.freeList ++ (c.lruList ++ c.lockedList)).Nodup
  mem : ∀ i, i ∈ c.freeList ++ (c.lruList ++ c.lockedList) ↔ i < maxCache
  hash : ∀ k i, c.hash k = some i ↔ c.Used i ∧ (c.cache i).key = k
  locked : ∀ i ∈ c.lockedList, 0 < (c.cache i).lockCount
  unlocked : ∀ i, i ∈ c.freeList ∨ i ∈ c.lruList → (c.cache i).lockCount = 0

section

variable {c c' : Cache κ} {i j : ℕ} {k : κ}

section

variable (h : c.Placed)
include h

theorem Placed.lt (hi : c.Used i) : i < maxCache := (h.mem i).mp hi.mem

theorem Placed.lru_nodup : c.lruList.Nodup := List.Nodup.of_append_left (List.Nodup.of_append_right h.nodup)

theorem Placed.not_used (hi : i ∈ c.freeList) : ¬c.Used i := not_used_of_nodup h.nodup hi

theorem Placed.used_iff : c.Used i ↔ c.hash (c.cache i).key = some i := by
  rw [h.hash]
  exact ⟨fun hu => ⟨hu, rfl⟩, And.left⟩

theorem Placed.inj (hi : c.Used i) (hj : c.Used j) (heq : (c.cache i).key = (c.cache j).key) : i = j := by
  rw [h.used_iff] at hi hj
  rw [heq, hj] at hi
  exact (Option.some.inj hi).symm

theorem Placed.key_inj {k' : κ} (hk : c.hash k = some i) (hk' : c.hash k' = some i) : k' = k :=
  ((h.hash k' i).mp hk').2.symm.trans ((h.hash k i).mp hk).2

theorem Placed.locked_iff (hi : i < maxCache) : i ∈ c.lockedList ↔ 0 < (c.cache i).lockCount := by
  refine ⟨h.locked i, fun hpos => ?_⟩
  rw [← h.mem, mem_append, mem_append] at hi
  rcases hi with hl | hl | hl
  · rw [h.unlocked i (.inl hl)] at hpos
    cases hpos
  · rw [h.unlocked i (.inr hl)] at hpos
    cases hpos
  · exact hl

theorem Placed.touch (hfree : c'.freeList = c.freeList) (hlru : c'.lruList = c.lruList)
    (hlocked : c'.lockedList = c.lockedList) (hhash : c'.hash = c.hash)
    (hentry : ∀ j, (c'.cache j).key = (c.cache j).key ∧
      (0 < (c'.cache j).lockCount ↔ 0 < (c.cache j).lockCount)) : c'.Placed := by
  refine ⟨?_, ?_, ?_, ?_, ?_⟩
  · rw [hfree, hlru, hlocked]
    exact h.nodup
  · rw [hfree, hlru, hlocked]
    exact h.mem
  · intro k j
    rw [Used, hhash, hlru, hlocked, (hentry j).1]
    exact h.hash k j
  · intro j hj
    rw [hlocked] at hj
    exact (hentry j).2.mpr (h.locked j hj)
  · intro j hj
    rw [hfree, hlru] at hj
    have hzero := h.unlocked j hj
    by_contra hne
    have hpos := (hentry j).2.mp (Nat.pos_of_ne_zero hne)
    omega

theorem Placed.change {e : Entry κ} (hcache : c'.cache = update c.cache i e)
    (hfree : c'.freeList = c.freeList) (hlru : c'.lruList = c.lruList)
    (hlocked : c'.lockedList = c.lockedList) (hhash : c'.hash = c.hash)
    (hkey : e.key = (c.cache i).key) (hcount : 0 < e.lockCount ↔ 0 < (c.cache i).lockCount) : c'.Placed := by
  apply h.touch hfree hlru hlocked hhash
  intro j
  rw [hcache]
  by_cases hj : j = i
  · rw [hj, update_self]
    exact ⟨hkey, hcount⟩
  · rw [update_of_ne hj]
    exact ⟨rfl, Iff.rfl⟩

theorem Placed.moved (hi : i < maxCache) {p : Place} (hm : Moved c i p c')
    (hother : ∀ j, j ≠ i → c'.cache j = c.cache j) (hcount : 0 < (c'.cache i).lockCount ↔ p = .locked)
    (hself : ∀ k, c'.hash k = some i ↔ p ≠ .free ∧ (c'.cache i).key = k)
    (hhash : ∀ k j, j ≠ i → (c'.hash k = some j ↔ c.hash k = some j)) : c'.Placed := by
  refine ⟨hm.nodup h.nodup, hm.mem h.nodup h.mem hi, ?_, ?_, ?_⟩
  · intro k j
    by_cases heq : j = i
    · subst heq
      rw [hself, hm.used h.nodup]
      simp
    · rw [hhash k j heq, hm.used h.nodup, hother j heq]
      simp only [heq, false_and, ne_eq, not_false_eq_true, true_and, false_or]
      exact h.hash k j
  · intro j hj
    rcases (hm.mem_locked h.nodup).mp hj with ⟨rfl, hp⟩ | ⟨hne, hj⟩
    · exact hcount.mpr hp
    · rw [hother j hne]
      exact h.locked j hj
  · intro j hj
    rw [hm.mem_free h.nodup, hm.mem_lru h.nodup] at hj
    by_cases heq : j = i
    · subst heq
      have hp : p ≠ .locked := by
        rcases hj with (⟨-, rfl⟩ | ⟨hne, -⟩) | ⟨-, rfl⟩ | ⟨hne, -⟩
        · decide
        · exact absurd rfl hne
        · decide
        · exact absurd rfl hne
      by_contra hne
      exact hp (hcount.mp (Nat.pos_of_ne_zero hne))
    · rw [hother j heq]
      apply h.unlocked
      exact hj.imp (fun hf => (hf.resolve_left fun hi => heq hi.1).2)
        fun hl => (hl.resolve_left fun hi => heq hi.1).2

theorem lock_placed (hk : c.hash k = some i) : (lock c i).Placed := by
  obtain ⟨hi, rfl⟩ := (h.hash k i).mp hk
  have hself : (lock c i).cache i = { c.cache i with lockCount := (c.cache i).lockCount + 1 } := update_self ..
  apply h.moved (h.lt hi) (p := .locked) ⟨rfl, rfl, rfl⟩
  · intro j hj
    exact update_of_ne hj _ _
  · rw [hself]
    simp
  · intro k'
    rw [hself]
    change c.hash k' = some i ↔ _ ∧ (c.cache i).key = k'
    rw [h.hash k' i]
    simp [hi]
  · intro k' j _
    rfl

structure Claimed (c : Cache κ) (i : ℕ) (c₁ : Cache κ) : Prop where
  place : i ∈ c.freeList ∨ i ∈ c.lruList
  freeList : c₁.freeList = c.freeList
  lruList : c₁.lruList = c.lruList
  lockedList : c₁.lockedList = c.lockedList
  cache : c₁.cache = c.cache
  hash : ∀ k j, c₁.hash k = some j ↔ j ≠ i ∧ c.hash k = some j
  disk : ∀ k, c.hash k ≠ some i → c₁.disk k = c.disk k
  swept : ∀ k, c.hash k = some i → c₁.disk k = (c.cache i).buf ∨
    (c.cache i).dirty = false ∧ c₁.disk k = c.disk k
  faults : ∀ b ∈ c₁.faults, b ∈ c.faults

theorem Claimed.lt {c₁ : Cache κ} (hc : Claimed c i c₁) : i < maxCache := by
  rw [← h.mem, mem_append, mem_append]
  exact hc.place.imp_right .inl

theorem abandon_placed {c₁ : Cache κ} (hc : Claimed c i c₁) (e : Entry κ) (he : e.lockCount = 0)
    {c₂ : Cache κ} (hcache : c₂.cache = update c₁.cache i e)
    (hfree : c₂.freeList = c₁.freeList) (hlru : c₂.lruList = c₁.lruList)
    (hlocked : c₂.lockedList = c₁.lockedList) (hhash : c₂.hash = c₁.hash) :
    Placed { listRemove c₂ i with freeList := i :: (listRemove c₂ i).freeList } := by
  apply h.moved (hc.lt h) (p := .free)
  · refine ⟨?_, ?_, ?_⟩
    · change i :: c₂.freeList.erase i = [i] ++ _
      rw [hfree, hc.freeList]
      rfl
    · change c₂.lruList.erase i = [] ++ _
      rw [hlru, hc.lruList]
      rfl
    · change c₂.lockedList.erase i = [] ++ _
      rw [hlocked, hc.lockedList]
      rfl
  · intro j hj
    change c₂.cache j = c.cache j
    rw [hcache, update_of_ne hj, hc.cache]
  · change 0 < (c₂.cache i).lockCount ↔ _
    rw [hcache, update_self, he]
    simp
  · intro k
    change c₂.hash k = some i ↔ _
    rw [hhash, hc.hash]
    simp
  · intro k j hj
    change c₂.hash k = some j ↔ _
    rw [hhash, hc.hash]
    simp [hj]

end

theorem fill_cases (c : Cache κ) (i : ℕ) :
    (∃ faults, fill c i = (false, { c with faults := faults }) ∧ true ∈ c.faults) ∨
      fill c i = (true, { c with
        faults := c.faults.tail
        cache := update c.cache i { c.cache i with buf := c.disk (c.cache i).key } }) := by
  unfold fill
  split
  · rename_i faults heq
    refine .inl ⟨faults, rfl, ?_⟩
    rw [heq]
    exact mem_cons_self
  · exact .inr rfl

end

variable [DecidableEq κ]

section

variable {c c₁ : Cache κ} {i : ℕ} {k : κ}

theorem sweep_cases (c : Cache κ) (i : ℕ) :
    (∃ faults, sweep c i = (true, { c with faults := faults }) ∧ true ∈ c.faults) ∨
      sweep c i = (false, { c with
        faults := c.faults.tail
        disk := update c.disk (c.cache i).key (c.cache i).buf }) := by
  unfold sweep
  split
  · rename_i faults heq
    refine .inl ⟨faults, rfl, ?_⟩
    rw [heq]
    exact mem_cons_self
  · exact .inr rfl

theorem hash_given_up (h : c.Placed) (hi : i ∈ c.lruList) (k : κ) (j : ℕ) :
    update c.hash (c.cache i).key none k = some j ↔ j ≠ i ∧ c.hash k = some j := by
  have hself : c.hash (c.cache i).key = some i := h.used_iff.mp (.inr hi)
  by_cases hk : k = (c.cache i).key
  · rw [hk, update_self, hself]
    simp [eq_comm]
  · rw [update_of_ne hk]
    refine ⟨fun hj => ⟨?_, hj⟩, And.right⟩
    rintro rfl
    exact hk ((h.hash k j).mp hj).2.symm

theorem claim_cases (h : c.Placed) : (claim c = (none, c) ∧ c.freeList = [] ∧ c.lruList = []) ∨
      (∃ faults, claim c = (none, { c with faults := faults }) ∧ true ∈ c.faults) ∨
      ∃ i c₁, claim c = (some i, c₁) ∧ Claimed c i c₁ := by
  by_cases hfree : c.freeList = []
  · by_cases hlru : c.lruList = []
    · refine .inl ⟨?_, hfree, hlru⟩
      simp only [claim, hfree, hlru]
    obtain ⟨i, l, hlru⟩ := exists_cons_of_ne_nil hlru
    right
    have hi : i ∈ c.lruList := by
      rw [hlru]
      exact mem_cons_self
    have hkey (k : κ) (hk : c.hash k = some i) : k = (c.cache i).key := ((h.hash k i).mp hk).2.symm
    have hself : c.hash (c.cache i).key = some i := h.used_iff.mp (.inr hi)
    have hgiven := hash_given_up h hi
    by_cases hdirty : (c.cache i).dirty = true
    · obtain ⟨faults, hsweep, hne⟩ | hsweep := sweep_cases c i
      · refine .inl ⟨faults, ?_, hne⟩
        simp only [claim, hfree, hlru, if_pos hdirty, hsweep]
      refine .inr ⟨i, hashRemove { c with
        faults := c.faults.tail
        disk := update c.disk (c.cache i).key (c.cache i).buf } i, ?_, .inr hi, rfl, rfl,
        rfl, rfl, hgiven, ?_, ?_, ?_⟩
      · simp only [claim, hfree, hlru, if_pos hdirty, hsweep]
      · intro k hk
        apply update_of_ne
        rintro rfl
        exact hk hself
      · intro k hk
        left
        rw [hkey k hk]
        exact update_self ..
      · intro b hb
        exact mem_of_mem_tail hb
    · refine .inr ⟨i, hashRemove c i, ?_, .inr hi, rfl, rfl, rfl, rfl, hgiven, fun _ _ => rfl, ?_, fun _ => id⟩
      · simp only [claim, hfree, hlru, if_neg hdirty]
      · intro k _
        exact .inr ⟨by simpa using hdirty, rfl⟩
  · obtain ⟨i, l, hfree⟩ := exists_cons_of_ne_nil hfree
    right
    right
    have hi : i ∈ c.freeList := by
      rw [hfree]
      exact mem_cons_self
    have hnone (k : κ) : c.hash k ≠ some i := by
      intro hk
      exact h.not_used hi ((h.hash k i).mp hk).1
    refine ⟨i, c, ?_, .inl hi, rfl, rfl, rfl, rfl, ?_, fun _ _ => rfl, ?_, fun _ => id⟩
    · simp only [claim, hfree]
    · intro k j
      refine ⟨fun hj => ⟨?_, hj⟩, And.right⟩
      rintro rfl
      exact hnone k hj
    · intro k hk
      exact absurd hk (hnone k)

theorem install_eq {b : Block} {c₂ : Cache κ} (hcache : c₂.cache = update c₁.cache i ⟨k, false, 0, b⟩)
    (hhash : c₂.hash = c₁.hash) : (lock (hashPut c₂ i) i).cache i = ⟨k, false, 1, b⟩ ∧
      (lock (hashPut c₂ i) i).hash = update c₁.hash k (some i) := by
  constructor
  · simp [lock, hashPut, listRemove, setEntry, hcache]
  · change update c₂.hash (c₂.cache i).key (some i) = _
    rw [hhash, hcache, update_self]

theorem install_placed (h : c.Placed) (hc : Claimed c i c₁) (hk : c.hash k = none) (b : Block)
    {c₂ : Cache κ} (hcache : c₂.cache = update c₁.cache i ⟨k, false, 0, b⟩)
    (hfree : c₂.freeList = c₁.freeList) (hlru : c₂.lruList = c₁.lruList)
    (hlocked : c₂.lockedList = c₁.lockedList) (hhash : c₂.hash = c₁.hash) : (lock (hashPut c₂ i) i).Placed := by
  obtain ⟨hself, hput⟩ := install_eq hcache hhash
  apply h.moved (hc.lt h) (p := .locked)
  · refine ⟨?_, ?_, ?_⟩
    · change c₂.freeList.erase i = [] ++ _
      rw [hfree, hc.freeList]
      rfl
    · change c₂.lruList.erase i = [] ++ _
      rw [hlru, hc.lruList]
      rfl
    · change i :: c₂.lockedList.erase i = [i] ++ _
      rw [hlocked, hc.lockedList]
      rfl
  · intro j hj
    simp [lock, hashPut, listRemove, setEntry, hcache, hj, hc.cache]
  · rw [hself]
    simp
  · intro k'
    rw [hput, hself]
    by_cases hk' : k' = k
    · rw [hk', update_self]
      simp
    · rw [update_of_ne hk', hc.hash]
      simp [Ne.symm hk']
  · intro k' j hj
    rw [hput]
    by_cases hk' : k' = k
    · rw [hk', update_self, hk]
      simp [Ne.symm hj]
    · rw [update_of_ne hk', hc.hash]
      simp [hj]

inductive Got (k : κ) (c : Cache κ) : Option ℕ → Cache κ → Prop where
  | hit {i : ℕ} (cached : c.hash k = some i) : Got k c (some i) (lock c i)
  | full (uncached : c.hash k = none) (free : c.freeList = []) (lru : c.lruList = []) : Got k c none c
  | unswept (uncached : c.hash k = none) (failed : true ∈ c.faults) (faults : List Bool) :
    Got k c none { c with faults := faults }
  | unread {i : ℕ} {c₁ c₂ : Cache κ} (uncached : c.hash k = none) (claimed : Claimed c i c₁)
    (failed : true ∈ c₁.faults) (disk : c₂.disk = c₁.disk)
    (cache : c₂.cache = Function.update c₁.cache i ⟨k, false, 0, (c₁.cache i).buf⟩)
    (freeList : c₂.freeList = c₁.freeList) (lruList : c₂.lruList = c₁.lruList)
    (lockedList : c₂.lockedList = c₁.lockedList) (hash : c₂.hash = c₁.hash) :
    Got k c none { listRemove c₂ i with freeList := i :: (listRemove c₂ i).freeList }
  | taken {i : ℕ} {c₁ c₂ : Cache κ} {b : Block} (uncached : c.hash k = none) (claimed : Claimed c i c₁)
    (read : b = c₁.disk k) (disk : c₂.disk = c₁.disk)
    (cache : c₂.cache = Function.update c₁.cache i ⟨k, false, 0, b⟩)
    (freeList : c₂.freeList = c₁.freeList) (lruList : c₂.lruList = c₁.lruList)
    (lockedList : c₂.lockedList = c₁.lockedList) (hash : c₂.hash = c₁.hash) :
    Got k c (some i) (lock (hashPut c₂ i) i)

theorem cacheGet_got (h : c.Placed) (k : κ) : Got k c (cacheGet k c).1 (cacheGet k c).2 := by
  unfold cacheGet
  cases hk : c.hash k with
  | some i => exact .hit hk
  | none =>
    obtain ⟨hclaim, hfree, hlru⟩ | ⟨faults, hclaim, hne⟩ | ⟨i, c₁, hclaim, hclaimed⟩ := claim_cases h
    · rw [hclaim]
      exact .full hk hfree hlru
    · rw [hclaim]
      exact .unswept hk hne faults
    rw [hclaim]
    simp only
    obtain ⟨faults, hfill, hne⟩ | hfill := fill_cases (c₁.setEntry i ⟨k, false, 0, (c₁.cache i).buf⟩) i
    · rw [hfill]
      exact .unread hk hclaimed hne rfl rfl rfl rfl rfl rfl
    · rw [hfill]
      refine .taken hk hclaimed rfl rfl ?_ rfl rfl rfl rfl
      simp [setEntry]

variable {c' : Cache κ}

theorem Got.placed (h : c.Placed) {r : Option ℕ} (hg : Got k c r c') : c'.Placed := by
  cases hg with
  | hit cached => exact lock_placed h cached
  | full => exact h
  | unswept => exact h.touch rfl rfl rfl rfl fun _ => ⟨rfl, Iff.rfl⟩
  | unread uncached claimed failed disk cache freeList lruList lockedList hash =>
    exact abandon_placed h claimed _ rfl cache freeList lruList lockedList hash
  | taken uncached claimed read disk cache freeList lruList lockedList hash =>
    exact install_placed h claimed uncached _ cache freeList lruList lockedList hash

inductive Created (k : κ) (c : Cache κ) : Option ℕ → Cache κ → Prop where
  | hit {i : ℕ} (cached : c.hash k = some i) :
    Created k c (some i) (store (lock c i) i fun _ => Lib.Bytes.zero)
  | full (uncached : c.hash k = none) (free : c.freeList = []) (lru : c.lruList = []) :
    Created k c none c
  | unswept (uncached : c.hash k = none) (failed : true ∈ c.faults) (faults : List Bool) :
    Created k c none { c with faults := faults }
  | taken {i : ℕ} {c₁ c₂ : Cache κ} (uncached : c.hash k = none) (claimed : Claimed c i c₁)
    (disk : c₂.disk = c₁.disk)
    (cache : c₂.cache = Function.update c₁.cache i ⟨k, false, 0, (c₁.cache i).buf⟩)
    (freeList : c₂.freeList = c₁.freeList) (lruList : c₂.lruList = c₁.lruList)
    (lockedList : c₂.lockedList = c₁.lockedList) (hash : c₂.hash = c₁.hash) :
    Created k c (some i) (store (lock (hashPut c₂ i) i) i fun _ => Lib.Bytes.zero)

theorem cacheCreate_created (h : c.Placed) (k : κ) : Created k c (cacheCreate k c).1 (cacheCreate k c).2 := by
  unfold cacheCreate
  cases hk : c.hash k with
  | some i => exact .hit hk
  | none =>
    obtain ⟨hclaim, hfree, hlru⟩ | ⟨faults, hclaim, hne⟩ | ⟨i, c₁, hclaim, hclaimed⟩ := claim_cases h
    · rw [hclaim]
      exact .full hk hfree hlru
    · rw [hclaim]
      exact .unswept hk hne faults
    · rw [hclaim]
      exact .taken hk hclaimed rfl rfl rfl rfl rfl rfl

theorem store_placed (h : c.Placed) (i : ℕ) (f : Block → Block) : (store c i f).Placed :=
  h.change rfl rfl rfl rfl rfl rfl Iff.rfl

theorem Created.placed (h : c.Placed) {r : Option ℕ} (hg : Created k c r c') : c'.Placed := by
  cases hg with
  | hit cached => exact store_placed (lock_placed h cached) _ _
  | full => exact h
  | unswept => exact h.touch rfl rfl rfl rfl fun _ => ⟨rfl, Iff.rfl⟩
  | taken uncached claimed disk cache freeList lruList lockedList hash =>
    exact store_placed (install_placed h claimed uncached _ cache freeList lruList lockedList hash) _ _

omit [DecidableEq κ] in
theorem cacheModify_placed (h : c.Placed) (p : Option ℕ) : (cacheModify p c).2.Placed := by
  cases p with
  | none => exact h
  | some i => exact h.change rfl rfl rfl rfl rfl rfl Iff.rfl

inductive Released (c : Cache κ) (i : ℕ) (dirty : Bool) : Cache κ → Prop where
  | last {c' : Cache κ} (count : (c.cache i).lockCount = 1) (moved : Moved c i .lru c')
    (cache : c'.cache = Function.update c.cache i
      { c.cache i with lockCount := 0, dirty := (c.cache i).dirty || dirty })
    (hash : c'.hash = c.hash) (disk : c'.disk = c.disk) : Released c i dirty c'
  | shared {c' : Cache κ} (count : 1 < (c.cache i).lockCount) (freeList : c'.freeList = c.freeList)
    (lruList : c'.lruList = c.lruList) (lockedList : c'.lockedList = c.lockedList)
    (cache : c'.cache = Function.update c.cache i
      { c.cache i with
        lockCount := (c.cache i).lockCount - 1, dirty := (c.cache i).dirty || dirty })
    (hash : c'.hash = c.hash) (disk : c'.disk = c.disk) : Released c i dirty c'

omit [DecidableEq κ] in
theorem cacheRelease_released (hpos : 0 < (c.cache i).lockCount) (dirty : Bool) :
    Released c i dirty (cacheRelease (some i) dirty c).2 := by
  by_cases hone : (c.cache i).lockCount = 1
  · have heq : cacheRelease (some i) dirty c = (true, { listRemove (c.setEntry i
        { c.cache i with lockCount := 0, dirty := (c.cache i).dirty || dirty }) i with
        lruList := i :: c.lruList.erase i }) := by
      simp [cacheRelease, setEntry, listRemove, hone]
    rw [heq]
    exact .last hone ⟨rfl, rfl, rfl⟩ rfl rfl rfl
  · have heq : cacheRelease (some i) dirty c = (true, c.setEntry i
        { c.cache i with
          lockCount := (c.cache i).lockCount - 1, dirty := (c.cache i).dirty || dirty }) := by
      have hmore : (c.cache i).lockCount - 1 ≠ 0 := by omega
      simp [cacheRelease, setEntry, hpos, hmore]
    rw [heq]
    exact .shared (by omega) rfl rfl rfl rfl rfl rfl

omit [DecidableEq κ] in
theorem Released.placed (h : c.Placed) (hi : i < maxCache) {dirty : Bool}
    (hr : Released c i dirty c') : c'.Placed := by
  cases hr with
  | last count moved cache hash disk =>
    have hused : c.Used i := by
      left
      rw [h.locked_iff hi, count]
      exact Nat.one_pos
    apply h.moved hi moved
    · intro j hj
      rw [cache, update_of_ne hj]
    · rw [cache, update_self]
      simp
    · intro k
      rw [hash, cache, update_self, h.hash]
      simp [hused]
    · intro k j _
      rw [hash]
  | shared count freeList lruList lockedList cache hash disk =>
    apply h.change cache freeList lruList lockedList hash rfl
    simp only
    omega

theorem dispose_placed (h : c.Placed) (hk : c.hash k = some i) (hzero : (c.cache i).lockCount = 0) :
    (dispose c i).Placed := by
  obtain ⟨hi, rfl⟩ := (h.hash k i).mp hk
  have hlru : i ∈ c.lruList := by
    rcases hi with hl | hl
    · have hpos := h.locked i hl
      omega
    · exact hl
  have hgiven := hash_given_up h hlru
  apply h.moved (h.lt hi) (p := .free) ⟨rfl, rfl, rfl⟩
  · intro j _
    rfl
  · change 0 < (c.cache i).lockCount ↔ _
    rw [hzero]
    simp
  · intro k
    change update c.hash (c.cache i).key none k = some i ↔ _
    rw [hgiven]
    simp
  · intro k j hj
    change update c.hash (c.cache i).key none k = some j ↔ _
    rw [hgiven]
    simp [hj]

inductive Cleaned (c : Cache κ) (i : ℕ) : Bool → Cache κ → Prop where
  | clean (dirty : (c.cache i).dirty = false) : Cleaned c i false c
  | unswept (failed : true ∈ c.faults) (faults : List Bool) : Cleaned c i true { c with faults := faults }
  | swept (dirty : (c.cache i).dirty = true) : Cleaned c i false { c with
      faults := c.faults.tail
      disk := Function.update c.disk (c.cache i).key (c.cache i).buf
      cache := Function.update c.cache i { c.cache i with dirty := false } }

theorem flushEntry_cleaned (c : Cache κ) (i : ℕ) : Cleaned c i (flushEntry c i).1 (flushEntry c i).2 := by
  unfold flushEntry
  split_ifs with hdirty
  · obtain ⟨faults, hsweep, hne⟩ | hsweep := sweep_cases c i
    · rw [hsweep]
      exact .unswept hne faults
    · rw [hsweep]
      exact .swept hdirty
  · exact .clean (by simpa using hdirty)

theorem Cleaned.same {failed : Bool} (hc : Cleaned c i failed c') :
    c'.freeList = c.freeList ∧ c'.lruList = c.lruList ∧ c'.lockedList = c.lockedList ∧
      c'.hash = c.hash ∧ ∀ j, (c'.cache j).key = (c.cache j).key ∧
        (c'.cache j).lockCount = (c.cache j).lockCount ∧ (c'.cache j).buf = (c.cache j).buf := by
  cases hc with
  | clean => exact ⟨rfl, rfl, rfl, rfl, fun _ => ⟨rfl, rfl, rfl⟩⟩
  | unswept => exact ⟨rfl, rfl, rfl, rfl, fun _ => ⟨rfl, rfl, rfl⟩⟩
  | swept =>
    refine ⟨rfl, rfl, rfl, rfl, fun j => ?_⟩
    by_cases hj : j = i
    · simp [hj]
    · simp [hj]

theorem Cleaned.placed (h : c.Placed) {failed : Bool} (hc : Cleaned c i failed c') : c'.Placed := by
  obtain ⟨hfree, hlru, hlocked, hhash, hentry⟩ := hc.same
  exact h.touch hfree hlru hlocked hhash fun j => ⟨(hentry j).1, by rw [(hentry j).2.1]⟩

theorem Cleaned.clean_of_ok (hc : Cleaned c i false c') : (c'.cache i).dirty = false := by
  cases hc with
  | clean dirty => exact dirty
  | swept => simp

end

section Flush

variable {P : Cache κ → Prop}
  (hclean : ∀ c i failed c', P c → c.Used i → Cleaned c i failed c' → P c')
  (hdispose : ∀ c i, P c → i ∈ c.lruList → (c.cache i).dirty = false → P (dispose c i))
include hclean

theorem flushLocked_rule (l : List ℕ) (c : Cache κ) (hc : P c) (hl : ∀ i ∈ l, i ∈ c.lockedList) :
    P (flushLocked l c).2 := by
  induction l generalizing c with
  | nil => exact hc
  | cons i l ih =>
    obtain ⟨hi, hl⟩ := forall_mem_cons.mp hl
    have hcleaned := flushEntry_cleaned c i
    have hlists := hcleaned.same.2.2.1
    have hnext := hclean c i _ _ hc (.inl hi) hcleaned
    rw [flushLocked]
    rcases hflush : flushEntry c i with ⟨failed, c₁⟩
    rw [hflush] at hlists hnext
    cases failed with
    | true => exact hnext
    | false =>
      apply ih c₁ hnext
      rwa [hlists]

include hdispose

theorem flushLru_rule (mine : κ → Bool) (unmount : Bool) (l : List ℕ) (hnodup : l.Nodup) (c : Cache κ)
    (hc : P c) (hl : ∀ i ∈ l, i ∈ c.lruList) : P (flushLru mine unmount l c).2 := by
  induction l generalizing c with
  | nil => exact hc
  | cons i l ih =>
    rw [nodup_cons] at hnodup
    obtain ⟨hi, hrest⟩ := forall_mem_cons.mp hl
    rw [flushLru]
    by_cases hmine : mine (c.cache i).key = true
    · rw [if_pos hmine]
      have hcleaned := flushEntry_cleaned c i
      rcases hflush : flushEntry c i with ⟨failed, c₁⟩
      rw [hflush] at hcleaned
      have hlists := hcleaned.same.2.1
      have hnext := hclean c i _ _ hc (.inr hi) hcleaned
      cases failed with
      | true => exact hnext
      | false =>
        simp only at hlists hnext ⊢
        cases unmount with
        | false =>
          apply ih hnodup.2 _ hnext
          rwa [hlists]
        | true =>
          apply ih hnodup.2 _ (hdispose c₁ i hnext (by rw [hlists]; exact hi) hcleaned.clean_of_ok)
          intro j hj
          have hne : j ≠ i := by
            rintro rfl
            exact hnodup.1 hj
          change j ∈ c₁.lruList.erase i
          rw [mem_erase_of_ne hne, hlists]
          exact hrest j hj
    · rw [if_neg hmine]
      exact ih hnodup.2 c hc hrest

theorem cacheFlush_rule (hnodup : ∀ c, P c → c.lruList.Nodup) (mine : κ → Bool) (unmount : Bool)
    (c : Cache κ) (hc : P c) : P (cacheFlush mine unmount c).2 := by
  have hlru := flushLru_rule hclean hdispose mine unmount c.lruList (hnodup c hc) c hc fun _ => id
  unfold cacheFlush
  rcases hflush : flushLru mine unmount c.lruList c with ⟨failed, c₁⟩
  rw [hflush] at hlru
  cases failed with
  | true => exact hlru
  | false => exact flushLocked_rule hclean c₁.lockedList c₁ hlru fun _ => id

end Flush

theorem unmount_placed {c : Cache κ} {i : ℕ} (h : c.Placed) (hi : i ∈ c.lruList) : (dispose c i).Placed :=
  dispose_placed h (h.used_iff.mp (.inr hi)) (h.unlocked i (.inr hi))

theorem flushLru_placed {c : Cache κ} (h : c.Placed) (mine : κ → Bool) (unmount : Bool) :
    (flushLru mine unmount c.lruList c).2.Placed := by
  apply flushLru_rule _ _ mine unmount c.lruList _ c h fun _ => id
  · intro c i failed c' hp _ hc
    exact hc.placed hp
  · intro c i hp hi _
    exact unmount_placed hp hi
  · exact h.lru_nodup

end Eotan.Fs.Cache
