import Eotan.Fs.CachePlaces

namespace Eotan.Fs.Cache

open Lib.Bytes (Block)
open Function
open List

inductive Op (κ : Type) where
  | create (k : κ)
  | get (k : κ)
  | store (i : ℕ) (f : Block → Block)
  | modify (p : Option ℕ)
  | release (p : Option ℕ) (dirty : Bool)
  | invalidate (k : κ)
  | flush (mine : κ → Bool) (unmount : Bool)

/-- The cache, with the time at which the last lock of each entry was last released. -/
structure Timed (κ : Type) where
  cache : Cache κ
  released : ℕ → ℕ
  now : ℕ

variable {κ : Type}

section

variable [DecidableEq κ]

def Op.apply (c : Cache κ) : Op κ → Cache κ
  | .create k => (cacheCreate k c).2
  | .get k => (cacheGet k c).2
  | .store i f => c.store i f
  | .modify p => (cacheModify p c).2
  | .release p dirty => (cacheRelease p dirty c).2
  | .invalidate k => (cacheInvalidate k c).2
  | .flush mine unmount => (cacheFlush mine unmount c).2

def Timed.step (t : Timed κ) (op : Op κ) : Timed κ where
  cache := op.apply t.cache
  released :=
    match op with
    | .release (some i) _ =>
      if (t.cache.cache i).lockCount = 1 then Function.update t.released i t.now else t.released
    | _ => t.released
  now := t.now + 1

def Timed.run (t : Timed κ) (ops : List (Op κ)) : Timed κ := ops.foldl Timed.step t

def Timed.start [Inhabited κ] (disk : κ → Block) (faults : List Bool) : Timed κ where
  cache := cacheInitialize disk faults
  released := fun _ => 0
  now := 0

end

def Unlocked (c : Cache κ) (i : ℕ) : Prop := i < maxCache ∧ (c.cache i).lockCount = 0

instance (c : Cache κ) (i : ℕ) : Decidable (c.Unlocked i) := inferInstanceAs (Decidable (_ ∧ _))

structure Ordered (c : Cache κ) (released : ℕ → ℕ) (now : ℕ) : Prop where
  sorted : c.lruList.Pairwise fun i j => released j < released i
  past : ∀ i ∈ c.lruList, released i < now
  places : ∀ i < maxCache,
    i ∈ c.freeList ∨ i ∈ c.lruList ∨ i ∈ c.lockedList ∧ 0 < (c.cache i).lockCount

variable {c c' : Cache κ} {r : ℕ → ℕ} {n i : ℕ} {k : κ}

section

variable (h : Ordered c r n)
include h

theorem Ordered.nodup : c.lruList.Nodup := h.sorted.imp fun hlt heq => absurd (heq ▸ hlt) (lt_irrefl _)

theorem Ordered.later : Ordered c r (n + 1) :=
  ⟨h.sorted, fun i hi => (h.past i hi).trans (Nat.lt_succ_self n), h.places⟩

theorem Ordered.same (hfree : c'.freeList = c.freeList)
    (hlru : c'.lruList = c.lruList) (hlocked : c'.lockedList = c.lockedList)
    (hcount : ∀ j, 0 < (c.cache j).lockCount → 0 < (c'.cache j).lockCount) : Ordered c' r n := by
  refine ⟨hlru ▸ h.sorted, hlru ▸ h.past, ?_⟩
  intro j hj
  rw [hfree, hlru, hlocked]
  exact (h.places j hj).imp id fun hp => hp.imp id fun hl => ⟨hl.1, hcount j hl.2⟩

theorem Ordered.changed {e : Entry κ} (hfree : c'.freeList = c.freeList)
    (hlru : c'.lruList = c.lruList) (hlocked : c'.lockedList = c.lockedList)
    (hcache : c'.cache = update c.cache i e)
    (he : 0 < (c.cache i).lockCount → 0 < e.lockCount) : Ordered c' r n := by
  apply h.same hfree hlru hlocked
  intro j hj
  rw [hcache]
  by_cases hji : j = i
  · subst hji
    rw [update_self]
    exact he hj
  · rw [update_of_ne hji]
    exact hj

theorem Ordered.moved {p : Place} (hm : Moved c i p c') (hp : p ≠ .lru)
    (hi : p = .locked → 0 < (c'.cache i).lockCount)
    (hother : ∀ j, j ≠ i → c'.cache j = c.cache j) : Ordered c' r n := by
  have hlru : c'.lruList = c.lruList.erase i := by
    rw [hm.lruList, if_neg hp]
    rfl
  refine ⟨hlru ▸ h.sorted.sublist erase_sublist, ?_, ?_⟩
  · intro j hj
    rw [hlru] at hj
    exact h.past j (mem_of_mem_erase hj)
  · intro j hj
    by_cases heq : j = i
    · subst heq
      rw [hm.freeList, hm.lockedList]
      cases p with
      | free => exact .inl mem_cons_self
      | lru => exact absurd rfl hp
      | locked => exact .inr (.inr ⟨mem_cons_self, hi rfl⟩)
    · rw [hlru, hm.freeList, hm.lockedList, hother j heq, mem_append, mem_append,
        mem_erase_of_ne heq, mem_erase_of_ne heq, mem_erase_of_ne heq]
      exact (h.places j hj).imp .inr fun hl => hl.imp id fun hl => ⟨.inr hl.1, hl.2⟩

theorem install_ordered (i : ℕ) (e : Entry κ) (hash : κ → Option ℕ) (disk : κ → Block) (faults : List Bool) :
    Ordered (lock { c with
      hash := hash, disk := disk, faults := faults, cache := update c.cache i e } i) r n := by
  apply h.moved (i := i) (p := .locked) ⟨rfl, rfl, rfl⟩ (by decide)
  · intro _
    simp [lock, setEntry, listRemove]
  · intro j hj
    simp [lock, setEntry, listRemove, hj]

theorem lock_ordered (i : ℕ) : Ordered (lock c i) r n := by
  have hinstall := install_ordered h i (c.cache i) c.hash c.disk c.faults
  rw [update_eq_self] at hinstall
  exact hinstall

theorem cacheModify_ordered (p : Option ℕ) : Ordered (cacheModify p c).2 r n := by
  cases p with
  | none => exact h
  | some i => exact h.changed (i := i) rfl rfl rfl rfl id

theorem cacheRelease_ordered (i : ℕ) (dirty : Bool) : Ordered (cacheRelease (some i) dirty c).2
      (if (c.cache i).lockCount = 1 then update r i n else r) (n + 1) := by
  unfold cacheRelease
  simp only [setEntry, update_self, update_idem]
  by_cases hone : (c.cache i).lockCount = 1
  · rw [if_pos (by omega), if_pos (by omega), if_pos hone]
    -- the entry goes before all that were released earlier
    have hne : ∀ j ∈ c.lruList.erase i, j ≠ i := fun j hj => (h.nodup.mem_erase_iff.mp hj).1
    have hpast : ∀ j ∈ c.lruList.erase i, r j < n := fun j hj => h.past j (mem_of_mem_erase hj)
    refine ⟨pairwise_cons.mpr ⟨?_, ?_⟩, ?_, ?_⟩
    · intro j hj
      rw [update_self, update_of_ne (hne j hj)]
      exact hpast j hj
    · apply (h.sorted.sublist erase_sublist).imp_of_mem
      intro a b ha hb hab
      rw [update_of_ne (hne a ha), update_of_ne (hne b hb)]
      exact hab
    · intro j hj
      rcases mem_cons.mp hj with rfl | hj
      · rw [update_self]
        exact Nat.lt_succ_self n
      · rw [update_of_ne (hne j hj)]
        exact (hpast j hj).trans (Nat.lt_succ_self n)
    · intro j hj
      by_cases hji : j = i
      · exact .inr (.inl (hji ▸ mem_cons_self))
      · dsimp only [listRemove]
        rw [update_of_ne hji, mem_cons, mem_erase_of_ne hji, mem_erase_of_ne hji, mem_erase_of_ne hji]
        exact (h.places j hj).imp id fun hl => hl.imp .inr id
  · rw [if_neg hone]
    split_ifs with hpos hzero
    · omega
    · exact h.later.changed rfl rfl rfl rfl fun _ => Nat.pos_of_ne_zero hzero
    · exact h.later.changed rfl rfl rfl rfl id

end

variable [DecidableEq κ]

theorem claim_same (c : Cache κ) : ∃ r hash disk faults,
    claim c = (r, { c with hash := hash, disk := disk, faults := faults }) ∧
      (c.freeList = [] → ∀ i, r = some i → ∃ l, c.lruList = i :: l) := by
  unfold claim
  split
  · rename_i hfree
    exact ⟨_, _, _, _, rfl, fun h => by rw [hfree] at h; cases h⟩
  split
  · exact ⟨_, _, _, _, rfl, fun _ i h => by cases h⟩
  rename_i a l hlru
  split_ifs
  · obtain ⟨faults, hsweep, -⟩ | hsweep := sweep_cases c a
    · rw [hsweep]
      exact ⟨_, _, _, _, rfl, fun _ i h => by cases h⟩
    · rw [hsweep]
      exact ⟨_, _, _, _, rfl, fun _ i h => ⟨l, by cases h; exact hlru⟩⟩
  · exact ⟨_, _, _, _, rfl, fun _ i h => ⟨l, by cases h; exact hlru⟩⟩

section

variable (h : Ordered c r n)
include h

theorem store_ordered (i : ℕ) (f : Block → Block) : Ordered (c.store i f) r n := h.changed rfl rfl rfl rfl id

theorem cacheCreate_ordered (k : κ) : Ordered (cacheCreate k c).2 r n := by
  unfold cacheCreate
  split
  · exact store_ordered (lock_ordered h _) _ fun _ => Lib.Bytes.zero
  obtain ⟨_ | i, hash, disk, faults, hclaim, -⟩ := claim_same c
  · rw [hclaim]
    exact h.same rfl rfl rfl fun _ => id
  · rw [hclaim]
    exact store_ordered (install_ordered h i ⟨k, false, 0, (c.cache i).buf⟩ _ _ _) i fun _ => Lib.Bytes.zero

theorem cacheGet_ordered (k : κ) : Ordered (cacheGet k c).2 r n := by
  unfold cacheGet
  split
  · exact lock_ordered h _
  obtain ⟨_ | i, hash, disk, faults, hclaim, -⟩ := claim_same c
  · rw [hclaim]
    exact h.same rfl rfl rfl fun _ => id
  rw [hclaim]
  dsimp only
  obtain ⟨faults', hfill, -⟩ | hfill := fill_cases (setEntry { c with
    hash := hash, disk := disk, faults := faults } i ⟨k, false, 0, (c.cache i).buf⟩) i
  · rw [hfill]
    apply h.moved (i := i) (p := .free) ⟨rfl, rfl, rfl⟩ (by decide) (fun hp => by cases hp)
    intro j hj
    simp [setEntry, listRemove, hj]
  · rw [hfill]
    simp only [hashPut, setEntry, update_idem]
    exact install_ordered h i _ _ _ _

theorem dispose_ordered (i : ℕ) : Ordered (dispose c i) r n :=
  h.moved (i := i) (p := .free) ⟨rfl, rfl, rfl⟩ (by decide) (fun hp => by cases hp) fun _ _ => rfl

theorem cacheInvalidate_ordered (k : κ) : Ordered (cacheInvalidate k c).2 r n := by
  unfold cacheInvalidate
  split
  · exact h
  · exact dispose_ordered h _

theorem cacheFlush_ordered (mine : κ → Bool) (unmount : Bool) : Ordered (cacheFlush mine unmount c).2 r n := by
  apply cacheFlush_rule (P := (Ordered · r n)) _ _ _ mine unmount c h
  · intro c i failed c' h _ hc
    obtain ⟨hfree, hlru, hlocked, -, hentry⟩ := hc.same
    apply h.same hfree hlru hlocked
    intro j hj
    rw [(hentry j).2.1]
    exact hj
  · intro c i h _ _
    exact dispose_ordered h i
  · intro c h
    exact h.nodup

end

theorem step_ordered {t : Timed κ} (h : Ordered t.cache t.released t.now) (op : Op κ) :
    Ordered (t.step op).cache (t.step op).released (t.step op).now := by
  cases op with
  | create k => exact (cacheCreate_ordered h k).later
  | get k => exact (cacheGet_ordered h k).later
  | store i f => exact (store_ordered h i f).later
  | modify p => exact (cacheModify_ordered h p).later
  | release p dirty =>
    cases p with
    | none => exact h.later
    | some i => exact cacheRelease_ordered h i dirty
  | invalidate k => exact (cacheInvalidate_ordered h k).later
  | flush mine unmount => exact (cacheFlush_ordered h mine unmount).later

theorem run_ordered {t : Timed κ} (h : Ordered t.cache t.released t.now) (ops : List (Op κ)) :
    Ordered (t.run ops).cache (t.run ops).released (t.run ops).now := by
  induction ops generalizing t with
  | nil => exact h
  | cons op ops ih => exact ih (step_ordered h op)

theorem Ordered.claimed (h : Ordered c r n) (hfree : c.freeList = []) (hi : (claim c).1 = some i)
    {j : ℕ} (hj : c.Unlocked j) : j = i ∨ r j < r i := by
  have hmem : j ∈ c.lruList := by
    rcases h.places j hj.1 with hl | hl | hl
    · rw [hfree] at hl
      cases hl
    · exact hl
    · exact absurd hl.2 (by rw [hj.2]; decide)
  obtain ⟨_, _, _, _, hclaim, hhead⟩ := claim_same c
  rw [hclaim] at hi
  obtain ⟨l, hl⟩ := hhead hfree i hi
  have hsorted := h.sorted
  rw [hl, pairwise_cons] at hsorted
  rw [hl] at hmem
  exact (mem_cons.mp hmem).imp id (hsorted.1 j)

theorem evicts_oldest_iff [Inhabited κ] (disk : κ → Block) (faults : List Bool)
    (ops : List (Op κ)) {t : Timed κ} (ht : t = (Timed.start disk faults).run ops)
    (hfree : t.cache.freeList = []) {i : ℕ} (hi : (claim t.cache).1 = some i) :
    (∀ j, t.cache.Unlocked j → t.released i ≤ t.released j) ↔
      ∀ j, t.cache.Unlocked j → j = i := by
  have hstart : Ordered (cacheInitialize disk faults) (fun _ => 0) 0 :=
    ⟨.nil, fun _ h => absurd h not_mem_nil, fun _ h => .inl (mem_range.mpr h)⟩
  have h : Ordered t.cache t.released t.now := ht ▸ run_ordered hstart ops
  constructor
  · intro hold j hj
    rcases h.claimed hfree hi hj with heq | hlt
    · exact heq
    · exact absurd (hold j hj) (not_le.mpr hlt)
  · intro hone j hj
    rw [hone j hj]

/-- All entries are locked, and then those of `l` are released one after the other. -/
def releasing (l : List ℕ) : Timed ℕ :=
  (Timed.start (fun _ => Lib.Bytes.zero) []).run
    ((range maxCache).map .get ++ l.map fun i => .release (some i) false)

theorem evicts_oldest_alone : ∃ t, t = releasing [5] ∧ t.cache.Unlocked 5 ∧
    ∀ j, t.cache.Unlocked j → t.released 5 ≤ t.released j := by
  have halone : ∀ j < maxCache, ((releasing [5]).cache.cache j).lockCount = 0 → j = 5 := by
    decide +kernel
  have hfacts : (releasing [5]).cache.Unlocked 5 ∧ (releasing [5]).cache.freeList = [] ∧
      (claim (releasing [5]).cache).1 = some 5 := by
    decide +kernel
  generalize ht : releasing [5] = t at halone hfacts
  refine ⟨t, rfl, hfacts.1, ?_⟩
  exact (evicts_oldest_iff _ _ _ ht.symm hfacts.2.1 hfacts.2.2).mpr fun j hj => halone j hj.1 hj.2

theorem evicts_latest : ∃ t, t = releasing [0, 1] ∧ t.cache.freeList = [] ∧
    (claim t.cache).1 = some 1 ∧ t.cache.Unlocked 0 ∧ t.released 0 < t.released 1 :=
  ⟨_, rfl, by decide +kernel⟩

end Eotan.Fs.Cache
