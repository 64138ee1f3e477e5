import Eotan.Fs.CacheMemory
import Eotan.Fs.CachePlaces
import Eotan.Set.HashRuns

namespace Eotan.Fs.Memory

open Intrusive
open Lib (Links)
open Lib.Links
open Lib.Bytes (Block)
open Cache (Placed Claimed)
open Function
open List

theorem hashing (m : Memory) : Hash.Hashing m.named m.calcHash m.compare where
  cmp_iff a b := by
    rw [compare, BlockId.mk.injEq]
    constructor
    · intro h
      split_ifs at h with hno hchannel hless hless
      · exact ⟨hchannel, hno⟩
      · omega
      · omega
    · rintro ⟨hchannel, hno⟩
      rw [if_pos hno, if_pos hchannel]
  calc_congr a b size hab := by rw [calcHash, calcHash, hab]
  calc_lt p _ hsize := Nat.mod_lt _ hsize

structure Tabled (m : Memory) (hash : BlockId → Option ℕ) (chains : ℕ → List Hash.Slot)
    (spares : List Hash.Slot) (map : Hash.BoundedMap BlockId ℕ) : Prop where
  max : m.hash.max = maxCache
  holds : Hash.Holds m.named m.calcHash m.hash chains spares map
  get : ∀ k, map.get k = hash k
  keys : ∀ k, k ∈ map.keys ↔ hash k ≠ none
  own : ∀ p v, Hash.Stored m.hash chains p v → ∃ i, p = .entry i ∧ v = some i

theorem step_max_eq {m : Memory} (h : m.hash.max = maxCache) (op : Hash.Op Pointer ℕ) :
    (Hash.step m.calcHash m.compare m.hash op).2.max = maxCache := (Hash.step_max op).trans h

section

variable {m m' : Memory} {hash : BlockId → Option ℕ} {chains : ℕ → List Hash.Slot}
  {spares : List Hash.Slot} {map : Hash.BoundedMap BlockId ℕ} {i : ℕ}

section

variable (h : m.Tabled hash chains spares map)
include h

theorem Tabled.stored {p : Pointer} {v : Option ℕ}
    (hs : Hash.Stored m.hash chains p v) : ∃ i, p = .entry i ∧ v = some i ∧ hash (m.named p) = some i := by
  obtain ⟨i, rfl, rfl⟩ := h.own p v hs
  obtain ⟨j, hj, slot, hslot, hkey, hvalue⟩ := hs
  obtain ⟨k, hk, -, -, hget⟩ := h.holds.means.keyed j hj slot hslot
  rw [hkey, Option.some.injEq] at hk
  subst hk
  refine ⟨i, rfl, rfl, ?_⟩
  rw [← h.get, hget, hvalue]

theorem Tabled.rename (hhash : m'.hash = m.hash)
    (hsame : ∀ k i, hash k = some i → (m'.cache i).key = (m.cache i).key) :
    m'.Tabled hash chains spares map := by
  refine ⟨?_, ?_, h.get, h.keys, ?_⟩
  · rw [hhash]
    exact h.max
  · rw [hhash]
    apply h.holds.rename
    intro p v hs
    obtain ⟨i, rfl, -, hi⟩ := h.stored hs
    have hname : m'.named (.entry i) = m.named (.entry i) := hsame _ i hi
    refine ⟨hname, ?_⟩
    rw [calcHash, calcHash, hname]
  · rw [hhash]
    exact h.own

theorem Tabled.lookup (p : Pointer) : (m.hashGet p).1 = hash (m.named p) ∧
      ∃ chains', (m.hashGet p).2.Tabled hash chains' spares map := by
  obtain ⟨hvalue, chains', hholds, hstored⟩ := Hash.hashGet_holds m.hashing h.holds p
  refine ⟨?_, chains', step_max_eq h.max (.get p), hholds, h.get, h.keys, ?_⟩
  · rw [← h.get, ← hvalue]
    rfl
  · intro q v hs
    exact h.own q v (hstored q v hs)

theorem Tabled.put (hi : i < maxCache) (hother : ∀ k j, hash k = some j → j < maxCache ∧ j ≠ i)
    (hinj : ∀ k k' j, hash k = some j → hash k' = some j → k = k') :
    ∃ chains' spares' map', (m.hashPut i).Tabled (update hash (m.cache i).key (some i)) chains'
      spares' map' := by
  have hcard : map.keys.card < m.hash.max := by
    have hle : map.keys.card ≤ ((Finset.range maxCache).erase i).card := by
      apply Finset.card_le_card_of_injOn fun k => (hash k).getD 0
      · intro k hk
        obtain ⟨j, hj⟩ := Option.ne_none_iff_exists'.mp ((h.keys k).mp hk)
        simp only [Finset.coe_erase, Finset.coe_range, hj, Option.getD_some]
        exact ⟨(hother k j hj).1, (hother k j hj).2⟩
      · intro k hk k' hk' heq
        obtain ⟨j, hj⟩ := Option.ne_none_iff_exists'.mp ((h.keys k).mp hk)
        obtain ⟨j', hj'⟩ := Option.ne_none_iff_exists'.mp ((h.keys k').mp hk')
        simp only [hj, hj', Option.getD_some] at heq
        exact hinj k k' j hj (heq ▸ hj')
    rw [Finset.card_erase_of_mem (Finset.mem_range.mpr hi), Finset.card_range] at hle
    rw [h.max]
    omega
  obtain ⟨-, chains', spares', hholds, hstored⟩ := Hash.hashPut_holds m.hashing h.holds (.entry i) (some i)
  have hname : m.named (.entry i) = (m.cache i).key := rfl
  simp only [Hash.BoundedMap.step, if_pos (.inr hcard : _ ∨ _), hname] at hholds
  refine ⟨chains', spares', _, step_max_eq h.max (.put (.entry i) (some i)), hholds, ?_, ?_, ?_⟩
  · intro k
    change update map.get _ _ k = _
    rw [funext h.get]
  · intro k
    by_cases hk : k = (m.cache i).key
    · simp [Hash.BoundedMap.put, hk]
    · simp [Hash.BoundedMap.put, hk, h.keys]
  · intro q v hs
    rcases hstored q v hs with hs | ⟨rfl, rfl⟩
    · exact h.own q v hs
    · exact ⟨i, rfl, rfl⟩

theorem Tabled.remove (i : ℕ) :
    ∃ chains' spares' map', (m.hashRemove i).Tabled (update hash (m.cache i).key none) chains' spares' map' := by
  obtain ⟨-, chains', spares', hholds, hstored⟩ := Hash.hashRemove_holds m.hashing h.holds (.entry i)
  have hmax := step_max_eq h.max (.remove (.entry i))
  have hname : m.named (.entry i) = (m.cache i).key := rfl
  have hown : ∀ q v, Hash.Stored (m.hashRemove i).hash chains' q v → ∃ i, q = .entry i ∧ v = some i :=
    fun q v hs => h.own q v (hstored q v hs)
  by_cases hmem : (m.cache i).key ∈ map.keys
  · simp only [Hash.BoundedMap.step, hname, if_pos hmem] at hholds
    refine ⟨chains', spares', _, hmax, hholds, ?_, ?_, hown⟩
    · intro k
      change update map.get _ _ k = _
      rw [funext h.get]
    · intro k
      by_cases hk : k = (m.cache i).key
      · simp [Hash.BoundedMap.remove, hk]
      · simp [Hash.BoundedMap.remove, hk, h.keys]
  · simp only [Hash.BoundedMap.step, hname, if_neg hmem] at hholds
    have hnone : hash (m.cache i).key = none := by
      by_contra hsome
      exact hmem ((h.keys _).mpr hsome)
    rw [update_eq_self_iff.mpr hnone.symm]
    exact ⟨chains', spares', map, hmax, hholds, h.get, h.keys, hown⟩

end

end

def lists (free lru locked : List ℕ) : List (Node × List Node) :=
  [(.freeList, free.map .entry), (.lruList, lru.map .entry), (.lockedList, locked.map .entry)]

section

variable {l : Links Node} {free lru locked : List ℕ} {i : ℕ}

theorem mem_free : (Node.freeList, free.map Node.entry) ∈ lists free lru locked := by simp [lists]

theorem mem_lru : (Node.lruList, lru.map Node.entry) ∈ lists free lru locked := by simp [lists]

theorem mem_locked : (Node.lockedList, locked.map Node.entry) ∈ lists free lru locked := by simp [lists]

theorem mem_nodes_entry : Node.entry i ∈ nodes (lists free lru locked) ↔ i ∈ free ∨ i ∈ lru ∨ i ∈ locked := by
  simp [nodes, lists]

theorem nodup_of_rings (h : l.Rings (lists free lru locked)) : (free ++ (lru ++ locked)).Nodup := by
  have hnodup := h.nodup
  have hsub : ((free ++ (lru ++ locked)).map Node.entry).Sublist (nodes (lists free lru locked)) := by
    simp only [nodes, lists, flatMap_cons, flatMap_nil, append_nil, map_append]
    exact ((List.Sublist.refl _).cons _).append
      (((List.Sublist.refl _).cons _).append ((List.Sublist.refl _).cons _))
  exact List.Nodup.of_map _ (hsub.nodup hnodup)

theorem rotate_lists : (lists free lru locked).Perm
    [(.lruList, lru.map .entry), (.lockedList, locked.map .entry), (.freeList, free.map .entry)] :=
  (perm_append_singleton _ _).symm

theorem rotate_lists' : (lists free lru locked).Perm
    [(.lockedList, locked.map .entry), (.freeList, free.map .entry), (.lruList, lru.map .entry)] :=
  perm_append_singleton _ [_, _]

theorem rings_erase_head {g : Node} {es : List ℕ} {rs : List (Node × List Node)}
    (h : l.Rings ((g, es.map .entry) :: rs)) (hi : i ∈ es) :
    (listRemove l (.entry i)).Rings ((g, (es.erase i).map .entry) :: rs) := by
  obtain ⟨a, b, -, rfl, herase⟩ := exists_erase_eq hi
  rw [map_append, map_cons] at h
  rw [herase, map_append]
  exact rings_take h

theorem rings_erase (h : l.Rings (lists free lru locked)) (hi : i ∈ free ∨ i ∈ lru ∨ i ∈ locked) :
    (listRemove l (.entry i)).Rings (lists (free.erase i) (lru.erase i) (locked.erase i)) := by
  have hnodup := nodup_of_rings h
  have hapart := disjoint_of_nodup_append hnodup
  have hapart' := disjoint_of_nodup_append (List.Nodup.of_append_right hnodup)
  rcases hi with hi | hi | hi
  · have hlru : i ∉ lru := fun hl => hapart hi (mem_append_left _ hl)
    have hlocked : i ∉ locked := fun hl => hapart hi (mem_append_right _ hl)
    rw [erase_of_not_mem hlru, erase_of_not_mem hlocked]
    exact rings_erase_head h hi
  · have hfree : i ∉ free := fun hl => hapart hl (mem_append_left _ hi)
    have hlocked : i ∉ locked := fun hl => hapart' hi hl
    rw [erase_of_not_mem hfree, erase_of_not_mem hlocked]
    exact (rings_erase_head (h.perm rotate_lists) hi).perm rotate_lists.symm
  · have hfree : i ∉ free := fun hl => hapart hl (mem_append_right _ hi)
    have hlru : i ∉ lru := fun hl => hapart' hl hi
    rw [erase_of_not_mem hfree, erase_of_not_mem hlru]
    exact (rings_erase_head (h.perm rotate_lists') hi).perm rotate_lists'.symm

theorem rings_insert_at {g : Node} {es : List ℕ} {rs rs' : List (Node × List Node)}
    (h : l.Rings rs) (hperm : rs.Perm ((g, es.map .entry) :: rs')) (hout : .entry i ∉ nodes rs) :
    (listInsert l g (.entry i)).Rings ((g, (i :: es).map .entry) :: rs') := by
  apply rings_insert (h.perm hperm)
  intro hmem
  exact hout ((hperm.symm.flatMap_right _).mem_iff.1 hmem)

theorem erased_not_mem (h : l.Rings (lists free lru locked)) :
    Node.entry i ∉ nodes (lists (free.erase i) (lru.erase i) (locked.erase i)) := by
  have hnodup := nodup_erase_all (nodup_of_rings h) i
  rw [nodup_cons, mem_append, mem_append] at hnodup
  rw [mem_nodes_entry]
  exact hnodup.1

variable (h : l.Rings (lists free lru locked)) (hi : i ∈ free ∨ i ∈ lru ∨ i ∈ locked)
include h hi

theorem rings_to_free : (listInsert (listRemove l (.entry i)) .freeList (.entry i)).Rings
    (lists (i :: free.erase i) (lru.erase i) (locked.erase i)) :=
  rings_insert (rings_erase h hi) (erased_not_mem h)

theorem rings_to_lru : (listInsert (listRemove l (.entry i)) .lruList (.entry i)).Rings
    (lists (free.erase i) (i :: lru.erase i) (locked.erase i)) :=
  (rings_insert_at (rings_erase h hi) rotate_lists (erased_not_mem h)).perm rotate_lists.symm

theorem rings_to_locked : (listInsert (listRemove l (.entry i)) .lockedList (.entry i)).Rings
    (lists (free.erase i) (lru.erase i) (i :: locked.erase i)) :=
  (rings_insert_at (rings_erase h hi) rotate_lists' (erased_not_mem h)).perm rotate_lists'.symm

end

/-- The lists of `c` run through the entries, and the hash has the pointers that `c.hash` gives. -/
structure Sim (m : Memory) (c : Cache BlockId) : Prop where
  disk : m.disk = c.disk
  faults : m.faults = c.faults
  cache : m.cache = c.cache
  links : m.links.Rings (lists c.freeList c.lruList c.lockedList)
  hash : ∃ chains spares map, m.Tabled c.hash chains spares map

def Agree {α : Type} (x : α × Memory) (y : α × Cache BlockId) : Prop := x.1 = y.1 ∧ Sim x.2 y.2

theorem Agree.exists {α : Type} {x : α × Memory} {r : α} {c : Cache BlockId} (h : Agree x (r, c)) :
    ∃ m, x = (r, m) ∧ Sim m c := by
  obtain ⟨rfl, h⟩ := h
  exact ⟨x.2, rfl, h⟩

section

variable {m m' : Memory} {c c' : Cache BlockId} {i : ℕ}

section

variable (h : Sim m c)
include h

theorem Sim.touch (hcache : m'.cache = c'.cache) (hdisk : m'.disk = c'.disk)
    (hfaults : m'.faults = c'.faults) (hlinks : m'.links = m.links) (hfree : c'.freeList = c.freeList)
    (hlru : c'.lruList = c.lruList) (hlocked : c'.lockedList = c.lockedList) (htable : m'.hash = m.hash)
    (hhash : c'.hash = c.hash)
    (hkey : ∀ k i, c.hash k = some i → (c'.cache i).key = (c.cache i).key) : Sim m' c' := by
  refine ⟨hdisk, hfaults, hcache, ?_, ?_⟩
  · rw [hlinks, hfree, hlru, hlocked]
    exact h.links
  · obtain ⟨chains, spares, map, ht⟩ := h.hash
    rw [hhash]
    refine ⟨chains, spares, map, ht.rename htable ?_⟩
    intro k j hj
    rw [hcache, h.cache]
    exact hkey k j hj

theorem Sim.setEntry (i : ℕ) (e : Entry BlockId) (hkey : (∃ k, c.hash k = some i) → e.key = (c.cache i).key) :
    Sim (m.setEntry i e) (c.setEntry i e) := by
  have hcache : (m.setEntry i e).cache = (c.setEntry i e).cache := by
    rw [Memory.setEntry, Cache.setEntry, h.cache]
  apply h.touch hcache h.disk h.faults rfl rfl rfl rfl rfl rfl
  intro k j hj
  change (update c.cache i e j).key = _
  by_cases hji : j = i
  · subst hji
    rw [update_self, hkey ⟨k, hj⟩]
  · rw [update_of_ne hji]

theorem Sim.store (i : ℕ) (f : Block → Block) : Sim (m.store i f) (c.store i f) := by
  have hset := h.setEntry i { c.cache i with buf := f (c.cache i).buf } fun _ => rfl
  rw [Memory.store, h.cache]
  exact { hset with }

theorem Sim.lookup (k : BlockId) : Agree (hashGet { m with key := k } .key) (c.hash k, c) := by
  obtain ⟨chains, spares, map, ht⟩ := h.hash
  have hkeyed : Tabled { m with key := k } c.hash chains spares map := ht.rename rfl fun _ _ _ => rfl
  obtain ⟨hvalue, chains', ht'⟩ := hkeyed.lookup .key
  exact ⟨hvalue, h.disk, h.faults, h.cache, h.links, chains', spares, map, ht'⟩

theorem Sim.hashRemove (i : ℕ) : Sim (m.hashRemove i) (c.hashRemove i) := by
  obtain ⟨chains, spares, map, ht⟩ := h.hash
  refine ⟨h.disk, h.faults, h.cache, h.links, ?_⟩
  have hremove := ht.remove i
  rw [h.cache] at hremove
  exact hremove

theorem Sim.hashPut (hi : i < maxCache) (hother : ∀ k j, c.hash k = some j → j < maxCache ∧ j ≠ i)
    (hinj : ∀ k k' j, c.hash k = some j → c.hash k' = some j → k = k') : Sim (m.hashPut i) (c.hashPut i) := by
  obtain ⟨chains, spares, map, ht⟩ := h.hash
  refine ⟨h.disk, h.faults, h.cache, h.links, ?_⟩
  have hput := ht.put hi hother hinj
  rw [h.cache] at hput
  exact hput

theorem Sim.moved {g : Node} (hlinks : (m.move i g).links.Rings
      (lists c'.freeList c'.lruList c'.lockedList)) (hhash : c'.hash = c.hash) (hdisk : c'.disk = c.disk)
    (hfaults : c'.faults = c.faults) (hcache : c'.cache = c.cache) : Sim (m.move i g) c' := by
  refine ⟨h.disk.trans hdisk.symm, h.faults.trans hfaults.symm, h.cache.trans hcache.symm, hlinks, ?_⟩
  obtain ⟨chains, spares, map, ht⟩ := h.hash
  rw [hhash]
  exact ⟨chains, spares, map, ht.rename rfl fun _ _ _ => rfl⟩

theorem Sim.lock (hi : i ∈ c.freeList ∨ i ∈ c.lruList ∨ i ∈ c.lockedList) : Sim (m.lock i) (Fs.lock c i) := by
  have hset := h.setEntry i { c.cache i with lockCount := (c.cache i).lockCount + 1 } fun _ => rfl
  rw [Memory.lock, h.cache]
  exact hset.moved (rings_to_locked hset.links hi) rfl rfl rfl rfl

theorem Sim.dispose (hi : i ∈ c.freeList ∨ i ∈ c.lruList ∨ i ∈ c.lockedList) :
    Sim (m.dispose i) (Fs.dispose c i) := by
  have hmove : Sim (m.move i .freeList)
      { Cache.listRemove c i with freeList := i :: (Cache.listRemove c i).freeList } :=
    h.moved (rings_to_free h.links hi) rfl rfl rfl rfl
  exact hmove.hashRemove i

theorem Sim.reload (faults : List Bool) : Sim { m with faults := faults } { c with faults := faults } :=
  h.touch h.cache h.disk rfl rfl rfl rfl rfl rfl rfl fun _ _ _ => rfl

theorem Sim.fill (i : ℕ) : Agree (m.fill i) (Fs.fill c i) := by
  have hset : Sim (m.setEntry i { m.cache i with buf := m.disk (m.cache i).key })
      (c.setEntry i { c.cache i with buf := c.disk (c.cache i).key }) := by
    rw [h.cache, h.disk]
    exact h.setEntry i _ fun _ => rfl
  unfold Memory.fill Fs.fill
  rw [h.faults]
  rcases c.faults with _ | ⟨_ | _, faults⟩
  · exact ⟨rfl, hset.reload []⟩
  · exact ⟨rfl, hset.reload faults⟩
  · exact ⟨rfl, h.reload faults⟩

theorem Sim.sweep (i : ℕ) : Agree (m.sweep i) (Fs.sweep c i) := by
  have hdisk : update m.disk (m.cache i).key (m.cache i).buf =
      update c.disk (c.cache i).key (c.cache i).buf := by
    rw [h.cache, h.disk]
  have hwritten : Sim { m with disk := update m.disk (m.cache i).key (m.cache i).buf }
      { c with disk := update c.disk (c.cache i).key (c.cache i).buf } :=
    h.touch h.cache hdisk h.faults rfl rfl rfl rfl rfl rfl fun _ _ _ => rfl
  unfold Memory.sweep Fs.sweep
  rw [h.faults]
  rcases c.faults with _ | ⟨_ | _, faults⟩
  · exact ⟨rfl, hwritten.reload []⟩
  · exact ⟨rfl, hwritten.reload faults⟩
  · exact ⟨rfl, h.reload faults⟩

theorem Sim.next_free : m.links.next .freeList = (c.freeList.map Node.entry).headD .freeList :=
  (h.links.ring _ mem_free).next_eq

theorem Sim.next_lru : m.links.next .lruList = (c.lruList.map Node.entry).headD .lruList :=
  (h.links.ring _ mem_lru).next_eq

theorem Sim.next_locked : m.links.next .lockedList = (c.lockedList.map Node.entry).headD .lockedList :=
  (h.links.ring _ mem_locked).next_eq

theorem Sim.claim : Agree m.claim (Fs.claim c) := by
  have hfree := h.next_free
  have hlru := h.next_lru
  unfold Memory.claim Fs.claim isEmpty
  cases hf : c.freeList with
  | cons i l =>
    rw [hf] at hfree
    rw [hfree]
    exact ⟨rfl, h⟩
  | nil =>
    rw [hf] at hfree
    rw [hfree]
    cases hl : c.lruList with
    | nil =>
      rw [hl] at hlru
      rw [hlru]
      exact ⟨rfl, h⟩
    | cons i l =>
      rw [hl] at hlru
      rw [hlru]
      simp only [map_cons, map_nil, headD_cons, headD_nil, decide_true, reduceCtorEq,
        decide_false, if_true, if_false, Bool.true_eq_false, Node.parent, h.cache]
      by_cases hdirty : (c.cache i).dirty = true
      · rw [if_pos hdirty, if_pos hdirty]
        have hsweep := h.sweep i
        rcases hc : Fs.sweep c i with ⟨failed, c1⟩
        rw [hc] at hsweep
        obtain ⟨m1, hm1, h1⟩ := hsweep.exists
        rw [hm1]
        cases failed with
        | true => exact ⟨rfl, h1⟩
        | false => exact ⟨rfl, h1.hashRemove i⟩
      · rw [if_neg hdirty, if_neg hdirty]
        exact ⟨rfl, h.hashRemove i⟩

end

theorem Sim.install {c1 : Cache BlockId} (hp : Placed c) (hc : Claimed c i c1) (h : Sim m c')
    (hfree : c'.freeList = c1.freeList) (hlru : c'.lruList = c1.lruList) (hhash : c'.hash = c1.hash) :
    Sim ((m.hashPut i).lock i) (Fs.lock (c'.hashPut i) i) := by
  have hlt : i < maxCache := by
    rw [← hp.mem, mem_append, mem_append]
    exact hc.place.imp_right .inl
  have hput : Sim (m.hashPut i) (c'.hashPut i) := by
    apply h.hashPut hlt
    · intro k j hj
      rw [hhash, hc.hash] at hj
      exact ⟨hp.lt ((hp.hash k j).mp hj.2).1, hj.1⟩
    · intro k k' j hj hj'
      rw [hhash, hc.hash] at hj hj'
      exact ((hp.hash k j).mp hj.2).2.symm.trans ((hp.hash k' j).mp hj'.2).2
  apply hput.lock
  change i ∈ c'.freeList ∨ i ∈ c'.lruList ∨ i ∈ c'.lockedList
  rw [hfree, hlru, hc.freeList, hc.lruList]
  exact hc.place.imp_right .inl

theorem Sim.renamed {c1 : Cache BlockId} (hc : Claimed c i c1) (h : Sim m c1) (k : BlockId) :
    Sim (m.setEntry i ⟨k, false, 0, (m.cache i).buf⟩) (c1.setEntry i ⟨k, false, 0, (c1.cache i).buf⟩) := by
  rw [h.cache]
  apply h.setEntry
  rintro ⟨k', hk'⟩
  exact absurd rfl ((hc.hash k' i).mp hk').1

theorem Placed.listed (h : Placed c) {k : BlockId} (hk : c.hash k = some i) :
    i ∈ c.freeList ∨ i ∈ c.lruList ∨ i ∈ c.lockedList := .inr ((h.hash k i).mp hk).1.symm

theorem Sim.claimed (hp : Placed c) (h : Sim m c) :
    (∃ m1 c1, m.claim = (none, m1) ∧ Fs.claim c = (none, c1) ∧ Sim m1 c1) ∨
      ∃ i m1 c1, m.claim = (some i, m1) ∧ Fs.claim c = (some i, c1) ∧ Claimed c i c1 ∧ Sim m1 c1 := by
  have hclaim := h.claim
  obtain ⟨hc, -, -⟩ | ⟨faults, hc, -⟩ | ⟨i, c1, hc, hclaimed⟩ := Cache.claim_cases hp
  · rw [hc] at hclaim
    obtain ⟨m1, hm1, h1⟩ := hclaim.exists
    exact .inl ⟨m1, c, hm1, hc, h1⟩
  · rw [hc] at hclaim
    obtain ⟨m1, hm1, h1⟩ := hclaim.exists
    exact .inl ⟨m1, _, hm1, hc, h1⟩
  · rw [hc] at hclaim
    obtain ⟨m1, hm1, h1⟩ := hclaim.exists
    exact .inr ⟨i, m1, c1, hm1, hc, hclaimed, h1⟩

theorem cacheCreate_sim (hp : Placed c) (h : Sim m c) (k : BlockId) :
    Agree (m.cacheCreate k) (Fs.cacheCreate k c) := by
  obtain ⟨m1, hm1, h1⟩ := (h.lookup k).exists
  unfold Memory.cacheCreate Fs.cacheCreate
  rw [hm1]
  cases hk : c.hash k with
  | some i => exact ⟨rfl, (h1.lock (Placed.listed hp hk)).store i fun _ => Lib.Bytes.zero⟩
  | none =>
    obtain ⟨m2, c1, hm2, hc, h2⟩ | ⟨i, m2, c1, hm2, hc, hclaimed, h2⟩ := h1.claimed hp
    · simp only [hm2, hc]
      exact ⟨rfl, h2⟩
    · simp only [hm2, hc]
      have hinstall := Sim.install hp hclaimed (h2.renamed hclaimed k) rfl rfl rfl
      exact ⟨rfl, hinstall.store i fun _ => Lib.Bytes.zero⟩

theorem cacheGet_sim (hp : Placed c) (h : Sim m c) (k : BlockId) : Agree (m.cacheGet k) (Fs.cacheGet k c) := by
  obtain ⟨m1, hm1, h1⟩ := (h.lookup k).exists
  unfold Memory.cacheGet Fs.cacheGet
  rw [hm1]
  cases hk : c.hash k with
  | some i => exact ⟨rfl, h1.lock (Placed.listed hp hk)⟩
  | none =>
    obtain ⟨m2, c1, hm2, hc, h2⟩ | ⟨i, m2, c1, hm2, hc, hclaimed, h2⟩ := h1.claimed hp
    · simp only [hm2, hc]
      exact ⟨rfl, h2⟩
    simp only [hm2, hc]
    have hfill := (h2.renamed hclaimed k).fill i
    obtain ⟨faults, hf, -⟩ | hf := Cache.fill_cases (c1.setEntry i ⟨k, false, 0, (c1.cache i).buf⟩) i
    · rw [hf] at hfill ⊢
      obtain ⟨m3, hm3, h3⟩ := hfill.exists
      rw [hm3]
      have hlisted : i ∈ c1.freeList ∨ i ∈ c1.lruList ∨ i ∈ c1.lockedList := by
        rw [hclaimed.freeList, hclaimed.lruList]
        exact hclaimed.place.imp_right .inl
      exact ⟨rfl, h3.moved (rings_to_free h3.links hlisted) rfl rfl rfl rfl⟩
    · rw [hf] at hfill ⊢
      obtain ⟨m3, hm3, h3⟩ := hfill.exists
      rw [hm3]
      exact ⟨rfl, Sim.install hp hclaimed h3 rfl rfl rfl⟩

theorem cacheModify_sim (h : Sim m c) (p : Option ℕ) : Agree (m.cacheModify p) (Fs.cacheModify p c) := by
  cases p with
  | none => exact ⟨rfl, h⟩
  | some i =>
    refine ⟨rfl, ?_⟩
    change Sim (m.setEntry i { m.cache i with dirty := true }) (c.setEntry i { c.cache i with dirty := true })
    rw [h.cache]
    exact h.setEntry i _ fun _ => rfl

theorem cacheRelease_sim (hp : Placed c) (h : Sim m c) (p : Option ℕ) (hi : ∀ i, p = some i → i < maxCache)
    (dirty : Bool) : Agree (m.cacheRelease p dirty) (Fs.cacheRelease p dirty c) := by
  cases p with
  | none => exact ⟨rfl, h⟩
  | some i =>
    have h1 := h.setEntry i { c.cache i with dirty := (c.cache i).dirty || dirty } fun _ => rfl
    unfold Memory.cacheRelease Fs.cacheRelease
    simp only [h.cache]
    generalize hc1 : c.setEntry i { c.cache i with dirty := (c.cache i).dirty || dirty } = c1 at h1 ⊢
    generalize m.setEntry i { c.cache i with dirty := (c.cache i).dirty || dirty } = m1 at h1 ⊢
    have h2 := h1.setEntry i { c1.cache i with lockCount := (c1.cache i).lockCount - 1 } fun _ => rfl
    simp only [h1.cache, h2.cache]
    split_ifs with hpos hzero
    · refine ⟨rfl, h2.moved (rings_to_lru h2.links ?_) rfl rfl rfl rfl⟩
      have hlisted := (hp.mem i).mpr (hi i rfl)
      rw [mem_append, mem_append] at hlisted
      rw [← hc1]
      exact hlisted
    · exact ⟨rfl, h2⟩
    · exact ⟨rfl, h1⟩

theorem cacheInvalidate_sim (hp : Placed c) (h : Sim m c) (k : BlockId) :
    Agree (m.cacheInvalidate k) (Fs.cacheInvalidate k c) := by
  obtain ⟨m1, hm1, h1⟩ := (h.lookup k).exists
  unfold Memory.cacheInvalidate Fs.cacheInvalidate
  rw [hm1]
  cases hk : c.hash k with
  | some i => exact ⟨rfl, h1.dispose (Placed.listed hp hk)⟩
  | none => exact ⟨rfl, h1⟩

theorem flushEntry_sim (h : Sim m c) (i : ℕ) : Agree (m.flushEntry i) (Fs.flushEntry c i) := by
  unfold Memory.flushEntry Fs.flushEntry
  rw [h.cache]
  by_cases hdirty : (c.cache i).dirty = true
  · rw [if_pos hdirty, if_pos hdirty]
    have hsweep := h.sweep i
    rcases hc : Fs.sweep c i with ⟨failed, c1⟩
    rw [hc] at hsweep
    obtain ⟨m1, hm1, h1⟩ := hsweep.exists
    rw [hm1]
    cases failed with
    | true => exact ⟨rfl, h1⟩
    | false =>
      have h2 := h1.setEntry i { c1.cache i with dirty := false } fun _ => rfl
      simp only [h1.cache]
      exact ⟨rfl, h2⟩
  · rw [if_neg hdirty, if_neg hdirty]
    exact ⟨rfl, h⟩

theorem Sim.next_entry (h : Sim m c) {g : Node} {l before rest : List ℕ}
    (hl : (g, l.map Node.entry) ∈ lists c.freeList c.lruList c.lockedList) (hsplit : l = before ++ i :: rest) :
    m.links.next (.entry i) = (rest.map Node.entry).headD g := by
  have hring := h.links.ring _ hl
  rw [hsplit, map_append, map_cons] at hring
  rw [hring.next_mem]
  cases rest <;> rfl

theorem flushLocked_sim (l : List ℕ) (n : ℕ) (hn : l.length < n) (h : Sim m c)
    (before : List ℕ) (hl : c.lockedList = before ++ l) :
    ∃ m', flushLocked n ((l.map Node.entry).headD .lockedList) m = some ((Fs.flushLocked l c).1, m') ∧
      Sim m' (Fs.flushLocked l c).2 := by
  induction l generalizing n m c before with
  | nil =>
    obtain _ | n := n
    · omega
    exact ⟨m, rfl, h⟩
  | cons i l ih =>
    obtain _ | n := n
    · omega
    rw [length_cons] at hn
    have hflush := flushEntry_sim h i
    have hsame := (Cache.flushEntry_cleaned c i).same
    rw [Fs.flushLocked]
    simp only [map_cons, headD_cons, flushLocked, reduceCtorEq, if_false, Node.parent]
    rcases hc : Fs.flushEntry c i with ⟨failed, c1⟩
    rw [hc] at hflush hsame
    obtain ⟨m1, hm1, h1⟩ := hflush.exists
    rw [hm1]
    have hl1 : c1.lockedList = before ++ i :: l := hsame.2.2.1.trans hl
    cases failed with
    | true => exact ⟨m1, rfl, h1⟩
    | false =>
      simp only
      rw [h1.next_entry mem_locked hl1]
      apply ih n (by omega) h1 (before ++ [i])
      rw [hl1, append_assoc]
      rfl

theorem flushLru_sim (channel : ℤ) (unmount : Bool) (l : List ℕ) (n : ℕ) (hn : l.length < n) (h : Sim m c)
    (before : List ℕ) (hl : c.lruList = before ++ l) :
    ∃ m', flushLru channel unmount n ((l.map Node.entry).headD .lruList) m =
        some ((Fs.flushLru (fun k => k.channel = channel) unmount l c).1, m') ∧
      Sim m' (Fs.flushLru (fun k => k.channel = channel) unmount l c).2 := by
  induction l generalizing n m c before with
  | nil =>
    obtain _ | n := n
    · omega
    exact ⟨m, rfl, h⟩
  | cons i l ih =>
    obtain _ | n := n
    · omega
    rw [length_cons] at hn
    have hnext (c1 : Cache BlockId) (hlru : c1.lruList = c.lruList) : c1.lruList = (before ++ [i]) ++ l := by
      rw [hlru, hl, append_assoc]
      rfl
    rw [Fs.flushLru]
    simp only [map_cons, headD_cons, flushLru, reduceCtorEq, if_false, Node.parent, h.cache,
      decide_eq_true_eq, ne_eq, ite_not]
    by_cases hmine : (c.cache i).key.channel = channel
    · rw [if_pos hmine, if_pos hmine]
      have hflush := flushEntry_sim h i
      have hsame := (Cache.flushEntry_cleaned c i).same
      rcases hc : Fs.flushEntry c i with ⟨failed, c1⟩
      rw [hc] at hflush hsame
      obtain ⟨m1, hm1, h1⟩ := hflush.exists
      rw [hm1]
      have hl1 : c1.lruList = before ++ i :: l := hsame.2.1.trans hl
      cases failed with
      | true => exact ⟨m1, rfl, h1⟩
      | false =>
        simp only
        rw [h1.next_entry mem_lru hl1]
        cases unmount with
        | false => exact ih n (by omega) h1 _ (hnext c1 hsame.2.1)
        | true =>
          have hi : i ∈ c1.lruList := by
            rw [hl1]
            simp
          apply ih n (by omega) (h1.dispose (.inr (.inl hi))) before
          have hnodup : (before ++ i :: l).Nodup := by
            rw [← hl1]
            exact List.Nodup.of_append_left (List.Nodup.of_append_right (nodup_of_rings h1.links))
          change c1.lruList.erase i = before ++ l
          rw [hl1, erase_append_right]
          · rw [erase_cons_head]
          · intro hmem
            exact disjoint_of_nodup_append hnodup hmem mem_cons_self
    · rw [if_neg hmine, if_neg hmine, h.next_entry mem_lru hl]
      exact ih n (by omega) h _ (hnext c rfl)

theorem Placed.length_le (hp : Placed c) {l : List ℕ} (hnodup : l.Nodup)
    (hl : ∀ i ∈ l, i ∈ c.freeList ++ (c.lruList ++ c.lockedList)) : l.length < maxCache + 1 := by
  have hsub : l ⊆ range maxCache := by
    intro i hi
    rw [mem_range, ← hp.mem]
    exact hl i hi
  have hle := (hnodup.subperm hsub).length_le
  rw [length_range] at hle
  exact Nat.lt_succ_of_le hle

theorem cacheFlush_sim (hp : Placed c) (h : Sim m c) (channel : ℤ) (unmount : Bool) :
    ∃ m', m.cacheFlush channel unmount = some ((Fs.cacheFlush (fun k => k.channel = channel) unmount c).1, m') ∧
      Sim m' (Fs.cacheFlush (fun k => k.channel = channel) unmount c).2 := by
  have hright := List.Nodup.of_append_right hp.nodup
  have hlength : c.lruList.length < maxCache + 1 := by
    apply Placed.length_le hp (List.Nodup.of_append_left hright)
    intro i hi
    exact mem_append_right _ (mem_append_left _ hi)
  obtain ⟨m1, hm1, h1⟩ := flushLru_sim channel unmount c.lruList (maxCache + 1) hlength h [] rfl
  have hp1 := Cache.flushLru_placed hp (fun k => k.channel = channel) unmount
  unfold Memory.cacheFlush Fs.cacheFlush
  rw [h.next_lru, hm1]
  rcases hc : Fs.flushLru (fun k => k.channel = channel) unmount c.lruList c with ⟨failed, c1⟩
  rw [hc] at h1 hp1 ⊢
  cases failed with
  | true => exact ⟨m1, rfl, h1⟩
  | false =>
    have hlength1 : c1.lockedList.length < maxCache + 1 := by
      apply Placed.length_le hp1 (List.Nodup.of_append_right (List.Nodup.of_append_right hp1.nodup))
      intro i hi
      exact mem_append_right _ (mem_append_right _ hi)
    simp only
    rw [h1.next_locked]
    exact flushLocked_sim c1.lockedList (maxCache + 1) hlength1 h1 [] rfl

end

section

theorem rings_guards (l : Links Node) :
    (listInitialize (listInitialize (listInitialize l .freeList) .lruList) .lockedList).Rings (lists [] [] []) := by
  have hnone : l.Rings [] := ⟨fun r hr => absurd hr not_mem_nil, nodup_nil⟩
  have hfree := rings_open hnone (e := .freeList) (by simp [nodes])
  have hlru := rings_open hfree (e := .lruList) (by simp [nodes])
  have hlocked := rings_open hlru (e := .lockedList) (by simp [nodes])
  exact hlocked.perm (reverse_perm (lists [] [] []))

theorem rings_entries {l : Links Node} (h : l.Rings (lists [] [] [])) (n : ℕ) :
    ((range n).foldl (fun l i => listAppend l .freeList (.entry i)) l).Rings (lists (range n) [] []) := by
  induction n with
  | zero => exact h
  | succ n ih =>
    rw [range_succ, foldl_append, foldl_cons, foldl_nil]
    have hout : Node.entry n ∉ nodes (lists (range n) [] []) := by
      rw [mem_nodes_entry]
      simp
    have happend := rings_append ih hout
    rw [lists, map_append]
    exact happend

variable {m : Memory} {disk : BlockId → Block} {faults : List Bool} {links : Links Node}
  {fresh : Option (Hash.Table Pointer ℕ)}

theorem cacheInitialize_sim (hm : cacheInitialize disk faults links fresh = some m) :
    Sim m (Fs.cacheInitialize disk faults) := by
  unfold cacheInitialize at hm
  cases fresh with
  | none => cases hm
  | some fresh =>
    rcases hcreate : Hash.hashCreate maxCache (some fresh) with _ | table
    · rw [hcreate] at hm
      cases hm
    rw [hcreate] at hm
    cases hm
    refine ⟨rfl, rfl, rfl, rings_entries (rings_guards links) maxCache, ?_⟩
    obtain ⟨hmax, hholds⟩ := Hash.hashCreate_holds maxCache fresh table hcreate
    refine ⟨_, _, _, hmax, hholds, fun k => rfl, ?_, ?_⟩
    · intro k
      simp [Hash.BoundedMap.empty, Fs.cacheInitialize]
    · rintro p v ⟨i, -, slot, hslot, -⟩
      exact absurd hslot not_mem_nil

theorem cacheInitialize_placed (disk : BlockId → Block) (faults : List Bool) :
    Placed (Fs.cacheInitialize disk faults) := by
  have hlists : (range maxCache ++ ([] ++ [] : List ℕ)) = range maxCache := by simp
  refine ⟨?_, ?_, ?_, ?_, ?_⟩
  · change (range maxCache ++ ([] ++ [])).Nodup
    rw [hlists]
    exact nodup_range
  · intro i
    change i ∈ range maxCache ++ ([] ++ []) ↔ _
    rw [hlists, mem_range]
  · intro k i
    change none = some i ↔ (i ∈ [] ∨ i ∈ []) ∧ _
    simp
  · intro i hi
    exact absurd hi not_mem_nil
  · intro i _
    rfl

end

end Eotan.Fs.Memory
