import Eotan.Fs.CacheContents
import Eotan.Fs.CacheRefinement

/-!
Runs of the cache whose users release only what they have got and invalidate only blocks that no one
has a buffer of.
-/

namespace Eotan.Fs

open Lib (Links)
open Lib.Bytes (Block)
open Cache (Claimed Got Created)
open Function
open List

namespace Cache

variable {κ : Type} {c c' : Cache κ} {k : κ} {i : ℕ}

theorem lock_count (c : Cache κ) (i j : ℕ) :
    ((lock c i).cache j).lockCount = (c.cache j).lockCount + [i].count j := by
  change (update c.cache i _ j).lockCount = _
  rw [count_singleton]
  by_cases hj : j = i
  · simp [hj]
  · simp [hj, Ne.symm hj]

theorem Claimed.count (hp : c.Placed) {c1 c2 : Cache κ} (hc : Claimed c i c1) {b : Block}
    (hcache : c2.cache = update c1.cache i ⟨k, false, 0, b⟩) (j : ℕ) :
    (c2.cache j).lockCount = (c.cache j).lockCount := by
  rw [hcache]
  by_cases hj : j = i
  · rw [hj, update_self, hp.unlocked i hc.place]
  · rw [update_of_ne hj, hc.cache]

variable [DecidableEq κ]

theorem store_count (c : Cache κ) (i : ℕ) (f : Block → Block) (j : ℕ) :
    ((store c i f).cache j).lockCount = (c.cache j).lockCount := by
  change (update c.cache i _ j).lockCount = _
  by_cases hj : j = i
  · simp [hj]
  · simp [hj]

theorem Got.count (hp : c.Placed) {r : Option ℕ} (hg : Got k c r c') (j : ℕ) :
    (c'.cache j).lockCount = (c.cache j).lockCount + r.toList.count j := by
  cases hg with
  | hit => exact lock_count c _ j
  | full => rfl
  | unswept => rfl
  | unread uncached claimed failed disk cache => exact claimed.count hp cache j
  | @taken i c1 c2 b uncached claimed read disk cache =>
    rw [← claimed.count hp cache j]
    exact lock_count (hashPut c2 i) i j

theorem Created.count (hp : c.Placed) {r : Option ℕ} (hg : Created k c r c') (j : ℕ) :
    (c'.cache j).lockCount = (c.cache j).lockCount + r.toList.count j := by
  cases hg with
  | hit =>
    rw [store_count]
    exact lock_count c _ j
  | full => rfl
  | unswept => rfl
  | @taken i c1 c2 uncached claimed disk cache =>
    rw [store_count, ← claimed.count hp cache j]
    exact lock_count (hashPut c2 i) i j

theorem Got.lt (hp : c.Placed) (hg : Got k c (some i) c') : i < maxCache := by
  cases hg with
  | hit cached => exact hp.lt ((hp.hash k i).mp cached).1
  | taken uncached claimed => exact claimed.lt hp

theorem Created.lt (hp : c.Placed) (hg : Created k c (some i) c') : i < maxCache := by
  cases hg with
  | hit cached => exact hp.lt ((hp.hash k i).mp cached).1
  | taken uncached claimed => exact claimed.lt hp

theorem Got.cached (hg : Got k c (some i) c') : c'.hash k = some i := by
  cases hg with
  | hit cached => exact cached
  | @taken _ c1 c2 b uncached claimed read disk cache =>
    change update c2.hash (c2.cache i).key (some i) k = some i
    rw [cache, update_self, update_self]

end Cache

namespace Memory

inductive Call where
  | create (k : BlockId)
  | get (k : BlockId)
  | store (i : ℕ) (f : Block → Block)
  | modify (p : Option ℕ)
  | release (p : Option ℕ) (dirty : Bool)
  | invalidate (k : BlockId)
  | flush (channel : ℤ) (unmount : Bool)

structure Session where
  memory : Memory
  /-- The buffers that have been returned and not yet released, each as often as it has been. -/
  held : List ℕ
  /-- What each block was last marked with, or what the device has had since it was last invalidated. -/
  value : BlockId → Block
  /-- The blocks whose buffer has been changed since it was last marked. -/
  unmarked : Finset BlockId

namespace Session

def mark (s : Session) (i : ℕ) : Session :=
  let e := s.memory.cache i
  { s with value := Function.update s.value e.key e.buf, unmarked := s.unmarked.erase e.key }

def step (s : Session) : Call → Option Session
  | .create k =>
    match s.memory.cacheCreate k with
    | (none, m) => some { s with memory := m }
    | (some i, m) => some { s with memory := m, held := i :: s.held, unmarked := insert k s.unmarked }
  | .get k =>
    match s.memory.cacheGet k with
    | (none, m) => some { s with memory := m }
    | (some i, m) => some { s with memory := m, held := i :: s.held }
  | .store i f =>
    some { s with memory := s.memory.store i f, unmarked := insert (s.memory.cache i).key s.unmarked }
  | .modify none => some { s with memory := (s.memory.cacheModify none).2 }
  | .modify (some i) =>
    let m := (s.memory.cacheModify (some i)).2
    some (if i ∈ s.held then { s.mark i with memory := m } else { s with memory := m })
  | .release none dirty => some { s with memory := (s.memory.cacheRelease none dirty).2 }
  | .release (some i) dirty =>
    let m := (s.memory.cacheRelease (some i) dirty).2
    let s := if dirty = true then s.mark i else s
    some { s with memory := m, held := s.held.erase i }
  | .invalidate k =>
    let m := (s.memory.cacheInvalidate k).2
    some { s with memory := m, value := Function.update s.value k (m.disk k) }
  | .flush channel unmount =>
    match s.memory.cacheFlush channel unmount with
    | none => none
    | some (_, m) => some { s with memory := m }

def run (s : Session) : List Call → Option Session
  | [] => some s
  | call :: calls =>
    match s.step call with
    | none => none
    | some s => run s calls

/-- A buffer is changed and released only by who has got it, and its block is not invalidated. -/
def Admits (s : Session) : Call → Prop
  | .store i _ => i ∈ s.held
  | .release (some i) _ => i ∈ s.held
  | .invalidate k => ∀ i ∈ s.held, (s.memory.cache i).key ≠ k
  | _ => True

/-- Who releases a buffer as the last has it marked if it has been changed. -/
def Marks (s : Session) : Call → Prop
  | .release (some i) false => s.held.count i = 1 → (s.memory.cache i).key ∉ s.unmarked
  | _ => True

def Always (P : Session → Call → Prop) (s : Session) : List Call → Prop
  | [] => True
  | call :: calls =>
    P s call ∧
      match s.step call with
      | none => True
      | some s => Always P s calls

instance (s : Session) : DecidablePred s.Admits
  | .store i _ => inferInstanceAs (Decidable (i ∈ s.held))
  | .release (some i) _ => inferInstanceAs (Decidable (i ∈ s.held))
  | .invalidate k => inferInstanceAs (Decidable (∀ i ∈ s.held, (s.memory.cache i).key ≠ k))
  | .release none _ | .create _ | .get _ | .modify _ | .flush _ _ => .isTrue trivial

instance (s : Session) : DecidablePred s.Marks
  | .release (some i) false =>
    inferInstanceAs (Decidable (s.held.count i = 1 → (s.memory.cache i).key ∉ s.unmarked))
  | .release (some _) true | .release none _ | .store _ _ | .invalidate _ | .create _ | .get _ | .modify _
  | .flush _ _ => .isTrue trivial

instance decidableAlways (P : Session → Call → Prop) [∀ s, DecidablePred (P s)] :
    (s : Session) → (calls : List Call) → Decidable (s.Always P calls)
  | _, [] => .isTrue trivial
  | s, call :: calls =>
    have : Decidable (match s.step call with
        | none => True
        | some s => Always P s calls) :=
      match s.step call with
      | none => .isTrue trivial
      | some s => decidableAlways P s calls
    inferInstanceAs (Decidable (_ ∧ _))

end Session

structure Session.Inv (s : Session) (c : Cache BlockId) : Prop where
  sim : Sim s.memory c
  placed : c.Placed
  count : ∀ i, (c.cache i).lockCount = s.held.count i
  lt : ∀ i ∈ s.held, i < maxCache

def Session.Steps (s : Session) (c : Cache BlockId) (call : Call) : Prop :=
  ∃ s' c', s.step call = some s' ∧ s'.Inv c' ∧
    (s.Marks call → c.Faithful s.value s.unmarked → c'.Faithful s'.value s'.unmarked)

def Session.Keeps (s : Session) (c c' : Cache BlockId) : Prop :=
  (c'.Placed ∧ ∀ j, (c'.cache j).lockCount = (c.cache j).lockCount) ∧
    (c.Faithful s.value s.unmarked → c'.Faithful s.value s.unmarked)

section

variable {s : Session} {c : Cache BlockId} {i : ℕ}

section

variable (h : s.Inv c)
include h

theorem Session.Inv.locked (hi : i ∈ s.held) : 0 < (c.cache i).lockCount := by
  rw [h.count]
  exact count_pos_iff.mpr hi

theorem Session.Inv.cached (hi : i ∈ s.held) : c.hash (c.cache i).key = some i := by
  apply h.placed.used_iff.mp
  left
  rw [h.placed.locked_iff (h.lt i hi)]
  exact h.locked hi

theorem Session.Inv.count_append {c' : Cache BlockId} {r : Option ℕ}
    (hcount : ∀ j, (c'.cache j).lockCount = (c.cache j).lockCount + r.toList.count j) (j : ℕ) :
    (c'.cache j).lockCount = (r.toList ++ s.held).count j := by
  rw [hcount, h.count, List.count_append, Nat.add_comm]

theorem create_steps (k : BlockId) : s.Steps c (.create k) := by
  have hagree := cacheCreate_sim h.placed h.sim k
  have hcreated := Cache.cacheCreate_created h.placed k
  rcases hc : Fs.cacheCreate k c with ⟨r, c'⟩
  rw [hc] at hagree hcreated
  obtain ⟨m', hm', hsim⟩ := hagree.exists
  have hcount := h.count_append (hcreated.count h.placed)
  have hplaced := hcreated.placed h.placed
  have hfaithful (hf : c.Faithful s.value s.unmarked) := hcreated.faithful h.placed hf
  unfold Session.Steps
  rw [Session.step, hm']
  cases r with
  | none => exact ⟨_, c', rfl, ⟨hsim, hplaced, hcount, h.lt⟩, fun _ => hfaithful⟩
  | some i =>
    refine ⟨_, c', rfl, ⟨hsim, hplaced, hcount, ?_⟩, ?_⟩
    · exact forall_mem_cons.mpr ⟨hcreated.lt h.placed, h.lt⟩
    · intro _ hf
      have hnext := hfaithful hf
      simp only [Option.isSome_some, if_true] at hnext
      rw [Finset.coe_insert]
      exact hnext

theorem get_steps (k : BlockId) : s.Steps c (.get k) := by
  have hagree := cacheGet_sim h.placed h.sim k
  have hgot := Cache.cacheGet_got h.placed k
  rcases hc : Fs.cacheGet k c with ⟨r, c'⟩
  rw [hc] at hagree hgot
  obtain ⟨m', hm', hsim⟩ := hagree.exists
  have hcount := h.count_append (hgot.count h.placed)
  have hplaced := hgot.placed h.placed
  have hfaithful (hf : c.Faithful s.value s.unmarked) := hgot.faithful h.placed hf
  unfold Session.Steps
  rw [Session.step, hm']
  cases r with
  | none => exact ⟨_, c', rfl, ⟨hsim, hplaced, hcount, h.lt⟩, fun _ => hfaithful⟩
  | some i =>
    refine ⟨_, c', rfl, ⟨hsim, hplaced, hcount, ?_⟩, fun _ => hfaithful⟩
    exact forall_mem_cons.mpr ⟨hgot.lt h.placed, h.lt⟩

theorem store_steps (hi : i ∈ s.held) (f : Block → Block) : s.Steps c (.store i f) := by
  refine ⟨_, c.store i f, rfl, ⟨h.sim.store i f, Cache.store_placed h.placed i f, ?_, h.lt⟩, ?_⟩
  · intro j
    rw [← h.count]
    exact Cache.store_count c i f j
  · intro _ hf
    rw [Finset.coe_insert, h.sim.cache]
    exact Cache.store_faithful hf h.placed (h.cached hi) (h.locked hi) f

theorem modify_steps (p : Option ℕ) : s.Steps c (.modify p) := by
  have hsim := (cacheModify_sim h.sim p).2
  have hplaced := Cache.cacheModify_placed h.placed p
  cases p with
  | none => exact ⟨_, c, rfl, ⟨hsim, hplaced, h.count, h.lt⟩, fun _ => id⟩
  | some i =>
    have hcache : (Fs.cacheModify (some i) c).2.cache = update c.cache i { c.cache i with dirty := true } := rfl
    have hcount (j : ℕ) : ((Fs.cacheModify (some i) c).2.cache j).lockCount = s.held.count j := by
      rw [hcache, ← h.count]
      by_cases hj : j = i
      · rw [hj, update_self]
      · rw [update_of_ne hj]
    by_cases hi : i ∈ s.held
    · refine ⟨{ s.mark i with memory := (s.memory.cacheModify (some i)).2 }, _, ?_,
        ⟨hsim, hplaced, hcount, h.lt⟩, ?_⟩
      · rw [Session.step, if_pos hi]
      · intro _ hf
        simp only [Session.mark, Finset.coe_erase, h.sim.cache]
        exact Cache.modify_faithful h.placed hf (h.cached hi) hcache rfl rfl rfl rfl
    · refine ⟨{ s with memory := (s.memory.cacheModify (some i)).2 }, _, ?_, ⟨hsim, hplaced, hcount, h.lt⟩, ?_⟩
      · rw [Session.step, if_neg hi]
      · intro _ hf
        have hhash : (Fs.cacheModify (some i) c).2.hash = c.hash := rfl
        exact hf.change hhash rfl hcache fun _ _ => ⟨rfl, fun _ => rfl, fun _ => id⟩

theorem release_steps (p : Option ℕ) (dirty : Bool) (hp : s.Admits (.release p dirty)) :
    s.Steps c (.release p dirty) := by
  cases p with
  | none => exact ⟨_, c, rfl, { h with }, fun _ => id⟩
  | some i =>
    have hi : i ∈ s.held := hp
    have hsim := (cacheRelease_sim h.placed h.sim (some i)
      (fun j hj => h.lt j (Option.some.inj hj ▸ hi)) dirty).2
    have hreleased := Cache.cacheRelease_released (h.locked hi) dirty
    generalize (Fs.cacheRelease (some i) dirty c).2 = c' at hsim hreleased
    have hplaced := hreleased.placed h.placed (h.lt i hi)
    have hcount (j : ℕ) : (c'.cache j).lockCount = (s.held.erase i).count j := by
      rw [hreleased.entry.1, count_erase, ← h.count]
      by_cases hj : j = i
      · rw [hj, update_self]
        simp
      · rw [update_of_ne hj]
        simp [Ne.symm hj]
    have hlt (j : ℕ) (hj : j ∈ s.held.erase i) : j < maxCache := h.lt j (mem_of_mem_erase hj)
    cases dirty with
    | true =>
      refine ⟨_, c', rfl, ⟨hsim, hplaced, hcount, hlt⟩, ?_⟩
      intro _ hf
      simp only [Session.mark, if_true, Finset.coe_erase, h.sim.cache]
      exact hreleased.dirty h.placed hf (h.cached hi)
    | false =>
      refine ⟨_, c', rfl, ⟨hsim, hplaced, hcount, hlt⟩, ?_⟩
      intro hmarks hf
      apply hreleased.clean h.placed hf
      intro hone
      rw [h.count] at hone
      have hout := hmarks hone
      rw [h.sim.cache] at hout
      exact hout

theorem invalidate_steps (k : BlockId) (hk : s.Admits (.invalidate k)) : s.Steps c (.invalidate k) := by
  have hsim := (cacheInvalidate_sim h.placed h.sim k).2
  unfold Session.Steps
  rw [Session.step]
  simp only [hsim.disk]
  unfold Fs.cacheInvalidate at hsim ⊢
  cases hfind : c.hash k with
  | none =>
    rw [hfind] at hsim
    refine ⟨_, c, rfl, ⟨hsim, h.placed, h.count, h.lt⟩, ?_⟩
    intro _ hf
    have hsame : update s.value k (c.disk k) = s.value := by
      rw [hf.uncached k hfind, update_eq_self]
    simp only [hsame]
    exact hf
  | some i =>
    rw [hfind] at hsim
    have hzero : (c.cache i).lockCount = 0 := by
      by_contra hne
      have hheld : i ∈ s.held := by
        rw [← count_pos_iff, ← h.count]
        exact Nat.pos_of_ne_zero hne
      apply hk i hheld
      rw [h.sim.cache]
      exact ((h.placed.hash k i).mp hfind).2
    refine ⟨_, Fs.dispose c i, rfl, ⟨hsim, Cache.dispose_placed h.placed hfind hzero, h.count, h.lt⟩, ?_⟩
    intro _ hf
    exact Cache.dispose_faithful h.placed hf hfind hzero

theorem flush_steps (channel : ℤ) (unmount : Bool) : s.Steps c (.flush channel unmount) := by
  obtain ⟨m', hm', hsim⟩ := cacheFlush_sim h.placed h.sim channel unmount
  -- What the flush keeps, buffer by buffer.
  have hkept : s.Keeps c (Fs.cacheFlush (fun k => k.channel = channel) unmount c).2 := by
    apply Cache.cacheFlush_rule (P := s.Keeps c)
    · rintro c1 i failed c2 ⟨⟨hp, hcount⟩, hfaithful⟩ hused hc
      refine ⟨⟨hc.placed hp, ?_⟩, ?_⟩
      · intro j
        rw [(hc.same.2.2.2.2 j).2.1, hcount]
      · intro hf
        exact hc.faithful hp (hfaithful hf) (hp.used_iff.mp hused)
    · rintro c1 i ⟨⟨hp, hcount⟩, hfaithful⟩ hi hclean
      refine ⟨⟨Cache.unmount_placed hp hi, hcount⟩, ?_⟩
      intro hf
      exact Cache.dispose_swept hp (hfaithful hf) (hp.used_iff.mp (.inr hi)) (hp.unlocked i (.inr hi)) hclean
    · exact fun c' h' => h'.1.1.lru_nodup
    · exact ⟨⟨h.placed, fun _ => rfl⟩, id⟩
  refine ⟨{ s with memory := m' }, _, ?_, ⟨hsim, hkept.1.1, ?_, h.lt⟩, fun _ => hkept.2⟩
  · rw [Session.step, hm']
  · intro j
    rw [hkept.1.2]
    exact h.count j

theorem step_steps (call : Call) (hcall : s.Admits call) : s.Steps c call := by
  cases call with
  | create k => exact create_steps h k
  | get k => exact get_steps h k
  | store i f => exact store_steps h hcall f
  | modify p => exact modify_steps h p
  | release p dirty => exact release_steps h p dirty hcall
  | invalidate k => exact invalidate_steps h k hcall
  | flush channel unmount => exact flush_steps h channel unmount

theorem run_steps (calls : List Call) (hcalls : s.Always Session.Admits calls) :
    ∃ s' c', s.run calls = some s' ∧ s'.Inv c' ∧
      (s.Always Session.Marks calls → c.Faithful s.value s.unmarked → c'.Faithful s'.value s'.unmarked) := by
  induction calls generalizing s c with
  | nil => exact ⟨s, c, rfl, h, fun _ => id⟩
  | cons call calls ih =>
    obtain ⟨s1, c1, hstep, h1, hfaithful1⟩ := step_steps h call hcalls.1
    rw [Session.Always, hstep] at hcalls
    obtain ⟨s2, c2, hrun, h2, hfaithful2⟩ := ih h1 hcalls.2
    refine ⟨s2, c2, ?_, h2, ?_⟩
    · rw [Session.run, hstep]
      exact hrun
    · intro hmarks hf
      rw [Session.Always, hstep] at hmarks
      exact hfaithful2 hmarks.2 (hfaithful1 hmarks.1 hf)

end

/-- The lists share out the entries. The hash has those of `lru_list` and `locked_list`, of no two the
same block, and the locked ones are on `locked_list`. -/
structure Sound (m : Memory) (free lru locked : List ℕ) (chains : ℕ → List Hash.Slot)
    (spares : List Hash.Slot) (map : Hash.BoundedMap BlockId ℕ) : Prop where
  links : m.links.Rings (lists free lru locked)
  perm : (free ++ (lru ++ locked)).Perm (List.range maxCache)
  holds : Hash.Holds m.named m.calcHash m.hash chains spares map
  stored : ∀ p v, Hash.Stored m.hash chains p v ↔ ∃ i ∈ lru ++ locked, p = .entry i ∧ v = some i
  distinct : ∀ i ∈ lru ++ locked, ∀ j ∈ lru ++ locked, (m.cache i).key = (m.cache j).key → i = j
  lookup : ∀ k i, (hashGet { m with key := k } .key).1 = some i ↔ i ∈ lru ++ locked ∧ (m.cache i).key = k
  locked_iff : ∀ i < maxCache, i ∈ locked ↔ 0 < (m.cache i).lockCount

theorem Sim.sound {m : Memory} (h : Sim m c) (hp : c.Placed) :
    ∃ chains spares map, m.Sound c.freeList c.lruList c.lockedList chains spares map := by
  have hused (i : ℕ) : i ∈ c.lruList ++ c.lockedList ↔ c.Used i := by
    rw [mem_append, or_comm]
    rfl
  obtain ⟨chains, spares, map, ht⟩ := h.hash
  refine ⟨chains, spares, map, h.links, ?_, ht.holds, ?_, ?_, ?_, ?_⟩
  · apply (perm_ext_iff_of_nodup hp.nodup nodup_range).mpr
    intro i
    rw [hp.mem, mem_range]
  · intro p v
    constructor
    · intro hs
      obtain ⟨i, rfl, rfl, hi⟩ := ht.stored hs
      exact ⟨i, (hused i).mpr ((hp.hash _ i).mp hi).1, rfl, rfl⟩
    · rintro ⟨i, hi, rfl, rfl⟩
      have hkey : c.hash (c.cache i).key = some i := hp.used_iff.mp ((hused i).mp hi)
      have hmem : (c.cache i).key ∈ map.keys := by
        rw [ht.keys, hkey]
        exact Option.some_ne_none i
      obtain ⟨n, hn, slot, hslot, p, hp', hname⟩ := ht.holds.means.found _ hmem
      have hs : Hash.Stored m.hash chains p (m.hash.value slot) := ⟨n, hn, slot, hslot, hp', rfl⟩
      obtain ⟨j, rfl, hvalue, hj⟩ := ht.stored hs
      rw [hname, hkey] at hj
      cases hj
      rw [hvalue] at hs
      exact hs
  · intro i hi j hj heq
    rw [h.cache] at heq
    exact hp.inj ((hused i).mp hi) ((hused j).mp hj) heq
  · intro k i
    rw [(h.lookup k).1, h.cache, hused]
    exact hp.hash k i
  · intro i hi
    rw [h.cache]
    exact hp.locked_iff hi

variable {k : BlockId} {m' : Memory}

theorem get_value (h : s.Inv c) (hf : c.Faithful s.value s.unmarked) (hk : k ∉ s.unmarked)
    (hget : s.memory.cacheGet k = (some i, m')) : (m'.cache i).key = k ∧ (m'.cache i).buf = s.value k := by
  have hagree := cacheGet_sim h.placed h.sim k
  have hgot := Cache.cacheGet_got h.placed k
  rw [hget] at hagree
  rcases hc : Fs.cacheGet k c with ⟨r, c'⟩
  rw [hc] at hagree hgot
  obtain ⟨rfl, hsim⟩ := hagree
  have hcached : c'.hash k = some i := hgot.cached
  rw [hsim.cache]
  exact ⟨(((hgot.placed h.placed).hash k i).mp hcached).2, ((hgot.faithful h.placed hf).cached k i hcached hk).1⟩

theorem get_none (h : s.Inv c) (hfaults : true ∉ s.memory.faults)
    (hget : s.memory.cacheGet k = (none, m')) (hi : i < maxCache) :
    0 < (s.memory.cache i).lockCount ∧ (s.memory.cache i).key ≠ k := by
  have hagree := cacheGet_sim h.placed h.sim k
  have hgot := Cache.cacheGet_got h.placed k
  rw [hget] at hagree
  rcases hc : Fs.cacheGet k c with ⟨r, c'⟩
  rw [hc] at hagree hgot
  obtain ⟨rfl, hsim⟩ := hagree
  rw [h.sim.faults] at hfaults
  cases hgot with
  | full uncached free lru =>
    have hlocked := (h.placed.mem i).mpr hi
    rw [free, lru, nil_append, nil_append] at hlocked
    rw [h.sim.cache]
    refine ⟨h.placed.locked i hlocked, ?_⟩
    rintro rfl
    rw [h.placed.used_iff.mp (.inl hlocked)] at uncached
    cases uncached
  | unswept uncached failed => exact absurd failed hfaults
  | unread uncached claimed failed => exact absurd (claimed.faults true failed) hfaults

end

def Session.start (m : Memory) : Session := ⟨m, [], m.disk, ∅⟩

/-- The lists and the hash stay sound whatever device operations fail. `cache_get` returns what a
block was last marked with if changed buffers are marked. -/
theorem cache_keeps_blocks (disk : BlockId → Block) (faults : List Bool) (links : Links Node)
    (fresh : Option (Hash.Table Pointer ℕ)) (m : Memory)
    (hinit : cacheInitialize disk faults links fresh = some m) (calls : List Call)
    (hcalls : (Session.start m).Always Session.Admits calls) :
    ∃ s, (Session.start m).run calls = some s ∧
      (∃ free lru locked chains spares map, s.memory.Sound free lru locked chains spares map) ∧
      ((Session.start m).Always Session.Marks calls → ∀ k ∉ s.unmarked, ∀ i m',
        s.memory.cacheGet k = (some i, m') → (m'.cache i).key = k ∧ (m'.cache i).buf = s.value k) ∧
      (true ∉ s.memory.faults → ∀ k m', s.memory.cacheGet k = (none, m') → ∀ i < maxCache,
        0 < (s.memory.cache i).lockCount ∧ (s.memory.cache i).key ≠ k) := by
  have hsim := cacheInitialize_sim hinit
  have hstart : (Session.start m).Inv (Fs.cacheInitialize disk faults) :=
    ⟨hsim, cacheInitialize_placed disk faults, fun _ => rfl, fun i hi => absurd hi not_mem_nil⟩
  have hfaithful : (Fs.cacheInitialize disk faults : Cache BlockId).Faithful (Session.start m).value
      (Session.start m).unmarked := by
    refine ⟨?_, ?_, ?_⟩
    · intro k i hi
      cases hi
    · intro k _
      change disk k = m.disk k
      rw [hsim.disk]
      rfl
    · intro k hk
      rw [Session.start, Finset.coe_empty] at hk
      exact absurd hk (Set.notMem_empty k)
  obtain ⟨s, c, hrun, hinv, hkept⟩ := run_steps hstart calls hcalls
  obtain ⟨chains, spares, map, hsound⟩ := hinv.sim.sound hinv.placed
  refine ⟨s, hrun, ⟨_, _, _, chains, spares, map, hsound⟩, ?_, ?_⟩
  · intro hmarks k hk i m' hget
    exact get_value hinv (hkept hmarks hfaithful) hk hget
  · intro hfaults k m' hget i hi
    exact get_none hinv hfaults hget hi

def ones : BlockId → Block := fun _ _ => 1

def unused : Hash.Table Pointer ℕ where
  links := ⟨fun _ => .spares, fun _ => .spares⟩
  key := fun _ => none
  value := fun _ => none
  size := 0
  num := 0
  max := 0

def booted : Memory := (cacheInitialize ones [] ⟨id, id⟩ (some unused)).get rfl

theorem booted_eq : cacheInitialize ones [] ⟨id, id⟩ (some unused) = some booted := (Option.some_get rfl).symm

def markedCalls : List Call :=
  [.get ⟨0, 3⟩, .store 0 fun _ _ => 2, .modify (some 0), .release (some 0) false]

theorem cache_keeps_marked : (Session.start booted).Always Session.Admits markedCalls ∧
      (Session.start booted).Always Session.Marks markedCalls ∧
      ∃ s, (Session.start booted).run markedCalls = some s ∧
        (∃ free lru locked chains spares map, s.memory.Sound free lru locked chains spares map) ∧
        ∀ k ∉ s.unmarked, ∀ i m', s.memory.cacheGet k = (some i, m') →
          (m'.cache i).key = k ∧ (m'.cache i).buf = s.value k := by
  have hadmits : (Session.start booted).Always Session.Admits markedCalls := by decide +kernel
  have hmarks : (Session.start booted).Always Session.Marks markedCalls := by decide +kernel
  obtain ⟨s, hrun, hsound, hvalue, -⟩ := cache_keeps_blocks ones [] _ _ booted booted_eq markedCalls hadmits
  exact ⟨hadmits, hmarks, s, hrun, hsound, hvalue hmarks⟩

def firstByte (calls : List Call) (k : BlockId) : Option UInt8 :=
  match (Session.start booted).run calls with
  | none => none
  | some s =>
    match s.memory.cacheGet k with
    | (none, _) => none
    | (some i, m) => some ((m.cache i).buf 0)

/-- A buffer of zeros that is not marked is kept for a block of ones, and what a block was marked with is
lost when it is invalidated. -/
theorem cache_get_unmarked :
    ((Session.start booted).Always Session.Admits [.create ⟨0, 3⟩, .release (some 0) false] ∧
      firstByte [.create ⟨0, 3⟩, .release (some 0) false] ⟨0, 3⟩ = some 0 ∧ ones ⟨0, 3⟩ 0 = 1) ∧
    ((Session.start booted).Always Session.Admits [.get ⟨0, 3⟩, .store 0 fun _ _ => 2,
        .release (some 0) true, .invalidate ⟨0, 3⟩] ∧
      firstByte [.get ⟨0, 3⟩, .store 0 fun _ _ => 2, .release (some 0) true, .invalidate ⟨0, 3⟩]
        ⟨0, 3⟩ = some 1) := by
  decide +kernel

end Memory

end Eotan.Fs
