import Mathlib.Data.Multiset.Filter
import Eotan.Set.AaTreeKeyed
import Eotan.Timer.Server

namespace Eotan.Timer

open AaTree (Addr Shape Keyed Compares addrs nilNode)
open Intrusive
open Lib (Links LevelTree)
open Lib.Links
open Function
open List

structure Sleepers where
  now : Timespec
  pending : Multiset (Timespec × ℕ)
  woken : Multiset ℕ

namespace Sleepers

def settle (a : Sleepers) : Sleepers where
  now := a.now
  pending := a.pending.filter fun r => timespecCompare a.now r.1 < 0
  woken := a.woken + (a.pending.filter fun r => ¬timespecCompare a.now r.1 < 0).map Prod.snd

def step (a : Sleepers) (reply : Reply) : Event → Sleepers
  | .sleep ts tag _ _ =>
    if reply = .ok then { a with pending := (timespecAdd a.now ts, tag) ::ₘ a.pending } else a
  | .tick => settle { a with now := timespecAdd a.now ⟨0, tickNsec⟩ }
  | .deferredCall => a

end Sleepers

abbrev Groups := List (Addr × List Addr)

def waitingRing (g : Addr × List Addr) : ListNode × List ListNode := (.waiting g.1, g.2.map .brothers)

def calledRing (c : Addr × List Addr) : ListNode × List ListNode := (.brothers c.1, c.2.map .brothers)

def asleep (gs : Groups) : List Addr := gs.flatMap Prod.snd

def called (cs : Groups) : List Addr := cs.flatMap fun c => c.1 :: c.2

def requests (ts : ℤ → Timespec) (tag : Addr → ℕ) (gs : Groups) : List (Timespec × ℕ) :=
  gs.flatMap fun g => g.2.map fun s => (ts g.1, tag s)

structure Holds (w : World) (a : Sleepers) (clock : Instant) (base : ℤ) (due : Addr → Instant)
    (t : Shape) (gs cs : Groups) : Prop where
  now : w.systemTime = clock.stored
  agreed : a.now = w.systemTime
  normal : clock.nsec < 2 ^ 31
  clock_mem : base ≤ clock.sec ∧ clock.sec < base + 2 ^ 63
  keyed : Keyed (fun y => (due y.2).rank) w.tree w.mem t
  own : ∀ y ∈ t.toList, y.1 = y.2
  ts : ∀ x ∈ addrs t, w.ts x = (due x).stored
  due_mem : ∀ x ∈ addrs t, base ≤ (due x).sec ∧ (due x).sec < base + 2 ^ 63
  timers : (gs.map Prod.fst).Perm (addrs t)
  full : ∀ g ∈ gs, g.2 ≠ []
  rings : w.links.Rings (gs.map waitingRing ++ cs.map calledRing)
  deferred : w.deferred = cs.map fun c => .brothers c.1
  timerSlab : w.timerSlab.live.Perm (addrs t) ∧ w.timerSlab.freedTwice = false
  sleeperSlab : w.sleeperSlab.live.Perm (asleep gs ++ called cs) ∧ w.sleeperSlab.freedTwice = false
  pending : a.pending = requests w.ts w.tag gs
  woken : a.woken = ↑(w.sent ++ (called cs).map w.tag)

variable {s x : Addr}

section membership

variable {gs cs : Groups}

theorem nodes_eq : nodes (gs.map waitingRing ++ cs.map calledRing) =
    (gs.flatMap fun g => .waiting g.1 :: g.2.map .brothers) ++ (called cs).map .brothers := by
  rw [nodes, flatMap_append, flatMap_map, flatMap_map, called, map_flatMap]
  rfl

theorem brothers_mem_nodes :
    .brothers s ∈ nodes (gs.map waitingRing ++ cs.map calledRing) ↔ s ∈ asleep gs ++ called cs := by
  simp [nodes_eq, asleep]

theorem waiting_mem_nodes :
    .waiting x ∈ nodes (gs.map waitingRing ++ cs.map calledRing) ↔ x ∈ gs.map Prod.fst := by
  simp [nodes_eq, eq_comm]

theorem guard_not_mem_nodes : ListNode.guard ∉ nodes (gs.map waitingRing ++ cs.map calledRing) := by
  simp [nodes_eq]

end membership

section steps

variable {w : World} {a : Sleepers} {clock : Instant} {base : ℤ} {due : Addr → Instant} {t : Shape}
  {gs gs' cs : Groups}

theorem Holds.perm (h : Holds w a clock base due t gs cs) (hperm : gs.Perm gs') :
    Holds w a clock base due t gs' cs :=
  { h with
    timers := (hperm.map Prod.fst).symm.trans h.timers
    full := fun g hg => h.full g (hperm.mem_iff.mpr hg)
    rings := h.rings.perm ((hperm.map waitingRing).append_right _)
    sleeperSlab := ⟨h.sleeperSlab.1.trans ((hperm.flatMap_right _).append_right _), h.sleeperSlab.2⟩
    pending := by
      rw [h.pending]
      exact Multiset.coe_eq_coe.mpr (hperm.flatMap_right _) }

theorem Holds.group (h : Holds w a clock base due t gs cs) (hx : x ∈ addrs t) :
    ∃ s l gs', Holds w a clock base due t ((x, s :: l) :: gs') cs := by
  obtain ⟨g, hg, rfl⟩ := mem_map.mp (h.timers.mem_iff.mpr hx)
  obtain ⟨s, l, hl⟩ := exists_cons_of_ne_nil (h.full g hg)
  refine ⟨s, l, gs.erase g, ?_⟩
  rw [← hl]
  exact h.perm (perm_cons_erase hg)

theorem Holds.timerTree (h : Holds w a clock base due t gs cs) :
    Keyed (fun y => (due y.2).rank) w.timerTree w.mem t :=
  { h.keyed with }

variable {i deadline : Instant}

theorem Holds.compares (h : Holds w a clock base due t gs cs) {c : ℤ}
    (hc : w.ts c = i.stored) (hi : base ≤ i.sec ∧ i.sec < base + 2 ^ 63) :
    Compares w.timerTree (fun y => (due y.2).rank) t c i.rank := by
  intro y hy
  have hmem : y.2 ∈ addrs t := mem_map_of_mem hy
  have hdue := h.due_mem y.2 hmem
  change (timespecCompare (w.ts c) (w.ts y.1) = 0 ↔ _) ∧ (timespecCompare (w.ts c) (w.ts y.1) < 0 ↔ _)
  rw [hc, h.own y hy, h.ts y.2 hmem]
  exact timespecCompare_stored i (due y.2) (by omega) (by omega)

theorem World.detach_eq (hnext : w.links.next (.waiting x) = .brothers s) : w.detach x = { w with
      links := listRemove w.links (.waiting x)
      deferred := w.deferred ++ [.brothers s] } := by
  rw [World.detach, hnext, if_neg (by simp)]

theorem remove_first {α κ : Type} [LinearOrder κ] {key : α → κ} {t : LevelTree α} {y : α}
    {ys : List α} (h : t.Sorted key) (hy : t.toList = y :: ys) :
    (t.remove key (key y)).1 = some y ∧ (t.remove key (key y)).2.toList = ys := by
  have hlt : ∀ z ∈ ys, key y < key z := by
    rw [LevelTree.Sorted, hy] at h
    exact (pairwise_cons.mp h).1
  rcases LevelTree.remove_toList h (key y) with ⟨-, -, hne⟩ | ⟨b, xs, zs, hsome, hkey, hxz, heq⟩
  · refine absurd rfl (hne y ?_)
    rw [hy]
    exact mem_cons_self
  rw [hy] at hxz
  cases xs with
  | nil =>
    obtain ⟨rfl, rfl⟩ := cons.inj hxz
    exact ⟨hsome, heq⟩
  | cons z xs =>
    obtain ⟨rfl, rfl⟩ := cons.inj hxz
    have := hlt b (mem_append_right _ mem_cons_self)
    rw [hkey] at this
    exact absurd this (lt_irrefl _)

theorem Slab.free_head {slab : Slab} {l : List Addr} (h : slab.live.Perm (x :: l) ∧ slab.freedTwice = false) :
    ∃ live, slab.free x = ⟨live, false⟩ ∧ live.Perm l := by
  refine ⟨slab.live.erase x, ?_, ?_⟩
  · rw [Slab.free, if_pos (h.1.mem_iff.mpr mem_cons_self), h.2]
  · have herase := h.1.erase x
    rwa [erase_cons_head] at herase

theorem Holds.round {l : List Addr} {ys : List (ℤ × Addr)}
    (h : Holds w a clock base due t ((x, s :: l) :: gs) cs) (hfirst : t.toList = (↑x, x) :: ys) :
    ∃ tr' m' t', AaTree.treeRemove (w.detach x).timerTree (w.detach x).mem x = some (tr', m', some x) ∧
      t'.toList = ys ∧ Holds ({ w.detach x with tree := tr', mem := m' }.freeTimer (some x))
        { a with pending := requests w.ts w.tag gs, woken := a.woken + ↑((s :: l).map w.tag) }
        clock base due t' gs (cs ++ [(s, l)]) := by
  have hx : x ∈ addrs t := by
    rw [addrs, hfirst]
    exact mem_cons_self
  have hring : w.links.Ring (.waiting x) (.brothers s :: l.map .brothers) := h.rings.head
  rw [World.detach_eq hring.next_eq]
  obtain ⟨tr', m', hremove, hkeyed', -⟩ := h.timerTree.remove (h.compares (h.ts x hx) (h.due_mem x hx))
  obtain ⟨hsome, hrest⟩ := remove_first h.keyed.sorted hfirst
  simp only at hsome hrest
  rw [hsome] at hremove
  have hslab := h.timerSlab
  have htimers := h.timers
  generalize (LevelTree.remove (fun y => (due y.2).rank) (due x).rank t).2 = t' at hkeyed' hrest
  refine ⟨tr', m', t', hremove, hrest, ?_⟩
  have haddrs : addrs t = x :: addrs t' := by
    rw [addrs, addrs, hfirst, hrest]
    rfl
  have hsub : ∀ z ∈ addrs t', z ∈ addrs t := by
    rw [haddrs]
    exact fun z hz => mem_cons_of_mem _ hz
  rw [haddrs] at hslab htimers
  obtain ⟨live, hfree, hlive⟩ := Slab.free_head hslab
  have hcalled : called (cs ++ [(s, l)]) = called cs ++ (s :: l) := by
    simp [called]
  refine
    { h with
      keyed := hkeyed'
      own := ?_
      ts := fun z hz => h.ts z (hsub z hz)
      due_mem := fun z hz => h.due_mem z (hsub z hz)
      timers := List.Perm.cons_inv htimers
      full := fun g hg => h.full g (mem_cons_of_mem _ hg)
      rings := ?_
      deferred := ?_
      timerSlab := ?_
      sleeperSlab := ?_
      pending := rfl
      woken := ?_ }
  · intro y hy
    apply h.own y
    rw [hfirst, ← hrest]
    exact mem_cons_of_mem _ hy
  · have hdetach := rings_detach h.rings
    apply hdetach.perm
    rw [map_append, map_singleton, ← append_assoc]
    exact (perm_append_singleton _ _).symm
  · change w.deferred ++ [.brothers s] = _
    rw [h.deferred, map_append]
    rfl
  · change (w.timerSlab.free x).live.Perm _ ∧ (w.timerSlab.free x).freedTwice = false
    rw [hfree]
    exact ⟨hlive, rfl⟩
  · refine ⟨h.sleeperSlab.1.trans ?_, h.sleeperSlab.2⟩
    change (s :: l ++ asleep gs ++ called cs).Perm (asleep gs ++ called (cs ++ [(s, l)]))
    rw [hcalled, ← append_assoc, append_assoc (s :: l)]
    exact perm_append_comm
  · change a.woken + _ = _
    rw [h.woken]
    rw [hcalled, map_append, ← append_assoc]
    rfl

theorem Holds.compare_now (h : Holds w a clock base due t gs cs) (hx : x ∈ addrs t) :
    timespecCompare clock.stored (w.ts x) < 0 ↔ clock.rank < (due x).rank := by
  have hclock := h.clock_mem
  have hdue := h.due_mem x hx
  rw [h.ts x hx]
  exact (timespecCompare_stored clock (due x) (by omega) (by omega)).2

theorem Holds.settled (h : Holds w a clock base due t gs cs)
    (hlater : ∀ x ∈ addrs t, clock.rank < (due x).rank) : a.settle = a := by
  have hnow : a.now = clock.stored := h.agreed.trans h.now
  have hall : ∀ r ∈ a.pending, timespecCompare a.now r.1 < 0 := by
    intro r hr
    rw [h.pending, Multiset.mem_coe, requests, mem_flatMap] at hr
    obtain ⟨g, hg, hr⟩ := hr
    obtain ⟨s, -, rfl⟩ := mem_map.mp hr
    have hx : g.1 ∈ addrs t := h.timers.mem_iff.mp (mem_map_of_mem hg)
    rw [hnow]
    exact (h.compare_now hx).mpr (hlater g.1 hx)
  have hnone : a.pending.filter (fun r => ¬timespecCompare a.now r.1 < 0) = 0 := by
    rw [Multiset.filter_eq_nil]
    intro r hr hnot
    exact hnot (hall r hr)
  rw [Sleepers.settle, Multiset.filter_eq_self.mpr hall, hnone, Multiset.map_zero, add_zero]

theorem settle_of_due {g : Addr × List Addr} (hdue : ¬timespecCompare a.now (w.ts g.1) < 0)
    (hpending : a.pending = requests w.ts w.tag (g :: gs)) :
    Sleepers.settle { a with pending := requests w.ts w.tag gs, woken := a.woken + ↑(g.2.map w.tag) } = a.settle := by
  obtain ⟨mine, hmine⟩ : ∃ mine : List (Timespec × ℕ), mine = g.2.map fun s => (w.ts g.1, w.tag s) := ⟨_, rfl⟩
  have hsplit : a.pending = (mine : Multiset (Timespec × ℕ)) + requests w.ts w.tag gs := by
    rw [hpending, hmine, Multiset.coe_add]
    rfl
  have hall : ∀ r ∈ (mine : Multiset (Timespec × ℕ)), ¬timespecCompare a.now r.1 < 0 := by
    intro r hr
    rw [hmine] at hr
    obtain ⟨s, -, rfl⟩ := mem_map.mp (Multiset.mem_coe.mp hr)
    exact hdue
  have hnone : (mine : Multiset (Timespec × ℕ)).filter (fun r => timespecCompare a.now r.1 < 0) = 0 := by
    rw [Multiset.filter_eq_nil]
    exact hall
  have htags : (mine : Multiset (Timespec × ℕ)).map Prod.snd = ↑(g.2.map w.tag) := by
    rw [hmine, Multiset.map_coe, map_map]
    rfl
  simp only [Sleepers.settle, hsplit, Multiset.filter_add, hnone, zero_add,
    Multiset.filter_eq_self.mpr hall, Multiset.map_add, htags, add_assoc]

theorem serviceLoop_holds (n : ℕ) (h : Holds w a clock base due t gs cs)
    (hn : t.toList.length < n) : ∃ w' t' gs' cs', serviceLoop clock.stored n w = some w' ∧
      Holds w' a.settle clock base due t' gs' cs' ∧ ∀ x ∈ addrs t', clock.rank < (due x).rank := by
  induction n generalizing w a t gs cs with
  | zero => exact absurd hn (Nat.not_lt_zero _)
  | succ n ih =>
    rw [serviceLoop, h.timerTree.first, Option.bind_some]
    cases hlist : t.toList with
    | nil =>
      have hlater : ∀ x ∈ addrs t, clock.rank < (due x).rank := by
        rw [addrs, hlist]
        exact fun x hx => absurd hx not_mem_nil
      refine ⟨w, t, gs, cs, rfl, ?_, hlater⟩
      rw [h.settled hlater]
      exact h
    | cons y ys =>
      obtain ⟨c, x⟩ := y
      have hmem : (c, x) ∈ t.toList := by
        rw [hlist]
        exact mem_cons_self
      have hx : x ∈ addrs t := mem_map_of_mem hmem
      obtain rfl : c = x := h.own _ hmem
      simp only [head?_cons, Option.map_some]
      split_ifs with hcompare
      · have hfirst := (h.compare_now hx).mp hcompare
        have hlater : ∀ z ∈ addrs t, clock.rank < (due z).rank := by
          intro z hz
          rw [addrs, hlist] at hz
          rcases mem_cons.mp hz with rfl | hz
          · exact hfirst
          · obtain ⟨y, hy, rfl⟩ := mem_map.mp hz
            have hsorted := h.keyed.sorted
            rw [LevelTree.Sorted, hlist] at hsorted
            exact hfirst.trans ((pairwise_cons.mp hsorted).1 y hy)
        refine ⟨w, t, gs, cs, rfl, ?_, hlater⟩
        rw [h.settled hlater]
        exact h
      · obtain ⟨s, l, gs', hgroup⟩ := h.group hx
        obtain ⟨tr', m', t', hremove, hlist', hround⟩ := hgroup.round hlist
        rw [hremove, Option.bind_some]
        obtain ⟨w', t'', gs'', cs'', hloop, hend, hlater⟩ := ih hround (by
          rw [hlist', ← Nat.succ_lt_succ_iff]
          rwa [hlist] at hn)
        refine ⟨w', t'', gs'', cs'', hloop, ?_, hlater⟩
        have hnow : a.now = clock.stored := h.agreed.trans h.now
        have hsettle := settle_of_due (g := (x, s :: l)) (by rwa [hnow]) hgroup.pending
        rwa [hsettle] at hend

theorem rank_sec_le {j : Instant} (h : i.rank < j.rank) : i.sec ≤ j.sec := by
  have hi := i.offset_le
  have hj := j.lt_offset
  unfold Instant.rank at h
  unfold offsetNsec at hi hj
  omega

theorem timerService_holds (h : Holds w a clock clock.sec due t gs cs) :
    ∃ w' clock' t' gs' cs', timerService w = some w' ∧
      Holds w' (a.step .ok .tick) clock' clock'.sec due t' gs' cs' ∧
      ∀ x ∈ addrs t', clock'.rank < (due x).rank := by
  obtain ⟨clock', hadd, hclock'⟩ := timespecAdd_stored clock h.normal ⟨0, tickNsec⟩ (by decide) (by decide)
  have hlow := clock.offset_le
  have hnormal := h.normal
  have htick : tickNsec = 10000000 := rfl
  simp only [htick, offsetNsec] at hclock' hlow
  have hnormal' : clock'.nsec < 2 ^ 31 := by omega
  have hticked : Holds { w with systemTime := clock'.stored } { a with now := clock'.stored } clock'
      clock.sec due t gs cs :=
    { h with
      now := rfl
      agreed := rfl
      normal := hnormal'
      clock_mem := by omega }
  have hlength : t.toList.length < w.timerSlab.live.length + 1 := by
    rw [h.timerSlab.1.length_eq, addrs, length_map]
    exact Nat.lt_succ_self _
  obtain ⟨w', t', gs', cs', hloop, hend, hlater⟩ := serviceLoop_holds _ hticked hlength
  have hstart : timespecAdd w.systemTime ⟨0, tickNsec⟩ = clock'.stored := by rw [h.now, hadd]
  refine ⟨w', clock', t', gs', cs', ?_, ?_, hlater⟩
  · rw [timerService]
    simp only [hstart]
    exact hloop
  · have hstep : a.step .ok .tick = Sleepers.settle { a with now := clock'.stored } := by
      rw [Sleepers.step, h.agreed, hstart]
    rw [hstep]
    refine { hend with clock_mem := by omega, due_mem := ?_ }
    intro x hx
    have hdue := hend.due_mem x hx
    have hle := rank_sec_le (hlater x hx)
    omega

theorem wakeupLoop_spec {rs : List (ListNode × List ListNode)} {rest : List Addr} (ss : List Addr)
    (n : ℕ) (hn : ss.length < n) (hrings : w.links.Rings ((.guard, ss.map .brothers) :: rs))
    (hslab : w.sleeperSlab.live.Perm (ss ++ rest) ∧ w.sleeperSlab.freedTwice = false) :
    ∃ links' live', wakeupLoop n w = some { w with
        links := links'
        sent := (ss.map w.tag).reverse ++ w.sent
        sleeperSlab := ⟨live', false⟩ } ∧ links'.Rings rs ∧ live'.Perm rest := by
  induction ss generalizing w n with
  | nil =>
    obtain _ | n := n
    · omega
    rw [wakeupLoop, listPick_nil hrings.head]
    refine ⟨w.links, w.sleeperSlab.live, ?_, hrings.tail, hslab.1⟩
    rw [← hslab.2]
    rfl
  | cons s ss ih =>
    obtain _ | n := n
    · omega
    have hring : w.links.Ring .guard (.brothers s :: ss.map .brothers) := hrings.head
    rw [wakeupLoop, listPick_cons hring]
    obtain ⟨live, hfree, hlive⟩ := Slab.free_head hslab
    simp only [hfree]
    obtain ⟨links', live', hloop, hrings', hlive'⟩ := ih (w := { w with
        links := listRemove w.links (.brothers s)
        sent := w.tag s :: w.sent
        sleeperSlab := ⟨live, false⟩ }) n (Nat.lt_of_succ_lt_succ hn) (rings_remove hrings) ⟨hlive, rfl⟩
    refine ⟨links', live', ?_, hrings', hlive'⟩
    rw [hloop, map_cons, reverse_cons, append_assoc]
    rfl

theorem wakeup_holds {c : Addr × List Addr} (h : Holds w a clock base due t gs (c :: cs)) :
    ∃ w', wakeup { w with deferred := cs.map fun c => .brothers c.1 } (.brothers c.1) = some w' ∧
      Holds w' a clock base due t gs cs := by
  have hperm : (gs.map waitingRing ++ (c :: cs).map calledRing).Perm
      (calledRing c :: (gs.map waitingRing ++ cs.map calledRing)) := by
    rw [map_cons]
    exact perm_middle
  have hguard : ListNode.guard ∉ nodes (calledRing c :: (gs.map waitingRing ++ cs.map calledRing)) := by
    intro hmem
    exact guard_not_mem_nodes ((hperm.flatMap_right _).mem_iff.mpr hmem)
  have hhung := (rings_append (h.rings.perm hperm) hguard).rotate
  have hlive : w.sleeperSlab.live.Perm ((c.1 :: c.2) ++ (asleep gs ++ called cs)) := by
    apply h.sleeperSlab.1.trans
    change (asleep gs ++ ((c.1 :: c.2) ++ called cs)).Perm _
    rw [← append_assoc, ← append_assoc]
    exact perm_append_comm.append_right _
  obtain ⟨links', live', hloop, hrings', hlive'⟩ := wakeupLoop_spec
    (w := { w with
      deferred := cs.map fun c => .brothers c.1
      links := listAppend w.links (.brothers c.1) .guard })
    (c.1 :: c.2) (w.sleeperSlab.live.length + 1) (by
      rw [hlive.length_eq, length_append]
      omega) hhung ⟨hlive, h.sleeperSlab.2⟩
  refine ⟨_, hloop, ?_⟩
  refine { h with
    rings := hrings'
    deferred := rfl
    sleeperSlab := ⟨hlive', rfl⟩
    pending := h.pending
    woken := ?_ }
  rw [h.woken]
  apply Multiset.coe_eq_coe.mpr
  change (w.sent ++ ((c.1 :: c.2) ++ called cs).map w.tag).Perm
    (((c.1 :: c.2).map w.tag).reverse ++ w.sent ++ (called cs).map w.tag)
  rw [map_append, ← append_assoc]
  apply List.Perm.append_right
  exact perm_append_comm.trans ((reverse_perm _).symm.append_right _)

theorem Holds.frame {w' : World} (h : Holds w a clock base due t gs cs)
    (htime : w'.systemTime = w.systemTime) (htree : w'.tree = w.tree) (hmem : w'.mem = w.mem)
    (htimers : w'.timerSlab = w.timerSlab) (hdeferred : w'.deferred = w.deferred)
    (hsent : w'.sent = w.sent) (hts : ∀ x : Addr, w'.ts x = w.ts x)
    (htag : ∀ s ∈ asleep gs ++ called cs, w'.tag s = w.tag s)
    (hrings : w'.links.Rings (gs.map waitingRing ++ cs.map calledRing))
    (hslab : w'.sleeperSlab = w.sleeperSlab) : Holds w' a clock base due t gs cs :=
  { h with
    now := htime.trans h.now
    agreed := h.agreed.trans htime.symm
    keyed := by
      rw [htree, hmem]
      exact h.keyed
    ts := fun x hx => (hts x).trans (h.ts x hx)
    rings := hrings
    deferred := hdeferred.trans h.deferred
    timerSlab := by
      rw [htimers]
      exact h.timerSlab
    sleeperSlab := by
      rw [hslab]
      exact h.sleeperSlab
    pending := by
      rw [h.pending]
      congr 1
      apply flatMap_congr
      intro g hg
      apply map_congr_left
      intro s hs
      rw [hts, htag s (mem_append_left _ (mem_flatMap.mpr ⟨g, hg, hs⟩))]
    woken := by
      rw [h.woken, hsent]
      congr 2
      apply map_congr_left
      intro s hs
      exact (htag s (mem_append_right _ hs)).symm }

theorem Holds.fresh (h : Holds w a clock base due t gs cs) (hs : s ∉ w.sleeperSlab.live) :
    .brothers s ∉ nodes (gs.map waitingRing ++ cs.map calledRing) := by
  rw [brothers_mem_nodes, ← h.sleeperSlab.1.mem_iff]
  exact hs

theorem Holds.join {l : List Addr} (h : Holds w a clock base due t ((x, l) :: gs) cs)
    (hs : s ∉ w.sleeperSlab.live) : Holds { w.listEnqueue x s with
        sleeperSlab := { w.sleeperSlab with live := s :: w.sleeperSlab.live } }
      { a with pending := (w.ts x, w.tag s) ::ₘ a.pending } clock base due t ((x, l ++ [s]) :: gs) cs := by
  refine { h with
    timers := h.timers
    full := ?_
    rings := ?_
    sleeperSlab := ⟨?_, h.sleeperSlab.2⟩
    pending := ?_ }
  · exact forall_mem_cons.mpr ⟨by simp, fun g hg => h.full g (mem_cons_of_mem _ hg)⟩
  · have happend := rings_append h.rings (h.fresh hs)
    rw [← map_singleton, ← map_append] at happend
    exact happend
  · have hperm := h.sleeperSlab.1.cons s
    apply hperm.trans
    change (s :: (l ++ asleep gs ++ called cs)).Perm (l ++ [s] ++ asleep gs ++ called cs)
    rw [append_assoc l, append_assoc l, append_assoc l]
    exact perm_middle.symm
  · rw [h.pending, Multiset.cons_coe]
    apply Multiset.coe_eq_coe.mpr
    change ((w.ts x, w.tag s) :: ((l.map fun s => (w.ts x, w.tag s)) ++ requests w.ts w.tag gs)).Perm
      (((l ++ [s]).map fun s => (w.ts x, w.tag s)) ++ requests w.ts w.tag gs)
    rw [map_append, append_assoc]
    exact perm_middle.symm

theorem Holds.openTimer {tr' : AaTree.Tree} {m' : AaTree.Mem}
    {t' : Shape} {xs ys : List (ℤ × Addr)} (h : Holds w a clock base due t gs cs)
    (hx : x ∉ w.timerSlab.live) (hs : s ∉ w.sleeperSlab.live)
    (hdeadline : base ≤ deadline.sec ∧ deadline.sec < base + 2 ^ 63)
    (hkeyed : Keyed (fun y => (update due x deadline y.2).rank) tr' m' t')
    (hxy : t.toList = xs ++ ys) (hxay : t'.toList = xs ++ (↑x, x) :: ys) : Holds { w with
        tree := tr'
        mem := m'
        ts := update w.ts x deadline.stored
        links := listAppend (listInitialize w.links (.waiting x)) (.waiting x) (.brothers s)
        timerSlab := { w.timerSlab with live := x :: w.timerSlab.live }
        sleeperSlab := { w.sleeperSlab with live := s :: w.sleeperSlab.live } }
      { a with pending := (deadline.stored, w.tag s) ::ₘ a.pending } clock base
      (update due x deadline) t' ((x, [s]) :: gs) cs := by
  have hxt : x ∉ addrs t := fun hmem => hx (h.timerSlab.1.mem_iff.mpr hmem)
  have hperm : (addrs t').Perm (x :: addrs t) := by
    rw [addrs, addrs, hxay, hxy, map_append, map_append]
    exact perm_middle
  have hcases : ∀ z ∈ addrs t', z = x ∨ z ≠ x ∧ z ∈ addrs t := by
    intro z hz
    rcases mem_cons.mp (hperm.mem_iff.mp hz) with rfl | hz
    · exact .inl rfl
    · refine .inr ⟨?_, hz⟩
      rintro rfl
      exact hxt hz
  have hts : ∀ z : Addr, z ≠ x → update w.ts x deadline.stored z = w.ts z := by
    intro z hz
    exact update_of_ne (by exact_mod_cast hz) _ _
  have hwaiting : ListNode.waiting x ∉ nodes (gs.map waitingRing ++ cs.map calledRing) := by
    rw [waiting_mem_nodes, h.timers.mem_iff]
    exact hxt
  refine
    { h with
      keyed := hkeyed
      own := ?_
      ts := ?_
      due_mem := ?_
      timers := ?_
      full := ?_
      rings := ?_
      timerSlab := ⟨?_, h.timerSlab.2⟩
      sleeperSlab := ⟨h.sleeperSlab.1.cons s, h.sleeperSlab.2⟩
      pending := ?_ }
  · intro y hy
    rw [hxay, mem_append, mem_cons] at hy
    rcases hy with hy | rfl | hy
    · exact h.own y (by rw [hxy]; exact mem_append_left _ hy)
    · rfl
    · exact h.own y (by rw [hxy]; exact mem_append_right _ hy)
  · intro z hz
    rcases hcases z hz with rfl | ⟨hne, hz⟩
    · rw [update_self]
      exact update_self ..
    · rw [update_of_ne hne]
      exact (hts z hne).trans (h.ts z hz)
  · intro z hz
    rcases hcases z hz with rfl | ⟨hne, hz⟩
    · rw [update_self]
      exact hdeadline
    · rw [update_of_ne hne]
      exact h.due_mem z hz
  · exact (h.timers.cons x).trans hperm.symm
  · exact forall_mem_cons.mpr ⟨by simp, h.full⟩
  · apply rings_append (rings_open h.rings hwaiting)
    rw [nodes_cons, mem_append, not_or]
    exact ⟨by simp, h.fresh hs⟩
  · exact (h.timerSlab.1.cons x).trans hperm.symm
  · have hself : update w.ts (x : ℤ) deadline.stored x = deadline.stored := update_self ..
    have hrest : requests (update w.ts x deadline.stored) w.tag gs = requests w.ts w.tag gs := by
      apply flatMap_congr
      intro g hg
      have hne : g.1 ≠ x := by
        rintro rfl
        exact hxt (h.timers.mem_iff.mp (mem_map_of_mem hg))
      rw [hts g.1 hne]
    change (deadline.stored, w.tag s) ::ₘ a.pending = ↑((update w.ts (x : ℤ) deadline.stored x,
      w.tag s) :: requests (update w.ts x deadline.stored) w.tag gs)
    rw [hself, hrest, h.pending]
    rfl

theorem stored_of_rank {j : Instant} (h : i.rank = j.rank) : i.stored = j.stored := by
  have hi := i.offset_le
  have hi' := i.lt_offset
  have hj := j.offset_le
  have hj' := j.lt_offset
  unfold Instant.rank at h
  unfold offsetNsec at hi hi' hj hj'
  have hsec : i.sec = j.sec := by omega
  have hnsec : i.nsec = j.nsec := by omega
  rw [Instant.stored, Instant.stored, hsec, hnsec]

theorem Holds.changeDue {due' : Addr → Instant} (h : Holds w a clock base due t gs cs)
    (hsame : ∀ x ∈ addrs t, due' x = due x) : Holds w a clock base due' t gs cs :=
  { h with
    keyed := by
      refine ⟨h.keyed.repr, h.keyed.balanced, ?_, h.keyed.nodeNum⟩
      apply List.Pairwise.imp_of_mem _ h.keyed.sorted
      intro y z hy hz hlt
      simp only [hsame y.2 (mem_map_of_mem hy), hsame z.2 (mem_map_of_mem hz)]
      exact hlt
    ts := fun x hx => by
      rw [hsame x hx]
      exact h.ts x hx
    due_mem := fun x hx => by
      rw [hsame x hx]
      exact h.due_mem x hx }

theorem Holds.put (h : Holds w a clock base due t gs cs) (hentry : w.ts entry = deadline.stored)
    (hdeadline : base ≤ deadline.sec ∧ deadline.sec < base + 2 ^ 63) (hnil : x ≠ nilNode)
    (hx : x ∉ addrs t) (hnone : ∀ z ∈ addrs t, (due z).rank ≠ deadline.rank) :
    ∃ tr' m' p t' xs ys, AaTree.treePut w.timerTree w.mem entry x = some (tr', m', some p) ∧
      Keyed (fun y => (update due x deadline y.2).rank) tr' (AaTree.setKey m' x x) t' ∧
      t.toList = xs ++ ys ∧ t'.toList = xs ++ (↑x, x) :: ys := by
  have hsame : ∀ z ∈ addrs t, update due x deadline z = due z := by
    intro z hz
    apply update_of_ne
    rintro rfl
    exact hx hz
  have h' := h.changeDue hsame
  have hkey : (update due x deadline x).rank = deadline.rank := by
    rw [update_self]
  have hcompares := h'.compares hentry hdeadline
  rw [← hkey] at hcompares
  obtain ⟨tr', m', p, t', xs, ys, hput, hkeyed, -, hxy, hxay⟩ :=
    h'.timerTree.put_absent (c := entry) x hcompares hnil hx (by
      rintro ⟨y, hy, heq⟩
      have hz : y.2 ∈ addrs t := mem_map_of_mem hy
      simp only [hsame y.2 hz, hkey] at heq
      exact hnone y.2 hz heq)
  refine ⟨tr', m', p, t'.map (AaTree.relabel x x), xs, ys, hput, ?_, hxy, ?_⟩
  · apply hkeyed.setKey hnil
    intro y _
    simp only [AaTree.relabel_snd]
  · have hother : ∀ zs : List (ℤ × Addr), (∀ y ∈ zs, y ∈ t.toList) → zs.map (AaTree.relabel x x) = zs := by
      intro zs hzs
      conv_rhs => rw [← map_id zs]
      apply map_congr_left
      intro y hy
      have hne : y.2 ≠ x := by
        rintro rfl
        exact hx (mem_map_of_mem (hzs y hy))
      exact if_neg hne
    rw [LevelTree.toList_map, hxay, map_append, map_cons, hother xs, hother ys]
    · simp [AaTree.relabel]
    · intro y hy
      rw [hxy]
      exact mem_append_right _ hy
    · intro y hy
      rw [hxy]
      exact mem_append_left _ hy

def Admissible (w : World) : Event → Prop
  | .sleep ts _ sleeper timer =>
    (ts.sec < 2 ^ 63 - 1 ∧ ts.nsec < 2 ^ 31) ∧ (∀ s ∈ sleeper, s ∉ w.sleeperSlab.live) ∧
      ∀ x ∈ timer, x ≠ nilNode ∧ x ∉ w.timerSlab.live
  | .tick => True
  | .deferredCall => True

theorem addSleeper_holds {timer : Option Addr}
    (h : Holds w a clock base due t gs cs) (hs : s ∉ w.sleeperSlab.live)
    (hentry : w.ts entry = deadline.stored) (hdeadline : base ≤ deadline.sec ∧ deadline.sec < base + 2 ^ 63)
    (htimer : ∀ x ∈ timer, x ≠ nilNode ∧ x ∉ w.timerSlab.live) :
    ∃ reply w' due' t' gs', addSleeper { w with
        sleeperSlab := { w.sleeperSlab with live := s :: w.sleeperSlab.live } } s timer =
        some (reply, w') ∧
      Holds w' (if reply = .ok then { a with pending := (deadline.stored, w.tag s) ::ₘ a.pending } else a)
        clock base due' t' gs' cs ∧
      ∀ x ∈ addrs t', x ∈ addrs t ∧ due' x = due x ∨ due' x = deadline := by
  have hget := h.timerTree.get (h.compares hentry hdeadline)
  unfold addSleeper
  change ∃ reply w' due' t' gs', (AaTree.treeGet w.timerTree w.mem entry).bind _ = some (reply, w') ∧ _
  rw [hget, Option.bind_some]
  cases hfound : LevelTree.get (fun y => (due y.2).rank) deadline.rank t with
  | some y =>
    obtain ⟨hy, hrank⟩ := (LevelTree.get_eq_some_iff h.keyed.sorted _ _).mp hfound
    have hx : y.2 ∈ addrs t := mem_map_of_mem hy
    obtain ⟨s', l, gs', hgroup⟩ := h.group hx
    have hjoin := hgroup.join hs
    rw [h.ts y.2 hx, stored_of_rank hrank] at hjoin
    exact ⟨.ok, _, due, t, _, rfl, hjoin, fun x hx => .inl ⟨hx, rfl⟩⟩
  | none =>
    have hnone : ∀ z ∈ addrs t, (due z).rank ≠ deadline.rank := by
      intro z hz heq
      obtain ⟨y, hy, rfl⟩ := mem_map.mp hz
      have hsome := (LevelTree.get_eq_some_iff h.keyed.sorted deadline.rank y).mpr ⟨hy, heq⟩
      rw [hfound] at hsome
      cases hsome
    cases timer with
    | none =>
      refine ⟨.nomem, _, due, t, gs, rfl, ?_, fun x hx => .inl ⟨hx, rfl⟩⟩
      refine h.frame rfl rfl rfl rfl rfl rfl (fun _ => rfl) (fun _ _ => rfl) h.rings ?_
      change Slab.free { w.sleeperSlab with live := s :: w.sleeperSlab.live } s = w.sleeperSlab
      rw [Slab.free, if_pos mem_cons_self, erase_cons_head]
    | some x =>
      obtain ⟨hnil, hlive⟩ := htimer x rfl
      have hx : x ∉ addrs t := fun hmem => hlive (h.timerSlab.1.mem_iff.mpr hmem)
      obtain ⟨tr', m', p, t', xs, ys, hput, hkeyed, hxy, hxay⟩ := h.put hentry hdeadline hnil hx hnone
      have hopen := h.openTimer hlive hs hdeadline hkeyed hxy hxay
      refine ⟨.ok, _, update due x deadline, t', (x, [s]) :: gs, ?_, hopen, ?_⟩
      · simp only [Option.map_none, Slab.alloc]
        change (AaTree.treePut w.timerTree w.mem entry x).bind _ = _
        rw [hput, Option.bind_some]
        change some (Reply.ok, _) = some (Reply.ok, _)
        rw [← hentry]
        rfl
      · intro z hz
        by_cases hzx : z = x
        · right
          rw [hzx, update_self]
        left
        rw [update_of_ne hzx]
        refine ⟨?_, rfl⟩
        rw [addrs, hxay, map_append, map_cons, mem_append, mem_cons] at hz
        rw [addrs, hxy, map_append, mem_append]
        rcases hz with hz | hz | hz
        · exact .inl hz
        · exact absurd hz hzx
        · exact .inr hz

section

variable (h : Holds w a clock clock.sec due t gs cs) (hlater : ∀ x ∈ addrs t, clock.rank < (due x).rank)
include h hlater

theorem addTimer_holds (ts : Timespec) (tag : ℕ)
    (sleeper timer : Option Addr) (hadm : Admissible w (.sleep ts tag sleeper timer)) :
    ∃ reply w' due' t' gs', addTimer w ts tag sleeper timer = some (reply, w') ∧
      Holds w' (a.step reply (.sleep ts tag sleeper timer)) clock clock.sec due' t' gs' cs ∧
      ∀ x ∈ addrs t', clock.rank < (due' x).rank := by
  obtain ⟨⟨hsec, hnsec⟩, hsleeper, htimer⟩ := hadm
  unfold addTimer
  split
  · exact ⟨.par, w, due, t, gs, rfl, h, hlater⟩
  rename_i hpos
  split
  · exact ⟨.tmout, w, due, t, gs, rfl, h, hlater⟩
  rename_i hzero
  obtain ⟨deadline, hadd, hdeadline⟩ := timespecAdd_stored clock h.normal ts (by omega) hnsec
  have hafter : clock.rank < deadline.rank := by
    have := clock.offset_le
    have := deadline.offset_le
    unfold Instant.rank
    unfold offsetNsec at *
    omega
  have hwindow : clock.sec ≤ deadline.sec ∧ deadline.sec < clock.sec + 2 ^ 63 := by omega
  have hstored : timespecAdd w.systemTime ts = deadline.stored := by rw [h.now, hadd]
  have hstored' : timespecAdd a.now ts = deadline.stored := by rw [h.agreed, hstored]
  simp only [hstored]
  have hentry : ∀ (x : Addr), update w.ts entry deadline.stored x = w.ts x := by
    intro x
    apply update_of_ne
    unfold entry
    omega
  cases sleeper with
  | none =>
    refine ⟨.nomem, _, due, t, gs, rfl, ?_, hlater⟩
    exact h.frame rfl rfl rfl rfl rfl rfl hentry (fun _ _ => rfl) h.rings rfl
  | some s =>
    have hs := hsleeper s rfl
    -- the state before the sleeper joins, without its entry of the slab
    let w1 : World := { w with
      ts := update w.ts entry deadline.stored
      links := listInitialize w.links (.brothers s)
      tag := update w.tag s tag }
    have h1 : Holds w1 a clock clock.sec due t gs cs := by
      refine h.frame rfl rfl rfl rfl rfl rfl hentry ?_ ?_ rfl
      · intro s' hs'
        apply update_of_ne
        rintro rfl
        exact hs (h.sleeperSlab.1.mem_iff.mpr hs')
      · exact rings_init h.rings (h.fresh hs)
    have htag : w1.tag s = tag := update_self s tag w.tag
    have hentry1 : w1.ts entry = deadline.stored := update_self entry deadline.stored w.ts
    obtain ⟨reply, w', due', t', gs', heq, hholds, hdue⟩ := addSleeper_holds h1 hs hentry1 hwindow htimer
    refine ⟨reply, w', due', t', gs', heq, ?_, ?_⟩
    · rw [htag] at hholds
      rw [Sleepers.step, hstored']
      exact hholds
    · intro x hx
      rcases hdue x hx with ⟨hx, heq⟩ | heq
      · rw [heq]
        exact hlater x hx
      · rw [heq]
        exact hafter

instance decidableAdmissible (w : World) : (e : Event) → Decidable (Admissible w e)
  | .sleep .. => inferInstanceAs (Decidable ((_ ∧ _) ∧ _ ∧ _))
  | .tick => inferInstanceAs (Decidable True)
  | .deferredCall => inferInstanceAs (Decidable True)

end

def Awaiting (w : World) (a : Sleepers) : Prop :=
  ∃ clock due t gs cs, Holds w a clock clock.sec due t gs cs ∧ ∀ x ∈ addrs t, clock.rank < (due x).rank

theorem step_awaiting (h : Awaiting w a) (e : Event) (hadm : Admissible w e) :
    ∃ r, step w e = some r ∧ Awaiting r.2 (a.step r.1 e) := by
  obtain ⟨clock, due, t, gs, cs, h, hlater⟩ := h
  cases e with
  | sleep ts tag sleeper timer =>
    obtain ⟨reply, w', due', t', gs', heq, hend⟩ := addTimer_holds h hlater ts tag sleeper timer hadm
    exact ⟨(reply, w'), heq, clock, due', t', gs', cs, hend⟩
  | tick =>
    obtain ⟨w', clock', t', gs', cs', heq, hend⟩ := timerService_holds h
    refine ⟨(.ok, w'), ?_, clock', due, t', gs', cs', hend⟩
    rw [step, heq]
    rfl
  | deferredCall =>
    rw [step, h.deferred]
    cases cs with
    | nil => exact ⟨(.ok, w), rfl, clock, due, t, gs, [], h, hlater⟩
    | cons c cs =>
      obtain ⟨w', heq, hholds⟩ := wakeup_holds h
      exact ⟨(.ok, w'), congrArg (Option.map (Reply.ok, ·)) heq, clock, due, t, gs, cs, hholds, hlater⟩

end steps

def run (w : World) (a : Sleepers) : List Event → Option (World × Sleepers)
  | [] => some (w, a)
  | e :: es => (step w e).bind fun r => run r.2 (a.step r.1 e) es

def AdmissibleRun (w : World) : List Event → Prop
  | [] => True
  | e :: es => Admissible w e ∧
    match step w e with
    | none => True
    | some r => AdmissibleRun r.2 es

instance decidableAdmissibleRun : (w : World) → (es : List Event) → Decidable (AdmissibleRun w es)
  | _, [] => inferInstanceAs (Decidable True)
  | w, e :: es =>
    have : Decidable (match step w e with
        | none => True
        | some r => AdmissibleRun r.2 es) :=
      match step w e with
      | none => inferInstanceAs (Decidable True)
      | some r => decidableAdmissibleRun r.2 es
    inferInstanceAs (Decidable (_ ∧ _))

theorem run_awaiting {w : World} {a : Sleepers} (h : Awaiting w a) (es : List Event)
    (hadm : AdmissibleRun w es) : ∃ w' a', run w a es = some (w', a') ∧ Awaiting w' a' := by
  induction es generalizing w a with
  | nil => exact ⟨w, a, rfl, h⟩
  | cons e es ih =>
    obtain ⟨hfirst, hrest⟩ := hadm
    obtain ⟨r, heq, hnext⟩ := step_awaiting h e hfirst
    rw [heq] at hrest
    obtain ⟨w', a', hrun, hend⟩ := ih hnext hrest
    refine ⟨w', a', ?_, hend⟩
    rw [run, heq]
    exact hrun

theorem start_holds (clock : Instant) (hclock : clock.nsec < 2 ^ 31) (links : Links ListNode) :
    Holds (World.start clock.stored links) ⟨clock.stored, 0, 0⟩ clock clock.sec (fun _ => clock) .nil [] [] where
  now := rfl
  agreed := rfl
  normal := hclock
  clock_mem := by omega
  keyed := ⟨⟨rfl, nodup_nil, rfl⟩, trivial, List.Pairwise.nil, rfl⟩
  own := fun y hy => absurd hy not_mem_nil
  ts := fun x hx => absurd hx not_mem_nil
  due_mem := fun x hx => absurd hx not_mem_nil
  timers := .nil
  full := fun g hg => absurd hg not_mem_nil
  rings := ⟨fun r hr => absurd hr not_mem_nil, nodup_nil⟩
  deferred := rfl
  timerSlab := ⟨.nil, rfl⟩
  sleeperSlab := ⟨.nil, rfl⟩
  pending := rfl
  woken := rfl

theorem start_awaiting (clock : Instant) (hclock : clock.nsec < 2 ^ 31) (links : Links ListNode) :
    Awaiting (World.start clock.stored links) ⟨clock.stored, 0, 0⟩ :=
  ⟨clock, _, _, _, _, start_holds clock hclock links, fun _ hx => absurd hx not_mem_nil⟩

/-- Each sleeper is woken once, when its deadline is reached, and the tree holds the deadlines of
the others. -/
theorem sleepers_run (clock : Instant) (hclock : clock.nsec < 2 ^ 31) (links : Links ListNode)
    (es : List Event) (hadm : AdmissibleRun (World.start clock.stored links) es) :
    ∃ w a, run (World.start clock.stored links) ⟨clock.stored, 0, 0⟩ es = some (w, a) ∧
      (w.deferred = [] → a.woken = w.sent) ∧
      ∃ clock' due t gs cs, Holds w a clock' clock'.sec due t gs cs ∧
        (∀ x ∈ addrs t, timespecCompare w.systemTime (w.ts x) < 0) ∧
        ∀ d, (∃ x ∈ addrs t, w.ts x = d) ↔ ∃ tag, (d, tag) ∈ a.pending := by
  obtain ⟨w, a, hrun, clock', due, t, gs, cs, hholds, hlater⟩ :=
    run_awaiting (start_awaiting clock hclock links) es hadm
  refine ⟨w, a, hrun, ?_, clock', due, t, gs, cs, hholds, ?_, ?_⟩
  · intro hempty
    have hcs : cs = [] := by
      rw [hholds.deferred, map_eq_nil_iff] at hempty
      exact hempty
    rw [hholds.woken, hcs]
    change ((w.sent ++ [] : List ℕ) : Multiset ℕ) = w.sent
    rw [append_nil]
  · intro x hx
    rw [hholds.now]
    exact (hholds.compare_now hx).mpr (hlater x hx)
  · intro d
    rw [hholds.pending]
    constructor
    · rintro ⟨x, hx, rfl⟩
      obtain ⟨g, hg, rfl⟩ := mem_map.mp (hholds.timers.mem_iff.mpr hx)
      obtain ⟨s, l, hl⟩ := exists_cons_of_ne_nil (hholds.full g hg)
      refine ⟨w.tag s, Multiset.mem_coe.mpr (mem_flatMap.mpr ⟨g, hg, ?_⟩)⟩
      rw [hl]
      exact mem_cons_self
    · rintro ⟨tag, hmem⟩
      obtain ⟨g, hg, hr⟩ := mem_flatMap.mp (Multiset.mem_coe.mp hmem)
      obtain ⟨s, -, heq⟩ := mem_map.mp hr
      exact ⟨g.1, hholds.timers.mem_iff.mp (mem_map_of_mem hg), congrArg Prod.fst heq⟩

def epoch : Instant := ⟨0, offsetNsec, by decide, by decide⟩

def startWorld : World := World.start epoch.stored ⟨id, id⟩

def threeSleepers : List Event :=
  [.sleep ⟨0, 20000000⟩ 1 (some 1) (some 1), .sleep ⟨0, 30000000⟩ 2 (some 2) (some 2),
    .sleep ⟨0, 20000000⟩ 3 (some 3) none, .tick, .tick, .deferredCall, .tick, .deferredCall]

theorem sleepers_run_three : AdmissibleRun startWorld threeSleepers ∧
    ∃ w a, run startWorld ⟨epoch.stored, 0, 0⟩ threeSleepers = some (w, a) ∧ w.sent = [2, 3, 1] ∧
      a.woken = w.sent := by
  have hadm : AdmissibleRun startWorld threeSleepers := by decide +kernel
  obtain ⟨w, a, hrun, hwoken, -⟩ := sleepers_run epoch (by decide) ⟨id, id⟩ threeSleepers hadm
  have hend : ((run startWorld ⟨epoch.stored, 0, 0⟩ threeSleepers).map fun r =>
      (r.1.sent, r.1.deferred)) = some ([2, 3, 1], []) := by decide +kernel
  rw [startWorld, hrun] at hend
  obtain ⟨hsent, hdeferred⟩ := Prod.mk.inj (Option.some.inj hend)
  exact ⟨hadm, w, a, hrun, hsent, hwoken hdeferred⟩

def foreverSleeper : List Event :=
  [.tick, .sleep ⟨0, 10000000⟩ 1 (some 1) (some 1),
    .sleep ⟨2 ^ 63 - 1, 999999999⟩ 2 (some 2) (some 2), .tick, .deferredCall]

theorem foreverSleeper_not_woken :
    ((run startWorld ⟨epoch.stored, 0, 0⟩ foreverSleeper).map fun r =>
      (r.1.sent, r.1.deferred, r.2.woken)) = some ([], [], {1}) := by
  decide +kernel

def lateClock : Instant := ⟨0, offsetNsec + 999999999, by decide, by decide⟩

end Eotan.Timer
