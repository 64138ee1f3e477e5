import Eotan.Set.AaTree
import Eotan.Set.List
import Eotan.Timer.Time

/-!
The timer server: sleepers hang on the list of the timer of their deadline, the timers are nodes of
a tree, and the interrupt handler detaches the lists whose time has come.
-/

namespace Eotan.Timer

open AaTree (Addr Mem Tree treeGet treePut treeRemove treeFirst setKey)
open Intrusive
open Lib (Links)

/-- The nodes of the lists: those in timers and sleepers, and the guard in `wakeup`. -/
inductive ListNode where
  | waiting (t : Addr)
  | brothers (s : Addr)
  | guard
  deriving DecidableEq

structure Slab where
  live : List Addr
  /-- Not in the source: whether an entry was freed that was not allocated. -/
  freedTwice : Bool

def Slab.alloc (slab : Slab) (answer : Option Addr) : Option Addr × Slab :=
  match answer with
  | none => (none, slab)
  | some a => (some a, { slab with live := a :: slab.live })

def Slab.free (slab : Slab) (a : Addr) : Slab :=
  if a ∈ slab.live then { slab with live := slab.live.erase a } else { slab with freedTwice := true }

structure World where
  systemTime : Timespec
  ts : ℤ → Timespec
  tag : Addr → ℕ
  links : Links ListNode
  mem : Mem
  tree : Tree
  timerSlab : Slab
  sleeperSlab : Slab
  deferred : List ListNode
  sent : List ℕ

def entry : ℤ := -1

def compare (ts : ℤ → Timespec) (a b : ℤ) : ℤ := timespecCompare (ts a) (ts b)

def World.timerTree (w : World) : Tree := { w.tree with compare := compare w.ts }

inductive Reply where
  | ok
  | par
  | tmout
  | nomem
  | sys
  deriving DecidableEq

def World.listEnqueue (w : World) (t s : Addr) : World :=
  { w with links := listAppend w.links (.waiting t) (.brothers s) }

def World.newTimer (w : World) (t : Addr) (deadline : Timespec) : World :=
  { w with
    mem := setKey w.mem t t
    ts := Function.update w.ts t deadline
    links := listInitialize w.links (.waiting t) }

/-- The part of `add_timer` with the sleeper `s`, the local variable `entry` being set. -/
def addSleeper (w : World) (s : Addr) (timer : Option Addr) : Option (Reply × World) :=
  (treeGet w.timerTree w.mem entry).bind fun p =>
    match p with
    | some t => some (.ok, w.listEnqueue t s)
    | none =>
      match w.timerSlab.alloc timer with
      | (none, _) => some (.nomem, { w with sleeperSlab := w.sleeperSlab.free s })
      | (some t, slab) =>
        let w := { w with timerSlab := slab }
        (treePut w.timerTree w.mem entry t).bind fun x =>
          let w := { w with tree := x.1, mem := x.2.1 }
          match x.2.2 with
          | none =>
            some (.sys, { w with
              timerSlab := w.timerSlab.free t
              sleeperSlab := w.sleeperSlab.free s })
          | some _ => some (.ok, (w.newTimer t (w.ts entry)).listEnqueue t s)

def addTimer (w : World) (ts : Timespec) (tag : ℕ) (sleeper timer : Option Addr) :
    Option (Reply × World) :=
  if ts.sec < 0 ∨ ts.nsec < 0 then some (.par, w)
  else if ts.sec = 0 ∧ ts.nsec = 0 then some (.tmout, w)
  else
    let w := { w with ts := Function.update w.ts entry (timespecAdd w.systemTime ts) }
    match w.sleeperSlab.alloc sleeper with
    | (none, _) => some (.nomem, w)
    | (some s, slab) =>
      addSleeper { w with
        sleeperSlab := slab
        links := listInitialize w.links (.brothers s)
        tag := Function.update w.tag s tag } s timer

def World.detach (w : World) (t : Addr) : World :=
  if w.links.next (.waiting t) = .waiting t then w
  else
    { w with
      links := listRemove w.links (.waiting t)
      deferred := w.deferred ++ [w.links.next (.waiting t)] }

def World.freeTimer (w : World) : Option Addr → World
  | none => w
  | some t => { w with timerSlab := w.timerSlab.free t }

def serviceLoop (now : Timespec) : ℕ → World → Option World
  | 0, _ => none
  | n + 1, w =>
    (treeFirst w.timerTree w.mem).bind fun p =>
      match p with
      | none => some w
      | some t =>
        if timespecCompare now (w.ts t) < 0 then some w
        else
          let w := w.detach t
          (treeRemove w.timerTree w.mem t).bind fun x =>
            serviceLoop now n ({ w with tree := x.1, mem := x.2.1 }.freeTimer x.2.2)

def tickNsec : ℤ := 1000 * 1000 * 1000 / 100

def timerService (w : World) : Option World :=
  let w := { w with systemTime := timespecAdd w.systemTime ⟨0, tickNsec⟩ }
  serviceLoop w.systemTime (w.timerSlab.live.length + 1) w

def wakeupLoop : ℕ → World → Option World
  | 0, _ => none
  | n + 1, w =>
    match listPick w.links .guard with
    | (some (.brothers s), links) =>
      wakeupLoop n { w with
        links := links
        sent := w.tag s :: w.sent
        sleeperSlab := w.sleeperSlab.free s }
    | (some _, _) => none
    | (none, links) => some { w with links := links }

def wakeup (w : World) (p : ListNode) : Option World :=
  wakeupLoop (w.sleeperSlab.live.length + 1) { w with links := listAppend w.links p .guard }

inductive Event where
  | sleep (ts : Timespec) (tag : ℕ) (sleeper timer : Option Addr)
  | tick
  | deferredCall

def step (w : World) : Event → Option (Reply × World)
  | .sleep ts tag sleeper timer => addTimer w ts tag sleeper timer
  | .tick => (timerService w).map (.ok, ·)
  | .deferredCall =>
    match w.deferred with
    | [] => some (.ok, w)
    | p :: deferred => (wakeup { w with deferred := deferred } p).map (.ok, ·)

def World.start (systemTime : Timespec) (links : Links ListNode) : World where
  systemTime := systemTime
  ts := fun _ => ⟨0, 0⟩
  tag := fun _ => 0
  links := links
  mem := fun _ => ⟨0, 0, AaTree.nilNode, AaTree.nilNode⟩
  tree := AaTree.treeCreate none
  timerSlab := ⟨[], false⟩
  sleeperSlab := ⟨[], false⟩
  deferred := []
  sent := []

end Eotan.Timer
