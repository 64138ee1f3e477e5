import Eotan.Fs.Tfs

/-!
The semaphores of the process server (`semaphore.c`), and what the death of a thread does to them
(`destroy_threads`). A semaphore is named by the physical address that it stands for.
-/

namespace Eotan.Mm

open Fs (Errno)

def longMax : ℤ := 2 ^ 31 - 1
def longMin : ℤ := -2 ^ 31

structure Semaphore where
  count : ℤ
  threads : List ℕ
  deriving DecidableEq

structure Wait where
  obj : ℕ
  tag : ℕ
  deriving DecidableEq

structure Sems where
  tree : ℕ → Option Semaphore
  threads : ℕ → Option (Option Wait)

/-- What a step sends. The keys of the semaphores are not part of the messages. -/
inductive Effect where
  | failed (tag : ℕ) (e : Errno)
  | acquired (key tag : ℕ)
  | busy (key tag : ℕ)
  | waiting (key tag : ℕ)
  | released (key tag : ℕ) (amount result : ℤ)
  | granted (key tag : ℕ)
  | died (key tag : ℕ)
  deriving DecidableEq

namespace Sems

def setSemaphore (s : Sems) (key : ℕ) (sem : Semaphore) : Sems :=
  { s with tree := Function.update s.tree key (some sem) }

def setWait (s : Sems) (tid : ℕ) (wait : Option Wait) : Sems :=
  { s with threads := Function.update s.threads tid (some wait) }

def tagOf (s : Sems) (tid : ℕ) : ℕ :=
  match s.threads tid with
  | some (some wait) => wait.tag
  | _ => 0

/-- `_find`. `found` is the physical address, or the error of the search for the page; `slab` is
the error of `slab_alloc`, if a semaphore is to be made and cannot be. -/
def find (s : Sems) (found : Except Errno ℕ) (slab : Option Errno) :
    Except Errno (ℕ × Semaphore × Sems) :=
  match found with
  | .error e => .error e
  | .ok key =>
    match s.tree key with
    | some sem => .ok (key, sem, s)
    | none =>
      match slab with
      | some e => .error e
      | none => .ok (key, ⟨0, []⟩, s.setSemaphore key ⟨0, []⟩)

def grants : ℤ → List ℕ → ℤ × List ℕ × List ℕ
  | count, [] => (count, [], [])
  | count, tid :: rest =>
    if 0 < count then
      match grants (count - 1) rest with
      | (left, granted, waiting) => (left, tid :: granted, waiting)
    else (count, [], tid :: rest)

def release (s : Sems) (key : ℕ) (sem : Semaphore) : List Effect × Sems :=
  match grants sem.count sem.threads with
  | (left, granted, waiting) =>
    (granted.map fun tid => .granted key (s.tagOf tid),
      granted.foldl (fun s tid => s.setWait tid none) (s.setSemaphore key ⟨left, waiting⟩))

def semacquire (s : Sems) (tid tag : ℕ) (found : Except Errno ℕ) (slab : Option Errno)
    (block : Bool) : List Effect × Sems :=
  match s.threads tid with
  | none => ([.failed tag .eperm], s)
  | some _ =>
    match s.find found slab with
    | .error e => ([.failed tag e], s)
    | .ok (key, sem, s) =>
      if 0 < sem.count then
        ([.acquired key tag], s.setSemaphore key { sem with count := sem.count - 1 })
      else if block = true then
        ([.waiting key tag], (s.setWait tid (some ⟨key, tag⟩)).setSemaphore key
          { sem with threads := sem.threads ++ [tid] })
      else ([.busy key tag], s)

def overflows (count amount : ℤ) : Bool :=
  if 0 < count then decide (longMax - count < amount) else decide (amount < longMin - count)

def semrelease (s : Sems) (tid tag : ℕ) (found : Except Errno ℕ) (slab : Option Errno)
    (amount : Int32) : List Effect × Sems :=
  match s.threads tid with
  | none => ([.failed tag .eperm], s)
  | some _ =>
    match s.find found slab with
    | .error e => ([.failed tag e], s)
    | .ok (key, sem, s) =>
      if overflows sem.count amount.toInt then ([.failed tag .einval], s)
      else
        let sem := { sem with count := sem.count + amount.toInt }
        match s.release key sem with
        | (out, s) => (out ++ [.released key tag amount.toInt sem.count], s)

def destroyThread (s : Sems) (tid : ℕ) : List Effect × Sems :=
  match s.threads tid with
  | none => ([], s)
  | some none => ([], { s with threads := Function.update s.threads tid none })
  | some (some wait) =>
    let s := { s with threads := Function.update s.threads tid none }
    ([.died wait.obj wait.tag],
      match s.tree wait.obj with
      | none => s
      | some sem => s.setSemaphore wait.obj { sem with threads := sem.threads.erase tid })

def createThread (s : Sems) (tid : ℕ) : Sems := s.setWait tid none

end Sems

inductive SemStep where
  | acquire (tid tag : ℕ) (found : Except Errno ℕ) (slab : Option Errno) (block : Bool)
  | release (tid tag : ℕ) (found : Except Errno ℕ) (slab : Option Errno) (amount : Int32)
  | create (tid : ℕ)
  | destroy (tid : ℕ)

def Sems.step (s : Sems) : SemStep → List Effect × Sems
  | .acquire tid tag found slab block => s.semacquire tid tag found slab block
  | .release tid tag found slab amount => s.semrelease tid tag found slab amount
  | .create tid => ([], s.createThread tid)
  | .destroy tid => s.destroyThread tid

def Sems.run (s : Sems) : List SemStep → List Effect × Sems
  | [] => ([], s)
  | step :: steps =>
    let r := s.step step
    let r' := Sems.run r.2 steps
    (r.1 ++ r'.1, r'.2)

def Sems.start : Sems := ⟨fun _ => none, fun _ => none⟩

end Eotan.Mm
