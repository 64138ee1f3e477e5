import Eotan.Fs.Tfs
import Eotan.Mm.IdStore

/-!
The processes of the process server as a family (`process_duplicate`, `process_release_body`,
`process_destroy` of `process.c`; `mm_rfork`, `mm_wait`, `mm_exit`, `mm_kill` of `pm.c`). Here the
memory and the files of a process only decide whether a fork succeeds. `mm_exit` and `mm_kill` close
the files of the process before they destroy it, and other requests are served in the meantime.
-/

namespace Eotan.Mm

open Fs (Errno)
open Sequence (Seq sequenceGet sequenceRelease)

inductive Status where
  | null
  | active
  | dying
  | dead
  | group
  deriving DecidableEq

structure Proc where
  ppid : ℕ
  pgid : ℕ
  uid : ℕ
  status : Status
  exitStatus : ℤ
  tag : Option ℕ
  deriving DecidableEq

structure Tree where
  procs : ℕ → Option Proc
  children : ℕ → List ℕ
  members : ℕ → List ℕ
  sequence : Seq

inductive TreeEvent where
  | failed (pid : ℕ) (e : Errno)
  | forked (child parent : ℕ) (waited : Bool)
  | waits (pid tag : ℕ)
  | died (pid : ℕ) (status : ℤ) (waited : Bool)
  | reaped (parent tag child : ℕ) (status : ℤ)
  | dropped (tag : ℕ)
  | freed (pid : ℕ)
  deriving DecidableEq

def initPid : ℕ := 1

namespace Tree

def set (t : Tree) (p : ℕ) (proc : Proc) : Tree :=
  { t with procs := Function.update t.procs p (some proc) }

def unlink (t : Tree) (p : ℕ) : Tree := { t with children := fun q => (t.children q).erase p }

def leaveGroup (t : Tree) (p : ℕ) : Tree := { t with members := fun l => (t.members l).erase p }

def isDead (t : Tree) (p : ℕ) : Bool :=
  match t.procs p with
  | some proc => proc.status = .dead
  | none => false

def destroyBody (t : Tree) (p : ℕ) : List TreeEvent × Tree :=
  ([.freed p], { t with
    procs := Function.update t.procs p none
    sequence := sequenceRelease t.sequence p })

def destroyLeader (t : Tree) (pgid : ℕ) : List TreeEvent × Tree :=
  match t.procs pgid with
  | none => ([], t)
  | some leader =>
    if leader.status = .group ∧ t.members pgid = [] then t.destroyBody pgid else ([], t)

def destroyFrame (t : Tree) (p : ℕ) (proc : Proc) : List TreeEvent × Tree :=
  let sent := proc.tag.toList.map TreeEvent.dropped
  let proc := { proc with tag := none }
  let t := (t.unlink p).set p proc
  if proc.pgid = p ∧ t.members p ≠ [] then (sent, t.set p { proc with status := .group })
  else if proc.pgid ≠ p ∧ proc.pgid ≠ 0 then
    let r := (t.leaveGroup p).destroyLeader proc.pgid
    let r' := r.2.destroyBody p
    (sent ++ r.1 ++ r'.1, r'.2)
  else
    let r := t.destroyBody p
    (sent ++ r.1, r.2)

def releaseBody (t : Tree) (q : ℕ) (proc : Proc) : List TreeEvent × Tree :=
  match (t.children q).find? t.isDead with
  | none => ([], t)
  | some c =>
    let t := t.set q { proc with tag := none }
    match t.procs c with
    | none => ([], t)
    | some child =>
      let r := t.destroyFrame c child
      (r.1 ++ [.reaped q (proc.tag.getD 0) c (child.exitStatus % 256)], r.2)

def notify (t : Tree) (q : ℕ) (proc : Proc) : List TreeEvent × Tree :=
  if proc.tag.isSome = true then t.releaseBody q proc else ([], t)

def adopt (t : Tree) (c : ℕ) : Tree :=
  { t with
    procs := Function.update t.procs c ((t.procs c).map fun proc => { proc with ppid := initPid })
    children := Function.update t.children initPid (c :: t.children initPid) }

def adoptAll (t : Tree) (p : ℕ) : Tree :=
  (t.children p).foldl adopt { t with children := Function.update t.children p [] }

def abandon (r : List TreeEvent × Tree) (c : ℕ) : List TreeEvent × Tree :=
  match r.2.procs c with
  | none => r
  | some proc =>
    if proc.status = .dead then
      let r' := r.2.destroyFrame c proc
      (r.1 ++ r'.1, r'.2)
    else (r.1, r.2.set c { proc with ppid := 0 })

def leaveChildren (t : Tree) (p : ℕ) : List TreeEvent × Tree :=
  match if p = initPid then none else t.procs initPid with
  | none =>
    (t.children p).foldl abandon ([], { t with children := Function.update t.children p [] })
  | some _ =>
    let t' := t.adoptAll p
    match t'.procs initPid with
    | none => ([], t')
    | some init => if (t.children p).any t.isDead then t'.notify initPid init else ([], t')

def leaveParent (t : Tree) (p : ℕ) : List TreeEvent × Tree :=
  match t.procs p with
  | none => ([], t)
  | some proc =>
    match if proc.ppid = 0 then none else t.procs proc.ppid with
    | none => t.destroyFrame p proc
    | some parent => t.notify proc.ppid parent

def processDestroy (t : Tree) (p : ℕ) (proc : Proc) (status : ℤ) : List TreeEvent × Tree :=
  let proc := { proc with
    exitStatus := status
    ppid := if proc.status = .null then 0 else proc.ppid
    status := .dead }
  let r := (t.set p proc).leaveChildren p
  let r' := r.2.leaveParent p
  (.died p status (proc.ppid ≠ 0) :: r.1 ++ r'.1, r'.2)

/-- Where `mm_rfork` fails once it has an id: in `process_create`, in `_copy_segments`, or later. -/
inductive ForkEnd where
  | create (e : Errno)
  | segments (e : Errno)
  | later (e : Errno)
  | success

/-- `process_create`. `stale` is what the memory of the new process held before. -/
def create (t : Tree) (p : ℕ) (stale : Proc) : Tree :=
  { t with
    children := Function.update t.children p []
    members := Function.update t.members p [] }.set p { stale with status := .null, tag := none }

def joinParent (t : Tree) (src p : ℕ) (dest : Proc) (nowait : Bool) : Proc × Tree :=
  if nowait = true then ({ dest with ppid := 0 }, t)
  else ({ dest with ppid := src },
    { t with children := Function.update t.children src (t.children src ++ [p]) })

def joinGroup (t : Tree) (pgid p : ℕ) (dest : Proc) (noteg : Bool) : Proc × Tree :=
  if noteg = true then ({ dest with pgid := p }, t)
  else
    match t.procs pgid with
    | none => ({ dest with pgid := 0 }, t)
    | some _ => ({ dest with pgid := pgid },
        { t with members := Function.update t.members pgid (t.members pgid ++ [p]) })

def link (t : Tree) (src : ℕ) (proc : Proc) (p : ℕ) (dest : Proc) (nowait noteg : Bool) :
    Proc × Tree :=
  let r := t.joinParent src p dest nowait
  let r' := r.2.joinGroup proc.pgid p r.1 noteg
  let dest := { r'.1 with uid := proc.uid }
  (dest, r'.2.set p dest)

/-- `mm_rfork`; a fork that fails ends the new process with the status of SIGKILL. -/
def rfork (t : Tree) (src : ℕ) (proc : Proc) (nowait noteg : Bool) (stale : Proc) (ending : ForkEnd) :
    List TreeEvent × Tree :=
  match sequenceGet t.sequence with
  | (none, sequence) => ([.failed src .eagain], { t with sequence := sequence })
  | (some p, sequence) =>
    let t := { t with sequence := sequence }
    let dest := { stale with status := .null, tag := none }
    match ending with
    | .create e => ([.failed src e], { t with sequence := sequenceRelease t.sequence p })
    | .segments e =>
      let r := (t.create p stale).processDestroy p dest 137
      (r.1 ++ [.failed src e], r.2)
    | .later e =>
      let r := (t.create p stale).link src proc p dest nowait noteg
      let r' := r.2.processDestroy p r.1 137
      (r'.1 ++ [.failed src e], r'.2)
    | .success =>
      let r := (t.create p stale).link src proc p dest nowait noteg
      ([.forked p src !nowait], r.2.set p { r.1 with status := .active })

end Tree

/-- The tree, and the processes whose files are being closed, with the status they will have. -/
structure Family where
  tree : Tree
  closing : List (ℕ × ℤ)

inductive FamilyStep where
  | rfork (pid : ℕ) (nowait noteg : Bool) (stale : Proc) (ending : Tree.ForkEnd)
  | wait (pid tag : ℕ)
  | exit (pid : ℕ) (status : ℤ)
  /-- `mm_kill` from a process; `pnproc` tells that the first argument is PNPROC. -/
  | kill (pid target : ℕ) (pnproc : Bool) (status : ℤ)
  | signal (pid : ℕ) (no : ℤ)
  | closed (pid : ℕ) (status : ℤ)

namespace Family

/-- The process of the calling thread; the threads of a process go with `process_destroy`. -/
def caller (f : Family) (pid : ℕ) : Option Proc :=
  match f.tree.procs pid with
  | none => none
  | some proc => if proc.status = .active ∨ proc.status = .dying then some proc else none

def close (f : Family) (pid : ℕ) (proc : Proc) (status : ℤ) : Family :=
  ⟨f.tree.set pid { proc with status := .dying }, f.closing ++ [(pid, status)]⟩

def step (f : Family) : FamilyStep → List TreeEvent × Family
  | .rfork pid nowait noteg stale ending =>
    match f.caller pid with
    | none => ([.failed pid .eperm], f)
    | some proc =>
      let r := f.tree.rfork pid proc nowait noteg stale ending
      (r.1, { f with tree := r.2 })
  | .wait pid tag =>
    match f.caller pid with
    | none => ([.failed pid .eperm], f)
    | some proc =>
      if f.tree.children pid = [] then ([.failed pid .echild], f)
      else
        let proc := { proc with tag := some tag }
        let r := (f.tree.set pid proc).releaseBody pid proc
        (.waits pid tag :: r.1, { f with tree := r.2 })
  | .exit pid status =>
    match f.caller pid with
    | none => ([.failed pid .eperm], f)
    | some proc => ([], f.close pid proc status)
  | .kill pid target pnproc status =>
    match f.caller pid with
    -- without a calling thread the request is a signal
    | none => ([], f)
    | some proc =>
      match f.tree.procs target with
      | none => ([.failed pid .enoent], f)
      | some victim =>
        if victim.uid ≠ proc.uid then ([.failed pid .eacces], f)
        else if pnproc = false then ([.failed pid .enoent], f)
        else if victim.status ≠ .active then ([.failed pid .enotsup], f)
        else ([], f.close target victim status)
  | .signal pid no =>
    match f.caller pid with
    | none => ([.failed pid .eperm], f)
    | some proc => ([], f.close pid proc (128 + no))
  | .closed pid status =>
    if (pid, status) ∈ f.closing then
      let f := { f with closing := f.closing.erase (pid, status) }
      match f.tree.procs pid with
      | none => ([], f)
      | some proc =>
        let r := f.tree.processDestroy pid proc status
        (r.1, { f with tree := r.2 })
    else ([], f)

def run (f : Family) : List FamilyStep → List TreeEvent × Family
  | [] => ([], f)
  | s :: steps =>
    let r := f.step s
    let r' := Family.run r.2 steps
    (r.1 ++ r'.1, r'.2)

def start : Family where
  tree := {
    procs := Function.update (fun _ => none) initPid (some ⟨0, initPid, 0, .active, 0, none⟩)
    children := fun _ => []
    members := fun _ => []
    sequence := (sequenceGet createIdStore).2 }
  closing := []

end Family

end Eotan.Mm
