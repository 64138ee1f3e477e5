import Eotan.Set.Sequence
import Mathlib.Tactic.Simps.Basic

/-!
The kernel's data and the functions every kernel section is made of (`thread.h`, `wait.h`, `ipc.h`,
`list.c`, `ready.c`, `sync.c`, `ipc_utils.h`). A section runs between `enter_serialize` and
`leave_serialize`, so it is one function on the state; `none` is a NULL or dangling dereference.
-/

namespace Eotan.Kernel

open Eotan.Sequence

def maxThread : ℕ := 1024
def maxPriority : ℕ := 7
def minManualId : ℕ := 1
def maxAutoId : ℕ := 32767
def portIdle : ℕ := 1
def portDelay : ℕ := 2
def eventInterrupt : ℕ := 1

def eOk : ℤ := 0
def eSys : ℤ := -5
def eRsatr : ℤ := -11
def ePar : ℤ := -17
def eId : ℤ := -18
def eIluse : ℤ := -28
def eNomem : ℤ := -33
def eNoid : ℤ := -34
def eObj : ℤ := -41
def eNoexs : ℤ := -42
def eQovr : ℤ := -43
def eRlwai : ℤ := -49
def eDlt : ℤ := -51

def portOfIpc (tag : ℕ) : ℕ := tag % 2 ^ 16
def keyOfIpc (tag : ℕ) : ℕ := tag % 2 ^ 32 / 2 ^ 16
def createIpcTag (port key : ℕ) : ℕ := (key <<< 16 ||| port) % 2 ^ 32

theorem keyOfIpc_createIpcTag {port key : ℕ} (hp : port < 2 ^ 16) (hk : key < 2 ^ 16) :
    keyOfIpc (createIpcTag port key) = key := by
  have h := Nat.shiftLeft_add_eq_or_of_lt hp key
  rw [Nat.shiftLeft_eq] at h
  rw [keyOfIpc, createIpcTag, Nat.shiftLeft_eq, ← h]
  omega

theorem portOfIpc_createIpcTag {port key : ℕ} (hp : port < 2 ^ 16) :
    portOfIpc (createIpcTag port key) = port := by
  have h := Nat.shiftLeft_add_eq_or_of_lt hp key
  rw [Nat.shiftLeft_eq] at h
  rw [portOfIpc, createIpcTag, Nat.shiftLeft_eq, ← h]
  omega

inductive Status where
  | run | rdy | wai | sus | was | dmt
deriving DecidableEq, Repr

inductive WaitType where
  | none | flag | call | reply | receive | send
deriving DecidableEq, Repr

/-- A list head threads wait on: the two lists of a thread's port, the list of a reply entry. -/
inductive Guard where
  | caller (id : ℕ)
  | receiver (id : ℕ)
  | reply (key : ℕ)
deriving DecidableEq, Repr

structure Wait where
  type : WaitType
  waiting : Option Guard
  result : ℤ
  size : ℕ
  message : ℕ
  key : ℕ
deriving DecidableEq, Repr

structure Port where
  opened : Bool
  flag : ℕ
  attr : ℕ
  maxCall : ℕ
  maxReply : ℕ
deriving DecidableEq, Repr

/-- What a thread does when it is next given the processor: its own code, or the rest of the
kernel call it blocked in. `call` keeps the local `reply_key`. -/
inductive Cont where
  | user
  | call (key : ℕ)
  | receive
  | send
  | listen
deriving DecidableEq, Repr

structure Thread where
  status : Status
  wait : Wait
  priority : ℕ
  attrPriority : ℕ
  port : Port
  cont : Cont
deriving DecidableEq, Repr

@[simps]
def Thread.setStatus (th : Thread) (status : Status) : Thread := { th with status := status }

@[simps]
def Thread.setPort (th : Thread) (port : Port) : Thread := { th with port := port }

@[simps!]
def Thread.setFlag (th : Thread) (flag : ℕ) : Thread := th.setPort { th.port with flag := flag }

@[simps]
def Thread.setWait (th : Thread) (wait : Wait) : Thread := { th with wait := wait }

@[simps]
def Thread.setCont (th : Thread) (cont : Cont) : Thread := { th with cont := cont }

structure State where
  threads : ℕ → Option Thread
  running : ℕ
  queues : Guard → List ℕ
  readyTask : ℕ → List ℕ
  readyBits : BitVec 32
  noRequest : Bool
  delayThreadStart : Bool
  /-- `reply_tree`: the entry's `max_reply`; its list is `queues (reply key)`. -/
  replies : ℕ → Option ℕ
  replySequence : Seq

@[simps -fullyApplied]
def State.set (s : State) (t : ℕ) (th : Thread) : State :=
  { s with threads := Function.update s.threads t (some th) }

@[simp]
theorem State.set_set (s : State) (t : ℕ) (th th' : Thread) : (s.set t th).set t th' = s.set t th' := by
  simp [State.set]

def readyEnqueue (s : State) (pri t : ℕ) : Option State :=
  if pri ≤ maxPriority then
    some { s with
      readyBits := s.readyBits ||| 1#32 <<< pri
      readyTask := Function.update s.readyTask pri (s.readyTask pri ++ [t]) }
  else none

def readyRemove (s : State) (t : ℕ) : State :=
  { s with readyTask := fun p => (s.readyTask p).filter (· ≠ t) }

/-- `list_remove(&(th->wait.waiting))`; a thread that its list does not hold was left on a list
head that has been set up anew. -/
def listRemove (s : State) (t : ℕ) : Option State := do
  let th ← s.threads t
  match th.wait.waiting with
  | none => some s
  | some g =>
    if t ∈ s.queues g then
      some { s.set t (th.setWait { th.wait with waiting := none }) with
        queues := Function.update s.queues g ((s.queues g).erase t) }
    else none

def clearPort (s : State) (t : ℕ) : State :=
  { s with
    queues := Function.update (Function.update s.queues (.caller t) []) (.receiver t) [] }

def listEnqueue (s : State) (g : Guard) (t : ℕ) : Option State := do
  let th ← s.threads t
  some { s.set t (th.setWait { th.wait with waiting := some g }) with
    queues := Function.update s.queues g (s.queues g ++ [t]) }

@[simp]
def released : Status → Status
  | .wai => .rdy
  | .was => .sus
  | status => status

def release (s : State) (t : ℕ) : Option State := do
  let th ← s.threads t
  let s := s.set t
    ((th.setWait { th.wait with type := .none }).setStatus (released th.status))
  if th.status = .wai then readyEnqueue s th.priority t else some s

def wake (s : State) (t : ℕ) (f : Wait → Wait) : Option State := do
  let s ← listRemove s t
  let th ← s.threads t
  release (s.set t (th.setWait (f th.wait))) t

def releaseAll (s : State) (g : Guard) : Option State :=
  (s.queues g).foldlM (fun s t => wake s t fun w => { w with result := eDlt }) s

def notify (s : State) (portId flag : ℕ) : Option (State × ℤ) :=
  match s.threads portId with
  | none => some (s, eNoexs)
  | some th =>
    let raise := s.set portId (th.setFlag (th.port.flag ||| flag))
    match th.status with
    | .dmt => some (s, eObj)
    | .wai | .was =>
      if th.wait.type = .flag ∨ th.wait.type = .receive then do
        let s ← wake (s.set portId (th.setFlag 0)) portId fun w => { w with result := eRlwai }
        some (s, eOk)
      else some (raise, eOk)
    | _ => some (raise, eOk)

def readyDequeue (readyTask : ℕ → List ℕ) : ℕ → BitVec 32 → Option ℕ × BitVec 32
  | 0, bits => (none, bits)
  | fuel + 1, bits =>
    if bits = 0#32 then (none, bits)
    else
      let pri := countNtz bits
      match readyTask pri with
      | t :: _ => (some t, bits)
      | [] => readyDequeue readyTask fuel (bits &&& ~~~(1#32 <<< pri))

def switchTo (s : State) (next : ℕ) : Option State := do
  let prev ← s.threads s.running
  let s := if prev.status = .run then s.set s.running (prev.setStatus .rdy) else s
  let th ← s.threads next
  some { s.set next (th.setStatus .run) with running := next }

def startDelay (s : State) : Option State :=
  if s.delayThreadStart then
    (notify { s with delayThreadStart := false } portDelay eventInterrupt).map (·.1)
  else some s

def dispatch (s : State) : Option State := do
  let s ← startDelay { s with noRequest := true }
  let (next, bits) := readyDequeue s.readyTask 33 s.readyBits
  let s := { s with readyBits := bits }
  let next ← next
  if next = s.running then some s else switchTo s next

def leaveSerialize (s : State) : Option State := if s.noRequest then some s else dispatch s

def leaveSerializeAndDispatch (s : State) : Option State :=
  leaveSerialize { s with noRequest := false }

def wait (s : State) (cont : Cont) : Option State := do
  let th ← s.threads s.running
  let th := ((th.setWait { th.wait with result := eOk }).setStatus .wai).setCont cont
  leaveSerializeAndDispatch (readyRemove (s.set s.running th) s.running)

/-- How a call leaves the kernel. `ret` is `none` when the thread blocked; `tag` is stored through
the tag pointer of `ipc_receive`; `handed` is the tag that the call passed on to a receiver. -/
structure Outcome where
  state : State
  ret : Option ℤ
  tag : Option ℕ
  handed : Option ℕ

def leave (s : State) (code : ℤ) : Option Outcome :=
  (leaveSerialize s).map fun s => ⟨s, some code, none, none⟩

def leaveAndDispatch (s : State) (code : ℤ) : Option Outcome :=
  (leaveSerializeAndDispatch s).map fun s => ⟨s, some code, none, none⟩

def readyRotate (s : State) (priority t : ℕ) : Option Outcome :=
  match s.readyTask priority with
  | head :: h' :: rest =>
    if head = t then
      leave { s with
        readyTask := Function.update s.readyTask priority (h' :: rest ++ [head]) } eOk
    else leave s eOk
  | _ => leave s eOk

end Eotan.Kernel
