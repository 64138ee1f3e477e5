import Eotan.Kernel.State

/-!
`thread.c`. Allocation of the thread object and of its stack succeed or fail as the arguments say.
-/

namespace Eotan.Kernel

def taAsm : ℕ := 0x01
def taAct : ℕ := 0x02
def tskSelf : ℕ := 0
def kthreadStackSize : ℕ := 4 * 1024

def setup (priority : ℕ) : Thread where
  status := .dmt
  wait := ⟨.none, none, 0, 0, 0, 0⟩
  priority := 0
  attrPriority := priority
  port := ⟨false, 0, 0, 0, 0⟩
  cont := .user

def fire (s : State) (t : ℕ) : Option Outcome := do
  let th ← s.threads t
  let th := { (th.setFlag 0).setStatus .rdy with priority := th.attrPriority, cont := .user }
  let s ← readyEnqueue (s.set t th) th.priority t
  leaveAndDispatch s eOk

def threadCreate (s : State) (id tskatr itskpri stksz : ℕ) (allocOk stackOk : Bool) :
    Option Outcome :=
  if id < minManualId ∨ id > maxAutoId then some ⟨s, some eId, none, none⟩
  else if tskatr &&& taAsm ≠ 0 then some ⟨s, some eRsatr, none, none⟩
  else if stksz ≠ kthreadStackSize then some ⟨s, some ePar, none, none⟩
  else if allocOk = false then leave s eNomem
  else if (s.threads id).isSome then leave s eObj
  else if stackOk = false then leave s eNomem
  else
    -- clearing the object clears the two list heads of its port
    let s := clearPort (s.set id (setup itskpri)) id
    if tskatr &&& taAct ≠ 0 then fire s id else leave s eOk

def threadDestroy (s : State) (id : ℕ) : Option Outcome :=
  match s.threads id with
  | none => leave s eNoexs
  | some th =>
    if th.status ≠ .dmt then leave s eObj
    else leave { s with threads := Function.update s.threads id none } eOk

def threadStart (s : State) (id : ℕ) : Option Outcome :=
  let id := if id = tskSelf then s.running else id
  match s.threads id with
  | none => leave s eNoexs
  | some th => if th.status ≠ .dmt then leave s eQovr else fire s id

def threadEnd (s : State) : Option Outcome := do
  let th ← s.threads s.running
  leaveAndDispatch ((readyRemove s s.running).set s.running (th.setStatus .dmt)) eOk

/-- `thread_terminate`; a thread that is terminated loses the call it was in. -/
def threadTerminate (s : State) (id : ℕ) : Option Outcome :=
  match s.threads id with
  | none => leave s eNoexs
  | some th =>
    match th.status with
    | .run => leave s eIluse
    | .rdy => leave ((readyRemove s id).set id ((th.setStatus .dmt).setCont .user)) eOk
    | .wai | .was =>
      if th.wait.type ≠ .none then do
        let s ← listRemove s id
        let th ← s.threads id
        leave (s.set id (((th.setWait { th.wait with type := .none }).setStatus .dmt).setCont .user))
          eOk
      else leave (s.set id ((th.setStatus .dmt).setCont .user)) eOk
    | .sus => leave (s.set id ((th.setStatus .dmt).setCont .user)) eOk
    | .dmt => leave s eObj

def threadSuspend (s : State) (id : ℕ) : Option Outcome :=
  let t := if id = tskSelf then s.running else id
  match s.threads t with
  | none => leave s eNoexs
  | some th =>
    match th.status with
    | .run =>
      let s := readyRemove (s.set t (th.setStatus .sus)) t
      if id = tskSelf then leaveAndDispatch s eOk else leave s eOk
    | .rdy => leave (readyRemove (s.set t (th.setStatus .sus)) t) eOk
    | .wai => leave (s.set t (th.setStatus .was)) eOk
    | .sus | .was => leave s eQovr
    | .dmt => leave s eObj

def threadResume (s : State) (id : ℕ) : Option Outcome :=
  match s.threads id with
  | none => leave s eNoexs
  | some th =>
    match th.status with
    | .sus => do
      let s ← readyEnqueue (s.set id (th.setStatus .rdy)) th.priority id
      leaveAndDispatch s eOk
    | .was => leave (s.set id (th.setStatus .wai)) eOk
    | _ => leave s eObj

end Eotan.Kernel
