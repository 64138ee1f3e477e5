import Eotan.Kernel.Thread

/-!
`ipc.c`: ports and rendezvous. The copies between the caller's and the receiver's memory succeed
or fail as the arguments say. The steps of the kernel: a call of the running thread, the rest of a
call it had blocked in, and what the interrupts do.
-/

namespace Eotan.Kernel

open Eotan.Sequence

def taTfifo : ℕ := 0x00

def boot : State where
  threads := Function.update (fun _ => none) portIdle
    (some { setup maxPriority with status := .run, priority := maxPriority })
  running := portIdle
  queues := fun _ => []
  readyTask := Function.update (fun _ => []) maxPriority [portIdle]
  readyBits := 1#32 <<< maxPriority
  noRequest := true
  delayThreadStart := false
  replies := fun _ => none
  replySequence := (sequenceGet (sequenceInitialize maxThread)).2

structure CreatePort where
  poratr : ℕ
  maxcmsz : ℕ
  maxrmsz : ℕ

def ipcOpen (s : State) (pk : Option CreatePort) : Option Outcome :=
  match pk with
  | none => some ⟨s, some ePar, none, none⟩
  | some pk =>
    if pk.poratr ≠ taTfifo then some ⟨s, some eRsatr, none, none⟩
    else do
      let th ← s.threads s.running
      if th.port.opened then leave s eObj
      else
        leave (clearPort (s.set s.running
          (th.setPort ⟨true, th.port.flag, pk.poratr, pk.maxcmsz, pk.maxrmsz⟩)) s.running) eOk

def ipcClose (s : State) : Option Outcome := do
  let th ← s.threads s.running
  if th.port.opened = false then leaveAndDispatch s eObj
  else
    let s := s.set s.running (th.setPort { th.port with opened := false })
    let s ← releaseAll s (.receiver s.running)
    let s ← releaseAll s (.caller s.running)
    leaveAndDispatch s eOk

def releaseRendezvous (s : State) (key : ℕ) : State :=
  if (s.replies key).isSome then
    { s with
      replies := Function.update s.replies key none
      replySequence := sequenceRelease s.replySequence key }
  else s

def openRendezvous (s : State) (q : Seq) (key max : ℕ) : State :=
  { s with
    replySequence := q
    replies := Function.update s.replies key (some max)
    queues := Function.update s.queues (.reply key) [] }

def block (s : State) (g : Guard) (f : Wait → Wait) (cont : Cont) : Option State := do
  let s ← listEnqueue s g s.running
  let th ← s.threads s.running
  wait (s.set s.running (th.setWait (f th.wait))) cont

def ipcCallRendezvous (s : State) (portId message size key : ℕ) (copyOk : Bool) :
    Option Outcome :=
  let tag := createIpcTag s.running key
  match s.queues (.receiver portId) with
  | tp :: _ =>
    if copyOk = false then leave (releaseRendezvous s key) ePar
    else do
      let s ← wake s tp fun w => { w with size := size, key := tag }
      let s ← block s (.reply key) (fun w => { w with type := .reply, message := message })
        (.call key)
      some ⟨s, none, none, some tag⟩
  | [] => do
    let s ← block s (.caller portId)
      (fun w => { w with size := size, key := tag, type := .call, message := message }) (.call key)
    some ⟨s, none, none, none⟩

def ipcCall (s : State) (portId message size : ℕ) (allocOk copyOk : Bool) : Option Outcome :=
  match s.threads portId with
  | none => leave s eNoexs
  | some th =>
    if th.port.opened = false then leave s eNoexs
    else if size > th.port.maxCall then leave s ePar
    else
      match sequenceGet s.replySequence with
      | (none, q) => leave { s with replySequence := q } eNoid
      | (some key, q) =>
        if allocOk = false then leave { s with replySequence := sequenceRelease q key } eNomem
        else if (s.replies key).isSome then
          leave { s with replySequence := sequenceRelease q key } eSys
        else
          ipcCallRendezvous (openRendezvous s q key th.port.maxReply) portId message size key copyOk

def ipcReceive (s : State) (portId message : ℕ) (copyOk : Bool) : Option Outcome := do
  let self ← s.threads s.running
  if self.port.flag ≠ 0 then
    leave (s.set s.running (self.setFlag 0)) eRlwai
  else
    match s.threads portId with
    | none => leave s eNoexs
    | some th =>
      if th.port.opened = false then leave s eNoexs
      else
        match s.queues (.caller portId) with
        | tp :: _ => do
          let caller ← s.threads tp
          let size : ℤ := caller.wait.size
          let tag := caller.wait.key
          if copyOk = false then leave s ePar
          else
            match caller.wait.type with
            | .call => do
              let s ← listRemove s tp
              -- without an entry the enqueue would go through NULL
              let _ ← s.replies (keyOfIpc tag)
              let s ← listEnqueue s (.reply (keyOfIpc tag)) tp
              let caller ← s.threads tp
              let s := s.set tp (caller.setWait { caller.wait with type := .reply })
              let s ← leaveSerialize s
              some ⟨s, some size, some tag, some tag⟩
            | .send => do
              let s ← wake s tp id
              let s ← leaveSerialize s
              some ⟨s, some size, some tag, some tag⟩
            | _ => do
              let s ← listRemove s tp
              let s ← leaveSerialize s
              some ⟨s, some size, some tag, some tag⟩
        | [] => do
          let s ← block s (.receiver portId)
            (fun w => { w with message := message, type := .receive }) .receive
          some ⟨s, none, none, none⟩

def reply (s : State) (key size : ℕ) (copyOk : Bool) : Option Outcome :=
  match s.replies key with
  | none => leave (releaseRendezvous s key) eObj
  | some maxReply =>
    if size > maxReply then leave (releaseRendezvous s key) ePar
    else
      match s.queues (.reply key) with
      | tp :: _ =>
        if copyOk = false then leave (releaseRendezvous s key) ePar
        else do
          let s ← wake s tp fun w => { w with size := size }
          leaveAndDispatch (releaseRendezvous s key) eOk
      | [] => leaveAndDispatch (releaseRendezvous s key) eObj

def send (s : State) (portId message size : ℕ) (copyOk : Bool) : Option Outcome :=
  match s.threads portId with
  | none => leave s eNoexs
  | some th =>
    if th.port.opened = false then leave s eNoexs
    else if size > th.port.maxCall then leave s ePar
    else
      let tag := createIpcTag s.running 0
      match s.queues (.receiver portId) with
      | tp :: _ =>
        if copyOk = false then leave s ePar
        else do
          let s ← wake s tp fun w => { w with size := size, key := tag }
          let s ← leaveSerialize s
          some ⟨s, some eOk, none, some tag⟩
      | [] => do
        let s ← block s (.caller portId)
          (fun w => { w with size := size, message := message, key := tag, type := .send }) .send
        some ⟨s, none, none, none⟩

def ipcSend (s : State) (tag message size : ℕ) (copyOk : Bool) : Option Outcome :=
  if keyOfIpc tag ≠ 0 then reply s (keyOfIpc tag) size copyOk
  else send s tag message size copyOk

def ipcListen (s : State) : Option Outcome := do
  let th ← s.threads s.running
  if th.port.flag ≠ 0 then
    leave (s.set s.running (th.setFlag 0)) eOk
  else
    let s := s.set s.running (th.setWait { th.wait with type := .flag })
    (wait s .listen).map fun s => ⟨s, none, none, none⟩

def ipcNotify (s : State) (portId flag : ℕ) : Option Outcome := do
  let (s, code) ← notify s portId flag
  leave s code

def finish (s : State) : Option Outcome := do
  let th ← s.threads s.running
  let s := s.set s.running (th.setCont .user)
  match th.cont with
  | .user => none
  | .call key =>
    if th.wait.result ≠ 0 then leave (releaseRendezvous s key) th.wait.result
    else some ⟨s, some th.wait.size, none, none⟩
  | .receive =>
    if th.wait.result ≠ 0 then leave s th.wait.result
    else (leaveSerialize s).map fun s => ⟨s, some th.wait.size, some th.wait.key, none⟩
  | .send | .listen => some ⟨s, some th.wait.result, none, none⟩

inductive Op where
  | ipcOpen (pk : Option CreatePort)
  | ipcClose
  | ipcCall (portId message size : ℕ) (allocOk copyOk : Bool)
  | ipcReceive (portId message : ℕ) (copyOk : Bool)
  | ipcSend (tag message size : ℕ) (copyOk : Bool)
  | ipcListen
  | ipcNotify (portId flag : ℕ)
  | threadCreate (id tskatr itskpri stksz : ℕ) (allocOk stackOk : Bool)
  | threadDestroy (id : ℕ)
  | threadStart (id : ℕ)
  | threadEnd
  | threadTerminate (id : ℕ)
  | threadSuspend (id : ℕ)
  | threadResume (id : ℕ)
  | readyRotate (priority id : ℕ)

def apply (s : State) : Op → Option Outcome
  | .ipcOpen pk => ipcOpen s pk
  | .ipcClose => ipcClose s
  | .ipcCall portId message size allocOk copyOk => ipcCall s portId message size allocOk copyOk
  | .ipcReceive portId message copyOk => ipcReceive s portId message copyOk
  | .ipcSend tag message size copyOk => ipcSend s tag message size copyOk
  | .ipcListen => ipcListen s
  | .ipcNotify portId flag => ipcNotify s portId flag
  | .threadCreate id tskatr itskpri stksz allocOk stackOk =>
    threadCreate s id tskatr itskpri stksz allocOk stackOk
  | .threadDestroy id => threadDestroy s id
  | .threadStart id => threadStart s id
  | .threadEnd => threadEnd s
  | .threadTerminate id => threadTerminate s id
  | .threadSuspend id => threadSuspend s id
  | .threadResume id => threadResume s id
  | .readyRotate priority id => readyRotate s priority id

/-- `switch` lets any ready thread run next, so that runs cover every interleaving, those of the
dispatcher among them; `request` and `timer` are what an interrupt leaves for `dispatch`. -/
inductive Event where
  | op (o : Op)
  | finish
  | switch (next : ℕ)
  | request
  | timer

def quiet (s : State) : Outcome := ⟨s, none, none, none⟩

def step (s : State) : Event → Option Outcome
  | .op o => do
    let th ← s.threads s.running
    if th.cont = .user then apply s o else none
  | .finish => finish s
  | .switch next => do
    let th ← s.threads next
    if th.status = .rdy ∧ next ≠ s.running then (switchTo s next).map quiet else none
  | .request => some (quiet { s with noRequest := false })
  | .timer => some (quiet { s with delayThreadStart := true })

def run (s : State) : List Event → Option State
  | [] => some s
  | e :: es => do
    let o ← step s e
    run o.state es

end Eotan.Kernel
