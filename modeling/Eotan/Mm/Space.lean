import Eotan.Mm.IdStore
import Eotan.Mm.Semaphore
import Eotan.Mpu.Paging

/-!
The memory of the processes (`process.c`, `mm_sbrk`): segments, stacks and page directories. Of the
slabs only the one for segments is seen in detail; whether an allocation from a slab succeeds, and
whether it takes a page for a new block, is left open.
-/

namespace Eotan.Mm

open Fs (Errno)
open Mpu
open Sequence (Seq sequenceRelease)

def userStackEndAddr : ℕ := 0x80000000
def userStackInitialSize : ℕ := 16 * 1024
def userStackMaxSize : ℕ := 1024 * 1024
def userHeapMaxAddr : ℕ := 1024 * 1024 * 1024
def processLocalAddr : ℕ := 0x7e001000
def processLocalSize : ℕ := 5 * 4 + 1024 + 1024
def initThreadId : ℕ := 1024

def sub32 (a b : ℕ) : ℕ := (a + (2 ^ 32 - b)) % 2 ^ 32

def attrReadable : ℕ := 1
def attrWritable : ℕ := 2
def attrExecutable : ℕ := 4
def attrExpandable : ℕ := 8
def attrBackward : ℕ := 16
def typeCode : ℕ := attrReadable ||| attrExecutable
def typeData : ℕ := attrReadable ||| attrWritable
def typeHeap : ℕ := attrReadable ||| attrWritable ||| attrExpandable
def typeStack : ℕ := attrReadable ||| attrWritable ||| attrExpandable ||| attrBackward

structure Segment where
  addr : ℕ
  len : ℕ
  max : ℕ
  attr : ℕ
  refCount : ℕ
  semaphores : List ℕ

structure Process where
  directory : ℕ
  code : Option ℕ
  data : Option ℕ
  heap : Option ℕ
  threads : List ℕ
  localPage : ℕ

structure Thread where
  process : ℕ
  stack : Segment

/-- What an operation of a slab comes to: an entry of a block that is there; with a block that is
allocated for it, or given back; the null pointer. -/
inductive SlabAnswer where
  | entry
  | block
  | null
  deriving DecidableEq

structure Spaces where
  machine : Machine
  answers : List SlabAnswer
  blocks : List ℕ
  segments : ℕ → Option Segment
  spareSegments : List ℕ
  processes : ℕ → Option Process
  threads : ℕ → Option Thread
  threadSequence : Seq
  kstacks : ℕ → Option ℕ
  sems : Sems
  sent : List Effect

namespace Spaces

def setMachine (s : Spaces) (m : Machine) : Spaces := { s with machine := m }

def setSegment (s : Spaces) (id : ℕ) (seg : Segment) : Spaces :=
  { s with segments := Function.update s.segments id (some seg) }

def setProcess (s : Spaces) (pid : ℕ) (p : Process) : Spaces :=
  { s with processes := Function.update s.processes pid (some p) }

def slabAlloc (s : Spaces) : Bool × Spaces :=
  match s.answers with
  | [] => (true, s)
  | .entry :: answers => (true, { s with answers := answers })
  | .null :: answers => (false, { s with answers := answers })
  | .block :: answers =>
    match s.machine.palloc with
    | (p, m) =>
      if p = 0 then (false, { s with answers := answers, machine := m })
      else (true, { s with answers := answers, machine := m, blocks := p :: s.blocks })

def slabFree (s : Spaces) : Spaces :=
  match s.answers with
  | [] => s
  | .block :: answers =>
    match s.blocks with
    | [] => { s with answers := answers }
    | p :: blocks => { s with answers := answers, blocks := blocks, machine := s.machine.pfree p }
  | _ :: answers => { s with answers := answers }

def allocSegment (s : Spaces) : Option ℕ × Spaces :=
  match s.slabAlloc with
  | (false, s) => (none, s)
  | (true, s) =>
    match s.spareSegments with
    | [] => (none, s)
    | id :: spare => (some id, { s with spareSegments := spare })

def freeSegment (s : Spaces) (id : ℕ) : Spaces :=
  { s with
    segments := Function.update s.segments id none
    spareSegments := id :: s.spareSegments }.slabFree

def convertPermission (seg : Segment) : Bool := seg.attr &&& attrWritable ≠ 0

def segmentShare (s : Spaces) (dest src id : ℕ) : Except Errno ℕ × Spaces :=
  match s.segments id with
  | none => (.error .efault, s)
  | some seg =>
    let n := pages seg.len
    match s.machine.attachUserPages dest src seg.addr n (convertPermission seg) with
    | (some e, m) => (.error e, s.setMachine (m.detachUserPages dest seg.addr n).2)
    | (none, m) =>
      (.ok id, (s.setMachine m).setSegment id { seg with refCount := seg.refCount + 1 })

def segmentCopy (s : Spaces) (dest src id : ℕ) : Except Errno ℕ × Spaces :=
  match s.segments id with
  | none => (.error .efault, s)
  | some seg =>
    match s.allocSegment with
    | (none, s) => (.error .enomem, s)
    | (some new, s) =>
      let n := pages seg.len
      match s.machine.copyUserPages dest src seg.addr n (convertPermission seg) with
      | (some e, m) =>
        (.error e, (s.setMachine (m.unmapUserPages dest seg.addr n).2).freeSegment new)
      | (none, m) =>
        (.ok new, (s.setMachine m).setSegment new { seg with refCount := 1, semaphores := [] })

def segmentAllocate (s : Spaces) (directory start stop : ℕ) (writable : Bool) (type : ℕ) :
    Except Errno ℕ × Spaces :=
  match s.allocSegment with
  | (none, s) => (.error .enomem, s)
  | (some new, s) =>
    let len := sub32 stop start
    match s.machine.mapUserPages directory start (pages len) writable with
    | (some e, m) =>
      (.error e, (s.setMachine (m.unmapUserPages directory start (pages len)).2).freeSegment new)
    | (none, m) => (.ok new, (s.setMachine m).setSegment new ⟨start, len, len, type, 1, []⟩)

def semaphoreDestroy (s : Spaces) (key : ℕ) : Spaces :=
  { s with sems := { s.sems with tree := Function.update s.sems.tree key none } }.slabFree

def segmentDeallocate (s : Spaces) (directory id : ℕ) : Spaces :=
  match s.segments id with
  | none => s
  | some seg =>
    if seg.refCount > 1 then
      (s.setMachine (s.machine.detachUserPages directory seg.addr (pages seg.len)).2).setSegment id
        { seg with refCount := seg.refCount - 1 }
    else
      let s := s.setMachine (s.machine.unmapUserPages directory seg.addr (pages seg.len)).2
      (seg.semaphores.foldl semaphoreDestroy s).freeSegment id

def releaseSegment (s : Spaces) (directory : ℕ) (id : Option ℕ) : Spaces :=
  match id with
  | none => s
  | some id => s.segmentDeallocate directory id

def releaseSegments (s : Spaces) (pid : ℕ) : Spaces :=
  match s.processes pid with
  | none => s
  | some p =>
    let s := s.releaseSegment p.directory p.code
    let s := s.releaseSegment p.directory p.data
    let s := s.releaseSegment p.directory p.heap
    s.setProcess pid { p with code := none, data := none, heap := none }

/-- `thread_create` of the kernel: a thread object, and a page for the kernel stack. -/
def kernelCreate (s : Spaces) (tid : ℕ) : Bool × Spaces :=
  match s.slabAlloc with
  | (false, s) => (false, s)
  | (true, s) =>
    if (s.kstacks tid).isSome then (false, s.slabFree)
    else
      match s.machine.palloc with
      | (p, m) =>
        let s := s.setMachine m
        if p = 0 then (false, s.slabFree)
        else (true, { s with kstacks := Function.update s.kstacks tid (some p) })

def kernelDestroy (s : Spaces) (tid : ℕ) : Spaces :=
  match s.kstacks tid with
  | none => s
  | some p =>
    { s with
      kstacks := Function.update s.kstacks tid none
      machine := s.machine.pfree p }.slabFree

def createThread (s : Spaces) (tid pid ustackTop : ℕ) : Option Errno × Spaces :=
  match s.processes pid with
  | none => (some .efault, s)
  | some p =>
    match s.slabAlloc with
    | (false, s) => (some .enomem, s)
    | (true, s) =>
      match s.kernelCreate tid with
      | (false, s) => (some .enomem, s.slabFree)
      | (true, s) =>
        if (s.threads tid).isSome then (some .ebusy, (s.kernelDestroy tid).slabFree)
        else
          let len := sub32 userStackEndAddr (pageRoundDown ustackTop)
          let stack : Segment :=
            { addr := pageRoundDown (userStackEndAddr - userStackMaxSize)
              len := if len < pageRoundUp userStackInitialSize then pageRoundUp userStackInitialSize
                else len
              max := pageRoundUp userStackMaxSize
              attr := typeStack
              refCount := 1
              semaphores := [] }
          let s := s.setProcess pid { p with threads := p.threads ++ [tid] }
          (none, { s with
            threads := Function.update s.threads tid (some ⟨pid, stack⟩)
            sems := s.sems.createThread tid })

def stackStart (stack : Segment) : ℕ := sub32 (stack.addr + stack.max) stack.len

def unmapStack (s : Spaces) (directory : ℕ) (stack : Segment) : Spaces :=
  if stack.attr ≠ 0 then
    s.setMachine (s.machine.unmapUserPages directory (stackStart stack) (pages stack.len)).2
  else s

/-- A turn of the loop of `destroy_threads`; the thread `keep` is made again under its id. -/
def destroyThread (directory keep : ℕ) (s : Spaces) (tid : ℕ) : Spaces :=
  match s.threads tid with
  | none => s
  | some th =>
    let s := s.kernelDestroy tid
    let s := { s with
      threads := Function.update s.threads tid none
      threadSequence := if tid ≠ keep then sequenceRelease s.threadSequence (tid - initThreadId : ℕ)
        else s.threadSequence }
    let s := s.unmapStack directory th.stack
    match s.sems.destroyThread tid with
    | (sent, sems) => { s with sems := sems, sent := s.sent ++ sent }.slabFree

def destroyThreads (s : Spaces) (pid keep : ℕ) : Spaces :=
  match s.processes pid with
  | none => s
  | some p =>
    p.threads.foldl (destroyThread p.directory keep) (s.setProcess pid { p with threads := [] })

def copyUserStack (s : Spaces) (directory dest src size : ℕ) : Option Errno × Spaces :=
  let addr := pageRoundDown (userStackEndAddr - userStackInitialSize)
  let n := pages (pageRoundUp userStackInitialSize)
  match s.machine.mapUserPages directory addr n true with
  | (some _, m) => (some .enomem, s.setMachine m)
  | (none, m) =>
    match m.moveStack directory dest src size with
    | (code, m) =>
      if code ≠ eOk then (some .efault, s.setMachine (m.unmapUserPages directory addr n).2)
      else (none, s.setMachine m)

def destroyMemory (s : Spaces) (pid : ℕ) : Spaces :=
  let s := s.destroyThreads pid 0
  let s := s.releaseSegments pid
  match s.processes pid with
  | none => s
  | some p =>
    let m := if p.localPage ≠ 0 then
        (s.machine.unmapUserPages p.directory processLocalAddr (pages processLocalSize)).2
      else s.machine
    (s.setMachine (m.pfree p.directory)).setProcess pid { p with directory := 0, localPage := 0 }

def allocateHeap (s : Spaces) (pid : ℕ) : Except Errno ℕ × Spaces :=
  match s.processes pid with
  | none => (.error .efault, s)
  | some p =>
    match s.allocSegment with
    | (none, s) => (.error .enomem, s)
    | (some new, s) =>
      match (p.data.or p.code).bind s.segments with
      -- there is no code segment: the null pointer is read
      | none => (.error .efault, s)
      | some prev =>
        let stop := (prev.addr + prev.len) % 2 ^ 32
        let max := sub32 (pageRoundUp userHeapMaxAddr) stop
        (.ok new, (s.setSegment new ⟨stop, 0, max, typeHeap, 1, []⟩).setProcess pid
          { p with heap := some new })

def sbrk (s : Spaces) (pid : ℕ) (diff : Int32) : Except Errno ℕ × Spaces :=
  match s.processes pid with
  | none => (.error .eperm, s)
  | some p =>
    match p.heap.elim (s.allocateHeap pid) fun id => (.ok id, s) with
    | (.error e, s) => (.error e, s)
    | (.ok id, s) =>
      match s.segments id with
      | none => (.error .efault, s)
      | some seg =>
        let stop := (seg.addr + seg.len) % 2 ^ 32
        if diff.toInt > 0 then
          let n := pageRoundUp diff.toInt.toNat
          if sub32 seg.max seg.len < n then (.error .enomem, s)
          else
            match s.machine.mapUserPages p.directory stop (pages n) true with
            | (some _, m) => (.error .enomem, s.setMachine m)
            | (none, m) =>
              (.ok stop, (s.setMachine m).setSegment id { seg with len := (seg.len + n) % 2 ^ 32 })
        else if diff.toInt < 0 then
          let n := pageRoundUp (-diff.toInt).toNat
          if seg.len < n then (.error .enomem, s)
          else
            match s.machine.unmapUserPages p.directory (sub32 stop n) (pages n) with
            | (some _, m) => (.error .enomem, s.setMachine m)
            | (none, m) => (.ok stop, (s.setMachine m).setSegment id { seg with len := seg.len - n })
        else (.ok stop, s)

end Spaces

end Eotan.Mm
