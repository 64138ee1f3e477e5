import Eotan.Fs.Cache
import Eotan.Set.Hash

/-!
The block cache as it lies in memory (`cache.c`): three lists that run through the entries, and a hash
whose keys and values are pointers to the entries.
-/

namespace Eotan.Fs

open Intrusive
open Lib (Links)
open Lib.Bytes (Block)

structure BlockId where
  channel : ℤ
  blockNo : ℕ
  deriving DecidableEq, Inhabited

inductive Node where
  | freeList
  | lruList
  | lockedList
  | entry (i : ℕ)
  deriving DecidableEq

def Node.parent : Node → ℕ
  | .entry i => i
  | _ => 0

/-- The pointers that the hash is given: the static `key` and the entries. -/
inductive Pointer where
  | key
  | entry (i : ℕ)
  deriving DecidableEq

structure Memory where
  disk : BlockId → Block
  faults : List Bool
  cache : ℕ → Entry BlockId
  key : BlockId
  links : Links Node
  hash : Hash.Table Pointer ℕ

namespace Memory

def named (m : Memory) : Pointer → BlockId
  | .key => m.key
  | .entry i => (m.cache i).key

def calcHash (m : Memory) (p : Pointer) (size : ℕ) : ℕ := (m.named p).blockNo % size

def compare (m : Memory) (a b : Pointer) : ℤ :=
  let x := m.named a
  let y := m.named b
  if x.blockNo = y.blockNo then
    if x.channel = y.channel then 0 else if x.channel < y.channel then -1 else 1
  else if x.blockNo < y.blockNo then -1 else 1

def hashGet (m : Memory) (p : Pointer) : Option ℕ × Memory :=
  match Hash.hashGet m.calcHash m.compare m.hash p with
  | (i, hash) => (i, { m with hash := hash })

def hashPut (m : Memory) (i : ℕ) : Memory :=
  { m with hash := (Hash.hashPut m.calcHash m.compare m.hash (.entry i) (some i)).2 }

def hashRemove (m : Memory) (i : ℕ) : Memory :=
  { m with hash := (Hash.hashRemove m.calcHash m.compare m.hash (.entry i)).2 }

def setEntry (m : Memory) (i : ℕ) (e : Entry BlockId) : Memory :=
  { m with cache := Function.update m.cache i e }

def move (m : Memory) (i : ℕ) (guard : Node) : Memory :=
  { m with links := listInsert (listRemove m.links (.entry i)) guard (.entry i) }

def isEmpty (m : Memory) (guard : Node) : Bool := m.links.next guard = guard

def fill (m : Memory) (i : ℕ) : Bool × Memory :=
  match m.faults with
  | true :: faults => (false, { m with faults := faults })
  | faults =>
    (true, { m with
      faults := faults.tail
      cache := Function.update m.cache i { m.cache i with buf := m.disk (m.cache i).key } })

def sweep (m : Memory) (i : ℕ) : Bool × Memory :=
  match m.faults with
  | true :: faults => (true, { m with faults := faults })
  | faults =>
    (false, { m with
      faults := faults.tail
      disk := Function.update m.disk (m.cache i).key (m.cache i).buf })

def dispose (m : Memory) (i : ℕ) : Memory := (m.move i .freeList).hashRemove i

def claim (m : Memory) : Option ℕ × Memory :=
  if m.isEmpty .freeList = false then (some (m.links.next .freeList).parent, m)
  else if m.isEmpty .lruList = false then
    let i := (m.links.next .lruList).parent
    if (m.cache i).dirty = true then
      match m.sweep i with
      | (true, m) => (none, m)
      | (false, m) => (some i, m.hashRemove i)
    else (some i, m.hashRemove i)
  else (none, m)

def lock (m : Memory) (i : ℕ) : Memory :=
  (m.setEntry i { m.cache i with lockCount := (m.cache i).lockCount + 1 }).move i .lockedList

def store (m : Memory) (i : ℕ) (f : Block → Block) : Memory :=
  m.setEntry i { m.cache i with buf := f (m.cache i).buf }

def cacheCreate (k : BlockId) (m : Memory) : Option ℕ × Memory :=
  match hashGet { m with key := k } .key with
  | (some i, m) => (some i, (m.lock i).store i fun _ => Lib.Bytes.zero)
  | (none, m) =>
    match m.claim with
    | (none, m) => (none, m)
    | (some i, m) =>
      let m := (m.setEntry i ⟨k, false, 0, (m.cache i).buf⟩).hashPut i
      (some i, (m.lock i).store i fun _ => Lib.Bytes.zero)

def cacheGet (k : BlockId) (m : Memory) : Option ℕ × Memory :=
  match hashGet { m with key := k } .key with
  | (some i, m) => (some i, m.lock i)
  | (none, m) =>
    match m.claim with
    | (none, m) => (none, m)
    | (some i, m) =>
      match (m.setEntry i ⟨k, false, 0, (m.cache i).buf⟩).fill i with
      | (false, m) => (none, m.move i .freeList)
      | (true, m) => (some i, (m.hashPut i).lock i)

def cacheModify (p : Option ℕ) (m : Memory) : Bool × Memory :=
  match p with
  | none => (false, m)
  | some i => (true, m.setEntry i { m.cache i with dirty := true })

def cacheRelease (p : Option ℕ) (dirty : Bool) (m : Memory) : Bool × Memory :=
  match p with
  | none => (false, m)
  | some i =>
    let m := m.setEntry i { m.cache i with dirty := (m.cache i).dirty || dirty }
    if 0 < (m.cache i).lockCount then
      let m := m.setEntry i { m.cache i with lockCount := (m.cache i).lockCount - 1 }
      if (m.cache i).lockCount = 0 then (true, m.move i .lruList) else (true, m)
    else (true, m)

def cacheInvalidate (k : BlockId) (m : Memory) : Bool × Memory :=
  match hashGet { m with key := k } .key with
  | (none, m) => (false, m)
  | (some i, m) => (true, m.dispose i)

def flushEntry (m : Memory) (i : ℕ) : Bool × Memory :=
  if (m.cache i).dirty = true then
    match m.sweep i with
    | (true, m) => (true, m)
    | (false, m) => (false, m.setEntry i { m.cache i with dirty := false })
  else (false, m)

def flushLru (channel : ℤ) (unmount : Bool) : ℕ → Node → Memory → Option (Bool × Memory)
  | 0, _, _ => none
  | n + 1, p, m =>
    if p = .lruList then some (false, m)
    else
      let i := p.parent
      if (m.cache i).key.channel ≠ channel then flushLru channel unmount n (m.links.next p) m
      else
        match m.flushEntry i with
        | (true, m) => some (true, m)
        | (false, m) =>
          flushLru channel unmount n (m.links.next p) (if unmount = true then m.dispose i else m)

def flushLocked : ℕ → Node → Memory → Option (Bool × Memory)
  | 0, _, _ => none
  | n + 1, p, m =>
    if p = .lockedList then some (false, m)
    else
      match m.flushEntry p.parent with
      | (true, m) => some (true, m)
      | (false, m) => flushLocked n (m.links.next p) m

def cacheFlush (channel : ℤ) (unmount : Bool) (m : Memory) : Option (Bool × Memory) :=
  match flushLru channel unmount (maxCache + 1) (m.links.next .lruList) m with
  | none => none
  | some (true, m) => some (true, m)
  | some (false, m) => flushLocked (maxCache + 1) (m.links.next .lockedList) m

/-- `cache_initialize`; `links` and `fresh` are what the memory held before. -/
def cacheInitialize (disk : BlockId → Block) (faults : List Bool) (links : Links Node)
    (fresh : Option (Hash.Table Pointer ℕ)) : Option Memory :=
  match Hash.hashCreate maxCache fresh with
  | none => none
  | some hash =>
    let links := listInitialize (listInitialize (listInitialize links .freeList) .lruList) .lockedList
    some {
      disk := disk
      faults := faults
      cache := fun _ => ⟨default, false, 0, Lib.Bytes.zero⟩
      key := default
      links := (List.range maxCache).foldl (fun l i => listAppend l .freeList (.entry i)) links
      hash := hash }

end Memory

end Eotan.Fs
