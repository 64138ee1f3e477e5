import Eotan.Lib.Bytes
import Mathlib.Logic.Function.Basic

/-!
The block cache (`cache.c`). Buffers are handed out as pointers into `cache[]`; here a pointer is
the index of its entry. `κ` is what identifies a block: the device and the number of the block.
-/

namespace Eotan.Fs

open Lib.Bytes (Block)

def maxCache : ℕ := 128

structure Entry (κ : Type) where
  key : κ
  dirty : Bool
  lockCount : ℕ
  buf : Block

structure Cache (κ : Type) where
  disk : κ → Block
  /-- Which of the device operations to come fail. -/
  faults : List Bool
  cache : ℕ → Entry κ
  hash : κ → Option ℕ
  freeList : List ℕ
  lruList : List ℕ
  lockedList : List ℕ
  /-- Not in the source: the contents last stored into each block through a buffer of the cache. -/
  stored : κ → Block
  /-- Not in the source: whether a block has been allocated while a buffer of it was on `lruList`
  that had been released after its invalidation. -/
  reused : Bool

variable {κ : Type} [DecidableEq κ]

namespace Cache

def setEntry (c : Cache κ) (i : ℕ) (e : Entry κ) : Cache κ :=
  { c with cache := Function.update c.cache i e }

def listRemove (c : Cache κ) (i : ℕ) : Cache κ :=
  { c with
    freeList := c.freeList.erase i
    lruList := c.lruList.erase i
    lockedList := c.lockedList.erase i }

def hashRemove (c : Cache κ) (i : ℕ) : Cache κ :=
  { c with hash := Function.update c.hash (c.cache i).key none }

def hashPut (c : Cache κ) (i : ℕ) : Cache κ :=
  { c with hash := Function.update c.hash (c.cache i).key (some i) }

def orphaned (c : Cache κ) (k : κ) : Bool :=
  c.hash k = none ∧ c.lruList.any fun i => (c.cache i).key = k

def store (c : Cache κ) (i : ℕ) (f : Block → Block) : Cache κ :=
  { c with
    cache := Function.update c.cache i { c.cache i with buf := f (c.cache i).buf }
    stored := Function.update c.stored (c.cache i).key (f (c.cache i).buf) }

end Cache

open Cache

def fill (c : Cache κ) (i : ℕ) : Bool × Cache κ :=
  match c.faults with
  | true :: faults => (false, { c with faults := faults })
  | faults =>
    (true, { c with
      faults := faults.tail
      cache := Function.update c.cache i { c.cache i with buf := c.disk (c.cache i).key } })

def sweep (c : Cache κ) (i : ℕ) : Bool × Cache κ :=
  match c.faults with
  | true :: faults => (true, { c with faults := faults })
  | faults =>
    (false, { c with
      faults := faults.tail
      disk := Function.update c.disk (c.cache i).key (c.cache i).buf })

def dispose (c : Cache κ) (i : ℕ) : Cache κ :=
  let c := listRemove c i
  hashRemove { c with freeList := i :: c.freeList } i

def claim (c : Cache κ) : Option ℕ × Cache κ :=
  match c.freeList with
  | i :: _ => (some i, c)
  | [] =>
    match c.lruList with
    | [] => (none, c)
    | i :: _ =>
      if (c.cache i).dirty = true then
        match sweep c i with
        | (true, c) => (none, c)
        | (false, c) => (some i, hashRemove c i)
      else (some i, hashRemove c i)

def lock (c : Cache κ) (i : ℕ) : Cache κ :=
  let c := c.setEntry i { c.cache i with lockCount := (c.cache i).lockCount + 1 }
  let c := listRemove c i
  { c with lockedList := i :: c.lockedList }

def cacheCreate (k : κ) (c : Cache κ) : Option ℕ × Cache κ :=
  match c.hash k with
  | some i => (some i, store (lock c i) i fun _ => Lib.Bytes.zero)
  | none =>
    match claim c with
    | (none, c) => (none, c)
    | (some i, c) =>
      let c := hashPut (c.setEntry i ⟨k, false, 0, (c.cache i).buf⟩) i
      (some i, store (lock c i) i fun _ => Lib.Bytes.zero)

def cacheGet (k : κ) (c : Cache κ) : Option ℕ × Cache κ :=
  match c.hash k with
  | some i => (some i, lock c i)
  | none =>
    match claim c with
    | (none, c) => (none, c)
    | (some i, c) =>
      match fill (c.setEntry i ⟨k, false, 0, (c.cache i).buf⟩) i with
      | (false, c) =>
        let c := listRemove c i
        (none, { c with freeList := i :: c.freeList })
      | (true, c) => (some i, lock (hashPut c i) i)

def cacheModify (p : Option ℕ) (c : Cache κ) : Bool × Cache κ :=
  match p with
  | none => (false, c)
  | some i => (true, c.setEntry i { c.cache i with dirty := true })

def cacheRelease (p : Option ℕ) (dirty : Bool) (c : Cache κ) : Bool × Cache κ :=
  match p with
  | none => (false, c)
  | some i =>
    let c := c.setEntry i { c.cache i with dirty := (c.cache i).dirty || dirty }
    if 0 < (c.cache i).lockCount then
      let c := c.setEntry i { c.cache i with lockCount := (c.cache i).lockCount - 1 }
      if (c.cache i).lockCount = 0 then
        let c := listRemove c i
        (true, { c with lruList := i :: c.lruList })
      else (true, c)
    else (true, c)

def cacheInvalidate (k : κ) (c : Cache κ) : Bool × Cache κ :=
  match c.hash k with
  | none => (false, c)
  | some i => (true, dispose c i)

def flushEntry (c : Cache κ) (i : ℕ) : Bool × Cache κ :=
  if (c.cache i).dirty = true then
    match sweep c i with
    | (true, c) => (true, c)
    | (false, c) => (false, c.setEntry i { c.cache i with dirty := false })
  else (false, c)

def flushLru (mine : κ → Bool) (unmount : Bool) : List ℕ → Cache κ → Bool × Cache κ
  | [], c => (false, c)
  | i :: l, c =>
    if mine (c.cache i).key = true then
      match flushEntry c i with
      | (true, c) => (true, c)
      | (false, c) => flushLru mine unmount l (if unmount = true then dispose c i else c)
    else flushLru mine unmount l c

def flushLocked : List ℕ → Cache κ → Bool × Cache κ
  | [], c => (false, c)
  | i :: l, c =>
    match flushEntry c i with
    | (true, c) => (true, c)
    | (false, c) => flushLocked l c

def cacheFlush (mine : κ → Bool) (unmount : Bool) (c : Cache κ) : Bool × Cache κ :=
  match flushLru mine unmount c.lruList c with
  | (true, c) => (true, c)
  | (false, c) => flushLocked c.lockedList c

def cacheInitialize [Inhabited κ] (disk : κ → Block) (faults : List Bool) : Cache κ where
  disk := disk
  faults := faults
  cache := fun _ => ⟨default, false, 0, Lib.Bytes.zero⟩
  hash := fun _ => none
  freeList := List.range maxCache
  lruList := []
  lockedList := []
  stored := disk
  reused := false

end Eotan.Fs
