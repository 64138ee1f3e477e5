import Eotan.Fs.Cache
import Eotan.Set.Sequence

/-!
Blocks and files of `libtfs` (`block.c`, `file.c`, `stat.c`) over the block cache. One device is
mounted, so a block is identified by its number.
-/

namespace Eotan.Fs

open Lib.Bytes (Block word setWord)

inductive Errno
  | e2big | eacces | eaddrinuse | eagain | ebadf | ebusy | echild | econnrefused | eexist | efault
  | einval | eio | eisdir | emfile | enametoolong | enfile | enobufs | enodev | enoent | enoexec
  | enomem | enospc | enotdir | enotempty | enotsup | eoverflow | eperm | eproto
  | copier
  deriving DecidableEq, Repr

def blockSize : ℕ := 512
def reservedBlocks : ℕ := 2
def superBlockNo : ℕ := 1
def magic : ℕ := 0x30465374

def num1st : ℕ := (blockSize - 60) / 4
def num2nd : ℕ := blockSize / 4

structure Vnode where
  fs : Bool
  index : ℕ
  mode : ℕ
  uid : ℕ
  gid : ℕ
  size : ℕ
  inode : Option ℕ
  dirty : Bool
  referCount : ℕ
  parent : Option ℕ
  deriving DecidableEq

structure Clock where
  sec : ℕ
  secHigh : ℕ
  nsec : ℕ

/-- The mounted file system: `vfs_t`, the vnodes allocated from the slab, the cache. -/
structure Vfs where
  cache : Cache ℕ
  tfs : Option ℕ
  root : Option ℕ
  vnodes : ℕ → Option Vnode
  list : List ℕ
  spare : List ℕ
  clock : Clock
  /-- What the stack holds where a local array is not initialised. -/
  stack : ℕ → UInt8
  /-- Not in the source: the freed vnodes that `vnodes_remove` has been applied to. -/
  stale : List ℕ

namespace Vfs

def get (s : Vfs) (b : ℕ) : Option ℕ × Vfs :=
  let r := cacheGet b s.cache
  (r.1, { s with cache := r.2 })

def create (s : Vfs) (b : ℕ) : Option ℕ × Vfs :=
  let r := cacheCreate b s.cache
  (r.1, { s with cache := r.2 })

def modify (s : Vfs) (p : Option ℕ) : Bool × Vfs :=
  let r := cacheModify p s.cache
  (r.1, { s with cache := r.2 })

def release (s : Vfs) (p : Option ℕ) (dirty : Bool) : Bool × Vfs :=
  let r := cacheRelease p dirty s.cache
  (r.1, { s with cache := r.2 })

def invalidate (s : Vfs) (b : ℕ) : Vfs := { s with cache := (cacheInvalidate b s.cache).2 }

def buf (s : Vfs) (p : Option ℕ) : Block :=
  match p with
  | some i => (s.cache.cache i).buf
  | none => Lib.Bytes.zero

def poke (s : Vfs) (p : Option ℕ) (f : Block → Block) : Vfs :=
  match p with
  | some i => { s with cache := s.cache.store i f }
  | none => s

def noteAllocated (s : Vfs) (b : ℕ) : Vfs :=
  { s with cache := { s.cache with reused := s.cache.reused || s.cache.orphaned b } }

def setVnode (s : Vfs) (v : ℕ) (n : Vnode) : Vfs :=
  { s with vnodes := Function.update s.vnodes v (some n) }

def dblkno (s : Vfs) : ℕ := word (s.buf s.tfs) 1
def bsize (s : Vfs) : ℕ := word (s.buf s.tfs) 2
def bshift (s : Vfs) : ℕ := word (s.buf s.tfs) 4
def freeBlocks (s : Vfs) : ℕ := word (s.buf s.tfs) 15
def blockHand (s : Vfs) : ℕ := word (s.buf s.tfs) 16

def bitmapBlocks (s : Vfs) : ℕ :=
  word (s.buf s.tfs) 1 - word (s.buf s.tfs) 0 - word (s.buf s.tfs) 5

end Vfs

open Vfs

def findWord (b : Block) : ℕ → ℕ → Option ℕ
  | 0, _ => none
  | n + 1, j => if word b j = 0 then findWord b n (j + 1) else some j

def takeBit (s : Vfs) (p i j : ℕ) : ℕ × Vfs :=
  let w := BitVec.ofNat 32 (word (s.buf (some p)) j)
  let k := Sequence.countNtz w
  let s := s.poke (some p) fun b => setWord b j (w &&& ~~~(1#32 <<< k)).toNat
  match s.release (some p) true with
  | (false, s) => (0, s)
  | (true, s) =>
    let blockNo := (i <<< s.bshift) * 8 + j * 32 + k
    let s := s.noteAllocated blockNo
    let s := s.poke s.tfs fun b => setWord b 15 ((word b 15 + (2 ^ 32 - 1)) % 2 ^ 32)
    let s := s.poke s.tfs fun b => setWord b 16 (blockNo + 1)
    match s.modify s.tfs with
    | (false, s) => (0, s)
    | (true, s) => (blockNo, s)

def allocateLoop (start : ℕ) : ℕ → ℕ → Vfs → ℕ × Vfs
  | 0, _, s => (0, s)
  | n + 1, i, s =>
    match s.get (i + reservedBlocks) with
    | (none, s) => (0, s)
    | (some p, s) =>
      let units := s.bsize / 4
      let first := if i = start then s.blockHand / 32 % units else 0
      match findWord (s.buf (some p)) (units - first) first with
      | some j => takeBit s p i j
      | none =>
        match s.release (some p) false with
        | (false, s) => (0, s)
        | (true, s) => allocateLoop start n (i + 1) s

def tfsAllocateBlock (s : Vfs) : ℕ × Vfs :=
  if s.freeBlocks = 0 then (0, s)
  else
    let start := (s.blockHand / 8) >>> s.bshift
    allocateLoop start (s.bitmapBlocks - start) start s

def tfsDeallocateBlock (s : Vfs) (blockNo : ℕ) : Option Errno × Vfs :=
  if blockNo < s.dblkno then (some .einval, s)
  else
    match s.get ((blockNo / 8) >>> s.bshift + reservedBlocks) with
    | (none, s) => (some .eio, s)
    | (some p, s) =>
      let byte := (blockNo / 8) % 2 ^ s.bshift
      let s := s.poke (some p) fun b =>
        Function.update b byte (b byte ||| UInt8.ofNat (1 <<< (blockNo % 8)))
      match s.release (some p) true with
      | (false, s) => (some .eio, s)
      | (true, s) =>
        let s := s.invalidate blockNo
        let s := s.poke s.tfs fun b => setWord b 15 ((word b 15 + 1) % 2 ^ 32)
        let s := if blockNo < s.blockHand then s.poke s.tfs fun b => setWord b 16 blockNo else s
        match s.modify s.tfs with
        | (false, s) => (some .eio, s)
        | (true, s) => (none, s)

def deallocateLoop (p : ℕ) : ℕ → ℕ → Vfs → Option Errno × Vfs
  | 0, _, s => (none, s)
  | n + 1, i, s =>
    if word (s.buf (some p)) i = 0 then (none, s)
    else
      match tfsDeallocateBlock s (word (s.buf (some p)) i) with
      | (some e, s) => (some e, s)
      | (none, s) => deallocateLoop p n (i + 1) (s.poke (some p) fun b => setWord b i 0)

def deallocate2nd (s : Vfs) (base index offset : ℕ) : Option Errno × Vfs :=
  match s.get index with
  | (none, s) => (some .eio, s)
  | (some p, s) =>
    match deallocateLoop p (base - offset) offset s with
    | (some e, s) => (some e, s)
    | (none, s) =>
      match s.release (some p) true with
      | (false, s) => (some .eio, s)
      | (true, s) => (none, s)

def ib (index : ℕ) : ℕ := 15 + index

def shortenLoop (p : Option ℕ) : ℕ → ℕ → Vfs → Option Errno × Vfs
  | 0, _, s => (none, s)
  | n + 1, index, s =>
    if word (s.buf p) (ib index) = 0 then (none, s)
    else
      match deallocate2nd s num2nd (word (s.buf p) (ib index)) 0 with
      | (some e, s) => (some e, s)
      | (none, s) =>
        match tfsDeallocateBlock s (word (s.buf p) (ib index)) with
        | (some e, s) => (some e, s)
        | (none, s) => shortenLoop p n (index + 1) (s.poke p fun b => setWord b (ib index) 0)

def shortenBlocks (s : Vfs) (p : Option ℕ) (blocks : ℕ) : Option Errno × Vfs :=
  let index := blocks / num2nd
  let offset := blocks % num2nd
  if offset = 0 then shortenLoop p (num1st - index) index s
  else
    match deallocate2nd s num2nd (word (s.buf p) (ib index)) offset with
    | (some e, s) => (some e, s)
    | (none, s) => shortenLoop p (num1st - (index + 1)) (index + 1) s

def calcBlocks (s : Vfs) (size : ℕ) : ℕ := ((size + s.bsize - 1) % 2 ^ 32) >>> s.bshift

def tfsShorten (s : Vfs) (v : ℕ) (size : ℕ) : Option Errno × Vfs :=
  match s.vnodes v with
  | none => (some .eio, s)
  | some vnode =>
    if calcBlocks s size < calcBlocks s vnode.size then
      match shortenBlocks s vnode.inode (calcBlocks s size) with
      | (some e, s) => (some e, s)
      | (none, s) => (none, s.setVnode v { vnode with size := size })
    else (none, s.setVnode v { vnode with size := size })

def tfsGetBlockNo (s : Vfs) (p : Option ℕ) (nth : ℕ) : ℕ × Vfs :=
  if nth < num1st * num2nd then
    let blockNo := word (s.buf p) (ib (nth / num2nd))
    if blockNo = 0 then (0, s)
    else
      match s.get blockNo with
      | (none, s) => (0, s)
      | (some q, s) =>
        let blockNo := word (s.buf (some q)) (nth % num2nd)
        match s.release (some q) false with
        | (false, s) => (0, s)
        | (true, s) => (blockNo, s)
  else (0, s)

def setEntryNo (s : Vfs) (q : Option ℕ) (nth newBlockNo : ℕ) : ℕ × Vfs :=
  match q with
  | none => (0, s)
  | some q =>
    let s := s.poke (some q) fun b => setWord b (nth % num2nd) newBlockNo
    match s.release (some q) true with
    | (false, s) => (0, s)
    | (true, s) => (newBlockNo, s)

def tfsSetBlockNo (s : Vfs) (p : Option ℕ) (nth newBlockNo : ℕ) : ℕ × Vfs :=
  if nth < num1st * num2nd then
    if newBlockNo = 0 then (0, s)
    else
      let index := nth / num2nd
      let blockNo := word (s.buf p) (ib index)
      if blockNo = 0 then
        match tfsAllocateBlock s with
        | (blockNo, s) =>
          if blockNo = 0 then (0, s)
          else
            let s := s.poke p fun b => setWord b (ib index) blockNo
            match s.create blockNo with
            | (q, s) => setEntryNo s q nth newBlockNo
      else
        match s.get blockNo with
        | (q, s) => setEntryNo s q nth newBlockNo
  else (0, s)

def tfsAllocateInode (s : Vfs) (v : ℕ) : Option Errno × Vfs :=
  match tfsAllocateBlock s with
  | (blockNo, s) =>
    if blockNo = 0 then (some .enospc, s)
    else
      match s.get blockNo with
      | (none, s) => (some .eio, s)
      | (some p, s) =>
        let s := s.poke (some p) fun _ => Lib.Bytes.zero
        match s.modify (some p) with
        | (false, s) => (some .eio, (s.release (some p) false).2)
        | (true, s) =>
          match s.vnodes v with
          | none => (some .eio, s)
          | some vnode =>
            (none, s.setVnode v
              { vnode with fs := true, index := blockNo, size := 0, inode := some p })

def tfsDeallocateInode (s : Vfs) (v : ℕ) : Option Errno × Vfs :=
  match s.vnodes v with
  | none => (some .eio, s)
  | some vnode =>
    match tfsShorten s v 0 with
    | (some e, s) => (some e, s)
    | (none, s) =>
      let s := s.setVnode v { vnode with size := 0, dirty := true }
      let s := s.poke vnode.inode fun _ => Lib.Bytes.zero
      match s.modify vnode.inode with
      | (false, s) => (some .eio, s)
      | (true, s) =>
        tfsDeallocateBlock (s.setVnode v { vnode with size := 0, dirty := false }) vnode.index

def tfsOpen (s : Vfs) (ino v : ℕ) : Option Errno × Vfs :=
  match s.get ino with
  | (none, s) => (some .eio, s)
  | (some p, s) =>
    let inode := s.buf (some p)
    match s.vnodes v with
    | none => (some .eio, s)
    | some vnode =>
      (none, s.setVnode v
        { vnode with
          fs := true
          index := word inode 1
          mode := word inode 0
          uid := word inode 13
          gid := word inode 14
          size := word inode 2
          inode := some p
          dirty := false
          referCount := 1 })

def inodeOf (vnode : Vnode) (b : Block) : Block :=
  setWord (setWord (setWord (setWord (setWord (setWord b 1 vnode.index) 0 vnode.mode)
    13 vnode.uid) 14 vnode.gid) 2 vnode.size) 3 0

def synchronizeVnode (s : Vfs) (v : ℕ) : Option Errno × Vfs :=
  match s.vnodes v with
  | none => (none, s)
  | some vnode =>
    if vnode.dirty = true then
      let s := s.poke vnode.inode (inodeOf vnode)
      match s.modify vnode.inode with
      | (false, s) => (some .eio, s)
      | (true, s) => (none, s.setVnode v { vnode with dirty := false })
    else (none, s)

def tfsClose (s : Vfs) (v : ℕ) : Option Errno × Vfs :=
  match s.vnodes v with
  | none => (none, s)
  | some vnode =>
    match vnode.inode with
    | none => (none, s)
    | some p =>
      match synchronizeVnode s v with
      | (some e, s) => (some e, s)
      | (none, s) =>
        match s.release (some p) false with
        | (false, s) => (some .eio, s)
        | (true, s) => (none, s)

def tfsSynchronize (s : Vfs) (v : ℕ) : Option Errno × Vfs :=
  match s.vnodes v with
  | none => (none, s)
  | some vnode => if vnode.inode = none then (none, s) else synchronizeVnode s v

end Eotan.Fs
