import Eotan.Fs.Tfs

/-!
Reading and writing files (`file.c`, `stat.c` of `libtfs`, `vfs_read`), with the copiers they take
their data from and hand it to.
-/

namespace Eotan.Fs

open Lib.Bytes (Block word setWord splice)
open Vfs

/-- A `copier_t` that `tfs_write` takes its bytes from. `faults` tells which of the copies to come
fail. -/
structure Source where
  data : ℕ → UInt8
  faults : List Bool

def Source.copy (src : Source) (len : ℕ) : Option (Block × Source) :=
  match src.faults with
  | true :: _ => none
  | faults => some (src.data, ⟨fun i => src.data (i + len), faults.tail⟩)

structure Sink where
  data : List UInt8
  faults : List Bool

def Sink.copy (dest : Sink) (src : Block) (len : ℕ) : Option Sink :=
  match dest.faults with
  | true :: _ => none
  | faults => some ⟨dest.data ++ (List.range len).map src, faults.tail⟩

def copyFrom (buf : ℕ → UInt8) : Source := ⟨buf, []⟩

def copyTo : Sink := ⟨[], []⟩

def setClock (c : Clock) (j : ℕ) (b : Block) : Block :=
  setWord (setWord (setWord b j c.sec) (j + 1) c.secHigh) (j + 2) c.nsec

def atime : ℕ := 4
def ctime : ℕ := 7
def mtime : ℕ := 10

structure ReadResult where
  error : Option Errno
  rest : ℕ
  dest : Sink
  state : Vfs

def readLoop (p : Option ℕ) : ℕ → ℕ → ℕ → ℕ → Sink → Vfs → ReadResult
  | 0, _, _, rest, dest, s => ⟨none, rest, dest, s⟩
  | n + 1, index, skip, rest, dest, s =>
    if rest = 0 then ⟨none, rest, dest, s⟩
    else
      match tfsGetBlockNo s p index with
      | (blockNo, s) =>
        if blockNo = 0 then ⟨some .eio, rest, dest, s⟩
        else
          match s.get blockNo with
          | (none, s) => ⟨some .eio, rest, dest, s⟩
          | (some q, s) =>
            let len := min (s.bsize - skip) rest
            match dest.copy (fun i => s.buf (some q) (skip + i)) len with
            | none => ⟨some .copier, rest, dest, s⟩
            | some dest =>
              match s.release (some q) false with
              | (false, s) => ⟨some .eio, rest, dest, s⟩
              | (true, s) => readLoop p n (index + 1) 0 (rest - len) dest s

def tfsRead (s : Vfs) (v : ℕ) (dest : Sink) (offset nbytes : ℕ) :
    Option Errno × ℕ × Sink × Vfs :=
  match s.vnodes v with
  | none => (some .eio, 0, dest, s)
  | some vnode =>
    let r := readLoop vnode.inode nbytes (offset >>> s.bshift) (offset % 2 ^ s.bshift) nbytes dest s
    let s :=
      if nbytes = 0 then r.state
      else (r.state.poke vnode.inode (setClock s.clock atime)).setVnode v { vnode with dirty := true }
    (r.error, nbytes - r.rest, r.dest, s)

def vfsRead (s : Vfs) (v : ℕ) (dest : Sink) (offset nbytes : ℕ) :
    Option Errno × ℕ × Sink × Vfs :=
  match s.vnodes v with
  | none => (some .eio, 0, dest, s)
  | some vnode =>
    if vnode.size < offset then (some .einval, 0, dest, s)
    else
      let len := min nbytes (vnode.size - offset)
      if len = 0 then (none, 0, dest, s) else tfsRead s v dest offset len

structure WriteResult where
  error : Option Errno
  rest : ℕ
  returned : Bool
  state : Vfs

def writeBlockNo (s : Vfs) (p : Option ℕ) (index : ℕ) : ℕ × Vfs :=
  match tfsGetBlockNo s p index with
  | (blockNo, s) =>
    if blockNo = 0 then
      match tfsAllocateBlock s with
      | (newBlockNo, s) => tfsSetBlockNo s p index newBlockNo
    else (blockNo, s)

def writeLoop (p : Option ℕ) : ℕ → ℕ → ℕ → ℕ → Source → Vfs → WriteResult
  | 0, _, _, rest, _, s => ⟨none, rest, false, s⟩
  | n + 1, index, skip, rest, src, s =>
    if rest = 0 then ⟨none, rest, false, s⟩
    else
      match writeBlockNo s p index with
      | (blockNo, s) =>
        if blockNo = 0 then ⟨some .eio, rest, false, s⟩
        else
          match s.get blockNo with
          | (none, s) => ⟨some .eio, rest, false, s⟩
          | (some q, s) =>
            let len := min (s.bsize - skip) rest
            match src.copy len with
            | none => ⟨some .copier, rest, false, s⟩
            | some (data, src) =>
              let s := s.poke (some q) fun b => splice b skip len data
              match s.release (some q) true with
              | (false, s) => ⟨some .eio, rest, true, s⟩
              | (true, s) => writeLoop p n (index + 1) 0 (rest - len) src s

def wroteTo (s : Vfs) (v offset wrote : ℕ) (clock : Clock) : Vfs :=
  match s.vnodes v with
  | none => s
  | some vnode =>
    let tail := (offset + wrote) % 2 ^ 32
    let s := s.setVnode v { vnode with size := max tail vnode.size, dirty := true }
    let s := s.poke vnode.inode (setClock clock mtime)
    s.poke vnode.inode (setClock clock ctime)

def tfsWrite (s : Vfs) (v : ℕ) (src : Source) (offset nbytes : ℕ) : Option Errno × ℕ × Vfs :=
  match s.vnodes v with
  | none => (some .eio, 0, s)
  | some vnode =>
    let r := writeLoop vnode.inode nbytes (offset >>> s.bshift) (offset % 2 ^ s.bshift) nbytes src s
    let wrote := nbytes - r.rest
    if r.returned = true then (r.error, 0, r.state)
    else if wrote = 0 then (r.error, 0, r.state)
    else (r.error, wrote, wroteTo r.state v offset wrote s.clock)

/-- The fields of a `struct stat`; in a request to change them `none` stands for -1. -/
structure Stat where
  mode : Option ℕ
  gid : Option ℕ
  size : Option ℕ

def sIfmt : ℕ := 0o170000
def sIfreg : ℕ := 0o100000
def sIfdir : ℕ := 0o040000

def Vnode.isDir (vnode : Vnode) : Bool := vnode.mode &&& sIfmt = sIfdir

def Stat.apply (st : Stat) (vnode : Vnode) : Vnode :=
  { vnode with
    mode := st.mode.elim vnode.mode ((vnode.mode &&& sIfmt) ||| ·)
    gid := st.gid.getD vnode.gid }

def tfsWstat (s : Vfs) (v : ℕ) (st : Stat) : Option Errno × Vfs :=
  match s.vnodes v with
  | none => (some .eio, s)
  | some vnode =>
    let s := s.setVnode v (st.apply vnode)
    match (if st.size = none then (none, s) else tfsShorten s v 0) with
    | (some e, s) => (some e, s)
    | (none, s) =>
      if st.mode = none ∧ st.gid = none ∧ st.size = none then (none, s)
      else
        match s.vnodes v with
        | none => (some .eio, s)
        | some vnode =>
          let s :=
            if st.size = none then s else s.poke vnode.inode (setClock s.clock mtime)
          let s := s.poke vnode.inode (setClock s.clock ctime)
          (none, s.setVnode v { vnode with dirty := true })

structure StatResult where
  ino : ℕ
  mode : ℕ
  nlink : ℕ
  uid : ℕ
  gid : ℕ
  size : ℕ
  atime : ℕ
  mtime : ℕ
  ctime : ℕ
  blksize : ℕ
  blocks : ℕ
  deriving DecidableEq

def longWord (b : Block) (j : ℕ) : ℕ := word b j + 2 ^ 32 * word b (j + 1)

def tfsStat (s : Vfs) (vnode : Vnode) : StatResult where
  ino := vnode.index
  mode := vnode.mode
  nlink := 1
  uid := vnode.uid
  gid := vnode.gid
  size := vnode.size
  atime := longWord (s.buf vnode.inode) atime
  mtime := longWord (s.buf vnode.inode) mtime
  ctime := longWord (s.buf vnode.inode) ctime
  blksize := s.bsize
  blocks := (vnode.size + s.bsize - 1) >>> s.bshift

end Eotan.Fs
