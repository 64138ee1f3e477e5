import Eotan.Fs.Vnodes

/-!
Directories (`directory.c` of `libtfs`). A directory is a file of entries: the number of the inode
in four bytes, the length of the name in one, the name, and bytes up to the next multiple of four.
-/

namespace Eotan.Fs

open Lib.Bytes (Block word setWord splice)
open Vfs

def dirHeader : ℕ := 5
def dirBuffer : ℕ := 260

def realNameLen (n : ℕ) : ℕ := n + (3 - n % 4)

def realLen (namlen : ℕ) : ℕ := dirHeader + realNameLen namlen

inductive EntryRead where
  | error (e : Errno)
  | last
  | entry (buf : Block)

def readEntry (s : Vfs) (parent offset : ℕ) : EntryRead × Vfs :=
  match vfsRead s parent copyTo offset dirBuffer with
  | (some e, _, _, s) => (.error e, s)
  | (none, len, dest, s) =>
    if len = 0 then (.last, s)
    else
      let buf := fun i => dest.data.getD i (s.stack i)
      if len < dirHeader then (.error .einval, s)
      else if len < realLen (buf 4).toNat then (.error .einval, s)
      else (.entry buf, s)

def fileno (buf : Block) : ℕ := word buf 0
def namlen (buf : Block) : ℕ := (buf 4).toNat

def hasName (buf : Block) (name : List UInt8) : Bool :=
  name.length = namlen buf ∧ (List.range name.length).map (fun i => buf (dirHeader + i)) = name

def skipLoop (parent : ℕ) : ℕ → ℕ → Vfs → Except Errno ℕ × Vfs
  | 0, delta, s => (.ok delta, s)
  | n + 1, delta, s =>
    match readEntry s parent delta with
    | (.error e, s) => (.error e, s)
    | (.last, s) => (.ok delta, s)
    | (.entry buf, s) => skipLoop parent n (delta + realLen (namlen buf)) s

def direntOf (buf : Block) : Block :=
  let moved := splice buf 4 (namlen buf) fun i => buf (dirHeader + i)
  Function.update moved (4 + namlen buf) 0

/-- The loop of `tfs_getdents` that hands out entries; the errors of the copier are ignored. -/
def getdentsLoop (parent : ℕ) : ℕ → ℕ → ℕ → Sink → Vfs → Option Errno × ℕ × Sink × Vfs
  | 0, _, length, dest, s => (none, length, dest, s)
  | n + 1, delta, length, dest, s =>
    match readEntry s parent delta with
    | (.error e, s) => (some e, length, dest, s)
    | (.last, s) => (none, length, dest, s)
    | (.entry buf, s) =>
      let dest := (dest.copy (direntOf buf) dirBuffer).getD { dest with faults := dest.faults.tail }
      getdentsLoop parent n (delta + realLen (namlen buf)) (length + dirBuffer) dest s

def tfsGetdents (s : Vfs) (parent : ℕ) (dest : Sink) (offset max : ℕ) :
    Option Errno × ℕ × Sink × Vfs :=
  if offset % dirBuffer ≠ 0 then (some .einval, 0, dest, s)
  else
    match skipLoop parent (offset / dirBuffer) 0 s with
    | (.error e, s) => (some e, 0, dest, s)
    | (.ok delta, s) => getdentsLoop parent (max / dirBuffer) delta 0 dest s

def walkLoop (parent : ℕ) (name : List UInt8) : ℕ → ℕ → Vfs → Except Errno ℕ × Vfs
  | 0, _, s => (.error .enoent, s)
  | n + 1, offset, s =>
    match readEntry s parent offset with
    | (.error e, s) => (.error e, s)
    | (.last, s) => (.error .enoent, s)
    | (.entry buf, s) =>
      if hasName buf name = true then (.ok (fileno buf), s)
      else walkLoop parent name n (offset + realLen (namlen buf)) s

def Vfs.entries (s : Vfs) (parent : ℕ) : ℕ :=
  match s.vnodes parent with
  | none => 0
  | some vnode => vnode.size / 8 + 2

def openVnode (s : Vfs) (parent ino : ℕ) : Except Errno ℕ × Vfs :=
  match vnodesFind s ino with
  | some v => (.ok v, s.retain v)
  | none =>
    match vnodesCreate s (some parent) with
    | (none, s) => (.error .enomem, s)
    | (some v, s) =>
      match tfsOpen s ino v with
      | (some e, s) => (.error e, (vnodesRemove s v).2)
      | (none, s) => (.ok v, vnodesAppend s v)

def tfsWalk (s : Vfs) (parent : ℕ) (name : List UInt8) : Except Errno ℕ × Vfs :=
  match walkLoop parent name (s.entries parent) 0 s with
  | (.error e, s) => (.error e, s)
  | (.ok ino, s) => openVnode s parent ino

def entryOf (stack : Block) (name : List UInt8) (ino : ℕ) : Block :=
  let buf := Function.update (setWord stack 0 ino) 4 (UInt8.ofNat name.length)
  splice buf dirHeader name.length fun i => name.getD i 0

def tfsAppendEntry (s : Vfs) (parent : ℕ) (name : List UInt8) (ino : ℕ) : Option Errno × Vfs :=
  match s.vnodes parent with
  | none => (some .eio, s)
  | some vnode =>
    match tfsWrite s parent (copyFrom (entryOf s.stack name ino)) vnode.size
      (realLen name.length) with
    | (e, _, s) => (e, s)

def stampNew (s : Vfs) (v : ℕ) : Vfs :=
  match s.vnodes v with
  | none => s
  | some vnode =>
    let s := s.poke vnode.inode fun b =>
      setClock s.clock mtime (setClock s.clock ctime (setClock s.clock atime b))
    s.setVnode v { vnode with dirty := true }

def tfsCreate (s : Vfs) (parent : ℕ) (name : List UInt8) : Except Errno ℕ × Vfs :=
  match vnodesCreate s (some parent) with
  | (none, s) => (.error .enomem, s)
  | (some v, s) =>
    match tfsAllocateInode s v with
    | (some e, s) => (.error e, (vnodesRemove s v).2)
    | (none, s) =>
      let s := vnodesAppend s v
      match tfsAppendEntry s parent name ((s.vnodes v).elim 0 (·.index)) with
      | (some e, s) => (.error e, (vnodesRemove (tfsDeallocateInode s v).2 v).2)
      | (none, s) => (.ok v, stampNew s v)

/-- The search of `tfs_remove_entry`: where the entry of the inode is and how long it is. -/
def findLoop (parent ino : ℕ) : ℕ → ℕ → Vfs → Except Errno (ℕ × ℕ) × Vfs
  | 0, _, s => (.error .enoent, s)
  | n + 1, offset, s =>
    match readEntry s parent offset with
    | (.error e, s) => (.error e, s)
    | (.last, s) => (.error .enoent, s)
    | (.entry buf, s) =>
      if fileno buf = ino then (.ok (offset, realLen (namlen buf)), s)
      else findLoop parent ino n (offset + realLen (namlen buf)) s

def shiftLoop (parent delta : ℕ) : ℕ → ℕ → Vfs → Option Errno × Vfs
  | 0, _, s => (none, s)
  | n + 1, offset, s =>
    match readEntry s parent (offset + delta) with
    | (.error e, s) => (some e, s)
    | (.last, s) => (none, s)
    | (.entry buf, s) =>
      match tfsWrite s parent (copyFrom buf) offset (realLen (namlen buf)) with
      | (some e, _, s) => (some e, s)
      | (none, _, s) => shiftLoop parent delta n (offset + realLen (namlen buf)) s

def tfsRemoveEntry (s : Vfs) (parent ino : ℕ) : Option Errno × Vfs :=
  match findLoop parent ino (s.entries parent) 0 s with
  | (.error e, s) => (some e, s)
  | (.ok (offset, delta), s) =>
    match shiftLoop parent delta (s.entries parent) offset s with
    | (some e, s) => (some e, s)
    | (none, s) => tfsShorten s parent ((s.vnodes parent).elim 0 (·.size) - delta)

def stampParent (s : Vfs) (parent : ℕ) : Vfs :=
  match s.vnodes parent with
  | none => s
  | some vnode =>
    let s := s.poke vnode.inode fun b => setClock s.clock ctime (setClock s.clock mtime b)
    s.setVnode parent { vnode with dirty := true }

def tfsRemove (s : Vfs) (parent v : ℕ) : Option Errno × Vfs :=
  match s.vnodes v with
  | none => (some .eio, s)
  | some vnode =>
    if 1 < vnode.referCount then (some .ebusy, s)
    else if vnode.isDir = true ∧ 0 < vnode.size then (some .enotempty, s)
    else
      match tfsRemoveEntry s parent vnode.index with
      | (some e, s) => (some e, s)
      | (none, s) => tfsDeallocateInode (stampParent s parent) v

end Eotan.Fs
