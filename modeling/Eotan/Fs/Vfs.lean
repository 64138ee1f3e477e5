import Eotan.Fs.Directory

/-!
`vfs.c`, with `name.c` and `flag.c`: the operations on paths and the permissions they ask for.
Paths are the bytes up to the terminating zero.
-/

namespace Eotan.Fs

open Lib.Bytes (Block word)
open Vfs

structure Permission where
  uid : ℕ
  gid : ℕ

def rOk : ℕ := 4
def wOk : ℕ := 2
def xOk : ℕ := 1
def fOk : ℕ := 0

def oRdonly : ℕ := 0
def oWronly : ℕ := 1
def oRdwr : ℕ := 2
def oAccmode : ℕ := 3
def oExec : ℕ := 4
def oAppend : ℕ := 0x100
def oTrunc : ℕ := 0x400

def dmdir : ℕ := 0x80000000
def unmodifiableModeBits : ℕ := 0xfffffe00

def nameMax : ℕ := 255

def slash : UInt8 := 47
def dot : UInt8 := 46

def modes (flags : ℕ) : ℕ :=
  match flags &&& oAccmode with
  | 0 => rOk
  | 1 => wOk
  | 2 => rOk ||| wOk
  | _ => fOk

def vfsPermit (vnode : Vnode) (permission : Permission) (want : ℕ) : Option Errno :=
  let need := want &&& (rOk ||| wOk ||| xOk)
  let bits := vnode.mode &&& need
  let bits :=
    if permission.uid = vnode.uid then bits ||| ((vnode.mode >>> 6) &&& need) else bits
  let bits :=
    if permission.gid = vnode.gid then bits ||| ((vnode.mode >>> 3) &&& need) else bits
  if bits = need then none else some .eacces

def vfsIsValidName (name : List UInt8) : Bool :=
  name ≠ [] ∧ name ≠ [dot] ∧ name ≠ [dot, dot] ∧ slash ∉ name

def vfsCheckFlags (flags : ℕ) : Bool :=
  flags &&& oAccmode ≠ oAccmode ∧ flags &&& (2 ^ 32 - 1 - (oAccmode + oAppend + oTrunc)) = 0

def walkName (s : Vfs) (first parent : ℕ) (permission : Permission) (name : List UInt8) :
    Except Errno ℕ × Vfs :=
  if nameMax < name.length then (.error .enametoolong, (vnodesRemove s parent).2)
  else
    match s.vnodes parent with
    | none => (.error .eio, s)
    | some vnode =>
      if vnode.isDir = false then (.error .enotdir, (vnodesRemove s parent).2)
      else if name = [dot, dot] then
        let pp := vnode.parent.getD first
        (.ok pp, (vnodesRemove (s.retain pp) parent).2)
      else
        match (match vfsPermit vnode permission (rOk ||| xOk) with
          | some e => (.error e, s)
          | none => tfsWalk s parent name) with
        | (r, s) => (r, (vnodesRemove s parent).2)

def vfsWalkLoop (first : ℕ) (permission : Permission) :
    List (List UInt8) → ℕ → Vfs → Except Errno ℕ × Vfs
  | [], parent, s => (.ok parent, s)
  | name :: path, parent, s =>
    if name = [] then vfsWalkLoop first permission path parent s
    else
      match walkName s first parent permission name with
      | (.error e, s) => (.error e, s)
      | (.ok v, s) => vfsWalkLoop first permission path v s

def vfsWalk (s : Vfs) (parent : Option ℕ) (path : List UInt8) (flags : ℕ)
    (permission : Permission) : Except Errno ℕ × Vfs :=
  match parent with
  | none => (.error .enodev, s)
  | some parent =>
    match vfsWalkLoop parent permission (path.splitOn slash) parent (s.retain parent) with
    | (.error e, s) => (.error e, s)
    | (.ok v, s) =>
      match s.vnodes v with
      | none => (.error .eio, s)
      | some vnode =>
        match vfsPermit vnode permission (modes flags) with
        | some e => (.error e, (vnodesRemove s v).2)
        | none => (.ok v, s)

def vfsOpen (s : Vfs) (v flags : ℕ) (permission : Permission) : Option Errno × Vfs :=
  let f := if flags = oExec then oRdonly else flags
  if vfsCheckFlags f = false then (some .einval, s)
  else
    match s.vnodes v with
    | none => (some .eio, s)
    | some vnode =>
      if vnode.isDir = true ∧ f &&& oAccmode ≠ oRdonly then (some .eisdir, s)
      else
        match vfsPermit vnode permission (if flags = oExec then xOk else modes flags) with
        | some e => (some e, s)
        | none =>
          if f &&& oTrunc ≠ 0 then tfsWstat s v ⟨none, none, some 0⟩ else (none, s)

def createMode (mode parentMode : ℕ) : ℕ :=
  if mode &&& dmdir ≠ 0 then (mode &&& parentMode &&& 0o777) ||| sIfdir
  else (mode &&& parentMode &&& 0o666) ||| sIfreg

def adopt (s : Vfs) (parent v mode : ℕ) (permission : Permission) : Vfs :=
  match s.vnodes v with
  | none => s
  | some vnode =>
    s.setVnode v
      { vnode with
        mode := createMode mode ((s.vnodes parent).elim 0 (·.mode))
        uid := permission.uid
        gid := permission.gid
        referCount := 1 }

def vfsCreate (s : Vfs) (parent : ℕ) (name : List UInt8) (flags mode : ℕ)
    (permission : Permission) : Except Errno ℕ × Vfs :=
  match s.vnodes parent with
  | none => (.error .eio, s)
  | some vnode =>
    if vnode.isDir = false then (.error .enotdir, s)
    else if vfsPermit vnode permission (wOk ||| xOk) ≠ none then (.error .eacces, s)
    else if vfsIsValidName name = false then (.error .einval, s)
    else if mode &&& (unmodifiableModeBits - dmdir) ≠ 0 then (.error .einval, s)
    else if mode &&& dmdir ≠ 0 ∧ flags &&& oAccmode ≠ oRdonly then (.error .einval, s)
    else
      match vfsWalk s (some parent) name oAccmode permission with
      | (.ok v, s) => (.error .eexist, (vnodesRemove s v).2)
      | (.error _, s) =>
        match tfsCreate s parent name with
        | (.error e, s) => (.error e, s)
        | (.ok v, s) => (.ok v, adopt s parent v mode permission)

def vfsRemove (s : Vfs) (v : ℕ) (permission : Permission) : Option Errno × Vfs :=
  match s.vnodes v with
  | none => (some .eio, s)
  | some vnode =>
    match vnode.parent with
    | none => (some .einval, s)
    | some parent =>
      match s.vnodes parent with
      | none => (some .eio, s)
      | some dir =>
        if dir.isDir = false then (some .enotdir, s)
        else if vfsPermit dir permission (wOk ||| xOk) ≠ none then (some .eacces, s)
        else if 1 < vnode.referCount then (some .ebusy, s)
        else
          match tfsRemove s parent v with
          | (some e, s) => (some e, s)
          | (none, s) => (none, (vnodesRemove s v).2)

/-- `tfs_mount`. Where the super block is refused its buffer stays locked: `fs->private` is not
set yet when it is released. -/
def tfsMount (s : Vfs) (root : ℕ) : Option Errno × Vfs :=
  match s.get superBlockNo with
  | (none, s) => (some .eio, s)
  | (some p, s) =>
    if word (s.buf (some p)) 14 ≠ magic ∨ word (s.buf (some p)) 2 ≠ blockSize then
      (some .einval, (s.release s.tfs false).2)
    else
      let s := { s with tfs := some p }
      match tfsOpen s s.dblkno root with
      | (some e, s) => (some e, (s.release s.tfs false).2)
      | (none, s) => (none, s)

def vfsMount (s : Vfs) : Option Errno × Vfs :=
  match vnodesCreate s none with
  | (none, s) => (some .enomem, s)
  | (some root, s) =>
    match tfsMount { s with list := [] } root with
    | (some e, s) => (some e, (vnodesRemove s root).2)
    | (none, s) => (none, vnodesAppend { s with root := some root } root)

/-- What `cache_initialize` and `vnodes_initialize` leave of the device `disk`. -/
def fsInitialize (disk : ℕ → Block) (faults : List Bool) (clock : Clock) (stack : ℕ → UInt8) :
    Vfs where
  cache := cacheInitialize disk faults
  tfs := none
  root := none
  vnodes := fun _ => none
  list := []
  spare := List.range slabVnodes
  clock := clock
  stack := stack
  stale := []

def emptyDisk : ℕ → Block
  | 1 => Lib.Bytes.ofWords [1, 3, blockSize, 0, 9, 1, 0, 0, 0, 0, 0, 0, 0, 0, magic, 28, 4]
  | 2 => Lib.Bytes.ofWords [0xfffffff0]
  | 3 => Lib.Bytes.ofWords [0o040777, 3]
  | _ => Lib.Bytes.zero

end Eotan.Fs
