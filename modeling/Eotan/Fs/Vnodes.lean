import Eotan.Fs.File

/-!
`vnodes.c`: the vnodes in memory and their reference counts.
-/

namespace Eotan.Fs

open Vfs

def slabVnodes : ℕ := 78

namespace Vfs

/-- `refer_count++`. The counts are bounded by the numbers of files and vnodes, so that they do not
wrap. -/
def retain (s : Vfs) (v : ℕ) : Vfs :=
  match s.vnodes v with
  | none => s
  | some vnode => s.setVnode v { vnode with referCount := vnode.referCount + 1 }

def freeVnode (s : Vfs) (v : ℕ) : Vfs :=
  { s with
    vnodes := Function.update s.vnodes v none
    list := s.list.erase v
    spare := v :: s.spare }

end Vfs

def newVnode (parent : Option ℕ) : Vnode where
  fs := false
  index := 0
  mode := 0
  uid := 0
  gid := 0
  size := 0
  inode := none
  dirty := false
  referCount := 1
  parent := parent

def vnodesCreate (s : Vfs) (parent : Option ℕ) : Option ℕ × Vfs :=
  match s.spare with
  | [] => (none, s)
  | v :: spare =>
    let s := { s with spare := spare }.setVnode v (newVnode parent)
    match parent with
    | none => (some v, s)
    | some p => (some v, s.retain p)

def vnodesAppend (s : Vfs) (v : ℕ) : Vfs := { s with list := v :: s.list }

def closeVnode (s : Vfs) (v : ℕ) (vnode : Vnode) : Option Errno × Vfs :=
  if vnode.fs = true then tfsClose s v else (none, s)

def removeLoop : ℕ → Vfs → ℕ → Option Errno × Vfs
  | 0, s, _ => (some .eio, s)
  | n + 1, s, v =>
    match s.vnodes v with
    -- the count of a freed entry is 0 until it is taken again, and now wraps
    | none => (none, { s with stale := v :: s.stale })
    | some vnode =>
      let s := s.setVnode v { vnode with referCount := vnode.referCount - 1 }
      if vnode.referCount - 1 ≠ 0 then (none, s)
      else
        match closeVnode s v vnode with
        | (some e, s) => (some e, s)
        | (none, s) =>
          match vnode.parent with
          | none => (none, s.freeVnode v)
          | some p => (none, (removeLoop n s p).2.freeVnode v)

def vnodesRemove (s : Vfs) (v : ℕ) : Option Errno × Vfs := removeLoop (slabVnodes + 1) s v

def vnodesFind (s : Vfs) (index : ℕ) : Option ℕ :=
  s.list.find? fun v => (s.vnodes v).any fun vnode => vnode.index = index

def vnodesSynchronize (s : Vfs) : Vfs := s.list.foldl (fun s v => (tfsSynchronize s v).2) s

end Eotan.Fs
