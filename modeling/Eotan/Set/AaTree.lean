import Mathlib.Data.Finmap
import Mathlib.Logic.Function.Basic

/-!
The tree of `lib/libnc/set/aatree.c` and its companions, as functions on a memory of nodes.
A pointer is an address, `nil_node` is the node at address `nilNode`, and `NULL` is `none`.
Recursive functions carry fuel; `none` outside the result is a run that has not finished.
-/

namespace Eotan.AaTree

abbrev Addr := ℕ

structure Node where
  key : ℤ
  level : ℤ
  left : Addr
  right : Addr
deriving DecidableEq, Repr

abbrev Mem := Addr → Node

def nilNode : Addr := 0

def isNil (p : Addr) : Bool := p == nilNode

def setKey (m : Mem) (p : Addr) (k : ℤ) : Mem := Function.update m p { m p with key := k }
def setLevel (m : Mem) (p : Addr) (n : ℤ) : Mem := Function.update m p { m p with level := n }
def setLeft (m : Mem) (p q : Addr) : Mem := Function.update m p { m p with left := q }
def setRight (m : Mem) (p q : Addr) : Mem := Function.update m p { m p with right := q }

structure Tree where
  compare : ℤ → ℤ → ℤ
  root : Addr
  nodeNum : ℕ
  removed : Option Addr

def compareInt (a b : ℤ) : ℤ := if a > b then 1 else if a = b then 0 else -1

def nodeDestroy (t : Tree) (p : Addr) : Tree := { t with removed := some p, nodeNum := t.nodeNum - 1 }

def nodeSkew (m : Mem) (p : Addr) : Mem × Addr :=
  if (m (m p).left).level = (m p).level then
    let q := (m p).left
    let m := setLeft m p (m q).right
    let m := setRight m q p
    (m, q)
  else (m, p)

def nodeSplit (m : Mem) (p : Addr) : Mem × Addr :=
  if (m (m (m p).right).right).level = (m p).level then
    let q := (m p).right
    let m := setRight m p (m q).left
    let m := setLeft m q p
    let m := setLevel m q ((m q).level + 1)
    (m, q)
  else (m, p)

def nodePut (t : Tree) : ℕ → Mem → Addr → Addr → Option (Mem × Option Addr)
  | 0, _, _, _ => none
  | n + 1, m, p, child =>
    if isNil p then some (m, some child)
    else
      let d := t.compare (m child).key (m p).key
      if d = 0 then some (m, none)
      else if d < 0 then do
        let (m, q) ← nodePut t n m (m p).left child
        match q with
        | none => some (m, none)
        | some q =>
          let x := nodeSkew (setLeft m p q) p
          let x := nodeSplit x.1 x.2
          some (x.1, some x.2)
      else do
        let (m, q) ← nodePut t n m (m p).right child
        match q with
        | none => some (m, none)
        | some q =>
          let x := nodeSkew (setRight m p q) p
          let x := nodeSplit x.1 x.2
          some (x.1, some x.2)

def onRight (f : Mem → Addr → Mem × Addr) (m : Mem) (p : Addr) : Mem × Addr :=
  let x := f m (m p).right
  (setRight x.1 p x.2, p)

def nodeRebalance (m : Mem) (p : Addr) : Mem × Addr :=
  if (m (m p).left).level < (m p).level - 1 ∨ (m (m p).right).level < (m p).level - 1 then
    let m := setLevel m p ((m p).level - 1)
    let m := if (m (m p).right).level > (m p).level then setLevel m (m p).right (m p).level else m
    let x := nodeSkew m p
    let x := onRight nodeSkew x.1 x.2
    let x := onRight (onRight nodeSkew) x.1 x.2
    let x := nodeSplit x.1 x.2
    onRight nodeSplit x.1 x.2
  else (m, p)

/-- `dst` is the content of the cell the source passes by address; it comes back changed. -/
def nodeRemoveSwap : ℕ → Tree → Mem → Addr → Addr → Option (Tree × Mem × Addr × Addr)
  | 0, _, _, _, _ => none
  | n + 1, t, m, p, dst =>
    if isNil (m p).left then
      let q := (m p).right
      let m := setLevel m p (m dst).level
      let m := setLeft m p (m dst).left
      some (nodeDestroy t dst, m, q, p)
    else do
      let (t, m, q, dst) ← nodeRemoveSwap n t m (m p).left dst
      let x := nodeRebalance (setLeft m p q) p
      some (t, x.1, x.2, dst)

def nodeRemove : ℕ → Tree → Mem → Addr → ℤ → Option (Tree × Mem × Addr)
  | 0, _, _, _, _ => none
  | n + 1, t, m, p, key =>
    if isNil p then some (t, m, p)
    else
      let d := t.compare key (m p).key
      if d = 0 then
        if isNil (m p).left then some (nodeDestroy t p, m, (m p).right)
        else if isNil (m p).right then some (nodeDestroy t p, m, (m p).left)
        else do
          let (t, m, r, p) ← nodeRemoveSwap n t m (m p).right p
          let x := nodeRebalance (setRight m p r) p
          some (t, x.1, x.2)
      else if d < 0 then do
        let (t, m, q) ← nodeRemove n t m (m p).left key
        let x := nodeRebalance (setLeft m p q) p
        some (t, x.1, x.2)
      else do
        let (t, m, q) ← nodeRemove n t m (m p).right key
        let x := nodeRebalance (setRight m p q) p
        some (t, x.1, x.2)

def depthFuel (t : Tree) : ℕ := t.nodeNum + 1

def treeCreate (compare : Option (ℤ → ℤ → ℤ)) : Tree :=
  { compare := compare.getD compareInt, root := nilNode, nodeNum := 0, removed := none }

def treeGetLoop (t : Tree) (m : Mem) (key : ℤ) : ℕ → Addr → Option (Option Addr)
  | 0, _ => none
  | n + 1, p =>
    if isNil p then some none
    else
      let d := t.compare key (m p).key
      if d = 0 then some (some p)
      else treeGetLoop t m key n (if d < 0 then (m p).left else (m p).right)

def treeGet (t : Tree) (m : Mem) (key : ℤ) : Option (Option Addr) :=
  treeGetLoop t m key (depthFuel t) t.root

def treePut (t : Tree) (m : Mem) (key : ℤ) (node : Addr) : Option (Tree × Mem × Option Addr) := do
  let m := setKey m node key
  let m := setLevel m node 1
  let m := setLeft m node nilNode
  let m := setRight m node nilNode
  let (m, p) ← nodePut t (depthFuel t) m t.root node
  match p with
  | some p => some ({ t with root := p, nodeNum := t.nodeNum + 1 }, m, some p)
  | none => some (t, m, none)

def treeRemove (t : Tree) (m : Mem) (key : ℤ) : Option (Tree × Mem × Option Addr) := do
  let t := { t with removed := none }
  let (t, m, p) ← nodeRemove (depthFuel t) t m t.root key
  some ({ t with root := p }, m, t.removed)

def treeSize (t : Tree) : ℕ := t.nodeNum

def treeFirstLoop (m : Mem) : ℕ → Addr → Option Addr
  | 0, _ => none
  | n + 1, p => if isNil (m p).left then some p else treeFirstLoop m n (m p).left

def treeFirst (t : Tree) (m : Mem) : Option (Option Addr) :=
  if isNil t.root then some none else (treeFirstLoop m (depthFuel t) t.root).map some

section Traverse

variable {σ : Type} (callback : Addr → σ → σ × Bool)

def traverseFrom (m : Mem) : ℕ → Addr → σ → Option (σ × Bool)
  | 0, _, _ => none
  | n + 1, p, state =>
    if isNil p then some (state, false)
    else do
      let (state, stop) ← traverseFrom m n (m p).left state
      if stop then some (state, true)
      else
        let (state, stop) := callback p state
        if stop then some (state, true)
        else traverseFrom m n (m p).right state

def treeTraverse (t : Tree) (m : Mem) (state : σ) : Option σ :=
  (traverseFrom callback m (depthFuel t) t.root state).map Prod.fst

end Traverse

end Eotan.AaTree
