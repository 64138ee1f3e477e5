import Mathlib.Algebra.Order.Ring.Nat
import Mathlib.Data.Nat.Bitwise
import Eotan.Set.List

/-!
Hash tables (`hash.c`). The nodes of the lists are the guards of the spare entries and of the
chains, and the entries.
-/

namespace Eotan.Hash

open Intrusive
open Lib (Links)

inductive Slot where
  | spares
  | chain (i : ℕ)
  | entry (i : ℕ)
  deriving DecidableEq

/-- Keys stand for their contents; `none` is the null pointer. -/
structure Table (K V : Type) where
  links : Links Slot
  key : Slot → Option K
  value : Slot → Option V
  size : ℕ
  num : ℕ
  max : ℕ

def hashMinBits : ℕ := 5
def hashMaxBits : ℕ := 20

def primes : List ℕ :=
  [31, 61, 127, 251, 509, 1021, 2039, 4093, 8191, 16381, 32749, 65521, 131071, 262139, 524287,
    1048573]

def calcBitsFrom (max : ℕ) : ℕ → ℕ
  | 0 => 1
  | n + 1 => if max.testBit (n + 1) then n + 2 else calcBitsFrom max n

def calcBits (max : ℕ) : ℕ := calcBitsFrom max 31

def initList (m : Links Slot) (size : ℕ) : Links Slot :=
  (List.range size).foldl (fun m i => listAppend m .spares (.entry i)) (listInitialize m .spares)

def initTbl (m : Links Slot) (size : ℕ) : Links Slot :=
  (List.range size).foldl (fun m i => listInitialize m (.chain i)) m

section

variable {K V : Type} (calcHash : K → ℕ → ℕ) (cmp : K → K → ℤ)

def hashCreate (max : ℕ) (fresh : Option (Table K V)) : Option (Table K V) :=
  let bits := calcBits max
  let bits := if bits < hashMinBits then hashMinBits
    else if bits > hashMaxBits then hashMaxBits else bits
  let size := primes.getD (bits - hashMinBits) 0
  match fresh with
  | none => none
  | some h => some { h with
      links := initTbl (initList h.links max) size
      size := size
      num := 0
      max := max }

def getHead (h : Table K V) (k : K) : Slot := .chain (calcHash k h.size)

def hits (h : Table K V) (k : K) (p : Slot) : Bool :=
  match h.key p with
  | some k' => cmp k k' = 0
  | none => false

def findEntryFrom (h : Table K V) (head : Slot) (k : K) : ℕ → Slot → Option Slot
  | 0, _ => none
  | fuel + 1, p =>
    if head = p then none
    else if hits cmp h k p then some p
    else findEntryFrom h head k fuel (h.links.next p)

def findEntry (h : Table K V) (head : Slot) (k : K) : Option Slot :=
  findEntryFrom cmp h head k (h.max + 1) (h.links.next head)

def hashGet (h : Table K V) (k : K) : Option V × Table K V :=
  let head := getHead calcHash h k
  match findEntry cmp h head k with
  | none => (none, h)
  | some p =>
    if p ≠ h.links.next head then
      (h.value p, { h with links := listInsert (listRemove h.links p) head p })
    else (h.value p, h)

def setEntry (h : Table K V) (p : Slot) (k : Option K) (v : Option V) : Table K V :=
  { h with key := Function.update h.key p k, value := Function.update h.value p v }

def hashPut (h : Table K V) (k : K) (v : Option V) : Bool × Table K V :=
  let head := getHead calcHash h k
  match findEntry cmp h head k with
  | some p => (true, setEntry h p (some k) v)
  | none =>
    match listPick h.links .spares with
    | (none, _) => (false, h)
    | (some p, links) =>
      (true, setEntry { h with num := h.num + 1, links := listInsert links head p } p (some k) v)

def hashRemove (h : Table K V) (k : K) : Bool × Table K V :=
  match findEntry cmp h (getHead calcHash h k) k with
  | none => (false, h)
  | some p =>
    let h := setEntry { h with num := h.num - 1, links := listRemove h.links p } p none none
    (true, { h with links := listInsert h.links .spares p })

inductive Op (K V : Type) where
  | get (k : K)
  | put (k : K) (v : Option V)
  | remove (k : K)

inductive Reply (V : Type) where
  | value (v : Option V)
  | code (ok : Bool)
  deriving DecidableEq

def step (h : Table K V) : Op K V → Reply V × Table K V
  | .get k =>
    match hashGet calcHash cmp h k with
    | (v, h) => (.value v, h)
  | .put k v =>
    match hashPut calcHash cmp h k v with
    | (ok, h) => (.code ok, h)
  | .remove k =>
    match hashRemove calcHash cmp h k with
    | (ok, h) => (.code ok, h)

def run (h : Table K V) : List (Op K V) → List (Reply V) × Table K V
  | [] => ([], h)
  | op :: ops =>
    let r := step calcHash cmp h op
    let r' := run r.2 ops
    (r.1 :: r'.1, r'.2)

end

end Eotan.Hash
