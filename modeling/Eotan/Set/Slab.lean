import Mathlib.Data.List.Basic
import Mathlib.Data.List.Nodup
import Mathlib.Data.Nat.Bitwise
import Mathlib.Logic.Function.Basic

/-!
`slab.c`: fixed-size entries cut out of blocks that `palloc` gives. The intrusive lists are lists
of addresses; `size_t` has 32 bits.
-/

namespace Eotan.Slabs

def headerSize : ℕ := 32
def entrySize : ℕ := 8

def add (m n : ℕ) : ℕ := (m + n) % 2 ^ 32
def inc (n : ℕ) : ℕ := add 1 n
def dec (n : ℕ) : ℕ := add (2 ^ 32 - 1) n

structure Block where
  entries : List ℕ
  entryNum : ℕ

structure Slab where
  unitSize : ℕ
  blockSize : ℕ
  minBlock : ℕ
  maxBlock : ℕ
  entriesPerBlock : ℕ
  mask : ℕ
  offset : ℕ
  empties : List ℕ
  emptyNum : ℕ
  blocks : List ℕ
  blockNum : ℕ
  block : ℕ → Block
  /-- Not in the source: what `palloc` has given and `pfree` has not taken back. -/
  pages : List ℕ

structure Params where
  unitSize : ℕ
  blockSize : ℕ
  minBlock : ℕ
  maxBlock : ℕ
  unitSize_lt : unitSize < 2 ^ 32
  blockSize_lt : blockSize < 2 ^ 32
  minBlock_lt : minBlock < 2 ^ 32
  maxBlock_lt : maxBlock < 2 ^ 32

def Fresh (s : Slab) (a : ℕ) : Prop :=
  0 < a ∧ a % s.blockSize = 0 ∧ a + s.blockSize ≤ 2 ^ 32 ∧ a ∉ s.pages

instance (s : Slab) (a : ℕ) : Decidable (Fresh s a) :=
  inferInstanceAs (Decidable (_ ∧ _))

def palloc (s : Slab) (a : ℕ) : Option ℕ × Slab :=
  if Fresh s a then (some a, { s with pages := a :: s.pages }) else (none, s)

def pfree (s : Slab) (b : ℕ) : Slab := { s with pages := s.pages.erase b }

def setBlock (s : Slab) (b : ℕ) (x : Block) : Slab :=
  { s with block := Function.update s.block b x }

def entry (s : Slab) (b i : ℕ) : ℕ := b + headerSize + s.offset + i * s.unitSize

def entriesOf (s : Slab) (b : ℕ) : List ℕ := (List.range s.entriesPerBlock).map (entry s b)

def slabAddBlock (s : Slab) (a : ℕ) : Option ℕ × Slab :=
  if s.blockNum ≥ s.maxBlock then (none, s)
  else
    match palloc s a with
    | (none, s) => (none, s)
    | (some b, s) =>
      (some b, { setBlock s b ⟨entriesOf s b, s.entriesPerBlock⟩ with
        empties := s.empties ++ [b]
        emptyNum := inc s.emptyNum
        blocks := s.blocks ++ [b]
        blockNum := inc s.blockNum })

def createLoop (answers : ℕ → ℕ) : ℕ → ℕ → Slab → Slab
  | 0, _, s => s
  | n + 1, i, s =>
    match slabAddBlock s (answers i) with
    | (none, s) => s
    | (some _, s) => createLoop answers n (i + 1) s

def slabCreate (p : Params) (answers : ℕ → ℕ) : Option Slab :=
  if p.blockSize = 0 ∨ p.unitSize < entrySize ∨ add headerSize p.unitSize > p.blockSize ∨
      p.maxBlock = 0 then none
  else
    some (createLoop answers p.minBlock 0
      { unitSize := p.unitSize
        blockSize := p.blockSize
        minBlock := p.minBlock
        maxBlock := p.maxBlock
        entriesPerBlock := add (2 ^ 32 - headerSize) p.blockSize / p.unitSize
        mask := 2 ^ 32 - 1 - (p.blockSize - 1)
        offset := 0
        empties := []
        emptyNum := 0
        blocks := []
        blockNum := 0
        block := fun _ => ⟨[], 0⟩
        pages := [] })

def takeEntry (s : Slab) (b : ℕ) : Option ℕ × Slab :=
  let entryNum := dec (s.block b).entryNum
  let s := setBlock s b ⟨(s.block b).entries, entryNum⟩
  let s :=
    if entryNum = 0 then { s with empties := s.empties.erase b, emptyNum := dec s.emptyNum } else s
  match (s.block b).entries with
  | [] => (none, s)
  | p :: entries => (some p, setBlock s b ⟨entries, entryNum⟩)

def slabAlloc (s : Slab) (a : ℕ) : Option ℕ × Slab :=
  match s.empties with
  | b :: _ => takeEntry s b
  | [] =>
    match slabAddBlock s a with
    | (none, s) => (none, s)
    | (some _, s) =>
      match s.empties with
      | b :: _ => takeEntry s b
      | [] => (none, s)

def slabFree (s : Slab) (p : ℕ) : Slab :=
  let b := p &&& s.mask
  let s :=
    if (s.block b).entryNum = 0 then
      { s with empties := s.empties ++ [b], emptyNum := inc s.emptyNum }
    else s
  let entryNum := inc (s.block b).entryNum
  let s := setBlock s b ⟨(s.block b).entries, entryNum⟩
  if entryNum = s.entriesPerBlock ∧ s.emptyNum > 1 ∧ s.blockNum > s.minBlock then
    pfree { s with
      empties := s.empties.erase b
      emptyNum := dec s.emptyNum
      blocks := s.blocks.erase b
      blockNum := dec s.blockNum } b
  else setBlock s b ⟨p :: (s.block b).entries, entryNum⟩

inductive Event where
  | alloc (a : ℕ)
  | free (p : ℕ)

structure State where
  slab : Slab
  live : List ℕ

def step (s : State) : Event → Option State
  | .alloc a =>
    match slabAlloc s.slab a with
    | (none, slab) => some ⟨slab, s.live⟩
    | (some p, slab) => some ⟨slab, p :: s.live⟩
  | .free p => if p ∈ s.live then some ⟨slabFree s.slab p, s.live.erase p⟩ else none

def run (s : State) : List Event → Option State
  | [] => some s
  | e :: es => (step s e).bind fun s => run s es

end Eotan.Slabs
