import Mathlib.Algebra.Order.Ring.Nat
import Mathlib.Data.Nat.Bitwise
import Mathlib.Tactic.Common

/-!
The nodes that `lfq_initialize` lays out in the buffer of a queue, in the numbers of `size_t`.
-/

namespace Eotan.Queue

def sizeofPtr : ℕ := 4
def sizeofEntry : ℕ := 4
def sizeofNode : ℕ := 8

def lfqNodeSize (size : ℕ) : ℕ := (size + sizeofNode) % 2 ^ 32

def lfqBufSize (size nodeNum : ℕ) : ℕ := lfqNodeSize size * nodeNum % 2 ^ 32

-- `& ~(sizeof(uintptr_t) - 1)` drops the remainder.
def lfsEntrySize (size : ℕ) : ℕ :=
  let rounded := (size + sizeofEntry + sizeofPtr - 1) % 2 ^ 32
  rounded - rounded % sizeofPtr

/-- The entry that the loop of `lfs_initialize` has come to after `i` turns. -/
def lfsEntry (buf size : ℕ) : ℕ → ℕ
  | 0 => buf
  | i + 1 => (lfsEntry buf size i + lfsEntrySize size) % 2 ^ 32

-- Without entries `entry_num - 1` is the greatest unsigned number.
def lfsTurns (entryNum : ℕ) : ℕ := (entryNum + 2 ^ 32 - 1) % 2 ^ 32

def lfqNode (buf size : ℕ) : ℕ → ℕ :=
  lfsEntry buf ((lfqNodeSize size + 2 ^ 32 - sizeofEntry) % 2 ^ 32)

/-- Each node has room for its link and for the value that `lfq_enqueue` copies. -/
structure Fits (buf size nodeNum : ℕ) : Prop where
  inside : ∀ i ≤ lfsTurns nodeNum, buf ≤ lfqNode buf size i ∧
    lfqNode buf size i + (size + sizeofNode) ≤ buf + lfqBufSize size nodeNum
  disjoint : ∀ i j, i < j → j ≤ lfsTurns nodeNum →
    lfqNode buf size i + (size + sizeofNode) ≤ lfqNode buf size j ∨
      lfqNode buf size j + (size + sizeofNode) ≤ lfqNode buf size i

variable {buf size nodeNum i : ℕ}

theorem lfqNode_succ (h : size + 8 < 2 ^ 32) :
    lfqNode buf size (i + 1) = (lfqNode buf size i + lfsEntrySize (size + 4)) % 2 ^ 32 := by
  have hsize : (lfqNodeSize size + 2 ^ 32 - sizeofEntry) % 2 ^ 32 = size + 4 := by
    unfold lfqNodeSize sizeofNode sizeofEntry
    omega
  rw [lfqNode, lfsEntry, hsize]

theorem lfqNode_eq (h : size + 8 < 2 ^ 32) (hi : buf + i * lfsEntrySize (size + 4) < 2 ^ 32) :
    lfqNode buf size i = buf + i * lfsEntrySize (size + 4) := by
  induction i with
  | zero => simp [lfqNode, lfsEntry]
  | succ i ih =>
    rw [Nat.succ_mul] at *
    rw [lfqNode_succ h, ih (by omega), Nat.mod_eq_of_lt (by omega)]
    omega

theorem lfsEntrySize_le (size : ℕ) : lfsEntrySize (size + 4) ≤ size + 11 :=
  (Nat.sub_le _ _).trans (Nat.mod_le _ _)

-- An entry beyond the address space would come round to one of the first three bytes.
theorem Fits.node_eq (h : Fits buf size nodeNum) (hsize : size + 8 < 2 ^ 32)
    (hbuf : buf + lfqBufSize size nodeNum ≤ 2 ^ 32) (hi : i ≤ lfsTurns nodeNum) :
    lfqNode buf size i = buf + i * lfsEntrySize (size + 4) := by
  induction i with
  | zero => simp [lfqNode, lfsEntry]
  | succ i ih =>
    have hlast := h.inside i (by omega)
    have hnext := h.inside (i + 1) hi
    have hapart := h.disjoint 0 (i + 1) (Nat.succ_pos i) hi
    have hfirst : lfqNode buf size 0 = buf := rfl
    have hstride := lfsEntrySize_le size
    rw [lfqNode_succ hsize, Nat.succ_mul] at *
    rw [← Nat.add_assoc, ← ih (by omega)]
    unfold sizeofNode at *
    omega

theorem lfqNodes_fit_iff {buf size nodeNum : ℕ} (hnum : nodeNum < 2 ^ 32)
    (hbuf : buf + lfqBufSize size nodeNum ≤ 2 ^ 32) : Fits buf size nodeNum ↔
      0 < nodeNum ∧ nodeNum * (size + sizeofNode) < 2 ^ 32 ∧ (nodeNum = 1 ∨ sizeofPtr ∣ size) := by
  have hlt : lfqBufSize size nodeNum < 2 ^ 32 := Nat.mod_lt _ (by decide)
  have hbytes (h : size + 8 < 2 ^ 32) : lfqBufSize size nodeNum = nodeNum * (size + 8) % 2 ^ 32 := by
    rw [lfqBufSize, lfqNodeSize, sizeofNode, Nat.mod_eq_of_lt h, Nat.mul_comm]
  have hstride : lfsEntrySize (size + 4) = (size + 11) % 2 ^ 32 - (size + 11) % 2 ^ 32 % 4 := rfl
  obtain _ | k := nodeNum
  · refine ⟨fun h => ?_, fun h => absurd h.1 (lt_irrefl 0)⟩
    exact absurd (h.inside 0 (Nat.zero_le _)).2 (by simp [lfqNode, lfsEntry, lfqBufSize, sizeofNode])
  have hturns : lfsTurns (k + 1) = k := by
    unfold lfsTurns
    omega
  rw [Nat.succ_mul] at *
  unfold sizeofPtr sizeofNode
  constructor
  · intro h
    have hfirst : buf + (size + 8) ≤ buf + lfqBufSize size (k + 1) := (h.inside 0 (Nat.zero_le _)).2
    have hsize : size + 8 < 2 ^ 32 := by omega
    have hlast := (h.inside k hturns.ge).2
    rw [h.node_eq hsize hbuf hturns.ge, hbytes hsize, sizeofNode] at hlast
    refine ⟨Nat.succ_pos k, ?_⟩
    obtain _ | k := k
    · omega
    have hsecond := h.disjoint 0 1 Nat.one_pos (by omega)
    rw [h.node_eq hsize hbuf (by omega), h.node_eq hsize hbuf (by omega), sizeofNode] at hsecond
    have hmul : k * (size + 8) ≤ k * lfsEntrySize (size + 4) := Nat.mul_le_mul_left k (by omega)
    rw [Nat.succ_mul] at hlast ⊢
    rw [Nat.succ_mul] at hlast
    omega
  · rintro ⟨-, hroom, hwhole⟩
    have hbytes' := hbytes (by omega)
    rw [Nat.mod_eq_of_lt hroom] at hbytes'
    have hnode : ∀ i ≤ k, lfqNode buf size i = buf + i * (size + 8) := by
      intro i hi
      obtain rfl | hdvd := hwhole.imp_left Nat.succ.inj
      · obtain rfl := Nat.le_zero.mp hi
        simp [lfqNode, lfsEntry]
      · have hexact : size + 8 = lfsEntrySize (size + 4) := by omega
        have hle := Nat.mul_le_mul_right (size + 8) hi
        rw [hexact] at hle hbytes' ⊢
        exact lfqNode_eq (by omega) (by omega)
    constructor
    · intro i hi
      have := Nat.mul_le_mul_right (size + 8) (hturns ▸ hi)
      rw [hnode i (by omega), hbytes', sizeofNode]
      omega
    · intro i j hij hj
      have := Nat.mul_le_mul_right (size + 8) (Nat.succ_le_of_lt hij)
      rw [Nat.succ_mul] at this
      rw [hnode i (by omega), hnode j (by omega), sizeofNode]
      omega

theorem lfqNodes_fit_two : Fits 0 4 2 :=
  (lfqNodes_fit_iff (by decide) (by decide)).mpr ⟨by decide, by decide, .inr (by decide)⟩

/-- The second of two nodes for a byte ends three bytes behind the buffer. -/
theorem lfqNodes_not_fit : ¬Fits 0 1 2 := by
  intro h
  exact absurd (h.inside 1 (by decide)).2 (by decide)

end Eotan.Queue
