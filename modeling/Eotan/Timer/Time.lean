import Mathlib.Algebra.Order.Ring.Int
import Mathlib.Tactic.Linarith

/-!
Points in time (`time96.c`). The nanoseconds are stored with an offset, so that a whole second more
shows as an overflow, and all arithmetic is that of the machine.
-/

namespace Eotan.Timer

structure Timespec where
  sec : ℤ
  nsec : ℤ
  deriving DecidableEq

def int32 (n : ℤ) : ℤ := Int.bmod n (2 ^ 32)
def int64 (n : ℤ) : ℤ := Int.bmod n (2 ^ 64)

def offsetNsec : ℤ := 0x7fffffff - 1000 * 1000 * 1000 + 1

def timespecSet (sec nsec : ℤ) : Timespec := ⟨sec, int32 (nsec + offsetNsec)⟩

def timespecAdd (dest operand : Timespec) : Timespec :=
  let sec := int64 (dest.sec + operand.sec)
  let nsec := int32 (dest.nsec + operand.nsec)
  if nsec < 0 then ⟨int64 (sec + 1), int32 (nsec % 2 ^ 31 + offsetNsec)⟩ else ⟨sec, nsec⟩

def timespecCompare (t1 t2 : Timespec) : ℤ :=
  let diff := int64 (t1.sec - t2.sec)
  if diff < 0 then -1 else if diff > 0 then 1 else int32 (t1.nsec - t2.nsec)

/-- A point in time without overflow: seconds and stored nanoseconds, which may be more than a
second's worth. -/
structure Instant where
  sec : ℤ
  nsec : ℤ
  offset_le : offsetNsec ≤ nsec
  lt_offset : nsec < offsetNsec + 2 ^ 31

namespace Instant

def rank (i : Instant) : ℤ := i.sec * 2 ^ 32 + i.nsec

def stored (i : Instant) : Timespec := ⟨int64 i.sec, int32 i.nsec⟩

end Instant

theorem int64_sub_int64 {a b : ℤ} (h1 : a - b < 2 ^ 63) (h2 : -2 ^ 63 < a - b) :
    int64 (int64 a - int64 b) = a - b := by
  unfold int64
  rw [Int.bmod_sub_bmod, Int.sub_bmod_bmod]
  apply Int.bmod_eq_of_le <;> omega

theorem int32_sub_int32 {a b : ℤ} (h1 : a - b < 2 ^ 31) (h2 : -2 ^ 31 < a - b) :
    int32 (int32 a - int32 b) = a - b := by
  unfold int32
  rw [Int.bmod_sub_bmod, Int.sub_bmod_bmod]
  apply Int.bmod_eq_of_le <;> omega

theorem timespecCompare_stored (i j : Instant) (h1 : i.sec - j.sec < 2 ^ 63)
    (h2 : -2 ^ 63 < i.sec - j.sec) : (timespecCompare i.stored j.stored = 0 ↔ i.rank = j.rank) ∧
      (timespecCompare i.stored j.stored < 0 ↔ i.rank < j.rank) := by
  have hi := i.offset_le
  have hi' := i.lt_offset
  have hj := j.offset_le
  have hj' := j.lt_offset
  unfold timespecCompare Instant.stored Instant.rank
  simp only
  rw [int64_sub_int64 h1 h2, int32_sub_int32 (by omega) (by omega)]
  unfold offsetNsec at hi hi' hj hj'
  split
  · omega
  · split
    · omega
    · omega

theorem int32_of_lt {n : ℤ} (h0 : 0 ≤ n) (h : n < 2 ^ 31) : int32 n = n := by
  apply Int.bmod_eq_of_le <;> omega

theorem int32_of_ge {n : ℤ} (h : 2 ^ 31 ≤ n) (h' : n < 2 ^ 32) : int32 n = n - 2 ^ 32 := by
  rw [int32, ← Int.sub_bmod_right]
  apply Int.bmod_eq_of_le <;> omega

theorem timespecAdd_stored (i : Instant) (hi : i.nsec < 2 ^ 31) (d : Timespec)
    (hnsec : 0 ≤ d.nsec) (hnsec' : d.nsec < 2 ^ 31) : ∃ j : Instant, timespecAdd i.stored d = j.stored ∧
      (j.sec = i.sec + d.sec ∧ j.nsec = i.nsec + d.nsec ∧ j.nsec < 2 ^ 31 ∨
        j.sec = i.sec + d.sec + 1 ∧ j.nsec = i.nsec + d.nsec - 1000 * 1000 * 1000) := by
  have hlow := i.offset_le
  have hoffset : offsetNsec = 2 ^ 31 - 1000 * 1000 * 1000 := rfl
  have hadd : timespecAdd i.stored d = timespecAdd ⟨i.sec, i.nsec⟩ d := by
    simp only [timespecAdd, Instant.stored, int64, int32, Int.bmod_add_bmod]
  rw [hadd]
  by_cases hcarry : i.nsec + d.nsec < 2 ^ 31
  · refine ⟨⟨i.sec + d.sec, i.nsec + d.nsec, by omega, by omega⟩, ?_, .inl ⟨rfl, rfl, hcarry⟩⟩
    rw [timespecAdd]
    simp only
    rw [int32_of_lt (by omega) hcarry, if_neg (by omega), Instant.stored, int32_of_lt (by omega) hcarry]
  · refine ⟨⟨i.sec + d.sec + 1, i.nsec + d.nsec - 1000 * 1000 * 1000, by omega, by omega⟩, ?_, .inr ⟨rfl, rfl⟩⟩
    rw [timespecAdd]
    simp only
    rw [int32_of_ge (by omega) (by omega), if_pos (by omega), Instant.stored]
    simp only [int64, Int.bmod_add_bmod, Timespec.mk.injEq, true_and]
    congr 1
    omega

def nanos (sec nsec : ℤ) : ℤ := sec * (1000 * 1000 * 1000) + nsec

theorem timespecSet_eq (sec : ℤ) {nsec : ℤ} (hlow : 0 ≤ nsec) (hnsec : nsec < 1000 * 1000 * 1000) :
    timespecSet sec nsec = ⟨sec, nsec + offsetNsec⟩ := by
  rw [timespecSet, int32_of_lt]
  all_goals
    unfold offsetNsec
    omega

theorem timespecAdd_set {sec nsec : ℤ} {d : Timespec} (hlow : 0 ≤ nsec)
    (hnsec : nsec < 1000 * 1000 * 1000) (hd : 0 ≤ d.nsec) (hdnsec : d.nsec < 1000 * 1000 * 1000)
    (hsec : -2 ^ 63 ≤ sec + d.sec) (hfits : nanos (sec + d.sec) (nsec + d.nsec) < nanos (2 ^ 63) 0) :
    ∃ sec' nsec', timespecAdd (timespecSet sec nsec) d = timespecSet sec' nsec' ∧ 0 ≤ nsec' ∧
      nsec' < 1000 * 1000 * 1000 ∧ nanos sec' nsec' = nanos (sec + d.sec) (nsec + d.nsec) := by
  unfold nanos at *
  have hoffset : offsetNsec = 2 ^ 31 - 1000 * 1000 * 1000 := rfl
  have hsum : int64 (sec + d.sec) = sec + d.sec := by
    apply Int.bmod_eq_of_le <;> omega
  rw [timespecSet_eq sec hlow hnsec, timespecAdd]
  simp only [hsum]
  by_cases hcarry : nsec + d.nsec < 1000 * 1000 * 1000
  · refine ⟨sec + d.sec, nsec + d.nsec, ?_, by omega, hcarry, rfl⟩
    rw [timespecSet_eq _ (by omega) hcarry, int32_of_lt (by omega) (by omega), if_neg (by omega), add_right_comm]
  refine ⟨sec + d.sec + 1, nsec + d.nsec - 1000 * 1000 * 1000, ?_, by omega, by omega, by omega⟩
  have hnext : int64 (sec + d.sec + 1) = sec + d.sec + 1 := by
    apply Int.bmod_eq_of_le <;> omega
  rw [timespecSet, int32_of_ge (by omega) (by omega), if_pos (by omega), hnext]
  congr 2
  omega

theorem timespecCompare_set {sec nsec sec' nsec' : ℤ} (hlow : 0 ≤ nsec)
    (hnsec : nsec < 1000 * 1000 * 1000) (hlow' : 0 ≤ nsec') (hnsec' : nsec' < 1000 * 1000 * 1000)
    (hahead : sec' - sec < 2 ^ 63) (hbehind : sec - sec' < 2 ^ 63) :
    (timespecCompare (timespecSet sec nsec) (timespecSet sec' nsec') < 0 ↔ nanos sec nsec < nanos sec' nsec') ∧
      (timespecCompare (timespecSet sec nsec) (timespecSet sec' nsec') = 0 ↔
        nanos sec nsec = nanos sec' nsec') := by
  unfold nanos
  have hdiff : int64 (sec - sec') = sec - sec' := by
    apply Int.bmod_eq_of_le <;> omega
  have hrest : int32 (nsec + offsetNsec - (nsec' + offsetNsec)) = nsec - nsec' := by
    rw [add_sub_add_right_eq_sub]
    apply Int.bmod_eq_of_le <;> omega
  rw [timespecSet_eq sec hlow hnsec, timespecSet_eq sec' hlow' hnsec', timespecCompare]
  simp only [hdiff, hrest]
  split
  · omega
  · split <;> omega

end Eotan.Timer
