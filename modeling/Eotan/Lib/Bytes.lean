import Mathlib.Algebra.Order.Ring.Nat
import Mathlib.Data.Nat.Bitwise
import Mathlib.Data.UInt
import Mathlib.Tactic.Ring

/-!
Buffers of bytes that are also read as little-endian 32-bit words.
-/

namespace Eotan.Lib.Bytes

abbrev Block := ℕ → UInt8

def zero : Block := fun _ => 0

def word (b : Block) (j : ℕ) : ℕ :=
  (b (4 * j)).toNat + 2 ^ 8 * (b (4 * j + 1)).toNat + 2 ^ 16 * (b (4 * j + 2)).toNat +
    2 ^ 24 * (b (4 * j + 3)).toNat

def setWord (b : Block) (j v : ℕ) : Block := fun i =>
  if i / 4 = j then UInt8.ofNat (v / 2 ^ (8 * (i % 4))) else b i

def splice (b : Block) (skip len : ℕ) (src : ℕ → UInt8) : Block := fun i =>
  if skip ≤ i ∧ i < skip + len then src (i - skip) else b i

def ofWords (words : List ℕ) : Block := fun i =>
  UInt8.ofNat (words.getD (i / 4) 0 / 2 ^ (8 * (i % 4)))

theorem word_lt (b : Block) (j : ℕ) : word b j < 2 ^ 32 := by
  have h0 := (b (4 * j)).toNat_lt
  have h1 := (b (4 * j + 1)).toNat_lt
  have h2 := (b (4 * j + 2)).toNat_lt
  have h3 := (b (4 * j + 3)).toNat_lt
  unfold word
  omega

@[simp]
theorem word_zero (j : ℕ) : word zero j = 0 := rfl

theorem setWord_of_ne {b : Block} {i j v : ℕ} (h : i / 4 ≠ j) : setWord b j v i = b i := if_neg h

theorem toNat_setWord (b : Block) (j v r : ℕ) (hr : r < 4) :
    (setWord b j v (4 * j + r)).toNat = v / 2 ^ (8 * r) % 2 ^ 8 := by
  have hdiv : (4 * j + r) / 4 = j := by omega
  have hmod : (4 * j + r) % 4 = r := by omega
  rw [setWord, if_pos hdiv, hmod]
  rfl

theorem word_setWord_self (b : Block) (j : ℕ) {v : ℕ} (h : v < 2 ^ 32) : word (setWord b j v) j = v := by
  have h0 := toNat_setWord b j v 0 (by decide)
  have h1 := toNat_setWord b j v 1 (by decide)
  have h2 := toNat_setWord b j v 2 (by decide)
  have h3 := toNat_setWord b j v 3 (by decide)
  rw [Nat.add_zero] at h0
  unfold word
  rw [h0, h1, h2, h3]
  omega

theorem word_setWord_ne (b : Block) {i j : ℕ} (v : ℕ) (h : i ≠ j) : word (setWord b j v) i = word b i := by
  unfold word
  rw [setWord_of_ne (by omega), setWord_of_ne (by omega), setWord_of_ne (by omega), setWord_of_ne (by omega)]

theorem word_ofWords (words : List ℕ) (j : ℕ) (h : words.getD j 0 < 2 ^ 32) :
    word (ofWords words) j = words.getD j 0 := by
  have hbyte : ∀ i, i / 4 = j → ofWords words i = setWord zero j (words.getD j 0) i := by
    rintro i rfl
    rw [setWord, if_pos rfl]
    rfl
  calc word (ofWords words) j = word (setWord zero j (words.getD j 0)) j := by
        unfold word
        rw [hbyte _ (by omega), hbyte _ (by omega), hbyte _ (by omega), hbyte _ (by omega)]
    _ = words.getD j 0 := word_setWord_self zero j h

theorem testBit_word (b : Block) (j : ℕ) {k : ℕ} (h : k < 32) :
    (word b j).testBit k = (b (4 * j + k / 8)).toNat.testBit (k % 8) := by
  have h0 := (b (4 * j)).toNat_lt
  have h1 := (b (4 * j + 1)).toNat_lt
  have h2 := (b (4 * j + 2)).toNat_lt
  have hword : word b j = 2 ^ 8 * (2 ^ 8 * (2 ^ 8 * (b (4 * j + 3)).toNat + (b (4 * j + 2)).toNat) +
      (b (4 * j + 1)).toNat) + (b (4 * j)).toNat := by
    unfold word
    ring
  rw [hword, Nat.testBit_two_pow_mul_add _ h0]
  split_ifs with hk0
  · rw [show k / 8 = 0 by omega, show k % 8 = k by omega, Nat.add_zero]
  rw [Nat.testBit_two_pow_mul_add _ h1]
  split_ifs with hk1
  · rw [show k / 8 = 1 by omega, show k % 8 = k - 8 by omega]
  · rw [Nat.testBit_two_pow_mul_add _ h2]
    split_ifs with hk2
    · rw [show k / 8 = 2 by omega, show k % 8 = k - 8 - 8 by omega]
    · rw [show k / 8 = 3 by omega, show k % 8 = k - 8 - 8 - 8 by omega]

end Eotan.Lib.Bytes
