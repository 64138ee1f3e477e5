import Eotan.Lib.Radix

/-!
The integer conversions of `vnprintf2.c`. The local buffer of `_putd` is filled from its end: `p` is
the list of what lies from there up to the terminator.
-/

namespace Eotan.Libnc

open List
open Lib.Radix

def maxIntColumn : ℕ := 10

def intBit : ℕ := 32

structure State (ε : Type) where
  env : ε
  len : ℕ

section

variable {ε : Type} (out : UInt8 → ε → ℤ × ε)

def putchar (s : State ε) (c : UInt8) : State ε :=
  let (r, env) := out c s.env
  ⟨env, if r ≥ 0 then s.len + 1 else s.len⟩

def puts (s : State ε) : List UInt8 → State ε
  | [] => s
  | c :: str => if c = 0 then s else puts (putchar out s c) str

-- `u` is used up after at most as many rounds as it has bits.
def putdLoop (radix : ℕ) : ℕ → ℕ → List UInt8 → List UInt8
  | 0, _, p => p
  | k + 1, u, p =>
    let p := .ofNat (u % radix + 0x30) :: p
    if u / radix = 0 then p else putdLoop radix k (u / radix) p

def putdBuf (v : BitVec 32) (radix : ℕ) : List UInt8 :=
  let u := if radix = 10 ∧ v.toInt < 0 then -v else v
  putdLoop radix intBit u.toNat [0]

def putd (s : State ε) (v : BitVec 32) (radix : ℕ) : State ε :=
  let s := if radix = 10 ∧ v.toInt < 0 then putchar out s 0x2d else s
  puts out s (putdBuf v radix)

def countNlz (d : ℕ) : ℕ := if d = 0 then intBit else d.log2

def character (c : ℕ) : UInt8 := .ofNat (c + if c ≥ 10 then 0x61 - 10 else 0x30)

-- The shift is four times the argument.
def putxLoop (u : ℕ) (s : State ε) : ℕ → State ε
  | 0 => putchar out s (character (u % 16))
  | k + 1 => putxLoop u (putchar out s (character ((u >>> (4 * (k + 1))) % 16))) k

def putx (s : State ε) (u : ℕ) : State ε :=
  let shift := countNlz u
  if shift < intBit then putxLoop out u s (shift / 4) else putchar out s 0x30

inductive Conversion where
  | d
  | o
  | x
  deriving DecidableEq

def format (s : State ε) (v : BitVec 32) : Conversion → State ε
  | .d => putd out s v 10
  | .o => putd out s v 8
  | .x => putx out s v.toNat

end

def Conversion.radix : Conversion → ℕ
  | .d => 10
  | .o => 8
  | .x => 16

/-- Whatever `out` does with a character, it gets those of `t`, in order. -/
def Emits (f : {ε : Type} → (UInt8 → ε → ℤ × ε) → State ε → State ε) (t : List UInt8) : Prop :=
  ∀ (ε : Type) (out : UInt8 → ε → ℤ × ε) (s : State ε), f out s = t.foldl (putchar out) s

/-- The standard representation of `v`. -/
def Standard (v : BitVec 32) (c : Conversion) (t : List UInt8) : Prop :=
  ∃ l, t = (if c = .d ∧ v.toInt < 0 then [0x2d] else []) ++ l.map character ∧
    Numeral c.radix (if c = .d then v.toInt.natAbs else v.toNat) l

/-- What `_putd` writes to `buf` lies in it. -/
def Inside (v : BitVec 32) (c : Conversion) : Prop :=
  c ≠ .x → (putdBuf v c.radix).length ≤ maxIntColumn + 1

theorem putdLoop_numeral {radix : ℕ} (hradix : 1 < radix ∧ radix ≤ 10) {k : ℕ} (hk : 0 < k) {u : ℕ}
    (hu : u < radix ^ k) (p : List UInt8) :
    ∃ l, putdLoop radix k u p = l.map character ++ p ∧ Numeral radix u l := by
  induction k generalizing u p with
  | zero => exact absurd hk (lt_irrefl 0)
  | succ k ih =>
    have hmod : u % radix < radix := Nat.mod_lt u (by omega)
    have hdigit : character (u % radix) = .ofNat (u % radix + 0x30) := by
      rw [character, if_neg (by omega)]
    rw [putdLoop, ← hdigit]
    by_cases hlast : u / radix = 0
    · have hsmall : u < radix := (Nat.div_eq_zero_iff_lt (by omega)).mp hlast
      refine ⟨[u], ?_, .singleton hsmall⟩
      simp only [if_pos hlast, Nat.mod_eq_of_lt hsmall]
      rfl
    · have hdiv : u / radix < radix ^ k := Nat.div_lt_of_lt_mul (by rwa [← pow_succ'])
      have hpos : 0 < k := by
        by_contra hzero
        rw [Nat.eq_zero_of_not_pos hzero, pow_zero] at hdiv
        exact hlast (Nat.lt_one_iff.mp hdiv)
      obtain ⟨l, hl, hnumeral⟩ := ih hpos hdiv (character (u % radix) :: p)
      refine ⟨l ++ [u % radix], ?_, hnumeral.concat hradix.1 hlast⟩
      simp only [if_neg hlast, hl, map_append, append_assoc]
      rfl

theorem puts_digits {ε : Type} (out : UInt8 → ε → ℤ × ε) (s : State ε) {l : List ℕ} (hl : ∀ d ∈ l, d < 16) :
    puts out s (l.map character ++ [0]) = (l.map character).foldl (putchar out) s := by
  induction l generalizing s with
  | nil => rfl
  | cons d l ih =>
    obtain ⟨hd, hl⟩ := forall_mem_cons.mp hl
    have hne : ∀ d < 16, character d ≠ 0 := by decide
    rw [map_cons, cons_append, puts, if_neg (hne d hd), ih _ hl]
    rfl

theorem putd_numeral {radix : ℕ} (hradix : radix = 10 ∨ radix = 8) (v : BitVec 32) :
    let u := if radix = 10 ∧ v.toInt < 0 then -v else v
    ((putdBuf v radix).length ≤ maxIntColumn + 1 ↔ u.toNat < radix ^ 10) ∧
      ∃ l, Numeral radix u.toNat l ∧ Emits (fun out s => putd out s v radix)
        ((if radix = 10 ∧ v.toInt < 0 then [0x2d] else []) ++ l.map character) := by
  intro u
  have hlt : u.toNat < radix ^ intBit := u.isLt.trans_le (Nat.pow_le_pow_left (by omega) 32)
  obtain ⟨l, hl, hnumeral⟩ := putdLoop_numeral (by omega) (by decide) hlt [0]
  have hbuf : putdBuf v radix = l.map character ++ [0] := hl
  refine ⟨?_, l, hnumeral, fun ε out s => ?_⟩
  · rw [hbuf, length_append, length_map]
    exact Nat.add_le_add_iff_right.trans (hnumeral.length_le_iff (by omega) (by decide))
  · have hsmall : ∀ d ∈ l, d < 16 := fun d hd => (hnumeral.lt_base d hd).trans_le (by omega)
    simp only [putd, hbuf]
    rw [puts_digits out _ hsmall, foldl_append]
    split_ifs <;> rfl

theorem putxLoop_digits (u k : ℕ) : ∃ m, let l := u / 16 ^ k % 16 :: m
    l.length = k + 1 ∧ (∀ d ∈ l, d < 16) ∧ value 16 l = u % 16 ^ (k + 1) ∧
      Emits (fun out s => putxLoop out u s k) (l.map character) := by
  induction k with
  | zero =>
    refine ⟨[], rfl, ?_, ?_, fun ε out s => ?_⟩
    all_goals simp [putxLoop, Nat.mod_lt]
  | succ k ih =>
    have hshift : u >>> (4 * (k + 1)) = u / 16 ^ (k + 1) := by
      rw [Nat.shiftRight_eq_div_pow, pow_mul]
      rfl
    obtain ⟨m, hlength, hdigits, hvalue, hloop⟩ := ih
    refine ⟨u / 16 ^ k % 16 :: m, ?_, ?_, ?_, fun ε out s => ?_⟩
    · rw [length_cons, hlength]
    · exact forall_mem_cons.mpr ⟨Nat.mod_lt _ (by decide), hdigits⟩
    · rw [value_cons, hlength, hvalue, Nat.mod_pow_succ (k := k + 1)]
      ring
    · simp only [putxLoop, hshift]
      exact hloop ε out _

theorem putx_numeral {u : ℕ} (hu : u < 2 ^ 32) :
    ∃ l, Numeral 16 u l ∧ Emits (fun out s => putx out s u) (l.map character) := by
  by_cases hzero : u = 0
  · subst hzero
    exact ⟨[0], .singleton (by decide), fun ε out s => rfl⟩
  have hlog : u.log2 < intBit := (Nat.log2_lt hzero).mpr hu
  -- The first digit is the one that holds the highest bit of `u`.
  have hle : 16 ^ (u.log2 / 4) ≤ u := by
    rw [show 16 = 2 ^ 4 by rfl, ← pow_mul]
    exact (Nat.pow_le_pow_right (by decide) (Nat.mul_div_le _ 4)).trans (Nat.log2_self_le hzero)
  have hlt : u < 16 ^ (u.log2 / 4 + 1) := by
    rw [show 16 = 2 ^ 4 by rfl, ← pow_mul]
    exact Nat.lt_log2_self.trans_le (Nat.pow_le_pow_right (by decide) (by omega))
  obtain ⟨m, -, hdigits, hvalue, hloop⟩ := putxLoop_digits u (u.log2 / 4)
  rw [Nat.mod_eq_of_lt hlt] at hvalue
  refine ⟨_, ⟨hvalue, hdigits, .inr ⟨_, m, rfl, ?_⟩⟩, fun ε out s => ?_⟩
  · rw [Nat.mod_eq_of_lt (Nat.div_lt_of_lt_mul (by rwa [← pow_succ]))]
    exact ne_of_gt (Nat.div_pos hle (by positivity))
  · simp only [putx, countNlz, if_neg hzero, if_pos hlog]
    exact hloop ε out s

theorem toNat_magnitude (v : BitVec 32) : (if v.toInt < 0 then -v else v).toNat = v.toInt.natAbs := by
  rw [BitVec.toInt_eq_toNat_cond]
  split_ifs <;> simp <;> omega

theorem format_standard_iff (v : BitVec 32) (c : Conversion) :
    (∃ t, Standard v c t ∧ Emits (fun out s => format out s v c) t) ∧ Inside v c ↔
      ¬(c = .o ∧ 2 ^ 30 ≤ v.toNat) := by
  have hlt := v.isLt
  cases c with
  | d =>
    have h := putd_numeral (.inl rfl) v
    simp only [true_and] at h
    obtain ⟨hinside, l, hnumeral, hput⟩ := h
    rw [toNat_magnitude] at hnumeral
    refine iff_of_true ⟨⟨_, ⟨l, rfl, hnumeral⟩, ?_⟩, fun _ => hinside.mpr (by omega)⟩ (by simp)
    simp only [true_and]
    exact hput
  | o =>
    obtain ⟨hinside, l, hnumeral, hput⟩ := putd_numeral (.inr rfl) v
    rw [not_and, not_le]
    constructor
    · rintro ⟨-, h⟩ -
      exact hinside.mp (h (by decide))
    · intro h
      exact ⟨⟨_, ⟨l, rfl, hnumeral⟩, hput⟩, fun _ => hinside.mpr (h rfl)⟩
  | x =>
    obtain ⟨l, hnumeral, hput⟩ := putx_numeral hlt
    exact iff_of_true ⟨⟨_, ⟨l, rfl, hnumeral⟩, hput⟩, absurd rfl⟩ (by simp)

/-- The eleven octal digits of `-1` start one byte below the buffer. -/
theorem putd_octal_outside : (putdBuf (-1) 8).length = maxIntColumn + 2 ∧ ¬Inside (-1) .o :=
  ⟨by decide, fun h => absurd (h (by decide)) (by decide)⟩

end Eotan.Libnc
