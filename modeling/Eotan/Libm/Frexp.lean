import Eotan.Libnc.Printf
import Mathlib.Algebra.Order.Field.Power
import Mathlib.Data.Nat.Bitwise
import Mathlib.Tactic.Linarith
import Mathlib.Tactic.Positivity

/-!
`frexp.c` on the bit patterns of doubles, as two words of 32 bits.
-/

namespace Eotan.Libm

open Libnc (countNlz intBit)

structure Double where
  lo : UInt32
  hi : UInt32
  deriving DecidableEq

def significantBits : ℕ := 52

def expMax : UInt32 := 2047

def expShiftU : UInt32 := 20

def signMaskU : UInt32 := (1 : UInt32) <<< 31

def expMaskU : UInt32 := expMax <<< expShiftU

def sigMaskU : UInt32 := (1 <<< expShiftU) - 1

def expBiasZero : UInt32 := 1023 - 1

def isZero (num : Double) : Prop := num.hi &&& ~~~signMaskU = 0 ∧ num.lo = 0

instance (num : Double) : Decidable (isZero num) := inferInstanceAs (Decidable (_ ∧ _))

/-- The second part is what is stored in `exp`, if anything. -/
def frexp (num : Double) : Double × Option ℤ :=
  if isZero num then (num, some 0)
  else
    let e := (num.hi >>> expShiftU) &&& expMax
    if e = 0 then
      let shift := countNlz (num.hi &&& sigMaskU).toNat
      if shift = intBit ∧ countNlz num.lo.toNat = intBit then (num, none)
      else
        let shift := if shift = intBit then countNlz num.lo.toNat else shift + intBit
        (⟨0, (num.hi &&& signMaskU) ||| (expBiasZero <<< expShiftU)⟩,
          some (e.toNat - expBiasZero.toNat - (significantBits - 1 - shift)))
    else if e ≠ expMax then
      (⟨num.lo, (num.hi &&& ~~~expMaskU) ||| (expBiasZero <<< expShiftU)⟩,
        some (e.toNat - expBiasZero.toNat))
    else (num, none)

namespace Double

def sign (x : Double) : ℕ := x.hi.toNat / 2 ^ 31

def exponent (x : Double) : ℕ := x.hi.toNat / 2 ^ 20 % 2 ^ 11

def fraction (x : Double) : ℕ := x.hi.toNat % 2 ^ 20 * 2 ^ 32 + x.lo.toNat

/-- The number that a pattern denotes; a subnormal one has no leading 1 and the exponent of the least
normal numbers. -/
def value (x : Double) : ℚ := (-1) ^ x.sign *
  if x.exponent = 0 then (x.fraction : ℚ) * 2 ^ (-1074 : ℤ)
  else (2 ^ 52 + x.fraction : ℚ) * 2 ^ (x.exponent - 1075 : ℤ)

end Double

open Double

def Splits (x : Double) (r : Double × Option ℤ) : Prop :=
  ∃ e, r.2 = some e ∧ 1 / 2 ≤ |r.1.value| ∧ |r.1.value| < 1 ∧ r.1.value * 2 ^ e = x.value

structure Proper (x : Double) : Prop where
  finite : x.exponent ≠ 2047
  ne_zero : x.exponent = 0 → x.fraction ≠ 0

variable {x y m : Double} {e : ℤ}

theorem toNat_exponent (x : Double) : ((x.hi >>> expShiftU) &&& expMax).toNat = x.exponent := by
  rw [UInt32.toNat_and, UInt32.toNat_shiftRight, Nat.shiftRight_eq_div_pow]
  exact Nat.and_two_pow_sub_one_eq_mod _ 11

theorem toNat_upper (x : Double) : (x.hi &&& sigMaskU).toNat = x.hi.toNat % 2 ^ 20 := by
  rw [UInt32.toNat_and]
  exact Nat.and_two_pow_sub_one_eq_mod _ 20

theorem and_sign (x : Double) : x.hi.toNat &&& 2 ^ 31 = 2 ^ 31 * x.sign := by
  have hlt := x.hi.toNat_lt
  rw [Nat.and_two_pow, Nat.testBit_eq_decide_div_mod_eq, sign]
  by_cases h : x.hi.toNat / 2 ^ 31 % 2 = 1
  · rw [decide_eq_true h, Bool.toNat_true]
    omega
  · rw [decide_eq_false h, Bool.toNat_false]
    omega

/-- The words that `frexp` makes have the exponent of the numbers from a half to one. -/
theorem fields_of_words {s r : ℕ} (hr : r < 2 ^ 20) (h : m.hi.toNat = 2 ^ 31 * s ||| r ||| 2 ^ 20 * 1022) :
    m.sign = s ∧ m.exponent = 1022 ∧ m.fraction = r * 2 ^ 32 + m.lo.toNat := by
  rw [Nat.or_assoc, Nat.or_comm r, ← Nat.two_pow_add_eq_or_of_lt hr,
    ← Nat.two_pow_add_eq_or_of_lt (show 2 ^ 20 * 1022 + r < 2 ^ 31 by omega)] at h
  unfold sign exponent fraction
  omega

theorem countNlz_eq_intBit {n : ℕ} (h : n < 2 ^ 32) : countNlz n = intBit ↔ n = 0 := by
  unfold countNlz
  split_ifs with hn
  · exact iff_of_true rfl hn
  · exact iff_of_false (Nat.ne_of_lt ((Nat.log2_lt hn).mpr h)) hn

theorem log2_fraction (h : x.fraction ≠ 0) :
    (if countNlz (x.hi.toNat % 2 ^ 20) = intBit then countNlz x.lo.toNat
      else countNlz (x.hi.toNat % 2 ^ 20) + intBit) = x.fraction.log2 := by
  have hlo := x.lo.toNat_lt
  simp only [countNlz_eq_intBit (show x.hi.toNat % 2 ^ 20 < 2 ^ 32 by omega)]
  split_ifs with hu
  · have hf : x.fraction = x.lo.toNat := by rw [fraction, hu, Nat.zero_mul, Nat.zero_add]
    rw [countNlz, if_neg (by rwa [← hf]), hf]
  · have hle := Nat.log2_self_le hu
    have hlt := (Nat.log2_lt hu).mp (Nat.lt_succ_self _)
    symm
    rw [Nat.log2_eq_iff h, countNlz, if_neg hu, fraction, intBit, Nat.add_right_comm, pow_add, pow_add]
    omega

theorem Proper.not_isZero (h : Proper x) : ¬isZero x := by
  rintro ⟨hhi, hlo⟩
  have hzero := congrArg UInt32.toNat hhi
  rw [UInt32.toNat_and] at hzero
  change x.hi.toNat &&& 2 ^ 31 - 1 = 0 at hzero
  rw [Nat.and_two_pow_sub_one_eq_mod] at hzero
  apply h.ne_zero (by unfold exponent; omega)
  rw [fraction, hlo]
  change _ + 0 = 0
  omega

structure Parts (x m : Double) (e : ℤ) : Prop where
  sign : m.sign = x.sign
  exponent : m.exponent = 1022
  normal : x.exponent ≠ 0 → m.fraction = x.fraction ∧ e = x.exponent - 1022
  subnormal : x.exponent = 0 → m.fraction = 0 ∧ e = x.fraction.log2 - 1073

theorem frexp_parts (h : Proper x) : ∃ m e, frexp x = (m, some e) ∧ Parts x m e := by
  have he := toNat_exponent x
  unfold frexp
  rw [if_neg h.not_isZero]
  simp only [toNat_upper]
  by_cases hzero : x.exponent = 0
  · have hf := h.ne_zero hzero
    have hsome : ¬(countNlz (x.hi.toNat % 2 ^ 20) = intBit ∧ countNlz x.lo.toNat = intBit) := by
      rw [countNlz_eq_intBit (by omega), countNlz_eq_intBit x.lo.toNat_lt]
      unfold fraction at hf
      omega
    rw [if_pos (UInt32.toNat_inj.mp (he.trans hzero : _ = (0 : UInt32).toNat)), if_neg hsome,
      log2_fraction hf, he, hzero]
    refine ⟨_, _, rfl, ?_⟩
    obtain ⟨hsign, hexp, hfraction⟩ := fields_of_words (r := 0) (s := x.sign)
      (m := ⟨0, (x.hi &&& signMaskU) ||| (expBiasZero <<< expShiftU)⟩) (by decide) (by
        rw [UInt32.toNat_or, UInt32.toNat_and, Nat.or_zero, ← and_sign]
        rfl)
    refine ⟨hsign, hexp, fun hne => absurd hzero hne, fun _ => ⟨hfraction, ?_⟩⟩
    change ((0 : ℕ) : ℤ) - (1022 : ℕ) - ((52 : ℕ) - 1 - _) = _
    omega
  · have hmax : (x.hi >>> expShiftU) &&& expMax ≠ expMax := by
      intro heq
      rw [heq] at he
      exact h.finite he.symm
    rw [if_neg (fun heq => hzero (by rw [← he, heq]; rfl)), if_pos hmax, he]
    refine ⟨_, _, rfl, ?_⟩
    obtain ⟨hsign, hexp, hfraction⟩ := fields_of_words (s := x.sign)
      (m := ⟨x.lo, (x.hi &&& ~~~expMaskU) ||| (expBiasZero <<< expShiftU)⟩)
      (Nat.mod_lt x.hi.toNat (by decide)) (by
        rw [UInt32.toNat_or, UInt32.toNat_and, ← and_sign, ← Nat.and_two_pow_sub_one_eq_mod,
          ← Nat.and_or_distrib_left]
        rfl)
    exact ⟨hsign, hexp, fun _ => ⟨hfraction, rfl⟩, fun hz => absurd hz hzero⟩

section

variable (h : Parts x m e)
include h

theorem Parts.value_eq : m.value = (-1) ^ x.sign * ((2 ^ 52 + m.fraction) * 2 ^ (-53 : ℤ)) := by
  rw [value, h.exponent, h.sign]
  rfl

theorem Parts.bounds : 1 / 2 ≤ |m.value| ∧ |m.value| < 1 := by
  have hfraction : m.fraction < 2 ^ 52 := by
    have := m.lo.toNat_lt
    unfold fraction
    omega
  have hlt : (m.fraction : ℚ) < 2 ^ 52 := by exact_mod_cast hfraction
  have hnonneg : (0 : ℚ) ≤ m.fraction := Nat.cast_nonneg _
  rw [h.value_eq, abs_mul, abs_pow, abs_neg, abs_one, one_pow, one_mul, abs_of_nonneg (by positivity), zpow_neg]
  constructor <;> norm_num <;> linarith

theorem Parts.exact_iff : m.value * 2 ^ e = x.value ↔ x.exponent ≠ 0 ∨ ∃ k, x.fraction = 2 ^ k := by
  have hsign : ((-1 : ℚ)) ^ x.sign ≠ 0 := pow_ne_zero _ (by decide)
  rw [h.value_eq, value, mul_assoc, mul_right_inj' hsign, mul_assoc, ← zpow_add₀ (by decide)]
  split_ifs with hzero
  · obtain ⟨hm, rfl⟩ := h.subnormal hzero
    have hpower : (2 ^ 52 + (m.fraction : ℚ)) * 2 ^ (-53 + (x.fraction.log2 - 1073 : ℤ)) =
        ((2 ^ x.fraction.log2 : ℕ) : ℚ) * 2 ^ (-1074 : ℤ) := by
      rw [hm, Nat.cast_zero, add_zero, Nat.cast_pow, Nat.cast_two, ← zpow_natCast, ← zpow_natCast,
        ← zpow_add₀ (by decide), ← zpow_add₀ (by decide)]
      congr 1
      push_cast
      ring
    rw [hpower, mul_left_inj' (zpow_ne_zero _ (by decide)), Nat.cast_inj]
    constructor
    · intro heq
      exact .inr ⟨_, heq.symm⟩
    · rintro (hne | ⟨k, hk⟩)
      · exact absurd hzero hne
      · rw [hk, Nat.log2_two_pow]
  · obtain ⟨hm, rfl⟩ := h.normal hzero
    refine iff_of_true ?_ (.inl hzero)
    rw [hm]
    congr 2
    ring

end

theorem eq_of_fields (hsign : x.sign = y.sign) (hexp : x.exponent = y.exponent)
    (hfraction : x.fraction = y.fraction) : x = y := by
  have hx := x.lo.toNat_lt
  have hy := y.lo.toNat_lt
  have hx' := x.hi.toNat_lt
  have hy' := y.hi.toNat_lt
  unfold sign at hsign
  unfold exponent at hexp
  unfold fraction at hfraction
  have hlo : x.lo = y.lo := UInt32.toNat_inj.mp (by omega)
  have hhi : x.hi = y.hi := UInt32.toNat_inj.mp (by omega)
  obtain ⟨lo, hi⟩ := x
  cases hlo
  cases hhi
  rfl

theorem splits_iff (h : Proper x) : Splits x (frexp x) ↔ x.exponent ≠ 0 ∨ ∃ k, x.fraction = 2 ^ k := by
  obtain ⟨m, e, heq, hparts⟩ := frexp_parts h
  rw [heq, ← hparts.exact_iff]
  constructor
  · rintro ⟨e', he, -, -, hexact⟩
    cases he
    exact hexact
  · intro hexact
    exact ⟨e, rfl, hparts.bounds.1, hparts.bounds.2, hexact⟩

/-- What is below the highest bit of a subnormal number gets lost. Where nothing is, the parts
determine the number. -/
theorem frexp_splits_iff (x : Double) (hx : Proper x) :
    (Splits x (frexp x) ↔ x.exponent ≠ 0 ∨ ∃ k, x.fraction = 2 ^ k) ∧
      ∀ y, Proper y → Splits x (frexp x) → Splits y (frexp y) → frexp x = frexp y → x = y := by
  refine ⟨splits_iff hx, fun y hy hsx hsy hsame => ?_⟩
  rw [splits_iff hx] at hsx
  rw [splits_iff hy] at hsy
  obtain ⟨m, e, hex, hpx⟩ := frexp_parts hx
  obtain ⟨m', e', hey, hpy⟩ := frexp_parts hy
  rw [hex, hey] at hsame
  cases hsame
  have hlt : ∀ {z : Double}, z.fraction ≠ 0 → z.fraction.log2 < 52 := by
    intro z hz
    have := z.lo.toNat_lt
    rw [Nat.log2_lt hz, fraction]
    omega
  have hsign := hpx.sign.symm.trans hpy.sign
  by_cases hzx : x.exponent = 0 <;> by_cases hzy : y.exponent = 0
  · obtain ⟨kx, hkx⟩ := hsx.resolve_left (not_not.mpr hzx)
    obtain ⟨ky, hky⟩ := hsy.resolve_left (not_not.mpr hzy)
    have hlog := (hpx.subnormal hzx).2.symm.trans (hpy.subnormal hzy).2
    rw [hkx, hky, Nat.log2_two_pow, Nat.log2_two_pow] at hlog
    apply eq_of_fields hsign (hzx.trans hzy.symm)
    rw [hkx, hky, show kx = ky by omega]
  · have := (hpx.subnormal hzx).2.symm.trans (hpy.normal hzy).2
    have := hlt (hx.ne_zero hzx)
    omega
  · have := (hpx.normal hzx).2.symm.trans (hpy.subnormal hzy).2
    have := hlt (hy.ne_zero hzy)
    omega
  · obtain ⟨hfx, hx'⟩ := hpx.normal hzx
    obtain ⟨hfy, hy'⟩ := hpy.normal hzy
    exact eq_of_fields hsign (by omega) (hfx.symm.trans hfy)

theorem frexp_splits_one : Splits ⟨0, 0x3ff00000⟩ (frexp ⟨0, 0x3ff00000⟩) :=
  (frexp_splits_iff ⟨0, 0x3ff00000⟩ ⟨by decide, by decide⟩).1.mpr (.inl (by decide))

/-- Three times the least subnormal number becomes a half, as twice it does. -/
theorem frexp_not_splits : frexp ⟨3, 0⟩ = frexp ⟨2, 0⟩ ∧ ¬Splits ⟨3, 0⟩ (frexp ⟨3, 0⟩) := by
  refine ⟨by decide, ?_⟩
  rw [splits_iff ⟨by decide, by decide⟩]
  rintro (hne | ⟨k, hk⟩)
  · exact hne (by decide)
  · obtain _ | _ | k := k
    · exact absurd hk (by decide)
    · exact absurd hk (by decide)
    · have hthree : (3 : ℕ) = 2 ^ k * 2 * 2 := hk
      omega

end Eotan.Libm
