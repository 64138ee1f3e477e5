import Mathlib.Data.Nat.Bitwise
import Mathlib.Tactic.Common

/-!
The calendar of `gmtime_r.c`, for the times of a signed 32 bit `time_t` that are not negative.
-/

namespace Eotan.Libc

def epochDays : ℕ := 719162

def daysPerYear : ℕ := 365

def daysPer4Years : ℕ := daysPerYear * 4 + 1

def daysPer100Years : ℕ := daysPer4Years * 25 - 1

def daysPer400Years : ℕ := daysPer100Years * 4 + 1

def daysOfMonth : Bool → List ℕ
  | false => [31, 28, 31, 30, 31, 30, 31, 31, 30, 31, 30, 31]
  | true => [31, 29, 31, 30, 31, 30, 31, 31, 30, 31, 30, 31]

def getDaysOfMonth (year : ℕ) : List ℕ :=
  daysOfMonth (if year % 4 ≠ 0 then false else if year % 100 ≠ 0 then true
    else if year % 400 ≠ 0 then false else true)

def monthLoop : List ℕ → ℕ → ℕ → ℕ × ℕ
  | [], m, d => (m, d)
  | n :: months, m, d => if n ≤ d then monthLoop months (m + 1) (d - n) else (m, d)

structure Tm where
  sec : ℕ
  min : ℕ
  hour : ℕ
  mday : ℕ
  mon : ℕ
  year : ℕ
  wday : ℕ
  yday : ℕ
  isdst : ℕ

def yearOf (days : ℕ) : ℕ × ℕ :=
  let d₁ := days % daysPer400Years
  let d₂ := d₁ % daysPer100Years
  let d₃ := d₂ % daysPer4Years
  (days / daysPer400Years * 400 + d₁ / daysPer100Years * 100 + d₂ / daysPer4Years * 4 +
    (d₃ / daysPerYear + 1), d₃ % daysPerYear)

def gmtimeR (t : ℕ) : Tm :=
  let days := t / 86400 + epochDays
  let year := yearOf days
  let month := monthLoop (getDaysOfMonth year.1) 0 year.2
  let s := t % 86400
  { sec := s % 3600 % 60
    min := s % 3600 / 60
    hour := s / 3600
    mday := month.2 + 1
    mon := month.1
    year := year.1 - 1900
    wday := (days + 1) % 7
    yday := year.2
    isdst := 0 }

def Leap (y : ℕ) : Prop := y % 4 = 0 ∧ (y % 100 ≠ 0 ∨ y % 400 = 0)

instance (y : ℕ) : Decidable (Leap y) := inferInstanceAs (Decidable (_ ∧ _))

def monthLength (leap : Bool) (m : ℕ) : ℕ :=
  if m = 1 then if leap = true then 29 else 28 else if m ∈ [3, 5, 8, 10] then 30 else 31

def monthStart (leap : Bool) : ℕ → ℕ
  | 0 => 0
  | m + 1 => monthStart leap m + monthLength leap m

/-- The days from the first of January of the year 1 to that of the year `y`. -/
def daysBefore (y : ℕ) : ℕ := 365 * (y - 1) + (y - 1) / 4 - (y - 1) / 100 + (y - 1) / 400

/-- `tm` is `t` seconds after the first of January 1970, a Thursday, in the Gregorian calendar. -/
structure Calendar (t : ℕ) (tm : Tm) : Prop where
  date : daysBefore (tm.year + 1900) + tm.yday = daysBefore 1970 + t / 86400
  mon : tm.mon ≤ 11
  mday : 1 ≤ tm.mday ∧ tm.mday ≤ monthLength (Leap (tm.year + 1900)) tm.mon
  yday : tm.yday + 1 = monthStart (Leap (tm.year + 1900)) tm.mon + tm.mday
  wday : tm.wday = (4 + t / 86400) % 7
  time : tm.hour * 3600 + tm.min * 60 + tm.sec = t % 86400
  clock : tm.hour < 24 ∧ tm.min < 60 ∧ tm.sec < 60

theorem getDaysOfMonth_eq (y : ℕ) : getDaysOfMonth y = daysOfMonth (Leap y) := by
  unfold getDaysOfMonth
  congr 1
  by_cases hleap : Leap y
  · rw [decide_eq_true hleap]
    unfold Leap at hleap
    split_ifs <;> first | rfl | omega
  · rw [decide_eq_false hleap]
    unfold Leap at hleap
    split_ifs <;> first | rfl | omega

theorem monthLoop_spec : ∀ leap : Bool, ∀ d < 365, let r := monthLoop (daysOfMonth leap) 0 d
    r.1 ≤ 11 ∧ r.2 + 1 ≤ monthLength leap r.1 ∧
      d + 1 = monthStart leap r.1 + (r.2 + 1) := by
  decide +kernel

/-- Counted from the first of January 1969, every four years have the same length. -/
theorem yearOf_eq {n days : ℕ} (hn : n < 24856) (hdays : days = n + epochDays) : yearOf days =
    (1969 + (n + 365) / 1461 * 4 + (n + 365) % 1461 / 365, (n + 365) % 1461 % 365) := by
  unfold epochDays at hdays
  simp only [yearOf, daysPer400Years, daysPer100Years, daysPer4Years, daysPerYear, Nat.reduceMul,
    Nat.reduceAdd, Nat.reduceSub]
  obtain hn | rfl | hn : n < 11322 ∨ n = 11322 ∨ 11322 < n := by omega
  · have h400 : days / 146097 = 4 := by omega
    have h100 : days % 146097 / 36524 = 3 := by omega
    have hday : days % 146097 % 36524 = n + 365 + 17 * 1461 := by omega
    rw [hday, h400, h100, Nat.add_mul_div_right _ _ (by decide), Nat.add_mul_mod_self_right, Prod.mk.injEq]
    exact ⟨by omega, rfl⟩
  · rw [hdays]
  · have h400 : days / 146097 = 5 := by omega
    have h100 : days % 146097 / 36524 = 0 := by omega
    have hday : n + 365 = days % 146097 % 36524 + 8 * 1461 := by omega
    rw [hday, h400, h100, Nat.add_mul_div_right _ _ (by decide), Nat.add_mul_mod_self_right, Prod.mk.injEq]
    exact ⟨by omega, rfl⟩

theorem daysBefore_eq {y : ℕ} (hy : 1969 ≤ y ∧ y ≤ 2038) : daysBefore y = 365 * (y - 1) + (y - 1) / 4 - 15 := by
  unfold daysBefore
  omega

theorem yearOf_spec {n : ℕ} (hn : n < 24856) : ∃ y d, yearOf (n + epochDays) = (y, d) ∧
    y - 1900 + 1900 = y ∧ d < 365 ∧ (daysBefore y + d = daysBefore 1970 + n ↔ n % 1461 ≠ 1095) := by
  refine ⟨_, _, yearOf_eq hn rfl, by omega, by omega, ?_⟩
  rw [daysBefore_eq (by omega), daysBefore_eq (by decide)]
  omega

/-- The last day of a leap year comes out as the first of the next one. -/
theorem gmtimeR_calendar_iff (t : ℕ) (ht : t < 2 ^ 31) : Calendar t (gmtimeR t) ↔ t / 86400 % 1461 ≠ 1095 := by
  obtain ⟨y, d, hyear, hback, hd, hdate⟩ := yearOf_spec (show t / 86400 < 24856 by omega)
  rw [← hdate]
  constructor
  · intro h
    have hcal := h.date
    simp only [gmtimeR, hyear, hback] at hcal
    exact hcal
  · intro hcal
    obtain ⟨hmon, hmday, hyday⟩ := monthLoop_spec (Leap y) d hd
    rw [← getDaysOfMonth_eq] at hmon hmday hyday
    constructor <;> simp only [gmtimeR, hyear, hback]
    · exact hcal
    · exact hmon
    · exact ⟨Nat.succ_pos _, hmday⟩
    · exact hyday
    · unfold epochDays
      omega
    · omega
    · omega

theorem gmtimeR_calendar_epoch : Calendar 0 (gmtimeR 0) := (gmtimeR_calendar_iff 0 (by decide)).mpr (by decide)

/-- Noon of the last day of 1972. -/
theorem gmtimeR_leap_year : (gmtimeR 94651200).year = 73 ∧ (gmtimeR 94651200).mon = 0 ∧
    (gmtimeR 94651200).mday = 1 ∧ ¬Calendar 94651200 (gmtimeR 94651200) := by
  refine ⟨by decide, by decide, by decide, fun h => ?_⟩
  exact absurd h.date (by decide)

end Eotan.Libc
