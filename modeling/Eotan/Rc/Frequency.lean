import Eotan.Lib.Fenwick
import Mathlib.Data.List.Range

/-!
The adaptive frequency table of the range coder (`bit_common.c`, `bit_encode.c`, `bit_decode.c`):
a binary indexed tree over the symbols `1 .. 256`, with the count of symbol 0 kept apart in
`count[0]`.
-/

namespace Eotan.Rc

open Lib
open Function
open Nat

def chrRange : ℕ := 256 + 1
def chrEos : ℕ := 256
def freqInc : ℕ := 4
def freqLimit : ℕ := 0x8000

def u32 (x : ℤ) : ℕ := (x % 2 ^ 32).toNat

structure Frequency where
  count : ℕ → ℕ
  sum : ℕ
  mid : ℕ

def addCount (freq : Frequency) (c : ℕ) (n : ℤ) : Frequency :=
  { freq with count := Function.update freq.count c (u32 (freq.count c + n)) }

def incLoop : ℕ → Frequency → ℕ → ℤ → Frequency
  | 0, freq, _, _ => freq
  | fuel + 1, freq, c, n =>
    if c < chrRange then incLoop fuel (addCount freq c n) (c + (c &&& (2 ^ 32 - c))) n else freq

def inc (freq : Frequency) (ch : ℕ) (n : ℤ) : Frequency :=
  let freq := if 0 < ch then incLoop chrRange freq ch n else addCount freq 0 n
  { freq with sum := u32 (freq.sum + n) }

def midLoop : ℕ → ℕ → ℕ
  | 0, mid => mid
  | fuel + 1, mid => if mid < chrRange / 2 then midLoop fuel (mid <<< 1) else mid

def frequencyInitialize : Frequency :=
  (List.range chrRange).foldl (fun freq i => inc freq i 1) ⟨fun _ => 0, 0, midLoop 32 1⟩

def countLoop : ℕ → (ℕ → ℕ) → ℕ → ℕ → ℕ → ℕ
  | 0, _, _, _, n => n
  | fuel + 1, count, i, j, n =>
    if i = j then n else countLoop fuel count (i &&& (i - 1)) j (u32 (n - count i))

def frequencyCount (freq : Frequency) (ch : ℕ) : ℕ :=
  if 0 < ch ∧ ch &&& 1 = 0 then
    countLoop chrRange freq.count (ch - 1) (ch &&& (ch - 1)) (freq.count ch)
  else freq.count ch

def halveAt (freq : Frequency) (i : ℕ) : Frequency :=
  let n := frequencyCount freq i >>> 1
  if 0 < n then inc freq i (-n) else freq

def frequencyUpdate (freq : Frequency) (ch : ℕ) : Frequency :=
  let freq := inc freq ch freqInc
  if freqLimit ≤ freq.sum then (List.range chrRange).foldl halveAt freq else freq

def calcLoop : ℕ → (ℕ → ℕ) → ℕ → ℕ → ℕ
  | 0, _, _, n => n
  | fuel + 1, count, i, n =>
    if 0 < i then calcLoop fuel count (i &&& (i - 1)) (u32 (n + count i)) else n

def frequencyCalc (freq : Frequency) (ch : ℕ) : ℕ :=
  if 0 < ch then calcLoop chrRange freq.count (ch - 1) (freq.count 0) else 0

def searchLoop : ℕ → (ℕ → ℕ) → ℕ → ℕ → ℕ → ℕ → ℕ × ℕ
  | 0, _, _, _, n, i => (n, i)
  | fuel + 1, count, value, h, n, i =>
    if 0 < h then
      if i + h < chrRange ∧ u32 (n + count (i + h)) ≤ value then
        searchLoop fuel count value (h >>> 1) (u32 (n + count (i + h))) (i + h)
      else searchLoop fuel count value (h >>> 1) n i
    else (n, i)

def search (freq : Frequency) (value : ℕ) : ℕ × ℕ :=
  if freq.count 0 ≤ value then
    let r := searchLoop 32 freq.count value freq.mid (freq.count 0) 0
    (r.1, r.2 + 1)
  else (0, 0)

variable {k c ch : ℕ} {w : ℕ → ℕ} {freq : Frequency}

theorem u32_natCast (h : k < 2 ^ 32) : u32 k = k := by
  unfold u32
  omega

theorem u32_of_eq {x : ℤ} (hx : x = k) (h : k < 2 ^ 32) : u32 x = k := by
  rw [hx, u32_natCast h]

theorem and_neg_eq_low (hc : 0 < c) (hlt : c < chrRange) : c &&& (2 ^ 32 - c) = Fenwick.low c := by
  apply Fenwick.and_neg hc
  unfold chrRange at hlt
  omega

def addCovering (freq : Frequency) (c p : ℕ) (n : ℤ) : Frequency :=
  { freq with
    count := fun d =>
      if c ≤ d ∧ d < chrRange ∧ Fenwick.Covers d p then u32 (freq.count d + n)
      else freq.count d }

theorem addCovering_of_le (freq : Frequency) {p : ℕ} (n : ℤ) (h : chrRange ≤ c) :
    addCovering freq c p n = freq := by
  have hid : (fun d => if c ≤ d ∧ d < chrRange ∧ Fenwick.Covers d p then u32 (freq.count d + n)
      else freq.count d) = freq.count := by
    funext d
    rw [if_neg (by omega)]
  rw [addCovering, hid]

theorem incLoop_eq {p : ℕ} (n : ℤ) (fuel : ℕ) (freq : Frequency) (c : ℕ) (hc : 0 < c)
    (hcov : Fenwick.Covers c p) (hfuel : chrRange ≤ c + fuel) :
    incLoop fuel freq c n = addCovering freq c p n := by
  induction fuel generalizing freq c with
  | zero =>
    rw [incLoop, addCovering_of_le freq n (show chrRange ≤ c from hfuel)]
  | succ fuel ih =>
    have hlow := Fenwick.low_pos hc
    rw [incLoop]
    by_cases hlt : c < chrRange
    · rw [if_pos hlt, and_neg_eq_low hc hlt, ih _ _ (by omega) (Fenwick.covers_next hc hcov) (by omega)]
      unfold addCount addCovering
      dsimp only
      congr 1
      funext d
      by_cases hd : c ≤ d ∧ d < chrRange ∧ Fenwick.Covers d p
      · rw [if_pos hd]
        obtain rfl | hne := eq_or_lt_of_le hd.1
        · rw [if_neg (by omega), update_self]
        · rw [update_of_ne (by omega), if_pos]
          refine ⟨?_, hd.2⟩
          by_contra hbetween
          exact Fenwick.not_covers_between hc hcov hne (by omega) hd.2.2
      · rw [if_neg hd, if_neg, update_of_ne]
        · rintro rfl
          exact hd ⟨le_rfl, hlt, hcov⟩
        · intro hd'
          exact hd ⟨by omega, hd'.2⟩
    · rw [if_neg hlt, addCovering_of_le freq n (not_lt.mp hlt)]

section

variable (w : ℕ → ℕ)

def below (ch : ℕ) : ℕ := ∑ i ∈ Finset.range ch, w i

def total : ℕ := below w chrRange

theorem below_succ (ch : ℕ) : below w (ch + 1) = below w ch + w ch := Finset.sum_range_succ ..

theorem below_mono {a b : ℕ} (h : a ≤ b) : below w a ≤ below w b := by
  apply Finset.sum_le_sum_of_subset
  exact Finset.range_subset_range.mpr h

theorem below_eq_span (ch : ℕ) : below w (ch + 1) = w 0 + Fenwick.span w 0 ch := by
  induction ch with
  | zero => rw [below_succ, Fenwick.span_self, below, Finset.sum_range_zero, zero_add]; rfl
  | succ ch ih => rw [below_succ, ih, Fenwick.span_succ w (zero_le ch), add_assoc]

theorem below_update (p x k : ℕ) :
    (below (update w p x) k : ℤ) = below w k + if p < k then (x : ℤ) - w p else 0 := by
  induction k with
  | zero => simp [below]
  | succ k ih =>
    rw [below_succ, below_succ, cast_add, ih, cast_add]
    by_cases hk : k = p
    · subst hk
      rw [update_self, if_neg (lt_irrefl _), if_pos (lt_succ_self _)]
      omega
    · rw [update_of_ne hk]
      split_ifs <;> omega

theorem node_le_total (h : c < chrRange) : Fenwick.node w c ≤ total w := by
  have hspan := below_eq_span w 256
  have hadd := Fenwick.node_add_span w (zero_le (c - Fenwick.low c))
  have hmono := Fenwick.span_mono w (zero_le c) (le_of_lt_succ h)
  unfold total
  unfold chrRange
  omega

end

structure Represents (freq : Frequency) (w : ℕ → ℕ) : Prop where
  zero : freq.count 0 = w 0
  node : ∀ c, 0 < c → c < chrRange → freq.count c = Fenwick.node w c
  sum : freq.sum = total w
  mid : freq.mid = 128
  total_lt : total w < 2 ^ 31

theorem inc_eq (freq : Frequency) (hch : ch < chrRange) (n : ℤ) : inc freq ch n = { freq with
        count := fun d =>
          if d < chrRange ∧ (Fenwick.Covers d ch ∨ d = 0 ∧ ch = 0) then u32 (freq.count d + n)
          else freq.count d
        sum := u32 (freq.sum + n) } := by
  unfold inc
  split_ifs with hpos
  · rw [incLoop_eq n _ _ ch hpos (Fenwick.covers_self hpos) (by omega)]
    unfold addCovering
    dsimp only
    congr 1
    funext d
    have hiff : (ch ≤ d ∧ d < chrRange ∧ Fenwick.Covers d ch) ↔
        d < chrRange ∧ (Fenwick.Covers d ch ∨ d = 0 ∧ ch = 0) := by
      constructor
      · intro h
        exact ⟨h.2.1, .inl h.2.2⟩
      · rintro ⟨hd, hcov | hz⟩
        · exact ⟨hcov.2, hd, hcov⟩
        · omega
    simp only [hiff]
  · obtain rfl : ch = 0 := by omega
    unfold addCount
    dsimp only
    congr 1
    funext d
    have hcov : ¬Fenwick.Covers d 0 := fun hcov => not_lt_zero _ hcov.1
    by_cases hd : d = 0
    · rw [hd, update_self, if_pos ⟨hch, .inr ⟨rfl, rfl⟩⟩]
    · rw [update_of_ne hd, if_neg]
      rintro ⟨-, h | h⟩
      · exact hcov h
      · exact hd h.1

section

variable (h : Represents freq w)
include h

theorem inc_represents {x : ℕ} {n : ℤ}
    (hch : ch < chrRange) (hx : w ch + n = x) (ht : total (update w ch x) < 2 ^ 31) :
    Represents (inc freq ch n) (update w ch x) := by
  rw [inc_eq freq hch]
  constructor
  · dsimp only
    rw [h.zero]
    by_cases hz : ch = 0
    · subst hz
      rw [if_pos ⟨hch, .inr ⟨rfl, rfl⟩⟩, update_self]
      apply u32_of_eq hx
      have hle := below_mono (update w 0 x) (show 0 + 1 ≤ chrRange from hch)
      rw [below_succ, update_self] at hle
      unfold total at ht
      omega
    · rw [if_neg, update_of_ne (Ne.symm hz)]
      rintro ⟨-, hcov | hzero⟩
      · have := hcov.2
        omega
      · exact hz hzero.2
  · intro c hc hlt
    have hup := Fenwick.node_update w c ch x
    dsimp only
    rw [h.node c hc hlt]
    split_ifs at hup with hcov
    · rw [if_pos ⟨hlt, .inl hcov⟩]
      apply u32_of_eq (by omega)
      exact (node_le_total _ hlt).trans_lt (by omega)
    rw [if_neg]
    · omega
    · rintro ⟨-, hcov' | hzero⟩
      · exact hcov hcov'
      · omega
  · have hup := below_update w ch x chrRange
    rw [if_pos hch] at hup
    dsimp only
    rw [h.sum]
    unfold total at ht ⊢
    exact u32_of_eq (by omega) (by omega)
  · exact h.mid
  · exact ht

theorem countLoop_eq (hch : 0 < ch) (hlt : ch < chrRange) (fuel i n : ℕ) (hfuel : i < fuel)
    (hlo : ch - Fenwick.low ch ≤ i) (hi : i < ch) (hn : n = w ch + Fenwick.span w (ch - Fenwick.low ch) i) :
    countLoop fuel freq.count i (ch - Fenwick.low ch) n = w ch := by
  induction fuel generalizing i n with
  | zero => omega
  | succ fuel ih =>
    rw [countLoop]
    split_ifs with heq
    · subst heq
      rw [hn, Fenwick.span_self, add_zero]
    have hpos : 0 < i := by omega
    have hdown := Fenwick.le_sub_low hch (lt_of_le_of_ne hlo (Ne.symm heq)) hi
    have hlow := Fenwick.low_pos hpos
    have hspan := Fenwick.node_add_span w hdown
    have hn' : u32 (n - freq.count i) = w ch + Fenwick.span w (ch - Fenwick.low ch) (i - Fenwick.low i) := by
      have hle := node_le_total w hlt
      have hnode := Fenwick.node_eq_add_span w hch
      have hmono := Fenwick.span_mono w hlo (le_sub_one_of_lt hi)
      have := h.total_lt
      apply u32_of_eq
      · rw [h.node i hpos (by omega)]
        omega
      · omega
    rw [Fenwick.and_pred, hn']
    exact ih _ _ (by omega) hdown (by omega) rfl

theorem frequencyCount_eq (hlt : ch < chrRange) : frequencyCount freq ch = w ch := by
  unfold frequencyCount
  split_ifs with heven
  · have hlow := Fenwick.low_pos heven.1
    rw [Fenwick.and_pred]
    apply countLoop_eq h heven.1 hlt _ _ _ (by omega) (by omega) (by omega)
    rw [h.node ch heven.1 hlt, Fenwick.node_eq_add_span w heven.1]
  by_cases hz : ch = 0
  · rw [hz, h.zero]
  · have hodd : ch % 2 = 1 := by
      have : ch &&& 1 = ch % 2 := and_two_pow_sub_one_eq_mod ch 1
      omega
    rw [h.node ch (by omega) hlt, Fenwick.node_of_odd w hodd]

theorem calcLoop_eq (fuel i n m : ℕ)
    (hfuel : i < fuel) (hi : i < chrRange) (hn : n + Fenwick.span w 0 i = m) (hm : m ≤ total w) :
    calcLoop fuel freq.count i n = m := by
  induction fuel generalizing i n with
  | zero => omega
  | succ fuel ih =>
    rw [calcLoop]
    split_ifs with hpos
    · have hlow := Fenwick.low_pos hpos
      have hspan := Fenwick.node_add_span w (zero_le (i - Fenwick.low i))
      have hlt := h.total_lt
      have hn' : u32 (n + freq.count i) = n + Fenwick.node w i := by
        rw [h.node i hpos hi]
        exact u32_of_eq (by omega) (by omega)
      rw [Fenwick.and_pred, hn']
      exact ih _ _ (by omega) (by omega) (by omega)
    · obtain rfl : i = 0 := by omega
      rw [Fenwick.span_self] at hn
      omega

theorem frequencyCalc_eq (hlt : ch < chrRange) : frequencyCalc freq ch = below w ch := by
  unfold frequencyCalc
  split_ifs with hpos
  · apply calcLoop_eq h _ _ _ _ (by omega) (by omega)
    · have := below_eq_span w (ch - 1)
      rw [Nat.sub_add_cancel hpos] at this
      rw [h.zero, this]
    · exact below_mono w hlt.le
  · obtain rfl : ch = 0 := by omega
    rfl

theorem searchLoop_eq (value : ℕ) (fuel k n i : ℕ) (hfuel : k ≤ fuel) (hi : 2 ^ k ∣ i)
    (hle : i + 2 ^ k ≤ 256) (hn : n = below w (i + 1)) (hlo : n ≤ value)
    (hhi : value < below w (i + 2 ^ k + 1)) :
    ∃ j < 256, searchLoop fuel freq.count value (2 ^ k / 2) n i = (below w (j + 1), j) ∧
      below w (j + 1) ≤ value ∧ value < below w (j + 2) := by
  induction k generalizing fuel n i with
  | zero =>
    refine ⟨i, by omega, ?_, by omega, hhi⟩
    cases fuel with
    | zero => rw [searchLoop, hn]
    | succ fuel => rw [searchLoop, if_neg (by decide), hn]
  | succ k ih =>
    obtain ⟨fuel, rfl⟩ : ∃ f, fuel = f + 1 := ⟨fuel - 1, by omega⟩
    have hhalf : 2 ^ (k + 1) / 2 = 2 ^ k := by rw [pow_succ, Nat.mul_div_cancel _ (by decide)]
    have hpow := Nat.two_pow_pos k
    have hdvd : 2 ^ k ∣ i := (pow_dvd_pow 2 (le_succ k)).trans hi
    have hq : i + 2 ^ k < chrRange := by unfold chrRange; omega
    have hnext : below w (i + 2 ^ k + 1) = n + freq.count (i + 2 ^ k) := by
      have hlow := Fenwick.low_two_pow_add hi
      have hspan := Fenwick.node_add_span w (zero_le (i + 2 ^ k - Fenwick.low (i + 2 ^ k)))
      rw [hlow, Nat.add_sub_cancel] at hspan
      rw [h.node _ (by omega) hq, hn, below_eq_span, below_eq_span, ← hspan, add_assoc]
    have hbelow := below_mono w (show i + 2 ^ k + 1 ≤ chrRange from hq)
    have htotal := h.total_lt
    unfold total at htotal
    rw [searchLoop, hhalf, if_pos hpow, shiftRight_eq_div_pow, pow_one,
      u32_of_eq (k := below w (i + 2 ^ k + 1)) (by rw [hnext]; push_cast; rfl) (by omega)]
    by_cases hstep : below w (i + 2 ^ k + 1) ≤ value
    · rw [if_pos ⟨hq, hstep⟩]
      apply ih fuel _ _ (by omega) (dvd_add hdvd dvd_rfl) (by omega) rfl hstep
      rw [show i + 2 ^ k + 2 ^ k = i + 2 ^ (k + 1) by omega]
      exact hhi
    · rw [if_neg fun hand => hstep hand.2]
      apply ih fuel n i (by omega) hdvd (by omega) hn hlo
      omega

end

theorem eq_of_below {a b value : ℕ} (ha : below w a ≤ value)
    (ha' : value < below w (a + 1)) (hb : below w b ≤ value) (hb' : value < below w (b + 1)) : a = b := by
  by_contra hne
  rcases lt_or_gt_of_ne hne with hlt | hlt
  · have := below_mono w (show a + 1 ≤ b from hlt)
    omega
  · have := below_mono w (show b + 1 ≤ a from hlt)
    omega

theorem search_eq (h : Represents freq w) {value : ℕ}
    (hch : ch < chrRange) (hlo : below w ch ≤ value) (hhi : value < below w (ch + 1)) :
    search freq value = (below w ch, ch) := by
  have htop : value < below w chrRange := hhi.trans_le (below_mono w hch)
  have hone : below w (0 + 1) = w 0 := by rw [below_eq_span, Fenwick.span_self, add_zero]
  unfold search
  split_ifs with hzero
  · obtain ⟨j, hj, heq, hjlo, hjhi⟩ := searchLoop_eq h value 32 8 (freq.count 0) 0
      (by decide) (dvd_zero _) (by decide) (by rw [h.zero, hone]) hzero htop
    have hmid : (2 : ℕ) ^ 8 / 2 = freq.mid := by rw [h.mid]; rfl
    rw [hmid] at heq
    rw [heq, eq_of_below hlo hhi hjlo hjhi]
  · have : ch = 0 := by
      apply eq_of_below hlo hhi (zero_le _)
      rw [hone, ← h.zero]
      omega
    rw [this]
    rfl

def halvedTo (w : ℕ → ℕ) (k i : ℕ) : ℕ := if i < k then w i - w i / 2 else w i

theorem halvedTo_succ (w : ℕ → ℕ) (k : ℕ) : halvedTo w (k + 1) = update (halvedTo w k) k (w k - w k / 2) := by
  funext i
  by_cases hi : i = k
  · subst hi
    rw [update_self, halvedTo, if_pos (lt_succ_self i)]
  · rw [update_of_ne hi, halvedTo, halvedTo]
    by_cases hlt : i < k
    · rw [if_pos hlt, if_pos (by omega)]
    · rw [if_neg hlt, if_neg (by omega)]

theorem halvedTo_le (w : ℕ → ℕ) (k i : ℕ) : halvedTo w k i ≤ w i := by
  unfold halvedTo
  split_ifs <;> omega

theorem below_le_below {v : ℕ → ℕ} (h : ∀ i, v i ≤ w i) (k : ℕ) : below v k ≤ below w k :=
  Finset.sum_le_sum fun i _ => h i

theorem halveAt_represents (h : Represents freq (halvedTo w k)) (hk : k < chrRange) (hw : total w < 2 ^ 31) :
    Represents (halveAt freq k) (halvedTo w (k + 1)) := by
  have hcount : frequencyCount freq k = w k := by
    rw [frequencyCount_eq h hk, halvedTo, if_neg (lt_irrefl k)]
  have hhalf : w k >>> 1 = w k / 2 := shiftRight_eq_div_pow (w k) 1
  have hself : halvedTo w k k = w k := if_neg (lt_irrefl k)
  unfold halveAt
  dsimp only
  rw [hcount, hhalf]
  split_ifs with hpos
  · rw [halvedTo_succ]
    apply inc_represents h hk
    · rw [hself]
      omega
    · rw [← halvedTo_succ]
      exact (below_le_below (halvedTo_le w _) _).trans_lt hw
  · have hzero : w k - w k / 2 = halvedTo w k k := by omega
    rw [halvedTo_succ, hzero, update_eq_self]
    exact h

theorem foldl_halveAt_represents (h : Represents freq w) (k : ℕ)
    (hk : k ≤ chrRange) : Represents ((List.range k).foldl halveAt freq) (halvedTo w k) := by
  induction k with
  | zero =>
    have : halvedTo w 0 = w := by
      funext i
      exact if_neg (not_lt_zero i)
    rw [this]
    exact h
  | succ k ih =>
    rw [List.range_succ, List.foldl_append]
    exact halveAt_represents (ih (by omega)) (by omega) h.total_lt

theorem below_halvedTo (w : ℕ → ℕ) (k : ℕ) : 2 * below (halvedTo w k) k ≤ below w k + k := by
  induction k with
  | zero => simp [below]
  | succ k ih =>
    have hup := below_update (halvedTo w k) k (w k - w k / 2) k
    rw [if_neg (lt_irrefl k), ← halvedTo_succ] at hup
    rw [below_succ, below_succ, halvedTo, if_pos (lt_succ_self k)]
    omega

def ones (k i : ℕ) : ℕ := if i < k then 1 else 0

theorem below_ones (k n : ℕ) : below (ones k) n ≤ n := by
  have hle := Finset.sum_le_card_nsmul (Finset.range n) (ones k) 1 fun i _ => by
    unfold ones
    split_ifs <;> omega
  rwa [Finset.card_range, smul_eq_mul, mul_one] at hle

/-- The weights that occur between two symbols: every symbol can be coded, and the sum is small
enough for the range to be divided among them. -/
structure Weights where
  weight : ℕ → ℕ
  pos : ∀ i < chrRange, 0 < weight i
  total_lt : total weight < freqLimit

namespace Weights

theorem total_pos (t : Weights) : 0 < total t.weight := by
  have hle := below_mono t.weight (show 0 + 1 ≤ chrRange by decide)
  have hpos := t.pos 0 (by decide)
  rw [below_succ] at hle
  unfold total
  omega

def initial : Weights where
  weight := ones chrRange
  pos := by
    intro i hi
    rw [ones, if_pos hi]
    exact Nat.one_pos
  total_lt := (below_ones chrRange chrRange).trans_lt (by decide)

def bump (t : Weights) (ch : ℕ) : ℕ → ℕ := Function.update t.weight ch (t.weight ch + freqInc)

theorem le_bump (t : Weights) (ch i : ℕ) : t.weight i ≤ t.bump ch i := by
  unfold bump
  by_cases hi : i = ch
  · rw [hi, update_self]
    omega
  · rw [update_of_ne hi]

theorem total_bump (t : Weights) (ch : ℕ) : total (t.bump ch) ≤ total t.weight + freqInc := by
  have hup := below_update t.weight ch (t.weight ch + freqInc) chrRange
  unfold total bump
  split_ifs at hup <;> omega

def next (t : Weights) (ch : ℕ) : Weights where
  weight := if freqLimit ≤ total (t.bump ch) then halvedTo (t.bump ch) chrRange else t.bump ch
  pos := by
    intro i hi
    have hpos := (t.pos i hi).trans_le (t.le_bump ch i)
    split_ifs
    · rw [halvedTo, if_pos hi]
      omega
    · exact hpos
  total_lt := by
    split_ifs with hlimit
    · have hhalf := below_halvedTo (t.bump ch) chrRange
      have hbump := t.total_bump ch
      have hlt := t.total_lt
      unfold total at *
      unfold freqLimit freqInc at *
      have hrange : chrRange = 257 := rfl
      omega
    · exact not_le.mp hlimit

end Weights

theorem frequencyUpdate_represents {t : Weights} (h : Represents freq t.weight) (hch : ch < chrRange) : Represents (frequencyUpdate freq ch) (t.next ch).weight := by
  have hlt : total (t.bump ch) < 2 ^ 31 := by
    have := t.total_bump ch
    have := t.total_lt
    unfold freqInc freqLimit at *
    omega
  have hinc : Represents (inc freq ch freqInc) (t.bump ch) := inc_represents h hch (by push_cast; rfl) hlt
  unfold frequencyUpdate Weights.next
  dsimp only
  rw [hinc.sum]
  split_ifs
  · exact foldl_halveAt_represents hinc chrRange le_rfl
  · exact hinc

theorem ones_succ (k : ℕ) : ones (k + 1) = update (ones k) k 1 := by
  funext i
  unfold ones
  by_cases hi : i = k
  · rw [hi, update_self, if_pos (lt_succ_self k)]
  · rw [update_of_ne hi]
    have : i < k + 1 ↔ i < k := by omega
    simp only [this]

theorem foldl_inc_represents (k : ℕ) (hk : k ≤ chrRange) :
    Represents ((List.range k).foldl (fun freq i => inc freq i 1) ⟨fun _ => 0, 0, midLoop 32 1⟩) (ones k) := by
  induction k with
  | zero =>
    have hzero : ones 0 = fun _ => 0 := by
      funext i
      exact if_neg (not_lt_zero i)
    rw [hzero]
    constructor <;> simp [Fenwick.node, Fenwick.span, total, below, midLoop, chrRange]
  | succ k ih =>
    have hself : ones k k = 0 := if_neg (lt_irrefl k)
    rw [List.range_succ, List.foldl_append, ones_succ]
    apply inc_represents (ih (by omega)) (by omega)
    · rw [hself]
      rfl
    · rw [← ones_succ]
      exact (below_ones (k + 1) chrRange).trans_lt (by decide)

theorem frequencyInitialize_represents : Represents frequencyInitialize Weights.initial.weight :=
  foldl_inc_represents chrRange le_rfl

/-- The plain table: an update adds to one entry, and at the limit it halves them all. -/
def updateTable (w : ℕ → ℕ) (ch : ℕ) : ℕ → ℕ :=
  let w := update w ch (w ch + freqInc)
  if freqLimit ≤ total w then fun i => w i - w i / 2 else w

structure Tabulates (freq : Frequency) (w : ℕ → ℕ) : Prop where
  pos : ∀ ch < chrRange, 0 < w ch
  count : ∀ ch < chrRange, frequencyCount freq ch = w ch
  cumulated : ∀ ch < chrRange, frequencyCalc freq ch = below w ch
  sum : freq.sum = total w
  sum_lt : freq.sum < freqLimit
  found : ∀ value < freq.sum, ∃ ch < chrRange, search freq value = (below w ch, ch) ∧
    below w ch ≤ value ∧ value < below w (ch + 1)

theorem exists_below {value : ℕ} (h : value < below w k) :
    ∃ ch < k, below w ch ≤ value ∧ value < below w (ch + 1) := by
  induction k with
  | zero => exact absurd h (not_lt_zero value)
  | succ k ih =>
    by_cases hk : below w k ≤ value
    · exact ⟨k, lt_succ_self k, hk, h⟩
    · obtain ⟨ch, hch, hbounds⟩ := ih (not_le.mp hk)
      exact ⟨ch, hch.trans (lt_succ_self k), hbounds⟩

theorem below_congr {v : ℕ → ℕ} (h : ∀ i < chrRange, v i = w i) (hch : ch ≤ chrRange) : below v ch = below w ch :=
  Finset.sum_congr rfl fun i hi => h i ((Finset.mem_range.mp hi).trans_le hch)

theorem tabulates_of_represents {t : Weights} (h : Represents freq t.weight)
    (hw : ∀ i < chrRange, t.weight i = w i) : Tabulates freq w := by
  have htotal : total t.weight = total w := below_congr hw le_rfl
  constructor
  · intro ch hch
    rw [← hw ch hch]
    exact t.pos ch hch
  · intro ch hch
    rw [frequencyCount_eq h hch, hw ch hch]
  · intro ch hch
    rw [frequencyCalc_eq h hch, below_congr hw hch.le]
  · exact h.sum.trans htotal
  · exact h.sum.trans_lt t.total_lt
  · intro value hvalue
    obtain ⟨ch, hch, hlo, hhi⟩ := exists_below (hvalue.trans_eq h.sum)
    refine ⟨ch, hch, ?_⟩
    rw [← below_congr hw hch.le, ← below_congr hw hch]
    exact ⟨search_eq h hch hlo hhi, hlo, hhi⟩

theorem next_eq_updateTable {t : Weights} (hw : ∀ i < chrRange, t.weight i = w i) (hch : ch < chrRange) :
    ∀ i < chrRange, (t.next ch).weight i = updateTable w ch i := by
  have hbump : ∀ i < chrRange, t.bump ch i = update w ch (w ch + freqInc) i := by
    intro i hi
    unfold Weights.bump
    rw [← hw ch hch]
    by_cases heq : i = ch
    · rw [heq, update_self, update_self]
    · rw [update_of_ne heq, update_of_ne heq, hw i hi]
  have htotal : total (t.bump ch) = total (update w ch (w ch + freqInc)) := below_congr hbump le_rfl
  intro i hi
  unfold updateTable Weights.next
  dsimp only
  rw [htotal]
  split_ifs
  · rw [halvedTo, if_pos hi, hbump i hi]
  · exact hbump i hi

theorem foldl_update_tabulates {t : Weights} (h : Represents freq t.weight)
    (hw : ∀ i < chrRange, t.weight i = w i) (chs : List ℕ) (hchs : ∀ ch ∈ chs, ch < chrRange) :
    Tabulates (chs.foldl frequencyUpdate freq) (chs.foldl updateTable w) := by
  induction chs generalizing freq t w with
  | nil => exact tabulates_of_represents h hw
  | cons ch chs ih =>
    obtain ⟨hch, hchs⟩ := List.forall_mem_cons.mp hchs
    rw [List.foldl_cons, List.foldl_cons]
    exact ih (frequencyUpdate_represents h hch) (next_eq_updateTable hw hch) hchs

theorem frequency_tabulates (chs : List ℕ) (hchs : ∀ ch ∈ chs, ch < chrRange) :
    Tabulates (chs.foldl frequencyUpdate frequencyInitialize) (chs.foldl updateTable fun _ => 1) :=
  foldl_update_tabulates frequencyInitialize_represents (fun _ hi => if_pos hi) chs hchs

theorem frequency_tabulates_eos :
    Tabulates ([chrEos].foldl frequencyUpdate frequencyInitialize) ([chrEos].foldl updateTable fun _ => 1) :=
  frequency_tabulates [chrEos] (by decide)

end Eotan.Rc
