import Eotan.Rc.Encoder

namespace Eotan.Rc

open List
open Nat

variable {freq : Frequency} {rc : RangeCoder} {t : Weights} {c i : ℕ}

/-- The states of `rc_decode` before each call of `frequency_decode`. -/
inductive Asks (input : List UInt8) (room : Option ℕ) : Frequency → RangeCoder → Prop
  | first {c₀ c₁ c₂ c₃ : UInt8} {rest : List UInt8} (h : input = c₀ :: c₁ :: c₂ :: c₃ :: rest) :
      Asks input room frequencyInitialize { rcInitialize .bputc rest room with
        low := c₀.toNat <<< 24 ||| c₁.toNat <<< 16 ||| c₂.toNat <<< 8 ||| c₃.toNat }
  | next {freq freq' : Frequency} {rc rc' rc'' : RangeCoder} {ch : ℕ} (h : Asks input room freq rc)
      (hdecode : frequencyDecode freq rc = .ok (ch, freq', rc')) (hch : ch ≠ chrEos)
      (hput : putc rc' ch = .ok rc'') : Asks input room freq' rc''

/-- The table `freq` in a memory that holds `d` beyond it. -/
def Frequency.beyond (freq : Frequency) (d : ℕ → ℕ) : Frequency :=
  { freq with count := fun c => if c < chrRange then freq.count c else d c }

section Bounds

variable (d : ℕ → ℕ)

theorem beyond_count (hc : c < chrRange) : (freq.beyond d).count c = freq.count c := if_pos hc

theorem searchLoop_beyond (fuel value h n i : ℕ) :
    searchLoop fuel (freq.beyond d).count value h n i = searchLoop fuel freq.count value h n i := by
  induction fuel generalizing h n i with
  | zero => rfl
  | succ fuel ih =>
    simp only [searchLoop, ih]
    by_cases hq : i + h < chrRange
    · rw [beyond_count d hq]
    · simp only [hq, false_and, if_false]

theorem search_beyond (freq : Frequency) (value : ℕ) : search (freq.beyond d) value = search freq value := by
  simp only [search, searchLoop_beyond, beyond_count d (show 0 < chrRange by decide)]
  rfl

theorem countLoop_beyond (fuel i j n : ℕ) (hi : i < chrRange) :
    countLoop fuel (freq.beyond d).count i j n = countLoop fuel freq.count i j n := by
  induction fuel generalizing i n with
  | zero => rfl
  | succ fuel ih =>
    simp only [countLoop]
    rw [ih _ _ (lt_of_le_of_lt and_le_left hi), beyond_count d hi]

theorem frequencyCount_beyond (hc : c < chrRange) :
    frequencyCount (freq.beyond d) c = frequencyCount freq c := by
  simp only [frequencyCount, beyond_count d hc]
  rw [countLoop_beyond d _ _ _ _ (by omega)]

theorem inc_beyond (hc : c < chrRange) (n : ℤ) : inc (freq.beyond d) c n = (inc freq c n).beyond d := by
  rw [inc_eq _ hc, inc_eq _ hc]
  simp only [Frequency.beyond, Frequency.mk.injEq, and_true]
  funext e
  by_cases he : e < chrRange
  · simp only [he, if_true]
  · simp only [he, false_and, if_false]

theorem halveAt_beyond (hi : i < chrRange) : halveAt (freq.beyond d) i = (halveAt freq i).beyond d := by
  simp only [halveAt, frequencyCount_beyond d hi, inc_beyond d hi]
  split_ifs <;> rfl

theorem foldl_halveAt_beyond (k : ℕ) (hk : k ≤ chrRange) :
    (range k).foldl halveAt (freq.beyond d) = ((range k).foldl halveAt freq).beyond d := by
  induction k with
  | zero => rfl
  | succ k ih =>
    rw [range_succ, foldl_append, foldl_append, ih (by omega)]
    exact halveAt_beyond d hk

theorem frequencyUpdate_beyond (hc : c < chrRange) :
    frequencyUpdate (freq.beyond d) c = (frequencyUpdate freq c).beyond d := by
  simp only [frequencyUpdate, inc_beyond d hc, foldl_halveAt_beyond d chrRange le_rfl]
  split_ifs with h1 h2 h2
  · rfl
  · exact absurd h1 h2
  · exact absurd h2 h1
  · rfl

theorem frequencyDecode_beyond (h : ∀ value, (search freq value).2 ≤ chrEos) :
    frequencyDecode (freq.beyond d) rc =
      (frequencyDecode freq rc).map fun r => (r.1, r.2.1.beyond d, r.2.2) := by
  have hch := lt_succ_of_le (h (rc.low / (rc.range / freq.sum)))
  have hsum : (freq.beyond d).sum = freq.sum := rfl
  simp only [frequencyDecode, hsum, search_beyond, frequencyCount_beyond d hch, frequencyUpdate_beyond d hch]
  cases rcDecodeNormalize _ with
  | error e => rfl
  | ok rc => rfl

end Bounds

theorem searchLoop_le (fuel : ℕ) (count : ℕ → ℕ) (value h n i : ℕ) :
    (searchLoop fuel count value h n i).2 ≤ i + (2 * h - 1) := by
  induction fuel generalizing h n i with
  | zero => exact le_add_right _ _
  | succ fuel ih =>
    rw [searchLoop]
    split_ifs with hpos hq
    · have := ih (h >>> 1) (u32 (n + count (i + h))) (i + h)
      omega
    · have := ih (h >>> 1) n i
      omega
    · exact le_add_right _ _

/-- A value at or above the sum is taken for the end of the stream. -/
theorem search_le (h : Represents freq t.weight) (value : ℕ) : (search freq value).2 ≤ chrEos := by
  unfold search
  split_ifs
  · have := searchLoop_le 32 freq.count value freq.mid (freq.count 0) 0
    rw [h.mid] at this
    rw [h.mid]
    exact succ_le_succ this
  · exact zero_le _

theorem fillLoop_cases (input : List UInt8) (rc : RangeCoder) (hinput : rc.input = input)
    (hpos : 0 < rc.range) (hlt : rc.range < 2 ^ 32) : (∃ rc', fillLoop input rc = .error (.file rc')) ∨
      ∃ rc', fillLoop input rc = .ok rc' ∧ Admissible rc'.range ∧ rc'.output = rc.output ∧
        (rc' = rc ∨ rc'.input.length < input.length) := by
  induction input generalizing rc with
  | nil =>
    rw [fillLoop]
    split_ifs with hmin
    · exact .inl ⟨rc, rfl⟩
    · exact .inr ⟨rc, rfl, ⟨not_lt.mp hmin, hlt⟩, rfl, .inl rfl⟩
  | cons b input ih =>
    rw [fillLoop]
    split_ifs with hmin
    · unfold minRange at hmin
      have hrange : u32 (rc.range <<< 8 : ℕ) = rc.range * 256 := by
        rw [u32_shiftLeft, mod_eq_of_lt (by omega)]
      obtain ⟨rc', heq⟩ | ⟨rc', heq, hadm, hout, hless⟩ := ih { rc with
          input := input
          low := u32 (rc.low <<< 8 + b.toNat : ℕ)
          range := u32 (rc.range <<< 8 : ℕ) } rfl (by dsimp only; omega) (by dsimp only; omega)
      · exact .inl ⟨rc', heq⟩
      refine .inr ⟨rc', heq, hadm, hout, .inr ?_⟩
      rw [length_cons]
      rcases hless with rfl | hless
      · exact lt_succ_self _
      · omega
    · exact .inr ⟨rc, rfl, ⟨not_lt.mp hmin, hlt⟩, rfl, .inl rfl⟩

theorem weight_lt_total (t : Weights) (hc : c < chrRange) : t.weight c < total t.weight := by
  have hlow := below_mono t.weight (show c + 1 ≤ chrRange from hc)
  rw [below_succ] at hlow
  change _ ≤ total t.weight at hlow
  by_cases hz : c = 0
  · subst hz
    have htwo := below_mono t.weight (show 2 ≤ chrRange by decide)
    rw [below_succ, below_succ] at htwo
    have := t.pos 1 (by decide)
    unfold total
    omega
  · have hone := below_mono t.weight (show 1 ≤ c by omega)
    rw [below_succ] at hone
    have := t.pos 0 (by decide)
    omega

/-- What is left of the input and of the range: a symbol that reads no byte narrows the range. -/
def left (rc : RangeCoder) : ℕ := rc.input.length * 2 ^ 32 + rc.range

theorem frequencyDecode_cases (h : Represents freq t.weight) (hadm : Admissible rc.range) :
    (∃ rc', frequencyDecode freq rc = .error (.file rc')) ∨
      ∃ ch freq' rc', frequencyDecode freq rc = .ok (ch, freq', rc') ∧
        Represents freq' (t.next ch).weight ∧ Admissible rc'.range ∧ rc'.output = rc.output ∧
        left rc' < left rc := by
  generalize hsearch : search freq (rc.low / (rc.range / freq.sum)) = found
  have hch : found.2 < chrRange := by
    rw [← hsearch]
    exact lt_succ_of_le (search_le h _)
  have hshare := share_le t.total_pos t.total_lt hadm
  have hfew := width_le (t := t) hadm hch
  have hwidth : t.weight found.2 * (rc.range / total t.weight) < rc.range :=
    calc t.weight found.2 * (rc.range / total t.weight)
        < total t.weight * (rc.range / total t.weight) :=
          mul_lt_mul_of_pos_right (weight_lt_total t hch) (by omega)
      _ ≤ rc.range := mul_div_le _ _
  have hmax := hadm.2
  change 512 ≤ t.weight found.2 * (rc.range / total t.weight) at hfew
  have hrange : u32 (frequencyCount freq found.2 * (rc.range / freq.sum) : ℕ) =
      t.weight found.2 * (rc.range / total t.weight) := by
    rw [frequencyCount_eq h hch, h.sum, u32_natCast (by omega)]
  obtain ⟨rc', heq⟩ | ⟨rc', heq, hadm', hout, hless⟩ := fillLoop_cases rc.input { rc with
      low := u32 (rc.low - (found.1 * (rc.range / freq.sum) : ℕ))
      range := u32 (frequencyCount freq found.2 * (rc.range / freq.sum) : ℕ) } rfl
    (by dsimp only; omega) (by dsimp only; omega)
  · left
    refine ⟨rc', ?_⟩
    simp only [frequencyDecode, hsearch, rcDecodeNormalize]
    rw [heq]
    rfl
  · right
    refine ⟨found.2, frequencyUpdate freq found.2, rc', ?_, frequencyUpdate_represents h hch, hadm', hout, ?_⟩
    · simp only [frequencyDecode, hsearch, rcDecodeNormalize]
      rw [heq]
      rfl
    · unfold Rc.left
      rcases hless with rfl | hless
      · dsimp only
        rw [hrange]
        omega
      · have := hadm'.2
        omega

theorem putc_cases (rc : RangeCoder) (ch : ℕ) : (∃ rc', putc rc ch = .error (.file rc')) ∨
    ∃ rc', putc rc ch = .ok rc' ∧ rc'.range = rc.range ∧ left rc' = left rc ∧
      rc'.output.length ≤ rc.output.length + 1 := by
  unfold putc
  split
  · exact .inr ⟨_, rfl, rfl, rfl, le_succ _⟩
  · split
    · exact .inr ⟨_, rfl, rfl, rfl, by simp⟩
    · exact .inl ⟨rc, rfl⟩
    · exact .inr ⟨_, rfl, rfl, rfl, by simp⟩

structure Sound (input : List UInt8) (freq : Frequency) (rc : RangeCoder) : Prop where
  table : ∃ t : Weights, Represents freq t.weight
  range : Admissible rc.range
  output : rc.output.length + left rc < (input.length + 1) * 2 ^ 32

theorem Asks.sound {input : List UInt8} {room : Option ℕ} (h : Asks input room freq rc) :
    Sound input freq rc := by
  induction h with
  | @first c₀ c₁ c₂ c₃ rest h =>
    refine ⟨⟨Weights.initial, frequencyInitialize_represents⟩, by change Admissible maxRange; unfold Admissible; decide, ?_⟩
    rw [h]
    change 0 + (rest.length * 2 ^ 32 + 0xffffffff) < (rest.length + 4 + 1) * 2 ^ 32
    omega
  | @next freq freq' rc rc' rc'' ch _ hdecode _ hput ih =>
    obtain ⟨t, ht⟩ := ih.table
    obtain ⟨_, heq⟩ | ⟨_, _, _, heq, htable, hadm, hout, hleft⟩ := frequencyDecode_cases ht ih.range
    · rw [hdecode] at heq
      cases heq
    rw [hdecode] at heq
    cases heq
    obtain ⟨_, heq⟩ | ⟨_, heq, hrange, hsame, hlength⟩ := putc_cases rc' ch
    · rw [hput] at heq
      cases heq
    rw [hput] at heq
    cases heq
    refine ⟨⟨_, htable⟩, by rw [hrange]; exact hadm, ?_⟩
    have := ih.output
    rw [hout] at hlength
    omega

theorem decodeLoop_ends (n : ℕ) (h : Represents freq t.weight) (hadm : Admissible rc.range)
    (hleft : left rc < n) : ∃ r, r ≠ .error .rounds ∧ ∀ rounds ≥ n, decodeLoop rounds freq rc = r := by
  induction n generalizing freq rc t with
  | zero => omega
  | succ n ih =>
    have hsucc {r} (h : ∀ k ≥ n, decodeLoop (k + 1) freq rc = r) : ∀ rounds ≥ n + 1,
        decodeLoop rounds freq rc = r := by
      rintro (_ | k) hk
      · omega
      · exact h k (by omega)
    obtain ⟨rc', heq⟩ | ⟨ch, freq', rc', heq, htable, hadm', -, hless⟩ := frequencyDecode_cases h hadm
    · refine ⟨.error (.file rc'), by simp, hsucc fun k _ => ?_⟩
      rw [decodeLoop, heq]
      rfl
    by_cases hch : ch = chrEos
    · refine ⟨.ok (freq', rc'), by simp, hsucc fun k _ => ?_⟩
      rw [decodeLoop, heq]
      exact if_pos hch
    obtain ⟨rc'', hput⟩ | ⟨rc'', hput, hrange, hsame, -⟩ := putc_cases rc' ch
    · refine ⟨.error (.file rc''), by simp, hsucc fun k _ => ?_⟩
      rw [decodeLoop, heq]
      refine (if_neg hch).trans ?_
      dsimp only
      rw [hput]
      rfl
    · obtain ⟨r, hr, hrun⟩ := ih htable (by rw [hrange]; exact hadm') (show left rc'' < n by omega)
      refine ⟨r, hr, hsucc fun k hk => ?_⟩
      rw [decodeLoop, heq]
      refine (if_neg hch).trans ?_
      dsimp only
      rw [hput]
      exact hrun k hk

theorem rcDecode_safe (input : List UInt8) (room : Option ℕ) :
    (∀ freq rc, Asks input room freq rc → freq.sum ≠ 0 ∧ rc.range / freq.sum ≠ 0 ∧
      (∀ value, (search freq value).2 ≤ chrEos) ∧
      (∀ d, frequencyDecode (freq.beyond d) rc =
        (frequencyDecode freq rc).map fun r => (r.1, r.2.1.beyond d, r.2.2)) ∧
      rc.output.length < (input.length + 1) * 2 ^ 32) ∧
    ∃ r, r ≠ .error .rounds ∧ ∀ rounds ≥ (input.length + 1) * 2 ^ 32,
      rcDecode rounds frequencyInitialize (rcInitialize .bputc input room) = r := by
  constructor
  · intro freq rc h
    have hsound := h.sound
    obtain ⟨t, ht⟩ := hsound.table
    have hshare := share_le t.total_pos t.total_lt hsound.range
    have hpos := t.total_pos
    refine ⟨by rw [ht.sum]; omega, by rw [ht.sum]; omega, search_le ht, ?_, ?_⟩
    · intro d
      exact frequencyDecode_beyond d (search_le ht)
    · exact lt_of_le_of_lt (le_add_right _ _) hsound.output
  · match input with
    | [] => exact ⟨_, by simp, fun _ _ => rfl⟩
    | [_] => exact ⟨_, by simp, fun _ _ => rfl⟩
    | [_, _] => exact ⟨_, by simp, fun _ _ => rfl⟩
    | [_, _, _] => exact ⟨_, by simp, fun _ _ => rfl⟩
    | c₀ :: c₁ :: c₂ :: c₃ :: rest =>
      have hfirst : Asks (c₀ :: c₁ :: c₂ :: c₃ :: rest) room _ _ := .first rfl
      have hsound := hfirst.sound
      obtain ⟨t, ht⟩ := hsound.table
      exact decodeLoop_ends _ ht hsound.range (lt_of_le_of_lt (le_add_left _ _) hsound.output)

end Eotan.Rc
