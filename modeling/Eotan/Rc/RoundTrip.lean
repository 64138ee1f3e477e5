import Eotan.Rc.Encoder

/-!
The decoder follows the encoder: `low` and the bytes it has not yet read are the point of the
symbols still to come.
-/

namespace Eotan.Rc

open Lib
open Lib.Radix (value)
open List
open Nat

def code (rc : RangeCoder) : ℕ :=
  rc.low * 256 ^ rc.input.length + value 256 (rc.input.map UInt8.toNat)

theorem value_bytes_lt (l : List UInt8) : value 256 (l.map UInt8.toNat) < 256 ^ l.length := by
  have h := Radix.value_lt (b := 256) (by decide) (l := l.map UInt8.toNat) fun d hd => by
    obtain ⟨c, -, rfl⟩ := mem_map.mp hd
    exact c.toNat_lt
  rwa [length_map] at h

def SameStreams (rc rc' : RangeCoder) : Prop :=
  rc'.put = rc.put ∧ rc'.output = rc.output ∧ rc'.room = rc.room

theorem fillLoop_code (k : ℕ) (input : List UInt8) (rc : RangeCoder) (hinput : rc.input = input)
    (hk : k ≤ input.length) (hmin : minRange ≤ rc.range * 256 ^ k)
    (hmax : rc.range * 256 ^ k < 2 ^ 32) (hlt : ∀ j < k, rc.range * 256 ^ j < minRange)
    (hlow : rc.low < rc.range) : ∃ rc', fillLoop input rc = .ok rc' ∧ rc'.range = rc.range * 256 ^ k ∧
      rc'.input.length + k = input.length ∧ code rc' = code rc ∧ SameStreams rc rc' := by
  induction k generalizing input rc with
  | zero =>
    rw [pow_zero, mul_one] at hmin ⊢
    refine ⟨rc, ?_, rfl, by rw [hinput, add_zero], rfl, rfl, rfl, rfl⟩
    cases input with
    | nil => rw [fillLoop, if_neg (not_lt.mpr hmin)]
    | cons c input => rw [fillLoop, if_neg (not_lt.mpr hmin)]
  | succ k ih =>
    have hrange := hlt 0 (succ_pos k)
    rw [pow_zero, mul_one] at hrange
    cases input with
    | nil => exact absurd hk (not_succ_le_zero k)
    | cons c input =>
      have hc := c.toNat_lt
      have hr : u32 (rc.range <<< 8 : ℕ) = rc.range * 256 := by
        rw [u32_shiftLeft]
        unfold minRange at hrange
        omega
      have hl : u32 (rc.low <<< 8 + c.toNat : ℕ) = rc.low * 256 + c.toNat := by
        rw [shiftLeft_eq]
        unfold minRange at hrange
        exact u32_natCast (by omega)
      have hpow (j : ℕ) : rc.range * 256 * 256 ^ j = rc.range * 256 ^ (j + 1) := by
        rw [pow_succ]
        ring
      rw [fillLoop, if_pos hrange, hr, hl]
      obtain ⟨rc', heq, hrange', hlen, hcode, hsame⟩ :=
        ih input { rc with
          input := input
          low := rc.low * 256 + c.toNat
          range := rc.range * 256 } rfl (le_of_succ_le_succ hk)
          (by rw [hpow]; exact hmin) (by rw [hpow]; exact hmax)
          (by
            intro j hj
            rw [hpow]
            exact hlt (j + 1) (by omega))
          (by
            dsimp only
            omega)
      refine ⟨rc', heq, by rw [hrange', hpow], by rw [length_cons]; omega, ?_, hsame⟩
      rw [hcode, code, code, hinput]
      dsimp only
      rw [map_cons, Radix.value_cons, length_cons, length_map, pow_succ]
      ring

structure Decoding (freq : Frequency) (rc : RangeCoder) (t : Weights) (range : ℕ)
    (l : List ℕ) : Prop where
  table : Represents freq t.weight
  range_eq : rc.range = range
  admissible : Admissible range
  code_eq : code rc = coder.point t range l
  length_eq : rc.input.length = coder.shifts t range l

variable {freq : Frequency} {range : ℕ} {t : Weights}

theorem Decoding.low_mem {rc : RangeCoder} {ch : ℕ}
    {l : List ℕ} (h : Decoding freq rc t range (ch :: l)) (hl : ∀ c ∈ ch :: l, c < chrRange) :
    coder.start t range ch ≤ rc.low ∧ rc.low < coder.start t range ch + coder.width t range ch := by
  have hcode := h.code_eq
  have hvalue := value_bytes_lt rc.input
  have hupper := RangeCode.Coder.point_cons_lt coder_divides t range ch l h.admissible hl
  have hlower : coder.start t range ch * 256 ^ coder.shifts t range (ch :: l) ≤
      coder.point t range (ch :: l) := le_add_right _ _
  rw [code, h.length_eq] at hcode
  rw [h.length_eq] at hvalue
  constructor
  · by_contra hlt
    have hmul := mul_le_mul_right (256 ^ coder.shifts t range (ch :: l)) (not_le.mp hlt)
    rw [succ_mul] at hmul
    omega
  · refine Nat.lt_of_mul_lt_mul_right (a := 256 ^ coder.shifts t range (ch :: l)) ?_
    exact lt_of_le_of_lt (by omega) hupper

theorem frequencyDecode_decoding {rc : RangeCoder}
    {ch : ℕ} {l : List ℕ} (h : Decoding freq rc t range (ch :: l)) (hl : ∀ c ∈ ch :: l, c < chrRange) :
    ∃ freq' rc', frequencyDecode freq rc = .ok (ch, freq', rc') ∧
      Decoding freq' rc' (t.next ch) (coder.scaled t range ch) l ∧ SameStreams rc rc' := by
  have hch := hl ch mem_cons_self
  have hadm := h.admissible
  have hshare : 0 < range / total t.weight := lt_of_lt_of_le (by decide) (share_le t.total_pos t.total_lt hadm)
  obtain ⟨hlo, hhi⟩ := h.low_mem hl
  have hfits := coder_divides.fits t range ch hadm hch
  have hscaled := coder_divides.scaled t range ch hadm hch
  have hmax := hadm.2
  have hsearch : search freq (rc.low / (range / total t.weight)) = (below t.weight ch, ch) := by
    apply search_eq h.table hch
    · rw [le_div_iff_mul_le hshare]
      exact hlo
    · rw [div_lt_iff_lt_mul hshare, below_succ, add_mul]
      exact hhi
  have hlow : u32 (rc.low - (coder.start t range ch : ℕ)) = rc.low - coder.start t range ch :=
    u32_of_eq (by omega) (by omega)
  have hwidth : u32 (coder.width t range ch : ℕ) = coder.width t range ch := u32_natCast (by omega)
  have hgrowth : growth (coder.width t range ch) +
      coder.shifts (t.next ch) (coder.scaled t range ch) l = rc.input.length :=
    h.length_eq.symm
  obtain ⟨rc', heq, hrange', hlen, hcode, hsame⟩ :=
    fillLoop_code (growth (coder.width t range ch)) rc.input { rc with
      low := rc.low - coder.start t range ch
      range := coder.width t range ch } rfl (by omega) hscaled.1 hscaled.2
      (fun j hj => lt_of_lt_growth hj) (by dsimp only; omega)
  refine ⟨frequencyUpdate freq ch, rc', ?_, ⟨frequencyUpdate_represents h.table hch, hrange',
    hscaled, ?_, by omega⟩, hsame⟩
  · unfold frequencyDecode
    dsimp only
    rw [h.table.sum, h.range_eq, hsearch, frequencyCount_eq h.table hch]
    change (rcDecodeNormalize { rc with
      low := u32 (rc.low - (coder.start t range ch : ℕ))
      range := u32 (coder.width t range ch : ℕ) } >>= fun rc =>
        pure (ch, frequencyUpdate freq ch, rc)) = _
    rw [hlow, hwidth, rcDecodeNormalize, heq]
    rfl
  · have hpoint := h.code_eq
    rw [RangeCode.Coder.point_cons, ← h.length_eq, code] at hpoint
    rw [hcode, code]
    dsimp only
    rw [Nat.sub_mul]
    change _ = coder.start t range ch * 256 ^ rc.input.length +
      coder.point (t.next ch) (coder.scaled t range ch) l at hpoint
    have hmul := mul_le_mul_right (256 ^ rc.input.length) hlo
    omega

theorem decodeLoop_decoding (s : List UInt8) {rounds : ℕ} (hrounds : s.length < rounds) (rc : RangeCoder)
    (h : Decoding freq rc t range (symbols s)) (hput : rc.put = .bputc) (hroom : rc.room = none) :
    ∃ freq' rc', decodeLoop rounds freq rc = .ok (freq', rc') ∧ rc'.output = rc.output ++ s ∧
      rc'.input = [] := by
  obtain ⟨rounds, rfl⟩ : ∃ r, rounds = r + 1 := ⟨rounds - 1, by omega⟩
  induction s generalizing rounds freq rc t range with
  | nil =>
    obtain ⟨freq', rc', heq, hdec, hsame⟩ := frequencyDecode_decoding h (symbols_lt [])
    refine ⟨freq', rc', ?_, ?_, ?_⟩
    · rw [decodeLoop, heq]
      rfl
    · rw [hsame.2.1, append_nil]
    · exact length_eq_zero_iff.mp hdec.length_eq
  | cons c s ih =>
    obtain ⟨freq1, rc1, heq, hdec, hsame⟩ := frequencyDecode_decoding h (symbols_lt (c :: s))
    obtain ⟨rounds, rfl⟩ : ∃ r, rounds = r + 1 := ⟨rounds - 1, by
      rw [length_cons] at hrounds
      omega⟩
    have hne : c.toNat ≠ chrEos := (c.toNat_lt).ne
    have hputc : putc rc1 c.toNat = .ok { rc1 with output := rc1.output ++ [c] } := by
      rw [putc, hsame.1, hput, hsame.2.2, hroom]
      dsimp only
      rw [UInt8.ofNat_toNat]
    obtain ⟨freq', rc', heq', hout, hin⟩ := ih { rc1 with output := rc1.output ++ [c] }
      { hdec with }
      (hsame.1.trans hput) (hsame.2.2.trans hroom) rounds
      (by rw [length_cons] at hrounds; omega)
    refine ⟨freq', rc', ?_, ?_, hin⟩
    · rw [decodeLoop, heq]
      change (if c.toNat = chrEos then pure (freq1, rc1) else
        putc rc1 c.toNat >>= fun rc => decodeLoop (rounds + 1) freq1 rc) = _
      rw [if_neg hne, hputc]
      exact heq'
    · rw [hout, hsame.2.1, append_assoc]
      rfl

theorem shiftLeft_or {a b i : ℕ} (h : b < 2 ^ i) : a <<< i ||| b = a * 2 ^ i + b := by
  rw [← shiftLeft_add_eq_or_of_lt h, shiftLeft_eq]

theorem first_low (c0 c1 c2 c3 : UInt8) : c0.toNat <<< 24 ||| c1.toNat <<< 16 ||| c2.toNat <<< 8 ||| c3.toNat =
      value 256 ([c0, c1, c2, c3].map UInt8.toNat) := by
  have h1 := c1.toNat_lt
  have h2 := c2.toNat_lt
  have h3 := c3.toNat_lt
  rw [shiftLeft_or (by rw [shiftLeft_eq]; omega), shiftLeft_eq c1.toNat,
    show c0.toNat * 2 ^ 24 + c1.toNat * 2 ^ 16 = (c0.toNat * 2 ^ 8 + c1.toNat) <<< 16 by
      rw [shiftLeft_eq]; omega,
    shiftLeft_or (by rw [shiftLeft_eq]; omega), shiftLeft_eq c2.toNat,
    show (c0.toNat * 2 ^ 8 + c1.toNat) * 2 ^ 16 + c2.toNat * 2 ^ 8 =
      ((c0.toNat * 2 ^ 8 + c1.toNat) * 2 ^ 8 + c2.toNat) <<< 8 by rw [shiftLeft_eq]; omega,
    shiftLeft_or (by omega)]
  simp only [map_cons, map_nil, Radix.value_cons, Radix.value_nil, length_cons, length_nil]
  omega

theorem rcDecode_eq {s bytes : List UInt8} {rounds : ℕ} (hrounds : s.length < rounds)
    (hvalue : value 256 (bytes.map UInt8.toNat) = coder.point Weights.initial maxRange (symbols s))
    (hlength : bytes.length = coder.shifts Weights.initial maxRange (symbols s) + 4) :
    ∃ freq rc, rcDecode rounds frequencyInitialize (rcInitialize .bputc bytes none) =
      .ok (freq, rc) ∧ rc.output = s ∧ rc.input = [] := by
  match bytes, hlength with
  | c0 :: c1 :: c2 :: c3 :: rest, hlength =>
    have hdec : Decoding frequencyInitialize { rcInitialize .bputc rest none with
        low := c0.toNat <<< 24 ||| c1.toNat <<< 16 ||| c2.toNat <<< 8 ||| c3.toNat }
        Weights.initial maxRange (symbols s) := by
      refine ⟨frequencyInitialize_represents, rfl, by unfold Admissible; decide, ?_, ?_⟩
      · rw [← hvalue, code]
        dsimp only
        rw [first_low, show c0 :: c1 :: c2 :: c3 :: rest = [c0, c1, c2, c3] ++ rest from rfl,
          map_append, Radix.value_append, length_map]
        rfl
      · exact succ.inj (succ.inj (succ.inj (succ.inj hlength)))
    obtain ⟨freq', rc', heq, hout, hin⟩ := decodeLoop_decoding s hrounds _ hdec rfl rfl
    exact ⟨freq', rc', heq, hout, hin⟩

/-- Encoding `s` into a file whose first byte is dropped, and decoding that file, with `bump`
counting the pending bytes. -/
def RoundTrips (bump : ℕ → ℕ) (s : List UInt8) : Prop :=
  ∃ rc, rcEncode bump frequencyInitialize (rcInitialize .bputc1st s none) = .ok rc ∧
    ∀ rounds, s.length < rounds → ∃ freq' rc',
      rcDecode rounds frequencyInitialize (rcInitialize .bputc rc.output none) =
        .ok (freq', rc') ∧ rc'.output = s ∧ rc'.input = []

theorem roundTrips_of_bump {bump : ℕ → ℕ} (s : List UInt8)
    (hbump : ∀ n < 2 * (s.length + 1), bump n = n + 1) : RoundTrips bump s := by
  obtain ⟨rc, all, heq, hlt, hvalue, hlength⟩ := rcEncode_eq s hbump
  refine ⟨emit rc all, heq, ?_⟩
  intro rounds hrounds
  obtain ⟨d, rest, rfl⟩ : ∃ d rest, all = d :: rest := exists_cons_of_length_pos (by omega)
  have hbytes : (rest.map UInt8.ofNat).map UInt8.toNat = rest := by
    rw [map_map]
    have hid : ∀ x ∈ rest, (UInt8.toNat ∘ UInt8.ofNat) x = id x := by
      intro x hx
      exact mod_eq_of_lt (hlt x (mem_cons_of_mem d hx))
    rw [map_congr_left hid, map_id]
  have hpoint := RangeCode.Coder.point_lt coder_divides Weights.initial maxRange (symbols s)
    (by unfold Admissible; decide) (symbols_lt s)
  rw [length_cons] at hlength
  -- The interval never leaves the first range, so the byte that is dropped is zero.
  have hzero : d = 0 := by
    by_contra hne
    have hfirst := Radix.value_cons 256 d rest
    have hpow : 256 ^ rest.length = 256 ^ 4 * 256 ^ coder.shifts Weights.initial maxRange (symbols s) := by
      rw [← pow_add]
      congr 1
      omega
    have hle := Nat.le_mul_of_pos_left (256 ^ rest.length) (Nat.pos_of_ne_zero hne)
    have hmax := mul_le_mul_right (256 ^ coder.shifts Weights.initial maxRange (symbols s))
      (show maxRange ≤ 256 ^ 4 by decide)
    change _ < maxRange * 256 ^ coder.shifts Weights.initial maxRange (symbols s) at hpoint
    omega
  apply rcDecode_eq hrounds
  · rw [emit_output, tail_cons, hbytes, ← hvalue, hzero, Radix.value_cons, zero_mul, zero_add]
  · rw [emit_output, tail_cons, length_map]
    omega

end Eotan.Rc
