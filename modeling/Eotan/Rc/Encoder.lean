import Eotan.Lib.Radix
import Eotan.Lib.RangeCode
import Eotan.Rc.RangeCoder
import Mathlib.Tactic.Linarith

/-!
What the encoder writes. The bytes handed to `rc->put`, followed by the pending ones and by `low`,
are the digits of the low end of the interval.
-/

namespace Eotan.Rc

open Lib
open Lib.Radix (value)
open List
open Nat

@[simps]
def emit (rc : RangeCoder) (sent : List ℕ) : RangeCoder :=
  { rc with
    put := if sent = [] then .bputc1st else .bputc
    output := sent.tail.map UInt8.ofNat }

variable {rc : RangeCoder} {low shifts a limit range : ℕ} {sent : List ℕ} {bump : ℕ → ℕ}
  {t : Weights}

theorem putc_emit (h : rc.room = none) (sent : List ℕ) (ch : ℕ) :
    putc (emit rc sent) ch = .ok (emit rc (sent ++ [ch])) := by
  cases sent with
  | nil => rfl
  | cons d sent => simp [putc, emit, h]

theorem putRepeat_emit (h : rc.room = none) (sent : List ℕ) (ch n : ℕ) :
    putRepeat ch n (emit rc sent) = .ok (emit rc (sent ++ replicate n ch)) := by
  induction n generalizing sent with
  | zero => rw [putRepeat, replicate_zero, append_nil]
  | succ n ih =>
    rw [putRepeat, putc_emit h]
    show putRepeat ch n (emit rc (sent ++ [ch])) = _
    rw [ih, append_assoc, replicate_succ]
    rfl

theorem putBuf_emit (h : rc.room = none) (sent : List ℕ) (ch n : ℕ) :
    putBuf (emit rc sent) ch n = .ok (emit rc (sent ++ rc.buf :: replicate n ch)) := by
  rw [putBuf, putc_emit h, emit_buf]
  show putRepeat ch n (emit rc (sent ++ [rc.buf])) = _
  rw [putRepeat_emit h, append_assoc]
  rfl

/-- The state of the encoder between two symbols, `low` being the low end of the interval and
`shifts` the number of digits it has been shifted by. No carry can reach a byte that was sent. -/
structure Pending (rc : RangeCoder) (sent : List ℕ) (low shifts : ℕ) : Prop where
  room : rc.room = none
  carry : rc.carry = false
  low_lt : rc.low < 2 ^ 32
  buf_lt : rc.buf < 256
  sent_lt : ∀ d ∈ sent, d < 256
  low_eq : value 256 (sent ++ rc.buf :: List.replicate rc.count 255) * 2 ^ 32 + rc.low = low
  bound : low + rc.range ≤ (value 256 sent + 1) * 256 ^ (rc.count + 1) * 2 ^ 32
  length_eq : sent.length + rc.count = shifts

theorem Pending.count_le (h : Pending rc sent low shifts) : rc.count ≤ shifts := by
  rw [← h.length_eq]
  exact le_add_left _ _

theorem Pending.withInput (h : Pending rc sent low shifts) (input : List UInt8) :
    Pending { rc with input := input } sent low shifts :=
  { h with }

theorem u32_shiftLeft (k : ℕ) : u32 (k <<< 8 : ℕ) = k * 256 % 2 ^ 32 := by
  rw [shiftLeft_eq, u32]
  omega

theorem shift_digit (high low : ℕ) :
    (high * 256 + low / 2 ^ 24) * 2 ^ 32 + low * 256 % 2 ^ 32 = (high * 2 ^ 32 + low) * 256 := by
  omega

theorem carry_digit (high : ℕ) {top : ℕ} (h : top ≤ low + a) :
    (high + 1) * top + (low + a - top) = high * top + low + a := by
  rw [add_mul, one_mul]
  omega

theorem top_eq : 0xff <<< shift = 0xff000000 := by decide

theorem digits_lt {buf d : ℕ} (n : ℕ) (hsent : ∀ d ∈ sent, d < 256) (hbuf : buf < 256) (hd : d < 256) :
    ∀ x ∈ sent ++ buf :: replicate n d, x < 256 := by
  intro x hx
  rw [mem_append, mem_cons] at hx
  rcases hx with hx | rfl | hx
  · exact hsent x hx
  · exact hbuf
  · rw [eq_of_mem_replicate hx]
    exact hd

theorem shiftLoop_step (h : Pending rc sent low shifts) (hrange : rc.range < minRange)
    (hbump : bump rc.count = rc.count + 1) :
    ∃ rc' sent', Pending rc' sent' (low * 256) (shifts + 1) ∧ rc'.range = rc.range * 256 ∧
      ∀ rounds, shiftLoop bump (rounds + 1) (emit rc sent) = shiftLoop bump rounds (emit rc' sent') := by
  have hlow := h.low_eq
  have hlt := h.low_lt
  have hbound := h.bound
  have hr : u32 (rc.range <<< 8 : ℕ) = rc.range * 256 := by
    rw [u32_shiftLeft]
    unfold minRange at hrange
    omega
  have hdiv : rc.low >>> shift = rc.low / 2 ^ 24 := shiftRight_eq_div_pow _ _
  by_cases hff : rc.low < 0xff <<< shift
  · refine ⟨{ rc with
        buf := rc.low >>> shift
        count := 0
        low := u32 (rc.low <<< 8 : ℕ)
        range := u32 (rc.range <<< 8 : ℕ) },
      sent ++ rc.buf :: replicate rc.count 255, ⟨h.room, h.carry, ?_, ?_, ?_, ?_, ?_, ?_⟩, hr,
      ?_⟩
    · dsimp only
      rw [u32_shiftLeft]
      omega
    · dsimp only
      omega
    · exact digits_lt _ h.sent_lt h.buf_lt (by decide)
    · dsimp only
      rw [replicate_zero, Radix.value_concat, u32_shiftLeft, hdiv, shift_digit, hlow]
    · dsimp only
      rw [hr, zero_add, pow_one]
      rw [top_eq] at hff
      unfold minRange at hrange
      omega
    · dsimp only
      rw [← h.length_eq, length_append, length_cons, length_replicate]
      omega
    · intro rounds
      rw [shiftLoop, emit_range, if_pos hrange, emit_low, if_pos hff, emit_count, putBuf_emit h.room]
      rfl
  · refine ⟨{ rc with
        count := bump rc.count
        low := u32 (rc.low <<< 8 : ℕ)
        range := u32 (rc.range <<< 8 : ℕ) },
      sent, ⟨h.room, h.carry, ?_, h.buf_lt, h.sent_lt, ?_, ?_, ?_⟩, hr, ?_⟩
    · dsimp only
      rw [u32_shiftLeft]
      omega
    · dsimp only
      have htop : rc.low / 2 ^ 24 = 255 := by
        rw [top_eq] at hff
        omega
      have hdigit := shift_digit (value 256 (sent ++ rc.buf :: replicate rc.count 255)) rc.low
      rw [htop] at hdigit
      rw [hbump, replicate_succ', ← cons_append, ← append_assoc, Radix.value_concat, u32_shiftLeft, hdigit, hlow]
    · dsimp only
      rw [hr, hbump, pow_succ]
      calc low * 256 + rc.range * 256 = (low + rc.range) * 256 := by ring
        _ ≤ (value 256 sent + 1) * 256 ^ (rc.count + 1) * 2 ^ 32 * 256 := mul_le_mul_right 256 hbound
        _ = (value 256 sent + 1) * (256 ^ (rc.count + 1) * 256) * 2 ^ 32 := by ring
    · dsimp only
      rw [hbump, ← h.length_eq, add_assoc]
    · intro rounds
      rw [shiftLoop, emit_range, if_pos hrange, emit_low, if_neg hff]
      rfl

theorem shiftLoop_pending (hbump : ∀ n < limit, bump n = n + 1) (k rounds : ℕ) (hrounds : k < rounds)
    (h : Pending rc sent low shifts) (hmin : minRange ≤ rc.range * 256 ^ k)
    (hlt : ∀ j < k, rc.range * 256 ^ j < minRange) (hlimit : shifts + k ≤ limit) :
    ∃ rc' sent', Pending rc' sent' (low * 256 ^ k) (shifts + k) ∧ rc'.range = rc.range * 256 ^ k ∧
      shiftLoop bump rounds (emit rc sent) = .ok (emit rc' sent') := by
  obtain ⟨rounds, rfl⟩ : ∃ r, rounds = r + 1 := ⟨rounds - 1, by omega⟩
  induction k generalizing rounds rc sent low shifts with
  | zero =>
    rw [pow_zero, mul_one] at hmin
    refine ⟨rc, sent, ?_, ?_, ?_⟩
    · rw [pow_zero, mul_one]
      exact h
    · rw [pow_zero, mul_one]
    · rw [shiftLoop, emit_range, if_neg (not_lt.mpr hmin)]
  | succ k ih =>
    have hrange := hlt 0 (succ_pos k)
    rw [pow_zero, mul_one] at hrange
    have hcount := h.count_le
    obtain ⟨rc', sent', hpending, hr, hstep⟩ := shiftLoop_step h hrange (hbump rc.count (by omega))
    obtain ⟨rounds, rfl⟩ : ∃ r, rounds = r + 1 := ⟨rounds - 1, by omega⟩
    have hpow (j : ℕ) : rc'.range * 256 ^ j = rc.range * 256 ^ (j + 1) := by
      rw [hr, pow_succ]
      ring
    obtain ⟨rc'', sent'', hpending', hr', heq⟩ := ih hpending (by rw [hpow]; exact hmin) (by
        intro j hj
        rw [hpow]
        exact hlt (j + 1) (by omega))
      (by omega) rounds (by omega)
    refine ⟨rc'', sent'', ?_, ?_, ?_⟩
    · rw [show low * 256 ^ (k + 1) = low * 256 * 256 ^ k by rw [pow_succ]; ring,
        show shifts + (k + 1) = shifts + 1 + k by omega]
      exact hpending'
    · rw [hr', hpow]
    · rw [hstep, heq]

theorem Pending.buf_succ_lt (h : Pending rc sent low shifts) (ha : a < rc.range) (hcarry : 2 ^ 32 ≤ rc.low + a) :
    rc.buf + 1 < 256 := by
  have hbuf := h.buf_lt
  have hlow := h.low_eq
  have hbound := h.bound
  by_contra hge
  have h255 : rc.buf = 255 := by omega
  have htop := Radix.value_append_replicate_pred (b := 256) (by decide) sent (rc.count + 1)
  rw [replicate_succ] at htop
  rw [h255] at hlow
  rw [← htop] at hbound
  change low + rc.range ≤ (value 256 (sent ++ 255 :: replicate rc.count 255) + 1) * 2 ^ 32 at hbound
  omega

def added (rc : RangeCoder) (a b : ℕ) : RangeCoder :=
  { rc with
    low := u32 (rc.low + a : ℕ)
    carry := decide (u32 (rc.low + a : ℕ) < rc.low)
    range := b }

theorem added_of_lt (b : ℕ) (h : rc.low + a < 2 ^ 32) :
    added rc a b = { rc with low := rc.low + a, carry := false, range := b } := by
  have hfalse : decide (rc.low + a < rc.low) = false := decide_eq_false (by omega)
  rw [added, u32_natCast h, hfalse]

theorem added_of_carry (b : ℕ) (hlow : rc.low < 2 ^ 32) (ha : a < 2 ^ 32) (h : 2 ^ 32 ≤ rc.low + a) :
    added rc a b = { rc with low := rc.low + a - 2 ^ 32, carry := true, range := b } := by
  have hu : u32 (rc.low + a : ℕ) = rc.low + a - 2 ^ 32 := by
    unfold u32
    omega
  have htrue : decide (rc.low + a - 2 ^ 32 < rc.low) = true := decide_eq_true (by omega)
  rw [added, hu, htrue]

theorem propagate_of_count_eq_zero (rc : RangeCoder) (hcarry : rc.carry = true)
    (hcount : rc.count = 0) (hbuf : rc.buf + 1 < 256) (sent : List ℕ) :
    propagate (emit rc sent) = .ok (emit { rc with carry := false, buf := rc.buf + 1 } sent) := by
  rw [propagate, emit_carry, if_pos hcarry, emit_count, if_neg (by omega), emit_buf,
    u32_of_eq (k := rc.buf + 1) (by push_cast; rfl) (by omega)]
  rfl

theorem propagate_of_count_pos (rc : RangeCoder) (hroom : rc.room = none)
    (hcarry : rc.carry = true) (hcount : 0 < rc.count) (hbuf : rc.buf + 1 < 256) (sent : List ℕ) :
    propagate (emit rc sent) = .ok (emit { rc with carry := false, buf := 0, count := 0 }
        (sent ++ (rc.buf + 1) :: replicate (rc.count - 1) 0)) := by
  rw [propagate, emit_carry, if_pos hcarry, emit_count, if_pos hcount, emit_buf,
    u32_of_eq (k := rc.buf + 1) (by push_cast; rfl) (by omega)]
  change (putBuf (emit { rc with carry := false, buf := rc.buf + 1 } sent) 0 (rc.count - 1) >>=
    fun rc => pure { rc with buf := 0, count := 0 }) = _
  rw [putBuf_emit]
  · rfl
  · exact hroom

theorem value_carried (sent : List ℕ) (buf : ℕ) {count : ℕ} (h : 0 < count) :
    value 256 (sent ++ (buf + 1) :: replicate (count - 1) 0 ++ [0]) =
      value 256 (sent ++ buf :: replicate count 255) + 1 := by
  obtain ⟨n, rfl⟩ : ∃ n, count = n + 1 := ⟨count - 1, by omega⟩
  have hcarry := Radix.value_carry (b := 256) (by decide) sent buf (n + 1)
  rw [replicate_succ' (a := 0)] at hcarry
  rw [Nat.add_sub_cancel, append_assoc, cons_append]
  exact hcarry.symm

theorem propagate_pending {b : ℕ} (h : Pending rc sent low shifts) (hr : rc.range < 2 ^ 32) (hb : 0 < b)
    (hab : a + b ≤ rc.range) : ∃ rc' sent', propagate (emit (added rc a b) sent) = .ok (emit rc' sent') ∧
      Pending rc' sent' (low + a) shifts ∧ rc'.range = b := by
  have hlow := h.low_eq
  have hlt := h.low_lt
  have hbound := h.bound
  by_cases hcarry : rc.low + a < 2 ^ 32
  · rw [added_of_lt b hcarry]
    refine ⟨{ rc with low := rc.low + a, carry := false, range := b }, sent, rfl,
      ⟨h.room, rfl, hcarry, h.buf_lt, h.sent_lt, ?_, ?_, h.length_eq⟩, rfl⟩
    · dsimp only
      omega
    · dsimp only
      omega
  · have hge := not_lt.mp hcarry
    have hbuf := h.buf_succ_lt (a := a) (by omega) hge
    rw [added_of_carry b hlt (by omega) hge]
    by_cases hcount : rc.count = 0
    · have hstep := propagate_of_count_eq_zero
        { rc with low := rc.low + a - 2 ^ 32, carry := true, range := b } rfl hcount hbuf sent
      refine ⟨_, _, hstep, ⟨h.room, rfl, ?_, hbuf, h.sent_lt, ?_, ?_, h.length_eq⟩, rfl⟩
      · dsimp only
        omega
      · dsimp only
        rw [hcount, replicate_zero, Radix.value_concat] at hlow ⊢
        rw [← add_assoc, carry_digit _ hge, hlow]
      · dsimp only
        omega
    · have hpos := pos_of_ne_zero hcount
      have hvalue := value_carried sent rc.buf hpos
      have hstep := propagate_of_count_pos
        { rc with low := rc.low + a - 2 ^ 32, carry := true, range := b } h.room rfl hpos hbuf sent
      refine ⟨_, _, hstep, ⟨h.room, rfl, ?_, zero_lt_succ 255, ?_, ?_, ?_, ?_⟩, rfl⟩
      · dsimp only
        omega
      · exact digits_lt _ h.sent_lt hbuf (by decide)
      · dsimp only
        rw [replicate_zero, hvalue, carry_digit _ hge, hlow]
      · dsimp only
        rw [Radix.value_concat] at hvalue
        omega
      · dsimp only
        rw [← h.length_eq, length_append, length_cons, length_replicate]
        omega

def growth (range : ℕ) : ℕ :=
  if minRange ≤ range then 0 else if minRange ≤ range * 256 then 1 else 2

def Admissible (range : ℕ) : Prop := minRange ≤ range ∧ range < 2 ^ 32

theorem growth_le (range : ℕ) : growth range ≤ 2 := by
  unfold growth
  split_ifs <;> omega

theorem growth_admissible (hmin : 512 ≤ range) (hmax : range < 2 ^ 32) :
    Admissible (range * 256 ^ growth range) := by
  unfold growth Admissible
  split_ifs with h0 h1
  · omega
  · unfold minRange at *
    omega
  · unfold minRange at *
    omega

theorem lt_of_lt_growth {j : ℕ} (h : j < growth range) : range * 256 ^ j < minRange := by
  unfold growth at h
  split_ifs at h with h0 h1
  · omega
  · obtain rfl : j = 0 := by omega
    omega
  · have : j = 0 ∨ j = 1 := by omega
    rcases this with rfl | rfl
    · omega
    · omega

def coder : RangeCode.Coder Weights ℕ where
  base := 256
  next := Weights.next
  start := fun t range ch => below t.weight ch * (range / total t.weight)
  width := fun t range ch => t.weight ch * (range / total t.weight)
  growth := growth

theorem share_le {n : ℕ} (hn : 0 < n) (hlt : n < freqLimit) (h : Admissible range) : 512 ≤ range / n := by
  rw [le_div_iff_mul_le hn]
  have := h.1
  unfold minRange at this
  unfold freqLimit at hlt
  omega

theorem width_le {ch : ℕ} (h : Admissible range) (hch : ch < chrRange) : 512 ≤ coder.width t range ch := by
  have hshare := share_le t.total_pos t.total_lt h
  exact hshare.trans (Nat.le_mul_of_pos_left _ (t.pos ch hch))

theorem coder_divides : coder.Divides (· < chrRange) Admissible := by
  have hfits : ∀ (t : Weights) (range ch : ℕ), Admissible range → ch < chrRange →
      coder.start t range ch + coder.width t range ch ≤ range := by
    intro t range ch _ hch
    calc below t.weight ch * (range / total t.weight) + t.weight ch * (range / total t.weight)
        = below t.weight (ch + 1) * (range / total t.weight) := by rw [below_succ, add_mul]
      _ ≤ total t.weight * (range / total t.weight) := mul_le_mul_right _ (below_mono t.weight hch)
      _ ≤ range := mul_div_le _ _
  constructor
  · intro range h
    exact lt_of_lt_of_le (by decide) h.1
  · exact hfits
  · intro t range ch h hch
    have hle := hfits t range ch h hch
    have hlt := h.2
    exact growth_admissible (width_le h hch) (by omega)

structure Encoding (freq : Frequency) (rc : RangeCoder) (sent : List ℕ) (t : Weights)
    (range low shifts : ℕ) : Prop where
  table : Represents freq t.weight
  range_eq : rc.range = range
  admissible : Admissible range
  pending : Pending rc sent low shifts

theorem frequencyEncode_encoding (hbump : ∀ n < limit, bump n = n + 1) {freq : Frequency} {ch : ℕ}
    (h : Encoding freq rc sent t range low shifts) (hch : ch < chrRange)
    (hlimit : shifts + growth (coder.width t range ch) ≤ limit) : ∃ freq' rc' sent',
      frequencyEncode bump freq (emit rc sent) ch = .ok (freq', emit rc' sent') ∧
      Encoding freq' rc' sent' (t.next ch) (coder.scaled t range ch)
        ((low + coder.start t range ch) * 256 ^ growth (coder.width t range ch))
        (shifts + growth (coder.width t range ch)) := by
  have hadm := h.admissible
  have hlt := hadm.2
  have hfits := coder_divides.fits t range ch hadm hch
  have hwidth := width_le (t := t) hadm hch
  obtain ⟨rc1, sent1, hpropagate, hpending1, hrange1⟩ :=
    propagate_pending (a := coder.start t range ch) (b := coder.width t range ch) h.pending
      (by rw [h.range_eq]; exact hlt) (by omega) (by rw [h.range_eq]; exact hfits)
  have hscaled := coder_divides.scaled t range ch hadm hch
  obtain ⟨rc2, sent2, hpending2, hrange2, hshift⟩ := shiftLoop_pending hbump (growth (coder.width t range ch)) 4
      (lt_of_le_of_lt (growth_le _) (by decide)) hpending1 (by rw [hrange1]; exact hscaled.1)
      (by
        intro j hj
        rw [hrange1]
        exact lt_of_lt_growth hj) hlimit
  refine ⟨frequencyUpdate freq ch, rc2, sent2, ?_, ?_⟩
  · have hu : u32 (coder.width t range ch : ℕ) = coder.width t range ch := u32_natCast (by omega)
    unfold frequencyEncode
    dsimp only
    rw [emit_range, emit_low, frequencyCalc_eq h.table hch, frequencyCount_eq h.table hch,
      h.table.sum, h.range_eq]
    change (rcEncodeNormalize bump
      (emit (added rc (coder.start t range ch) (u32 (coder.width t range ch : ℕ))) sent) >>=
        fun rc => pure (frequencyUpdate freq ch, rc)) = _
    rw [hu, rcEncodeNormalize, hpropagate]
    change (shiftLoop bump 4 (emit rc1 sent1) >>= fun rc => pure (frequencyUpdate freq ch, rc)) = _
    rw [hshift]
    rfl
  · refine ⟨frequencyUpdate_represents h.table hch, ?_, hscaled, hpending2⟩
    rw [hrange2, hrange1]
    rfl

def symbols (s : List UInt8) : List ℕ := s.map UInt8.toNat ++ [chrEos]

theorem symbols_lt (s : List UInt8) : ∀ ch ∈ symbols s, ch < chrRange := by
  intro ch hch
  unfold symbols at hch
  rw [mem_append, mem_map, mem_singleton] at hch
  rcases hch with ⟨c, -, rfl⟩ | rfl
  · exact c.toNat_lt.trans (by decide)
  · decide

theorem shifts_le (t : Weights) (range : ℕ) (l : List ℕ) : coder.shifts t range l ≤ 2 * l.length := by
  induction l generalizing t range with
  | nil => exact le_rfl
  | cons ch l ih =>
    have hgrowth : coder.growth (coder.width t range ch) ≤ 2 := growth_le _
    have hrest := ih (coder.next t ch) (coder.scaled t range ch)
    rw [RangeCode.Coder.shifts_cons, length_cons]
    omega

theorem point_step (t : Weights) (range ch : ℕ) (l : List ℕ) (low : ℕ) :
    (low + coder.start t range ch) * 256 ^ growth (coder.width t range ch) *
        256 ^ coder.shifts (t.next ch) (coder.scaled t range ch) l +
      coder.point (t.next ch) (coder.scaled t range ch) l =
    low * 256 ^ coder.shifts t range (ch :: l) + coder.point t range (ch :: l) := by
  rw [RangeCode.Coder.point_cons, RangeCode.Coder.shifts_cons, pow_add]
  change _ = low * (256 ^ growth (coder.width t range ch) *
      256 ^ coder.shifts (t.next ch) (coder.scaled t range ch) l) +
    (coder.start t range ch * (256 ^ (growth (coder.width t range ch) +
      coder.shifts (t.next ch) (coder.scaled t range ch) l)) +
    coder.point (t.next ch) (coder.scaled t range ch) l)
  rw [pow_add]
  ring

theorem encodeLoop_encoding (hbump : ∀ n < limit, bump n = n + 1)
    (s : List UInt8) {freq : Frequency} (h : Encoding freq rc sent t range low shifts)
    (hlimit : shifts + coder.shifts t range (symbols s) ≤ limit) :
    ∃ r freq' rc' sent' t' range', encodeLoop bump s freq (emit rc sent) = .ok r ∧
      frequencyEncode bump r.1 r.2 chrEos = .ok (freq', emit rc' sent') ∧ Encoding freq' rc' sent' t' range'
        (low * 256 ^ coder.shifts t range (symbols s) + coder.point t range (symbols s))
        (shifts + coder.shifts t range (symbols s)) := by
  induction s generalizing freq rc sent t range low shifts with
  | nil =>
    obtain ⟨freq', rc', sent', heq, henc⟩ :=
      frequencyEncode_encoding hbump h (show chrEos < chrRange by decide) hlimit
    refine ⟨_, freq', rc', sent', t.next chrEos, coder.scaled t range chrEos, rfl, heq, ?_⟩
    have hstep := point_step t range chrEos [] low
    rw [RangeCode.Coder.point, RangeCode.Coder.shifts, pow_zero, mul_one, add_zero] at hstep
    rw [hstep] at henc
    exact henc
  | cons c s ih =>
    have hlimit' : shifts + (growth (coder.width t range c.toNat) +
        coder.shifts (t.next c.toNat) (coder.scaled t range c.toNat) (symbols s)) ≤ limit := hlimit
    have hinput : Encoding freq { rc with input := s } sent t range low shifts :=
      ⟨h.table, h.range_eq, h.admissible, h.pending.withInput s⟩
    obtain ⟨freq1, rc1, sent1, heq1, henc1⟩ := frequencyEncode_encoding hbump hinput
      (c.toNat_lt.trans (by decide : 2 ^ 8 < chrRange)) (by omega)
    obtain ⟨r, freq', rc', sent', t', range', heq, heos, henc⟩ := ih henc1 (by omega)
    refine ⟨r, freq', rc', sent', t', range', ?_, heos, ?_⟩
    · rw [encodeLoop]
      change (frequencyEncode bump freq (emit { rc with input := s } sent) c.toNat >>= fun r =>
        encodeLoop bump s r.1 r.2) = _
      rw [heq1]
      exact heq
    · rw [point_step, add_assoc shifts] at henc
      exact henc

theorem low_digits (high low : ℕ) : (((high * 256 + low >>> 24) * 256 + ((low >>> 16) &&& 0xff)) * 256 +
      ((low >>> 8) &&& 0xff)) * 256 + (low &&& 0xff) = high * 2 ^ 32 + low := by
  have hand (x : ℕ) : x &&& 0xff = x % 256 := and_two_pow_sub_one_eq_mod x 8
  rw [hand, hand, hand, shiftRight_eq_div_pow, shiftRight_eq_div_pow, shiftRight_eq_div_pow]
  omega

theorem concat_lt {l : List ℕ} {d : ℕ} (hl : ∀ x ∈ l, x < 256) (hd : d < 256) : ∀ x ∈ l ++ [d], x < 256 :=
  forall_mem_append.mpr ⟨hl, forall_mem_singleton.mpr hd⟩

theorem finish_pending (h : Pending rc sent low shifts) :
    ∃ all, finish (emit rc sent) = .ok (emit rc all) ∧ (∀ d ∈ all, d < 256) ∧
      value 256 all = low ∧ all.length = shifts + 5 := by
  have hand (x : ℕ) : x &&& 0xff < 256 := and_lt_two_pow x (by decide : 0xff < 2 ^ 8)
  refine ⟨(((sent ++ rc.buf :: replicate rc.count 255) ++ [rc.low >>> 24]) ++
    [(rc.low >>> 16) &&& 0xff] ++ [(rc.low >>> 8) &&& 0xff]) ++ [rc.low &&& 0xff], ?_, ?_, ?_, ?_⟩
  · unfold finish
    rw [emit_carry, h.carry, if_neg Bool.false_ne_true, emit_count, putBuf_emit h.room]
    iterate 3
      change (putc (emit rc _) _ >>= _) = _
      rw [putc_emit h.room]
    exact putc_emit h.room _ _
  · have hbyte : rc.low >>> 24 < 256 := by
      have := h.low_lt
      rw [shiftRight_eq_div_pow]
      omega
    iterate 3 apply concat_lt _ (hand _)
    apply concat_lt _ hbyte
    exact digits_lt _ h.sent_lt h.buf_lt (by decide)
  · rw [Radix.value_concat, Radix.value_concat, Radix.value_concat, Radix.value_concat, low_digits, h.low_eq]
  · simp only [length_append, length_cons, length_replicate, length_nil]
    rw [← h.length_eq]
    omega

theorem rcInitialize_pending (s : List UInt8) : Pending (rcInitialize .bputc1st s none) [] 0 0 where
  room := rfl
  carry := rfl
  low_lt := Nat.two_pow_pos 32
  buf_lt := zero_lt_succ 255
  sent_lt := by simp
  low_eq := by
    change value 256 [0] * 2 ^ 32 + 0 = 0
    rw [Radix.value_singleton, zero_mul]
  bound := by
    change 0 + maxRange ≤ (value 256 [] + 1) * 256 ^ (0 + 1) * 2 ^ 32
    rw [Radix.value_nil]
    decide
  length_eq := rfl

theorem rcEncode_eq (s : List UInt8) (hbump : ∀ n < 2 * (s.length + 1), bump n = n + 1) :
    ∃ rc all, rcEncode bump frequencyInitialize (rcInitialize .bputc1st s none) = .ok (emit rc all) ∧
      (∀ d ∈ all, d < 256) ∧ value 256 all = coder.point Weights.initial maxRange (symbols s) ∧
      all.length = coder.shifts Weights.initial maxRange (symbols s) + 5 := by
  have hstart : Encoding frequencyInitialize (rcInitialize .bputc1st s none) [] Weights.initial maxRange 0 0 :=
    ⟨frequencyInitialize_represents, rfl, by unfold Admissible; decide, rcInitialize_pending s⟩
  have hshifts := shifts_le Weights.initial maxRange (symbols s)
  have hlength : (symbols s).length = s.length + 1 := by
    rw [symbols, length_append, length_map]
    rfl
  obtain ⟨r, freq', rc', sent', t', range', heq, heos, henc⟩ := encodeLoop_encoding hbump s hstart (by omega)
  obtain ⟨all, hfinish, hlt, hvalue, hlen⟩ := finish_pending henc.pending
  refine ⟨rc', all, ?_, hlt, ?_, ?_⟩
  · change (encodeLoop bump s frequencyInitialize (emit (rcInitialize .bputc1st s none) []) >>= _) = _
    rw [heq]
    change (frequencyEncode bump r.1 r.2 chrEos >>= _) = _
    rw [heos]
    exact hfinish
  · rw [hvalue, zero_mul, zero_add]
  · rw [hlen, zero_add]

end Eotan.Rc
