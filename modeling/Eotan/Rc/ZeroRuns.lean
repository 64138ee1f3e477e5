import Mathlib.Data.List.Basic
import Mathlib.Data.Nat.Bitwise
import Mathlib.Tactic.Ring

/-!
The encoding of runs of zeros (`zle_encode.c`, `zle_decode.c`). A `size_t` has 32 bits.
-/

namespace Eotan.Zle

open List

def eof : ℤ := -1

def notCache : ℤ := -2

def errUnknown : ℤ := 1

structure Stream where
  cache : ℤ
  input : List UInt8

def fgetc (s : Stream) : ℤ × Stream :=
  match s.input with
  | [] => (eof, s)
  | b :: l => (b.toNat, { s with input := l })

def bgetc (s : Stream) : ℤ × Stream :=
  if s.cache = notCache then fgetc s else (s.cache, { s with cache := notCache })

def bungetc (c : ℤ) (s : Stream) : ℤ × Stream :=
  if s.cache = notCache then (0, { s with cache := c }) else (-1, s)

def char (c : ℤ) : UInt8 := UInt8.ofNat (c % 256).toNat

def after (out : List UInt8) (r : Option (ℤ × List UInt8)) : Option (ℤ × List UInt8) :=
  r.map fun r => (r.1, out ++ r.2)

def countZeros : ℕ → ℕ → Stream → Option (ℤ × ℕ × Stream)
  | 0, _, _ => none
  | n + 1, count, s =>
    match bgetc s with
    | (next, s) => if next = 0 then countZeros n ((count + 1) % 2 ^ 32) s else some (next, count, s)

def putDigits : ℕ → ℕ → Option (List UInt8)
  | 0, _ => none
  | n + 1, count =>
    if count ≠ 1 then (putDigits n (count >>> 1)).map (char (count &&& 1 : ℕ) :: ·) else some []

def encodeLoop : ℕ → Stream → Option (ℤ × List UInt8)
  | 0, _ => none
  | n + 1, s =>
    match bgetc s with
    | (c, s) =>
      if c = eof then some (0, [])
      else if c = 0 then
        match countZeros (s.input.length + 2) 1 s with
        | none => none
        | some (next, count, s) =>
          match bungetc next s with
          | (failed, s) =>
            if failed ≠ 0 then some (errUnknown, [])
            else
              match putDigits 33 ((count + 1) % 2 ^ 32) with
              | none => none
              | some digits => after digits (encodeLoop n s)
      else if c = 0xfe then after [char 0xff, char 0] (encodeLoop n s)
      else if c = 0xff then after [char 0xff, char 1] (encodeLoop n s)
      else after [char (c + 1)] (encodeLoop n s)

def encode (input : List UInt8) : Option (ℤ × List UInt8) :=
  encodeLoop (input.length + 1) ⟨notCache, input⟩

/-- `x << exp` in an `int`; there is none where C does not define it. -/
def shiftLeft (x exp : ℕ) : Option ℕ :=
  if exp < 32 ∧ x * 2 ^ exp < 2 ^ 31 then some (x <<< exp) else none

def getDigits : ℕ → ℕ → ℕ → Stream → Option (ℤ × ℕ × ℕ × Stream)
  | 0, _, _, _ => none
  | n + 1, count, exp, s =>
    match bgetc s with
    | (next, s) =>
      if next = eof ∨ next > 1 then some (next, count, exp, s)
      else
        match shiftLeft next.toNat exp with
        | none => none
        | some d => getDigits n (count ||| d) (exp + 1) s

def putZeros : ℕ → List UInt8
  | 0 => []
  | 1 => []
  | count + 2 => char 0 :: putZeros (count + 1)

def decodeLoop : ℕ → Stream → Option (ℤ × List UInt8)
  | 0, _ => none
  | n + 1, s =>
    match bgetc s with
    | (c, s) =>
      if c = eof then some (0, [])
      else if c = 0 ∨ c = 1 then
        match getDigits (s.input.length + 2) c.toNat 1 s with
        | none => none
        | some (next, count, exp, s) =>
          match bungetc next s with
          | (failed, s) =>
            if failed ≠ 0 then some (errUnknown, [])
            else
              match shiftLeft 1 exp with
              | none => none
              | some top => after (putZeros (count ||| top)) (decodeLoop n s)
      else if c = 0xff then
        match bgetc s with
        | (c, s) =>
          if c = eof then some (errUnknown, [])
          else after [char (if c ≠ 0 then 0xff else 0xfe)] (decodeLoop n s)
      else after [char (c - 1)] (decodeLoop n s)

def decode (input : List UInt8) : Option (ℤ × List UInt8) :=
  decodeLoop (input.length + 1) ⟨notCache, input⟩

def first : List UInt8 → ℤ
  | [] => eof
  | b :: _ => b.toNat

inductive Reads : Stream → List UInt8 → Prop where
  | fresh (l : List UInt8) : Reads ⟨notCache, l⟩ l
  | back (l : List UInt8) : Reads ⟨first l, l.tail⟩ l

theorem first_ne_notCache (l : List UInt8) : first l ≠ notCache := by
  cases l with
  | nil => decide
  | cons b l =>
    change (b.toNat : ℤ) ≠ -2
    omega

variable {l out : List UInt8} {s : Stream} {b : UInt8}

theorem bgetc_reads (h : Reads s l) : bgetc s = (first l, ⟨notCache, l.tail⟩) := by
  cases h with
  | fresh => cases l <;> rfl
  | back => exact if_neg (first_ne_notCache l)

theorem bungetc_fresh (c : ℤ) (l : List UInt8) : bungetc c ⟨notCache, l⟩ = (0, ⟨c, l⟩) := if_pos rfl

theorem toNat_char {c : ℤ} (hc : 0 ≤ c) (hlt : c < 256) : (char c).toNat = c.toNat := by
  rw [char, Int.emod_eq_of_lt hc hlt, UInt8.toNat_ofNat', Nat.mod_eq_of_lt (by omega)]

theorem char_toNat (b : UInt8) : char (b.toNat : ℤ) = b := by
  have hlt := b.toNat_lt
  unfold char
  rw [Int.emod_eq_of_lt (Int.natCast_nonneg _) (by omega), Int.toNat_natCast]
  exact UInt8.ofNat_toNat

def number : List UInt8 → ℕ
  | [] => 1
  | d :: digits => d.toNat + 2 * number digits

theorem two_pow_le_number (digits : List UInt8) : 2 ^ digits.length ≤ number digits := by
  induction digits with
  | nil => exact le_rfl
  | cons d digits ih =>
    rw [length_cons, pow_succ, number]
    omega

theorem putDigits_number (n count : ℕ) (hpos : 0 < count) (hcount : count < 2 ^ n) :
    ∃ digits, putDigits n count = some digits ∧ number digits = count ∧ ∀ d ∈ digits, d.toNat ≤ 1 := by
  induction n generalizing count with
  | zero => omega
  | succ n ih =>
    unfold putDigits
    by_cases hone : count = 1
    · rw [if_neg (not_not.mpr hone)]
      exact ⟨[], rfl, hone.symm, fun d hd => absurd hd not_mem_nil⟩
    rw [if_pos hone]
    rw [pow_succ] at hcount
    have hhalf : count >>> 1 = count / 2 := Nat.shiftRight_one count
    have hlow : count &&& 1 = count % 2 := Nat.and_one_is_mod count
    obtain ⟨digits, hput, hnumber, hdigits⟩ := ih (count >>> 1) (by omega) (by omega)
    have hchar : (char (count &&& 1 : ℕ)).toNat = count % 2 := by
      rw [hlow, toNat_char (Int.natCast_nonneg _) (by omega), Int.toNat_natCast]
    refine ⟨char (count &&& 1 : ℕ) :: digits, ?_, ?_, ?_⟩
    · rw [hput]
      rfl
    · rw [number, hchar, hnumber, hhalf]
      omega
    · refine forall_mem_cons.mpr ⟨?_, hdigits⟩
      rw [hchar]
      omega

def Ends (l : List UInt8) : Prop := first l ≠ 0

theorem exists_run (l : List UInt8) : ∃ k t, l = replicate k 0 ++ t ∧ Ends t := by
  induction l with
  | nil => exact ⟨0, [], rfl, by unfold Ends first eof; decide⟩
  | cons b l ih =>
    by_cases hb : b = 0
    · obtain ⟨k, t, hl, ht⟩ := ih
      refine ⟨k + 1, t, ?_, ht⟩
      rw [hb, hl, replicate_succ, cons_append]
    refine ⟨0, b :: l, rfl, ?_⟩
    intro hzero
    apply hb
    rw [← UInt8.toNat_inj]
    exact Int.ofNat_eq_zero.mp hzero

theorem countZeros_run (k n count : ℕ) (t : List UInt8) (ht : Ends t)
    (hs : Reads s (replicate k 0 ++ t)) (hn : k < n) (hcount : count + k < 2 ^ 32) :
    countZeros n count s = some (first t, count + k, ⟨notCache, t.tail⟩) := by
  induction k generalizing n count s with
  | zero =>
    obtain _ | n := n
    · omega
    rw [countZeros, bgetc_reads hs]
    exact if_neg ht
  | succ k ih =>
    obtain _ | n := n
    · omega
    rw [countZeros, bgetc_reads hs]
    have hzero : first (replicate (k + 1) 0 ++ t) = 0 := rfl
    have htail : (replicate (k + 1) 0 ++ t).tail = replicate k 0 ++ t := rfl
    simp only [hzero, if_true, htail]
    rw [ih n ((count + 1) % 2 ^ 32) (.fresh _) (by omega) (by omega), Nat.mod_eq_of_lt (by omega)]
    congr 3
    omega

theorem shiftLeft_eq {x exp : ℕ} (hexp : exp < 31) (hx : x ≤ 1) : shiftLeft x exp = some (x * 2 ^ exp) := by
  have hle : x * 2 ^ exp ≤ 2 ^ exp := by
    calc x * 2 ^ exp ≤ 1 * 2 ^ exp := Nat.mul_le_mul_right _ hx
      _ = 2 ^ exp := Nat.one_mul _
  have hlt : 2 ^ exp < 2 ^ 31 := Nat.pow_lt_pow_right (by decide) hexp
  rw [shiftLeft, if_pos ⟨by omega, by omega⟩, Nat.shiftLeft_eq]

theorem or_shift {count x exp : ℕ} (hcount : count < 2 ^ exp) : count ||| x * 2 ^ exp = count + x * 2 ^ exp := by
  rw [Nat.lor_comm, Nat.mul_comm, ← Nat.two_pow_add_eq_or_of_lt hcount, Nat.add_comm]

def Stops (l : List UInt8) : Prop := first l = eof ∨ first l > 1

theorem getDigits_number (digits t : List UInt8) (ht : Stops t) (hdigits : ∀ d ∈ digits, d.toNat ≤ 1)
    (n count exp : ℕ) (hs : Reads s (digits ++ t)) (hn : digits.length < n)
    (hexp : exp + digits.length < 32) (hcount : count < 2 ^ exp) :
    ∃ low, getDigits n count exp s = some (first t, low, exp + digits.length, ⟨notCache, t.tail⟩) ∧
      low < 2 ^ (exp + digits.length) ∧ low + 2 ^ (exp + digits.length) = count + 2 ^ exp * number digits := by
  induction digits generalizing n count exp s with
  | nil =>
    obtain _ | n := n
    · omega
    refine ⟨count, ?_, hcount, ?_⟩
    · rw [getDigits, bgetc_reads hs]
      exact if_pos ht
    · rw [number, Nat.mul_one]
      rfl
  | cons d digits ih =>
    obtain _ | n := n
    · omega
    rw [length_cons] at hn hexp
    obtain ⟨hd, hdigits⟩ := forall_mem_cons.mp hdigits
    have hdigit : first (d :: digits ++ t) = (d.toNat : ℤ) := rfl
    have hgoes : ¬((d.toNat : ℤ) = eof ∨ (d.toNat : ℤ) > 1) := by
      unfold eof
      omega
    rw [getDigits, bgetc_reads hs, hdigit]
    simp only [if_neg hgoes, Int.toNat_natCast]
    rw [shiftLeft_eq (by omega) hd]
    simp only [or_shift hcount]
    have hle : d.toNat * 2 ^ exp ≤ 1 * 2 ^ exp := Nat.mul_le_mul_right _ hd
    obtain ⟨low, hget, hlow, hsum⟩ := ih hdigits n
      (count + d.toNat * 2 ^ exp) (exp + 1) (.fresh _) (by omega) (by omega) (by rw [pow_succ]; omega)
    have hlength : exp + 1 + digits.length = exp + (d :: digits).length := by
      rw [length_cons]
      omega
    rw [hlength] at hget hlow hsum
    refine ⟨low, hget, hlow, ?_⟩
    rw [hsum, number, pow_succ]
    ring

theorem putZeros_eq (count : ℕ) : putZeros count = replicate (count - 1) 0 := by
  induction count using putZeros.induct with
  | case1 => rfl
  | case2 => rfl
  | case3 count ih =>
    rw [putZeros, ih]
    rfl

structure Codes (l out : List UInt8) : Prop where
  encodes : ∀ n s, Reads s l → l.length < n → encodeLoop n s = some (0, out)
  decodes : ∀ n s, Reads s out → out.length < n → decodeLoop n s = some (0, l)
  stops : Ends l → Stops out

theorem codes_nil : Codes [] [] := by
  refine ⟨?_, ?_, fun _ => .inl rfl⟩
  · intro n s hs hn
    obtain _ | n := n
    · omega
    rw [encodeLoop, bgetc_reads hs]
    rfl
  · intro n s hs hn
    obtain _ | n := n
    · omega
    rw [decodeLoop, bgetc_reads hs]
    rfl

theorem codes_run {k : ℕ} {t : List UInt8} (hk : k + 1 < 2 ^ 31 - 1) (ht : Ends t) (h : Codes t out) :
    ∃ digits, Codes (replicate (k + 1) 0 ++ t) (digits ++ out) := by
  obtain ⟨digits, hput, hnumber, hdigits⟩ := putDigits_number 33 (k + 2) (by omega) (by omega)
  have hpow := two_pow_le_number digits
  rw [hnumber] at hpow
  have hshort : digits.length < 31 := by
    rw [← Nat.pow_lt_pow_iff_right (a := 2) (by decide)]
    omega
  have hlist : ∃ d ds, digits = d :: ds := by
    cases digits with
    | nil =>
      rw [number] at hnumber
      omega
    | cons d ds => exact ⟨d, ds, rfl⟩
  refine ⟨digits, ?_, ?_, ?_⟩
  · intro n s hs hn
    obtain _ | n := n
    · omega
    have hfirst : first (replicate (k + 1) 0 ++ t) = 0 := rfl
    have htail : (replicate (k + 1) 0 ++ t).tail = replicate k 0 ++ t := rfl
    have hne : (0 : ℤ) ≠ eof := by decide
    rw [length_append, length_replicate] at hn
    rw [encodeLoop, bgetc_reads hs, hfirst, htail]
    simp only [if_neg hne, if_true]
    rw [countZeros_run k _ 1 t ht (.fresh _) (by rw [length_append, length_replicate]; omega) (by omega)]
    simp only [bungetc_fresh, ne_eq, not_true_eq_false, if_false]
    have hcount : (1 + k + 1) % 2 ^ 32 = k + 2 := by omega
    rw [hcount, hput, h.encodes n _ (.back t) (by omega)]
    rfl
  · intro n s hs hn
    obtain _ | n := n
    · omega
    obtain ⟨d, ds, rfl⟩ := hlist
    obtain ⟨hd, hdigits⟩ := forall_mem_cons.mp hdigits
    have hfirst : first (d :: ds ++ out) = (d.toNat : ℤ) := rfl
    have htail : (d :: ds ++ out).tail = ds ++ out := rfl
    have hne : (d.toNat : ℤ) ≠ eof := by
      unfold eof
      omega
    have hdigit : (d.toNat : ℤ) = 0 ∨ (d.toNat : ℤ) = 1 := by omega
    rw [length_append, length_cons] at hn
    rw [length_cons] at hshort
    rw [decodeLoop, bgetc_reads hs, hfirst, htail]
    simp only [if_neg hne, if_pos hdigit, Int.toNat_natCast]
    obtain ⟨low, hget, hlow, hsum⟩ := getDigits_number ds out (h.stops ht) hdigits
      ((ds ++ out).length + 2) d.toNat 1 (.fresh _) (by rw [length_append]; omega) (by omega) (by omega)
    rw [hget]
    simp only [bungetc_fresh, ne_eq, not_true_eq_false, if_false]
    rw [shiftLeft_eq (by omega) le_rfl]
    have hcount : low ||| 1 * 2 ^ (1 + ds.length) = k + 2 := by
      rw [or_shift hlow, Nat.one_mul, hsum, pow_one, ← hnumber, number]
    simp only [hcount]
    rw [h.decodes n _ (.back out) (by omega), putZeros_eq]
    rfl
  · intro hends
    exact absurd rfl hends

def code (b : UInt8) : List UInt8 :=
  if b = 0xfe then [0xff, 0] else if b = 0xff then [0xff, 1] else [b + 1]

theorem code_plain (hb : b ≠ 0) (hfe : b ≠ 0xfe) (hff : b ≠ 0xff) :
    code b = [b + 1] ∧ (b + 1).toNat = b.toNat + 1 ∧ 1 ≤ b.toNat ∧ b.toNat < 0xfe := by
  have hlt := b.toNat_lt
  have hne (a : UInt8) (ha : b ≠ a) : b.toNat ≠ a.toNat := fun heq => ha (UInt8.toNat_inj.mp heq)
  have hzero : b.toNat ≠ 0 := hne 0 hb
  have hfe' : b.toNat ≠ 0xfe := hne 0xfe hfe
  have hff' : b.toNat ≠ 0xff := hne 0xff hff
  refine ⟨?_, ?_, by omega, by omega⟩
  · rw [code, if_neg hfe, if_neg hff]
  · rw [UInt8.toNat_add]
    change (b.toNat + 1) % 2 ^ 8 = b.toNat + 1
    omega

theorem encode_byte (hb : b ≠ 0) (hs : Reads s (b :: l)) (n : ℕ) :
    encodeLoop (n + 1) s = after (code b) (encodeLoop n ⟨notCache, l⟩) := by
  have hfirst : first (b :: l) = (b.toNat : ℤ) := rfl
  rw [encodeLoop, bgetc_reads hs, hfirst]
  by_cases hfe : b = 0xfe
  · subst hfe
    rfl
  by_cases hff : b = 0xff
  · subst hff
    rfl
  obtain ⟨hcode, hnat, hpos, hlt⟩ := code_plain hb hfe hff
  have heof : (b.toNat : ℤ) ≠ eof := by
    unfold eof
    omega
  have hchar : char ((b.toNat : ℤ) + 1) = b + 1 := by
    rw [← UInt8.toNat_inj, toNat_char (by omega) (by omega), hnat]
    omega
  simp only [if_neg heof, tail_cons, hchar, hcode]
  rw [if_neg (by omega), if_neg (by omega), if_neg (by omega)]

theorem decode_code (hb : b ≠ 0) (hs : Reads s (code b ++ out))
    (n : ℕ) : decodeLoop (n + 1) s = after [b] (decodeLoop n ⟨notCache, out⟩) := by
  rw [decodeLoop, bgetc_reads hs]
  by_cases hfe : b = 0xfe
  · subst hfe
    rfl
  by_cases hff : b = 0xff
  · subst hff
    rfl
  obtain ⟨hcode, hnat, hpos, hlt⟩ := code_plain hb hfe hff
  have hfirst : first (code b ++ out) = ((b + 1).toNat : ℤ) := by
    rw [hcode]
    rfl
  have heof : ((b.toNat + 1 : ℕ) : ℤ) ≠ eof := by
    unfold eof
    omega
  have hchar : char (((b.toNat + 1 : ℕ) : ℤ) - 1) = b := by
    rw [Int.natCast_succ, Int.add_sub_cancel]
    exact char_toNat b
  rw [hfirst, hcode, hnat]
  simp only [if_neg heof, singleton_append, tail_cons, hchar]
  rw [if_neg (by omega), if_neg (by omega)]

theorem code_stops (hb : b ≠ 0) (out : List UInt8) : Stops (code b ++ out) := by
  right
  by_cases hfe : b = 0xfe
  · subst hfe
    exact (by decide : ((0xff : ℕ) : ℤ) > 1)
  by_cases hff : b = 0xff
  · subst hff
    exact (by decide : ((0xff : ℕ) : ℤ) > 1)
  obtain ⟨hcode, hnat, hpos, hlt⟩ := code_plain hb hfe hff
  rw [hcode]
  change ((b + 1).toNat : ℤ) > 1
  omega

theorem codes_byte (hb : b ≠ 0) (h : Codes l out) : Codes (b :: l) (code b ++ out) := by
  refine ⟨?_, ?_, fun _ => code_stops hb out⟩
  · intro n s hs hn
    obtain _ | n := n
    · omega
    rw [encode_byte hb hs, h.encodes n _ (.fresh l) (Nat.lt_of_succ_lt_succ hn)]
    rfl
  · intro n s hs hn
    obtain _ | n := n
    · omega
    have hcode : 1 ≤ (code b).length := by
      unfold code
      split_ifs <;> exact Nat.succ_pos _
    rw [length_append] at hn
    rw [decode_code hb hs, h.decodes n _ (.fresh out) (by omega)]
    rfl

def ShortRuns (l : List UInt8) : Prop := ∀ a k b, l = a ++ List.replicate k 0 ++ b → k < 2 ^ 31 - 1

theorem ShortRuns.append_right {a : List UInt8} (h : ShortRuns (a ++ l)) : ShortRuns l := by
  rintro b k c rfl
  apply h (a ++ b) k c
  simp only [append_assoc]

theorem exists_codes (l : List UInt8) (h : ShortRuns l) : ∃ out, Codes l out := by
  induction hn : l.length using Nat.strong_induction_on generalizing l with
  | _ n ih =>
    subst hn
    cases l with
    | nil => exact ⟨[], codes_nil⟩
    | cons b l =>
      by_cases hb : b = 0
      · obtain ⟨k, t, rfl, ht⟩ := exists_run l
        have hl : b :: (replicate k 0 ++ t) = replicate (k + 1) 0 ++ t := by
          rw [hb]
          rfl
        rw [hl] at h ih ⊢
        obtain ⟨out, hout⟩ := ih t.length (by simp) t h.append_right rfl
        have hk : k + 1 < 2 ^ 31 - 1 := h [] (k + 1) t rfl
        obtain ⟨digits, hdigits⟩ := codes_run hk ht hout
        exact ⟨digits ++ out, hdigits⟩
      · have hl : ShortRuns ([b] ++ l) := h
        obtain ⟨out, hout⟩ := ih l.length (Nat.lt_succ_self _) l hl.append_right rfl
        exact ⟨code b ++ out, codes_byte hb hout⟩

theorem zle_round_trip (input : List UInt8)
    (hruns : ∀ a k b, input = a ++ List.replicate k 0 ++ b → k < 2 ^ 31 - 1) :
    ∃ out, encode input = some (0, out) ∧ decode out = some (0, input) := by
  obtain ⟨out, hout⟩ := exists_codes input hruns
  exact ⟨out, hout.encodes _ _ (.fresh input) (Nat.lt_succ_self _),
    hout.decodes _ _ (.fresh out) (Nat.lt_succ_self _)⟩

theorem zle_round_trip_runs : ∃ out, encode [0, 0, 0, 7, 254, 255, 0] = some (0, out) ∧
    decode out = some (0, [0, 0, 0, 7, 254, 255, 0]) := by
  apply zle_round_trip
  intro a k b h
  have hlength := congrArg length h
  simp only [length_append, length_replicate, length_cons, length_nil] at hlength
  omega

end Eotan.Zle
