import Mathlib.Data.List.Induction
import Mathlib.Data.Nat.Bitwise
import Mathlib.Tactic.Common

/-!
Conversion between UTF-8 and UTF-32 (`mbtowc.c`, `wctomb.c`, `mblen.c`, `mbstowcs.c`, `wcstombs.c`).
A pointer is the list of what lies from there on, and what is written is the list of it in order.
-/

namespace Eotan.Libc

open List
open Nat

def mbCurMax : ℕ := 4

def appendBody (ch : ℕ) (p : List UInt8) : ℕ → ℕ
  | 0 => ch
  | len + 1 =>
    let p := p.tail
    let b := (p.headD 0).toNat
    if b >>> 6 ≠ 0x2 then 0 else appendBody ((ch <<< 6) ||| (b &&& 0x3f)) p len

def mbtowcBytes (r : List UInt8) (n : ℕ) : ℤ × Option ℤ :=
  let r₀ := (r.headD 0).toNat
  if r₀ >>> 7 = 0 then (if r₀ ≠ 0 then 1 else 0, some r₀)
  else if r₀ >>> 5 = 0x6 then
    if n < 2 then (-1, none)
    else
      let ch := appendBody (r₀ &&& 0x1f) r 1
      if ch ≤ 0x7f then (-1, none) else (2, some ch)
  else if r₀ >>> 4 = 0xe then
    if n < 3 then (-1, none)
    else
      let ch := appendBody (r₀ &&& 0xf) r 2
      if ch ≤ 0x7ff then (-1, none) else (3, some ch)
  else if r₀ >>> 3 = 0x1e then
    if n < 4 then (-1, none)
    else
      let ch := appendBody (r₀ &&& 0x7) r 3
      if ch ≤ 0xffff ∨ ch > 0x10ffff then (-1, none) else (4, some ch)
  else (-1, none)

def mblenBytes (r : List UInt8) (n : ℕ) : ℤ := (mbtowcBytes r n).1

def mblen (s : Option (List UInt8)) (n : ℕ) : ℤ :=
  match s with
  | none => 0
  | some r => if n = 0 then 0 else mblenBytes r n

def mbtowc (pwc : Bool) (s : Option (List UInt8)) (n : ℕ) : ℤ × Option ℤ :=
  if pwc = false then (mblen s n, none)
  else
    match s with
    | none => (0, none)
    | some r => if n = 0 then (0, none) else mbtowcBytes r n

def wctombBytes (ch : ℤ) : ℤ × List UInt8 :=
  let c := ch.toNat
  if ch ≤ 0x7f then (1, [.ofNat (ch % 0x80).toNat])
  else if ch ≤ 0x7ff then (2, [.ofNat (0xc0 ||| (c >>> 6)), .ofNat (0x80 ||| (c &&& 0x3f))])
  else if ch ≤ 0xffff then
    (3, [.ofNat (0xe0 ||| (c >>> 12)), .ofNat (0x80 ||| ((c >>> 6) &&& 0x3f)),
      .ofNat (0x80 ||| (c &&& 0x3f))])
  else if ch ≤ 0x10ffff then
    (4, [.ofNat (0xf0 ||| (c >>> 18)), .ofNat (0x80 ||| ((c >>> 12) &&& 0x3f)),
      .ofNat (0x80 ||| ((c >>> 6) &&& 0x3f)), .ofNat (0x80 ||| (c &&& 0x3f))])
  else (-1, [])

def wctomb (s : Bool) (ch : ℤ) : ℤ × List UInt8 := if s = true then wctombBytes ch else (0, [])

def toSize (m : ℤ) : ℕ := (m % 2 ^ 32).toNat

def mbstowcsLoop : ℕ → List UInt8 → ℕ → ℕ × List ℤ
  | 0, _, len => (len, [])
  | k + 1, s, len =>
    match mbtowcBytes s mbCurMax with
    | (m, w) =>
      if m ≤ 0 then if m < 0 then (toSize (-1), w.toList) else (len, w.toList)
      else
        let r := mbstowcsLoop k (s.drop m.toNat) (len + 1)
        (r.1, w.toList ++ r.2)

def mblenLoop : ℕ → List UInt8 → ℕ → ℕ
  | 0, _, len => len
  | k + 1, s, len =>
    let m := mblenBytes s mbCurMax
    if m ≤ 0 then if m < 0 then toSize (-1) else len else mblenLoop k (s.drop m.toNat) (len + 1)

def mbstowcs (pwcs : Bool) (s : List UInt8) (n : ℕ) : ℕ × List ℤ :=
  if pwcs = true then mbstowcsLoop n s 0 else (mblenLoop n s 0, [])

def count (ch : ℤ) : ℤ :=
  if ch ≤ 0x7f then 1 else if ch ≤ 0x7ff then 2 else if ch ≤ 0xffff then 3
  else if ch ≤ 0x10ffff then 4 else -1

def wcstombsLoop (n : ℕ) : List ℤ → ℕ → ℕ × List UInt8
  | [], left => (n - left, [0])
  | ch :: pwcs, left =>
    if ch = 0 then (n - left, [0])
    else
      match wctombBytes ch with
      | (m, bytes) =>
        if m < 0 then (toSize m, [])
        else if left < mbCurMax ∧ left < m.toNat then (n, bytes.take left)
        else
          let r := wcstombsLoop n pwcs (left - m.toNat)
          (r.1, bytes ++ r.2)

def countLoop : List ℤ → ℕ → ℕ
  | [], len => len
  | ch :: pwcs, len =>
    if ch = 0 then len
    else
      let m := count ch
      if m < 0 then toSize m else countLoop pwcs (len + m.toNat)

def wcstombs (s : Bool) (pwcs : List ℤ) (n : ℕ) : ℕ × List UInt8 :=
  if s = true then wcstombsLoop n pwcs n else (countLoop pwcs 0, [])

section arithmetic

theorem or_eq_add (i a b : ℕ) (hb : b < 2 ^ i) : 2 ^ i * a ||| b = 2 ^ i * a + b :=
  (two_pow_add_eq_or_of_lt hb a).symm

theorem and_mask (x i : ℕ) : x &&& (2 ^ i - 1) = x % 2 ^ i := and_two_pow_sub_one_eq_mod x i

theorem append_eq (ch b : ℕ) : (ch <<< 6) ||| (b &&& 0x3f) = ch * 64 + b % 64 := by
  have hmask : b &&& 0x3f = b % 64 := and_mask b 6
  rw [hmask, shiftLeft_eq, mul_comm]
  have hadd := or_eq_add 6 ch (b % 64) (mod_lt b (by decide))
  omega

theorem tail_eq (c : ℕ) : 0x80 ||| (c &&& 0x3f) = 0x80 + c % 64 := by
  have hmask : c &&& 0x3f = c % 64 := and_mask c 6
  rw [hmask]
  exact or_eq_add 6 2 (c % 64) (mod_lt c (by decide))

theorem lead_two (x : ℕ) (hx : x < 32) : 0xc0 ||| x = 0xc0 + x := or_eq_add 5 6 x hx

theorem lead_three (x : ℕ) (hx : x < 16) : 0xe0 ||| x = 0xe0 + x := or_eq_add 4 14 x hx

theorem lead_four (x : ℕ) (hx : x < 8) : 0xf0 ||| x = 0xf0 + x := or_eq_add 3 30 x hx

end arithmetic

def Body (b : UInt8) : Prop := b.toNat / 64 = 2

def fold (ch : ℕ) (l : List UInt8) : ℕ := l.foldl (fun ch b => ch * 64 + b.toNat % 64) ch

theorem appendBody_step (ch : ℕ) (a : UInt8) (p : List UInt8) (len : ℕ) : appendBody ch (a :: p) (len + 1) =
      if (p.headD 0).toNat / 64 ≠ 2 then 0 else appendBody (ch * 64 + (p.headD 0).toNat % 64) p len := by
  rw [appendBody]
  simp only [tail_cons, append_eq, shiftRight_eq_div_pow]

theorem appendBody_bodies (ch : ℕ) (a : UInt8) (l t : List UInt8) (hl : ∀ b ∈ l, Body b) :
    appendBody ch (a :: (l ++ t)) l.length = fold ch l := by
  induction l generalizing ch a with
  | nil => rfl
  | cons b l ih =>
    obtain ⟨(hb : b.toNat / 64 = 2), hl⟩ := forall_mem_cons.mp hl
    rw [length_cons, appendBody_step, cons_append, headD_cons, if_neg (not_not.mpr hb), ih _ _ hl]
    rfl

theorem appendBody_cases (ch : ℕ) (a : UInt8) (p : List UInt8) (len : ℕ) :
    appendBody ch (a :: p) len = 0 ∨ ∃ l t, p = l ++ t ∧ l.length = len ∧ (∀ b ∈ l, Body b) ∧
      appendBody ch (a :: p) len = fold ch l := by
  induction len generalizing ch a p with
  | zero => exact .inr ⟨[], p, rfl, rfl, fun b hb => absurd hb not_mem_nil, rfl⟩
  | succ len ih =>
    rw [appendBody_step]
    by_cases hb : (p.headD 0).toNat / 64 = 2
    · rw [if_neg (not_not.mpr hb)]
      cases p with
      | nil => exact absurd hb (by decide)
      | cons b p =>
        rw [headD_cons] at hb ⊢
        rcases ih (ch * 64 + b.toNat % 64) b p with hzero | ⟨l, t, rfl, hlen, hl, heq⟩
        · exact .inl hzero
        · refine .inr ⟨b :: l, t, rfl, ?_, ?_, heq⟩
          · rw [length_cons, hlen]
          · exact forall_mem_cons.mpr ⟨hb, hl⟩
    · rw [if_pos hb]
      exact .inl rfl

def bodies : ℕ → ℕ → List UInt8
  | 0, _ => []
  | k + 1, c => bodies k (c / 64) ++ [.ofNat (0x80 + c % 64)]

theorem toNat_body (c : ℕ) : (UInt8.ofNat (0x80 + c % 64)).toNat = 0x80 + c % 64 := by
  rw [UInt8.toNat_ofNat', mod_eq_of_lt (by omega)]

theorem length_bodies (k c : ℕ) : (bodies k c).length = k := by
  induction k generalizing c with
  | zero => rfl
  | succ k ih => rw [bodies, length_append, ih, length_singleton]

theorem bodies_body (k c : ℕ) : ∀ b ∈ bodies k c, Body b := by
  induction k generalizing c with
  | zero => exact fun b hb => absurd hb not_mem_nil
  | succ k ih =>
    refine forall_mem_append.mpr ⟨ih _, forall_mem_singleton.mpr ?_⟩
    rw [Body, toNat_body]
    omega

theorem fold_bodies (k c : ℕ) : fold (c / 64 ^ k) (bodies k c) = c := by
  induction k generalizing c with
  | zero =>
    rw [pow_zero, Nat.div_one]
    rfl
  | succ k ih =>
    rw [bodies, fold, foldl_append, pow_succ, Nat.mul_comm, ← Nat.div_div_eq_div_mul]
    change fold (c / 64 / 64 ^ k) (bodies k (c / 64)) * 64 + (UInt8.ofNat (0x80 + c % 64)).toNat % 64 = c
    rw [ih, toNat_body]
    omega

theorem bodies_fold (x : ℕ) (l : List UInt8) (hl : ∀ b ∈ l, Body b) :
    bodies l.length (fold x l) = l ∧ fold x l / 64 ^ l.length = x := by
  induction l using reverseRecOn with
  | nil => exact ⟨rfl, Nat.div_one x⟩
  | append_singleton l b ih =>
    obtain ⟨hbodies, hdiv⟩ := ih fun b' hb' => hl b' (mem_append_left _ hb')
    have hb : b.toNat / 64 = 2 := hl b (mem_append_right _ (mem_singleton_self b))
    have hfold : fold x (l ++ [b]) = fold x l * 64 + b.toNat % 64 := by
      rw [fold, foldl_append]
      rfl
    have hhigh : fold x (l ++ [b]) / 64 = fold x l := by omega
    have hlow : UInt8.ofNat (0x80 + fold x (l ++ [b]) % 64) = b := by
      rw [← UInt8.toNat_inj, toNat_body]
      omega
    rw [length_append, length_singleton]
    refine ⟨?_, ?_⟩
    · rw [bodies, hhigh, hbodies, hlow]
    · rw [pow_succ, Nat.mul_comm, ← Nat.div_div_eq_div_mul, hhigh, hdiv]

def shape (lead k c : ℕ) : List UInt8 := .ofNat (lead + c / 64 ^ k) :: bodies k c

theorem length_shape (lead k c : ℕ) : (shape lead k c).length = k + 1 := by
  rw [shape, length_cons, length_bodies]

variable {c : ℕ}

theorem toNat_lead {lead k : ℕ} (h : lead + c / 64 ^ k < 256) :
    (UInt8.ofNat (lead + c / 64 ^ k)).toNat = lead + c / 64 ^ k := by
  rw [UInt8.toNat_ofNat', mod_eq_of_lt h]

def bytes (c : ℕ) : List UInt8 :=
  if c ≤ 0x7f then shape 0 0 c else if c ≤ 0x7ff then shape 0xc0 1 c
  else if c ≤ 0xffff then shape 0xe0 2 c else shape 0xf0 3 c

theorem wctombBytes_eq (c : ℕ) (hc : c ≤ 0x10ffff) : wctombBytes c = (((bytes c).length : ℤ), bytes c) := by
  have hone : c >>> 6 = c / 64 ^ 1 := shiftRight_eq_div_pow c 6
  have htwo : c >>> 12 = c / 64 ^ 2 := shiftRight_eq_div_pow c 12
  have hthree : c >>> 18 = c / 64 ^ 3 := shiftRight_eq_div_pow c 18
  have hmiddle : c / 64 ^ 2 = c / 64 / 64 := (Nat.div_div_eq_div_mul c 64 64).symm
  unfold wctombBytes bytes
  simp only [Int.toNat_natCast, tail_eq]
  by_cases h1 : c ≤ 0x7f
  · rw [if_pos (by omega), if_pos h1]
    have hlow : ((c : ℤ) % 0x80).toNat = 0 + c / 64 ^ 0 := by
      rw [pow_zero]
      omega
    rw [hlow]
    rfl
  rw [if_neg (by omega), if_neg h1]
  by_cases h2 : c ≤ 0x7ff
  · rw [if_pos (by omega), if_pos h2, hone, lead_two _ (by omega)]
    rfl
  rw [if_neg (by omega), if_neg h2]
  by_cases h3 : c ≤ 0xffff
  · rw [if_pos (by omega), if_pos h3, htwo, hone, pow_one, lead_three _ (by omega)]
    rfl
  rw [if_neg (by omega), if_neg h3, if_pos (by omega), hthree, htwo, hone, pow_one, hmiddle,
    lead_four _ (by omega)]
  rfl

theorem mbtowcBytes_cons (a : UInt8) (p : List UInt8) (n : ℕ) : mbtowcBytes (a :: p) n =
      if a.toNat < 0x80 then (if a.toNat ≠ 0 then 1 else 0, some (a.toNat : ℤ))
      else if a.toNat / 32 = 6 then
        let ch := appendBody (a.toNat % 32) (a :: p) 1
        if n < 2 ∨ ch ≤ 0x7f then (-1, none) else (2, some (ch : ℤ))
      else if a.toNat / 16 = 14 then
        let ch := appendBody (a.toNat % 16) (a :: p) 2
        if n < 3 ∨ ch ≤ 0x7ff then (-1, none) else (3, some (ch : ℤ))
      else if a.toNat / 8 = 30 then
        let ch := appendBody (a.toNat % 8) (a :: p) 3
        if n < 4 ∨ ch ≤ 0xffff ∨ ch > 0x10ffff then (-1, none) else (4, some (ch : ℤ))
      else (-1, none) := by
  have hmask5 : a.toNat &&& 0x1f = a.toNat % 32 := and_mask _ 5
  have hmask4 : a.toNat &&& 0xf = a.toNat % 16 := and_mask _ 4
  have hmask3 : a.toNat &&& 0x7 = a.toNat % 8 := and_mask _ 3
  have hascii : a.toNat / 2 ^ 7 = 0 ↔ a.toNat < 0x80 := by omega
  unfold mbtowcBytes
  simp only [headD_cons, shiftRight_eq_div_pow, hmask5, hmask4, hmask3, hascii, ite_or]
  rfl

theorem appendBody_shape (a : UInt8) (k c : ℕ) (t : List UInt8) :
    appendBody (c / 64 ^ k) (a :: (bodies k c ++ t)) k = c := by
  have happend := appendBody_bodies (c / 64 ^ k) a (bodies k c) t (bodies_body k c)
  rw [length_bodies, fold_bodies] at happend
  exact happend

theorem shape_fold {a : UInt8} {lead x : ℕ} {l : List UInt8} (ha : a.toNat = lead + x) (hl : ∀ b ∈ l, Body b) :
    shape lead l.length (fold x l) = a :: l := by
  obtain ⟨hbodies, hdiv⟩ := bodies_fold x l hl
  have hlead : UInt8.ofNat (lead + x) = a := by
    rw [← ha]
    exact UInt8.ofNat_toNat
  rw [shape, hbodies, hdiv, hlead]

theorem mbtowcBytes_bytes (hpos : 1 ≤ c) (hc : c ≤ 0x10ffff) (t : List UInt8) {n : ℕ}
    (hn : (bytes c).length ≤ n) : mbtowcBytes (bytes c ++ t) n = (((bytes c).length : ℤ), some (c : ℤ)) := by
  unfold bytes at hn ⊢
  by_cases h1 : c ≤ 0x7f
  · rw [if_pos h1] at hn ⊢
    have ha : (UInt8.ofNat (0 + c / 64 ^ 0)).toNat = c := by
      rw [toNat_lead (by omega)]
      omega
    rw [shape, cons_append, mbtowcBytes_cons, ha, if_pos (by omega), if_pos (by omega)]
    rfl
  rw [if_neg h1] at hn ⊢
  by_cases h2 : c ≤ 0x7ff
  · rw [if_pos h2] at hn ⊢
    have ha := toNat_lead (show 0xc0 + c / 64 ^ 1 < 256 by omega)
    have hx : (0xc0 + c / 64 ^ 1) % 32 = c / 64 ^ 1 := by omega
    rw [shape, cons_append, mbtowcBytes_cons, ha, if_neg (by omega), if_pos (by omega), hx, appendBody_shape]
    rw [length_shape] at hn
    exact if_neg (by omega)
  rw [if_neg h2] at hn ⊢
  by_cases h3 : c ≤ 0xffff
  · rw [if_pos h3] at hn ⊢
    have ha := toNat_lead (show 0xe0 + c / 64 ^ 2 < 256 by omega)
    have hx : (0xe0 + c / 64 ^ 2) % 16 = c / 64 ^ 2 := by omega
    rw [shape, cons_append, mbtowcBytes_cons, ha, if_neg (by omega), if_neg (by omega),
      if_pos (by omega), hx, appendBody_shape]
    rw [length_shape] at hn
    exact if_neg (by omega)
  rw [if_neg h3] at hn ⊢
  have ha := toNat_lead (show 0xf0 + c / 64 ^ 3 < 256 by omega)
  have hx : (0xf0 + c / 64 ^ 3) % 8 = c / 64 ^ 3 := by omega
  rw [shape, cons_append, mbtowcBytes_cons, ha, if_neg (by omega), if_neg (by omega),
    if_neg (by omega), if_pos (by omega), hx, appendBody_shape]
  rw [length_shape] at hn
  exact if_neg (by omega)

theorem mbtowcBytes_some {r : List UInt8} {n : ℕ} {m ch : ℤ} (h : mbtowcBytes r n = (m, some ch))
    (hm : 0 < m) : ∃ c : ℕ, ch = c ∧ 1 ≤ c ∧ c ≤ 0x10ffff ∧ m = (bytes c).length ∧ ∃ t, r = bytes c ++ t := by
  cases r with
  | nil =>
    cases h
    exact absurd hm (by decide)
  | cons a p =>
    rw [mbtowcBytes_cons] at h
    by_cases h1 : a.toNat < 0x80
    · rw [if_pos h1] at h
      split_ifs at h with hzero
      · cases h
        have hone : bytes a.toNat = [a] := by
          rw [bytes, if_pos (by omega)]
          exact shape_fold (l := []) (zero_add _).symm fun b hb => absurd hb not_mem_nil
        refine ⟨a.toNat, rfl, by omega, by omega, ?_, p, ?_⟩
        · rw [hone]
          rfl
        · rw [hone]
          rfl
      · cases h
        exact absurd hm (by decide)
    rw [if_neg h1] at h
    -- The bytes after the first are bodies, and the character they make is in the range of its length.
    have hmany (lead x k : ℕ) (ha : a.toNat = lead + x) (hne : appendBody x (a :: p) k ≠ 0)
        (hrange : appendBody x (a :: p) k / 64 ^ k = x → appendBody x (a :: p) k ≤ 0x10ffff ∧
          bytes (appendBody x (a :: p) k) = shape lead k (appendBody x (a :: p) k))
        (hm : m = (k + 1 : ℕ)) (hch : ch = appendBody x (a :: p) k) :
        ∃ c : ℕ, ch = c ∧ 1 ≤ c ∧ c ≤ 0x10ffff ∧ m = (bytes c).length ∧ ∃ t, a :: p = bytes c ++ t := by
      obtain ⟨l, t, rfl, rfl, hl, heq⟩ := (appendBody_cases x a p k).resolve_left hne
      rw [heq] at hne hrange hch
      obtain ⟨hle, hbytes⟩ := hrange (bodies_fold x l hl).2
      refine ⟨fold x l, hch, Nat.pos_of_ne_zero hne, hle, ?_, t, ?_⟩
      · rw [hm, hbytes, length_shape]
      · rw [hbytes, shape_fold ha hl]
        rfl
    by_cases h2 : a.toNat / 32 = 6
    · rw [if_pos h2] at h
      simp only at h
      split_ifs at h with hbad
      · cases h
      cases h
      refine hmany 0xc0 (a.toNat % 32) 1 (by omega) (by omega) ?_ rfl rfl
      intro hdiv
      refine ⟨by omega, ?_⟩
      rw [bytes, if_neg (by omega), if_pos (by omega)]
    rw [if_neg h2] at h
    by_cases h3 : a.toNat / 16 = 14
    · rw [if_pos h3] at h
      simp only at h
      split_ifs at h with hbad
      · cases h
      cases h
      refine hmany 0xe0 (a.toNat % 16) 2 (by omega) (by omega) ?_ rfl rfl
      intro hdiv
      refine ⟨by omega, ?_⟩
      rw [bytes, if_neg (by omega), if_neg (by omega), if_pos (by omega)]
    rw [if_neg h3] at h
    by_cases h4 : a.toNat / 8 = 30
    · rw [if_pos h4] at h
      simp only at h
      split_ifs at h with hbad
      · cases h
      cases h
      refine hmany 0xf0 (a.toNat % 8) 3 (by omega) (by omega) ?_ rfl rfl
      intro hdiv
      refine ⟨by omega, ?_⟩
      rw [bytes, if_neg (by omega), if_neg (by omega), if_neg (by omega)]
    · rw [if_neg h4] at h
      cases h

theorem length_bytes (c : ℕ) : 1 ≤ (bytes c).length ∧ (bytes c).length ≤ mbCurMax := by
  unfold bytes mbCurMax
  split_ifs <;> rw [length_shape] <;> omega

theorem count_eq (hc : c ≤ 0x10ffff) : count c = (bytes c).length := by
  unfold count bytes
  split_ifs <;> first | omega | (rw [length_shape]; rfl)

def encoded (w : List ℕ) : List UInt8 := w.flatMap bytes

theorem encoded_cons (c : ℕ) (w : List ℕ) : encoded (c :: w) = bytes c ++ encoded w := flatMap_cons

theorem wcstombsLoop_encoded (n : ℕ) (w : List ℕ) (hw : ∀ c ∈ w, 1 ≤ c ∧ c ≤ 0x10ffff) (left : ℕ)
    (hleft : (encoded w).length ≤ left) (hn : left ≤ n) :
    wcstombsLoop n (w.map (↑)) left = (n - left + (encoded w).length, encoded w ++ [0]) := by
  induction w generalizing left with
  | nil => rfl
  | cons c w ih =>
    obtain ⟨⟨hpos, hc⟩, hw⟩ := forall_mem_cons.mp hw
    rw [encoded_cons, length_append] at hleft ⊢
    rw [map_cons, wcstombsLoop, if_neg (by omega), wctombBytes_eq c hc]
    simp only [Int.toNat_natCast]
    rw [if_neg (by omega), if_neg (by omega), ih hw _ (by omega) (by omega), append_assoc]
    congr 1
    omega

theorem countLoop_encoded (w : List ℕ) (hw : ∀ c ∈ w, 1 ≤ c ∧ c ≤ 0x10ffff) (len : ℕ) :
    countLoop (w.map (↑)) len = len + (encoded w).length := by
  induction w generalizing len with
  | nil => rfl
  | cons c w ih =>
    obtain ⟨⟨hpos, hc⟩, hw⟩ := forall_mem_cons.mp hw
    rw [map_cons, countLoop, if_neg (by omega), count_eq hc]
    simp only [Int.toNat_natCast]
    rw [if_neg (by omega), ih hw, encoded_cons, length_append, add_assoc]

theorem mbstowcsLoop_encoded (w : List ℕ) (hw : ∀ c ∈ w, 1 ≤ c ∧ c ≤ 0x10ffff) (k len : ℕ)
    (hk : w.length < k) : mbstowcsLoop k (encoded w ++ [0]) len = (len + w.length, w.map (↑) ++ [0]) := by
  induction w generalizing k len with
  | nil =>
    obtain _ | k := k
    · omega
    rfl
  | cons c w ih =>
    obtain _ | k := k
    · omega
    obtain ⟨⟨hpos, hc⟩, hw⟩ := forall_mem_cons.mp hw
    obtain ⟨hone, hmax⟩ := length_bytes c
    rw [encoded_cons, append_assoc, mbstowcsLoop, mbtowcBytes_bytes hpos hc _ hmax]
    simp only [Int.toNat_natCast]
    rw [if_neg (by omega), drop_left, ih hw k (len + 1) (lt_of_succ_lt_succ hk), length_cons]
    congr 1
    omega

def Whole (s : List UInt8) : Prop :=
  ∃ chars : List (List UInt8), s = chars.flatten ∧
    ∀ c ∈ chars, c ≠ [] ∧ ∃ ch, mbtowc true (some c) c.length = ((c.length : ℤ), some ch)

theorem Whole.encoded {s : List UInt8} (h : Whole s) : ∃ w, s = encoded w ∧ ∀ c ∈ w, 1 ≤ c ∧ c ≤ 0x10ffff := by
  obtain ⟨chars, rfl, hchars⟩ := h
  induction chars with
  | nil => exact ⟨[], rfl, fun c hc => absurd hc not_mem_nil⟩
  | cons b chars ih =>
    obtain ⟨⟨hne, ch, hch⟩, hchars⟩ := forall_mem_cons.mp hchars
    obtain ⟨w, hw, hrange⟩ := ih hchars
    have hlength := length_pos_iff.mpr hne
    rw [mbtowc, if_neg Bool.noConfusion, if_neg (by omega)] at hch
    obtain ⟨c, rfl, hpos, hc, hm, t, hb⟩ := mbtowcBytes_some hch (by omega)
    have ht : t = [] := by
      have hsum := congrArg length hb
      rw [length_append] at hsum
      exact eq_nil_of_length_eq_zero (by omega)
    refine ⟨c :: w, ?_, forall_mem_cons.mpr ⟨⟨hpos, hc⟩, hrange⟩⟩
    rw [flatten_cons, hw, hb, ht, append_nil, encoded_cons]

theorem exists_points {w : List ℤ} (hw : ∀ c ∈ w, 1 ≤ c ∧ c ≤ 0x10ffff) :
    ∃ w' : List ℕ, w = w'.map (↑) ∧ ∀ c ∈ w', 1 ≤ c ∧ c ≤ 0x10ffff := by
  induction w with
  | nil => exact ⟨[], rfl, fun c hc => absurd hc not_mem_nil⟩
  | cons c w ih =>
    obtain ⟨hc, hw⟩ := forall_mem_cons.mp hw
    obtain ⟨w', hw', hrange⟩ := ih hw
    refine ⟨c.toNat :: w', ?_, forall_mem_cons.mpr ⟨by omega, hrange⟩⟩
    rw [map_cons, ← hw', Int.toNat_of_nonneg (by omega)]

theorem utf8_round_trip : (∀ w : List ℤ, (∀ c ∈ w, 1 ≤ c ∧ c ≤ 0x10ffff) →
      ∀ n, (wcstombs false w 0).1 < n → ∀ n', w.length < n' →
        ∃ s, wcstombs true w n = (s.length, s ++ [0]) ∧
          mbstowcs true (s ++ [0]) n' = (w.length, w ++ [0])) ∧
    (∀ r n m ch, mbtowc true (some r) n = (m, some ch) → 0 < m →
      wctomb true ch = (m, r.take m.toNat)) ∧
    ∀ s, Whole s → ∃ w : List ℤ, (∀ n, w.length < n → mbstowcs true (s ++ [0]) n = (w.length, w ++ [0])) ∧
      ∀ n, s.length < n → wcstombs true w n = (s.length, s ++ [0]) := by
  refine ⟨?_, ?_, ?_⟩
  · intro w hw n hn n' hn'
    obtain ⟨w, rfl, hrange⟩ := exists_points hw
    rw [wcstombs, if_neg Bool.false_ne_true, countLoop_encoded w hrange, zero_add] at hn
    rw [length_map] at hn' ⊢
    refine ⟨encoded w, ?_, ?_⟩
    · rw [wcstombs, if_pos rfl, wcstombsLoop_encoded n w hrange n hn.le le_rfl, Nat.sub_self, Nat.zero_add]
    · rw [mbstowcs, if_pos rfl, mbstowcsLoop_encoded w hrange n' 0 hn', zero_add]
  · intro r n m ch h hm
    rw [mbtowc, if_neg Bool.noConfusion] at h
    split_ifs at h with hzero
    · cases h
    · obtain ⟨c, rfl, hpos, hc, rfl, t, rfl⟩ := mbtowcBytes_some h hm
      rw [wctomb, if_pos rfl, wctombBytes_eq c hc, Int.toNat_natCast, take_left]
  · intro s hs
    obtain ⟨w, rfl, hw⟩ := hs.encoded
    refine ⟨w.map (↑), ?_, ?_⟩
    · intro n hn
      rw [length_map] at hn ⊢
      rw [mbstowcs, if_pos rfl, mbstowcsLoop_encoded w hw n 0 hn, zero_add]
    · intro n hn
      rw [wcstombs, if_pos rfl, wcstombsLoop_encoded n w hw n hn.le le_rfl, Nat.sub_self, Nat.zero_add]

theorem utf8_round_trip_mixed :
    ∃ s, wcstombs true [0x41, 0xe9, 0x20ac, 0x1f600] 11 = (s.length, s ++ [0]) ∧
      mbstowcs true (s ++ [0]) 5 = (4, [0x41, 0xe9, 0x20ac, 0x1f600, 0]) :=
  utf8_round_trip.1 [0x41, 0xe9, 0x20ac, 0x1f600] (by decide) 11 (by decide) 5 (by decide)

def text (pwcs : List ℤ) : List ℤ := pwcs.takeWhile (· ≠ 0)

def codes (w : List ℤ) : List UInt8 := w.flatMap fun ch => (wctombBytes ch).2

/-- Within `left` bytes, whole characters only and, after the last one, the terminator. A character
with no code ends the text with `(size_t) -1`. -/
def Stored (done left : ℕ) (w : List ℤ) (r : ℕ × List UInt8) : Prop :=
  r.2.length ≤ left ∧
    ((∃ k, r.2 = codes (w.take k) ∧
        (r.1 = done + r.2.length ∨ r.1 = toSize (-1) ∧ ∃ ch ∈ w, (wctombBytes ch).1 < 0)) ∨
      r.2 = codes w ++ [0] ∧ r.1 = done + (codes w).length)

/-- There is room for the terminator, or the room ends between two characters. -/
def Uncut : List ℤ → ℕ → Prop
  | [], left => 0 < left
  | ch :: w, left =>
    (wctombBytes ch).1 < 0 ∨ left = 0 ∨
      (wctombBytes ch).2.length ≤ left ∧ Uncut w (left - (wctombBytes ch).2.length)

theorem wctombBytes_cases (ch : ℤ) : wctombBytes ch = (-1, []) ∨
    ∃ bytes, wctombBytes ch = ((bytes.length : ℤ), bytes) ∧ 0 < bytes.length ∧ bytes.length ≤ mbCurMax := by
  by_cases hneg : ch < 0
  · refine .inr ⟨[.ofNat (ch % 0x80).toNat], ?_, Nat.zero_lt_one, (show 1 ≤ 4 by decide)⟩
    rw [wctombBytes, if_pos (by omega)]
    rfl
  lift ch to ℕ using Int.not_lt.mp hneg
  obtain hc | hc := le_or_gt ch 0x10ffff
  · exact .inr ⟨bytes ch, wctombBytes_eq ch hc, length_bytes ch⟩
  · left
    rw [wctombBytes, if_neg (by omega), if_neg (by omega), if_neg (by omega), if_neg (by omega)]

theorem stored_nil (done left : ℕ) : Stored done left [] (done, [0]) ↔ 0 < left :=
  ⟨fun h => h.1, fun h => ⟨h, .inr ⟨rfl, rfl⟩⟩⟩

section

variable {ch : ℤ} {bytes : List UInt8} (hch : wctombBytes ch = ((bytes.length : ℤ), bytes)) {done left : ℕ}

include hch

theorem codes_cons (w : List ℤ) : codes (ch :: w) = bytes ++ codes w := by
  rw [codes, flatMap_cons, hch]
  rfl

theorem stored_cons (hpos : 0 < bytes.length) (hleft : bytes.length ≤ left) (w : List ℤ) (m : ℕ)
    (l : List UInt8) : Stored done left (ch :: w) (m, bytes ++ l) ↔
      Stored (done + bytes.length) (left - bytes.length) w (m, l) := by
  have herror : (∃ c ∈ ch :: w, (wctombBytes c).1 < 0) ↔ ∃ c ∈ w, (wctombBytes c).1 < 0 := by
    simp [hch]
  unfold Stored
  simp only [herror, codes_cons hch, length_append, append_assoc, append_right_inj, ← add_assoc]
  refine and_congr (by omega) (or_congr_left ?_)
  constructor
  · rintro ⟨k, hk, hreturn⟩
    cases k with
    | zero =>
      have hlength := congrArg length hk
      rw [length_append] at hlength
      exact absurd hlength (ne_of_gt (Nat.add_pos_left hpos _))
    | succ k =>
      rw [take_succ_cons, codes_cons hch, append_right_inj] at hk
      exact ⟨k, hk, hreturn⟩
  · rintro ⟨k, hk, hreturn⟩
    refine ⟨k + 1, ?_, hreturn⟩
    rw [take_succ_cons, codes_cons hch, hk]

theorem not_stored_cut (hpos : left ≠ 0) (hleft : left < bytes.length) (w : List ℤ) (m : ℕ) :
    ¬Stored done left (ch :: w) (m, bytes.take left) := by
  have hcut : (bytes.take left).length = left := length_take_of_le hleft.le
  rintro ⟨-, ⟨k, hk, -⟩ | ⟨hk, -⟩⟩
  · have hlength := congrArg length hk
    rw [hcut] at hlength
    cases k with
    | zero => exact hpos hlength
    | succ k =>
      rw [take_succ_cons, codes_cons hch, length_append] at hlength
      omega
  · have hlength := congrArg length hk
    rw [hcut, codes_cons hch, length_append, length_append] at hlength
    omega

end

theorem wcstombsLoop_stored_iff (n : ℕ) (pwcs : List ℤ) (left : ℕ) (hn : left ≤ n) :
    Stored (n - left) left (text pwcs) (wcstombsLoop n pwcs left) ↔ Uncut (text pwcs) left := by
  induction pwcs generalizing left with
  | nil => exact stored_nil (n - left) left
  | cons ch pwcs ih =>
    rw [wcstombsLoop]
    by_cases hzero : ch = 0
    · rw [if_pos hzero, text, takeWhile_cons_of_neg (by simp [hzero])]
      exact stored_nil (n - left) left
    have htext : text (ch :: pwcs) = ch :: text pwcs := takeWhile_cons_of_pos (by simp [hzero])
    rw [if_neg hzero, htext, Uncut]
    obtain hch | ⟨bytes, hch, hpos, hmax⟩ := wctombBytes_cases ch
    · have hbad : (wctombBytes ch).1 < 0 := by rw [hch]; decide
      refine iff_of_true ?_ (.inl hbad)
      rw [hch]
      exact ⟨Nat.zero_le _, .inl ⟨0, rfl, .inr ⟨rfl, ch, mem_cons_self, hbad⟩⟩⟩
    simp only [hch, Int.toNat_natCast]
    rw [if_neg (by omega), or_iff_right (by omega)]
    by_cases hfits : bytes.length ≤ left
    · rw [if_neg (by omega), stored_cons hch hpos hfits, or_iff_right (by omega), and_iff_right hfits,
        show n - left + bytes.length = n - (left - bytes.length) by omega]
      exact ih (left - bytes.length) (by omega)
    rw [if_pos (by omega)]
    by_cases hroom : left = 0
    · subst hroom
      exact iff_of_true ⟨Nat.zero_le _, .inl ⟨0, rfl, .inl rfl⟩⟩ (.inl rfl)
    · refine iff_of_false (not_stored_cut hch hroom (by omega) _ _) ?_
      rintro (h | ⟨h, -⟩)
      · exact hroom h
      · exact hfits h

theorem wcstombs_stored_iff (pwcs : List ℤ) (n : ℕ) :
    Stored 0 n (text pwcs) (wcstombs true pwcs n) ↔ Uncut (text pwcs) n := by
  have h := wcstombsLoop_stored_iff n pwcs n le_rfl
  rwa [Nat.sub_self] at h

/-- An `A` in one byte gets its terminator in the next one, and of `é` only half is stored. -/
theorem wcstombs_not_stored :
    wcstombs true [0x41] 1 = (1, [0x41, 0]) ∧ ¬Stored 0 1 (text [0x41]) (wcstombs true [0x41] 1) ∧
      wcstombs true [0xe9] 1 = (1, [0xc3]) ∧ ¬Stored 0 1 (text [0xe9]) (wcstombs true [0xe9] 1) := by
  refine ⟨rfl, ?_, rfl, ?_⟩
  · rintro ⟨h, -⟩
    exact absurd h (by decide)
  · have hcode : wctombBytes 0xe9 = (2, [0xc3, 0xa9]) := rfl
    exact not_stored_cut hcode one_ne_zero (by decide) _ _

end Eotan.Libc
