import Eotan.Rc.Frequency
import Mathlib.Data.UInt

/-!
The range coder (`drc_common.c`, `drc_encode.c`, `drc_decode.c`) with the byte streams of
`encode.c` and `decode.c`.
-/

namespace Eotan.Rc

def maxRange : ℕ := 0xffffffff
def minRange : ℕ := 0x01000000
def shift : ℕ := 32 - 8

/-- The functions `rc->put` points to: `bputc_1st` drops its byte and installs `bputc`. -/
inductive Put
  | bputc1st
  | bputc
  deriving DecidableEq, Repr

structure RangeCoder where
  input : List UInt8
  put : Put
  output : List UInt8
  room : Option ℕ
  range : ℕ
  low : ℕ
  carry : Bool
  buf : ℕ
  count : ℕ

/-- Why an operation ends early: `ERR_FILE`, or a loop that has not ended in the rounds it was
given. -/
inductive Stop
  | file (rc : RangeCoder)
  | rounds

def rcInitialize (put : Put) (input : List UInt8) (room : Option ℕ) : RangeCoder where
  input := input
  put := put
  output := []
  room := room
  range := maxRange
  low := 0
  carry := false
  buf := 0
  count := 0

def putc (rc : RangeCoder) (ch : ℕ) : Except Stop RangeCoder :=
  match rc.put with
  | .bputc1st => .ok { rc with put := .bputc }
  | .bputc =>
    match rc.room with
    | none => .ok { rc with output := rc.output ++ [UInt8.ofNat ch] }
    | some 0 => .error (.file rc)
    | some (room + 1) =>
      .ok { rc with output := rc.output ++ [UInt8.ofNat ch], room := some room }

def putRepeat (ch : ℕ) : ℕ → RangeCoder → Except Stop RangeCoder
  | 0, rc => .ok rc
  | n + 1, rc => do
    let rc ← putc rc ch
    putRepeat ch n rc

def putBuf (rc : RangeCoder) (ch n : ℕ) : Except Stop RangeCoder := do
  let rc ← putc rc rc.buf
  putRepeat ch n rc

section

/- `rc->count++`; the counter of pending bytes is an `unsigned int`, so the source has
`fun n => (n + 1) % 2 ^ 32`. -/
variable (bump : ℕ → ℕ)

def propagate (rc : RangeCoder) : Except Stop RangeCoder :=
  if rc.carry = true then
    if 0 < rc.count then do
      let rc ← putBuf { rc with carry := false, buf := u32 (rc.buf + 1) } 0 (rc.count - 1)
      return { rc with buf := 0, count := 0 }
    else .ok { rc with carry := false, buf := u32 (rc.buf + 1) }
  else .ok rc

/-- Three rounds bring any range but 0 to `MIN_RANGE`; with 0 the loop does not end. -/
def shiftLoop : ℕ → RangeCoder → Except Stop RangeCoder
  | 0, _ => .error .rounds
  | rounds + 1, rc =>
    if rc.range < minRange then
      if rc.low < 0xff <<< shift then do
        let rc ← putBuf rc 0xff rc.count
        shiftLoop rounds
          { rc with
            buf := rc.low >>> shift
            count := 0
            low := u32 (rc.low <<< 8 : ℕ)
            range := u32 (rc.range <<< 8 : ℕ) }
      else
        shiftLoop rounds
          { rc with
            count := bump rc.count
            low := u32 (rc.low <<< 8 : ℕ)
            range := u32 (rc.range <<< 8 : ℕ) }
    else .ok rc

def rcEncodeNormalize (rc : RangeCoder) : Except Stop RangeCoder := do
  let rc ← propagate rc
  shiftLoop bump 4 rc

def frequencyEncode (freq : Frequency) (rc : RangeCoder) (ch : ℕ) :
    Except Stop (Frequency × RangeCoder) := do
  let tmp := rc.range / freq.sum
  let low := u32 (rc.low + frequencyCalc freq ch * tmp : ℕ)
  let rc ← rcEncodeNormalize bump
    { rc with
      low := low
      carry := decide (low < rc.low)
      range := u32 (frequencyCount freq ch * tmp : ℕ) }
  return (frequencyUpdate freq ch, rc)

def finish (rc : RangeCoder) : Except Stop RangeCoder := do
  let rc ←
    if rc.carry = true then putBuf { rc with carry := false, buf := u32 (rc.buf + 1) } 0 rc.count
    else putBuf rc 0xff rc.count
  let rc ← putc rc (rc.low >>> 24)
  let rc ← putc rc ((rc.low >>> 16) &&& 0xff)
  let rc ← putc rc ((rc.low >>> 8) &&& 0xff)
  putc rc (rc.low &&& 0xff)

def encodeLoop : List UInt8 → Frequency → RangeCoder → Except Stop (Frequency × RangeCoder)
  | [], freq, rc => .ok (freq, rc)
  | ch :: input, freq, rc => do
    let r ← frequencyEncode bump freq { rc with input := input } ch.toNat
    encodeLoop input r.1 r.2

def rcEncode (freq : Frequency) (rc : RangeCoder) : Except Stop RangeCoder := do
  let r ← encodeLoop bump rc.input freq rc
  let r ← frequencyEncode bump r.1 r.2 chrEos
  finish r.2

end

def getc (rc : RangeCoder) : Except Stop (ℕ × RangeCoder) :=
  match rc.input with
  | [] => .error (.file rc)
  | c :: input => .ok (c.toNat, { rc with input := input })

def fillLoop : List UInt8 → RangeCoder → Except Stop RangeCoder
  | [], rc => if rc.range < minRange then .error (.file rc) else .ok rc
  | c :: input, rc =>
    if rc.range < minRange then
      fillLoop input
        { rc with
          input := input
          low := u32 (rc.low <<< 8 + c.toNat : ℕ)
          range := u32 (rc.range <<< 8 : ℕ) }
    else .ok rc

def rcDecodeNormalize (rc : RangeCoder) : Except Stop RangeCoder := fillLoop rc.input rc

def frequencyDecode (freq : Frequency) (rc : RangeCoder) :
    Except Stop (ℕ × Frequency × RangeCoder) := do
  let tmp := rc.range / freq.sum
  let found := search freq (rc.low / tmp)
  let rc ← rcDecodeNormalize
    { rc with
      low := u32 (rc.low - (found.1 * tmp : ℕ))
      range := u32 (frequencyCount freq found.2 * tmp : ℕ) }
  return (found.2, frequencyUpdate freq found.2, rc)

def decodeLoop : ℕ → Frequency → RangeCoder → Except Stop (Frequency × RangeCoder)
  | 0, _, _ => .error .rounds
  | rounds + 1, freq, rc => do
    let r ← frequencyDecode freq rc
    if r.1 = chrEos then return r.2
    else do
      let rc ← putc r.2.2 r.1
      decodeLoop rounds r.2.1 rc

def rcDecode (rounds : ℕ) (freq : Frequency) (rc : RangeCoder) :
    Except Stop (Frequency × RangeCoder) := do
  let r₀ ← getc rc
  let r₁ ← getc { r₀.2 with low := r₀.1 <<< 24 }
  let r₂ ← getc { r₁.2 with low := r₁.2.low ||| r₁.1 <<< 16 }
  let r₃ ← getc { r₂.2 with low := r₂.2.low ||| r₂.1 <<< 8 }
  decodeLoop rounds freq { r₃.2 with low := r₃.2.low ||| r₃.1 }

end Eotan.Rc
