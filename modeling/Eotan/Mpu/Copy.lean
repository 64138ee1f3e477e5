import Eotan.Lib.Bytes

/-!
Copies between the kernel and the memory of a thread (`memcpy.c`, `strncpy.c`, `address.c`). Memory
is what the kernel sees at its own addresses; page directories and page tables are part of it.
-/

namespace Eotan.Mpu

open Lib.Bytes (word)

abbrev Memory := ℕ → UInt8

def eOk : ℤ := 0
def ePar : ℤ := -17

def pageSize : ℕ := 4096
def pagePresent : ℕ := 0x1
def pageWritable : ℕ := 0x2
def pageUser : ℕ := 0x4
def pageAddrMask : ℕ := 0xfffff000
def supervisorStart : ℕ := 0x80000000

def kernP2v (addr : ℕ) : ℕ := addr ||| supervisorStart
def getDirectoryOffset (addr : ℕ) : ℕ := addr >>> 22
def getPageOffset (addr : ℕ) : ℕ := (addr >>> 12) &&& 1023
def getOffset (addr : ℕ) : ℕ := addr &&& 4095

structure Thread where
  ustackTop : ℕ
  cr3 : ℕ

def isKthread (th : Thread) : Bool := th.ustackTop = 0

def load (m : Memory) (a : ℕ) : ℕ := word (fun i => m (a + i)) 0

def pde (m : Memory) (dir addr : ℕ) : ℕ := load m (dir + 4 * getDirectoryOffset addr)

def tableOf (m : Memory) (dir addr : ℕ) : ℕ := kernP2v (pde m dir addr &&& pageAddrMask)

def pte (m : Memory) (dir addr : ℕ) : ℕ :=
  load m (tableOf m dir addr + 4 * getPageOffset addr)

def getPageAddress (m : Memory) (dir addr : ℕ) : Option ℕ :=
  if pde m dir addr &&& pagePresent ≠ 0 then
    if pte m dir addr &&& pagePresent ≠ 0 then some (kernP2v (pte m dir addr &&& pageAddrMask))
    else none
  else none

def memcpy (m : Memory) (dest src n : ℕ) : Memory := fun a =>
  if dest ≤ a ∧ a < dest + n then m (src + (a - dest)) else m a

/-- A piece of a copy: the address of the thread, the kernel's address for it, the length. -/
structure Access where
  user : ℕ
  page : ℕ
  len : ℕ

structure Result where
  code : ℤ
  mem : Memory
  /-- Not in the source: what was read or written on the side of the thread. -/
  log : List Access

def Result.after (r : Result) (x : Access) : Result := { r with log := x :: r.log }

/-- The loop of `memcpy_k2u` and `memcpy_u2k`; `piece` copies one piece, `u` is the pointer on the
thread's side and `k` the one on the kernel's. -/
def copyLoop (piece : Memory → ℕ → ℕ → ℕ → Memory) (dir : ℕ) :
    ℕ → ℕ → ℕ → ℕ → ℕ → ℕ → Memory → Result
  | 0, _, _, _, _, _, m => ⟨ePar, m, []⟩
  | fuel + 1, p, u, k, rest, len, m =>
    let len := if rest < len then rest else len
    let m := piece m p k len
    if rest - len = 0 then ⟨eOk, m, [⟨u, p, len⟩]⟩
    else
      match getPageAddress m dir ((u + len) % 2 ^ 32) with
      | none => ⟨ePar, m, [⟨u, p, len⟩]⟩
      | some page =>
        (copyLoop piece dir fuel page ((u + len) % 2 ^ 32) (k + len) (rest - len) pageSize m).after
          ⟨u, p, len⟩

def userCopy (piece : Memory → ℕ → ℕ → ℕ → Memory) (m : Memory) (th : Thread) (u k bytes : ℕ) :
    Result :=
  match getPageAddress m (kernP2v th.cr3) u with
  | none => ⟨ePar, m, []⟩
  | some page =>
    copyLoop piece (kernP2v th.cr3) (bytes + 1) (page + getOffset u) u k bytes
      (pageSize - getOffset u) m

def memcpyK2u (m : Memory) (th : Thread) (dest src bytes : ℕ) : Result :=
  if isKthread th then ⟨eOk, memcpy m dest src bytes, []⟩
  else userCopy (fun m p k len => memcpy m p k len) m th dest src bytes

def memcpyU2k (m : Memory) (th : Thread) (dest src bytes : ℕ) : Result :=
  if isKthread th then ⟨eOk, memcpy m dest src bytes, []⟩
  else userCopy (fun m p k len => memcpy m k p len) m th src dest bytes

/-- `copy` of `strncpy.c`: whether the end of the string was met, and how many bytes are before
it. -/
def copyString : ℕ → ℕ → ℕ → Memory → Bool × ℕ × Memory
  | 0, _, _, m => (false, 0, m)
  | left + 1, dest, src, m =>
    let m' := Function.update m dest (m src)
    if m src = 0 then (true, 0, m')
    else
      let r := copyString left (dest + 1) (src + 1) m'
      (r.1, r.2.1 + 1, r.2.2)

def stringRead (r : Bool × ℕ × Memory) : ℕ := if r.1 = true then r.2.1 + 1 else r.2.1

def stringLoop (dir bytes : ℕ) : ℕ → ℕ → ℕ → ℕ → ℕ → ℕ → Memory → Result
  | 0, _, _, _, _, _, m => ⟨ePar, m, []⟩
  | fuel + 1, p, r, w, left, len, m =>
    let len := if left < len then left else len
    let x := copyString len w p m
    let left := left - x.2.1
    if x.1 = true ∨ left = 0 then ⟨(bytes - left : ℕ), x.2.2, [⟨r, p, stringRead x⟩]⟩
    else
      match getPageAddress x.2.2 dir ((r + x.2.1) % 2 ^ 32) with
      | none => ⟨ePar, x.2.2, [⟨r, p, stringRead x⟩]⟩
      | some page =>
        (stringLoop dir bytes fuel page ((r + x.2.1) % 2 ^ 32) (w + x.2.1) left pageSize x.2.2).after
          ⟨r, p, stringRead x⟩

def strncpyU2k (m : Memory) (th : Thread) (dest src bytes : ℕ) : Result :=
  if isKthread th then
    let x := copyString bytes dest src m
    ⟨x.2.1, x.2.2, []⟩
  else
    match getPageAddress m (kernP2v th.cr3) src with
    | none => ⟨ePar, m, []⟩
    | some page =>
      stringLoop (kernP2v th.cr3) bytes (bytes + 1) (page + getOffset src) src dest bytes
        (pageSize - getOffset src) m

end Eotan.Mpu
