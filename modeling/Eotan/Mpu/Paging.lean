import Mathlib.Data.List.Sort
import Eotan.Fs.Tfs
import Eotan.Lib.Loop
import Eotan.Mpu.Copy

/-!
Page tables (`memory.c` of the i686 driver, `get_writable_page.c`) and the allocator of pages
(`palloc.c`). A directory is named by its physical address. The pages that a function maps, copies
into or unmaps are logged by their number, counted from address 0 of the directory.
-/

namespace Eotan.Mpu

open Fs (Errno)
open Lib.Bytes (setWord)
open Lib.Loop (forRange forChunks)

def ptePerPage : ℕ := 1024
def attrUser : ℕ := pageUser ||| pageWritable ||| pagePresent
def attrUserReadOnly : ℕ := pageUser ||| pagePresent
def kthreadDirAddr : ℕ := 0x2000

def kernV2p (addr : ℕ) : ℕ := addr % supervisorStart
def pageRoundDown (value : ℕ) : ℕ := value / pageSize * pageSize
def pageRoundUp (value : ℕ) : ℕ := pageRoundDown ((value + (pageSize - 1)) % 2 ^ 32)
def pages (bytes : ℕ) : ℕ := (bytes + (pageSize - 1)) % 2 ^ 32 / pageSize
def isPresent (pte : ℕ) : Bool := pte &&& pagePresent ≠ 0

def convertAttr (writable : Bool) : ℕ := if writable = true then attrUser else attrUserReadOnly

inductive Touch where
  | mapped (page : ℕ)
  | copied (access : Access)
  | unmapped (page : ℕ)

structure Machine where
  mem : Memory
  free : List ℕ
  numBlocks : ℕ
  touched : List Touch

namespace Machine

def entry (s : Machine) (table i : ℕ) : ℕ := load s.mem (table + 4 * i)

def setEntry (s : Machine) (table i pte : ℕ) : Machine :=
  { s with mem := setWord s.mem ((table + 4 * i) / 4) pte }

def touch (s : Machine) (t : Touch) : Machine := { s with touched := t :: s.touched }

def clear (s : Machine) (a n : ℕ) : Machine :=
  { s with mem := fun b => if a ≤ b ∧ b < a + n then 0 else s.mem b }

def palloc (s : Machine) : ℕ × Machine :=
  match s.free with
  | [] => (0, s)
  | f :: free =>
    let addr := kernP2v (f * pageSize)
    (addr, { s with free }.clear addr pageSize)

def pfree (s : Machine) (addr : ℕ) : Machine :=
  let f := kernV2p addr / pageSize
  if f / 32 ≥ s.numBlocks ∨ f ∈ s.free then s
  else { s with free := s.free.orderedInsert (· ≤ ·) f }

def copyKernelPageTable (s : Machine) : ℕ × Machine :=
  match s.palloc with
  | (directory, s) =>
    if directory = 0 then (0, s)
    else
      let n := getDirectoryOffset supervisorStart * 4
      let s := s.clear directory n
      (kernV2p directory,
        { s with mem := memcpy s.mem (directory + n) (kernP2v kthreadDirAddr + n) (pageSize - n) })

/-- The loop over the directory that all functions on `n` pages from `addr` on share:
`body i offset max` is for the entries from `offset` to `max` of table `i`. -/
def forPages (body : ℕ → ℕ → ℕ → Machine → Option Errno × Machine) (addr n : ℕ) (s : Machine) :
    Option Errno × Machine :=
  forChunks ptePerPage body n (getDirectoryOffset addr) (getPageOffset addr) n s

/-- The table in entry `i` of the directory, made if the test of the entry says that there is none;
0 if it cannot be made. -/
def tableIn (s : Machine) (taken : ℕ → Bool) (dir i : ℕ) : ℕ × Machine :=
  if taken (s.entry dir i) = true then (kernP2v (s.entry dir i &&& pageAddrMask), s)
  else
    match s.palloc with
    | (p, s) =>
      if kernV2p p = 0 then (0, s)
      else (kernP2v (kernV2p p), s.setEntry dir i (kernV2p p ||| attrUser))

def outside (addr n : ℕ) : Bool :=
  decide (addr ≥ supervisorStart) || decide (n > pages (supervisorStart - addr))

def copyEntry (attr dest src i j : ℕ) (s : Machine) : Option Errno × Machine :=
  if isPresent (s.entry src j) = false then (some .efault, s)
  else if s.entry dest j ≠ 0 then (some .eaddrinuse, s)
  else
    match s.palloc with
    | (p, s) =>
      let p := kernV2p p
      if p = 0 then (some .enomem, s)
      else
        let s := s.setEntry dest j (p ||| attr)
        let s := { s with
          mem := memcpy s.mem (kernP2v p) (kernP2v (s.entry src j &&& pageAddrMask)) pageSize }
        let q := i * ptePerPage + j
        (none, (s.touch (.mapped q)).touch (.copied ⟨q * pageSize, kernP2v p, pageSize⟩))

def attachEntry (attr dest src i j : ℕ) (s : Machine) : Option Errno × Machine :=
  if isPresent (s.entry src j) = false then (some .efault, s)
  else if s.entry dest j ≠ 0 then (some .eaddrinuse, s)
  else
    (none, (s.setEntry dest j (s.entry src j &&& pageAddrMask ||| attr)).touch
      (.mapped (i * ptePerPage + j)))

/-- What `copy_user_pages` and `attach_user_pages` do with one table; `body` is for one entry of the
tables `dest` and `src`. -/
def transferTable (body : ℕ → ℕ → ℕ → ℕ → Machine → Option Errno × Machine) (destDir srcDir : ℕ)
    (i offset max : ℕ) (s : Machine) : Option Errno × Machine :=
  if isPresent (s.entry srcDir i) = false then (some .efault, s)
  else
    match s.tableIn (· ≠ 0) destDir i with
    | (dest, s) =>
      if dest = 0 then (some .enomem, s)
      else
        let src := kernP2v (s.entry srcDir i &&& pageAddrMask)
        forRange (body dest src i) (max - offset) offset s

def copyUserPages (s : Machine) (dest src addr n : ℕ) (writable : Bool) : Option Errno × Machine :=
  if outside addr n then (some .einval, s)
  else forPages (transferTable (copyEntry (convertAttr writable)) (kernP2v dest) (kernP2v src)) addr n s

def attachUserPages (s : Machine) (dest src addr n : ℕ) (writable : Bool) :
    Option Errno × Machine :=
  if outside addr n then (some .einval, s)
  else
    forPages (transferTable (attachEntry (convertAttr writable)) (kernP2v dest) (kernP2v src)) addr n s

def mapEntry (attr page i j : ℕ) (s : Machine) : Option Errno × Machine :=
  let s := s.touch (.mapped (i * ptePerPage + j))
  if isPresent (s.entry page j) = true then (none, s)
  else
    match s.palloc with
    | (p, s) =>
      if kernV2p p = 0 then (some .enomem, s)
      else (none, s.setEntry page j (kernV2p p ||| attr))

def mapTable (attr dir i offset max : ℕ) (s : Machine) : Option Errno × Machine :=
  match s.tableIn isPresent dir i with
  | (page, s) =>
    if page = 0 then (some .enomem, s)
    else forRange (mapEntry attr page i) (max - offset) offset s

/-- `map_user_pages`: the range is not checked, only the number of pages is limited. -/
def mapUserPages (s : Machine) (dir addr cnt : ℕ) (writable : Bool) : Option Errno × Machine :=
  let n := getDirectoryOffset supervisorStart * ptePerPage
  forPages (mapTable (convertAttr writable) (kernP2v dir)) addr (if n > cnt then cnt else n) s

def existsPage (s : Machine) (page lo hi : ℕ) : Bool :=
  (List.range' lo (hi - lo)).any fun j => isPresent (s.entry page j)

def unmapEntry (page i j : ℕ) (s : Machine) : Option Errno × Machine :=
  let s := s.touch (.unmapped (i * ptePerPage + j))
  let p := s.entry page j
  if isPresent p = true then (none, (s.setEntry page j 0).pfree (p &&& pageAddrMask)) else (none, s)

def detachEntry (page i j : ℕ) (s : Machine) : Option Errno × Machine :=
  let s := s.touch (.unmapped (i * ptePerPage + j))
  if isPresent (s.entry page j) = true then (none, s.setEntry page j 0) else (none, s)

def clearTable (body : ℕ → ℕ → ℕ → Machine → Option Errno × Machine) (dir i offset max : ℕ)
    (s : Machine) : Option Errno × Machine :=
  if isPresent (s.entry dir i) = false then (none, s)
  else
    let page := kernP2v (s.entry dir i &&& pageAddrMask)
    let before := s.existsPage page 0 offset
    match forRange (body page i) (max - offset) offset s with
    | (_, s) =>
      if before || s.existsPage page max ptePerPage then (none, s)
      else (none, (s.setEntry dir i 0).pfree page)

def unmapUserPages (s : Machine) (dir addr n : ℕ) : Option Errno × Machine :=
  if outside addr n then (some .einval, s)
  else forPages (clearTable unmapEntry (kernP2v dir)) addr n s

def detachUserPages (s : Machine) (dir addr n : ℕ) : Option Errno × Machine :=
  if outside addr n then (some .einval, s)
  else forPages (clearTable detachEntry (kernP2v dir)) addr n s

def getWritablePage (s : Machine) (dir addr : ℕ) : Option ℕ :=
  let pde := s.entry dir (getDirectoryOffset addr)
  if pde &&& attrUserReadOnly = attrUserReadOnly then
    let pte := s.entry (kernP2v (pde &&& pageAddrMask)) (getPageOffset addr)
    if pte &&& attrUser = attrUser then some (kernP2v (pte &&& pageAddrMask)) else none
  else none

/-- `memrcpy` to the kernel's address `dest`, which stands for `user` of the directory. -/
def memrcpy (s : Machine) (user dest src : ℕ) (n : ℕ) : Machine :=
  { s with mem := memrcpyLoop s.mem dest src n }.touch (.copied ⟨user - n, dest - n, n⟩)
where
  memrcpyLoop (m : Memory) (dest src : ℕ) : ℕ → Memory
    | 0 => m
    | n + 1 => memrcpyLoop (Function.update m (dest - 1) (m (src - 1))) (dest - 1) (src - 1) n

def moveLoop (dir dest src roffset woffset : ℕ) : ℕ → ℕ → ℕ → Machine → ℤ × Machine
  | 0, _, _, s => (eOk, s)
  | fuel + 1, left, q, s =>
    if left = 0 then (eOk, s)
    else
      match getPageAddress s.mem dir ((dest + left - 1) % 2 ^ 32) with
      | none => (ePar, s)
      | some p =>
        let len := if roffset > left then left else roffset
        let s := if roffset = 0 then s
          else s.memrcpy (dest + left) (p + pageSize) (q + roffset) len
        let left := left - len
        if left = 0 then (eOk, s)
        else
          match getPageAddress s.mem dir ((src + left - 1) % 2 ^ 32) with
          | none => (ePar, s)
          | some q =>
            let len := if woffset > left then left else woffset
            let s := s.memrcpy (dest + left) (p + woffset) (q + pageSize) len
            moveLoop dir dest src roffset woffset fuel (left - len) q s

def moveStack (s : Machine) (pageTable dest src bytes : ℕ) : ℤ × Machine :=
  let dir := kernP2v pageTable
  if src ≥ supervisorStart then
    if bytes > pageSize - getOffset dest then (ePar, s)
    else
      match getPageAddress s.mem dir dest with
      | none => (ePar, s)
      -- the bytes before `dest` are written, not those from `dest` on
      | some p => (eOk, s.memrcpy dest (p ||| getOffset dest) src bytes)
  else
    let roffset := getOffset ((src + bytes) % 2 ^ 32)
    match getPageAddress s.mem dir ((src + bytes + (2 ^ 32 - 1)) % 2 ^ 32) with
    | none => (ePar, s)
    | some q => moveLoop dir dest src roffset (pageSize - roffset) (bytes + 1) bytes q s

end Machine

end Eotan.Mpu
