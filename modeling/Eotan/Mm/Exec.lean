import Eotan.Mm.Space

/-!
`mm_exec` (`pm.c`) from the check of the file on: `_check_elf`, `process_replace` and the two reads
into the memory of the process, with `isValidModule` (`elf.c`). What the file's server does is left
open where it does not matter here.
-/

namespace Eotan.Mm

open Fs (Errno)
open Mpu

structure Ehdr where
  ident : List UInt8
  type : ℕ
  machine : ℕ
  version : ℕ
  entry : ℕ
  phoff : ℕ
  phnum : ℕ

structure Phdr where
  type : ℕ
  offset : ℕ
  vaddr : ℕ
  filesz : ℕ
  memsz : ℕ
  flags : ℕ

def ehdrSize : ℕ := 52
def phdrSize : ℕ := 32
def ptLoad : ℕ := 1
def pfX : ℕ := 1
def pfW : ℕ := 2
def pfR : ℕ := 4

def half (bytes : List UInt8) (i : ℕ) : ℕ :=
  (bytes.getD i 0).toNat + 2 ^ 8 * (bytes.getD (i + 1) 0).toNat

def word (bytes : List UInt8) (i : ℕ) : ℕ := half bytes i + 2 ^ 16 * half bytes (i + 2)

def readEhdr (bytes : List UInt8) : Ehdr where
  ident := bytes.take 16
  type := half bytes 16
  machine := half bytes 18
  version := word bytes 20
  entry := word bytes 24
  phoff := word bytes 28
  phnum := half bytes 44

def readPhdr (bytes : List UInt8) : Phdr where
  type := word bytes 0
  offset := word bytes 4
  vaddr := word bytes 8
  filesz := word bytes 16
  memsz := word bytes 20
  flags := word bytes 24

def isValidModule (h : Ehdr) : Bool :=
  h.ident.take 7 = [0x7f, 0x45, 0x4c, 0x46, 1, 1, 1] ∧ h.type = 2 ∧ h.machine = 3 ∧ h.version = 1

structure Image where
  bytes : List UInt8
  errors : ℕ → ℕ → Option Errno
  /-- Where the server has the bytes of a read for another process: the addresses and lengths of the
  pieces that it hands over one after the other. -/
  pieces : ℕ → ℕ → List (ℕ × ℕ)

def Image.read (file : Image) (offset count : ℕ) : Except Errno (List UInt8) :=
  match file.errors offset count with
  | some e => .error e
  | none => .ok ((file.bytes.drop offset).take count)

structure Parts where
  code : Option Phdr
  data : Option Phdr

def Parts.note (parts : Parts) (h : Phdr) : Parts :=
  if h.flags = pfX ||| pfR then { parts with code := some h }
  else if h.flags = pfW ||| pfR then { parts with data := some h }
  else parts

def findParts (file : Image) : ℕ → ℕ → Parts → Except Errno Parts
  | 0, _, parts => .ok parts
  | n + 1, offset, parts =>
    match file.read offset phdrSize with
    | .error e => .error e
    | .ok bytes =>
      if bytes.length ≠ phdrSize then .error .enoexec
      else
        let h := readPhdr bytes
        if h.type ≠ ptLoad then findParts file n ((offset + phdrSize) % 2 ^ 32) parts
        else
          let parts := parts.note h
          if parts.code.isSome ∧ parts.data.isSome then .ok parts
          else findParts file n ((offset + phdrSize) % 2 ^ 32) parts

def checkElf (file : Image) : Except Errno (Ehdr × Phdr × Phdr) :=
  match file.read 0 ehdrSize with
  | .error e => .error e
  | .ok bytes =>
    if bytes.length ≠ ehdrSize then .error .enoexec
    else
      let h := readEhdr bytes
      if isValidModule h = false then .error .enoexec
      else
        match findParts file h.phnum h.phoff ⟨none, none⟩ with
        | .error e => .error e
        | .ok parts =>
          match parts.code with
          | none => .error .enoexec
          | some code => .ok (h, code, parts.data.getD ⟨0, 0, 0, 0, 0, 0⟩)

namespace Spaces

def segmentFor (s : Spaces) (directory : ℕ) (h : Phdr) (writable : Bool) (type : ℕ) :
    Except Errno ℕ × Spaces :=
  s.segmentAllocate directory (pageRoundDown h.vaddr)
    (pageRoundUp ((h.vaddr + h.memsz) % 2 ^ 32)) writable type

def replaceSegments (s : Spaces) (pid : ℕ) (code data : Phdr) : Option Errno × Spaces :=
  match s.processes pid with
  | none => (some .efault, s)
  | some p =>
    match s.segmentFor p.directory code false typeCode with
    | (.error e, s) => (some e, s)
    | (.ok id, s) =>
      let p := { p with code := some id }
      let s := s.setProcess pid p
      if data.memsz = 0 then (none, s)
      else
        match s.segmentFor p.directory data true typeData with
        | (.error e, s) => (some e, s)
        | (.ok id, s) => (none, s.setProcess pid { p with data := some id })

def processReplace (s : Spaces) (tid pid : ℕ) (code data : Phdr) (args size : ℕ) :
    Option Errno × Spaces :=
  let s := s.destroyThreads pid tid
  match s.processes pid with
  | none => (some .efault, s)
  | some p =>
    let stackTop := pageRoundDown userStackEndAddr - size
    match s.copyUserStack p.directory stackTop args size with
    | (some e, s) => (some e, s)
    | (none, s) =>
      match (s.releaseSegments pid).replaceSegments pid code data with
      | (some e, s) => (some e, s)
      | (none, s) => s.createThread tid pid (stackTop - 4)

/-- The copies of a server that hands over what was read: `region_put` to the thread for each piece.
The number of bytes that were copied is returned. -/
def putPieces (th : Mpu.Thread) : ℕ → ℕ → List (ℕ × ℕ) → Machine → Except Errno ℕ × Machine
  | _, _, [], m => (.ok 0, m)
  | user, left, (src, len) :: pieces, m =>
    let len := min len left
    match memcpyK2u m.mem th user src len with
    | ⟨code, mem, log⟩ =>
      let m := { m with mem := mem, touched := log.map Touch.copied ++ m.touched }
      if code ≠ eOk then (.error .copier, m)
      else
        match putPieces th ((user + len) % 2 ^ 32) (left - len) pieces m with
        | (.error e, m) => (.error e, m)
        | (.ok count, m) => (.ok (len + count), m)

def loadPart (s : Spaces) (th : Mpu.Thread) (file : Image) (h : Phdr) : Option Errno × Spaces :=
  match file.errors h.offset h.filesz with
  | some e => (some e, s)
  | none =>
    match putPieces th h.vaddr h.filesz (file.pieces h.offset h.filesz) s.machine with
    | (.error e, m) => (some e, s.setMachine m)
    | (.ok count, m) => (if count ≠ h.filesz then some .enoexec else none, s.setMachine m)

def loadParts (s : Spaces) (th : Mpu.Thread) (file : Image) (code data : Phdr) :
    Option Errno × Spaces :=
  match s.loadPart th file code with
  | (some e, s) => (some e, s)
  | (none, s) => if data.filesz = 0 then (none, s) else s.loadPart th file data

/-- `mm_exec` of thread `tid` in process `pid`, with the arguments `size` bytes at `args`. A process
whose memory has been replaced and that cannot be started is destroyed. -/
def exec (s : Spaces) (tid pid : ℕ) (file : Image) (args size : ℕ) : Option Errno × Spaces :=
  match checkElf file with
  | .error e => (some e, s)
  | .ok (_, code, data) =>
    if size > userStackInitialSize - 4 then (some .e2big, s)
    else
      match s.processes pid with
      | none => (some .eperm, s)
      | some p =>
        match s.processReplace tid pid code data args size with
        | (some e, s) => (some e, s.destroyMemory pid)
        | (none, s) =>
          match s.loadParts ⟨userStackEndAddr - size - 4, p.directory⟩ file code data with
          | (some e, s) => (some e, s.destroyMemory pid)
          | (none, s) => (none, s)

end Spaces

end Eotan.Mm
