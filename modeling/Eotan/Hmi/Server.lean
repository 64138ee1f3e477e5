import Eotan.Fs.Server
import Eotan.Mpu.Copy

/-!
The screen server (`servers/hmi`): a session has one window, and a Twrite on its file `draw` copies
a rectangle of the caller's memory to the part of the frame buffer that the window shows. Reading,
the focus and the mouse are left out.
-/

namespace Eotan.Hmi

open Fs (Errno oAccmode oRdonly oWronly oRdwr oExec oAppend oTrunc rOk wOk vfsCheckFlags getPath slash
  noFid)
open Mpu (Memory Thread eOk ePar userCopy memcpy)
open Lib.Bytes (word)

structure Point where
  x : ℤ
  y : ℤ
  deriving DecidableEq

structure Rectangle where
  min : Point
  max : Point
  deriving DecidableEq

/-- The frame buffer as `set_display` finds it: a row has `bpl` bytes and a pixel `bpp`. -/
structure Display where
  r : Rectangle
  base : ℕ
  bpl : ℕ
  bpp : ℕ
  type : ℕ
  origin : r.min = ⟨0, 0⟩
  pixel : 0 < bpp
  line : bpl < 2 ^ 31
  wide : r.max.x * bpp ≤ bpl
  high : base + r.max.y * bpl ≤ 2 ^ 32

def rectNormalize (r : Rectangle) : Rectangle where
  min := ⟨if r.max.x < r.min.x then r.max.x else r.min.x, if r.max.y < r.min.y then r.max.y else r.min.y⟩
  max := ⟨if r.max.x < r.min.x then r.min.x else r.max.x, if r.max.y < r.min.y then r.min.y else r.max.y⟩

def int (n : ℤ) : ℤ := n.bmod (2 ^ 32)

def rectTransform (r : Rectangle) (origin : Point) : Rectangle where
  min := ⟨int (r.min.x + origin.x), int (r.min.y + origin.y)⟩
  max := ⟨int (r.max.x + origin.x), int (r.max.y + origin.y)⟩

def rectIntersect (src1 src2 : Rectangle) : Option Rectangle :=
  let minX := if src2.min.x < src1.min.x then src1.min.x else src2.min.x
  let maxX := if src1.max.x < src2.max.x then src1.max.x else src2.max.x
  let minY := if src2.min.y < src1.min.y then src1.min.y else src2.min.y
  let maxY := if src1.max.y < src2.max.y then src1.max.y else src2.max.y
  if maxX ≤ minX then none else if maxY ≤ minY then none else some ⟨⟨minX, minY⟩, ⟨maxX, maxY⟩⟩

structure Frame where
  r : Rectangle
  viewport : Rectangle

structure Window where
  outer : Frame

def windowCreate (x1 y1 x2 y2 : ℤ) : Window :=
  let r := rectNormalize ⟨⟨x1, y1⟩, ⟨x2, y2⟩⟩
  ⟨⟨r, r⟩⟩

inductive Driver where
  | consctl
  | draw
  | event
  | wctl
  | screen

def Driver.permission : Driver → ℕ
  | .consctl | .draw => wOk
  | .event | .wctl | .screen => rOk

structure File where
  flag : ℕ
  driver : Option Driver

structure Session where
  files : AList fun _ : ℤ => File
  window : Window

structure Server where
  sessions : AList fun _ : ℕ => Session
  numOfWindow : ℤ

def barHeight : ℤ := 20
def defaultWidth : ℤ := 512
def defaultHeight : ℤ := 374
def oCreat : ℕ := 0x200
def eSys : ℤ := -5
def eNoexs : ℤ := -42

namespace Session

def setFile (session : Session) (fid : ℤ) (file : File) : Session :=
  { session with files := session.files.insert fid file }

end Session

namespace Server

def setSession (srv : Server) (sid : ℕ) (session : Session) : Server :=
  { srv with sessions := srv.sessions.insert sid session }

def place (srv : Server) : Window :=
  windowCreate 0 (barHeight + defaultHeight * srv.numOfWindow) defaultWidth
    (barHeight + defaultHeight * (srv.numOfWindow + 1))

end Server

def sessionCreateFile (session : Session) (fid : ℤ) (fileOk : Bool) : Except Errno Session :=
  if fileOk = false then .error .enfile
  else if (session.files.lookup fid).isSome then .error .eaddrinuse
  else .ok (session.setFile fid ⟨0, none⟩)

def sessionDestroyFile (srv : Server) (sid : ℕ) (session : Session) (fid : ℤ) :
    Option Errno × Server :=
  if (session.files.lookup fid).isNone then (some .ebadf, srv)
  else
    let session := { session with files := session.files.erase fid }
    if session.files.keys = [] then (none, ⟨srv.sessions.erase sid, srv.numOfWindow - 1⟩)
    else (none, srv.setSession sid session)

/-- Where no file or no window can be had, the session that was made for them is destroyed. -/
def ifAttach (srv : Server) (sid : ℕ) (fid afid : ℤ) (sessionOk fileOk windowOk : Bool) :
    Option Errno × Server :=
  if afid ≠ noFid then (some .einval, srv)
  else if sessionOk = false ∨ (srv.sessions.lookup sid).isSome then (some .enomem, srv)
  else
    match sessionCreateFile ⟨∅, srv.place⟩ fid fileOk with
    | .error e => (some e, srv)
    | .ok session =>
      if windowOk = false then (some .enomem, srv)
      else
        (none, { srv.setSession sid (session.setFile fid ⟨oAccmode, none⟩) with
          numOfWindow := srv.numOfWindow + 1 })

def deviceLookup (name : List UInt8) : Option Driver :=
  if name = [99, 111, 110, 115, 99, 116, 108] then some .consctl
  else if name = [100, 114, 97, 119] then some .draw
  else if name = [101, 118, 101, 110, 116] then some .event
  else if name = [119, 99, 116, 108] then some .wctl
  else if name = [115, 99, 114, 101, 101, 110] then some .screen
  else none

def walkDriver (nwname : ℕ) (wname : Option (List UInt8)) : Except Errno (Option Driver) :=
  if nwname = 0 then .ok none
  else
    match getPath wname with
    | .error e => .error e
    | .ok path =>
      match deviceLookup (if path.head? = some slash then path.tail else path) with
      | none => .error .enoent
      | some driver => .ok (some driver)

def ifWalk (srv : Server) (sid : ℕ) (fid newfid : ℤ) (nwname : ℕ) (wname : Option (List UInt8))
    (fileOk : Bool) : Option Errno × Server :=
  match srv.sessions.lookup sid with
  | none => (some .eperm, srv)
  | some session =>
    match session.files.lookup fid with
    | none => (some .ebadf, srv)
    | some parent =>
      if parent.flag ≠ oAccmode then (some .ebadf, srv)
      else if nwname ≠ 0 ∧ parent.driver.isSome then (some .enotdir, srv)
      else if newfid = fid then
        if nwname = 0 then (none, srv)
        else
          match walkDriver nwname wname with
          | .error e => (some e, srv)
          | .ok driver =>
            (none, srv.setSession sid (session.setFile fid ⟨oAccmode, driver.or parent.driver⟩))
      else
        match sessionCreateFile session newfid fileOk with
        | .error e => (some e, srv)
        | .ok session =>
          match walkDriver nwname wname with
          | .error e => (some e, (sessionDestroyFile srv sid session newfid).2)
          | .ok driver => (none, srv.setSession sid (session.setFile newfid ⟨oAccmode, driver⟩))

def ifOpen (srv : Server) (sid : ℕ) (fid : ℤ) (mode : ℕ) : Option Errno × Server :=
  match srv.sessions.lookup sid with
  | none => (some .eperm, srv)
  | some session =>
    match session.files.lookup fid with
    | none => (some .ebadf, srv)
    | some file =>
      match file.driver with
      | none => (some .eisdir, srv)
      | some driver =>
        if file.flag ≠ oAccmode then (some .ebusy, srv)
        else if mode &&& oExec ≠ 0 then (some .eacces, srv)
        else if vfsCheckFlags mode = false ∨ mode &&& (oAppend ||| oCreat ||| oTrunc) ≠ 0 then
          (some .einval, srv)
        else
          let checkBits :=
            if mode &&& oAccmode = oRdonly then rOk
            else if mode &&& oAccmode = oWronly then wOk
            else rOk ||| wOk
          if driver.permission &&& checkBits ≠ checkBits then (some .eacces, srv)
          else (none, srv.setSession sid (session.setFile fid { file with flag := mode &&& oAccmode }))

def ifClunk (srv : Server) (sid : ℕ) (fid : ℤ) : Option Errno × Server :=
  match srv.sessions.lookup sid with
  | none => (some .eperm, srv)
  | some session => sessionDestroyFile srv sid session fid

def copyFragments (th : Thread) (size chunkSize skip : ℕ) : ℕ → ℕ → ℕ → Memory → ℤ × Memory
  | 0, _, _, m => (eOk, m)
  | n + 1, dst, src, m =>
    let r := userCopy (fun m p k len => memcpy m k p len) m th src dst size
    if r.code ≠ eOk then (r.code, r.mem)
    else copyFragments th size chunkSize skip n ((dst + skip) % 2 ^ 32) ((src + chunkSize) % 2 ^ 32) r.mem

structure CopyRange where
  dst : ℕ
  src : ℕ
  numOfFragments : ℕ
  fragmentSize : ℕ
  chunkSize : ℕ

def scatteredCopyU2k (m : Memory) (th : Thread) (skip : ℕ) (range : CopyRange) : ℤ × Memory :=
  if range.fragmentSize = 0 then (eOk, m)
  else copyFragments th range.fragmentSize range.chunkSize skip range.numOfFragments range.dst range.src m

def skipCopy (m : Memory) (th : Option Thread) (skip : ℕ) (range : CopyRange) : ℤ × Memory :=
  match th with
  | none => (eNoexs, m)
  | some th => scatteredCopyU2k m th skip range

def drawOpSize : ℕ := 4
def drawOpBlit : ℕ := 1
def drawBlitPacketSize : ℕ := 32

def blitDest (inbuf : ℕ → UInt8) : Rectangle :=
  ⟨⟨int (word inbuf 1), int (word inbuf 2)⟩, ⟨int (word inbuf 3), int (word inbuf 4)⟩⟩

def blitBase (inbuf : ℕ → UInt8) : ℕ := word inbuf 5
def blitBpl (inbuf : ℕ → UInt8) : ℕ := word inbuf 6
def blitType (inbuf : ℕ → UInt8) : ℕ := word inbuf 7

/-- The range for the part `dest` of the screen; `width` is compared as an unsigned number. -/
def blitRange (d : Display) (inbuf : ℕ → UInt8) (dest : Rectangle) : CopyRange where
  dst := ((d.base + dest.min.y * d.bpl + dest.min.x * d.bpp) % 2 ^ 32).toNat
  src := blitBase inbuf
  numOfFragments := (dest.max.y - dest.min.y).toNat
  fragmentSize := ((dest.max.x - dest.min.x) * d.bpp % 2 ^ 32).toNat
  chunkSize := blitBpl inbuf

def drawWrite (d : Display) (w : Window) (size : ℕ) (inbuf : ℕ → UInt8) (th : Option Thread) (m : Memory) :
    ℤ × Memory :=
  if size < drawOpSize then (ePar, m)
  else if word inbuf 0 ≠ drawOpBlit then (ePar, m)
  else if size ≠ drawBlitPacketSize then (ePar, m)
  else if blitType inbuf ≠ d.type then (ePar, m)
  else
    match rectIntersect (rectTransform (rectNormalize (blitDest inbuf)) w.outer.r.min)
        w.outer.viewport with
    | none => (size, m)
    | some dest =>
      let range := blitRange d inbuf dest
      if blitBpl inbuf < range.fragmentSize then (ePar, m)
      else
        let r := skipCopy m th d.bpl range
        (if r.1 ≠ 0 then r.1 else size, r.2)

/-- `_write`; what `consctl_write` tells the console is left out. -/
def writeFile (d : Display) (session : Session) (file : File) (size : ℕ) (inbuf : ℕ → UInt8)
    (th : Option Thread) (m : Memory) : ℤ × Memory :=
  match file.driver with
  | some .consctl => (size, m)
  | some .draw => drawWrite d session.window size inbuf th m
  | _ => (-1, m)

/-- The loop of `if_write`: `line pos` is what `region_get` reads from the caller at `pos`. -/
def writeLines (write : ℕ → (ℕ → UInt8) → Memory → ℤ × Memory) (line : ℕ → Option (ℕ → UInt8)) :
    ℕ → ℕ → ℕ → Memory → ℤ × Memory
  | 0, _, _, m => (0, m)
  | fuel + 1, pos, rest, m =>
    if rest = 0 then (0, m)
    else
      let len := if 4096 < rest then 4096 else rest
      match line pos with
      | none => (eSys, m)
      | some inbuf =>
        let r := write len inbuf m
        if r.1 < 0 then r else writeLines write line fuel (pos + len) (rest - len) r.2

def ifWrite (d : Display) (srv : Server) (sid : ℕ) (fid : ℤ) (count : ℕ)
    (line : ℕ → Option (ℕ → UInt8)) (th : Option Thread) (m : Memory) : Except Errno ℤ × Memory :=
  match srv.sessions.lookup sid with
  | none => (.error .eperm, m)
  | some session =>
    match session.files.lookup fid with
    | none => (.error .ebadf, m)
    | some file =>
      if file.flag = oRdonly ∨ file.flag = oAccmode then (.error .ebadf, m)
      else
        let write := fun size inbuf m => writeFile d session file size inbuf th m
        let r := writeLines write line count 0 count m
        (.ok (if 0 ≤ r.1 then (count : ℤ) else r.1), r.2)

inductive Body where
  | attach (fid afid : ℤ) (sessionOk fileOk windowOk : Bool)
  | walk (fid newfid : ℤ) (nwname : ℕ) (wname : Option (List UInt8)) (fileOk : Bool)
  | openFid (fid : ℤ) (mode : ℕ)
  | clunk (fid : ℤ)

structure Message where
  sid : ℕ
  body : Body

def Server.step (srv : Server) (m : Message) : Server :=
  match m.body with
  | .attach fid afid sessionOk fileOk windowOk =>
    (ifAttach srv m.sid fid afid sessionOk fileOk windowOk).2
  | .walk fid newfid nwname wname fileOk => (ifWalk srv m.sid fid newfid nwname wname fileOk).2
  | .openFid fid mode => (ifOpen srv m.sid fid mode).2
  | .clunk fid => (ifClunk srv m.sid fid).2

def Server.initial : Server := ⟨∅, 0⟩

def Server.run (srv : Server) (ms : List Message) : Server := ms.foldl Server.step srv

end Eotan.Hmi
