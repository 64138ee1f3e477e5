import Eotan.Fs.Vfs
import Mathlib.Data.List.AList

/-!
The file server (`servers/fs`): the sessions with their fids, and what each request does to them
and to the mounted file system.
-/

namespace Eotan.Fs

open Vfs

structure File where
  vnode : Option ℕ
  flag : ℕ

structure Session where
  permission : Permission
  root : Option ℕ
  files : AList fun _ : ℤ => File

structure Server where
  fs : Vfs
  sessions : AList fun _ : ℕ => Session

/-- The arguments of a request, with what the memory of the caller holds where the server reads it
(`none` where it cannot be read) and whether the slabs have an entry left. -/
inductive Request where
  | attach (fid afid : ℤ) (uname : ℕ) (sessionOk fileOk : Bool)
  | walk (fid newfid : ℤ) (nwname : ℕ) (wname : Option (List UInt8)) (fileOk : Bool)
  | openFid (fid : ℤ) (mode : ℕ)
  | create (fid : ℤ) (name : Option (List UInt8)) (perm mode : ℕ)
  | read (fid offset : ℤ) (count : ℕ) (faults : List Bool)
  /-- `behind` is what lies behind `req->buf` in memory. -/
  | write (fid offset : ℤ) (count : ℕ) (data : Source) (behind : ℕ → UInt8)
  | clunk (fid : ℤ)
  | remove (fid : ℤ)
  | stat (fid : ℤ) (copyOk : Bool)
  | wstat (fid : ℤ) (stat : Option (ℕ × Stat))
  | sync

structure Message where
  sid : ℕ
  clock : Clock
  stack : ℕ → UInt8
  request : Request

inductive Response where
  | rerror (e : Errno)
  | rattach (qid : ℕ)
  | rwalk
  | ropen (qid : ℕ)
  | rcreate (qid : ℤ)
  | rread (count : ℕ) (data : List UInt8)
  | rwrite (count : ℕ)
  | rclunk
  | rremove
  | rstat (st : StatResult)
  | rwstat
  | rsync (failed : Bool)
  deriving DecidableEq

def pathMax : ℕ := 1024
def initGid : ℕ := 0
def noFid : ℤ := 0

namespace Server

def setSession (srv : Server) (sid : ℕ) (session : Session) : Server :=
  { srv with sessions := srv.sessions.insert sid session }

def setFile (srv : Server) (sid : ℕ) (session : Session) (fid : ℤ) (file : File) : Server :=
  srv.setSession sid { session with files := session.files.insert fid file }

def setFs (srv : Server) (fs : Vfs) : Server := { srv with fs := fs }

def findFile (srv : Server) (sid : ℕ) (fid : ℤ) : Except Errno (Session × File) :=
  match srv.sessions.lookup sid with
  | none => .error .eperm
  | some session =>
    match session.files.lookup fid with
    | none => .error .ebadf
    | some file => .ok (session, file)

def vnodeOf (srv : Server) (file : File) : Option (ℕ × Vnode) :=
  match file.vnode with
  | none => none
  | some v => (srv.fs.vnodes v).map fun vnode => (v, vnode)

end Server

open Server

/-- `session_create_file`. `tree_put` fails only where the fid is in the tree. -/
def sessionCreateFile (srv : Server) (sid : ℕ) (session : Session) (fid : ℤ) (fileOk : Bool) :
    Option Errno × Server :=
  if (session.files.lookup fid).isSome then (some .ebusy, srv)
  else if fileOk = false then (some .enomem, srv)
  else (none, srv.setFile sid session fid ⟨none, 0⟩)

def sessionDestroyFile (srv : Server) (sid : ℕ) (fid : ℤ) : Option Errno × Server :=
  match srv.findFile sid fid with
  | .error e => (some e, srv)
  | .ok (session, file) =>
    let srv := srv.setSession sid { session with files := session.files.erase fid }
    match file.vnode with
    | none => (none, srv)
    | some v =>
      match vnodesRemove srv.fs v with
      | (e, fs) => (e, srv.setFs fs)

def getPath (src : Option (List UInt8)) : Except Errno (List UInt8) :=
  match src with
  | none => .error .efault
  | some bytes =>
    let path := bytes.takeWhile (· ≠ 0)
    if path = [] then .error .einval
    else if pathMax ≤ path.length then .error .enametoolong
    else .ok path

def sessionGetPath (session : Session) (parent : Option ℕ) (src : Option (List UInt8)) :
    Except Errno (List UInt8 × Option ℕ) :=
  match getPath src with
  | .error e => .error e
  | .ok path => .ok (path, if path.head? = some slash then session.root else parent)

def ifAttach (srv : Server) (sid : ℕ) (fid afid : ℤ) (uname : ℕ) (sessionOk fileOk : Bool) :
    Response × Server :=
  if afid ≠ noFid then (.rerror .einval, srv)
  else if sessionOk = false ∨ (srv.sessions.lookup sid).isSome then (.rerror .enomem, srv)
  else if fileOk = false then (.rerror .enomem, srv)
  else
    match srv.fs.root with
    | none => (.rerror .eio, srv)
    | some root =>
      let session : Session := ⟨⟨uname, initGid⟩, some root, ∅⟩
      let srv := srv.setFs (srv.fs.retain root)
      (.rattach ((srv.fs.vnodes root).elim 0 (·.index)),
        srv.setFile sid session fid ⟨some root, oAccmode⟩)

def walkFrom (srv : Server) (session : Session) (parent : ℕ) (nwname : ℕ)
    (wname : Option (List UInt8)) : Except Errno ℕ × Server :=
  if nwname = 0 then (.ok parent, srv.setFs (srv.fs.retain parent))
  else
    match sessionGetPath session (some parent) wname with
    | .error e => (.error e, srv)
    | .ok (path, start) =>
      match vfsWalk srv.fs start path oRdonly session.permission with
      | (r, fs) => (r, srv.setFs fs)

def walkSelf (srv : Server) (sid : ℕ) (session : Session) (fid : ℤ) (parent : ℕ) (nwname : ℕ)
    (wname : Option (List UInt8)) : Response × Server :=
  if nwname = 0 then (.rwalk, srv)
  else
    match walkFrom srv session parent nwname wname with
    | (.error e, srv) => (.rerror e, srv)
    | (.ok v, srv) =>
      (.rwalk, (srv.setFs (vnodesRemove srv.fs parent).2).setFile sid session fid
        ⟨some v, oAccmode⟩)

def walkNew (srv : Server) (sid : ℕ) (session : Session) (newfid : ℤ) (parent : ℕ) (nwname : ℕ)
    (wname : Option (List UInt8)) (fileOk : Bool) : Response × Server :=
  match sessionCreateFile srv sid session newfid fileOk with
  | (some e, srv) => (.rerror e, srv)
  | (none, srv) =>
    match walkFrom srv session parent nwname wname with
    | (.error e, srv) => (.rerror e, (sessionDestroyFile srv sid newfid).2)
    | (.ok v, srv) => (.rwalk, srv.setFile sid session newfid ⟨some v, oAccmode⟩)

def ifWalk (srv : Server) (sid : ℕ) (fid newfid : ℤ) (nwname : ℕ) (wname : Option (List UInt8))
    (fileOk : Bool) : Response × Server :=
  match srv.findFile sid fid with
  | .error e => (.rerror e, srv)
  | .ok (session, file) =>
    if file.flag ≠ oAccmode then (.rerror .ebadf, srv)
    else
      match srv.vnodeOf file with
      | none => (.rerror .eio, srv)
      | some (parent, vnode) =>
        if nwname ≠ 0 ∧ vnode.isDir = false then (.rerror .enotdir, srv)
        else if newfid = fid then walkSelf srv sid session fid parent nwname wname
        else walkNew srv sid session newfid parent nwname wname fileOk

def ifOpen (srv : Server) (sid : ℕ) (fid : ℤ) (mode : ℕ) : Response × Server :=
  match srv.findFile sid fid with
  | .error e => (.rerror e, srv)
  | .ok (session, file) =>
    if file.flag ≠ oAccmode then (.rerror .ebusy, srv)
    else
      match srv.vnodeOf file with
      | none => (.rerror .eio, srv)
      | some (v, vnode) =>
        match vfsOpen srv.fs v mode session.permission with
        | (some e, fs) => (.rerror e, srv.setFs fs)
        | (none, fs) =>
          (.ropen vnode.index,
            (srv.setFs fs).setFile sid session fid { file with flag := mode &&& oAccmode })

def ifCreate (srv : Server) (sid : ℕ) (fid : ℤ) (name : Option (List UInt8)) (perm mode : ℕ) :
    Response × Server :=
  match srv.findFile sid fid with
  | .error e => (.rerror e, srv)
  | .ok (session, file) =>
    if file.flag ≠ oAccmode then (.rerror .ebadf, srv)
    else
      match srv.vnodeOf file with
      | none => (.rerror .eio, srv)
      | some (parent, vnode) =>
        if vnode.isDir = false then (.rerror .enotdir, srv)
        else
          match sessionGetPath session (some parent) name with
          | .error e => (.rerror e, srv)
          | .ok (_, none) => (.rerror .eio, srv)
          | .ok (path, some start) =>
            match vfsCreate srv.fs start path mode perm session.permission with
            | (.error e, fs) => (.rerror e, srv.setFs fs)
            | (.ok v, fs) =>
              (.rcreate fid, (srv.setFs (vnodesRemove fs parent).2).setFile sid session fid
                ⟨some v, mode &&& oAccmode⟩)

def ifRead (srv : Server) (sid : ℕ) (fid offset : ℤ) (count : ℕ) (faults : List Bool) :
    Response × Server :=
  match srv.findFile sid fid with
  | .error e => (.rerror e, srv)
  | .ok (_, file) =>
    if file.flag = oWronly then (.rerror .ebadf, srv)
    else if offset < 0 then (.rerror .einval, srv)
    else
      match srv.vnodeOf file with
      | none => (.rerror .eio, srv)
      | some (v, vnode) =>
        let offset := offset.toNat % 2 ^ 32
        match (if vnode.isDir = true then tfsGetdents srv.fs v ⟨[], faults⟩ offset count
          else vfsRead srv.fs v ⟨[], faults⟩ offset count) with
        | (some e, _, _, fs) => (.rerror e, srv.setFs fs)
        | (none, count, dest, fs) => (.rread count dest.data, srv.setFs fs)

/-- The zeros that `if_write` puts before data that starts behind the end of the file. Its buffer
has `pathMax` bytes, whatever the length. -/
def fillHole (s : Vfs) (v size offset : ℕ) (behind : ℕ → UInt8) : Option Errno × Vfs :=
  if size < offset then
    match tfsWrite s v (copyFrom fun i => if i < pathMax then 0 else behind (i - pathMax)) size
      (offset - size) with
    | (e, _, s) => (e, s)
  else (none, s)

def ifWrite (srv : Server) (sid : ℕ) (fid offset : ℤ) (count : ℕ) (data : Source)
    (behind : ℕ → UInt8) : Response × Server :=
  match srv.findFile sid fid with
  | .error e => (.rerror e, srv)
  | .ok (_, file) =>
    if file.flag = oRdonly then (.rerror .ebadf, srv)
    else if offset < 0 then (.rerror .einval, srv)
    else if count = 0 then (.rwrite 0, srv)
    else
      match srv.vnodeOf file with
      | none => (.rerror .eio, srv)
      | some (v, vnode) =>
        let offset := offset.toNat % 2 ^ 32
        match fillHole srv.fs v vnode.size offset behind with
        | (some e, fs) => (.rerror e, srv.setFs fs)
        | (none, fs) =>
          match tfsWrite fs v data offset count with
          | (some e, _, fs) => (.rerror e, srv.setFs fs)
          | (none, wrote, fs) => (.rwrite wrote, srv.setFs fs)

def ifClunk (srv : Server) (sid : ℕ) (fid : ℤ) : Response × Server :=
  match sessionDestroyFile srv sid fid with
  | (some e, srv) => (.rerror e, srv)
  | (none, srv) => (.rclunk, srv)

def ifRemove (srv : Server) (sid : ℕ) (fid : ℤ) : Response × Server :=
  match srv.findFile sid fid with
  | .error e => (.rerror e, srv)
  | .ok (session, file) =>
    match file.vnode with
    | none => (.rerror .eio, srv)
    | some v =>
      match vfsRemove srv.fs v session.permission with
      | (e, fs) =>
        let srv := (sessionDestroyFile (srv.setFs fs) sid fid).2
        match e with
        | some e => (.rerror e, srv)
        | none => (.rremove, srv)

def ifStat (srv : Server) (sid : ℕ) (fid : ℤ) (copyOk : Bool) : Response × Server :=
  match srv.findFile sid fid with
  | .error e => (.rerror e, srv)
  | .ok (_, file) =>
    match srv.vnodeOf file with
    | none => (.rerror .eio, srv)
    | some (_, vnode) =>
      if copyOk = false then (.rerror .efault, srv) else (.rstat (tfsStat srv.fs vnode), srv)

/-- `stat` is the mode that the caller asks for and the rest of its `struct stat`. -/
def ifWstat (srv : Server) (sid : ℕ) (fid : ℤ) (stat : Option (ℕ × Stat)) : Response × Server :=
  match srv.findFile sid fid with
  | .error e => (.rerror e, srv)
  | .ok (session, file) =>
    match srv.vnodeOf file with
    | none => (.rerror .eio, srv)
    | some (v, vnode) =>
      if vnode.uid ≠ session.permission.uid then (.rerror .eperm, srv)
      else
        match stat with
        | none => (.rerror .efault, srv)
        | some (mode, st) =>
          -- -1 has these bits too, so a mode is always set
          if mode &&& unmodifiableModeBits ≠ 0 then (.rerror .einval, srv)
          else
            match tfsWstat srv.fs v { st with mode := some mode } with
            | (some e, fs) => (.rerror e, srv.setFs fs)
            | (none, fs) => (.rwstat, srv.setFs fs)

def ifSync (srv : Server) : Response × Server :=
  let fs := vnodesSynchronize srv.fs
  match cacheFlush (fun _ => true) false fs.cache with
  | (failed, cache) => (.rsync failed, srv.setFs { fs with cache := cache })

def serve (srv : Server) (sid : ℕ) : Request → Response × Server
  | .attach fid afid uname sessionOk fileOk => ifAttach srv sid fid afid uname sessionOk fileOk
  | .walk fid newfid nwname wname fileOk => ifWalk srv sid fid newfid nwname wname fileOk
  | .openFid fid mode => ifOpen srv sid fid mode
  | .create fid name perm mode => ifCreate srv sid fid name perm mode
  | .read fid offset count faults => ifRead srv sid fid offset count faults
  | .write fid offset count data behind => ifWrite srv sid fid offset count data behind
  | .clunk fid => ifClunk srv sid fid
  | .remove fid => ifRemove srv sid fid
  | .stat fid copyOk => ifStat srv sid fid copyOk
  | .wstat fid stat => ifWstat srv sid fid stat
  | .sync => ifSync srv

def Server.step (srv : Server) (m : Message) : Response × Server :=
  serve (srv.setFs { srv.fs with clock := m.clock, stack := m.stack }) m.sid m.request

def Server.run (srv : Server) : List Message → Server
  | [] => srv
  | m :: ms => Server.run (srv.step m).2 ms

def Server.start (disk : ℕ → Lib.Bytes.Block) (faults : List Bool) (clock : Clock)
    (stack : ℕ → UInt8) : Option Server :=
  match vfsMount (fsInitialize disk faults clock stack) with
  | (some _, _) => none
  | (none, fs) => some ⟨fs, ∅⟩

theorem findFile_ok {srv : Server} {sid : ℕ} {session : Session} {fid : ℤ} {file : File}
    (h : srv.findFile sid fid = .ok (session, file)) :
    srv.sessions.lookup sid = some session ∧ session.files.lookup fid = some file := by
  unfold findFile at h
  cases hs : srv.sessions.lookup sid with
  | none =>
    rw [hs] at h
    cases h
  | some session' =>
    simp only [hs] at h
    cases hf : session'.files.lookup fid with
    | none =>
      rw [hf] at h
      cases h
    | some file' =>
      rw [hf] at h
      cases h
      exact ⟨rfl, hf⟩

def message (r : Request) : Message := ⟨0, ⟨0, 0, 0⟩, fun _ => 0, r⟩

def Server.startOn (disk : ℕ → Lib.Bytes.Block) : Option Server :=
  Server.start disk [] ⟨0, 0, 0⟩ fun _ => 0

end Eotan.Fs
