import Eotan.Fs.Server

/-!
The pipe server (`servers/pipe`): sessions with two channels, the fids on them, and the requests
that wait on a channel.
-/

namespace Eotan.Pipe

open Fs (Errno oAccmode oRdonly oWronly oExec oAppend oTrunc vfsCheckFlags getPath slash noFid)

def pageSize : ℕ := 4096

/-- A Tread or Twrite in a queue of the channel `channel` of its session. -/
structure Request where
  sid : ℕ
  channel : Bool
  tid : ℕ
  fid : ℤ
  tag : ℕ
  count : ℕ
  position : ℕ
  data : ℕ → UInt8

structure Channel where
  readers : List Request
  writers : List Request
  buf : ℕ → UInt8
  readPosition : ℕ
  writePosition : ℕ
  referCount : ℕ

structure File where
  channel : Option Bool
  flag : ℕ
  deriving DecidableEq

structure Session where
  files : AList fun _ : ℤ => File
  pair : Bool → Channel

inductive Signal where
  | segv
  | pipe
  deriving DecidableEq

/-- What the server sends; `kill` goes to the thread of the request. `rerror` answers the message
being served, `readFault` and `writeFault` are the EFAULT that a request of a queue gets. -/
inductive Event where
  | rattach (sid : ℕ)
  | rwalk
  | ropen (fid : ℤ)
  | rclunk
  | rread (req : Request)
  | rwrite (req : Request)
  | rerror (e : Errno)
  | readFault (req : Request)
  | writeFault (req : Request)
  | kill (req : Request) (signal : Signal)

structure Server where
  sessions : AList fun _ : ℕ => Session
  faults : List Bool

structure Conn where
  channel : Channel
  faults : List Bool
  out : List Event

namespace Conn

def emit (c : Conn) (e : Event) : Conn := { c with out := c.out ++ [e] }

def refuse (c : Conn) (req : Request) (answer : Event) (faults : List Bool) : Conn :=
  ({ c with faults := faults }.emit (.kill req .segv)).emit answer

def put (c : Conn) (req : Request) (len : ℕ) : Option Request × Conn :=
  match c.faults with
  | true :: faults => (none, c.refuse req (.readFault req) faults)
  | faults =>
    let p := c.channel
    let data := fun i =>
      if req.position ≤ i ∧ i < req.position + len then p.buf (p.readPosition + (i - req.position))
      else req.data i
    (some { req with position := req.position + len, data := data },
      { c with
        faults := faults.tail
        channel := { p with readPosition := (p.readPosition + len) % pageSize } })

def get (c : Conn) (req : Request) (len : ℕ) : Option Request × Conn :=
  match c.faults with
  | true :: faults => (none, c.refuse req (.writeFault req) faults)
  | faults =>
    let p := c.channel
    let buf := fun i =>
      if p.writePosition ≤ i ∧ i < p.writePosition + len then
        req.data (req.position + (i - p.writePosition))
      else p.buf i
    (some { req with position := req.position + len },
      { c with
        faults := faults.tail
        channel := { p with buf := buf, writePosition := (p.writePosition + len) % pageSize } })

end Conn

inductive Turn where
  | gone (moved : Bool) (c : Conn)
  | left (req : Request) (moved : Bool) (c : Conn)

/-- Serving `req` from `len` bytes that lie in a row; the request is done if it asks for no more. -/
def serveRun (copy : Conn → Request → ℕ → Option Request × Conn) (answer : Request → Event)
    (req : Request) (moved : Bool) (len : ℕ) (c : Conn) : Turn :=
  let rest := req.count - req.position
  if rest ≤ len then
    match copy c req rest with
    | (none, c) => .gone moved c
    | (some req, c) => .gone true (c.emit (answer req))
  else
    match copy c req len with
    | (none, c) => .gone moved c
    | (some req, c) => .left req true c

def readTurn (req : Request) (c : Conn) : Turn :=
  match
    if c.channel.writePosition < c.channel.readPosition then
      serveRun Conn.put .rread req false (pageSize - c.channel.readPosition) c
    else .left req false c
  with
  | .gone moved c => .gone moved c
  | .left req moved c =>
    if c.channel.readPosition < c.channel.writePosition then
      serveRun Conn.put .rread req moved (c.channel.writePosition - c.channel.readPosition) c
    else .left req moved c

/-- The loop of `_read` over the readers; `ended` tells that the other end has no user. Returns
whether something was read, and the readers that are left. -/
def readLoop (ended : Bool) : List Request → Conn → Bool × List Request × Conn
  | [], c => (false, [], c)
  | req :: rest, c =>
    match readTurn req c with
    | .gone moved c =>
      match readLoop ended rest c with
      | (again, l, c) => (moved || again, l, c)
    | .left req moved c =>
      if c.channel.writers ≠ [] then (moved, req :: rest, c)
      else if (moved || ended) = true then (moved, rest, c.emit (.rread req))
      else (moved, req :: rest, c)

def Conn.read (ended : Bool) (c : Conn) : Bool × Conn :=
  match readLoop ended c.channel.readers c with
  | (moved, readers, c) => (moved, { c with channel := { c.channel with readers := readers } })

def writeTurn (req : Request) (c : Conn) : Turn :=
  match
    if c.channel.readPosition ≤ c.channel.writePosition then
      serveRun Conn.get .rwrite req false
        (pageSize - c.channel.writePosition - if c.channel.readPosition = 0 then 1 else 0) c
    else .left req false c
  with
  | .gone moved c => .gone moved c
  | .left req moved c =>
    if 1 < c.channel.readPosition ∧ c.channel.writePosition < c.channel.readPosition - 1 then
      serveRun Conn.get .rwrite req moved
        (c.channel.readPosition - 1 - c.channel.writePosition) c
    else .left req moved c

def writeLoop : List Request → Conn → Bool × List Request × Conn
  | [], c => (false, [], c)
  | req :: rest, c =>
    match writeTurn req c with
    | .gone moved c =>
      match writeLoop rest c with
      | (again, l, c) => (moved || again, l, c)
    | .left req moved c => (moved, req :: rest, c)

def Conn.write (c : Conn) : Bool × Conn :=
  match writeLoop c.channel.writers c with
  | (moved, writers, c) => (moved, { c with channel := { c.channel with writers := writers } })

def readRounds (ended : Bool) : ℕ → Conn → Option Conn
  | 0, _ => none
  | n + 1, c =>
    match c.read ended with
    | (false, c) => some c
    | (true, c) =>
      match c.write with
      | (false, c) => some c
      | (true, c) => readRounds ended n c

def writeRounds (ended : Bool) : ℕ → Conn → Option Conn
  | 0, _ => none
  | n + 1, c =>
    match c.write with
    | (false, c) => some c
    | (true, c) =>
      match c.read ended with
      | (false, c) => some c
      | (true, c) => writeRounds ended n c

def unread (p : Channel) : ℕ := (p.readers.map fun r => r.count - r.position).sum

namespace Session

def setChannel (session : Session) (i : Bool) (p : Channel) : Session :=
  { session with pair := Function.update session.pair i p }

def setFile (session : Session) (fid : ℤ) (file : File) : Session :=
  { session with files := session.files.insert fid file }

end Session

namespace Server

def setSession (srv : Server) (sid : ℕ) (session : Session) : Server :=
  { srv with sessions := srv.sessions.insert sid session }

end Server

/-- The arguments of a request, with what the memory of the caller holds (`none` where it cannot be
read) and whether the memory that it takes can be had. -/
inductive Body where
  | attach (fid afid : ℤ) (sessionOk fileOk : Bool)
  | walk (fid newfid : ℤ) (nwname : ℕ) (wname : Option (List UInt8)) (fileOk : Bool)
  | openFid (fid : ℤ) (mode : ℕ)
  | read (fid : ℤ) (count : ℕ) (data : ℕ → UInt8) (requestOk : Bool)
  | write (fid : ℤ) (count : ℕ) (data : ℕ → UInt8) (requestOk : Bool)
  | clunk (fid : ℤ)

structure Message where
  sid : ℕ
  tid : ℕ
  tag : ℕ
  body : Body

def channelInitial : Channel where
  readers := []
  writers := []
  buf := fun _ => 0
  readPosition := 0
  writePosition := 0
  referCount := 0

def sessionCreateFile (session : Session) (fid : ℤ) (fileOk : Bool) : Except Errno Session :=
  if fileOk = false then .error .enfile
  else if (session.files.lookup fid).isSome then .error .eaddrinuse
  else .ok (session.setFile fid ⟨none, 0⟩)

def ifAttach (srv : Server) (sid : ℕ) (fid afid : ℤ) (sessionOk fileOk : Bool) :
    List Event × Server :=
  if afid ≠ noFid then ([.rerror .einval], srv)
  else if sessionOk = false ∨ (srv.sessions.lookup sid).isSome then ([.rerror .enomem], srv)
  else
    match sessionCreateFile ⟨∅, fun _ => channelInitial⟩ fid fileOk with
    | .error e => ([.rerror e], srv)
    | .ok session => ([.rattach sid], srv.setSession sid (session.setFile fid ⟨none, oAccmode⟩))

def releaseRequests (session : Session) (i : Bool) : List Event × Session :=
  let readers := (session.pair (!i)).readers.map Event.rread
  let writers := (session.pair i).writers.flatMap fun req => [.kill req .pipe, .rwrite req]
  let session := session.setChannel (!i) { session.pair (!i) with readers := [] }
  (readers ++ writers, session.setChannel i { session.pair i with writers := [] })

def leaveChannel (session : Session) (channel : Option Bool) : List Event × Session :=
  match channel with
  | none => ([], session)
  | some i =>
    let p := session.pair i
    if 0 < p.referCount then
      let session := session.setChannel i { p with referCount := p.referCount - 1 }
      if p.referCount - 1 = 0 then releaseRequests session i else ([], session)
    else ([], session)

def sessionDestroyFile (srv : Server) (sid : ℕ) (session : Session) (fid : ℤ) :
    Except Errno (List Event × Server) :=
  match session.files.lookup fid with
  | none => .error .ebadf
  | some file =>
    match leaveChannel { session with files := session.files.erase fid } file.channel with
    | (out, session) =>
      if session.files.keys = [] then
        .ok (out, { srv with sessions := srv.sessions.erase sid })
      else .ok (out, srv.setSession sid session)

def nameData : List UInt8 := [100, 97, 116, 97]
def nameData1 : List UInt8 := [100, 97, 116, 97, 49]

def deviceLookup (name : List UInt8) : Option Bool :=
  if name = nameData then some false else if name = nameData1 then some true else none

def walkChannel (nwname : ℕ) (wname : Option (List UInt8)) : Except Errno (Option Bool) :=
  if nwname = 0 then .ok none
  else
    match getPath wname with
    | .error e => .error e
    | .ok path =>
      match deviceLookup (if path.head? = some slash then path.tail else path) with
      | none => .error .enoent
      | some i => .ok (some i)

def ifWalk (srv : Server) (sid : ℕ) (fid newfid : ℤ) (nwname : ℕ) (wname : Option (List UInt8))
    (fileOk : Bool) : List Event × Server :=
  match srv.sessions.lookup sid with
  | none => ([.rerror .eperm], srv)
  | some session =>
    match session.files.lookup fid with
    | none => ([.rerror .ebadf], srv)
    | some parent =>
      if parent.flag ≠ oAccmode then ([.rerror .ebadf], srv)
      else if nwname ≠ 0 ∧ parent.channel ≠ none then ([.rerror .enotdir], srv)
      else if newfid = fid then
        if nwname = 0 then ([.rwalk], srv)
        else
          match walkChannel nwname wname with
          | .error e => ([.rerror e], srv)
          | .ok channel =>
            ([.rwalk], srv.setSession sid
              (session.setFile fid ⟨channel.or parent.channel, oAccmode⟩))
      else
        match sessionCreateFile session newfid fileOk with
        | .error e => ([.rerror e], srv)
        | .ok session =>
          match walkChannel nwname wname with
          | .error e =>
            match sessionDestroyFile srv sid session newfid with
            | .error _ => ([.rerror e], srv)
            | .ok (out, srv) => (out ++ [.rerror e], srv)
          | .ok channel => ([.rwalk], srv.setSession sid (session.setFile newfid ⟨channel, oAccmode⟩))

def ifOpen (srv : Server) (sid : ℕ) (fid : ℤ) (mode : ℕ) : List Event × Server :=
  match srv.sessions.lookup sid with
  | none => ([.rerror .eperm], srv)
  | some session =>
    match session.files.lookup fid with
    | none => ([.rerror .ebadf], srv)
    | some file =>
      match file.channel with
      | none => ([.rerror .eisdir], srv)
      | some i =>
        if file.flag ≠ oAccmode then ([.rerror .ebusy], srv)
        else if mode &&& oExec ≠ 0 then ([.rerror .eacces], srv)
        else if vfsCheckFlags mode = false ∨ mode &&& (oAppend ||| oTrunc) ≠ 0 then
          ([.rerror .einval], srv)
        else
          let p := session.pair i
          let session := session.setFile fid { file with flag := mode &&& oAccmode }
          ([.ropen fid], srv.setSession sid
            (session.setChannel i { p with referCount := p.referCount + 1 }))

def ifClunk (srv : Server) (sid : ℕ) (fid : ℤ) : List Event × Server :=
  match srv.sessions.lookup sid with
  | none => ([.rerror .eperm], srv)
  | some session =>
    match sessionDestroyFile srv sid session fid with
    | .error e => ([.rerror e], srv)
    | .ok (out, srv) => (out ++ [.rclunk], srv)

def settle (srv : Server) (sid : ℕ) (session : Session) (i : Bool) (c : Conn) :
    List Event × Server :=
  (c.out, { srv with faults := c.faults }.setSession sid (session.setChannel i c.channel))

/-- Without a result the loop has not ended. -/
def ifRead (srv : Server) (m : Message) (fid : ℤ) (count : ℕ) (data : ℕ → UInt8)
    (requestOk : Bool) : Option (List Event × Server) :=
  match srv.sessions.lookup m.sid with
  | none => some ([.rerror .eperm], srv)
  | some session =>
    match session.files.lookup fid with
    | none => some ([.rerror .ebadf], srv)
    | some file =>
      if file.flag = oWronly ∨ file.flag = oAccmode then some ([.rerror .ebadf], srv)
      else
        match file.channel with
        | none => none
        | some i =>
          let req : Request := ⟨m.sid, i, m.tid, fid, m.tag, count, 0, data⟩
          if count = 0 then some ([.rread req], srv)
          else if requestOk = false then some ([.rerror .enobufs], srv)
          else
            let p := session.pair i
            let p := { p with readers := p.readers ++ [req] }
            (readRounds (decide ((session.pair (!i)).referCount = 0)) (unread p + 1)
              ⟨p, srv.faults, []⟩).map (settle srv m.sid session i)

def ifWrite (srv : Server) (m : Message) (fid : ℤ) (count : ℕ) (data : ℕ → UInt8)
    (requestOk : Bool) : Option (List Event × Server) :=
  match srv.sessions.lookup m.sid with
  | none => some ([.rerror .eperm], srv)
  | some session =>
    match session.files.lookup fid with
    | none => some ([.rerror .ebadf], srv)
    | some file =>
      if file.flag = oRdonly ∨ file.flag = oAccmode then some ([.rerror .ebadf], srv)
      else
        match file.channel with
        | none => none
        | some j =>
          let i := !j
          let req : Request := ⟨m.sid, i, m.tid, fid, m.tag, count, 0, data⟩
          let p := session.pair i
          if p.referCount = 0 then some ([.kill req .pipe, .rwrite req], srv)
          else if count = 0 then some ([.rwrite req], srv)
          else if requestOk = false then some ([.rerror .enobufs], srv)
          else
            let p := { p with writers := p.writers ++ [req] }
            (writeRounds (decide ((session.pair (!i)).referCount = 0)) (unread p + 1)
              ⟨p, srv.faults, []⟩).map (settle srv m.sid session i)

def Server.step (srv : Server) (m : Message) : Option (List Event × Server) :=
  match m.body with
  | .attach fid afid sessionOk fileOk => some (ifAttach srv m.sid fid afid sessionOk fileOk)
  | .walk fid newfid nwname wname fileOk => some (ifWalk srv m.sid fid newfid nwname wname fileOk)
  | .openFid fid mode => some (ifOpen srv m.sid fid mode)
  | .read fid count data requestOk => ifRead srv m fid count data requestOk
  | .write fid count data requestOk => ifWrite srv m fid count data requestOk
  | .clunk fid => some (ifClunk srv m.sid fid)

def Server.run (srv : Server) : List Message → Option (List Event × Server)
  | [] => some ([], srv)
  | m :: ms => do
    let (out, srv) ← srv.step m
    let (more, srv) ← Server.run srv ms
    some (out ++ more, srv)

def Server.start (faults : List Bool) : Server := ⟨∅, faults⟩

end Eotan.Pipe
