import Eotan.Fs.Server
import Eotan.Mm.IdStore

/-!
The open files of the process server (`file.c`, `proxy.c`, and the parts of `pm.c` that open, share
and close them): sessions with other servers, files with their counts, and the descriptors, roots and
namespaces of the processes. A request runs to its end before the next one. The servers are whatever
answers the messages.
-/

namespace Eotan.Mm

open Fs (Errno)
open Sequence (Seq sequenceGet sequenceRelease)

structure OpenFile where
  sid : ℕ
  count : ℤ

structure Holder where
  uid : ℕ
  descs : AList fun _ : ℤ => ℕ
  root : Option ℕ
  namespaces : List (List UInt8 × ℕ)

inductive Packet where
  | tattach (fid uname : ℕ)
  | twalk (fid newfid nwname : ℕ) (wname : List UInt8)
  | topen (fid mode : ℕ)
  | tcreate (fid : ℕ) (name : List UInt8) (perm mode : ℕ)
  | tclunk (fid : ℕ)
  | tstat (fid : ℕ)

inductive FileEvent where
  | made (fid : ℕ)
  | clunked (fid : ℕ)
  | ended (sid : ℕ) (server : Option ℕ)
  deriving DecidableEq

structure Files (σ : Type) where
  servers : σ
  files : AList fun _ : ℕ => OpenFile
  sessions : AList fun _ : ℕ => ℕ
  fileSequence : Seq
  sessionSequence : Seq
  holders : AList fun _ : ℕ => Holder
  faults : List Bool
  log : List FileEvent

def filesPerProcess : ℕ := 1024
def pathMax : ℕ := 1024
def slash : UInt8 := 47
def oExec : ℕ := 0x04
def oTrunc : ℕ := 0x0400

def createSid (server sequence : ℕ) : ℕ := server * 2 ^ 16 + sequence

def sequenceFromSid (sid : ℕ) : ℕ := sid % 2 ^ 16

/-- The root for a path, and what is left to walk: the first namespace whose name is the beginning of
the path. `len` is 0 where the file wanted is the root of the path. -/
def resolve (h : Holder) (path : List UInt8) (len : ℕ) : Option ℕ × ℕ × List UInt8 :=
  match h.namespaces.find? fun ns => ns.1.isPrefixOf path &&
      ((path.drop ns.1.length).head?.getD slash == slash) with
  | none => (h.root, len, path)
  | some ns =>
    let rest := path.drop ns.1.length
    if rest = [] then (some ns.2, 1, [slash]) else (some ns.2, len - ns.1.length, rest)

def newFd (h : Holder) : Option ℕ :=
  (List.range filesPerProcess).find? fun fd => (h.descs.lookup (fd : ℤ)).isNone

def splitPath (path : List UInt8) : List UInt8 × List UInt8 :=
  let name := (path.reverse.takeWhile (· ≠ slash)).reverse
  (path.take (path.length - name.length - 1), name)

/-- Where `mm_exec` ends once the file is open: before the old image is gone, afterwards with the file
open, when the thread does not start, or well. -/
inductive ExecEnd where
  | refused (e : Errno)
  | broken
  | stopped
  | success

namespace Files

variable {σ : Type} (call : σ → ℕ → ℕ → Packet → Option Errno × σ)

def slabAlloc (s : Files σ) : Bool × Files σ :=
  match s.faults with
  | [] => (true, s)
  | fault :: faults => (!fault, { s with faults := faults })

def note (s : Files σ) (e : FileEvent) : Files σ := { s with log := s.log ++ [e] }

def setHolder (s : Files σ) (pid : ℕ) (h : Holder) : Files σ :=
  { s with holders := s.holders.insert pid h }

def setCount (s : Files σ) (fid : ℕ) (file : OpenFile) (count : ℤ) : Files σ :=
  { s with files := s.files.insert fid { file with count := count } }

def sessionCreate (s : Files σ) (server : ℕ) : Option ℕ × Files σ :=
  match sequenceGet s.sessionSequence with
  | (none, sequence) => (none, { s with sessionSequence := sequence })
  | (some n, sequence) =>
    match slabAlloc { s with sessionSequence := sequence } with
    -- the number is not given back
    | (false, s) => (none, s)
    | (true, s) =>
      if (s.sessions.lookup (createSid server n)).isSome then
        (none, { s with sessionSequence := sequenceRelease s.sessionSequence n })
      else
        (some (createSid server n),
          { s with sessions := s.sessions.insert (createSid server n) server })

def sessionDestroy (s : Files σ) (sid : ℕ) : Files σ :=
  { s with
    sessions := s.sessions.erase sid
    sessionSequence := sequenceRelease s.sessionSequence (sequenceFromSid sid) }

def sessionCreateFile (s : Files σ) (sid : ℕ) : Option ℕ × Files σ :=
  match sequenceGet s.fileSequence with
  | (none, sequence) => (none, { s with fileSequence := sequence })
  | (some fid, sequence) =>
    match slabAlloc { s with fileSequence := sequence } with
    | (false, s) => (none, { s with fileSequence := sequenceRelease s.fileSequence fid })
    | (true, s) =>
      if (s.files.lookup fid).isSome then
        (none, { s with fileSequence := sequenceRelease s.fileSequence fid })
      else (some fid, { s with files := s.files.insert fid ⟨sid, 0⟩ })

def sessionDestroyFile (s : Files σ) (fid : ℕ) : Files σ :=
  match s.files.lookup fid with
  | none => s
  | some file =>
    have s := { s with files := s.files.erase fid }
    let s := if s.files.entries.any (fun e => e.2.sid == file.sid) = true then s
      else s.sessionDestroy file.sid
    { s with fileSequence := sequenceRelease s.fileSequence fid }

def callDevice (s : Files σ) (sid : ℕ) (p : Packet) : Option Errno × Files σ :=
  match s.sessions.lookup sid with
  | none => (some .econnrefused, s)
  | some server =>
    match call s.servers server sid p with
    | (e, servers) => (e, { s with servers := servers })

def made (s : Files σ) (sid fid : ℕ) : Files σ := (s.setCount fid ⟨sid, 0⟩ 1).note (.made fid)

def attach (s : Files σ) (server uid : ℕ) : Except Errno ℕ × Files σ :=
  match s.sessionCreate server with
  | (none, s) => (.error .enomem, s)
  | (some sid, s) =>
    match s.sessionCreateFile sid with
    | (none, s) => (.error .enomem, s.sessionDestroy sid)
    | (some fid, s) =>
      match s.callDevice call sid (.tattach fid uid) with
      | (some e, s) => (.error e, s.sessionDestroyFile fid)
      | (none, s) => (.ok fid, s.made sid fid)

def walk (s : Files σ) (h : Holder) (path : List UInt8) (len : ℕ) : Except Errno ℕ × Files σ :=
  match resolve h path len with
  | (none, _, _) => (.error .econnrefused, s)
  | (some root, nwname, wname) =>
    match s.files.lookup root with
    | none => (.error .econnrefused, s)
    | some file =>
      match s.sessionCreateFile file.sid with
      | (none, s) => (.error .enomem, s)
      | (some fid, s) =>
        match s.callDevice call file.sid (.twalk root fid nwname wname) with
        | (some e, s) => (.error e, s.sessionDestroyFile fid)
        | (none, s) => (.ok fid, s.made file.sid fid)

def fileCall (s : Files σ) (fid : ℕ) (p : Packet) : Option Errno × Files σ :=
  match s.files.lookup fid with
  | none => (some .econnrefused, s)
  | some file => s.callDevice call file.sid p

def clunk (s : Files σ) (fid : ℕ) : Option Errno × Files σ :=
  match s.files.lookup fid with
  | none => (none, s)
  | some file =>
    let s := s.setCount fid file (file.count - 1)
    if file.count - 1 > 0 then (none, s)
    else
      match s.callDevice call file.sid (.tclunk fid) with
      | (e, s) =>
        let s' := (s.note (.clunked fid)).sessionDestroyFile fid
        (e, if (s'.sessions.lookup file.sid).isNone then
          s'.note (.ended file.sid (s.sessions.lookup file.sid)) else s')

def clunkAll (s : Files σ) (l : List ℕ) : Files σ := l.foldl (fun s fid => (s.clunk call fid).2) s

def retain (s : Files σ) (fid : ℕ) : Files σ :=
  match s.files.lookup fid with
  | none => s
  | some file => s.setCount fid file (file.count + 1)

def filesOf (h : Holder) : List ℕ :=
  h.descs.entries.map (·.2) ++ h.root.toList ++ h.namespaces.map (·.2)

def destroy (s : Files σ) (pid : ℕ) (h : Holder) : Files σ :=
  clunkAll call { s with holders := s.holders.erase pid } (filesOf h)

def openWith (s : Files σ) (pid : ℕ) (h : Holder) (fd : ℕ) (path : List UInt8) (oflag : ℕ) :
    Except Errno ℤ × Files σ :=
  match s.walk call h path path.length with
  | (.error e, s) => (.error e, s)
  | (.ok fid, s) =>
    match s.fileCall call fid (.topen fid oflag) with
    | (some e, s) => (.error e, (s.clunk call fid).2)
    | (none, s) => (.ok fd, s.setHolder pid { h with descs := h.descs.insert fd fid })

def walkChild (s : Files σ) (fid : ℕ) (name : List UInt8) : Option Errno × Files σ :=
  if pathMax ≤ name.length then (some .enametoolong, s)
  else s.fileCall call fid (.twalk fid fid name.length name)

def createChild (s : Files σ) (fid : ℕ) (name : List UInt8) (oflag perm : ℕ) :
    Option Errno × Files σ :=
  match s.walkChild call fid name with
  | (none, s) => s.fileCall call fid (.topen fid (oflag ||| oTrunc))
  | (some _, s) =>
    match s.fileCall call fid (.tcreate fid name perm oflag) with
    | (none, s) => (none, s)
    | (some e, s) =>
      match s.walkChild call fid name with
      | (some _, s) => (some e, s)
      | (none, s) => s.fileCall call fid (.topen fid (oflag ||| oTrunc))

def createWith (s : Files σ) (pid : ℕ) (h : Holder) (fd : ℕ) (path : List UInt8) (oflag perm : ℕ) :
    Except Errno ℤ × Files σ :=
  match splitPath path with
  | (dir, name) =>
    match if dir = [] then s.walk call h path 0 else s.walk call h dir dir.length with
    | (.error e, s) => (.error e, s)
    | (.ok fid, s) =>
      match s.createChild call fid name oflag perm with
      | (some e, s) => (.error e, (s.clunk call fid).2)
      | (none, s) =>
        let s := match s.files.lookup fid with
          | none => s
          | some file => s.setCount fid file 1
        (.ok fd, s.setHolder pid { h with descs := h.descs.insert fd fid })

/-- `process_create_desc` and the rest of the request; `none` is a write through a null pointer. -/
def withDesc (s : Files σ) (h : Holder)
    (rest : Files σ → ℕ → Except Errno ℤ × Files σ) : Option (Except Errno ℤ × Files σ) :=
  match newFd h with
  | none => some (.error .enomem, s)
  | some fd =>
    match s.slabAlloc with
    | (false, _) => none
    | (true, s) => some (rest s fd)

def mmOpen (s : Files σ) (pid : ℕ) (h : Holder) (path : Except Errno (List UInt8)) (oflag : ℕ) :
    Option (Except Errno ℤ × Files σ) :=
  s.withDesc h fun s fd =>
    match path with
    | .error e => (.error e, s)
    | .ok path => s.openWith call pid h fd path oflag

def mmCreate (s : Files σ) (pid : ℕ) (h : Holder) (path : Except Errno (List UInt8))
    (oflag perm : ℕ) : Option (Except Errno ℤ × Files σ) :=
  match path with
  | .error e => some (.error e, s)
  | .ok path => s.withDesc h fun s fd => s.createWith call pid h fd path oflag perm

def mmClose (s : Files σ) (pid : ℕ) (h : Holder) (fd : ℤ) : Except Errno ℤ × Files σ :=
  match h.descs.lookup fd with
  | none => (.error .ebadf, s)
  | some fid =>
    match (s.setHolder pid { h with descs := h.descs.erase fd }).clunk call fid with
    | (some e, s) => (.error e, s)
    | (none, s) => (.ok 0, s)

def mmDup (s : Files σ) (pid : ℕ) (h : Holder) (fd fd2 : ℤ) : Option (Except Errno ℤ × Files σ) :=
  match h.descs.lookup fd with
  | none => some (.error .ebadf, s)
  | some fid =>
    if fd = fd2 then some (.ok fd2, s)
    else if fd2 < 0 then some (.error .einval, s)
    else
      match h.descs.lookup fd2 with
      | some fid2 =>
        let s := (s.clunk call fid2).2
        some (.ok fd2, (s.setHolder pid { h with descs := h.descs.insert fd2 fid }).retain fid)
      | none =>
        match s.slabAlloc with
        | (false, _) => none
        | (true, s) =>
          some (.ok fd2, (s.setHolder pid { h with descs := h.descs.insert fd2 fid }).retain fid)

def mmChdir (s : Files σ) (h : Holder) (path : Except Errno (List UInt8)) (isDir : Bool) :
    Except Errno ℤ × Files σ :=
  match path with
  | .error e => (.error e, s)
  | .ok path =>
    match s.walk call h path path.length with
    | (.error e, s) => (.error e, s)
    | (.ok fid, s) =>
      match s.fileCall call fid (.tstat fid) with
      | (e, s) =>
        let s := (s.clunk call fid).2
        match e with
        | some e => (.error e, s)
        | none => if isDir = true then (.ok 0, s) else (.error .enotdir, s)

def dupDescs (s : Files σ) : List ℕ → Option (Files σ)
  | [] => some s
  | fid :: l =>
    match s.slabAlloc with
    | (false, _) => none
    | (true, s) => dupDescs (s.retain fid) l

def dupNamespaces (s : Files σ) : List ℕ → Bool × Files σ
  | [] => (true, s)
  | fid :: l =>
    match s.slabAlloc with
    | (false, s) => (false, s)
    | (true, s) => dupNamespaces (s.retain fid) l

/-- `mm_rfork`; `child` is the result of `process_duplicate`. The new process of a fork that fails
later is destroyed, with what it has of files. -/
def mmRfork (s : Files σ) (h : Holder) (child : Except Errno ℕ) (started : Bool) :
    Option (Except Errno ℤ × Files σ) :=
  match child with
  | .error e => some (.error e, s)
  | .ok child =>
    if (s.holders.lookup child).isSome then some (.error .eagain, s)
    else
      match s.dupDescs (h.descs.entries.map (·.2)) with
      | none => none
      | some s =>
        match dupNamespaces (h.root.toList.foldl retain s) (h.namespaces.map (·.2)) with
        | (false, s) => some (.error .enomem, s)
        | (true, s) =>
          if started = false then some (.error .ebusy, s)
          else some (.ok child, s.setHolder child h)

def mmExec (s : Files σ) (pid : ℕ) (h : Holder) (path : Except Errno (List UInt8)) (ending : ExecEnd) :
    Except Errno ℤ × Files σ :=
  match path with
  | .error e => (.error e, s)
  | .ok path =>
    match s.walk call h path path.length with
    | (.error e, s) => (.error e, s)
    | (.ok fid, s) =>
      match s.fileCall call fid (.topen fid oExec) with
      | (some e, s) => (.error e, (s.clunk call fid).2)
      | (none, s) =>
        let s := (s.clunk call fid).2
        match ending with
        | .refused e => (.error e, s)
        | .broken | .stopped => (.error .enoexec, s.destroy call pid h)
        | .success => (.ok 0, s)

def removeNamespace (s : Files σ) (pid : ℕ) (h : Holder) (name : List UInt8) : Holder × Files σ :=
  let h' := { h with namespaces := h.namespaces.filter fun ns => ns.1 ≠ name }
  (h', clunkAll call (s.setHolder pid h')
    ((h.namespaces.filter fun ns => ns.1 = name).map (·.2)))

/-- `mm_bind`; `target` is the server of the device and the path, if the arguments are right. -/
def mmBind (s : Files σ) (pid : ℕ) (h : Holder) (target : Except Errno (ℕ × List UInt8)) :
    Except Errno ℤ × Files σ :=
  match target with
  | .error e => (.error e, s)
  | .ok (server, path) =>
    if path = [slash] then
      match s.attach call server h.uid with
      | (.error e, s) => (.error e, s)
      | (.ok fid, s) =>
        (.ok 0, clunkAll call (s.setHolder pid { h with root := some fid }) h.root.toList)
    else
      match s.slabAlloc with
      | (false, s) => (.error .enomem, s)
      | (true, s) =>
        match s.attach call server h.uid with
        | (.error e, s) => (.error e, s)
        | (.ok fid, s) =>
          match s.removeNamespace call pid h path with
          | (h, s) =>
            (.ok 0, s.setHolder pid { h with namespaces := h.namespaces ++ [(path, fid)] })

def mmUnmount (s : Files σ) (pid : ℕ) (h : Holder) (path : Except Errno (List UInt8)) :
    Except Errno ℤ × Files σ :=
  match path with
  | .error e => (.error e, s)
  | .ok path => (.ok 0, (s.removeNamespace call pid h path).2)

end Files

/-- A path is what `get_path` and `calc_path` make of the argument. -/
inductive FileRequest where
  | bind (target : Except Errno (ℕ × List UInt8))
  | unmount (path : Except Errno (List UInt8))
  | openPath (path : Except Errno (List UInt8)) (oflag : ℕ)
  | create (path : Except Errno (List UInt8)) (oflag perm : ℕ)
  | close (fd : ℤ)
  | dup (fd fd2 : ℤ)
  | chdir (path : Except Errno (List UInt8)) (isDir : Bool)
  | rfork (child : Except Errno ℕ) (started : Bool)
  | exec (path : Except Errno (List UInt8)) (ending : ExecEnd)
  | exit

namespace Files

variable {σ : Type} (call : σ → ℕ → ℕ → Packet → Option Errno × σ)

def serve (s : Files σ) (pid : ℕ) (h : Holder) : FileRequest → Option (Except Errno ℤ × Files σ)
  | .bind target => some (s.mmBind call pid h target)
  | .unmount path => some (s.mmUnmount call pid h path)
  | .openPath path oflag => s.mmOpen call pid h path oflag
  | .create path oflag perm => s.mmCreate call pid h path oflag perm
  | .close fd => some (s.mmClose call pid h fd)
  | .dup fd fd2 => s.mmDup call pid h fd fd2
  | .chdir path isDir => some (s.mmChdir call h path isDir)
  | .rfork child started => s.mmRfork h child started
  | .exec path ending => some (s.mmExec call pid h path ending)
  | .exit => some (.ok 0, s.destroy call pid h)

def step (s : Files σ) (r : ℕ × FileRequest) : Option (Except Errno ℤ × Files σ) :=
  match s.holders.lookup r.1 with
  | none => some (.error .eperm, s)
  | some h => s.serve call r.1 h r.2

/-- A run of requests, each with its process; `none` if one of them writes through a null pointer. -/
def run (s : Files σ) : List (ℕ × FileRequest) → Option (Files σ)
  | [] => some s
  | r :: rs =>
    match s.step call r with
    | none => none
    | some (_, s) => run s rs

def start (servers : σ) (faults : List Bool) : Files σ where
  servers := servers
  files := ∅
  sessions := ∅
  fileSequence := createIdStore
  sessionSequence := createIdStore
  holders := AList.singleton 1 ⟨0, ∅, none, []⟩
  faults := faults
  log := []

end Files

end Eotan.Mm
