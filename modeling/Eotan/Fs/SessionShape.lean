import Eotan.Fs.Server

namespace Eotan.Fs

open Function

def Session.fids (session : Session) : Set ℤ := {fid | (session.files.lookup fid).isSome = true}

def Server.shape (srv : Server) (sid : ℕ) : Option (Set ℤ) :=
  (srv.sessions.lookup sid).map Session.fids

def Response.error : Response → Option Errno
  | .rerror e => some e
  | _ => none

open Server

variable {srv srv' : Server} {sid : ℕ} {fid : ℤ} {session : Session} {file : File} {r : Response}

@[simp] theorem setFs_shape (srv : Server) (fs : Vfs) : (srv.setFs fs).shape = srv.shape := rfl

theorem setSession_shape (srv : Server) (sid : ℕ) (session : Session) :
    (srv.setSession sid session).shape = update srv.shape sid (some session.fids) := by
  funext sid'
  change ((srv.sessions.insert sid session).lookup sid').map _ = _
  by_cases heq : sid' = sid
  · rw [heq, AList.lookup_insert, update_self]
    rfl
  · rw [AList.lookup_insert_ne heq, update_of_ne heq]
    rfl

theorem fids_insert (session : Session) (fid : ℤ) (file : File) :
    ({ session with files := session.files.insert fid file } : Session).fids =
      insert fid session.fids := by
  ext fid'
  change ((session.files.insert fid file).lookup fid').isSome = true ↔ fid' ∈ insert fid session.fids
  by_cases heq : fid' = fid
  · rw [heq, AList.lookup_insert]
    simp
  · rw [AList.lookup_insert_ne heq, Set.mem_insert_iff]
    simp [heq, Session.fids]

theorem fids_erase (session : Session) (fid : ℤ) :
    ({ session with files := session.files.erase fid } : Session).fids = session.fids \ {fid} := by
  ext fid'
  change ((session.files.erase fid).lookup fid').isSome = true ↔ fid' ∈ session.fids \ {fid}
  by_cases heq : fid' = fid
  · rw [heq, AList.lookup_erase]
    simp
  · rw [AList.lookup_erase_ne heq]
    simp [heq, Session.fids]

theorem setFile_shape (srv : Server) (sid : ℕ) (session : Session) (fid : ℤ) (file : File) :
    (srv.setFile sid session fid file).shape = update srv.shape sid (some (insert fid session.fids)) := by
  rw [setFile, setSession_shape, fids_insert]

theorem shape_of_lookup (h : srv.sessions.lookup sid = some session) : srv.shape sid = some session.fids := by
  rw [shape, h]
  rfl

theorem findFile_shape (h : srv.findFile sid fid = .ok (session, file)) :
    srv.shape sid = some session.fids ∧ fid ∈ session.fids := by
  obtain ⟨hs, hf⟩ := findFile_ok h
  refine ⟨shape_of_lookup hs, ?_⟩
  change (session.files.lookup fid).isSome = true
  rw [hf]
  rfl

theorem setFile_same (hshape : srv.shape sid = some session.fids) (hfid : fid ∈ session.fids)
    (file : File) : (srv.setFile sid session fid file).shape = srv.shape := by
  rw [setFile_shape, Set.insert_eq_of_mem hfid, ← hshape, update_eq_self]

theorem sessionDestroyFile_shape (srv : Server) (sid : ℕ) (fid : ℤ) :
    (sessionDestroyFile srv sid fid).2.shape = update srv.shape sid ((srv.shape sid).map (· \ {fid})) := by
  unfold sessionDestroyFile
  cases hfind : srv.findFile sid fid with
  | error e =>
    -- there is no such fid
    have hsame : (srv.shape sid).map (· \ {fid}) = srv.shape sid := by
      unfold findFile at hfind
      cases hs : srv.sessions.lookup sid with
      | none => simp [shape, hs]
      | some session =>
        simp only [hs] at hfind
        cases hf : session.files.lookup fid with
        | some file => simp [hf] at hfind
        | none =>
          rw [shape_of_lookup hs, Option.map_some, Set.sdiff_singleton_eq_self]
          change ¬(session.files.lookup fid).isSome = true
          simp [hf]
    rw [hsame, update_eq_self]
  | ok found =>
    obtain ⟨session, file⟩ := found
    have herase : (srv.setSession sid { session with files := session.files.erase fid }).shape =
        update srv.shape sid ((srv.shape sid).map (· \ {fid})) := by
      rw [setSession_shape, fids_erase, (findFile_shape hfind).1]
      rfl
    simp only
    cases file.vnode with
    | none => exact herase
    | some v => exact herase

theorem ifClunk_shape (srv : Server) (sid : ℕ) (fid : ℤ) : (ifClunk srv sid fid).2.shape =
      update srv.shape sid ((srv.shape sid).map (· \ {fid})) := by
  rw [← sessionDestroyFile_shape]
  unfold ifClunk
  rcases sessionDestroyFile srv sid fid with ⟨_ | e, srv'⟩
  · rfl
  · rfl

variable {fileOk : Bool} {nwname : ℕ} {wname : Option (List UInt8)}

theorem ifAttach_shape {afid : ℤ} {uname : ℕ} {sessionOk : Bool}
    (h : ifAttach srv sid fid afid uname sessionOk fileOk = (r, srv')) :
    r.error.isSome = true ∧ srv'.shape = srv.shape ∨ r.error = none ∧ srv.shape sid = none ∧
        srv'.shape = update srv.shape sid (some {fid}) := by
  unfold ifAttach at h
  iterate 2
    split at h
    · cases h
      exact .inl ⟨rfl, rfl⟩
  rename_i hnot
  iterate 2
    split at h
    · cases h
      exact .inl ⟨rfl, rfl⟩
  cases h
  refine .inr ⟨rfl, ?_, ?_⟩
  · have hnone : srv.sessions.lookup sid = none := by
      push Not at hnot
      simpa using hnot.2
    rw [shape, hnone]
    rfl
  · rw [setFile_shape]
    have hempty : ∀ p : Permission, ∀ root : Option ℕ, (⟨p, root, ∅⟩ : Session).fids = ∅ := by
      intro p root
      ext fid
      simp [Session.fids]
    rw [hempty, setFs_shape]
    simp

theorem walkFrom_shape {parent : ℕ} {e : Except Errno ℕ}
    (h : walkFrom srv session parent nwname wname = (e, srv')) : srv'.shape = srv.shape := by
  unfold walkFrom at h
  split at h
  · cases h
    rfl
  split at h
  · cases h
    rfl
  · cases h
    rfl

theorem sessionCreateFile_shape {e : Option Errno}
    (h : sessionCreateFile srv sid session fid fileOk = (e, srv')) :
    e.isSome = true ∧ srv'.shape = srv.shape ∨ e = none ∧ fid ∉ session.fids ∧
      srv'.shape = update srv.shape sid (some (insert fid session.fids)) := by
  unfold sessionCreateFile at h
  split at h
  · cases h
    exact .inl ⟨rfl, rfl⟩
  rename_i hnone
  split at h
  · cases h
    exact .inl ⟨rfl, rfl⟩
  · cases h
    exact .inr ⟨rfl, hnone, setFile_shape srv sid session fid _⟩

theorem ifWalk_shape {newfid : ℤ}
    (hne : newfid ≠ fid) (h : ifWalk srv sid fid newfid nwname wname fileOk = (r, srv')) :
    r.error.isSome = true ∧ srv'.shape = srv.shape ∨ r.error = none ∧ ∃ fids, srv.shape sid = some fids ∧
        srv'.shape = update srv.shape sid (some (insert newfid fids)) := by
  unfold ifWalk at h
  split at h
  · cases h
    exact .inl ⟨rfl, rfl⟩
  rename_i session file hfind
  obtain ⟨hshape, -⟩ := findFile_shape hfind
  iterate 3
    split at h
    · cases h
      exact .inl ⟨rfl, rfl⟩
  unfold walkNew at h
  rcases hcreate : sessionCreateFile srv sid session newfid fileOk with ⟨_ | e, srv1⟩
  · obtain ⟨hfalse, -⟩ | ⟨-, hnew, hshape1⟩ := sessionCreateFile_shape hcreate
    · cases hfalse
    simp only [hcreate] at h
    split at h
    · rename_i hwalk
      cases h
      refine .inl ⟨rfl, ?_⟩
      -- the new fid is taken out again
      rw [sessionDestroyFile_shape, walkFrom_shape hwalk, hshape1, update_self,
        update_idem, Option.map_some, Set.insert_sdiff_self_of_notMem hnew, ← hshape,
        update_eq_self]
    · rename_i hwalk
      cases h
      refine .inr ⟨rfl, _, hshape, ?_⟩
      rw [setFile_shape, walkFrom_shape hwalk, hshape1, update_idem]
  · obtain ⟨-, hsame⟩ | ⟨hfalse, -⟩ := sessionCreateFile_shape hcreate
    · simp only [hcreate] at h
      cases h
      exact .inl ⟨rfl, hsame⟩
    · cases hfalse

theorem ifWalk_self_shape
    (h : ifWalk srv sid fid fid nwname wname fileOk = (r, srv')) : srv'.shape = srv.shape := by
  unfold ifWalk at h
  split at h
  · cases h
    rfl
  rename_i session file hfind
  obtain ⟨hshape, hfid⟩ := findFile_shape hfind
  iterate 3
    split at h
    · cases h
      rfl
  rw [if_pos rfl] at h
  unfold walkSelf at h
  split at h
  · cases h
    rfl
  split at h
  · rename_i hwalk
    cases h
    exact walkFrom_shape hwalk
  rename_i hwalk
  cases h
  rw [setFile_same _ hfid]
  · rw [setFs_shape, walkFrom_shape hwalk]
  · rw [setFs_shape, walkFrom_shape hwalk, hshape]

section

variable (srv : Server) (sid : ℕ) (fid : ℤ)

theorem ifOpen_shape (mode : ℕ) : (ifOpen srv sid fid mode).2.shape = srv.shape := by
  unfold ifOpen
  split
  · rfl
  rename_i session file hfind
  obtain ⟨hshape, hfid⟩ := findFile_shape hfind
  split
  · rfl
  split
  · rfl
  · split
    · rfl
    · exact setFile_same hshape hfid _

theorem ifCreate_shape (name : Option (List UInt8))
    (perm mode : ℕ) : (ifCreate srv sid fid name perm mode).2.shape = srv.shape := by
  unfold ifCreate
  split
  · rfl
  rename_i session file hfind
  obtain ⟨hshape, hfid⟩ := findFile_shape hfind
  iterate 4
    split
    · rfl
  · rfl
  · split
    · rfl
    · exact setFile_same hshape hfid _

theorem ifStat_shape (copyOk : Bool) : (ifStat srv sid fid copyOk).2.shape = srv.shape := by
  unfold ifStat
  split
  · rfl
  split
  · rfl
  · split
    · rfl
    · rfl

end

end Eotan.Fs
