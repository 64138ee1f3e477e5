import Eotan.Lib.Total
import Eotan.Pipe.Rounds
import Mathlib.Data.Multiset.Basic

/-!
What serving one message can do, whoever sends it: every result about whole runs of the server starts
from `step_served`.
-/

namespace Eotan.Pipe

open Lib.Total
open Fs (Errno oAccmode oRdonly oWronly vfsCheckFlags)

structure Session.Sane (sid : ℕ) (session : Session) : Prop where
  channels : ∀ i, (session.pair i).Sane sid i
  opened : ∀ fid file, session.files.lookup fid = some file → file.flag ≠ oAccmode →
    file.channel ≠ none

def Server.Sane (srv : Server) : Prop :=
  ∀ sid session, srv.sessions.lookup sid = some session → session.Sane sid

def Session.initial : Session := ⟨∅, fun _ => channelInitial⟩

def Session.without (session : Session) (fid : ℤ) : Session :=
  { session with files := session.files.erase fid }

def Session.reads (session : Session) (m : Message) : Option Request :=
  match m.body with
  | .read fid count data true =>
    match session.files.lookup fid with
    | some ⟨some i, flag⟩ =>
      if flag ≠ oWronly ∧ flag ≠ oAccmode ∧ count ≠ 0 then
        some ⟨m.sid, i, m.tid, fid, m.tag, count, 0, data⟩
      else none
    | _ => none
  | _ => none

def Session.writes (session : Session) (m : Message) : Option Request :=
  match m.body with
  | .write fid count data true =>
    match session.files.lookup fid with
    | some ⟨some j, flag⟩ =>
      if flag ≠ oRdonly ∧ flag ≠ oAccmode ∧ count ≠ 0 ∧ (session.pair (!j)).referCount ≠ 0 then
        some ⟨m.sid, !j, m.tid, fid, m.tag, count, 0, data⟩
      else none
    | _ => none
  | _ => none

def Session.accepts (session : Session) (m : Message) : Multiset Request :=
  match m.body with
  | .read fid count data requestOk =>
    match session.files.lookup fid with
    | some ⟨some i, flag⟩ =>
      if flag ≠ oWronly ∧ flag ≠ oAccmode ∧ (count = 0 ∨ requestOk = true) then
        {Request.ident ⟨m.sid, i, m.tid, fid, m.tag, count, 0, data⟩}
      else 0
    | _ => 0
  | .write fid count data requestOk =>
    match session.files.lookup fid with
    | some ⟨some j, flag⟩ =>
      if flag ≠ oRdonly ∧ flag ≠ oAccmode ∧
          ((session.pair (!j)).referCount = 0 ∨ count = 0 ∨ requestOk = true) then
        {Request.ident ⟨m.sid, !j, m.tid, fid, m.tag, count, 0, data⟩}
      else 0
    | _ => 0
  | _ => 0

def Server.accepts (srv : Server) (m : Message) : Multiset Request :=
  match srv.sessions.lookup m.sid with
  | none => 0
  | some session => session.accepts m

def Message.isTransfer (m : Message) : Bool :=
  match m.body with
  | .read .. | .write .. => true
  | _ => false

def Event.Plain : Event → Prop
  | .rattach _ | .rwalk | .ropen _ | .rclunk | .rerror _ => True
  | _ => False

def Server.Quiet (srv : Server) (m : Message) : Prop :=
  ∀ session, srv.sessions.lookup m.sid = some session →
    session.reads m = none ∧ session.writes m = none

inductive Joins (session : Session) (m : Message) (req : Request) :
    Channel → (Bool → ℕ → Conn → Option Conn) → Prop where
  | read (h : session.reads m = some req) : Joins session m req
      { session.pair req.channel with readers := (session.pair req.channel).readers ++ [req] } readRounds
  | write (h : session.writes m = some req) : Joins session m req
      { session.pair req.channel with writers := (session.pair req.channel).writers ++ [req] } writeRounds

def Session.ended (session : Session) (req : Request) : Bool :=
  decide ((session.pair (!req.channel)).referCount = 0)

inductive Served (srv : Server) (m : Message) : Multiset Request → List Event → Server → Prop where
  | plain {e : Event} (hquiet : srv.Quiet m) (he : e.Plain) : Served srv m 0 [e] srv
  | empty {e : Event} {req : Request} (hquiet : srv.Quiet m) (he : e = .rread req ∨ e = .rwrite req)
    (hcount : req.count = 0) : Served srv m {req.ident} [e] srv
  | broken {session : Session} {req : Request} (hquiet : srv.Quiet m)
    (hsession : srv.sessions.lookup m.sid = some session)
    (hrefer : (session.pair req.channel).referCount = 0) (hsid : req.sid = m.sid) :
    Served srv m {req.ident} [.kill req .pipe, .rwrite req] srv
  | attached (hother : m.isTransfer = false) (hnone : srv.sessions.lookup m.sid = none) (fid : ℤ) :
    Served srv m 0 [.rattach m.sid]
      (srv.setSession m.sid (Session.initial.setFile fid ⟨none, oAccmode⟩))
  | walked {session : Session} {fid : ℤ} (hother : m.isTransfer = false)
    (hsession : srv.sessions.lookup m.sid = some session)
    (hold : ∀ file, session.files.lookup fid = some file → file.flag = oAccmode)
    (channel : Option Bool) :
    Served srv m 0 [.rwalk] (srv.setSession m.sid (session.setFile fid ⟨channel, oAccmode⟩))
  | unwalked {session : Session} (hother : m.isTransfer = false)
    (hsession : srv.sessions.lookup m.sid = some session) (e : Errno) :
    Served srv m 0 [.rerror e] (srv.setSession m.sid session)
  | opened {session : Session} {fid : ℤ} {file : File} {flag : ℕ} (hother : m.isTransfer = false)
    (hsession : srv.sessions.lookup m.sid = some session)
    (hfile : session.files.lookup fid = some file) (hold : file.flag = oAccmode) (hflag : flag ≠ oAccmode) (i : Bool) :
    Served srv m 0 [.ropen fid] (srv.setSession m.sid ((session.setFile fid ⟨some i, flag⟩).setChannel i
      { session.pair i with referCount := (session.pair i).referCount + 1 }))
  | clunked {session : Session} {fid : ℤ} {file : File} {out : List Event} {srv' : Server}
    (hbody : m.body = .clunk fid) (hsession : srv.sessions.lookup m.sid = some session)
    (hfile : session.files.lookup fid = some file)
    (hdestroy : sessionDestroyFile srv m.sid session fid = .ok (out, srv')) :
    Served srv m 0 (out ++ [.rclunk]) srv'
  | moved {session : Session} {req : Request} {p : Channel} {loop : Bool → ℕ → Conn → Option Conn}
    {c : Conn} (hsession : srv.sessions.lookup m.sid = some session) (hjoins : Joins session m req p loop)
    (hrounds : loop (session.ended req) (unread p + 1) ⟨p, srv.faults, []⟩ = some c)
    (hc : c.Sane m.sid req.channel (session.ended req)) (hsteady : Conn.Steady ⟨p, srv.faults, []⟩ c) :
    Served srv m {req.ident} c.out (settle srv m.sid session req.channel c).2

section Lookups

variable {srv : Server} {sid : ℕ} {session : Session} {P : ℕ → Session → Prop}

theorem forall_setSession (h : ∀ sid session, srv.sessions.lookup sid = some session → P sid session)
    (hs : P sid session) (sid' : ℕ) (session' : Session)
    (hlookup : (srv.setSession sid session).sessions.lookup sid' = some session') : P sid' session' := by
  by_cases heq : sid' = sid
  · subst heq
    rw [Server.setSession, AList.lookup_insert, Option.some.injEq] at hlookup
    exact hlookup ▸ hs
  · rw [Server.setSession, AList.lookup_insert_ne heq] at hlookup
    exact h sid' session' hlookup

theorem forall_erase (h : ∀ sid session, srv.sessions.lookup sid = some session → P sid session)
    (sid' : ℕ) (session' : Session)
    (hlookup : (srv.sessions.erase sid).lookup sid' = some session') : P sid' session' := by
  by_cases heq : sid' = sid
  · subst heq
    rw [AList.lookup_erase] at hlookup
    cases hlookup
  · exact h sid' session' ((AList.lookup_erase_ne heq).symm.trans hlookup)

end Lookups

theorem accmode_of_checkFlags {mode : ℕ} (h : vfsCheckFlags mode = true) : mode &&& oAccmode ≠ oAccmode := by
  unfold vfsCheckFlags at h
  simp only [decide_eq_true_eq] at h
  exact h.1

variable {fid : ℤ}

theorem sessionCreateFile_ok {session session' : Session} {fileOk : Bool}
    (h : sessionCreateFile session fid fileOk = .ok session') :
    session.files.lookup fid = none ∧ session' = session.setFile fid ⟨none, 0⟩ := by
  unfold sessionCreateFile at h
  split_ifs at h with _ hsome
  cases h
  exact ⟨by simpa using hsome, rfl⟩

theorem setFile_setFile (session : Session) (fid : ℤ) (file file' : File) :
    (session.setFile fid file).setFile fid file' = session.setFile fid file' := by
  simp [Session.setFile]

section Requests

variable {srv : Server} {session : Session} {m : Message} {req : Request} {p : Channel}
  {loop : Bool → ℕ → Conn → Option Conn}

structure Accepted (m : Message) (req : Request) : Prop where
  sid : req.sid = m.sid
  position : req.position = 0
  count : req.count ≠ 0

theorem accepted_of_reads (h : session.reads m = some req) :
    Accepted m req ∧ session.writes m = none ∧ ∃ fid count data, m.body = .read fid count data true := by
  unfold Session.reads at h
  split at h <;> [rename_i hbody; cases h]
  split at h <;> [skip; cases h]
  split_ifs at h with hcond
  cases h
  exact ⟨⟨rfl, rfl, hcond.2.2⟩, by rw [Session.writes, hbody], _, _, _, hbody⟩

theorem accepted_of_writes (h : session.writes m = some req) :
    Accepted m req ∧ session.reads m = none ∧ (session.pair req.channel).referCount ≠ 0 := by
  unfold Session.writes at h
  split at h <;> [rename_i hbody; cases h]
  split at h <;> [skip; cases h]
  split_ifs at h with hcond
  cases h
  exact ⟨⟨rfl, rfl, hcond.2.2.1⟩, by rw [Session.reads, hbody], hcond.2.2.2⟩

section

variable (h : Joins session m req p loop)
include h

theorem Joins.accepted : Accepted m req := by
  cases h with
  | read h => exact (accepted_of_reads h).1
  | write h => exact (accepted_of_writes h).1

theorem Joins.referCount : p.referCount = (session.pair req.channel).referCount := by
  cases h with
  | read => rfl
  | write => rfl

theorem Joins.sane (hs : session.Sane m.sid) (ended : Bool) (faults : List Bool) :
    Conn.Sane m.sid req.channel ended ⟨p, faults, []⟩ := by
  have hself := hs.channels req.channel
  have hacc := h.accepted
  have hhome (l : List Request) (hl : ∀ r ∈ l, r.Home m.sid req.channel) :
      ∀ r ∈ l ++ [req], r.Home m.sid req.channel :=
    List.forall_mem_append.mpr ⟨hl, List.forall_mem_singleton.mpr ⟨hacc.sid, rfl⟩⟩
  refine ⟨?_, by simp [Conn.Local]⟩
  cases h with
  | read h =>
    refine ⟨⟨hself.good.read, hself.good.write⟩, ?_, hhome _ hself.readers, hself.writers⟩
    refine List.forall_mem_append.mpr ⟨hself.reading, List.forall_mem_singleton.mpr ?_⟩
    rw [hacc.position]
    exact Nat.pos_of_ne_zero hacc.count
  | write h =>
    exact ⟨⟨hself.good.read, hself.good.write⟩, hself.reading, hself.readers, hhome _ hself.writers⟩

theorem Joins.rounds (hs : session.Sane m.sid) (ended : Bool) (faults : List Bool) :
    ∃ c, loop ended (unread p + 1) ⟨p, faults, []⟩ = some c ∧ c.Sane m.sid req.channel ended ∧
      Conn.Steady ⟨p, faults, []⟩ c := by
  have hsane := h.sane hs ended faults
  cases h with
  | read => exact (rounds_sane _).1 _ _ ⟨hsane, rfl, id⟩ (Nat.lt_succ_self _)
  | write => exact (rounds_sane _).2 _ _ ⟨hsane, rfl, id⟩ (Nat.lt_succ_self _)

theorem Joins.served (hs : session.Sane m.sid) (hsession : srv.sessions.lookup m.sid = some session) :
    ∃ out srv', (loop (session.ended req) (unread p + 1) ⟨p, srv.faults, []⟩).map
      (settle srv m.sid session req.channel) = some (out, srv') ∧ Served srv m {req.ident} out srv' := by
  obtain ⟨c, hrounds, hc, hsteady⟩ := h.rounds hs (session.ended req) srv.faults
  rw [hrounds]
  exact ⟨_, _, rfl, .moved hsession h hrounds hc hsteady⟩

end

theorem quiet_of_none (hnone : srv.sessions.lookup m.sid = none) : srv.Quiet m := by
  intro session h
  rw [hnone] at h
  cases h

theorem quiet_of_some (hsession : srv.sessions.lookup m.sid = some session)
    (h : session.reads m = none ∧ session.writes m = none) : srv.Quiet m := by
  intro session' h'
  rw [hsession, Option.some.injEq] at h'
  exact h' ▸ h

theorem quiet_of_other (h : m.isTransfer = false) : srv.Quiet m := by
  intro session _
  unfold Message.isTransfer at h
  unfold Session.reads Session.writes
  cases hbody : m.body <;> simp_all

end Requests

section Handlers

variable {srv : Server} {m : Message}

section

variable (hother : m.isTransfer = false)
include hother

theorem ifAttach_served (fid afid : ℤ) (sessionOk fileOk : Bool) :
    Served srv m 0 (ifAttach srv m.sid fid afid sessionOk fileOk).1
      (ifAttach srv m.sid fid afid sessionOk fileOk).2 := by
  have hquiet : srv.Quiet m := quiet_of_other hother
  unfold ifAttach
  split_ifs with hafid hsession
  · exact .plain hquiet trivial
  · exact .plain hquiet trivial
  cases hcreate : sessionCreateFile ⟨∅, fun _ => channelInitial⟩ fid fileOk with
  | error e => exact .plain hquiet trivial
  | ok session =>
    obtain ⟨-, rfl⟩ := sessionCreateFile_ok hcreate
    simp only [setFile_setFile]
    exact .attached hother (by simpa using fun hs => hsession (.inr hs)) fid

theorem ifWalk_served (fid newfid : ℤ) (nwname : ℕ) (wname : Option (List UInt8)) (fileOk : Bool) :
    Served srv m 0 (ifWalk srv m.sid fid newfid nwname wname fileOk).1
      (ifWalk srv m.sid fid newfid nwname wname fileOk).2 := by
  have hquiet : srv.Quiet m := quiet_of_other hother
  unfold ifWalk
  cases hsession : srv.sessions.lookup m.sid with
  | none => exact .plain hquiet trivial
  | some session =>
    simp only
    cases hparent : session.files.lookup fid with
    | none => exact .plain hquiet trivial
    | some parent =>
      simp only
      split_ifs with hflag hdir hsame hnone
      · exact .plain hquiet trivial
      · exact .plain hquiet trivial
      · exact .plain hquiet trivial
      · cases walkChannel nwname wname with
        | error e => exact .plain hquiet trivial
        | ok channel =>
          refine .walked hother hsession ?_ _
          intro file hfile
          rw [hparent, Option.some.injEq] at hfile
          rw [← hfile]
          simpa using hflag
      · cases hcreate : sessionCreateFile session newfid fileOk with
        | error e => exact .plain hquiet trivial
        | ok session1 =>
          obtain ⟨hnew, rfl⟩ := sessionCreateFile_ok hcreate
          cases walkChannel nwname wname with
          | error e =>
            -- the file that has been made is destroyed again, which leaves the session as it was
            have herase : (session.setFile newfid ⟨none, 0⟩).files.erase newfid = session.files := by
              simp [Session.setFile, erase_insert, erase_of_lookup_none hnew]
            have hkeys : session.files.keys ≠ [] := by
              have hmem : fid ∈ session.files := AList.lookup_isSome.mp (by rw [hparent]; rfl)
              exact List.ne_nil_of_mem hmem
            have hdestroy : sessionDestroyFile srv m.sid (session.setFile newfid ⟨none, 0⟩) newfid =
                .ok ([], srv.setSession m.sid session) := by
              have hlookup : (session.setFile newfid ⟨none, 0⟩).files.lookup newfid =
                  some ⟨none, 0⟩ := AList.lookup_insert session.files
              unfold sessionDestroyFile
              simp only [hlookup, leaveChannel, herase, if_neg hkeys]
              rfl
            simp only [hdestroy]
            exact .unwalked hother hsession e
          | ok channel =>
            simp only [setFile_setFile]
            refine .walked hother hsession ?_ channel
            intro file hlookup
            rw [hnew] at hlookup
            cases hlookup

theorem ifOpen_served (fid : ℤ) (mode : ℕ) :
    Served srv m 0 (ifOpen srv m.sid fid mode).1 (ifOpen srv m.sid fid mode).2 := by
  have hquiet : srv.Quiet m := quiet_of_other hother
  unfold ifOpen
  cases hsession : srv.sessions.lookup m.sid with
  | none => exact .plain hquiet trivial
  | some session =>
    simp only
    cases hfile : session.files.lookup fid with
    | none => exact .plain hquiet trivial
    | some file =>
      simp only
      cases hchannel : file.channel with
      | none => exact .plain hquiet trivial
      | some i =>
        simp only
        split_ifs with hflag hexec hmode
        · exact .plain hquiet trivial
        · exact .plain hquiet trivial
        · exact .plain hquiet trivial
        · refine .opened hother hsession hfile (by simpa using hflag) ?_ i
          apply accmode_of_checkFlags
          simpa using fun hf => hmode (.inl hf)

theorem ifClunk_served (hbody : m.body = .clunk fid) :
    Served srv m 0 (ifClunk srv m.sid fid).1 (ifClunk srv m.sid fid).2 := by
  have hquiet : srv.Quiet m := quiet_of_other hother
  unfold ifClunk
  cases hsession : srv.sessions.lookup m.sid with
  | none => exact .plain hquiet trivial
  | some session =>
    simp only
    cases hdestroy : sessionDestroyFile srv m.sid session fid with
    | error e => exact .plain hquiet trivial
    | ok r =>
      cases hfile : session.files.lookup fid with
      | none =>
        rw [sessionDestroyFile, hfile] at hdestroy
        cases hdestroy
      | some file => exact .clunked hbody hsession hfile hdestroy

end

theorem ifRead_served (hsane : srv.Sane) {count : ℕ} {data : ℕ → UInt8} {requestOk : Bool}
    (hbody : m.body = .read fid count data requestOk) :
    ∃ out srv', ifRead srv m fid count data requestOk = some (out, srv') ∧
      Served srv m (srv.accepts m) out srv' := by
  unfold ifRead Server.accepts
  cases hsession : srv.sessions.lookup m.sid with
  | none => exact ⟨_, _, rfl, .plain (quiet_of_none hsession) trivial⟩
  | some session =>
    have hs := hsane m.sid session hsession
    have hplain {e : Event} (he : e.Plain) (hnone : session.reads m = none) (hzero : session.accepts m = 0) :
        Served srv m (session.accepts m) [e] srv := by
      rw [hzero]
      exact .plain (quiet_of_some hsession ⟨hnone, by rw [Session.writes, hbody]⟩) he
    simp only
    cases hfile : session.files.lookup fid with
    | none =>
      refine ⟨_, _, rfl, hplain trivial ?_ ?_⟩
      · cases requestOk <;> simp [Session.reads, hbody, hfile]
      · simp [Session.accepts, hbody, hfile]
    | some file =>
      obtain ⟨channel, flag⟩ := file
      by_cases hflag : flag = oWronly ∨ flag = oAccmode
      · refine ⟨_, _, by simp only [if_pos hflag], hplain (e := .rerror .ebadf) trivial ?_ ?_⟩
        · cases requestOk <;> cases channel <;> simp [Session.reads, hbody, hfile]
          tauto
        · cases channel <;> simp [Session.accepts, hbody, hfile]
          tauto
      · cases channel with
        | none => exact absurd rfl (hs.opened fid _ hfile fun hf => hflag (.inr hf))
        | some i =>
          simp only [if_neg hflag]
          push Not at hflag
          have haccepts (h : count = 0 ∨ requestOk = true) :
              session.accepts m = {Request.ident ⟨m.sid, i, m.tid, fid, m.tag, count, 0, data⟩} := by
            simp [Session.accepts, hbody, hfile, hflag, h]
          by_cases hcount : count = 0
          · rw [if_pos hcount, haccepts (.inl hcount)]
            refine ⟨_, _, rfl, .empty (quiet_of_some hsession ⟨?_, ?_⟩) (.inl rfl) hcount⟩
            · cases requestOk <;> simp [Session.reads, hbody, hfile, hcount]
            · rw [Session.writes, hbody]
          rw [if_neg hcount]
          cases requestOk with
          | false =>
            refine ⟨_, _, rfl, hplain trivial ?_ ?_⟩
            · simp [Session.reads, hbody]
            · simp [Session.accepts, hbody, hfile, hcount]
          | true =>
            have hreq : session.reads m = some ⟨m.sid, i, m.tid, fid, m.tag, count, 0, data⟩ := by
              simp [Session.reads, hbody, hfile, hflag, hcount]
            rw [haccepts (.inr rfl)]
            exact (Joins.read hreq).served hs hsession

theorem ifWrite_served (hsane : srv.Sane) {count : ℕ} {data : ℕ → UInt8} {requestOk : Bool}
    (hbody : m.body = .write fid count data requestOk) :
    ∃ out srv', ifWrite srv m fid count data requestOk = some (out, srv') ∧
      Served srv m (srv.accepts m) out srv' := by
  unfold ifWrite Server.accepts
  cases hsession : srv.sessions.lookup m.sid with
  | none => exact ⟨_, _, rfl, .plain (quiet_of_none hsession) trivial⟩
  | some session =>
    have hs := hsane m.sid session hsession
    have hquiet (hnone : session.writes m = none) : srv.Quiet m :=
      quiet_of_some hsession ⟨by rw [Session.reads, hbody], hnone⟩
    have hplain {e : Event} (he : e.Plain) (hnone : session.writes m = none)
        (hzero : session.accepts m = 0) : Served srv m (session.accepts m) [e] srv := by
      rw [hzero]
      exact .plain (hquiet hnone) he
    simp only
    cases hfile : session.files.lookup fid with
    | none =>
      refine ⟨_, _, rfl, hplain trivial ?_ ?_⟩
      · cases requestOk <;> simp [Session.writes, hbody, hfile]
      · simp [Session.accepts, hbody, hfile]
    | some file =>
      obtain ⟨channel, flag⟩ := file
      by_cases hflag : flag = oRdonly ∨ flag = oAccmode
      · refine ⟨_, _, by simp only [if_pos hflag], hplain (e := .rerror .ebadf) trivial ?_ ?_⟩
        · cases requestOk <;> cases channel <;> simp [Session.writes, hbody, hfile]
          tauto
        · cases channel <;> simp [Session.accepts, hbody, hfile]
          tauto
      · cases channel with
        | none => exact absurd rfl (hs.opened fid _ hfile fun hf => hflag (.inr hf))
        | some j =>
          simp only [if_neg hflag]
          push Not at hflag
          have haccepts (h : (session.pair (!j)).referCount = 0 ∨ count = 0 ∨ requestOk = true) :
              session.accepts m = {Request.ident ⟨m.sid, !j, m.tid, fid, m.tag, count, 0, data⟩} := by
            simp [Session.accepts, hbody, hfile, hflag, h]
          by_cases hrefer : (session.pair (!j)).referCount = 0
          · rw [if_pos hrefer, haccepts (.inl hrefer)]
            refine ⟨_, _, rfl, .broken (hquiet ?_) hsession hrefer rfl⟩
            cases requestOk <;> simp [Session.writes, hbody, hfile, hrefer]
          rw [if_neg hrefer]
          by_cases hcount : count = 0
          · rw [if_pos hcount, haccepts (.inr (.inl hcount))]
            refine ⟨_, _, rfl, .empty (hquiet ?_) (.inr rfl) hcount⟩
            cases requestOk <;> simp [Session.writes, hbody, hfile, hcount]
          rw [if_neg hcount]
          cases requestOk with
          | false =>
            refine ⟨_, _, rfl, hplain trivial ?_ ?_⟩
            · simp [Session.writes, hbody]
            · simp [Session.accepts, hbody, hfile, hcount, hrefer]
          | true =>
            have hreq : session.writes m = some ⟨m.sid, !j, m.tid, fid, m.tag, count, 0, data⟩ := by
              simp [Session.writes, hbody, hfile, hflag, hcount, hrefer]
            rw [haccepts (.inr (.inr rfl))]
            exact (Joins.write hreq).served hs hsession

theorem step_served (hsane : srv.Sane) (m : Message) :
    ∃ out srv', srv.step m = some (out, srv') ∧ Served srv m (srv.accepts m) out srv' := by
  have hzero (h : ∀ session : Session, session.accepts m = 0) : srv.accepts m = 0 := by
    unfold Server.accepts
    split
    · rfl
    · exact h _
  unfold Server.step
  cases hbody : m.body with
  | read fid count data requestOk => exact ifRead_served hsane hbody
  | write fid count data requestOk => exact ifWrite_served hsane hbody
  | _ =>
    have hother : m.isTransfer = false := by rw [Message.isTransfer, hbody]
    rw [hzero fun session => by rw [Session.accepts, hbody]]
    refine ⟨_, _, rfl, ?_⟩
    first
      | exact ifAttach_served hother _ _ _ _
      | exact ifWalk_served hother _ _ _ _ _
      | exact ifOpen_served hother _ _
      | exact ifClunk_served hother hbody

end Handlers

end Eotan.Pipe
