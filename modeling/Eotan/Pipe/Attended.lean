import Eotan.Pipe.Answers
import Eotan.Pipe.Ends
import Mathlib.Tactic.Abel

namespace Eotan.Pipe

open Lib.Total
open Fs (oAccmode)

def Session.waiting (session : Session) : Multiset Request :=
  (session.pair false).waiting + (session.pair true).waiting

def Server.waiting (srv : Server) : Multiset Request := total Session.waiting srv.sessions

def Server.accepted (srv : Server) : List Message → Multiset Request
  | [] => 0
  | m :: ms => srv.accepts m +
    match srv.step m with
    | none => 0
    | some (_, srv') => srv'.accepted ms

/-- Who waits can still be answered: a writer by the readers of its channel, a reader by the other
end. -/
structure Session.Waits (session : Session) : Prop where
  pressed : ∀ i, (session.pair i).Pressed
  writers : ∀ i, (session.pair i).writers ≠ [] → (session.pair i).referCount ≠ 0
  readers : ∀ i, (session.pair i).readers ≠ [] → (session.pair (!i)).referCount ≠ 0

structure Session.Attended (session : Session) : Prop extends session.Waits where
  count : ∀ i, (session.pair i).referCount ≤ session.opened i

def Server.Attended (srv : Server) : Prop :=
  ∀ sid session, srv.sessions.lookup sid = some session → session.Attended

theorem both_ends {P : Bool → Prop} (i : Bool) (hself : P i) (hother : P (!i)) (j : Bool) : P j := by
  by_cases hj : j = i
  · exact hj ▸ hself
  · obtain rfl : j = !i := by cases i <;> cases j <;> simp_all
    exact hother

theorem not_ne_self (i : Bool) : (!i) ≠ i := by cases i <;> decide

section Sessions

variable {srv : Server} {sid : ℕ} {session session' : Session}

theorem waiting_eq (session : Session) (i : Bool) :
    session.waiting = (session.pair i).waiting + (session.pair (!i)).waiting := by
  cases i with
  | false => rfl
  | true => exact add_comm _ _

theorem waiting_setChannel (session : Session) (i : Bool) (p : Channel) :
    (session.setChannel i p).waiting = p.waiting + (session.pair (!i)).waiting := by
  rw [waiting_eq _ i, pair_setChannel_self, pair_setChannel_ne _ _ (not_ne_self i)]

theorem waiting_setSession (hsession : srv.sessions.lookup sid = some session)
    (session' : Session) : ∃ rest, srv.waiting = session.waiting + rest ∧
      (srv.setSession sid session').waiting = session'.waiting + rest := by
  refine ⟨total Session.waiting (srv.sessions.erase sid), total_of_lookup _ hsession, ?_⟩
  exact total_insert _ _ _ _

theorem Session.Attended.unused (h : session.Attended) (hfiles : session.files.keys = []) (i : Bool) :
    (session.pair i).readers = [] ∧ (session.pair i).writers = [] := by
  have hzero (j : Bool) : (session.pair j).referCount = 0 := by
    have hcount := h.count j
    have hentries : session.files.entries = [] := List.map_eq_nil_iff.mp hfiles
    have hopened : session.opened j = 0 := by
      rw [Session.opened, total, hentries]
      rfl
    omega
  constructor
  · by_contra hne
    exact h.readers i hne (hzero _)
  · by_contra hne
    exact h.writers i hne (hzero _)

theorem Session.Attended.setFile (h : session.Attended) (fid : ℤ) (channel : Option Bool)
    (hold : ∀ file, session.files.lookup fid = some file → file.flag = oAccmode) :
    (session.setFile fid ⟨channel, oAccmode⟩).Attended where
  pressed := h.pressed
  writers := h.writers
  readers := h.readers
  count := by
    intro i
    rw [opened_setFile fid channel hold]
    exact h.count i

end Sessions

structure Cared (srv : Server) (accepted : Multiset Request) (out : List Event) (srv' : Server) :
    Prop where
  attended : srv'.Attended
  balance : answered out + srv'.waiting = srv.waiting + accepted

variable {fid : ℤ} {file : File} {p : Channel}

section Handlers

variable {srv : Server} {sid : ℕ} {session session' : Session} {accepted : Multiset Request}
  {out : List Event}

theorem Cared.still (h : srv.Attended) (hout : answered out = accepted) : Cared srv accepted out srv := by
  refine ⟨h, ?_⟩
  rw [hout, add_comm]

theorem Cared.setSession (h : srv.Attended) (hsession : srv.sessions.lookup sid = some session)
    (hs : session'.Attended) (hbalance : answered out + session'.waiting = session.waiting + accepted) :
    Cared srv accepted out (srv.setSession sid session') := by
  refine ⟨forall_setSession h hs, ?_⟩
  obtain ⟨rest, hold, hnew⟩ := waiting_setSession hsession session'
  rw [hnew, hold, ← add_assoc, hbalance, add_right_comm]

theorem releaseRequests_balance (session : Session) (i : Bool) :
    answered (releaseRequests session i).1 + (releaseRequests session i).2.waiting = session.waiting := by
  have hreads (l : List Request) : answered (l.map .rread) = idents l := by
    induction l with
    | nil => rfl
    | cons req l ih =>
      rw [List.map_cons, answered_cons, ih, idents_cons]
      rfl
  have hwrites (l : List Request) :
      answered (l.flatMap fun req => [.kill req .pipe, .rwrite req]) = idents l := by
    induction l with
    | nil => rfl
    | cons req l ih =>
      rw [List.flatMap_cons, answered_append, ih, idents_cons, answered_cons, answered_cons,
        answered_nil, add_zero]
      exact congrArg (· + idents l) (zero_add _)
  unfold releaseRequests
  rw [answered_append, hreads, hwrites, waiting_setChannel,
    pair_setChannel_ne _ _ (not_ne_self i).symm, pair_setChannel_self, waiting_eq session i]
  simp only [Channel.waiting, idents_nil, add_zero, zero_add]
  abel

theorem leaveChannel_balance (session : Session) (channel : Option Bool) :
    answered (leaveChannel session channel).1 + (leaveChannel session channel).2.waiting = session.waiting := by
  cases channel with
  | none => exact zero_add _
  | some i =>
    have hsame : (session.setChannel i { session.pair i with
        referCount := (session.pair i).referCount - 1 }).waiting = session.waiting := by
      rw [waiting_setChannel, waiting_eq session i]
      rfl
    unfold leaveChannel
    simp only
    split_ifs
    · rw [releaseRequests_balance, hsame]
    · rw [answered_nil, zero_add, hsame]
    · exact zero_add _

theorem pair_releaseRequests (session : Session) (i : Bool) :
    (releaseRequests session i).2.pair i = { session.pair i with writers := [] } ∧
      (releaseRequests session i).2.pair (!i) = { session.pair (!i) with readers := [] } := by
  unfold releaseRequests
  constructor
  · rw [pair_setChannel_self, pair_setChannel_ne _ _ (not_ne_self i).symm]
  · rw [pair_setChannel_ne _ _ (not_ne_self i), pair_setChannel_self]

theorem attended_setChannel {i : Bool} (h : session.Waits)
    (hpressed : p.Pressed) (hwriters : p.writers ≠ [] → p.referCount ≠ 0)
    (hreaders : p.readers ≠ [] → (session.pair (!i)).referCount ≠ 0)
    (hother : (session.pair (!i)).readers ≠ [] → p.referCount ≠ 0) (hself : p.referCount ≤ session.opened i)
    (hcount : (session.pair (!i)).referCount ≤ session.opened (!i)) : (session.setChannel i p).Attended := by
  have hp := pair_setChannel_self session i p
  have hpartner := pair_setChannel_ne session p (not_ne_self i)
  refine ⟨⟨both_ends i ?_ ?_, both_ends i ?_ ?_, both_ends i ?_ ?_⟩, both_ends i ?_ ?_⟩
  · rw [hp]
    exact hpressed
  · rw [hpartner]
    exact h.pressed (!i)
  · rw [hp]
    exact hwriters
  · rw [hpartner]
    exact h.writers (!i)
  · rw [hp, hpartner]
    exact hreaders
  · rw [Bool.not_not, hp, hpartner]
    exact hother
  · rw [hp]
    exact hself
  · rw [hpartner]
    exact hcount

theorem leaveChannel_attended (h : session.Waits)
    (hcount : ∀ i, (session.pair i).referCount ≤ file.opens i + session.opened i) :
    (leaveChannel session file.channel).2.Attended := by
  cases hchannel : file.channel with
  | none =>
    refine ⟨h, ?_⟩
    intro i
    have hi := hcount i
    rw [File.opens, if_neg (by simp [hchannel]), Nat.zero_add] at hi
    exact hi
  | some i =>
    have hother : (session.pair (!i)).referCount ≤ session.opened (!i) := by
      have hi := hcount (!i)
      rw [File.opens, if_neg (by simp [hchannel]), Nat.zero_add] at hi
      exact hi
    have hself : (session.pair i).referCount - 1 ≤ session.opened i := by
      have hi := hcount i
      have hone : file.opens i ≤ 1 := by
        rw [File.opens]
        split_ifs <;> omega
      omega
    unfold leaveChannel
    simp only
    split_ifs with hpos hlast
    · -- the last user has gone: whoever waited for it has been answered
      obtain ⟨hi, hpartner⟩ := pair_releaseRequests (session.setChannel i
        { session.pair i with referCount := (session.pair i).referCount - 1 }) i
      rw [pair_setChannel_self] at hi
      rw [pair_setChannel_ne _ _ (not_ne_self i)] at hpartner
      refine ⟨⟨both_ends i ?_ ?_, both_ends i ?_ ?_, both_ends i ?_ ?_⟩, both_ends i ?_ ?_⟩
      · rw [hi]
        exact fun hne => absurd rfl hne
      · rw [hpartner]
        exact h.pressed (!i)
      · rw [hi]
        exact fun hne => absurd rfl hne
      · rw [hpartner]
        exact h.writers (!i)
      · rw [hi, hpartner]
        exact h.readers i
      · rw [hpartner]
        exact fun hne => absurd rfl hne
      · rw [hi]
        exact hself
      · rw [hpartner]
        exact hother
    · refine attended_setChannel h (h.pressed i) (fun _ => hlast) (h.readers i) (fun _ => hlast) hself hother
    · refine ⟨h, both_ends i ?_ hother⟩
      change (session.pair i).referCount ≤ session.opened i
      omega

theorem Session.Attended.leave (h : session.Attended) (hfile : session.files.lookup fid = some file) :
    (leaveChannel (session.without fid) file.channel).2.Attended := by
  have hwaits : (session.without fid).Waits := { h with }
  apply leaveChannel_attended hwaits
  intro i
  exact (h.count i).trans_eq (total_of_lookup (File.opens i) hfile)

theorem sessionDestroyFile_cared (h : srv.Attended) (hsession : srv.sessions.lookup sid = some session) (hfile : session.files.lookup fid = some file) {srv' : Server}
    (hdestroy : sessionDestroyFile srv sid session fid = .ok (out, srv')) : Cared srv 0 out srv' := by
  have hleave := (h sid session hsession).leave hfile
  have hbalance := leaveChannel_balance (session.without fid) file.channel
  have hsame : (session.without fid).waiting = session.waiting := rfl
  rw [hsame] at hbalance
  unfold sessionDestroyFile at hdestroy
  rw [← Session.without] at hdestroy
  simp only [hfile] at hdestroy
  split_ifs at hdestroy with hlast
  · cases hdestroy
    refine ⟨forall_erase h, ?_⟩
    have hzero : (leaveChannel (session.without fid) file.channel).2.waiting = 0 := by
      have hfalse := hleave.unused hlast false
      have htrue := hleave.unused hlast true
      rw [Session.waiting, Channel.waiting, Channel.waiting, hfalse.1, hfalse.2, htrue.1, htrue.2]
      rfl
    rw [hzero, add_zero] at hbalance
    rw [hbalance, add_zero, Server.waiting, Server.waiting, total_of_lookup _ hsession]
  · cases hdestroy
    apply Cared.setSession h hsession hleave
    rw [hbalance, add_zero]

theorem settle_cared (h : srv.Attended) (hsession : srv.sessions.lookup sid = some session) {i : Bool} {c : Conn} (hrounded : Conn.Rounded ⟨p, srv.faults, []⟩ c)
    (hp : p.referCount = (session.pair i).referCount)
    (hwaiting : p.waiting = (session.pair i).waiting + accepted)
    (hwriters : c.channel.writers ≠ [] → (session.pair i).referCount ≠ 0)
    (hreaders : c.channel.readers ≠ [] → (session.pair (!i)).referCount ≠ 0) :
    Cared srv accepted (settle srv sid session i c).1 (settle srv sid session i c).2 := by
  have hs := h sid session hsession
  obtain ⟨added, hout, hbalance⟩ := hrounded.accounts.out
  have hrefer : c.channel.referCount = (session.pair i).referCount := hrounded.accounts.referCount.trans hp
  obtain rfl : c.out = added := hout
  have hattended : (session.setChannel i c.channel).Attended := by
    have hother := hs.readers (!i)
    rw [Bool.not_not, ← hrefer] at hother
    rw [← hrefer] at hwriters
    exact attended_setChannel hs.toWaits hrounded.pressed hwriters hreaders hother
      (hrefer.le.trans (hs.count i)) (hs.count (!i))
  have hcared : Cared { srv with faults := c.faults } accepted c.out
      (({ srv with faults := c.faults } : Server).setSession sid (session.setChannel i c.channel)) := by
    have hsrv : ({ srv with faults := c.faults } : Server).Attended := h
    apply Cared.setSession hsrv hsession hattended
    change answered c.out + c.channel.waiting = p.waiting at hbalance
    rw [waiting_setChannel, ← add_assoc, hbalance, hwaiting, waiting_eq session i, add_right_comm]
  exact { hcared with }

end Handlers

/-- In a Tread no waiting writer fails to be copied from, unless its end is still in use. -/
def Heard (srv : Server) (m : Message) : Prop :=
  match m.body with
  | .read _ _ _ _ => ∀ out srv' session req, srv.step m = some (out, srv') →
      srv.sessions.lookup m.sid = some session → .writeFault req ∈ out →
      (session.pair (!req.channel)).referCount ≠ 0
  | _ => True

section Steps

variable {srv : Server} {m : Message}

theorem Event.Plain.answers {e : Event} (h : e.Plain) : e.answers = 0 := by
  cases e <;> first | rfl | exact h.elim

theorem attached_cared (h : srv.Attended) (hnone : srv.sessions.lookup m.sid = none) (fid : ℤ) :
    Cared srv 0 [.rattach m.sid] (srv.setSession m.sid (Session.initial.setFile fid ⟨none, oAccmode⟩)) := by
  have hempty : Session.initial.Attended :=
    ⟨⟨fun i hne => absurd rfl hne, fun i hne => absurd rfl hne, fun i hne => absurd rfl hne⟩,
      fun i => Nat.zero_le _⟩
  refine ⟨forall_setSession h (hempty.setFile fid none ?_), ?_⟩
  · intro file hlookup
    cases hlookup
  · rw [Server.waiting, Server.setSession, total_insert, erase_of_lookup_none hnone]
    change 0 + (0 + srv.waiting) = srv.waiting + 0
    rw [zero_add, zero_add, add_zero]

theorem opened_cared {session : Session} (h : srv.Attended) (hsession : srv.sessions.lookup m.sid = some session)
    (hfile : session.files.lookup fid = some file) (hold : file.flag = oAccmode) {flag : ℕ}
    (hflag : flag ≠ oAccmode) (i : Bool) :
    Cared srv 0 [.ropen fid] (srv.setSession m.sid ((session.setFile fid ⟨some i, flag⟩).setChannel i
      { session.pair i with referCount := (session.pair i).referCount + 1 })) := by
  have hs := h m.sid session hsession
  have hopened := opened_openFile hfile hold i hflag
  apply Cared.setSession h hsession
  · have hcount := hs.count i
    have hself := hopened i
    have hother := hopened (!i)
    rw [if_pos rfl] at hself
    rw [if_neg (not_ne_self i), Nat.zero_add] at hother
    have hwaits : (session.setFile fid ⟨some i, flag⟩).Waits := { hs with }
    refine attended_setChannel hwaits (hs.pressed i) (fun _ => Nat.succ_ne_zero _) (hs.readers i)
      (fun _ => Nat.succ_ne_zero _) ?_ ((hs.count (!i)).trans_eq hother.symm)
    change (session.pair i).referCount + 1 ≤ _
    omega
  · rw [waiting_setChannel, waiting_eq session i]
    exact add_comm _ _

theorem moved_cared {session : Session} {req : Request}
    {loop : Bool → ℕ → Conn → Option Conn} {c : Conn} (hsane : srv.Sane) (h : srv.Attended)
    (hheard : Heard srv m) (hsession : srv.sessions.lookup m.sid = some session)
    (hjoins : Joins session m req p loop)
    (hrounds : loop (session.ended req) (unread p + 1) ⟨p, srv.faults, []⟩ = some c)
    (hc : c.Sane m.sid req.channel (session.ended req))
    (hstep : srv.step m = some (settle srv m.sid session req.channel c)) :
    Cared srv {req.ident} c.out (settle srv m.sid session req.channel c).2 := by
  have hs := h m.sid session hsession
  have hstart (ended : Bool) := hjoins.sane (hsane m.sid session hsession) ended srv.faults
  have haccounts := Conn.Accounts.refl ⟨p, srv.faults, []⟩
  cases hjoins with
  | read hreq =>
    obtain ⟨c', heq, hrounded⟩ :=
      (rounds_rounded _).1 _ _ ⟨⟨hstart _, haccounts⟩, hs.pressed req.channel⟩ (Nat.lt_succ_self _)
    obtain rfl : c' = c := Option.some.inj (heq.symm.trans hrounds)
    apply settle_cared h hsession hrounded rfl
    · rw [Channel.waiting, idents_append, idents_cons, idents_nil, add_zero, add_right_comm]
      rfl
    · intro hne
      apply hs.writers
      intro hnil
      exact hne (hrounded.accounts.writers hnil)
    · intro hne hleft
      -- without a user at the other end only a writer that cannot be copied from leaves it waiting
      have hnil : (session.pair req.channel).readers = [] := by
        by_contra hreaders
        exact hs.readers req.channel hreaders hleft
      rw [Session.ended, decide_eq_true hleft] at hrounds
      obtain ⟨c1, heq1, hended⟩ := readRounds_ended _ _ (hstart true) (hs.pressed req.channel)
        (by rw [hnil]; exact le_rfl) (Nat.lt_succ_self _)
      obtain rfl : c1 = c' := Option.some.inj (heq1.symm.trans hrounds)
      obtain hdone | ⟨r, hr⟩ := hended
      · exact hne hdone
      have hchannel : r.channel = req.channel := (hc.out _ hr).2
      obtain ⟨-, -, fid, count, data, hbody⟩ := accepted_of_reads hreq
      rw [Heard, hbody] at hheard
      have hrefer := hheard _ _ session r hstep hsession hr
      rw [hchannel] at hrefer
      exact hrefer hleft
  | write hreq =>
    obtain ⟨c', heq, hrounded⟩ := (rounds_rounded _).2 _ _ ⟨hstart _, haccounts⟩ (Nat.lt_succ_self _)
    obtain rfl : c' = c := Option.some.inj (heq.symm.trans hrounds)
    apply settle_cared h hsession hrounded rfl
    · rw [Channel.waiting, idents_append, idents_cons, idents_nil, add_zero, ← add_assoc]
      rfl
    · intro _
      exact (accepted_of_writes hreq).2.2
    · intro hne
      apply hs.readers
      intro hnil
      exact hne (hrounded.accounts.readers hnil)

theorem Served.cared {accepted : Multiset Request} {out : List Event} {srv' : Server}
    (hserved : Served srv m accepted out srv') (hsane : srv.Sane) (h : srv.Attended)
    (hheard : Heard srv m) (hstep : srv.step m = some (out, srv')) : Cared srv accepted out srv' := by
  cases hserved with
  | plain hquiet he =>
    apply Cared.still h
    rw [answered_cons, he.answers, answered_nil, add_zero]
  | empty hquiet he hcount =>
    apply Cared.still h
    rw [answered_cons, answered_nil, add_zero]
    rcases he with rfl | rfl <;> rfl
  | broken hquiet hsession hrefer hsid =>
    apply Cared.still h
    rw [answered_cons, answered_cons, answered_nil, add_zero]
    exact zero_add _
  | attached hother hnone fid => exact attached_cared h hnone fid
  | walked hother hsession hold channel =>
    exact Cared.setSession h hsession ((h m.sid _ hsession).setFile _ channel hold) (add_comm _ _)
  | unwalked hother hsession e => exact Cared.setSession h hsession (h m.sid _ hsession) (add_comm _ _)
  | opened hother hsession hfile hold hflag i => exact opened_cared h hsession hfile hold hflag i
  | clunked hbody hsession hfile hdestroy =>
    have hcared := sessionDestroyFile_cared h hsession hfile hdestroy
    refine ⟨hcared.attended, ?_⟩
    rw [answered_append]
    exact (congrArg (· + _) (add_zero _)).trans hcared.balance
  | moved hsession hjoins hrounds hc hsteady =>
    exact moved_cared hsane h hheard hsession hjoins hrounds hc hstep

theorem step_cared (hsane : srv.Sane) (h : srv.Attended) (hheard : Heard srv m) :
    ∃ out srv', srv.step m = some (out, srv') ∧ srv'.Sane ∧ Cared srv (srv.accepts m) out srv' := by
  obtain ⟨out, srv', hstep, hserved⟩ := step_served hsane m
  exact ⟨out, srv', hstep, (hserved.handled hsane).sane, hserved.cared hsane h hheard hstep⟩

end Steps

def HeardRun (srv : Server) : List Message → Prop
  | [] => True
  | m :: ms => Heard srv m ∧ ∀ out srv', srv.step m = some (out, srv') → HeardRun srv' ms

theorem run_cared {srv : Server} (hsane : srv.Sane) (h : srv.Attended) {ms : List Message}
    (hheard : HeardRun srv ms) : ∃ out srv', srv.run ms = some (out, srv') ∧ srv'.Sane ∧ srv'.Attended ∧
      answered out + srv'.waiting = srv.waiting + srv.accepted ms := by
  induction ms generalizing srv with
  | nil =>
    refine ⟨[], srv, rfl, hsane, h, ?_⟩
    rw [answered_nil, zero_add]
    exact (add_zero _).symm
  | cons m ms ih =>
    obtain ⟨out, srv1, hstep, hsane1, hcared⟩ := step_cared hsane h hheard.1
    obtain ⟨more, srv', hrun, hsane', hattended, hbalance⟩ := ih hsane1 hcared.attended (hheard.2 out srv1 hstep)
    refine ⟨out ++ more, srv', ?_, hsane', hattended, ?_⟩
    · rw [Server.run, hstep]
      simp [hrun]
    · rw [Server.accepted, hstep]
      simp only
      rw [answered_append, add_assoc, hbalance, ← add_assoc, hcared.balance, add_assoc]

/-- Every Tread and Twrite that has been accepted has been answered once, or waits once in a session
that is still there. -/
theorem accepted_answered (faults : List Bool) (ms : List Message)
    (h : HeardRun (Server.start faults) ms) :
    ∃ out srv, (Server.start faults).run ms = some (out, srv) ∧
      answered out + srv.waiting = (Server.start faults).accepted ms ∧
      ∀ sid session fid file, srv.sessions.lookup sid = some session →
        session.files.lookup fid = some file → (session.files.erase fid).keys = [] →
        ∀ i, ((leaveChannel (session.without fid) file.channel).2.pair i).readers = [] ∧
          ((leaveChannel (session.without fid) file.channel).2.pair i).writers = [] := by
  have hstart : (Server.start faults).Attended := by
    intro sid session hlookup
    rw [Server.start, AList.lookup_empty] at hlookup
    cases hlookup
  obtain ⟨out, srv, hrun, hsane, hattended, hbalance⟩ := run_cared (start_sane faults) hstart h
  refine ⟨out, srv, hrun, ?_, ?_⟩
  · rw [hbalance]
    exact zero_add _
  · intro sid session fid file hsession hfile hlast i
    have hfiles := (leaveChannel_spec ((hsane sid session hsession).without fid) file).2.1
    apply ((hattended sid session hsession).leave hfile).unused
    rw [hfiles]
    exact hlast

def lateRead : List Message :=
  openBoth ++ [message (.read 2 10 (fun _ => 0) true), message (.clunk 2), message (.clunk 3)]

theorem late_read_answered : ∃ out srv, (Server.start []).run lateRead = some (out, srv) ∧
    answered out + srv.waiting = (Server.start []).accepted lateRead ∧
    ∀ sid session fid file, srv.sessions.lookup sid = some session →
      session.files.lookup fid = some file → (session.files.erase fid).keys = [] →
      ∀ i, ((leaveChannel (session.without fid) file.channel).2.pair i).readers = [] ∧
        ((leaveChannel (session.without fid) file.channel).2.pair i).writers = [] := by
  apply accepted_answered [] lateRead
  iterate 5
    refine ⟨trivial, fun _ _ h => ?_⟩
    cases h
  refine ⟨?_, fun _ _ h => ?_⟩
  · intro out srv' session req hstep _ hfault
    cases hstep
    cases hfault
  · cases h
    exact ⟨trivial, fun _ _ _ => ⟨trivial, fun _ _ _ => trivial⟩⟩

/-- Fid 3 is clunked while its Twrite waits, which cannot be copied from. Nobody answers the Tread
of fid 2. -/
def orphanRead : List Message :=
  openBoth ++ [message (.write 3 5000 (fun _ => 0) true), message (.clunk 3),
    message (.read 2 5000 (fun _ => 0) true), message (.clunk 2), message (.clunk 1)]

theorem orphan_read_forgotten : ∃ out srv,
    (Server.start [false, false, true]).run orphanRead = some (out, srv) ∧
    srv.sessions.lookup 0 = none ∧ srv.waiting = 0 ∧ Multiset.card (answered out) = 1 ∧
    Multiset.card ((Server.start [false, false, true]).accepted orphanRead) = 2 := by
  refine ⟨_, _, rfl, ?_, ?_, ?_, ?_⟩
  · decide +kernel
  · rfl
  · decide +kernel
  · decide +kernel

end Eotan.Pipe
