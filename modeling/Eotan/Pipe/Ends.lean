import Eotan.Pipe.Steps

namespace Eotan.Pipe

open Lib.Total
open Fs (oAccmode)

def File.opens (i : Bool) (file : File) : ℕ :=
  if file.channel = some i ∧ file.flag ≠ oAccmode then 1 else 0

def Session.opened (session : Session) (i : Bool) : ℕ := total (File.opens i) session.files

def Server.opened (srv : Server) (sid : ℕ) (i : Bool) : ℕ :=
  match srv.sessions.lookup sid with
  | none => 0
  | some session => session.opened i

def Session.Counted (session : Session) : Prop :=
  ∀ i, (session.pair i).referCount = session.opened i

def Server.Counted (srv : Server) : Prop :=
  ∀ sid session, srv.sessions.lookup sid = some session → session.Counted

theorem opens_accmode (i : Bool) (channel : Option Bool) : (File.mk channel oAccmode).opens i = 0 := by
  simp [File.opens]

def Justified (srv : Server) (sid : ℕ) (e : Event) : Prop :=
  match e with
  | .rread req => req.position = 0 → req.count ≠ 0 → srv.opened sid (!req.channel) = 0
  | .kill req signal => signal = .pipe → srv.opened sid req.channel = 0
  | _ => True

variable {file : File} {session : Session} {sid : ℕ} {srv : Server}

section Sessions

variable {srv : Server} {sid : ℕ} {session : Session}

theorem opened_setSession (i : Bool) : (srv.setSession sid session).opened sid i = session.opened i := by
  simp [Server.opened, Server.setSession]

theorem opened_erase (faults : List Bool) (i : Bool) :
    Server.opened ⟨srv.sessions.erase sid, faults⟩ sid i = 0 := by
  simp [Server.opened]

theorem opened_of_lookup (h : srv.sessions.lookup sid = some session) (i : Bool) :
    srv.opened sid i = session.opened i := by
  rw [Server.opened, h]

theorem Session.Sane.setFile (h : session.Sane sid) (fid : ℤ)
    (hfile : file.flag ≠ oAccmode → file.channel ≠ none) : (session.setFile fid file).Sane sid := by
  refine ⟨h.channels, ?_⟩
  intro fid' file' hlookup
  by_cases heq : fid' = fid
  · subst heq
    rw [Session.setFile, AList.lookup_insert, Option.some.injEq] at hlookup
    exact hlookup ▸ hfile
  · rw [Session.setFile, AList.lookup_insert_ne heq] at hlookup
    exact h.opened fid' file' hlookup

theorem pair_setChannel_self (session : Session) (i : Bool) (p : Channel) :
    (session.setChannel i p).pair i = p := Function.update_self _ _ _

variable {i : Bool}

theorem pair_setChannel_ne (session : Session) {j : Bool} (p : Channel) (h : j ≠ i) :
    (session.setChannel i p).pair j = session.pair j := Function.update_of_ne h _ _

theorem Session.Sane.setChannel (h : session.Sane sid) {p : Channel} (hp : p.Sane sid i) :
    (session.setChannel i p).Sane sid := by
  refine ⟨?_, h.opened⟩
  intro j
  by_cases heq : j = i
  · subst heq
    rw [pair_setChannel_self]
    exact hp
  · rw [pair_setChannel_ne _ _ heq]
    exact h.channels j

theorem opened_setFile (fid : ℤ) (channel : Option Bool)
    (hold : ∀ file, session.files.lookup fid = some file → file.flag = oAccmode) (i : Bool) :
    (session.setFile fid ⟨channel, oAccmode⟩).opened i = session.opened i := by
  change total (File.opens i) (session.files.insert fid _) = total (File.opens i) session.files
  rw [total_insert, opens_accmode, Nat.zero_add]
  cases hlookup : session.files.lookup fid with
  | none => rw [erase_of_lookup_none hlookup]
  | some file =>
    rw [total_of_lookup _ hlookup, File.opens, if_neg (by simp [hold file hlookup]), Nat.zero_add]

theorem Session.Counted.setFile (h : session.Counted) (fid : ℤ) (channel : Option Bool)
    (hold : ∀ file, session.files.lookup fid = some file → file.flag = oAccmode) :
    (session.setFile fid ⟨channel, oAccmode⟩).Counted := by
  intro i
  rw [opened_setFile fid channel hold]
  exact h i

theorem Session.Counted.setChannel (h : session.Counted) {p : Channel}
    (hp : p.referCount = (session.pair i).referCount) : (session.setChannel i p).Counted := by
  intro j
  by_cases heq : j = i
  · subst heq
    rw [pair_setChannel_self, hp]
    exact h j
  · rw [pair_setChannel_ne _ _ heq]
    exact h j

end Sessions

theorem releaseRequests_spec (h : session.Sane sid) (i : Bool) : (releaseRequests session i).2.Sane sid ∧
      (releaseRequests session i).2.files = session.files ∧
      (∀ j, ((releaseRequests session i).2.pair j).referCount = (session.pair j).referCount) ∧
      ∀ e ∈ (releaseRequests session i).1, (∃ req, e = .rread req ∧ req.channel = !i) ∨
          (∃ req, e = .kill req .pipe ∧ req.channel = i) ∨ ∃ req, e = .rwrite req := by
  unfold releaseRequests
  have hne : i ≠ !i := by cases i <;> simp
  refine ⟨?_, rfl, ?_, ?_⟩
  · have hpartner := h.channels (!i)
    have hself := h.channels i
    apply Session.Sane.setChannel
    · apply h.setChannel
      exact ⟨⟨hpartner.good.read, hpartner.good.write⟩, by simp, by simp, hpartner.writers⟩
    · rw [pair_setChannel_ne _ _ hne]
      exact ⟨⟨hself.good.read, hself.good.write⟩, hself.reading, hself.readers, by simp⟩
  · intro j
    by_cases hj : j = i
    · subst hj
      rw [pair_setChannel_self, pair_setChannel_ne _ _ hne]
    · obtain rfl : j = !i := by cases i <;> cases j <;> simp_all
      rw [pair_setChannel_ne _ _ hj, pair_setChannel_self]
  · intro e he
    rcases List.mem_append.mp he with he | he
    · obtain ⟨req, hreq, rfl⟩ := List.mem_map.mp he
      exact .inl ⟨req, rfl, ((h.channels (!i)).readers req hreq).2⟩
    · obtain ⟨req, hreq, hin⟩ := List.mem_flatMap.mp he
      rcases List.mem_pair.mp hin with rfl | rfl
      · exact .inr (.inl ⟨req, rfl, ((h.channels i).writers req hreq).2⟩)
      · exact .inr (.inr ⟨req, rfl⟩)

theorem leaveChannel_spec (h : session.Sane sid) (file : File) : (leaveChannel session file.channel).2.Sane sid ∧
      (leaveChannel session file.channel).2.files = session.files ∧
      ((∀ i, (session.pair i).referCount = file.opens i + session.opened i) →
        (file.channel = none ∨ file.flag ≠ oAccmode) → (leaveChannel session file.channel).2.Counted ∧
          ∀ e ∈ (leaveChannel session file.channel).1,
            (∃ req, e = .rread req ∧ session.opened (!req.channel) = 0) ∨
              (∃ req, e = .kill req .pipe ∧ session.opened req.channel = 0) ∨ ∃ req, e = .rwrite req) := by
  cases hchannel : file.channel with
  | none =>
    refine ⟨h, rfl, fun hcount _ => ⟨?_, by simp [leaveChannel]⟩⟩
    intro i
    have := hcount i
    rw [File.opens, if_neg (by simp [hchannel]), Nat.zero_add] at this
    exact this
  | some i =>
    have hself := h.channels i
    have hsane : (session.setChannel i
        { session.pair i with referCount := (session.pair i).referCount - 1 }).Sane sid :=
      h.setChannel ⟨⟨hself.good.read, hself.good.write⟩, hself.reading, hself.readers, hself.writers⟩
    -- the counts, if the file was open
    have hcounted (hcount : ∀ j, (session.pair j).referCount = file.opens j + session.opened j)
        (hflag : file.flag ≠ oAccmode) :
        (session.pair i).referCount = 1 + session.opened i ∧ (session.setChannel i
          { session.pair i with referCount := (session.pair i).referCount - 1 }).Counted := by
      have hi : (session.pair i).referCount = 1 + session.opened i := by
        rw [hcount, File.opens, if_pos ⟨hchannel, hflag⟩]
      refine ⟨hi, ?_⟩
      intro j
      by_cases hj : j = i
      · subst hj
        rw [pair_setChannel_self]
        change (session.pair j).referCount - 1 = session.opened j
        omega
      rw [pair_setChannel_ne _ _ hj, hcount, File.opens, if_neg, Nat.zero_add]
      · rfl
      · rintro ⟨hsome, -⟩
        rw [hchannel, Option.some.injEq] at hsome
        exact hj hsome.symm
    unfold leaveChannel
    simp only
    split_ifs with hpos hlast
    · obtain ⟨hsane', hfiles, hrefer, hevents⟩ := releaseRequests_spec hsane i
      refine ⟨hsane', hfiles, fun hcount hproper => ?_⟩
      obtain ⟨hi, hcounted⟩ := hcounted hcount (by simpa using hproper)
      refine ⟨?_, ?_⟩
      · intro j
        rw [hrefer, hcounted j, Session.opened, Session.opened, hfiles]
      · have hzero : session.opened i = 0 := by omega
        intro e he
        rcases hevents e he with ⟨req, rfl, hreq⟩ | ⟨req, rfl, hreq⟩ | hwrite
        · refine .inl ⟨req, rfl, ?_⟩
          rw [hreq, Bool.not_not]
          exact hzero
        · refine .inr (.inl ⟨req, rfl, ?_⟩)
          rw [hreq]
          exact hzero
        · exact .inr (.inr hwrite)
    · exact ⟨hsane, rfl, fun hcount hproper => ⟨(hcounted hcount (by simpa using hproper)).2, by simp⟩⟩
    · refine ⟨h, rfl, fun hcount hproper => ?_⟩
      have := (hcounted hcount (by simpa using hproper)).1
      omega

theorem Session.Sane.without (h : session.Sane sid) (fid : ℤ) : (session.without fid).Sane sid := by
  refine ⟨h.channels, ?_⟩
  intro fid' file' hlookup
  by_cases heq : fid' = fid
  · subst heq
    rw [Session.without, AList.lookup_erase] at hlookup
    cases hlookup
  · rw [Session.without, AList.lookup_erase_ne heq] at hlookup
    exact h.opened fid' file' hlookup

theorem sessionDestroyFile_handled (h : srv.Sane) {fid : ℤ} (hfile : session.files.lookup fid = some file)
    (hs1 : (session.without fid).Sane sid) :
    ∃ out srv', sessionDestroyFile srv sid session fid = .ok (out, srv') ∧ srv'.Sane ∧ (srv.Counted →
        (∀ i, (session.pair i).referCount = file.opens i + (session.without fid).opened i) →
        (file.channel = none ∨ file.flag ≠ oAccmode) → srv'.Counted ∧ ∀ e ∈ out, Justified srv' sid e) := by
  obtain ⟨hsane, hfiles, hleave⟩ := leaveChannel_spec hs1 file
  have hopened (i : Bool) : (leaveChannel (session.without fid) file.channel).2.opened i =
      (session.without fid).opened i := by
    rw [Session.opened, Session.opened, hfiles]
  unfold sessionDestroyFile
  rw [← Session.without]
  simp only [hfile]
  split_ifs with hlast
  · refine ⟨_, _, rfl, forall_erase h, ?_⟩
    intro hsrv hcounted hproper
    refine ⟨forall_erase hsrv, ?_⟩
    intro e he
    rcases (hleave hcounted hproper).2 e he with ⟨req, rfl, -⟩ | ⟨req, rfl, -⟩ | ⟨req, rfl⟩
    · exact fun _ _ => opened_erase srv.faults _
    · exact fun _ => opened_erase srv.faults _
    · trivial
  · refine ⟨_, _, rfl, forall_setSession h hsane, ?_⟩
    intro hsrv hcounted hproper
    obtain ⟨hleft, hevents⟩ := hleave hcounted hproper
    refine ⟨forall_setSession hsrv hleft, ?_⟩
    intro e he
    rcases hevents e he with ⟨req, rfl, hzero⟩ | ⟨req, rfl, hzero⟩ | ⟨req, rfl⟩
    · intro _ _
      rw [opened_setSession, hopened]
      exact hzero
    · intro _
      rw [opened_setSession, hopened]
      exact hzero
    · trivial

theorem opened_openFile {fid : ℤ}
    (hfile : session.files.lookup fid = some file) (hflag : file.flag = oAccmode) (i : Bool)
    {flag : ℕ} (hopen : flag ≠ oAccmode) (j : Bool) :
    (session.setFile fid ⟨some i, flag⟩).opened j = (if j = i then 1 else 0) + session.opened j := by
  have hold : session.opened j = total (File.opens j) (session.files.erase fid) := by
    rw [Session.opened, total_of_lookup _ hfile, File.opens, if_neg (by simp [hflag]), Nat.zero_add]
  change total (File.opens j) (session.files.insert fid _) = _
  rw [total_insert, hold, File.opens]
  congr 1
  simp [hopen, eq_comm]

/-- The fid that the message clunks, if it does, has no channel or has been opened on it. -/
def Proper (srv : Server) (m : Message) : Prop :=
  match m.body with
  | .clunk fid => ∀ session file, srv.sessions.lookup m.sid = some session →
      session.files.lookup fid = some file → file.channel = none ∨ file.flag ≠ oAccmode
  | _ => True

structure Handled (srv : Server) (sid : ℕ) (counted : Prop) (out : List Event) (srv' : Server) :
    Prop where
  sane : srv'.Sane
  counted : srv.Counted → counted → srv'.Counted ∧ ∀ e ∈ out, Justified srv' sid e

theorem Event.Plain.justified {e : Event} (h : e.Plain) (srv : Server) (sid : ℕ) : Justified srv sid e := by
  cases e <;> trivial

theorem Handled.answered {srv' : Server} {counted : Prop} {e : Event} (he : e.Plain)
    (hsane : srv'.Sane) (hcounted : srv.Counted → srv'.Counted) : Handled srv sid counted [e] srv' where
  sane := hsane
  counted := by
    intro hc _
    exact ⟨hcounted hc, List.forall_mem_singleton.mpr (he.justified srv' sid)⟩

theorem initial_sane (sid : ℕ) : Session.initial.Sane sid := by
  refine ⟨fun i => ⟨⟨pageSize_pos, pageSize_pos⟩, ?_, ?_, ?_⟩, ?_⟩
  · intro r hr
    cases hr
  · intro r hr
    cases hr
  · intro r hr
    cases hr
  · intro fid' file hlookup
    cases hlookup

theorem Served.handled {srv' : Server} {m : Message} {accepted : Multiset Request} {out : List Event}
    (hserved : Served srv m accepted out srv') (h : srv.Sane) : Handled srv m.sid (Proper srv m) out srv' := by
  cases hserved with
  | plain hquiet he => exact .answered he h id
  | @empty e req hquiet he hcount =>
    refine ⟨h, fun hc _ => ⟨hc, ?_⟩⟩
    intro e' he'
    rw [List.mem_singleton.mp he']
    rcases he with rfl | rfl
    · exact fun _ hne => absurd hcount hne
    · trivial
  | @broken session req hquiet hsession hrefer hsid =>
    refine ⟨h, fun hc _ => ⟨hc, ?_⟩⟩
    intro e he
    rcases List.mem_pair.mp he with rfl | rfl
    · intro _
      rw [opened_of_lookup hsession]
      exact (hc m.sid session hsession req.channel).symm.trans hrefer
    · trivial
  | attached hother hnone fid =>
    refine .answered trivial (forall_setSession h ((initial_sane m.sid).setFile fid (by simp))) ?_
    intro hc
    apply forall_setSession hc
    apply Session.Counted.setFile
    · intro i
      rfl
    · intro file hlookup
      cases hlookup
  | walked hother hsession hold channel =>
    have hs := h m.sid _ hsession
    refine .answered trivial (forall_setSession h (hs.setFile _ (by simp))) ?_
    intro hc
    exact forall_setSession hc ((hc m.sid _ hsession).setFile _ channel hold)
  | unwalked hother hsession e =>
    refine .answered trivial (forall_setSession h (h m.sid _ hsession)) ?_
    intro hc
    exact forall_setSession hc (hc m.sid _ hsession)
  | @opened session fid file flag hother hsession hfile hold hflag i =>
    have hs := h m.sid session hsession
    have hself := hs.channels i
    refine .answered trivial ?_ ?_
    · apply forall_setSession h
      apply Session.Sane.setChannel
      · exact hs.setFile fid (by simp)
      · exact ⟨⟨hself.good.read, hself.good.write⟩, hself.reading, hself.readers, hself.writers⟩
    · intro hc
      apply forall_setSession hc
      intro j
      change _ = (session.setFile fid ⟨some i, flag⟩).opened j
      rw [opened_openFile hfile hold i hflag, ← hc m.sid session hsession j]
      by_cases heq : j = i
      · subst heq
        rw [pair_setChannel_self, if_pos rfl, Nat.add_comm]
      · rw [pair_setChannel_ne _ _ heq, if_neg heq, Nat.zero_add]
        rfl
  | @clunked session fid file out srv' hbody hsession hfile hdestroy =>
    have hs := h m.sid session hsession
    obtain ⟨out1, srv1, hdestroy1, hsane', hcounted'⟩ := sessionDestroyFile_handled h hfile (hs.without fid)
    rw [hdestroy, Except.ok.injEq, Prod.mk.injEq] at hdestroy1
    obtain ⟨rfl, rfl⟩ := hdestroy1
    refine ⟨hsane', fun hc hproper => ?_⟩
    rw [Proper, hbody] at hproper
    have hsum (i : Bool) : (session.pair i).referCount = file.opens i + (session.without fid).opened i :=
      (hc m.sid session hsession i).trans (total_of_lookup (File.opens i) hfile)
    obtain ⟨hc', hevents⟩ := hcounted' hc hsum (hproper session file hsession hfile)
    exact ⟨hc', List.forall_mem_append.mpr ⟨hevents, List.forall_mem_singleton.mpr trivial⟩⟩
  | @moved session req p loop c hsession hjoins hrounds hc hsteady =>
    have hs := h m.sid session hsession
    have hrefer := hsteady.referCount.trans hjoins.referCount
    refine ⟨forall_setSession h (hs.setChannel hc.channel), fun hcounted _ => ⟨?_, ?_⟩⟩
    · exact forall_setSession hcounted ((hcounted m.sid session hsession).setChannel hrefer)
    · intro e he
      have hfine := hc.out e he
      cases e with
      | rread r =>
        intro hzero _
        have hended : (session.pair (!req.channel)).referCount = 0 := of_decide_eq_true (hfine.2 hzero)
        rw [settle, opened_setSession, hfine.1.2]
        exact (hcounted m.sid session hsession (!req.channel)).symm.trans hended
      | kill r signal =>
        intro hpipe
        rw [hfine.2] at hpipe
        cases hpipe
      | _ => trivial

theorem step_handled (h : srv.Sane) (m : Message) :
    ∃ out srv', srv.step m = some (out, srv') ∧ Handled srv m.sid (Proper srv m) out srv' := by
  obtain ⟨out, srv', hstep, hserved⟩ := step_served h m
  exact ⟨out, srv', hstep, hserved.handled h⟩

theorem start_sane (faults : List Bool) : (Server.start faults).Sane := by
  intro sid session hlookup
  rw [Server.start, AList.lookup_empty] at hlookup
  cases hlookup

theorem run_sane (h : srv.Sane) (ms : List Message) : ∃ out srv', srv.run ms = some (out, srv') ∧ srv'.Sane := by
  induction ms generalizing srv with
  | nil => exact ⟨[], srv, rfl, h⟩
  | cons m ms ih =>
    obtain ⟨out, srv1, hstep, hhandled⟩ := step_handled h m
    obtain ⟨more, srv', hrun, hsane⟩ := ih hhandled.sane
    refine ⟨out ++ more, srv', ?_, hsane⟩
    rw [Server.run, hstep]
    simp [hrun]

def ProperRun (srv : Server) : List Message → Prop
  | [] => True
  | m :: ms => Proper srv m ∧ ∀ out srv', srv.step m = some (out, srv') → ProperRun srv' ms

theorem run_counted (hs : srv.Sane) (hc : srv.Counted) {ms : List Message} (h : ProperRun srv ms) :
    ∃ out srv', srv.run ms = some (out, srv') ∧ srv'.Sane ∧ srv'.Counted := by
  induction ms generalizing srv with
  | nil => exact ⟨[], srv, rfl, hs, hc⟩
  | cons m ms ih =>
    obtain ⟨hproper, hrest⟩ := h
    obtain ⟨out, srv1, hstep, hhandled⟩ := step_handled hs m
    obtain ⟨more, srv', hrun, hsane, hcounted⟩ :=
      ih hhandled.sane (hhandled.counted hc hproper).1 (hrest out srv1 hstep)
    refine ⟨out ++ more, srv', ?_, hsane, hcounted⟩
    rw [Server.run, hstep]
    simp [hrun]

theorem start_counted (faults : List Bool) : (Server.start faults).Counted := by
  intro sid session hlookup
  rw [Server.start, AList.lookup_empty] at hlookup
  cases hlookup

theorem properRun_append {ms : List Message} {m : Message} (h : ProperRun srv (ms ++ [m])) :
    ProperRun srv ms ∧ ∀ out srv', srv.run ms = some (out, srv') → Proper srv' m := by
  induction ms generalizing srv with
  | nil =>
    refine ⟨trivial, ?_⟩
    intro out srv' hrun
    cases hrun
    exact h.1
  | cons m' ms ih =>
    refine ⟨⟨h.1, fun out srv' hstep => (ih (h.2 out srv' hstep)).1⟩, ?_⟩
    intro out srv' hrun
    rw [Server.run] at hrun
    cases hstep : srv.step m' with
    | none => simp [hstep] at hrun
    | some r =>
      obtain ⟨out1, srv1⟩ := r
      cases hrest : srv1.run ms with
      | none => simp [hstep, hrest] at hrun
      | some r' =>
        obtain ⟨out2, srv2⟩ := r'
        simp only [hstep, hrest, Option.bind_eq_bind, Option.bind_some, Option.some.injEq, Prod.mk.injEq] at hrun
        exact hrun.2 ▸ (ih (h.2 out1 srv1 hstep)).2 out2 srv2 hrest

/-- `refer_count` is the number of fids open on the channel, and the end of the file and SIGPIPE
come only where no fid is open at the other end. -/
theorem refer_count_eq_opened (faults : List Bool) (ms : List Message) (m : Message)
    (h : ProperRun (Server.start faults) (ms ++ [m])) :
    ∃ out srv out' srv', (Server.start faults).run ms = some (out, srv) ∧
      srv.step m = some (out', srv') ∧
      (∀ sid session i, srv'.sessions.lookup sid = some session →
        (session.pair i).referCount = session.opened i) ∧
      (∀ req, .rread req ∈ out' → req.position = 0 → req.count ≠ 0 →
        srv'.opened m.sid (!req.channel) = 0) ∧
      ∀ req, .kill req .pipe ∈ out' → srv'.opened m.sid req.channel = 0 := by
  obtain ⟨hms, hm⟩ := properRun_append h
  obtain ⟨out, srv, hrun, hsane, hcounted⟩ := run_counted (start_sane faults) (start_counted faults) hms
  obtain ⟨out', srv', hstep, hhandled⟩ := step_handled hsane m
  obtain ⟨hcounted', hevents⟩ := hhandled.counted hcounted (hm out srv hrun)
  refine ⟨out, srv, out', srv', hrun, hstep, ?_, ?_, ?_⟩
  · intro sid session i hlookup
    exact hcounted' sid session hlookup i
  · intro req hreq
    exact hevents _ hreq
  · intro req hreq
    exact hevents _ hreq rfl

def message (body : Body) : Message := ⟨0, 0, 0, body⟩

def openBoth : List Message :=
  [message (.attach 1 0 true true), message (.walk 1 2 4 (some nameData) true),
    message (.openFid 2 2), message (.walk 1 3 5 (some nameData1) true), message (.openFid 3 2)]

theorem clunk_of_walked_fid : ∃ out srv, (Server.start []).run
    (openBoth ++ [message (.walk 1 4 4 (some nameData) true), message (.clunk 4)]) = some (out, srv) ∧
    srv.opened 0 false = 1 ∧
    (srv.sessions.lookup 0).map (fun session => (session.pair false).referCount) = some 0 ∧
    ∃ req srv', srv.step (message (.write 3 1 (fun _ => 0) true)) =
      some ([.kill req .pipe, .rwrite req], srv') := by
  refine ⟨_, _, rfl, ?_, ?_, _, _, rfl⟩
  · decide +kernel
  · decide +kernel

theorem refer_count_sample : ∃ out srv out' srv', (Server.start []).run openBoth = some (out, srv) ∧
      srv.step (message (.clunk 2)) = some (out', srv') ∧
      (∀ sid session i, srv'.sessions.lookup sid = some session →
        (session.pair i).referCount = session.opened i) ∧
      (∀ req, .rread req ∈ out' → req.position = 0 → req.count ≠ 0 →
        srv'.opened 0 (!req.channel) = 0) ∧
      ∀ req, .kill req .pipe ∈ out' → srv'.opened 0 req.channel = 0 := by
  apply refer_count_eq_opened [] openBoth (message (.clunk 2))
  iterate 5
    refine ⟨trivial, fun _ _ h => ?_⟩
    cases h
  refine ⟨?_, fun _ _ _ => trivial⟩
  intro session file hsession hfile
  cases hsession
  cases hfile
  right
  decide

end Eotan.Pipe
