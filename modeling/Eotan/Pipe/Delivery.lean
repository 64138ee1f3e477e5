import Eotan.Pipe.Ends
import Eotan.Pipe.Stream

namespace Eotan.Pipe

open Channel
open List
open Option

def Request.isOn (sid : ℕ) (i : Bool) (req : Request) : Bool :=
  decide (req.sid = sid ∧ req.channel = i ∧ req.count ≠ 0)

def answeredReads (sid : ℕ) (i : Bool) (out : List Event) : List Request :=
  (readsOf out).filter (Request.isOn sid i)

def answeredWrites (sid : ℕ) (i : Bool) (out : List Event) : List Request :=
  (writesOf out).filter (Request.isOn sid i)

def Session.readsOn (session : Session) (sid : ℕ) (i : Bool) (ms : List Message) : List Request :=
  (ms.filterMap session.reads).filter (Request.isOn sid i)

def Session.writesOn (session : Session) (sid : ℕ) (i : Bool) (ms : List Message) : List Request :=
  (ms.filterMap session.writes).filter (Request.isOn sid i)

/-- How the channel `p` stands to the messages that have been served and the answers to them. -/
structure Delivered (session : Session) (sid : ℕ) (i : Bool) (ms : List Message)
    (out : List Event) (p : Channel) : Prop where
  readers : (answeredReads sid i out ++ p.readers).map Request.ident =
    (session.readsOn sid i ms).map Request.ident
  writers : (answeredWrites sid i out ++ p.writers).map Request.sent =
    (session.writesOn sid i ms).map Request.sent
  stream : (answeredReads sid i out ++ p.readers).flatMap Request.delivered ++ p.contents ++
    p.writers.flatMap Request.pending = (session.writesOn sid i ms).flatMap Request.pending
  settled : Settled p

variable {c : Conn} {req : Request} {out' : List Event} {p : Channel}

section Lists

variable {session : Session} {sid : ℕ} {i : Bool}

theorem answeredReads_append (out out' : List Event) : answeredReads sid i (out ++ out') =
    answeredReads sid i out ++ answeredReads sid i out' := by
  rw [answeredReads, readsOf_append, filter_append]
  rfl

theorem answeredWrites_append (out out' : List Event) : answeredWrites sid i (out ++ out') =
    answeredWrites sid i out ++ answeredWrites sid i out' := by
  rw [answeredWrites, writesOf_append, filter_append]
  rfl

theorem readsOn_append (ms ms' : List Message) : session.readsOn sid i (ms ++ ms') =
    session.readsOn sid i ms ++ session.readsOn sid i ms' := by
  rw [Session.readsOn, filterMap_append, filter_append]
  rfl

theorem writesOn_append (ms ms' : List Message) : session.writesOn sid i (ms ++ ms') =
    session.writesOn sid i ms ++ session.writesOn sid i ms' := by
  rw [Session.writesOn, filterMap_append, filter_append]
  rfl

variable {out : List Event}

theorem mem_readsOf : req ∈ readsOf out ↔ .rread req ∈ out := by
  unfold readsOf
  rw [mem_filterMap]
  constructor
  · rintro ⟨e, he, heq⟩
    cases e <;> cases heq
    exact he
  · intro h
    exact ⟨_, h, rfl⟩

theorem mem_writesOf : req ∈ writesOf out ↔ .rwrite req ∈ out := by
  unfold writesOf
  rw [mem_filterMap]
  constructor
  · rintro ⟨e, he, heq⟩
    cases e <;> cases heq
    exact he
  · intro h
    exact ⟨_, h, rfl⟩

def Silent (sid : ℕ) (i : Bool) (out : List Event) : Prop :=
  ∀ req, .rread req ∈ out ∨ .rwrite req ∈ out → req.isOn sid i = false

theorem Silent.reads (h : Silent sid i out) : answeredReads sid i out = [] := by
  rw [answeredReads, filter_eq_nil_iff]
  intro req hreq
  rw [h req (.inl (mem_readsOf.mp hreq))]
  simp

theorem Silent.writes (h : Silent sid i out) : answeredWrites sid i out = [] := by
  rw [answeredWrites, filter_eq_nil_iff]
  intro req hreq
  rw [h req (.inr (mem_writesOf.mp hreq))]
  simp

theorem silent_singleton {e : Event} (h : ∀ req, e = .rread req ∨ e = .rwrite req → req.count = 0) :
    Silent sid i [e] := by
  intro req hreq
  rw [mem_singleton, mem_singleton] at hreq
  have hcount := h req (hreq.imp Eq.symm Eq.symm)
  simp [Request.isOn, hcount]

theorem silent_of_local {sid' : ℕ} {j ended : Bool} (hc : c.Local sid' j ended)
    (hne : ¬(sid' = sid ∧ j = i)) : Silent sid i c.out := by
  intro req hreq
  have hhome : req.Home sid' j := by
    rcases hreq with hreq | hreq
    · exact (hc _ hreq).1
    · exact hc _ hreq
  have hoff : ¬(req.sid = sid ∧ req.channel = i ∧ req.count ≠ 0) := by
    rintro ⟨hsid, hchannel, -⟩
    exact hne ⟨hhome.1.symm.trans hsid, hhome.2.symm.trans hchannel⟩
  exact decide_eq_false hoff

end Lists

section Steps

variable {session : Session} {sid : ℕ} {i : Bool} {ms : List Message} {out : List Event}
  {p : Channel} {m : Message}

theorem Delivered.quiet (h : Delivered session sid i ms out p)
    (hreads : session.readsOn sid i [m] = []) (hwrites : session.writesOn sid i [m] = [])
    (hout : Silent sid i out') : Delivered session sid i (ms ++ [m]) (out ++ out') p := by
  refine ⟨?_, ?_, ?_, h.settled⟩
  · rw [answeredReads_append, readsOn_append, hout.reads, hreads, append_nil, append_nil]
    exact h.readers
  · rw [answeredWrites_append, writesOn_append, hout.writes, hwrites, append_nil, append_nil]
    exact h.writers
  · rw [answeredReads_append, writesOn_append, hout.reads, hwrites, append_nil, append_nil]
    exact h.stream

theorem isOn_of_ident {l l' : List Request} (heq : l.map Request.ident = l'.map Request.ident)
    (hl' : ∀ r ∈ l', r.isOn sid i = true) : ∀ r ∈ l, r.isOn sid i = true := by
  intro r hr
  have hmem : r.ident ∈ l'.map Request.ident := heq ▸ mem_map_of_mem hr
  obtain ⟨r', hr', hident⟩ := mem_map.mp hmem
  have hon : r'.ident.isOn sid i = r.ident.isOn sid i := congrArg (Request.isOn sid i) hident
  exact hon.symm.trans (hl' r' hr')

theorem isOn_of_sent {l l' : List Request} (heq : l.map Request.sent = l'.map Request.sent)
    (hl' : ∀ r ∈ l', r.isOn sid i = true) : ∀ r ∈ l, r.isOn sid i = true := by
  intro r hr
  have hmem : r.sent ∈ l'.map Request.sent := heq ▸ mem_map_of_mem hr
  obtain ⟨r', hr', hsent⟩ := mem_map.mp hmem
  have hon : r'.sent.isOn sid i = r.sent.isOn sid i := congrArg (Request.isOn sid i) hsent
  exact hon.symm.trans (hl' r' hr')

theorem mem_readsOn (h : req ∈ session.readsOn sid i ms) : req.isOn sid i = true ∧ req.delivered = [] := by
  obtain ⟨hmem, hon⟩ := mem_filter.mp h
  obtain ⟨m', -, hreads⟩ := mem_filterMap.mp hmem
  refine ⟨hon, ?_⟩
  rw [Request.delivered, (accepted_of_reads hreads).1.position]
  rfl

theorem Delivered.isOn (h : Delivered session sid i ms out p) :
    (∀ r ∈ p.readers, r.isOn sid i = true) ∧ ∀ r ∈ p.writers, r.isOn sid i = true := by
  constructor
  · intro r hr
    exact isOn_of_ident h.readers (fun r' hr' => (mem_filter.mp hr').2) r (mem_append_right _ hr)
  · intro r hr
    exact isOn_of_sent h.writers (fun r' hr' => (mem_filter.mp hr').2) r (mem_append_right _ hr)

theorem Delivered.served (h : Delivered session sid i ms out p) {c' : Conn} (hout : c.out = [])
    (hreaders : c.channel.readers = p.readers ++ session.readsOn sid i [m])
    (hwriters : c.channel.writers = p.writers ++ session.writesOn sid i [m])
    (hcontents : c.channel.contents = p.contents) (hcons : Conserved c c') (hsettled : Settled c'.channel) :
    Delivered session sid i (ms ++ [m]) (out ++ c'.out) c'.channel := by
  have hold := h.isOn
  have hreads : c.allReaders = p.readers ++ session.readsOn sid i [m] := by
    rw [Conn.allReaders, hout, hreaders]
    rfl
  have hwrites : c.allWriters = p.writers ++ session.writesOn sid i [m] := by
    rw [Conn.allWriters, hout, hwriters]
    rfl
  -- all that is answered was on the channel
  have hreadsOf : answeredReads sid i c'.out = readsOf c'.out := by
    rw [answeredReads, filter_eq_self]
    intro r hr
    apply isOn_of_ident (hcons.readers.trans (congrArg _ hreads)) _ r (mem_append_left _ hr)
    exact forall_mem_append.mpr ⟨hold.1, fun r' hr' => (mem_readsOn hr').1⟩
  have hwritesOf : answeredWrites sid i c'.out = writesOf c'.out := by
    rw [answeredWrites, filter_eq_self]
    intro r hr
    apply isOn_of_sent (hcons.writers.trans (congrArg _ hwrites)) _ r (mem_append_left _ hr)
    exact forall_mem_append.mpr ⟨hold.2, fun r' hr' => (mem_filter.mp hr').2⟩
  refine ⟨?_, ?_, ?_, hsettled⟩
  · rw [answeredReads_append, hreadsOf, readsOn_append, append_assoc, map_append]
    change _ ++ c'.allReaders.map Request.ident = _
    rw [hcons.readers, hreads, ← map_append, ← append_assoc, map_append, h.readers, map_append]
  · rw [answeredWrites_append, hwritesOf, writesOn_append, append_assoc, map_append]
    change _ ++ c'.allWriters.map Request.sent = _
    rw [hcons.writers, hwrites, ← map_append, ← append_assoc, map_append, h.writers, map_append]
  · have hnew : (session.readsOn sid i [m]).flatMap Request.delivered = [] := by
      rw [flatMap_eq_nil_iff]
      exact fun r hr => (mem_readsOn hr).2
    have hstream := hcons.stream
    rw [Conn.stream, Conn.stream, hreads, hcontents, hwriters, flatMap_append, hnew,
      append_nil, flatMap_append] at hstream
    have hbefore := h.stream
    rw [answeredReads_append, hreadsOf, writesOn_append]
    simp only [flatMap_append, append_assoc, Conn.allReaders] at hstream hbefore ⊢
    rw [hstream, ← hbefore]
    simp only [append_assoc]

end Steps

structure Flowing (session : Session) (sid : ℕ) (i : Bool) (ms : List Message) (out : List Event)
    (srv : Server) : Prop where
  sane : srv.Sane
  faults : srv.faults = []
  channel : ∃ session', srv.sessions.lookup sid = some session' ∧ session'.files = session.files ∧
    (∀ j, (session'.pair j).referCount = (session.pair j).referCount) ∧
    Delivered session sid i ms out (session'.pair i)

theorem reads_congr {session session' : Session} (h : session'.files = session.files)
    (m : Message) : session'.reads m = session.reads m := by
  unfold Session.reads
  rw [h]

theorem writes_congr {session session' : Session} (h : session'.files = session.files)
    (hrefer : ∀ j, (session'.pair j).referCount = (session.pair j).referCount) (m : Message) :
    session'.writes m = session.writes m := by
  unfold Session.writes
  simp only [h, hrefer]

section Flow

variable {session : Session} {sid : ℕ} {i : Bool} {ms : List Message} {out : List Event}
  {srv : Server} {m : Message}

theorem readsOn_singleton {o : Option Request} (h : session.reads m = o) :
    session.readsOn sid i [m] = o.toList.filter (Request.isOn sid i) := by
  rw [Session.readsOn]
  cases o <;> simp [h]

theorem writesOn_singleton {o : Option Request} (h : session.writes m = o) :
    session.writesOn sid i [m] = o.toList.filter (Request.isOn sid i) := by
  rw [Session.writesOn]
  cases o <;> simp [h]

theorem Flowing.quiet (h : Flowing session sid i ms out srv)
    (hreads : session.readsOn sid i [m] = []) (hwrites : session.writesOn sid i [m] = [])
    (hout : Silent sid i out') : Flowing session sid i (ms ++ [m]) (out ++ out') srv := by
  obtain ⟨session', hsession, hfiles, hrefer, hdelivered⟩ := h.channel
  exact ⟨h.sane, h.faults, session', hsession, hfiles, hrefer, hdelivered.quiet hreads hwrites hout⟩

variable {s : Session}

theorem Flowing.settle (h : Flowing session sid i ms out srv) {j ended : Bool}
    {c' : Conn} (hs : srv.sessions.lookup m.sid = some s) (hc : c'.Sane m.sid j ended)
    (hsteady : c.Steady c') (hrefer : c.channel.referCount = (s.pair j).referCount)
    (hfaults : c.faults = srv.faults) (hsane : (settle srv m.sid s j c').2.Sane)
    (hother : ¬(m.sid = sid ∧ j = i) → session.readsOn sid i [m] = [] ∧ session.writesOn sid i [m] = [])
    (hself : m.sid = sid → j = i → Delivered session sid i ms out (s.pair j) →
      Delivered session sid i (ms ++ [m]) (out ++ c'.out) c'.channel) :
    Flowing session sid i (ms ++ [m]) (out ++ c'.out) (settle srv m.sid s j c').2 := by
  refine ⟨hsane, hsteady.faults (hfaults.trans h.faults), ?_⟩
  obtain ⟨session', hsession, hfiles, hsame, hdelivered⟩ := h.channel
  by_cases hsid : m.sid = sid
  · subst hsid
    obtain rfl : s = session' := some.inj (hs.symm.trans hsession)
    refine ⟨s.setChannel j c'.channel, AList.lookup_insert _, hfiles, ?_, ?_⟩
    · intro k
      by_cases hk : k = j
      · subst hk
        rw [pair_setChannel_self, hsteady.referCount, hrefer, hsame]
      · rw [pair_setChannel_ne _ _ hk, hsame]
    · by_cases hj : j = i
      · subst hj
        rw [pair_setChannel_self]
        exact hself rfl rfl hdelivered
      · have hne : ¬(m.sid = m.sid ∧ j = i) := fun hboth => hj hboth.2
        rw [pair_setChannel_ne _ _ (Ne.symm hj)]
        exact hdelivered.quiet (hother hne).1 (hother hne).2 (silent_of_local hc.out hne)
  · have hne : ¬(m.sid = sid ∧ j = i) := fun hboth => hsid hboth.1
    refine ⟨session', ?_, hfiles, hsame,
      hdelivered.quiet (hother hne).1 (hother hne).2 (silent_of_local hc.out hne)⟩
    exact (AList.lookup_insert_ne (Ne.symm hsid)).trans hsession

theorem readsOn_of_none (h : session.reads m = none) : session.readsOn sid i [m] = [] := readsOn_singleton h

theorem writesOn_of_none (h : session.writes m = none) : session.writesOn sid i [m] = [] := writesOn_singleton h

theorem readsOn_of_sid_ne (h : m.sid ≠ sid) : session.readsOn sid i [m] = [] := by
  rw [readsOn_singleton rfl, filter_eq_nil_iff]
  intro req hreq hon
  have hacc := accepted_of_reads (mem_toList.mp hreq)
  exact h (hacc.1.sid.symm.trans (of_decide_eq_true hon).1)

theorem writesOn_of_sid_ne (h : m.sid ≠ sid) : session.writesOn sid i [m] = [] := by
  rw [writesOn_singleton rfl, filter_eq_nil_iff]
  intro req hreq hon
  have hacc := accepted_of_writes (mem_toList.mp hreq)
  exact h (hacc.1.sid.symm.trans (of_decide_eq_true hon).1)

theorem filter_isOn_of_channel_ne (h : req.channel ≠ i) : [req].filter (Request.isOn sid i) = [] := by
  simp [Request.isOn, h]

theorem filter_isOn_self (hacc : Accepted m req) : [req].filter (Request.isOn m.sid req.channel) = [req] := by
  simp [Request.isOn, hacc.sid, hacc.count]

theorem Flowing.same (h : Flowing session sid i ms out srv)
    (hs : srv.sessions.lookup m.sid = some s) (hsid : m.sid = sid) :
    s.reads m = session.reads m ∧ s.writes m = session.writes m ∧
      ∀ j, (s.pair j).referCount = (session.pair j).referCount := by
  obtain ⟨session', hsession, hfiles, hrefer, -⟩ := h.channel
  subst hsid
  obtain rfl : s = session' := some.inj (hs.symm.trans hsession)
  exact ⟨reads_congr hfiles m, writes_congr hfiles hrefer m, hrefer⟩

theorem Flowing.of_quiet (h : Flowing session sid i ms out srv) (hquiet : srv.Quiet m) :
    session.readsOn sid i [m] = [] ∧ session.writesOn sid i [m] = [] := by
  by_cases hsid : m.sid = sid
  · obtain ⟨s, hs, -⟩ := h.channel
    rw [← hsid] at hs
    obtain ⟨hreads, hwrites, -⟩ := h.same hs hsid
    have hnone := hquiet s hs
    exact ⟨readsOn_of_none (hreads.symm.trans hnone.1), writesOn_of_none (hwrites.symm.trans hnone.2)⟩
  · exact ⟨readsOn_of_sid_ne hsid, writesOn_of_sid_ne hsid⟩

theorem Joins.delivered {loop : Bool → ℕ → Conn → Option Conn} (hjoins : Joins s m req p loop)
    (hreads : s.reads m = session.reads m) (hwrites : s.writes m = session.writes m)
    (hrounds : loop false (unread p + 1) ⟨p, [], []⟩ = some c)
    (h : Delivered session m.sid req.channel ms out (s.pair req.channel)) :
    Delivered session m.sid req.channel (ms ++ [m]) (out ++ c.out) c.channel := by
  have hacc := hjoins.accepted
  cases hjoins with
  | read hreq =>
    obtain ⟨c1, hrounds1, hcons, hsettled⟩ := (rounds_spec _).1 _ _
      ⟨⟨rfl, rfl, rfl, rfl⟩, h.settled.beforeRead hacc.position hacc.count⟩ (Nat.lt_succ_self _)
    obtain rfl : c1 = c := some.inj (hrounds1.symm.trans hrounds)
    refine h.served rfl ?_ ?_ rfl hcons hsettled
    · rw [readsOn_singleton (hreads.symm.trans hreq), toList_some, filter_isOn_self hacc]
    · rw [writesOn_of_none (hwrites.symm.trans (accepted_of_reads hreq).2.1), append_nil]
  | write hreq =>
    obtain ⟨c1, hrounds1, hcons, hsettled⟩ := (rounds_spec _).2 _ _
      ⟨⟨rfl, rfl, rfl, rfl⟩, h.settled.beforeWrite hacc.position hacc.count⟩ (Nat.lt_succ_self _)
    obtain rfl : c1 = c := some.inj (hrounds1.symm.trans hrounds)
    refine h.served rfl ?_ ?_ rfl hcons hsettled
    · rw [readsOn_of_none (hreads.symm.trans (accepted_of_writes hreq).2.1), append_nil]
    · rw [writesOn_singleton (hwrites.symm.trans hreq), toList_some, filter_isOn_self hacc]

theorem Joins.elsewhere {loop : Bool → ℕ → Conn → Option Conn} (hjoins : Joins s m req p loop)
    (hsame : m.sid = sid → s.reads m = session.reads m ∧ s.writes m = session.writes m)
    (hne : ¬(m.sid = sid ∧ req.channel = i)) :
    session.readsOn sid i [m] = [] ∧ session.writesOn sid i [m] = [] := by
  by_cases hsid : m.sid = sid
  · obtain ⟨hreads, hwrites⟩ := hsame hsid
    have hfilter : [req].filter (Request.isOn sid i) = [] := filter_isOn_of_channel_ne fun hi => hne ⟨hsid, hi⟩
    cases hjoins with
    | read hreq =>
      rw [readsOn_singleton (hreads.symm.trans hreq)]
      exact ⟨hfilter, writesOn_of_none (hwrites.symm.trans (accepted_of_reads hreq).2.1)⟩
    | write hreq =>
      rw [writesOn_singleton (hwrites.symm.trans hreq)]
      exact ⟨readsOn_of_none (hreads.symm.trans (accepted_of_writes hreq).2.1), hfilter⟩
  · exact ⟨readsOn_of_sid_ne hsid, writesOn_of_sid_ne hsid⟩

theorem Served.flowing {accepted : Multiset Request} {srv' : Server}
    (hserved : Served srv m accepted out' srv') (h : Flowing session sid i ms out srv)
    (hopen : ∀ j, (session.pair j).referCount ≠ 0) (hm : m.isTransfer = true) :
    Flowing session sid i (ms ++ [m]) (out ++ out') srv' := by
  have hquietly {out' : List Event} (hquiet : srv.Quiet m) (hout : Silent sid i out') :
      Flowing session sid i (ms ++ [m]) (out ++ out') srv :=
    h.quiet (h.of_quiet hquiet).1 (h.of_quiet hquiet).2 hout
  have hsane : srv'.Sane := (hserved.handled h.sane).sane
  cases hserved with
  | plain hquiet he =>
    apply hquietly hquiet
    apply silent_singleton
    rintro req (rfl | rfl) <;> exact he.elim
  | empty hquiet he hcount =>
    apply hquietly hquiet
    apply silent_singleton
    rintro req (rfl | rfl) <;> rcases he with he | he <;> cases he <;> exact hcount
  | @broken s req hquiet hs hrefer hreq =>
    -- SIGPIPE is raised in another session only
    have hsid : m.sid ≠ sid := by
      intro hsid
      rw [(h.same hs hsid).2.2] at hrefer
      exact hopen _ hrefer
    apply hquietly hquiet
    intro req' hreq'
    have heq : req' = req := by
      rcases hreq' with hreq' | hreq' <;> rcases mem_pair.mp hreq' with hreq' | hreq' <;> cases hreq'
      rfl
    have hoff : ¬(req'.sid = sid ∧ req'.channel = i ∧ req'.count ≠ 0) := by
      rintro ⟨hon, -⟩
      rw [heq, hreq] at hon
      exact hsid hon
    exact decide_eq_false hoff
  | clunked hbody =>
    rw [Message.isTransfer, hbody] at hm
    cases hm
  | @moved s req p loop c hs hjoins hrounds hc hsteady =>
    refine h.settle hs hc hsteady hjoins.referCount rfl hsane ?_ ?_
    · exact hjoins.elsewhere fun hsid => ⟨(h.same hs hsid).1, (h.same hs hsid).2.1⟩
    · rintro rfl rfl hdelivered
      obtain ⟨hreads, hwrites, hrefer⟩ := h.same hs rfl
      have hended : s.ended req = false := by
        rw [Session.ended, hrefer]
        exact decide_eq_false (hopen _)
      rw [hended, h.faults] at hrounds
      exact hjoins.delivered hreads hwrites hrounds hdelivered
  | attached hother | walked hother | unwalked hother | opened hother =>
    rw [hother] at hm
    cases hm

section

variable (h : Flowing session sid i ms out srv) (hopen : ∀ j, (session.pair j).referCount ≠ 0)
include h hopen

theorem step_flowing (hm : m.isTransfer = true) : ∃ out' srv', srv.step m = some (out', srv') ∧
      Flowing session sid i (ms ++ [m]) (out ++ out') srv' := by
  obtain ⟨out', srv', hstep, hserved⟩ := step_served h.sane m
  exact ⟨out', srv', hstep, hserved.flowing h hopen hm⟩

theorem run_flowing {ms' : List Message}
    (hms : ∀ m ∈ ms', m.isTransfer = true) : ∃ out' srv', srv.run ms' = some (out', srv') ∧
      Flowing session sid i (ms ++ ms') (out ++ out') srv' := by
  induction ms' generalizing ms out srv with
  | nil => exact ⟨[], srv, rfl, by rwa [append_nil, append_nil]⟩
  | cons m ms' ih =>
    obtain ⟨hm, hms⟩ := forall_mem_cons.mp hms
    obtain ⟨out1, srv1, hstep, h1⟩ := step_flowing h hopen hm
    obtain ⟨out2, srv2, hrun, h2⟩ := ih h1 hms
    refine ⟨out1 ++ out2, srv2, ?_, ?_⟩
    · rw [Server.run, hstep]
      simp [hrun]
    · simpa only [append_assoc, singleton_append] using h2

end

end Flow

structure Channel.Idle (p : Channel) : Prop where
  readers : p.readers = []
  writers : p.writers = []
  contents : p.contents = []

theorem Channel.Idle.delivered (h : p.Idle) (hgood : p.Good) (session : Session)
    (sid : ℕ) (i : Bool) : Delivered session sid i [] [] p := by
  refine ⟨?_, ?_, ?_, hgood, ?_, ?_, ?_, ?_, ?_⟩
  · rw [h.readers]
    rfl
  · rw [h.writers]
    rfl
  · rw [h.readers, h.writers, h.contents]
    rfl
  · simp [h.readers]
  · simp [h.writers]
  · exact fun hne => absurd h.writers hne
  · exact fun hne => absurd h.readers hne
  · simp [h.readers]

/-- What the readers of the channel have got is the beginning of what its writers sent, the rest
being in the buffer and with the writers that wait. -/
theorem delivered_in_order (faults : List Bool) (ms₀ : List Message) (out₀ : List Event)
    (srv : Server) (hreach : (Server.start faults).run ms₀ = some (out₀, srv))
    (hfaults : srv.faults = []) (sid : ℕ) (session : Session) (i : Bool)
    (hsession : srv.sessions.lookup sid = some session)
    (hopen : ∀ j, (session.pair j).referCount ≠ 0) (hidle : (session.pair i).Idle)
    (ms : List Message) (hms : ∀ m ∈ ms, m.isTransfer = true) :
    ∃ out srv' session', srv.run ms = some (out, srv') ∧
      srv'.sessions.lookup sid = some session' ∧
      let p := session'.pair i
      let readers := answeredReads sid i out ++ p.readers
      let writers := answeredWrites sid i out ++ p.writers
      let sent := (session.writesOn sid i ms).flatMap Request.pending
      readers.map Request.ident = (session.readsOn sid i ms).map Request.ident ∧
      writers.map Request.sent = (session.writesOn sid i ms).map Request.sent ∧
      readers.flatMap Request.delivered <+: sent ∧
      readers.flatMap Request.delivered ++ p.contents ++ p.writers.flatMap Request.pending = sent ∧
      (p.writers ≠ [] → p.Full) ∧
      (p.readers ≠ [] → p.contents = [] ∧ ∀ req ∈ p.readers, req.delivered = []) ∧
      (p.readers = [] ∨ p.writers = []) := by
  obtain ⟨out1, srv1, hrun1, hsane⟩ := run_sane (start_sane faults) ms₀
  rw [hreach] at hrun1
  cases hrun1
  have hgood := (hsane sid session hsession).channels i
  have hstart : Flowing session sid i [] [] srv :=
    ⟨hsane, hfaults, session, hsession, rfl, fun _ => rfl, hidle.delivered hgood.good session sid i⟩
  obtain ⟨out, srv', hrun, hflow⟩ := run_flowing hstart hopen hms
  obtain ⟨session', hsession', -, -, hdelivered⟩ := hflow.channel
  refine ⟨out, srv', session', hrun, hsession', hdelivered.readers, hdelivered.writers, ?_,
    hdelivered.stream, hdelivered.settled.full, ?_, hdelivered.settled.not_both⟩
  · have hstream := hdelivered.stream
    rw [append_assoc] at hstream
    exact ⟨_, hstream⟩
  · intro hne
    refine ⟨hdelivered.settled.empty hne, ?_⟩
    intro req hreq
    rw [Request.delivered, hdelivered.settled.fresh req hreq]
    rfl

def twoAndThree : List Message :=
  [message (.read 2 2 (fun _ => 0) true), message (.write 3 3 (fun i => UInt8.ofNat (i + 7)) true),
    message (.read 2 5 (fun _ => 0) true), message (.read 2 5 (fun _ => 0) true)]

theorem delivered_in_order_sample : ∃ out₀ srv session out srv' session',
    (Server.start []).run openBoth = some (out₀, srv) ∧
      srv.sessions.lookup 0 = some session ∧ srv.run twoAndThree = some (out, srv') ∧
      srv'.sessions.lookup 0 = some session' ∧
      (answeredReads 0 false out ++ (session'.pair false).readers).flatMap Request.delivered <+:
        (session.writesOn 0 false twoAndThree).flatMap Request.pending ∧
      (session.writesOn 0 false twoAndThree).flatMap Request.pending = [7, 8, 9] := by
  have h := delivered_in_order [] openBoth _ _ rfl rfl 0 _ false rfl (by decide) ⟨rfl, rfl, rfl⟩
    twoAndThree (by decide)
  obtain ⟨out, srv', session', hrun, hsession', -, -, hpre, -⟩ := h
  exact ⟨_, _, _, out, srv', session', rfl, rfl, hrun, hsession', hpre, by decide +kernel⟩

end Eotan.Pipe
