import Eotan.Kernel.Actions

namespace Eotan.Kernel

open Eotan.Sequence
open Function
open List
open Option

inductive Reachable (P : State → Event → Prop) : State → Prop
  | boot : Reachable P boot
  | step {s : State} {e : Event} {o : Outcome} :
    Reachable P s → P s e → step s e = some o → Reachable P o.state

variable {s s' : State} {es : List Event} {key t : ℕ} {x y : Table} {e : Event}
  {handed handed' : List ℕ}

theorem Reachable.base {P : State → Event → Prop} (h : Reachable P s) : Base s ∧ Active s := by
  induction h with
  | boot => exact ⟨boot_base, boot_active⟩
  | step _ _ hs ih =>
    have := step_stepped ih.1 ih.2 hs
    exact ⟨this.base, this.active⟩

theorem Reachable.run {P : State → Event → Prop}
    (h : Reachable P s) (hr : run s es = some s') (hP : ∀ e ∈ es, ∀ s, P s e) : Reachable P s' := by
  induction es generalizing s with
  | nil =>
    cases hr
    exact h
  | cons e es ih =>
    simp only [Kernel.run, bind_eq_bind, bind_eq_some_iff] at hr
    obtain ⟨o, hs, hr⟩ := hr
    obtain ⟨he, hP⟩ := forall_mem_cons.mp hP
    exact ih (h.step (he s) hs) hr hP

def Outstanding (s : State) (key : ℕ) : Prop :=
  ∃ t th, s.threads t = some th ∧ th.cont = .call key ∧
    (th.wait.type ≠ .none ∨ th.wait.result ≠ 0)

theorem outstanding_iff : Outstanding s key ↔ ∃ t b, calls s t = some (key, b) := by
  constructor
  · rintro ⟨t, th, ht, hc, h⟩
    refine ⟨t, decide (th.wait.type = .reply), ?_⟩
    rw [calls_of_thread ht, callView, hc]
    exact if_pos h
  · rintro ⟨t, b, h⟩
    simp only [calls, bind_eq_some_iff] at h
    obtain ⟨th, ht, hv⟩ := h
    unfold callView at hv
    split at hv
    · split_ifs at hv with hw
      cases hv
      exact ⟨t, th, ht, by assumption, hw⟩
    · cases hv

def Answers (s : State) : Event → Prop
  | .op (.ipcSend tag _ size copyOk) =>
    keyOfIpc tag ≠ 0 → Outstanding s (keyOfIpc tag) → Delivered s (keyOfIpc tag) size copyOk
  | _ => True

structure Attended (x : Table) : Prop where
  entry : ∀ t key b, x.calls t = some (key, b) → (x.entries key).isSome
  owner : ∀ t u key b c, x.calls t = some (key, b) → x.calls u = some (key, c) → t = u
  linked : ∀ t key, x.calls t = some (key, true) → t ∈ x.queue key

theorem Base.queue_calls (h : Base s) (hm : t ∈ s.queues (.reply key)) : calls s t = some (key, true) := by
  obtain ⟨th, ht, hw⟩ := h.queued _ _ hm
  obtain ⟨hty, hc, -⟩ := (h.thread t th ht).of_reply hw
  rw [calls_of_thread ht]
  simp [callView, hty, hc]

theorem Attended.leave (h : Attended x) (hc : y.calls = update x.calls t none)
    (he : ∀ u k b, u ≠ t → x.calls u = some (k, b) → (y.entries k).isSome)
    (hq : ∀ k u, u ≠ t → u ∈ x.queue k → u ∈ y.queue k) : Attended y := by
  have hold : ∀ u k c, y.calls u = some (k, c) → u ≠ t ∧ x.calls u = some (k, c) := by
    intro u k c hu
    rw [hc, update_apply] at hu
    split_ifs at hu with hut
    exact ⟨hut, hu⟩
  constructor
  · intro u k c hu
    obtain ⟨hne, hu⟩ := hold u k c hu
    exact he u k c hne hu
  · intro u v k c d hu hv
    exact h.owner u v k c d (hold u k c hu).2 (hold v k d hv).2
  · intro u k hu
    obtain ⟨hne, hu⟩ := hold u k true hu
    exact hq k u hne (h.linked u k hu)

theorem Attended.entry_of_ne {u k : ℕ} {b c : Bool} (h : Attended x)
    (ht : x.calls t = some (key, b)) (hne : u ≠ t) (hu : x.calls u = some (k, c)) :
    (update x.entries key none k).isSome := by
  rw [update_apply, if_neg]
  · exact h.entry u k c hu
  · rintro rfl
    exact hne (h.owner u t k c b hu ht)

theorem Attended.enter {max : ℕ} {b : Bool} {l : List ℕ} (h : Attended x)
    (hn : x.entries key = none) (ht : x.calls t = none) (he : y.entries = update x.entries key (some max))
    (hc : y.calls = update x.calls t (some (key, b)))
    (hq : y.queue = update x.queue key l) (hl : b = true → t ∈ l) : Attended y := by
  have hkey : ∀ u k c, x.calls u = some (k, c) → k ≠ key := by
    rintro u k c hu rfl
    have := h.entry u k c hu
    simp [hn] at this
  have hold : ∀ u k c, y.calls u = some (k, c) →
      (u = t ∧ k = key ∧ c = b) ∨ (x.calls u = some (k, c) ∧ k ≠ key) := by
    intro u k c hu
    rw [hc, update_apply] at hu
    split_ifs at hu with hut
    · cases hu
      exact .inl ⟨hut, rfl, rfl⟩
    · exact .inr ⟨hu, hkey u k c hu⟩
  constructor
  · intro u k c hu
    rw [he, update_apply]
    rcases hold u k c hu with ⟨-, rfl, -⟩ | ⟨hu, hne⟩
    · simp
    · rw [if_neg hne]
      exact h.entry u k c hu
  · intro u v k c d hu hv
    rcases hold u k c hu with ⟨rfl, rfl, -⟩ | ⟨hu, hne⟩
    · rcases hold v k d hv with ⟨rfl, -, -⟩ | ⟨-, hne⟩
      · rfl
      · exact absurd rfl hne
    · rcases hold v k d hv with ⟨-, hk, -⟩ | ⟨hv, -⟩
      · exact absurd hk hne
      · exact h.owner u v k c d hu hv
  · intro u k hu
    rw [hq, update_apply]
    rcases hold u k true hu with ⟨rfl, rfl, hb⟩ | ⟨hu, hne⟩
    · rw [if_pos rfl]
      exact hl hb.symm
    · rw [if_neg hne]
      exact h.linked u k hu

theorem attended_change {handed : Option ℕ}
    (h : Attended (table s)) (hP : Answers s e) (hc : Change s e handed y) : Attended y := by
  cases hc with
  | keep _ => exact h
  | clear key hn =>
    refine ⟨h.entry, h.owner, ?_⟩
    intro t k ht
    have hk : k ≠ key := by
      rintro rfl
      have := h.entry t k true ht
      simp [table, hn] at this
    simp only [update_of_ne hk]
    exact h.linked t k ht
  | call key max _ _ hn ht => exact h.enter hn ht rfl rfl rfl (by simp)
  | wait key max _ _ hn ht => exact h.enter hn ht rfl rfl rfl (by simp)
  | receive p t key th _ _ _ _ hn ht =>
    have hold : ∀ u k c, update (calls s) t (some (key, true)) u = some (k, c) →
        ∃ c', calls s u = some (k, c') := by
      intro u k c hu
      rw [update_apply] at hu
      split_ifs at hu with hut
      · cases hu
        exact ⟨false, hut ▸ ht⟩
      · exact ⟨c, hu⟩
    constructor
    · intro u k c hu
      obtain ⟨c', hu⟩ := hold u k c hu
      exact h.entry u k c' hu
    · intro u v k c d hu hv
      obtain ⟨c', hu⟩ := hold u k c hu
      obtain ⟨d', hv⟩ := hold v k d hv
      exact h.owner u v k c' d' hu hv
    · intro u k hu
      simp only [update_apply] at hu ⊢
      split_ifs at hu with hut
      · cases hu
        simp [hut]
      have := h.linked u k hu
      split_ifs with hk
      · subst hk
        exact mem_append_left _ this
      · exact this
  | deliver t key _ ht hm =>
    refine h.leave rfl (fun u k b hne hu => h.entry_of_ne ht hne hu) ?_
    intro k u hne hu
    exact (mem_erase_of_ne hne).mpr hu
  | refuse tag message size copyOk he hkey hd =>
    subst he
    have hno : ∀ t b, calls s t ≠ some (keyOfIpc tag, b) := by
      intro t b ht
      exact hd (hP hkey (outstanding_iff.mpr ⟨t, b, ht⟩))
    refine ⟨?_, h.owner, h.linked⟩
    intro t k b ht
    have hk : k ≠ keyOfIpc tag := by
      rintro rfl
      exact hno t b ht
    simp only [update_of_ne hk]
    exact h.entry t k b ht
  | fail t key _ ht =>
    exact h.leave rfl (fun u k b hne hu => h.entry_of_ne ht hne hu) fun _ _ _ hu => hu
  | terminate t he =>
    refine h.leave rfl (fun u k b _ hu => h.entry u k b hu) ?_
    intro k u hne hu
    exact (mem_erase_of_ne hne).mpr hu

theorem boot_calls (t : ℕ) : calls boot t = none := by
  simp only [calls, boot, update_apply]
  split_ifs <;> rfl

theorem Reachable.attended (h : Reachable Answers s) : Attended (table s) := by
  induction h with
  | boot =>
    constructor <;> simp [table, boot_calls]
  | step hr hP hs ih =>
    have hb := hr.base
    exact attended_change ih hP (step_stepped hb.1 hb.2 hs).change

theorem wait_reply_reachable {s : State} {t : ℕ} {th : Thread} (h : Reachable Answers s)
    (ht : s.threads t = some th) (hty : th.wait.type = .reply) :
    ∃ key maxReply, th.cont = .call key ∧ s.replies key = some maxReply ∧
      s.queues (.reply key) = [t] ∧ keyOfIpc (createIpcTag t key) = key ∧
      ∀ size ≤ maxReply, Delivered s key size true := by
  have hbase := h.base.1
  have hatt := h.attended
  have hok := hbase.thread t th ht
  simp only [ThreadOk, hty] at hok
  obtain ⟨-, -, key, hw, hc⟩ := hok
  have hcall : calls s t = some (key, true) := by
    rw [calls_of_thread ht]
    simp [callView, hty, hc]
  have hentry : (s.replies key).isSome := hatt.entry t key true hcall
  obtain ⟨maxReply, hr⟩ := isSome_iff_exists.mp hentry
  have hq : s.queues (.reply key) = [t] := by
    have hall : ∀ u ∈ s.queues (.reply key), u = t := by
      intro u hu
      exact hatt.owner u t key true true (hbase.queue_calls hu) hcall
    have hm : t ∈ s.queues (.reply key) := hatt.linked t key hcall
    have hn := hbase.nodup (.reply key)
    cases hl : s.queues (.reply key) with
    | nil => simp [hl] at hm
    | cons a l =>
      rw [hl] at hall hn
      have ha := hall a mem_cons_self
      cases l with
      | nil => rw [ha]
      | cons b l =>
        have hb := hall b (by simp)
        simp [ha, hb] at hn
  refine ⟨key, maxReply, hc, hr, hq, ?_, ?_⟩
  · have hid : t < 2 ^ 16 := hbase.id t (by rw [ht]; rfl)
    have hk : key < 1024 := (hbase.key key hentry).2
    exact keyOfIpc_createIpcTag hid (by omega)
  · intro size hs
    exact ⟨maxReply, hr, hs, by simp [hq], rfl⟩

def callRun : List Event :=
  [.op (.threadCreate 3 taAct 2 kthreadStackSize true true),
    .op (.ipcOpen (some ⟨taTfifo, 16, 16⟩)),
    .op (.ipcReceive 3 0 true),
    .op (.threadCreate 4 taAct 3 kthreadStackSize true true),
    .op (.ipcCall 3 0 8 true true)]

def view (es : List Event) (t key : ℕ) : Option (Status × WaitType × Cont × Option ℕ) :=
  (run boot es).bind fun s =>
    (s.threads t).map fun th => (th.status, th.wait.type, th.cont, s.replies key)

theorem exists_of_view {status : Status} {type : WaitType}
    {cont : Cont} {entry : Option ℕ} (h : view es t key = some (status, type, cont, entry)) :
    ∃ s th, run boot es = some s ∧ s.threads t = some th ∧ th.status = status ∧
      th.wait.type = type ∧ th.cont = cont ∧ s.replies key = entry := by
  simp only [view, bind_eq_some_iff, map_eq_some_iff, Prod.mk.injEq] at h
  obtain ⟨s, hs, th, ht, h1, h2, h3, h4⟩ := h
  exact ⟨s, th, hs, ht, h1, h2, h3, h4⟩

theorem wait_reply_reachable_sample : ∃ s th, run boot callRun = some s ∧
    s.threads 4 = some th ∧ Blocked th ∧ th.wait.type = .reply ∧
    ∃ key maxReply, th.cont = .call key ∧ s.replies key = some maxReply ∧
      s.queues (.reply key) = [4] := by
  have hview : view callRun 4 1 = some (.wai, .reply, .call 1, some 16) := by decide
  obtain ⟨s, th, hs, ht, hst, hty, -, -⟩ := exists_of_view hview
  have hreach : Reachable Answers s := by
    refine Reachable.boot.run hs ?_
    intro e he s
    simp only [callRun, mem_cons, not_mem_nil, or_false] at he
    rcases he with rfl | rfl | rfl | rfl | rfl <;> trivial
  obtain ⟨key, maxReply, hc, hr, hq, -⟩ := wait_reply_reachable hreach ht hty
  exact ⟨s, th, hs, ht, .inl hst, hty, key, maxReply, hc, hr, hq⟩

def refuseRun (size : ℕ) (copyOk : Bool) : List Event :=
  callRun ++ [.finish, .op (.ipcSend (createIpcTag 4 1) 0 size copyOk)]

theorem refuseRun_view {size : ℕ} {copyOk : Bool}
    (h : view (refuseRun size copyOk) 4 1 = some (.wai, .reply, .call 1, none)) : ∃ s th,
    run boot (refuseRun size copyOk) = some s ∧ s.threads 4 = some th ∧ Blocked th ∧
      th.wait.type = .reply ∧ th.cont = .call 1 ∧ s.replies 1 = none := by
  obtain ⟨s, th, hs, ht, hst, hty, hc, hr⟩ := exists_of_view h
  exact ⟨s, th, hs, ht, .inl hst, hty, hc, hr⟩

theorem wait_reply_orphaned :
    (∃ s th, run boot (refuseRun 17 true) = some s ∧ s.threads 4 = some th ∧ Blocked th ∧
      th.wait.type = .reply ∧ th.cont = .call 1 ∧ s.replies 1 = none) ∧
    ∃ s th, run boot (refuseRun 8 false) = some s ∧ s.threads 4 = some th ∧ Blocked th ∧
      th.wait.type = .reply ∧ th.cont = .call 1 ∧ s.replies 1 = none :=
  ⟨refuseRun_view (by decide), refuseRun_view (by decide)⟩

/-- The keys whose tag has been handed to a receiver and whose rendezvous is still there. Every
`ipc_send` with the tag takes it away. -/
def handedKeys (handed : List ℕ) (o : Outcome) : List ℕ :=
  ((o.handed.map keyOfIpc).toList ++ handed).filter fun k => (o.state.replies k).isSome

inductive Traced (P : State → List ℕ → Event → Prop) : State → List ℕ → Prop
  | boot : Traced P boot []
  | step {s : State} {handed : List ℕ} {e : Event} {o : Outcome} :
    Traced P s handed → P s handed e → step s e = some o →
      Traced P o.state (handedKeys handed o)

def trace (s : State) (handed : List ℕ) : List Event → Option (State × List ℕ)
  | [] => some (s, handed)
  | e :: es => do
    let o ← step s e
    trace o.state (handedKeys handed o) es

def Spares (s : State) (handed : List ℕ) : Event → Prop
  | .op (.threadTerminate t) => ∀ th key, s.threads t = some th → th.cont = .call key →
      (th.wait.type ≠ .none ∨ th.wait.result ≠ 0) → (s.replies key).isSome → key ∈ handed
  | _ => True

def Covered (x : Table) (handed : List ℕ) : Prop :=
  ∀ key, (x.entries key).isSome → (∃ t b, x.calls t = some (key, b)) ∨ key ∈ handed

theorem mem_handedKeys {o : Outcome} : key ∈ handedKeys handed o ↔
      (o.handed.map keyOfIpc = some key ∨ key ∈ handed) ∧ (o.state.replies key).isSome := by
  simp only [handedKeys, mem_filter, mem_append, mem_toList]

theorem covered_change {new : Option ℕ} (h : Covered (table s) handed) (hP : Spares s handed e)
    (hk : ∀ key, (y.entries key).isSome → key ∈ handed → key ∈ handed')
    (hc : Change s e new y) : Covered y handed' := by
  intro key hkey
  -- what the change leaves of an owner the key had before
  have hold : (s.replies key).isSome →
      (∀ t b, calls s t = some (key, b) → (∃ u c, y.calls u = some (key, c)) ∨ key ∈ handed) →
      (∃ u c, y.calls u = some (key, c)) ∨ key ∈ handed' := by
    intro hs hown
    rcases h key hs with ⟨t, b, ht⟩ | hm
    · rcases hown t b ht with hu | hm
      · exact .inl hu
      · exact .inr (hk key hkey hm)
    · exact .inr (hk key hkey hm)
  have hne : ∀ {k : ℕ}, (update s.replies k none key).isSome → key ≠ k ∧ (s.replies key).isSome := by
    intro k hs
    rw [update_apply] at hs
    split_ifs at hs with he
    · simp at hs
    · exact ⟨he, hs⟩
  cases hc with
  | keep _ => exact hold hkey fun t b ht => .inl ⟨t, b, ht⟩
  | clear _ _ => exact hold hkey fun t b ht => .inl ⟨t, b, ht⟩
  | call k max _ _ hn ht | wait k max _ _ hn ht =>
    by_cases he : key = k
    · subst he
      exact .inl ⟨s.running, _, update_self ..⟩
    simp only [update_of_ne he] at hkey
    apply hold hkey
    intro u b hu
    refine .inl ⟨u, b, (update_of_ne ?_ _ _).trans hu⟩
    rintro rfl
    rw [ht] at hu
    cases hu
  | receive p t k th _ _ _ _ hn ht =>
    apply hold hkey
    intro u b hu
    by_cases he : u = t
    · subst he
      rw [ht] at hu
      cases hu
      exact .inl ⟨u, true, update_self ..⟩
    · exact .inl ⟨u, b, (update_of_ne he _ _).trans hu⟩
  | deliver t k _ ht _ | fail t k _ ht =>
    obtain ⟨he, hs⟩ := hne hkey
    apply hold hs
    intro u b hu
    refine .inl ⟨u, b, (update_of_ne ?_ _ _).trans hu⟩
    rintro rfl
    rw [ht] at hu
    cases hu
    exact he rfl
  | refuse tag message size copyOk he _ _ =>
    exact hold (hne hkey).2 fun t b ht => .inl ⟨t, b, ht⟩
  | terminate t he =>
    subst he
    apply hold hkey
    intro u b hu
    by_cases hut : u = t
    · subst hut
      simp only [calls, bind_eq_some_iff] at hu
      obtain ⟨th, ht, hv⟩ := hu
      unfold callView at hv
      split at hv
      · split_ifs at hv with hw
        cases hv
        exact .inr (hP th _ ht (by assumption) hw hkey)
      · cases hv
    · exact .inl ⟨u, b, (update_of_ne hut _ _).trans hu⟩

theorem Traced.covered (h : Traced Spares s handed) : Base s ∧ Active s ∧ Covered (table s) handed := by
  induction h with
  | boot =>
    refine ⟨boot_base, boot_active, ?_⟩
    intro key hkey
    simp [table, Kernel.boot] at hkey
  | step _ hP hs ih =>
    obtain ⟨hb, ha, hcov⟩ := ih
    have hst := step_stepped hb ha hs
    refine ⟨hst.base, hst.active, covered_change hcov hP ?_ hst.change⟩
    intro key hkey hm
    exact mem_handedKeys.mpr ⟨.inr hm, hkey⟩

theorem Traced.trace {P : State → List ℕ → Event → Prop} (h : Traced P s handed) (ht : trace s handed es = some (s', handed'))
    (hP : ∀ e ∈ es, ∀ s handed, P s handed e) : Traced P s' handed' := by
  induction es generalizing s handed with
  | nil =>
    cases ht
    exact h
  | cons e es ih =>
    simp only [Kernel.trace, bind_eq_bind, bind_eq_some_iff] at ht
    obtain ⟨o, hs, ht⟩ := ht
    obtain ⟨he, hP⟩ := forall_mem_cons.mp hP
    exact ih (h.step (he s handed) hs) ht hP

theorem trace_run (handed : List ℕ) (h : run s es = some s') :
    ∃ handed', trace s handed es = some (s', handed') := by
  induction es generalizing s handed with
  | nil =>
    cases h
    exact ⟨handed, rfl⟩
  | cons e es ih =>
    simp only [run, bind_eq_bind, bind_eq_some_iff] at h
    obtain ⟨o, hs, h⟩ := h
    obtain ⟨handed', ht⟩ := ih (handedKeys handed o) h
    refine ⟨handed', ?_⟩
    simp only [trace, hs, bind_eq_bind, bind_some]
    exact ht

def queueRun : List Event :=
  [.op (.threadCreate 3 taAct 2 kthreadStackSize true true),
    .op (.ipcOpen (some ⟨taTfifo, 16, 16⟩)),
    .op .ipcListen,
    .op (.threadCreate 4 taAct 3 kthreadStackSize true true),
    .op (.ipcCall 3 0 8 true true)]

theorem trace_concat (h : trace s handed (es ++ [e]) = some (s', handed')) :
    ∃ s1 o, run s es = some s1 ∧ step s1 e = some o ∧ o.state = s' := by
  induction es generalizing s handed with
  | nil =>
    simp only [nil_append, trace, bind_eq_bind, bind_eq_some_iff, some.injEq, Prod.mk.injEq] at h
    obtain ⟨o, hs, ho, -⟩ := h
    exact ⟨s, o, rfl, hs, ho⟩
  | cons e' es ih =>
    simp only [cons_append, trace, bind_eq_bind, bind_eq_some_iff] at h
    obtain ⟨o, hs, h⟩ := h
    obtain ⟨s1, o1, hr, hs1, ho⟩ := ih h
    refine ⟨s1, o1, ?_, hs1, ho⟩
    simp only [run, hs, bind_eq_bind, bind_some]
    exact hr

end Eotan.Kernel
