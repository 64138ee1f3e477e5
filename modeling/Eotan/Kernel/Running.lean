import Eotan.Kernel.Ready

/-!
The thread `running` is the one with the status `TTS_RUN`, as long as no thread suspends itself
under its own id and no interrupt is owed to the delay thread while that thread goes to sleep.
-/

namespace Eotan.Kernel

open Function
open Option

def Running (s : State) : Prop := ∃ th, s.threads s.running = some th ∧ th.status = .run

def Sole (s : State) : Prop :=
  ∀ t th, s.threads t = some th → th.status = .run → t = s.running

variable {f : Wait → Wait} {th : Thread} {s s' : State}

section

variable {s s' : State} {t : ℕ}

theorem Running.other {th : Option Thread} (h : Running s) (ht : ∀ th, s.threads t = some th → th.status ≠ .run)
    (hts : s'.threads = update s.threads t th) (hr : s'.running = s.running) : Running s' := by
  obtain ⟨th0, ht0, hst⟩ := h
  refine ⟨th0, ?_, hst⟩
  have hne : s.running ≠ t := by
    rintro rfl
    exact ht th0 ht0 hst
  rw [hts, hr, update_of_ne hne]
  exact ht0

variable {th' : Thread}

theorem Running.same (h : Running s) (ht : s.threads t = some th)
    (hts : s'.threads = update s.threads t (some th')) (hr : s'.running = s.running)
    (hst : th'.status = th.status) : Running s' := by
  obtain ⟨th0, ht0, hst0⟩ := h
  by_cases he : t = s.running
  · subst he
    rw [ht] at ht0
    cases ht0
    refine ⟨th', ?_, hst.trans hst0⟩
    rw [hts, hr, update_self]
  · refine ⟨th0, ?_, hst0⟩
    rw [hts, hr, update_of_ne (Ne.symm he)]
    exact ht0

theorem ne_run_of_eq (ht : s.threads t = some th) (hst : th.status ≠ .run) :
    ∀ th', s.threads t = some th' → th'.status ≠ .run := by
  intro th' ht'
  rw [ht] at ht'
  cases ht'
  exact hst

theorem Blocked.ne_run (hb : Blocked th) : th.status ≠ .run := by
  rcases hb with hb | hb <;> simp [hb]

theorem Running.roused {th0 : Thread} (h : Running s)
    (ht : s.threads t = some th0) (hb : Blocked th0) : Running (roused s t th f) :=
  h.other (ne_run_of_eq ht hb.ne_run) (roused_threads s t th f) (roused_running s t th f)

theorem note_running (hm : Note s s') (h : Running s) : Running s' := by
  cases hm with
  | mark noRequest delay bits hbits => exact h
  | raise t flag th ht _ _ => exact h.same ht rfl rfl rfl
  | rouse t th ht hp _ => exact h.roused ht hp.1

theorem tail_running (hm : Tail s s') (h : Running s) : Running s' := by
  cases hm with
  | note hm => exact note_running hm h
  | switch next prev th hprev ht hr hne => exact ⟨th.setStatus .run, update_self .., rfl⟩

theorem act_running (hm : Act s s') (h : Running s) : Running s' := by
  cases hm with
  | note hm => exact note_running hm h
  | answer key t size th ht hm hq hc hp => exact h.roused ht hp.1
  | fire t th ht hst hp => exact h.other (ne_run_of_eq ht (by simp [hst])) rfl rfl
  | create id priority hnone hid => exact h.other (by simp [hnone]) rfl rfl
  | suspend t th ht hr hne =>
    obtain ⟨th0, ht0, hst⟩ := h
    exact ⟨th0, (update_of_ne hne.symm ..).trans ht0, hst⟩
  | shelve t th st ht hb hb' =>
    exact h.other (ne_run_of_eq ht hb.ne_run) rfl rfl
  | resume t th ht hst hp => exact h.other (ne_run_of_eq ht (by simp [hst])) rfl rfl
  | openPort th attr maxCall maxReply ht hop => exact h.same ht rfl rfl rfl
  | done th ht => exact h.same ht rfl rfl rfl
  | book replies q => exact h
  | openReply key max q hnone => exact h
  | rotate p head rest hl => exact h

theorem kill_running (hm : Kill t s s') (h : Running s) : Running s' := by
  cases hm with
  | halt th ht hst =>
    exact h.other (ne_run_of_eq ht (by rcases hst with hst | hst <;> simp [hst])) rfl rfl
  | abort th ht hb => exact h.other (ne_run_of_eq ht hb.ne_run) rfl rfl

theorem destroy_running (hm : Destroy t s s') (h : Running s) : Running s' := by
  obtain ⟨th, ht, hst, hq⟩ := hm
  exact h.other (ne_run_of_eq ht (by simp [hst])) rfl rfl

theorem Leaves.running (hl : Leaves s s') (hb : Base s) (h : Running s) : Running s' :=
  keeps_run (fun _ _ => tail_running) (hl.tails hb) h

theorem Ran.running (hr : Ran Act s s') (h : Running s) : Running s' :=
  hr.keeps (fun _ _ => act_running) (fun _ _ => tail_running) h

theorem Sole.touch {th' : Option Thread} (h : Sole s)
    (hts : s'.threads = update s.threads t th') (hr : s'.running = s.running)
    (hk : ∀ th, th' = some th → th.status = .run → t = s.running) : Sole s' := by
  intro u thu hu hst
  rw [hr]
  rw [hts, update_apply] at hu
  split_ifs at hu with he
  · rw [he]
    exact hk thu hu hst
  · exact h u thu hu hst

theorem Sole.same (h : Sole s) (ht : s.threads t = some th)
    (hts : s'.threads = update s.threads t (some th')) (hr : s'.running = s.running)
    (hst : th'.status = th.status) : Sole s' := by
  apply h.touch hts hr
  intro th1 he hrun
  cases he
  exact h t th ht (hst.symm.trans hrun)

theorem Sole.roused (h : Sole s) (hb : Blocked th) : Sole (roused s t th f) := by
  apply h.touch (roused_threads s t th f) (roused_running s t th f)
  intro th1 he hrun
  cases he
  rcases hb with hb | hb <;> simp [woken, hb] at hrun

theorem Sole.other (h : Sole s) (hts : s'.threads = update s.threads t (some th')) (hr : s'.running = s.running)
    (hst : th'.status ≠ .run) : Sole s' := by
  apply h.touch hts hr
  intro th1 he hrun
  cases he
  exact absurd hrun hst

theorem note_sole (hm : Note s s') (h : Sole s) : Sole s' := by
  cases hm with
  | mark noRequest delay bits hbits => exact h
  | raise t flag th ht _ _ => exact h.same ht rfl rfl rfl
  | rouse t th ht hp _ => exact h.roused hp.1

theorem tail_sole (hm : Tail s s') (h : Sole s) : Sole s' := by
  cases hm with
  | note hm => exact note_sole hm h
  | switch next prev th hprev ht hr hne =>
    intro u thu hu hst
    simp only [switched, update_apply] at hu
    split_ifs at hu with he he'
    · exact he
    · cases hu
      unfold yielded at hst
      split_ifs at hst with hrun
      · cases hst
      · exact absurd hst hrun
    · exact absurd (h u thu hu hst) he'

theorem act_sole (hm : Act s s') (h : Sole s) : Sole s' := by
  cases hm with
  | note hm => exact note_sole hm h
  | answer key t size th ht hm hq hc hp => exact h.roused hp.1
  | fire t th ht hst hp => exact h.other rfl rfl (by simp [fired])
  | create id priority hnone hid => exact h.other rfl rfl (by simp [setup])
  | suspend t th ht hr hne => exact h.other rfl rfl (by simp)
  | shelve t th st ht hb hb' =>
    refine h.other rfl rfl ?_
    rcases hb' with hb' | hb' <;> rw [hb'] <;> decide
  | resume t th ht hst hp => exact h.other rfl rfl (by simp)
  | openPort th attr maxCall maxReply ht hop => exact h.same ht rfl rfl rfl
  | done th ht => exact h.same ht rfl rfl rfl
  | book replies q => exact h
  | openReply key max q hnone => exact h
  | rotate p head rest hl => exact h

theorem move_sole {e : Event} (hm : Move e s s') (h : Sole s) : Sole s' := by
  cases hm with
  | act hm => exact act_sole hm h
  | heed _ hm =>
    obtain ⟨th, ht⟩ := hm
    exact h.same ht rfl rfl rfl
  | kill t _ hm =>
    cases hm with
    | halt th ht hst => exact h.other rfl rfl (by simp [stopped])
    | abort th ht hb => exact h.other rfl rfl (by simp [aborted, stopped])
  | destroy id _ hm =>
    obtain ⟨th, ht, hst, hq⟩ := hm
    exact h.touch rfl rfl (by simp)
  | stop _ hm =>
    obtain ⟨th, ht, hu⟩ := hm
    exact h.other rfl rfl (by simp)
  | park hm =>
    cases hm with
    | listen th ht hty hf => exact h.other rfl rfl (by simp [listening])
    | suspend th ht hr => exact h.other rfl rfl (by simp)
  | post _ hm =>
    cases hm with
    | wait g th f c ht hty hf hok hflag hopen htag => exact h.other rfl rfl (by simp [blocked])
    | hand p t size key th ht hm hp => exact h.roused hp.1
    | accept p t th ht hm hty => exact h.same ht rfl rfl rfl
    | sent p t th ht hm hty hp => exact h.roused hp.1
  | shut _ hm =>
    cases hm with
    | close th ht hop => exact h.same ht rfl rfl rfl
    | expel g t th hg ht hm hp => exact h.roused hp.1

theorem shut_running (hm : Shut s s') (h : Running s) : Running s' := by
  cases hm with
  | close th ht hop => exact h.same ht rfl rfl rfl
  | expel g t th hg ht hm hp => exact h.roused ht hp.1

end

theorem Notified.status {portId flag t : ℕ} {x : State × ℤ}
    (hn : Notified s portId flag x) (ht : s.threads t = some th)
    (hkeep : t = portId → th.wait.type ≠ .flag ∧ th.wait.type ≠ .receive) :
    x.1.running = s.running ∧ ∃ th', x.1.threads t = some th' ∧ th'.status = th.status := by
  cases hn with
  | absent => exact ⟨rfl, th, ht, rfl⟩
  | dormant => exact ⟨rfl, th, ht, rfl⟩
  | raise th0 ht0 _ _ =>
    refine ⟨rfl, ?_⟩
    by_cases he : t = portId
    · subst he
      rw [ht] at ht0
      cases ht0
      exact ⟨_, update_self .., rfl⟩
    · exact ⟨th, (update_of_ne he ..).trans ht, rfl⟩
  | rouse th0 ht0 _ hty =>
    have hne : t ≠ portId := by
      rintro rfl
      rw [ht] at ht0
      cases ht0
      exact hty.elim (hkeep rfl).1 (hkeep rfl).2
    refine ⟨roused_running .., th, ?_, rfl⟩
    rw [roused_threads, update_of_ne hne]
    exact ht

section

variable (h : Base s) (ht : s.threads s.running = some th) (hr : ¬Runnable th) (hkeep : s.running = portDelay → s.delayThreadStart = true → th.wait.type ≠ .flag ∧ th.wait.type ≠ .receive)
include h ht hr hkeep

theorem dispatch_running (hd : dispatch s = some s') : Running s' := by
  obtain ⟨s1, bits, next, thn, hs1, -, htn, hrn, hp⟩ := dispatch_eq h hd
  have h1 : s1.running = s.running ∧ ∃ th', s1.threads s.running = some th' ∧ th'.status = th.status := by
    cases hs1 with
    | none => exact ⟨rfl, th, ht, rfl⟩
    | notified x hdelay hn => exact hn.status ht fun he => hkeep he hdelay
  obtain ⟨hrun, th', ht', hst⟩ := h1
  cases hp with
  | same he =>
    have he' : next = s.running := he.trans hrun
    rw [he', ht'] at htn
    cases htn
    exact absurd (by simpa only [Runnable, hst] using hrn) hr
  | switch prev hne hprev => exact ⟨thn.setStatus .run, update_self .., rfl⟩

theorem leaveSerializeAndDispatch_running (hl : leaveSerializeAndDispatch s = some s') : Running s' := by
  rw [leaveSerializeAndDispatch_eq] at hl
  exact dispatch_running (h.mark false s.delayThreadStart s.readyBits) ht hr hkeep hl

end

def Orderly (s : State) : Event → Prop
  | .op (.threadSuspend id) => id ≠ s.running
  | .op .ipcListen | .op (.ipcReceive ..) => s.running = portDelay → s.delayThreadStart = false
  | _ => True

section

variable {s : State} {e : Event} {o : Outcome} {self : Thread}

theorem waiting_running {g : Guard} {c : Cont} (hb : Base (waiting s self g f c))
    (hkeep : s.running = portDelay → s.delayThreadStart = true →
      (blocked self g f c).wait.type ≠ .flag ∧ (blocked self g f c).wait.type ≠ .receive)
    (hl : leaveSerializeAndDispatch (waiting s self g f c) = some s') : Running s' := by
  refine leaveSerializeAndDispatch_running hb (update_self ..) ?_ hkeep hl
  simp [Runnable, blocked]

variable {m p : ℕ}

theorem CallCase.running {size : ℕ} (hc : CallCase s self p m size o) (h : Running s) : Running o.state := by
  cases hc with
  | refused hr => exact hr.1.running h
  | handed key max tp q rest th s2 s3 s' hg hkey hnone hq htp hp hne hs2 hs3 hb1 hb2 hb3 hl =>
    subst hs3
    exact waiting_running hb3 (fun _ _ => by simp [blocked, replyWait]) hl
  | queued key max q s2 s' hg hkey hnone hopen hq hs2 hb1 hb2 hl =>
    subst hs2
    exact waiting_running hb2 (fun _ _ => by simp [blocked, callWait]) hl

theorem SendCase.running {size : ℕ} (hc : SendCase s self p m size o) (h : Running s) : Running o.state := by
  cases hc with
  | refused hr => exact hr.1.running h
  | handed tp rest th s2 s' hq htp hp hne hs2 hb2 hl =>
    subst hs2
    exact (Leaves.serialize hl).running hb2 (h.roused htp hp.1)
  | queued s2 s' hopen hq hs2 hb2 hl =>
    subst hs2
    exact waiting_running hb2 (fun _ _ => by simp [blocked, sendWait]) hl

theorem ReceiveCase.running (hc : ReceiveCase s self p m o)
    (ht0 : s.threads s.running = some self) (h : Running s)
    (hd : s.running = portDelay → s.delayThreadStart = false) : Running o.state := by
  cases hc with
  | refused hr => exact hr.1.running h
  | heeded s' hflag hb hl =>
    obtain ⟨th, ht, hst⟩ := h
    rw [ht0] at ht
    cases ht
    exact (Leaves.serialize hl).running hb ⟨_, update_self .., hst⟩
  | called tp rest th s2 s' hq htp hty hentry hne hs2 hb2 hl =>
    subst hs2
    exact (Leaves.serialize hl).running hb2 (h.same htp rfl rfl rfl)
  | sent tp rest th s2 s' hq htp hty hp hne hs2 hb2 hl =>
    subst hs2
    exact (Leaves.serialize hl).running hb2 (h.roused htp hp.1)
  | queued s2 s' hflag hopen hq hs2 hb2 hl =>
    subst hs2
    refine waiting_running hb2 ?_ hl
    intro he hdelay
    rw [hd he] at hdelay
    cases hdelay

theorem ipcListen_running (h : Base s) (ht : s.threads s.running = some self)
    (hu : self.cont = .user) (hrun : Running s)
    (hd : s.running = portDelay → s.delayThreadStart = false) (ho : ipcListen s = some o) : Running o.state := by
  have hok := h.thread _ self ht
  have hty := hok.type_of_user hu
  simp only [ipcListen, ht, bind_eq_bind, bind_some] at ho
  split_ifs at ho
  · have hok' : ThreadOk (self.setFlag 0) := hok
    exact (leave_leaves ho).running (h.set ht hok' rfl fun hr => hr) (hrun.same ht rfl rfl rfl)
  simp only [wait, State.set_threads, State.set_running, update_self,
    map_eq_some_iff, bind_eq_bind, bind_some, State.set_set] at ho
  obtain ⟨s', hs', rfl⟩ := ho
  have hok1 : ThreadOk (listening self) := ⟨.inl rfl, hok.waiting_none hty, rfl⟩
  have hk := keeps_park h ht hok1 rfl (by rw [callView_none_of_user hu]; rfl)
  refine leaveSerializeAndDispatch_running hk.base (update_self ..) ?_ ?_ hs'
  · simp [Runnable, listening]
  · intro he hdelay
    have hdelay' : s.delayThreadStart = true := hdelay
    rw [hd he] at hdelay'
    cases hdelay'

theorem threadEnd_running (h : Base s) (ht : s.threads s.running = some self)
    (hu : self.cont = .user) (ho : threadEnd s = some o) : Running o.state := by
  have hok := h.thread _ self ht
  have hty := hok.type_of_user hu
  simp only [threadEnd, ht, bind_eq_bind, bind_some, leaveAndDispatch, map_eq_some_iff] at ho
  obtain ⟨s', hs', rfl⟩ := ho
  have hok' : ThreadOk (self.setStatus .dmt) :=
    ThreadOk.of_type_none hty (hok.waiting_none hty) (by simp [Blocked]) fun _ => hu
  refine leaveSerializeAndDispatch_running (keeps_park h ht hok' rfl rfl).base
    (update_self ..) (by simp [Runnable]) ?_ hs'
  intro _ _
  simp [hty]

theorem threadSuspend_running {id : ℕ} (h : Base s) (ha : Active s) (hrun : Running s)
    (hid : id ≠ s.running) (ho : threadSuspend s id = some o) : Running o.state := by
  by_cases hself : id = tskSelf
  · obtain ⟨th, ht, hst⟩ := hrun
    simp only [threadSuspend, if_pos hself, ht, hst, leaveAndDispatch, map_eq_some_iff] at ho
    obtain ⟨s', hs', rfl⟩ := ho
    refine leaveSerializeAndDispatch_running (suspend_still h ht (.inl hst)).keeps.base
      (update_self ..) (by simp [Runnable]) ?_ hs'
    intro _ _
    simp [ha th ht]
  · exact (threadSuspend_other h hself hid ho).ran.running hrun

theorem step_running (h : Base s) (ha : Active s) (hrun : Running s) (hord : Orderly s e)
    (hs : step s e = some o) : Running o.state := by
  cases e with
  | op op =>
    obtain ⟨th, ht, hu, ho⟩ := step_op hs
    cases op with
    | ipcOpen pk => exact (ipcOpen_quiet h ho).ran.running hrun
    | ipcClose =>
      obtain ⟨s1, hs1, hb1, hl, -⟩ := ipcClose_ran h ho
      exact (Leaves.dispatch hl).running hb1 (keeps_run (fun _ _ => shut_running) hs1 hrun)
    | ipcCall portId message size allocOk copyOk =>
      exact (ipcCall_cases h ha ht ho).1.running hrun
    | ipcReceive portId message copyOk => exact (ipcReceive_cases h ha ht ho).1.running ht hrun hord
    | ipcSend tag message size copyOk =>
      simp only [apply, ipcSend] at ho
      split_ifs at ho
      · exact (reply_ran h ho).running hrun
      · exact (send_cases h ha ht ho).1.running hrun
    | ipcListen => exact ipcListen_running h ht hu hrun hord ho
    | ipcNotify portId flag => exact (ipcNotify_quiet h ho).ran.running hrun
    | threadCreate id tskatr itskpri stksz allocOk stackOk =>
      exact (threadCreate_quiet h ho).ran.running hrun
    | threadDestroy id =>
      exact (threadDestroy_quiet h ho).ran.keeps (fun _ _ => destroy_running) (fun _ _ => tail_running) hrun
    | threadStart id => exact (threadStart_quiet h ho).ran.running hrun
    | threadEnd => exact threadEnd_running h ht hu ho
    | threadTerminate id =>
      obtain ⟨-, hl | ⟨-, s1, hk, hb, hl⟩⟩ := threadTerminate_cases h ho
      · exact hl.running h hrun
      · exact hl.running hb (kill_running hk hrun)
    | threadSuspend id => exact threadSuspend_running h ha hrun hord ho
    | threadResume id => exact (threadResume_quiet h ho).ran.running hrun
    | readyRotate priority id => exact (readyRotate_quiet h ho).ran.running hrun
  | finish => exact (finish_ran h ha hs).running hrun
  | switch next =>
    obtain ⟨prev, th, -, -, -, -, rfl⟩ := step_switch hs
    exact ⟨th.setStatus .run, update_self .., rfl⟩
  | request =>
    cases hs
    exact hrun
  | timer =>
    cases hs
    exact hrun

end

theorem Reachable.sole {P : State → Event → Prop} (h : Reachable P s) : Sole s := by
  induction h with
  | boot =>
    intro t th ht _
    simp only [Kernel.boot, update_apply] at ht
    split_ifs at ht with he
    exact he
  | step hr _ hs ih =>
    exact (step_ran hr.base.1 hr.base.2 hs).keeps (fun _ _ => move_sole) (fun _ _ => tail_sole) ih

theorem Reachable.running (h : Reachable Orderly s) : Running s := by
  induction h with
  | boot => exact ⟨{ setup maxPriority with status := .run, priority := maxPriority }, rfl, rfl⟩
  | step hr hP hs ih => exact step_running hr.base.1 hr.base.2 ih hP hs

theorem running_thread_runs {s : State} (h : Reachable Orderly s) :
    ∃ th, s.threads s.running = some th ∧ th.status = .run ∧
      (s.readyTask th.priority).count s.running = 1 ∧
      ∀ t th', s.threads t = some th' → th'.status = .run → t = s.running := by
  obtain ⟨th, ht, hst⟩ := h.running
  refine ⟨th, ht, hst, ?_, h.sole⟩
  have hview : readyView th = some th.priority := readyView_eq_some.mpr ⟨.inl hst, rfl⟩
  rw [h.scheduled.count, place_of_thread ht, if_pos hview]

def startRun : List Event :=
  [.op (.threadCreate 3 taAct 2 kthreadStackSize true true),
    .op (.threadCreate 4 taAct 3 kthreadStackSize true true),
    .op .threadEnd]

theorem running_thread_runs_sample : ∃ s th, run boot startRun = some s ∧ s.running = 4 ∧
    s.threads 4 = some th ∧ th.status = .run ∧ (s.readyTask th.priority).count 4 = 1 := by
  have hlast : (run boot startRun).map State.running = some 4 := by decide +kernel
  obtain ⟨s, hs, hr⟩ := map_eq_some_iff.mp hlast
  have hreach : Reachable Orderly s := by
    refine Reachable.boot.run hs ?_
    intro e he s
    simp only [startRun, List.mem_cons, List.not_mem_nil, or_false] at he
    rcases he with rfl | rfl | rfl <;> trivial
  obtain ⟨th, ht, hst, hc, -⟩ := running_thread_runs hreach
  rw [hr] at ht hc
  exact ⟨s, th, hs, hr, ht, hst, hc⟩

def runningView (es : List Event) : Option (Status × Bool) :=
  (run boot es).bind fun s =>
    (s.threads s.running).map fun th => (th.status, decide (s.running ∈ s.readyTask th.priority))

/-- A thread that suspends itself under its own id runs on; so does the delay thread, which the
timer's notification makes ready while it falls asleep. -/
theorem running_thread_not_run :
    runningView [.op (.threadCreate 3 taAct 2 kthreadStackSize true true),
      .op (.threadSuspend 3)] = some (.sus, false) ∧
    runningView [.op (.threadCreate portDelay taAct 0 kthreadStackSize true true), .timer,
      .op .ipcListen] = some (.rdy, true) := by
  decide +kernel

end Eotan.Kernel
