import Eotan.Kernel.Changes

namespace Eotan.Kernel

open Eotan.Sequence
open Function
open List
open Option

def Ran (R : State → State → Prop) (s s' : State) : Prop :=
  ∃ s₁, Relation.ReflTransGen R s s₁ ∧ Base s₁ ∧ Leaves s₁ s'

variable {R : State → State → Prop} {s s' s₁ : State} {e : Event} {t key p size m : ℕ} {th : Thread}
  {copyOk : Bool}

theorem Ran.mono {R' : State → State → Prop} (h : Ran R s s') (hR : ∀ s s', R s s' → R' s s') : Ran R' s s' := by
  obtain ⟨s₁, hs1, hb, hl⟩ := h
  exact ⟨s₁, Relation.ReflTransGen.mono hR _ _ hs1, hb, hl⟩

theorem Ran.keeps {P : State → Prop} (h : Ran R s s')
    (hR : ∀ s s', R s s' → P s → P s') (hT : ∀ s s', Tail s s' → P s → P s') (hp : P s) : P s' := by
  obtain ⟨s₁, hs1, hb, hl⟩ := h
  exact keeps_run hT (hl.tails hb) (keeps_run hR hs1 hp)

theorem Ran.every {Q : ℕ → Thread → Prop} (hQ : Lasting Q) (h : Ran (Move e) s s') (hs : Every Q s) :
    Every Q s' := h.keeps (fun _ _ => hQ.move) (fun _ _ => hQ.tail) hs

theorem ran_same (h : Base s) (hl : Leaves s s') : Ran R s s' := ⟨s, .refl, h, hl⟩

theorem ran_one (h : Base s₁) (hr : R s s₁) (hl : Leaves s₁ s') : Ran R s s' := ⟨s₁, .single hr, h, hl⟩

structure Quiet (R : State → State → Prop) (s : State) (o : Outcome) : Prop where
  ran : Ran R s o.state
  still : Still s o.state
  handed : o.handed = none

section

variable {R R' : State → State → Prop} {s s₁ : State} {o : Outcome} {code : ℤ}

theorem Quiet.mono (h : Quiet R s o) (hR : ∀ s s', R s s' → R' s s') : Quiet R' s o :=
  ⟨h.ran.mono hR, h.still, h.handed⟩

theorem Quiet.move (h : Quiet Act s o) : Quiet (Move e) s o := h.mono fun _ _ => .act

theorem Quiet.head (h : Quiet R s₁ o) (hr : R s s₁) (hs : Still s s₁) : Quiet R s o := by
  obtain ⟨⟨s₂, hs2, hb, hl⟩, hst, hh⟩ := h
  exact ⟨⟨s₂, .head hr hs2, hb, hl⟩, hs.trans hst, hh⟩

theorem quiet_leaves (hs : Still s s₁) (hr : Relation.ReflTransGen R s s₁)
    (hl : Leaves s₁ o.state) (hh : o.handed = none) : Quiet R s o :=
  ⟨⟨s₁, hr, hs.keeps.base, hl⟩, hs.trans (hl.still hs.keeps.base), hh⟩

theorem leave_handed (hl : leave s code = some o) : o.handed = none := by
  obtain ⟨s', -, rfl⟩ := leave_eq hl
  rfl

theorem leaveAndDispatch_handed (hl : leaveAndDispatch s code = some o) : o.handed = none := by
  obtain ⟨s', -, rfl⟩ := leaveAndDispatch_eq hl
  rfl

theorem quiet_leave (hs : Still s s₁) (hr : R s s₁) (hl : leave s₁ code = some o) : Quiet R s o :=
  quiet_leaves hs (.single hr) (leave_leaves hl) (leave_handed hl)

theorem quiet_dispatch (hk : Keeps s s₁) (hr : R s s₁)
    (hl : leaveSerializeAndDispatch s₁ = some s') (he : o.state = s') (hh : o.handed = none) : Quiet R s o := by
  subst he
  refine ⟨ran_one hk.base hr (.dispatch hl), ⟨?_, fun _ => ?_⟩, hh⟩
  · exact hk.trans ((Leaves.dispatch hl).still hk.base).keeps
  · exact leaveSerializeAndDispatch_active hk.base hl

theorem quiet_leaveAndDispatch (hk : Keeps s s₁) (hr : R s s₁)
    (hl : leaveAndDispatch s₁ code = some o) : Quiet R s o := by
  obtain ⟨s', hs', rfl⟩ := leaveAndDispatch_eq hl
  exact quiet_dispatch hk hr hs' rfl rfl

theorem Still.refl (h : Base s) : Still s s := ⟨Keeps.refl h, fun ha => ha⟩

theorem quiet_same (h : Base s) (hl : leave s code = some o) : Quiet R s o :=
  quiet_leaves (.refl h) .refl (leave_leaves hl) (leave_handed hl)

theorem quiet_now (h : Base s) (ho : some (⟨s, some code, none, none⟩ : Outcome) = some o) : Quiet R s o := by
  cases ho
  exact quiet_leaves (.refl h) .refl .now rfl

theorem still_set {th' : Thread} (h : Base s) (ht : s.threads t = some th)
    (hok : ThreadOk th') (hw : th'.wait = th.wait) (hc : th'.cont = th.cont)
    (hr : Runnable th → Runnable th') : Still s (s.set t th') := by
  refine ⟨keeps_set h ht hok (by rw [hw]) ?_ hr, fun ha => ha.set ht fun hty => ?_⟩
  · simp only [callView, hc, hw]
  · rw [hw, hty]

theorem still_park {th' : Thread} (h : Base s) (ht : s.threads t = some th)
    (hok : ThreadOk th') (hw : th'.wait = th.wait) (hc : th'.cont = th.cont) :
    Still s (readyRemove (s.set t th') t) := by
  refine ⟨keeps_park h ht hok (by rw [hw]) ?_, fun ha => ?_⟩
  · simp only [callView, hc, hw]
  · have ha' : Active (s.set t th') := ha.set ht fun hty => by rw [hw, hty]
    exact ha'

end

theorem readyRemove_of_not_ready (h : ∀ p, t ∉ s.readyTask p) : readyRemove s t = s := by
  have hr : (fun p => (s.readyTask p).filter (· ≠ t)) = s.readyTask := by
    funext p
    apply filter_eq_self.mpr
    intro u hu
    apply decide_eq_true
    rintro rfl
    exact h p hu
  simp only [readyRemove, hr]

section

variable {s : State} {o : Outcome} {id : ℕ}

section

variable (h : Base s)
include h

theorem ipcOpen_quiet {pk : Option CreatePort} (ho : ipcOpen s pk = some o) : Quiet Act s o := by
  unfold ipcOpen at ho
  split at ho
  · exact quiet_now h ho
  split_ifs at ho
  · exact quiet_now h ho
  simp only [bind_eq_bind, bind_eq_some_iff] at ho
  obtain ⟨th, ht, ho⟩ := ho
  split_ifs at ho with hop
  · exact quiet_same h ho
  rename_i pk _
  have hok : ThreadOk (th.setPort ⟨true, th.port.flag, pk.poratr, pk.maxcmsz, pk.maxrmsz⟩) := h.thread _ th ht
  have hs := still_set h ht hok rfl rfl fun hr => hr
  have hclear := hs.keeps.trans (keeps_clearPort hs.keeps.base s.running)
  exact quiet_leave ⟨hclear, hs.active⟩ (.openPort th _ _ _ ht (by simpa using hop)) ho

theorem ipcNotify_quiet {portId flag : ℕ} (ho : ipcNotify s portId flag = some o) : Quiet Act s o := by
  simp only [ipcNotify, bind_eq_bind, bind_eq_some_iff] at ho
  obtain ⟨x, hx, ho⟩ := ho
  have hn := (notify_notified h hx).notes
  exact quiet_leaves (Still.of_run h (fun _ _ => Note.still) hn) hn.acts (leave_leaves ho) (leave_handed ho)

theorem fire_quiet (ht : s.threads id = some th)
    (hst : th.status = .dmt) (ho : fire s id = some o) : Quiet Act s o := by
  have hok := h.thread id th ht
  have hty := hok.type_of_not_blocked (by simp [Blocked, hst])
  simp only [fire, ht, bind_eq_bind, bind_some, bind_eq_some_iff] at ho
  obtain ⟨s₁, hs1, ho⟩ := ho
  have hok' : ThreadOk (fired th) :=
    ThreadOk.of_type_none hty (hok.waiting_none hty) (by simp [Blocked, fired]) (by simp [fired])
  have hk := keeps_set h ht hok' rfl
    (by rw [callView_none_of_user rfl, callView_none_of_user (hok.user_of_dmt hst)])
    fun _ => .inr rfl
  obtain ⟨hp, rfl⟩ := enqueue_of_readyEnqueue hs1
  have hk1 := hk.trans (keeps_enqueue hk.base (update_self ..) (.inr rfl) th.attrPriority)
  exact quiet_leaveAndDispatch hk1 (.fire id th ht hst hp) ho

theorem create_still (hnone : s.threads id = none) (hlt : id < 2 ^ 16) (pri : ℕ) :
    Still s (clearPort (s.set id (setup pri)) id) := by
  constructor
  · refine keeps_thread ?_ rfl rfl (by simp [callView, setup, calls, hnone]) fun _ => rfl
    refine h.touch rfl rfl rfl hlt ?_ ?_ (clearPort_queues _ id) ?_
    · exact ThreadOk.of_type_none rfl rfl (by simp [Blocked, setup]) fun _ => rfl
    · simp [hnone]
    · intro p u hu
      refine ⟨hu, ?_⟩
      simp [hnone]
  · intro ha th ht
    simp only [clearPort, State.set_threads, State.set_running, update_apply] at ht
    split_ifs at ht
    · cases ht
      rfl
    · exact ha th ht

theorem threadCreate_quiet {tskatr itskpri stksz : ℕ} {allocOk stackOk : Bool}
    (ho : threadCreate s id tskatr itskpri stksz allocOk stackOk = some o) : Quiet Act s o := by
  unfold threadCreate at ho
  split_ifs at ho with hid _ _ _ hex _ hact
  iterate 3 exact quiet_now h ho
  iterate 3 exact quiet_same h ho
  all_goals
    have hnone : s.threads id = none := by simpa using hex
    have hlt : id < 2 ^ 16 := by
      simp only [minManualId, maxAutoId] at hid
      omega
    have hs := create_still h hnone hlt itskpri
  · exact (fire_quiet hs.keeps.base (update_self ..) rfl ho).head (.create id itskpri hnone hlt) hs
  · exact quiet_leave hs (.create id itskpri hnone hlt) ho

theorem Base.destroy (ht : s.threads id = some th) (hst : th.status = .dmt) (hq : ∀ g, id ∉ s.queues g) :
    Base { s with threads := update s.threads id none } := by
  refine h.change rfl rfl ?_ ?_ ?_ ?_ h.nodup
  · intro t hs
    simp only [update_apply] at hs
    split_ifs at hs
    · simp at hs
    · exact .inl hs
  · intro t th' hs
    simp only [update_apply] at hs
    split_ifs at hs
    exact .inl hs
  · intro p t hm
    have hne : t ≠ id := by
      rintro rfl
      exact h.not_ready ht (by simp [Runnable, hst]) p hm
    simp only [update_of_ne hne]
    exact h.ready p t hm
  · intro g t hm
    have hne : t ≠ id := by
      rintro rfl
      exact hq g hm
    simp only [update_of_ne hne]
    exact h.queued g t hm

theorem threadDestroy_quiet (ho : threadDestroy s id = some o) : Quiet (Destroy id) s o := by
  unfold threadDestroy at ho
  split at ho
  · exact quiet_same h ho
  rename_i th ht
  split_ifs at ho with hst
  · exact quiet_same h ho
  have hst := not_not.mp hst
  have hok := h.thread id th ht
  have hty := hok.type_of_not_blocked (by simp [Blocked, hst])
  have hq : ∀ g, id ∉ s.queues g := fun g => h.not_queued ht (by simp [hok.waiting_none hty])
  refine quiet_leave ⟨⟨h.destroy ht hst hq, rfl, ?_, fun _ => rfl⟩, ?_⟩ (.destroy th ht hst hq) ho
  · funext t
    by_cases he : t = id
    · subst he
      simp [calls, ht, callView_none_of_user (hok.user_of_dmt hst)]
    · simp [calls, he]
  · intro ha th' ht'
    simp only [update_apply] at ht'
    split_ifs at ht'
    exact ha th' ht'

theorem threadStart_quiet (ho : threadStart s id = some o) : Quiet Act s o := by
  unfold threadStart at ho
  generalize (if id = tskSelf then s.running else id) = t at ho
  dsimp only at ho
  split at ho
  · exact quiet_same h ho
  · rename_i th ht
    split_ifs at ho with hst
    · exact quiet_same h ho
    · exact fire_quiet h ht (not_not.mp hst) ho

theorem threadEnd_quiet (ht : s.threads s.running = some th)
    (hu : th.cont = .user) (ho : threadEnd s = some o) : Quiet Stop s o := by
  have hok := h.thread _ th ht
  have hty := hok.type_of_user hu
  simp only [threadEnd, ht, bind_eq_bind, bind_some] at ho
  have hok' : ThreadOk (th.setStatus .dmt) :=
    ThreadOk.of_type_none hty (hok.waiting_none hty) (by simp [Blocked]) fun _ => hu
  exact quiet_leaveAndDispatch (keeps_park h ht hok' rfl rfl) (.stop th ht hu) ho

theorem suspend_still (ht : s.threads id = some th) (hr : Runnable th) :
    Still s (readyRemove (s.set id (th.setStatus .sus)) id) :=
  still_park h ht ((h.thread id th ht).setStatus hr.not_blocked (by simp)) rfl rfl

theorem threadSuspend_other (hself : id ≠ tskSelf) (hne : id ≠ s.running)
    (ho : threadSuspend s id = some o) : Quiet Act s o := by
  unfold threadSuspend at ho
  rw [if_neg hself] at ho
  dsimp only at ho
  split at ho
  · exact quiet_same h ho
  rename_i th ht
  have hok := h.thread id th ht
  split at ho
  · rename_i hst
    rw [if_neg hself] at ho
    exact quiet_leave (suspend_still h ht (.inl hst)) (.suspend id th ht (.inl hst) hne) ho
  · rename_i hst
    exact quiet_leave (suspend_still h ht (.inr hst)) (.suspend id th ht (.inr hst) hne) ho
  · rename_i hst
    have hs := still_set h ht (hok.setStatus_blocked (.inl hst) (.inr rfl)) rfl rfl (by simp [Runnable, hst])
    exact quiet_leave hs (.shelve id th .was ht (.inl hst) (.inr rfl)) ho
  all_goals exact quiet_same h ho

theorem threadSuspend_self (ha : Active s) (hid : id = tskSelf ∨ id = s.running)
    (ho : threadSuspend s id = some o) : Quiet Park s o := by
  have ht : (if id = tskSelf then s.running else id) = s.running := by
    split_ifs with hs
    · rfl
    · exact hid.resolve_left hs
  unfold threadSuspend at ho
  rw [ht] at ho
  dsimp only at ho
  split at ho
  · exact quiet_same h ho
  rename_i th ht
  split at ho
  · rename_i hst
    have hs := suspend_still h ht (.inl hst)
    split_ifs at ho
    · exact quiet_leaveAndDispatch hs.keeps (.suspend th ht (.inl hst)) ho
    · exact quiet_leave hs (.suspend th ht (.inl hst)) ho
  · rename_i hst
    exact quiet_leave (suspend_still h ht (.inr hst)) (.suspend th ht (.inr hst)) ho
  · rename_i hst
    have hok := h.thread _ th ht
    simp only [ThreadOk, ha th ht] at hok
    exact absurd (.inl hst) hok.1
  all_goals exact quiet_same h ho

theorem threadSuspend_quiet (ha : Active s) (ho : threadSuspend s id = some o) : Quiet (Move e) s o := by
  by_cases hid : id = tskSelf ∨ id = s.running
  · exact (threadSuspend_self h ha hid ho).mono fun _ _ => .park
  · rw [not_or] at hid
    exact (threadSuspend_other h hid.1 hid.2 ho).move

theorem threadResume_quiet (ho : threadResume s id = some o) : Quiet Act s o := by
  unfold threadResume at ho
  split at ho
  · exact quiet_same h ho
  rename_i th ht
  have hok := h.thread id th ht
  split at ho
  · rename_i hst
    simp only [bind_eq_bind, bind_eq_some_iff] at ho
    obtain ⟨s₁, hs1, ho⟩ := ho
    have hrdy : ThreadOk (th.setStatus .rdy) := hok.setStatus (by simp [Blocked, hst]) (by simp)
    have hk := keeps_set h ht hrdy rfl rfl fun _ => .inr rfl
    obtain ⟨hp, rfl⟩ := enqueue_of_readyEnqueue hs1
    have hk1 := hk.trans (keeps_enqueue hk.base (update_self ..) (.inr rfl) th.priority)
    exact quiet_leaveAndDispatch hk1 (.resume id th ht hst hp) ho
  · rename_i hst
    have hs := still_set h ht (hok.setStatus_blocked (.inr hst) (.inl rfl)) rfl rfl (by simp [Runnable, hst])
    exact quiet_leave hs (.shelve id th .wai ht (.inr hst) (.inl rfl)) ho
  · exact quiet_same h ho

def Killed (s : State) (id : ℕ) (o : Outcome) : Prop :=
  o.ret = some eOk ∧ ∃ s₁, Kill id s s₁ ∧ Base s₁ ∧ Leaves s₁ o.state

theorem threadTerminate_cases (ho : threadTerminate s id = some o) :
    o.handed = none ∧ (Leaves s o.state ∨ Killed s id o) := by
  have hsame : ∀ {code : ℤ}, leave s code = some o → o.handed = none ∧ (Leaves s o.state ∨ Killed s id o) :=
    fun hl => ⟨leave_handed hl, .inl (leave_leaves hl)⟩
  have hkill : ∀ {s₁ : State}, Kill id s s₁ → Base s₁ → leave s₁ eOk = some o →
      o.handed = none ∧ (Leaves s o.state ∨ Killed s id o) := by
    intro s₁ hk hb hl
    refine ⟨leave_handed hl, .inr ⟨?_, s₁, hk, hb, leave_leaves hl⟩⟩
    obtain ⟨s', -, rfl⟩ := leave_eq hl
    rfl
  unfold threadTerminate at ho
  split at ho
  · exact hsame ho
  rename_i th ht
  have hok := h.thread id th ht
  have hhalt : th.status = .rdy ∨ th.status = .sus →
      leave (readyRemove (s.set id (stopped th)) id) eOk = some o →
      o.handed = none ∧ (Leaves s o.state ∨ Killed s id o) := by
    intro hst ho
    have hty := hok.type_of_not_blocked (by rcases hst with hst | hst <;> simp [Blocked, hst])
    have hok' : ThreadOk (stopped th) :=
      ThreadOk.of_type_none hty (hok.waiting_none hty) (by simp [Blocked, stopped]) fun _ => rfl
    exact hkill (.halt th ht hst) (h.park ht hok' rfl) ho
  have hblocked : Blocked th → (if th.wait.type ≠ .none then
        (listRemove s id).bind fun s => (s.threads id).bind fun th =>
          leave (s.set id (((th.setWait { th.wait with type := .none }).setStatus .dmt).setCont .user)) eOk
      else leave (s.set id ((th.setStatus .dmt).setCont .user)) eOk) = some o →
      o.handed = none ∧ (Leaves s o.state ∨ Killed s id o) := by
    intro hb ho
    split_ifs at ho with hty
    · simp only [bind_eq_some_iff] at ho
      obtain ⟨s₁, hl, th1, ht1, ho⟩ := ho
      obtain ⟨th0, ht0, rfl⟩ := listRemove_eq h hl
      rw [ht] at ht0
      cases ht0
      simp only [update_self, some.injEq] at ht1
      subst ht1
      simp only [State.set, update_idem] at ho
      refine hkill (.abort th ht hb) ?_ ho
      refine h.unlink ht rfl rfl rfl rfl ?_ ?_
      · exact ThreadOk.of_type_none rfl rfl (by simp [Blocked, aborted, stopped]) fun _ => rfl
      · intro p u hu
        refine .inl ⟨?_, hu⟩
        rintro rfl
        exact h.not_ready ht (by rcases hb with hb | hb <;> simp [Runnable, hb]) p hu
    · simp only [ThreadOk, not_not.mp hty] at hok
      exact absurd hb hok.1
  split at ho
  · exact hsame ho
  · rename_i hst
    exact hhalt (.inl hst) ho
  · rename_i hst
    exact hblocked (.inl hst) ho
  · rename_i hst
    exact hblocked (.inr hst) ho
  · rename_i hst
    have hr : readyRemove (s.set id (stopped th)) id = s.set id (stopped th) :=
      readyRemove_of_not_ready (h.not_ready ht (by simp [Runnable, hst]))
    refine hhalt (.inr hst) ?_
    rw [hr]
    exact ho
  · exact hsame ho

theorem Base.rotate {head : ℕ} {rest : List ℕ} (hl : s.readyTask p = head :: rest) :
    Base { s with readyTask := update s.readyTask p (rest ++ [head]) } := by
  refine h.change rfl rfl (fun t ht => .inl ht) (fun t th ht => .inl ht) ?_ h.queued h.nodup
  intro q t hm
  apply h.ready q
  simp only [update_apply] at hm
  split_ifs at hm with hp
  · subst hp
    rw [mem_append, mem_singleton] at hm
    rw [hl, mem_cons]
    exact hm.symm
  · exact hm

theorem readyRotate_quiet {priority : ℕ} (ho : readyRotate s priority id = some o) : Quiet Act s o := by
  unfold readyRotate at ho
  split at ho
  · rename_i head h' rest hl
    split_ifs at ho
    · exact quiet_leave ⟨⟨h.rotate hl, rfl, rfl, fun _ => rfl⟩, fun ha => ha⟩
        (.rotate priority head (h' :: rest) hl) ho
    · exact quiet_same h ho
  · exact quiet_same h ho

theorem ipcListen_quiet (ht : s.threads s.running = some th)
    (hu : th.cont = .user) (ho : ipcListen s = some o) : Quiet (Move (.op .ipcListen)) s o := by
  have hok := h.thread _ th ht
  have hty := hok.type_of_user hu
  simp only [ipcListen, ht, bind_eq_bind, bind_some] at ho
  split_ifs at ho with hflag
  · have hok' : ThreadOk (th.setFlag 0) := hok
    exact quiet_leave (still_set h ht hok' rfl rfl fun hr => hr) (.heed trivial (.consume th ht)) ho
  simp only [wait, State.set_threads, State.set_running, update_self,
    map_eq_some_iff, bind_eq_bind, bind_some, State.set_set] at ho
  obtain ⟨s', hs', rfl⟩ := ho
  have hok1 : ThreadOk (listening th) := ⟨.inl rfl, hok.waiting_none hty, rfl⟩
  have hk := keeps_park h ht hok1 rfl (by rw [callView_none_of_user hu]; rfl)
  exact quiet_dispatch hk (.park (.listen th ht hty (not_not.mp hflag))) hs' rfl rfl

end

theorem releaseRendezvous_book (s : State) (key : ℕ) : Act s (releaseRendezvous s key) := by
  unfold releaseRendezvous
  split_ifs
  · exact .book _ _
  · exact .book s.replies s.replySequence

inductive Finished (s : State) (th : Thread) : Outcome → Prop
  | failed (key : ℕ) (s' : State) : th.cont = .call key → th.wait.result ≠ 0 →
    leaveSerialize (releaseRendezvous (s.set s.running (th.setCont .user)) key) = some s' →
    Finished s th ⟨s', some th.wait.result, none, none⟩
  | received (s' : State) : th.cont = .receive → th.wait.result = 0 →
    leaveSerialize (s.set s.running (th.setCont .user)) = some s' →
    Finished s th ⟨s', some th.wait.size, some th.wait.key, none⟩
  | passed (s' : State) (ret : ℤ) : (∀ key, th.cont = .call key → th.wait.result = 0) →
    Leaves (s.set s.running (th.setCont .user)) s' → Finished s th ⟨s', some ret, none, none⟩

theorem Base.done (h : Base s) (ha : Active s) (ht : s.threads s.running = some th) :
    Base (s.set s.running (th.setCont .user)) := by
  have hty := ha th ht
  have hok := h.thread _ th ht
  simp only [ThreadOk, hty] at hok
  have hok' : ThreadOk (th.setCont .user) := ThreadOk.of_type_none hty hok.2.1 hok.1 fun _ => rfl
  exact h.set ht hok' rfl fun hr => hr

theorem finish_finished (ho : finish s = some o) : ∃ th, s.threads s.running = some th ∧ Finished s th o := by
  simp only [finish, bind_eq_bind, bind_eq_some_iff] at ho
  obtain ⟨th, ht, ho⟩ := ho
  refine ⟨th, ht, ?_⟩
  split at ho
  · cases ho
  · rename_i key hc
    split_ifs at ho with hres
    · obtain ⟨s', hs', rfl⟩ := leave_eq ho
      exact .failed key s' hc hres hs'
    · cases ho
      exact .passed _ _ (fun _ _ => not_not.mp hres) .now
  · rename_i hc
    split_ifs at ho with hres
    · obtain ⟨s', hs', rfl⟩ := leave_eq ho
      exact .passed s' _ (by simp [hc]) (.serialize hs')
    · simp only [map_eq_some_iff] at ho
      obtain ⟨s', hs', rfl⟩ := ho
      exact .received s' hc (not_not.mp hres) hs'
  · rename_i hc
    cases ho
    exact .passed _ _ (by simp [hc]) .now
  · rename_i hc
    cases ho
    exact .passed _ _ (by simp [hc]) .now

theorem finish_ran (h : Base s) (ha : Active s) (ho : finish s = some o) : Ran Act s o.state := by
  obtain ⟨th, ht, hf⟩ := finish_finished ho
  have hb := h.done ha ht
  cases hf with
  | failed key s' hc hres hl =>
    exact ⟨_, .head (.done th ht) (.single (releaseRendezvous_book _ key)),
      releaseRendezvous_base hb key, .serialize hl⟩
  | received s' hc hres hl => exact ran_one hb (.done th ht) (.serialize hl)
  | passed s' ret hres hl => exact ran_one hb (.done th ht) hl

inductive Replied (s : State) (key size : ℕ) (copyOk : Bool) (o : Outcome) : Prop
  | refused : ¬Delivered s key size copyOk → Leaves (releaseRendezvous s key) o.state →
    Replied s key size copyOk o
  | answered (t : ℕ) (th : Thread) : s.threads t = some th → t ∈ s.queues (.reply key) →
    th.wait.waiting = some (.reply key) → Placed th →
    Leaves (releaseRendezvous (roused s t th fun w => { w with size := size }) key) o.state →
    Replied s key size copyOk o

theorem reply_replied (h : Base s) (ho : reply s key size copyOk = some o) :
    o.handed = none ∧ Replied s key size copyOk o := by
  unfold reply at ho
  split at ho
  · rename_i hr
    exact ⟨leave_handed ho, .refused (by simp [Delivered, hr]) (leave_leaves ho)⟩
  rename_i maxReply hr
  split at ho
  · rename_i hsize
    refine ⟨leave_handed ho, .refused ?_ (leave_leaves ho)⟩
    rintro ⟨m, hm, hle, -⟩
    rw [hr] at hm
    cases hm
    omega
  split at ho
  · rename_i tp rest hq
    split_ifs at ho with hcopy
    · exact ⟨leave_handed ho, .refused (by simp [Delivered, hcopy]) (leave_leaves ho)⟩
    simp only [bind_eq_bind, bind_eq_some_iff] at ho
    obtain ⟨s₁, hw, ho⟩ := ho
    have hm := mem_of_head hq
    obtain ⟨th, ht, hwait, hb⟩ := h.queued_blocked hm
    obtain ⟨th', ht', hp, rfl⟩ := wake_eq h hw
    rw [ht] at ht'
    cases ht'
    exact ⟨leaveAndDispatch_handed ho, .answered tp th ht hm hwait ⟨hb, hp⟩ (leaveAndDispatch_leaves ho)⟩
  · rename_i hq
    exact ⟨leaveAndDispatch_handed ho, .refused (by simp [Delivered, hq]) (leaveAndDispatch_leaves ho)⟩

theorem Base.answered (h : Base s) (ht : s.threads t = some th) :
    Base (Kernel.roused s t th fun w => { w with size := size }) :=
  h.roused ht rfl (woken_ok (h.thread t th ht) fun _ => rfl)

theorem reply_ran (h : Base s) (ho : reply s key size copyOk = some o) : Ran Act s o.state := by
  cases (reply_replied h ho).2 with
  | refused hd hl => exact ran_one (releaseRendezvous_base h key) (releaseRendezvous_book s key) hl
  | answered t th ht hm hwait hp hl =>
    have hq : ∀ p, t ∉ s.queues (.caller p) := fun p => h.not_queued ht (by simp [hwait])
    have hact : Act s (roused s t th fun w => { w with size := size }) :=
      .answer key t size th ht hm hq ((h.thread t th ht).of_reply hwait).2.1 hp
    exact ⟨_, .head hact (.single (releaseRendezvous_book _ key)),
      releaseRendezvous_base (h.answered ht) key, hl⟩

end

def Refused (s : State) (o : Outcome) : Prop :=
  Ran Act s o.state ∧ o.ret.isSome ∧ o.tag = none ∧ o.handed = none

def message (size tag : ℕ) (w : Wait) : Wait := { w with size := size, key := tag }

def callWait (message size tag : ℕ) (w : Wait) : Wait :=
  { w with size := size, key := tag, type := .call, message := message }

def replyWait (message : ℕ) (w : Wait) : Wait := { w with type := .reply, message := message }

def sendWait (message size tag : ℕ) (w : Wait) : Wait :=
  { w with size := size, message := message, key := tag, type := .send }

def receiveWait (message : ℕ) (w : Wait) : Wait := { w with message := message, type := .receive }

section

variable {s : State} {o : Outcome} {self : Thread}

theorem Base.key_of_tag (h : Base s) (ht : s.threads s.running = some self) (hkey : key < 2 ^ 16) :
    keyOfIpc (createIpcTag s.running key) = key := keyOfIpc_createIpcTag (h.id s.running (by simp [ht])) hkey

theorem calling_ok (h : Base s) (ht : s.threads s.running = some self) (hkey : key < 2 ^ 16) :
    ThreadOk (blocked self (.caller p) (callWait m size (createIpcTag s.running key)) (.call key)) :=
  ⟨.inl rfl, rfl, p, key, rfl, rfl, h.key_of_tag ht hkey⟩

theorem replying_ok : ThreadOk (blocked self (.reply key) (replyWait m) (.call key)) :=
  ⟨.inl rfl, rfl, key, rfl, rfl⟩

theorem sending_ok (h : Base s) (ht : s.threads s.running = some self) :
    ThreadOk (blocked self (.caller p) (sendWait m size (createIpcTag s.running 0)) .send) :=
  ⟨.inl rfl, p, rfl, rfl, h.key_of_tag ht (by decide)⟩

theorem receiving_ok : ThreadOk (blocked self (.receiver p) (receiveWait m) .receive) := ⟨.inl rfl, p, rfl, rfl⟩

theorem mem_receivers {tp max : ℕ} {q : Seq} {rest : List ℕ} (hq : s.queues (.receiver p) = tp :: rest) :
    tp ∈ (openRendezvous s q key max).queues (.receiver p) := by
  simp only [openRendezvous]
  rw [update_of_ne (by simp), hq]
  exact mem_cons_self

inductive CallCase (s : State) (self : Thread) (p m size : ℕ) : Outcome → Prop
  | refused {o : Outcome} : Refused s o → CallCase s self p m size o
  | handed (key max tp : ℕ) (q : Seq) (rest : List ℕ) (th : Thread) (s₂ s₃ s' : State) :
    sequenceGet s.replySequence = (some key, q) → key < 2 ^ 16 → s.replies key = none →
    s.queues (.receiver p) = tp :: rest → s.threads tp = some th → Placed th → tp ≠ s.running →
    s₂ = roused (openRendezvous s q key max) tp th (message size (createIpcTag s.running key)) →
    s₃ = waiting s₂ self (.reply key) (replyWait m) (.call key) →
    Base (openRendezvous s q key max) → Base s₂ → Base s₃ →
    leaveSerializeAndDispatch s₃ = some s' →
    CallCase s self p m size ⟨s', none, none, some (createIpcTag s.running key)⟩
  | queued (key max : ℕ) (q : Seq) (s₂ s' : State) :
    sequenceGet s.replySequence = (some key, q) → key < 2 ^ 16 → s.replies key = none → Opened s p → s.queues (.receiver p) = [] →
    s₂ = waiting (openRendezvous s q key max) self (.caller p)
      (callWait m size (createIpcTag s.running key)) (.call key) →
    Base (openRendezvous s q key max) → Base s₂ → leaveSerializeAndDispatch s₂ = some s' →
    CallCase s self p m size ⟨s', none, none, none⟩

theorem refused_of_leave {code : ℤ} (hs1 : Acts s s₁) (hb : Base s₁)
    (hl : leave s₁ code = some o) : Refused s o := by
  refine ⟨⟨s₁, hs1, hb, leave_leaves hl⟩, ?_⟩
  obtain ⟨s', -, rfl⟩ := leave_eq hl
  exact ⟨rfl, rfl, rfl⟩

section

variable (h : Base s) (ha : Active s) (ht : s.threads s.running = some self)
include h ha ht

theorem ipcCall_cases {allocOk : Bool} (ho : ipcCall s p m size allocOk copyOk = some o) :
    CallCase s self p m size o ∧ (Refused s o → ∀ e, Stepped s e o) := by
  have hty := ha self ht
  have hrefuse : ∀ {s₁ : State} {code : ℤ}, Acts s s₁ → Base s₁ → Active s₁ →
      (∀ e, Change s e none (table s₁)) → leave s₁ code = some o →
      CallCase s self p m size o ∧ (Refused s o → ∀ e, Stepped s e o) := by
    intro s₁ code hs1 hb ha1 hc hl
    refine ⟨.refused (refused_of_leave hs1 hb hl), fun _ e => ?_⟩
    refine stepped_leaves hb ha1 ?_ (leave_leaves hl)
    rw [leave_handed hl]
    exact hc e
  have hkept : ∀ {s₁ : State} {code : ℤ}, Acts s s₁ → Keeps s s₁ → Active s₁ →
      leave s₁ code = some o → CallCase s self p m size o ∧ (Refused s o → ∀ e, Stepped s e o) :=
    fun hs1 hk ha1 hl => hrefuse hs1 hk.base ha1 (fun _ => hk.change) hl
  unfold ipcCall at ho
  split at ho
  · exact hkept .refl (Keeps.refl h) ha ho
  rename_i thp htp
  split at ho
  · exact hkept .refl (Keeps.refl h) ha ho
  rename_i hopen
  split at ho
  · exact hkept .refl (Keeps.refl h) ha ho
  split at ho
  · rename_i q hg
    exact hkept (.single (.book s.replies q)) (keeps_sequence_none h hg) ha ho
  rename_i key q hg
  split_ifs at ho
  · exact hkept (.single (.book s.replies _)) (keeps_sequence_undo h hg) ha ho
  · exact hkept (.single (.book s.replies _)) (keeps_sequence_undo h hg) ha ho
  obtain ⟨hnone, hkey, h1⟩ := openRendezvous_base thp.port.maxReply h hg
  have ha1 : Active (openRendezvous s q key thp.port.maxReply) := ha
  unfold ipcCallRendezvous at ho
  dsimp only at ho
  split at ho
  · rename_i tp rest hq
    split_ifs at ho
    · refine hrefuse (.head (.openReply key _ q hnone) (.single (releaseRendezvous_book _ key)))
        (releaseRendezvous_base h1 key) (releaseRendezvous_active ha1 key) ?_ ho
      have htab : table (releaseRendezvous (openRendezvous s q key thp.port.maxReply) key) =
          { table s with queue := update (table s).queue key [] } := by
        rw [releaseRendezvous_table]
        simp only [table, openRendezvous_calls, openRendezvous_queue]
        simp only [openRendezvous, update_idem]
        rw [← hnone, update_eq_self]
      rw [htab]
      exact fun _ => .clear key hnone
    · simp only [bind_eq_bind, bind_eq_some_iff, some.injEq] at ho
      obtain ⟨s₂, hw, s₃, hb, rfl⟩ := ho
      have hm := mem_of_head hq
      obtain ⟨th, htp', hp, hs2⟩ := wake_roused h1 (h1.blocked_of_mem hm) hw
      have hne := h1.not_running_receiver ha1 hm
      have hb2 : Base s₂ := by
        refine wake_base h1 ?_ hw
        exact fun _ => rfl
      have ht2 : s₂.threads s₂.running = some self := by
        rw [hs2, roused_running, roused_threads]
        exact (update_of_ne hne.symm ..).trans ht
      refine ⟨.handed key _ tp q rest th s₂ _ s₃ hg hkey hnone hq htp' hp hne hs2 rfl h1 hb2
        (hb2.waiting ht2 hty (fun _ => rfl) replying_ok) (block_waiting ht2 hb), ?_⟩
      intro hr
      cases hr.2.1
  · rename_i hq
    simp only [bind_eq_bind, bind_eq_some_iff, some.injEq] at ho
    obtain ⟨s₂, hb, rfl⟩ := ho
    have hb' := h1.waiting ht hty (f := callWait m size (createIpcTag s.running key))
      (fun _ => rfl) (calling_ok (p := p) h ht hkey)
    refine ⟨.queued key _ q _ s₂ hg hkey hnone ⟨thp, htp, by simpa using hopen⟩ hq rfl h1 hb'
      (block_waiting ht hb), ?_⟩
    intro hr
    cases hr.2.1

inductive SendCase (s : State) (self : Thread) (p m size : ℕ) : Outcome → Prop
  | refused {o : Outcome} : Refused s o → SendCase s self p m size o
  | handed (tp : ℕ) (rest : List ℕ) (th : Thread) (s₂ s' : State) :
    s.queues (.receiver p) = tp :: rest → s.threads tp = some th → Placed th → tp ≠ s.running →
    s₂ = roused s tp th (message size (createIpcTag s.running 0)) → Base s₂ →
    leaveSerialize s₂ = some s' →
    SendCase s self p m size ⟨s', some eOk, none, some (createIpcTag s.running 0)⟩
  | queued (s₂ s' : State) : Opened s p → s.queues (.receiver p) = [] →
    s₂ = waiting s self (.caller p) (sendWait m size (createIpcTag s.running 0)) .send → Base s₂ →
    leaveSerializeAndDispatch s₂ = some s' →
    SendCase s self p m size ⟨s', none, none, none⟩

theorem send_cases (ho : send s p m size copyOk = some o) :
    SendCase s self p m size o ∧ (Refused s o → Still s o.state) := by
  have hrefuse : ∀ {code : ℤ}, leave s code = some o →
      SendCase s self p m size o ∧ (Refused s o → Still s o.state) :=
    fun hl => ⟨.refused (refused_of_leave .refl h hl), fun _ => (leave_leaves hl).still h⟩
  unfold send at ho
  dsimp only at ho
  split at ho
  · exact hrefuse ho
  rename_i thp htp
  split at ho
  · exact hrefuse ho
  rename_i hopen
  split at ho
  · exact hrefuse ho
  split at ho
  · rename_i tp rest hq
    split_ifs at ho
    · exact hrefuse ho
    simp only [bind_eq_bind, bind_eq_some_iff, some.injEq] at ho
    obtain ⟨s₁, hw, s₂, hl, rfl⟩ := ho
    have hm := mem_of_head hq
    obtain ⟨th, htp', hp, hs1⟩ := wake_roused h (h.blocked_of_mem hm) hw
    have hb1 : Base s₁ := by
      refine wake_base h ?_ hw
      exact fun _ => rfl
    refine ⟨.handed tp rest th s₁ s₂ hq htp' hp (h.not_running_receiver ha hm) hs1 hb1 hl, ?_⟩
    intro hr
    cases hr.2.2.2
  · rename_i hq
    simp only [bind_eq_bind, bind_eq_some_iff, some.injEq] at ho
    obtain ⟨s₁, hb, rfl⟩ := ho
    refine ⟨.queued _ s₁ ⟨thp, htp, by simpa using hopen⟩ hq rfl
      (h.waiting ht (ha self ht) (fun _ => rfl) (sending_ok h ht)) (block_waiting ht hb), ?_⟩
    intro hr
    cases hr.2.1

inductive ReceiveCase (s : State) (self : Thread) (p m : ℕ) : Outcome → Prop
  | refused {o : Outcome} : Refused s o → ReceiveCase s self p m o
  | heeded (s' : State) : self.port.flag ≠ 0 → Base (s.set s.running (self.setFlag 0)) →
    leaveSerialize (s.set s.running (self.setFlag 0)) = some s' →
    ReceiveCase s self p m ⟨s', some eRlwai, none, none⟩
  | called (tp : ℕ) (rest : List ℕ) (th : Thread) (s₂ s' : State) :
    s.queues (.caller p) = tp :: rest → s.threads tp = some th → th.wait.type = .call →
    (s.replies (keyOfIpc th.wait.key)).isSome → tp ≠ s.running →
    s₂ = handOver s tp th → Base s₂ → leaveSerialize s₂ = some s' →
    ReceiveCase s self p m ⟨s', some th.wait.size, some th.wait.key, some th.wait.key⟩
  | sent (tp : ℕ) (rest : List ℕ) (th : Thread) (s₂ s' : State) :
    s.queues (.caller p) = tp :: rest → s.threads tp = some th → th.wait.type = .send →
    Placed th → tp ≠ s.running → s₂ = roused s tp th id → Base s₂ →
    leaveSerialize s₂ = some s' →
    ReceiveCase s self p m ⟨s', some th.wait.size, some th.wait.key, some th.wait.key⟩
  | queued (s₂ s' : State) : self.port.flag = 0 → Opened s p → s.queues (.caller p) = [] →
    s₂ = waiting s self (.receiver p) (receiveWait m) .receive → Base s₂ →
    leaveSerializeAndDispatch s₂ = some s' →
    ReceiveCase s self p m ⟨s', none, none, none⟩

theorem ipcReceive_cases (ho : ipcReceive s p m copyOk = some o) :
    ReceiveCase s self p m o ∧ (Refused s o → Still s o.state) := by
  have hrefuse : ∀ {code : ℤ}, leave s code = some o →
      ReceiveCase s self p m o ∧ (Refused s o → Still s o.state) :=
    fun hl => ⟨.refused (refused_of_leave .refl h hl), fun _ => (leave_leaves hl).still h⟩
  simp only [ipcReceive, ht, bind_eq_bind, bind_some] at ho
  split at ho
  · rename_i hflag
    have hok : ThreadOk (self.setFlag 0) := h.thread _ self ht
    have hs := still_set h ht hok rfl rfl fun hr => hr
    obtain ⟨s', hs', rfl⟩ := leave_eq ho
    exact ⟨.heeded s' hflag hs.keeps.base hs', fun _ => hs.trans ((Leaves.serialize hs').still hs.keeps.base)⟩
  rename_i hflag
  split at ho
  · exact hrefuse ho
  rename_i thp htp
  split at ho
  · exact hrefuse ho
  rename_i hopen
  split at ho
  · rename_i tp rest hq
    have hm := mem_of_head hq
    obtain ⟨th, htp, hwait, hblk⟩ := h.queued_blocked hm
    have hok := h.thread tp th htp
    have hne : tp ≠ s.running := by
      rintro rfl
      rw [ht] at htp
      cases htp
      rw [hok.waiting_none (ha self ht)] at hwait
      cases hwait
    simp only [htp, bind_some] at ho
    split at ho
    · exact hrefuse ho
    rcases hok.type_of_caller hwait with hty | hty
    · simp only [hty, listEnqueue, bind_eq_bind, bind_eq_some_iff, some.injEq] at ho
      obtain ⟨s₁, hl, max, hr, s₂, ⟨th1, ht1, rfl⟩, th2, ht2, s4, hlv, rfl⟩ := ho
      obtain ⟨th0, ht0, rfl⟩ := listRemove_eq h hl
      rw [htp] at ht0
      cases ht0
      simp only [update_self, some.injEq] at ht1
      subst ht1
      simp only [State.set_threads, update_self, some.injEq] at ht2
      subst ht2
      have hentry : (s.replies (keyOfIpc th.wait.key)).isSome := by
        rw [isSome_iff_exists]
        exact ⟨max, hr⟩
      simp only [State.set, update_idem] at hlv
      refine ⟨.called tp rest th _ s4 hq htp hty hentry hne rfl (h.handOver htp hty) hlv, ?_⟩
      intro hr
      cases hr.2.2.2
    · simp only [hty, bind_eq_some_iff, some.injEq] at ho
      obtain ⟨s₁, hw, s₂, hlv, rfl⟩ := ho
      have hb := wake_base h (fun _ => rfl) hw
      obtain ⟨th0, ht0, hp, hs1⟩ := wake_roused h (h.blocked_of_mem hm) hw
      rw [htp] at ht0
      cases ht0
      refine ⟨.sent tp rest th s₁ s₂ hq htp hty hp hne hs1 hb hlv, ?_⟩
      intro hr
      cases hr.2.2.2
  · rename_i hq
    simp only [bind_eq_some_iff, some.injEq] at ho
    obtain ⟨s₁, hb, rfl⟩ := ho
    refine ⟨.queued _ s₁ (not_not.mp hflag) ⟨thp, htp, by simpa using hopen⟩ hq rfl
      (h.waiting ht (ha self ht) (fun _ => rfl) receiving_ok) (block_waiting ht hb), ?_⟩
    intro hr
    cases hr.2.1

end

theorem releaseEach_shut {g : Guard} {l : List ℕ} (h : Base s)
    (hg : g = .caller s.running ∨ g = .receiver s.running) (hl : s.queues g = l)
    (hr : l.foldlM (fun s t => wake s t fun w => { w with result := eDlt }) s = some s') :
    Relation.ReflTransGen Shut s s' ∧ Base s' ∧ s'.running = s.running ∧ s'.queues g = [] ∧
      ∀ g', s.queues g' = [] → s'.queues g' = [] := by
  induction l generalizing s with
  | nil =>
    cases hr
    exact ⟨.refl, h, rfl, hl, fun _ he => he⟩
  | cons t l ih =>
    simp only [foldlM_cons, bind_eq_bind, bind_eq_some_iff] at hr
    obtain ⟨s₁, hw, hr⟩ := hr
    have hm := mem_of_head hl
    have hb := wake_base h (f := fun w => { w with result := eDlt }) (fun _ => rfl) hw
    obtain ⟨th, ht, hp, rfl⟩ := wake_roused h (h.blocked_of_mem hm) hw
    obtain ⟨hs', hb', hrun', hg', hrest⟩ := ih hb (by rw [roused_running]; exact hg)
      (by rw [roused_queues, hl, erase_cons_head]) hr
    rw [roused_running] at hrun'
    refine ⟨.head (.expel g t th hg ht hm hp) hs', hb', hrun', hg', ?_⟩
    intro g'' he
    apply hrest
    rw [roused_queues, he]
    rfl

theorem ipcClose_ran (h : Base s) (ho : ipcClose s = some o) : ∃ s₁, Relation.ReflTransGen Shut s s₁ ∧ Base s₁ ∧
      leaveSerializeAndDispatch s₁ = some o.state ∧ o.handed = none ∧ s₁.running = s.running ∧
      (s₁ = s ∨ s₁.queues (.caller s.running) = [] ∧ s₁.queues (.receiver s.running) = []) := by
  simp only [ipcClose, bind_eq_bind, bind_eq_some_iff] at ho
  obtain ⟨th, ht, ho⟩ := ho
  split_ifs at ho with hop
  · obtain ⟨s', hs', rfl⟩ := leaveAndDispatch_eq ho
    exact ⟨s, .refl, h, hs', rfl, rfl, .inl rfl⟩
  simp only [bind_eq_some_iff, leaveAndDispatch, map_eq_some_iff] at ho
  obtain ⟨s₁, h1, s₂, h2, s', hs', rfl⟩ := ho
  have hok : ThreadOk (th.setPort { th.port with opened := false }) := h.thread _ th ht
  have hb := h.set ht hok rfl fun hr => hr
  obtain ⟨hm1, hb1, hrun1, hq1, -⟩ := releaseEach_shut hb (.inr rfl) rfl h1
  rw [State.set_running] at hrun1 hq1
  obtain ⟨hm2, hb2, hrun2, hq2, hrest⟩ := releaseEach_shut hb1 (.inl rfl) rfl h2
  rw [hrun1] at hq2 hrun2
  exact ⟨s₂, .head (.close th ht (by simpa using hop)) (hm1.trans hm2), hb2, hs', rfl, hrun2,
    .inr ⟨hq2, hrest _ hq1⟩⟩

theorem CallCase.ran (hc : CallCase s self p m size o) (he : ¬e.Plain) (h : Base s)
    (ha : Active s) (ht : s.threads s.running = some self) : Ran (Move e) s o.state := by
  have hty := ha self ht
  cases hc with
  | refused hr => exact hr.1.mono fun _ _ => .act
  | handed key max tp q rest th s₂ s₃ s' hg hkey hnone hq htp hp hne hs2 hs3 hb1 hb2 hb3 hl =>
    have ht2 : s₂.threads s₂.running = some self := by
      rw [hs2, roused_running, roused_threads]
      exact (update_of_ne hne.symm ..).trans ht
    have hwait : Post s₂ s₃ := by
      rw [hs3]
      exact .wait (.reply key) self _ _ ht2 hty (fun _ => rfl) replying_ok (by simp) (by simp)
        (by simp [blocked, replyWait])
    have hhand : Post (openRendezvous s q key max) s₂ := by
      rw [hs2]
      exact .hand p tp _ _ th htp (mem_receivers hq) hp
    exact ⟨s₃, ((Relation.ReflTransGen.single
      (.act (.openReply key max q hnone))).tail (.post he hhand)).tail (.post he hwait), hb3, .dispatch hl⟩
  | queued key max q s₂ s' hg hkey hnone hopen hq hs2 hb1 hb2 hl =>
    have hwait : Post (openRendezvous s q key max) s₂ := by
      rw [hs2]
      refine .wait (.caller p) self _ _ ht hty (fun _ => rfl) (calling_ok h ht hkey) (by simp) ?_
        fun _ => ⟨key, hkey, rfl⟩
      rintro p' (he | he) <;> cases he
      exact hopen
    exact ⟨s₂, (Relation.ReflTransGen.single
      (.act (.openReply key max q hnone))).tail (.post he hwait), hb2, .dispatch hl⟩

theorem SendCase.ran (hc : SendCase s self p m size o) (he : ¬e.Plain) (h : Base s)
    (ha : Active s) (ht : s.threads s.running = some self) : Ran (Move e) s o.state := by
  cases hc with
  | refused hr => exact hr.1.mono fun _ _ => .act
  | handed tp rest th s₂ s' hq htp hp hne hs2 hb2 hl =>
    have hm := mem_of_head hq
    have hhand : Post s s₂ := by
      rw [hs2]
      exact .hand p tp _ _ th htp hm hp
    exact ran_one hb2 (.post he hhand) (.serialize hl)
  | queued s₂ s' hopen hq hs2 hb2 hl =>
    have hwait : Post s s₂ := by
      rw [hs2]
      refine .wait (.caller p) self _ _ ht (ha self ht) (fun _ => rfl) (sending_ok h ht) (by simp) ?_
        (by simp [blocked, sendWait])
      rintro p' (he | he) <;> cases he
      exact hopen
    exact ran_one hb2 (.post he hwait) (.dispatch hl)

theorem ReceiveCase.ran (hc : ReceiveCase s self p m o) (he : ¬e.Plain)
    (hh : e.Heeds) (ha : Active s) (ht : s.threads s.running = some self) : Ran (Move e) s o.state := by
  cases hc with
  | refused hr => exact hr.1.mono fun _ _ => .act
  | heeded s' hflag hb hl =>
    exact ran_one hb (.heed hh (.consume self ht)) (.serialize hl)
  | called tp rest th s₂ s' hq htp hty hentry hne hs2 hb2 hl =>
    have hm := mem_of_head hq
    have haccept : Post s s₂ := by
      rw [hs2]
      exact .accept p tp th htp hm hty
    exact ran_one hb2 (.post he haccept) (.serialize hl)
  | sent tp rest th s₂ s' hq htp hty hp hne hs2 hb2 hl =>
    have hm := mem_of_head hq
    have hsent : Post s s₂ := by
      rw [hs2]
      exact .sent p tp th htp hm hty hp
    exact ran_one hb2 (.post he hsent) (.serialize hl)
  | queued s₂ s' hflag hopen hq hs2 hb2 hl =>
    have hwait : Post s s₂ := by
      rw [hs2]
      refine .wait (.receiver p) self _ _ ht (ha self ht) (fun _ => rfl) receiving_ok ?_ ?_
        (by simp [blocked, receiveWait])
      · intro p' _
        exact hflag
      · rintro p' (he | he) <;> cases he
        exact hopen
    exact ran_one hb2 (.post he hwait) (.dispatch hl)

end

section

variable {s : State} {e : Event} {o : Outcome} {self : Thread}

theorem CallCase.stepped (hc : CallCase s self p m size o)
    (hr : Refused s o → ∀ e, Stepped s e o) (he : e.Calls) (ht : s.threads s.running = some self)
    (hu : self.cont = .user) : Stepped s e o := by
  have hcalls : calls s s.running = none := by
    rw [calls_of_thread ht, callView_none_of_user hu]
  cases hc with
  | refused h => exact hr h e
  | handed key max tp q rest th s₂ s₃ s' hg hkey hnone hq htp hp hne hs2 hs3 hb1 hb2 hb3 hl =>
    refine stepped_dispatch hb3 ?_ hl
    have hk : Keeps (openRendezvous s q key max) s₂ := by
      rw [hs2]
      exact (receiver_still (f := message size _) hb1 (mem_receivers hq) htp fun _ => rfl).keeps
    have hrun : s₂.running = s.running := by
      rw [hs2, roused_running]
      rfl
    have htab : table s₃ = { entries := update s.replies key (some max)
                             calls := update (calls s) s.running (some (key, true))
                             queue := update (table s).queue key [s.running] } := by
      rw [hs3, waiting_table, hk.replies, hk.calls, openRendezvous_calls, hrun]
      simp only [Table.mk.injEq]
      refine ⟨rfl, rfl, ?_⟩
      funext k
      simp only [update_apply, Guard.reply.injEq, hk.queue]
      split_ifs with he
      · simp [openRendezvous]
      · simp [openRendezvous, he, table]
    rw [htab]
    exact .call key max he (congrArg Prod.fst hg) hnone hcalls
  | queued key max q s₂ s' hg hkey hnone hopen hq hs2 hb1 hb2 hl =>
    refine stepped_dispatch hb2 ?_ hl
    have htab : table s₂ = { entries := update s.replies key (some max)
                             calls := update (calls s) s.running (some (key, false))
                             queue := update (table s).queue key [] } := by
      rw [hs2, waiting_table, ← openRendezvous_queue s q key max]
      rfl
    rw [htab]
    exact .wait key max he (congrArg Prod.fst hg) hnone hcalls

theorem SendCase.stepped (hc : SendCase s self p m size o)
    (hr : Refused s o → Still s o.state) (h : Base s) (ha : Active s)
    (ht : s.threads s.running = some self) (hu : self.cont = .user) : Stepped s e o := by
  cases hc with
  | refused h' => exact (hr h').stepped ha h'.2.2.2
  | handed tp rest th s₂ s' hq htp hp hne hs2 hb2 hl =>
    have hm := mem_of_head hq
    have hs : Still s s₂ := by
      rw [hs2]
      exact receiver_still h hm htp fun _ => rfl
    refine stepped_leaves hb2 (hs.active ha) ?_ (.serialize hl)
    rw [hs.keeps.table_eq]
    exact .keep (by simp [h.key_of_tag ht])
  | queued s₂ s' hopen hq hs2 hb2 hl =>
    subst hs2
    exact stepped_dispatch hb2 (waiting_keeps ht hu hb2 (by simp) (by simp)).change hl

theorem handOver_change {tp : ℕ} (h : Base s) (he : e.Receives p)
    (hq : (s.queues (.caller p)).head? = some tp) (ht : s.threads tp = some th)
    (hty : th.wait.type = .call) (hentry : (s.replies (keyOfIpc th.wait.key)).isSome) :
    Change s e (some th.wait.key) (table (handOver s tp th)) := by
  have hok := h.thread tp th ht
  simp only [ThreadOk, hty] at hok
  obtain ⟨-, -, p', key, hw, hc, hkey⟩ := hok
  rw [hkey] at hentry
  have htab : table (handOver s tp th) = { table s with
      calls := update (calls s) tp (some (key, true))
      queue := update (table s).queue key (s.queues (.reply key) ++ [tp]) } := by
    have hts : (handOver s tp th).threads = update s.threads tp (some (handedOver th)) := rfl
    have hcalls : calls (handOver s tp th) = update (calls s) tp (some (key, true)) := by
      rw [calls_update hts]
      simp [callView, handedOver, hc]
    simp only [table, hcalls, Table.mk.injEq, true_and]
    refine ⟨rfl, ?_⟩
    funext k
    have herase : ∀ k, (s.queues (.reply k)).erase tp = s.queues (.reply k) := by
      intro k
      apply erase_of_not_mem
      apply h.not_queued ht
      simp [hw]
    simp only [handOver, link, unlink, hkey, update_apply, Guard.reply.injEq, herase]
  rw [htab]
  apply Change.receive p tp key th he hq ht hty hentry
  rw [calls_of_thread ht]
  simp [callView, hty, hc]

theorem ReceiveCase.stepped (hc : ReceiveCase s self p m o)
    (hr : Refused s o → Still s o.state) (he : e.Receives p) (h : Base s) (ha : Active s)
    (ht : s.threads s.running = some self) (hu : self.cont = .user) : Stepped s e o := by
  cases hc with
  | refused h' => exact (hr h').stepped ha h'.2.2.2
  | heeded s' hflag hb hl =>
    have hok : ThreadOk (self.setFlag 0) := h.thread _ self ht
    have hs := still_set h ht hok rfl rfl fun hr => hr
    exact stepped_leaves hb (hs.active ha) hs.keeps.change (.serialize hl)
  | called tp rest th s₂ s' hq htp hty hentry hne hs2 hb2 hl =>
    subst hs2
    refine stepped_leaves hb2 ?_ (handOver_change h he (by rw [hq]; rfl) htp hty hentry) (.serialize hl)
    intro th' ht'
    exact ha th' ((update_of_ne hne.symm ..).symm.trans ht')
  | sent tp rest th s₂ s' hq htp hty hp hne hs2 hb2 hl =>
    have hok := h.thread tp th htp
    have hok' := hok
    simp only [ThreadOk, hty] at hok
    obtain ⟨-, p', -, hc, hkey⟩ := hok
    have hk : Keeps s s₂ := by
      rw [hs2]
      exact keeps_roused h htp rfl (woken_ok hok' fun _ => rfl) (by simp [hty])
        (by simp [hty, callView, woken, hc])
    have ha2 : Active s₂ := by
      rw [hs2]
      exact ha.roused
    refine stepped_leaves hb2 ha2 ?_ (.serialize hl)
    rw [hk.table_eq]
    exact .keep (by simp [hkey])
  | queued s₂ s' hflag hopen hq hs2 hb2 hl =>
    subst hs2
    exact stepped_dispatch hb2 (waiting_keeps ht hu hb2 (by simp) (by simp)).change hl

theorem finish_stepped (h : Base s) (ha : Active s) (ho : finish s = some o) : Stepped s .finish o := by
  obtain ⟨th, ht, hf⟩ := finish_finished ho
  have hty := ha th ht
  have hb := h.done ha ht
  have hact : Active (s.set s.running (th.setCont .user)) := ha.set ht fun hty => hty
  have hkeeps : callView th = none → Keeps s (s.set s.running (th.setCont .user)) := by
    intro hv
    refine keeps_thread hb rfl rfl ?_ fun _ => rfl
    rw [calls_of_thread ht, hv]
    rfl
  cases hf with
  | failed key s' hc hres hl =>
    refine stepped_leaves (releaseRendezvous_base hb key) (releaseRendezvous_active hact key) ?_ (.serialize hl)
    have htab : table (releaseRendezvous (s.set s.running (th.setCont .user)) key) =
        { table s with
          entries := update s.replies key none
          calls := update (calls s) s.running none } := by
      rw [releaseRendezvous_table]
      simp only [table, State.set_queues, State.set_replies, calls_update (State.set_threads ..)]
      rfl
    rw [htab]
    apply Change.fail _ _ rfl
    rw [calls_of_thread ht]
    simp [callView, hc, hres, hty]
  | received s' hc hres hl =>
    exact stepped_leaves hb hact (hkeeps (by simp [callView, hc])).change (.serialize hl)
  | passed s' ret hres hl =>
    refine stepped_leaves hb hact (hkeeps ?_).change hl
    unfold callView
    split
    · rename_i key hc
      simp [hty, hres key hc]
    · rfl

theorem reply_stepped {tag message : ℕ} (h : Base s) (ha : Active s)
    (hkey : keyOfIpc tag ≠ 0) (ho : reply s (keyOfIpc tag) size copyOk = some o) :
    Stepped s (.op (.ipcSend tag message size copyOk)) o := by
  obtain ⟨hh, hr⟩ := reply_replied h ho
  cases hr with
  | refused hd hl =>
    refine stepped_leaves (releaseRendezvous_base h _) (releaseRendezvous_active ha _) ?_ hl
    rw [hh, releaseRendezvous_table]
    exact .refuse tag message size copyOk rfl hkey hd
  | answered t th ht hm hwait hp hl =>
    obtain ⟨hty, hc, hres⟩ := (h.thread t th ht).of_reply hwait
    refine stepped_leaves (releaseRendezvous_base (h.answered ht) _) (releaseRendezvous_active ha.roused _) ?_ hl
    have hcalls : calls (roused s t th fun w => { w with size := size }) = update (calls s) t none := by
      rw [calls_update (roused_threads ..)]
      simp [callView, woken, hc, hres]
    rw [hh, releaseRendezvous_table, roused_replies]
    simp only [table, hcalls, roused_queues]
    refine .deliver t _ rfl ?_ hm
    rw [calls_of_thread ht]
    simp [callView, hty, hc]

variable {id : ℕ}

theorem Kill.eq (hk : Kill id s s₁) (h : Base s) :
    ∃ th, s₁.threads = update s.threads id (some th) ∧ th.cont = .user ∧
      th.wait.type = .none ∧ s₁.running = s.running ∧ s₁.replies = s.replies ∧
      ∀ g, s₁.queues g = (s.queues g).erase id := by
  cases hk with
  | halt th ht hst =>
    have hok := h.thread id th ht
    have hty := hok.type_of_not_blocked (by rcases hst with hst | hst <;> simp [Blocked, hst])
    refine ⟨stopped th, rfl, rfl, hty, rfl, rfl, ?_⟩
    intro g
    exact (erase_of_not_mem (h.not_queued ht (by simp [hok.waiting_none hty]))).symm
  | abort th ht hb => exact ⟨aborted th, rfl, rfl, rfl, rfl, rfl, fun _ => rfl⟩

theorem Kill.table_eq (hk : Kill id s s₁) (h : Base s) : table s₁ = { table s with
      calls := update (calls s) id none
      queue := fun k => (s.queues (.reply k)).erase id } := by
  obtain ⟨th, hts, hu, -, -, hrep, hq⟩ := hk.eq h
  simp only [table, hrep, hq, calls_update hts, callView_none_of_user hu]

theorem Kill.stepped (hk : Kill id s s₁) (h : Base s) (ha : Active s)
    (hb : Base s₁) (hl : Leaves s₁ o.state) (hh : o.handed = none) :
    Stepped s (.op (.threadTerminate id)) o := by
  refine stepped_leaves hb ?_ ?_ hl
  · obtain ⟨th, hts, -, hty, hrun, -, -⟩ := hk.eq h
    intro th1 ht1
    rw [hts, hrun, update_apply] at ht1
    split_ifs at ht1
    · cases ht1
      exact hty
    · exact ha th1 ht1
  · rw [hh, hk.table_eq h]
    exact .terminate id rfl

theorem Shut.still (hm : Shut s s') (h : Base s) : Still s s' := by
  cases hm with
  | close th ht hop =>
    have hok : ThreadOk (th.setPort { th.port with opened := false }) := h.thread _ th ht
    exact still_set h ht hok rfl rfl fun hr => hr
  | expel g t th hg ht hm hp =>
    obtain ⟨th', ht', hwait⟩ := h.queued g t hm
    rw [ht] at ht'
    cases ht'
    have hok := h.thread t th ht
    have hok' := woken_ok (f := fun w => { w with result := eDlt }) hok fun _ => rfl
    have hne : th.wait.type ≠ .reply := by
      intro hty
      simp only [ThreadOk, hty] at hok
      obtain ⟨-, -, k, hk, -⟩ := hok
      rw [hwait] at hk
      cases hk
      rcases hg with hg | hg <;> cases hg
    refine ⟨keeps_roused h ht rfl hok' hne ?_, Active.roused⟩
    unfold ThreadOk at hok
    split at hok <;> simp_all [callView, woken, eDlt]

theorem Quiet.sound (h : Quiet (Move e) s o) (ha : Active s) : Ran (Move e) s o.state ∧ Stepped s e o :=
  ⟨h.ran, h.still.stepped ha h.handed⟩

theorem step_op {op : Op} (hs : step s (.op op) = some o) :
    ∃ th, s.threads s.running = some th ∧ th.cont = .user ∧ apply s op = some o := by
  simp only [step, bind_eq_bind, bind_eq_some_iff] at hs
  obtain ⟨th, ht, ho⟩ := hs
  split_ifs at ho with hu
  exact ⟨th, ht, hu, ho⟩

theorem step_switch {next : ℕ} (hs : step s (.switch next) = some o) :
    ∃ prev th, s.threads s.running = some prev ∧ s.threads next = some th ∧ Runnable th ∧
      next ≠ s.running ∧ o = Kernel.quiet (switched s prev th next) := by
  simp only [step, bind_eq_bind, bind_eq_some_iff] at hs
  obtain ⟨th, ht, hs⟩ := hs
  split_ifs at hs with hr
  simp only [map_eq_some_iff] at hs
  obtain ⟨s', hs', rfl⟩ := hs
  obtain ⟨prev, hprev, rfl⟩ := switchTo_switched hs' ht hr.2
  exact ⟨prev, th, hprev, ht, .inr hr.1, hr.2, rfl⟩

section

variable (h : Base s) (ha : Active s) (hs : step s e = some o)
include h ha hs

theorem step_sound : Ran (Move e) s o.state ∧ Stepped s e o := by
  cases e with
  | op op =>
    obtain ⟨th, ht, hu, ho⟩ := step_op hs
    cases op with
    | ipcOpen pk => exact (ipcOpen_quiet h ho).move.sound ha
    | ipcClose =>
      obtain ⟨s₁, hs1, hb1, hl, hh, -⟩ := ipcClose_ran h ho
      have hk := (Still.of_run h (fun _ _ => Shut.still) hs1).keeps
      refine ⟨Ran.mono ⟨s₁, hs1, hb1, .dispatch hl⟩ fun _ _ => .shut rfl, ?_⟩
      refine stepped_dispatch hb1 ?_ hl
      rw [hh]
      exact hk.change
    | ipcCall portId message size allocOk copyOk =>
      obtain ⟨hc, hr⟩ := ipcCall_cases h ha ht ho
      exact ⟨hc.ran (by simp [Event.Plain]) h ha ht, hc.stepped hr trivial ht hu⟩
    | ipcReceive portId message copyOk =>
      obtain ⟨hc, hr⟩ := ipcReceive_cases h ha ht ho
      exact ⟨hc.ran (by simp [Event.Plain]) trivial ha ht, hc.stepped hr rfl h ha ht hu⟩
    | ipcSend tag message size copyOk =>
      simp only [apply, ipcSend] at ho
      split_ifs at ho with hkey
      · exact ⟨(reply_ran h ho).mono fun _ _ => .act, reply_stepped h ha hkey ho⟩
      · obtain ⟨hc, hr⟩ := send_cases h ha ht ho
        exact ⟨hc.ran hkey h ha ht, hc.stepped hr h ha ht hu⟩
    | ipcListen => exact (ipcListen_quiet h ht hu ho).sound ha
    | ipcNotify portId flag => exact (ipcNotify_quiet h ho).move.sound ha
    | threadCreate id tskatr itskpri stksz allocOk stackOk =>
      exact (threadCreate_quiet h ho).move.sound ha
    | threadDestroy id =>
      exact ((threadDestroy_quiet h ho).mono fun _ _ => .destroy id rfl).sound ha
    | threadStart id => exact (threadStart_quiet h ho).move.sound ha
    | threadEnd => exact ((threadEnd_quiet h ht hu ho).mono fun _ _ => .stop rfl).sound ha
    | threadTerminate id =>
      obtain ⟨hh, hl | ⟨-, s₁, hk, hb, hl⟩⟩ := threadTerminate_cases h ho
      · exact (quiet_leaves (.refl h) .refl hl hh).sound ha
      · exact ⟨ran_one hb (.kill id rfl hk) hl, hk.stepped h ha hb hl hh⟩
    | threadSuspend id => exact (threadSuspend_quiet h ha ho).sound ha
    | threadResume id => exact (threadResume_quiet h ho).move.sound ha
    | readyRotate priority id => exact (readyRotate_quiet h ho).move.sound ha
  | finish => exact ⟨(finish_ran h ha hs).mono fun _ _ => .act, finish_stepped h ha hs⟩
  | switch next =>
    obtain ⟨prev, th, hprev, ht, hr, hne, rfl⟩ := step_switch hs
    have hl : Leaves s (switched s prev th next) := .switch (.switch next prev th hprev ht hr hne)
    exact ⟨ran_same h hl, (hl.still h).stepped ha rfl⟩
  | request | timer =>
    cases hs
    refine (quiet_leaves ?_ (.single (.act (.note ?_))) .now rfl).sound ha
    · exact ⟨keeps_same h rfl rfl rfl rfl rfl, fun ha => ha⟩
    · exact .mark _ _ _ fun _ _ hb => hb

theorem step_ran : Ran (Move e) s o.state := (step_sound h ha hs).1

theorem step_stepped : Stepped s e o := (step_sound h ha hs).2

end

end

section

variable {G : Type} {next : G → State → Outcome → Event → G} {C : State → G → Event → Prop}
  {init : G}

/-- The states reached from boot by steps that meet `C`, beside something that the kernel itself
does not keep. -/
inductive Followed (next : G → State → Outcome → Event → G) (C : State → G → Event → Prop)
    (init : G) : State → G → Prop
  | boot : Followed next C init boot init
  | step {s : State} {g : G} {e : Event} {o : Outcome} : Followed next C init s g → C s g e →
    step s e = some o → Followed next C init o.state (next g s o e)

def follow (next : G → State → Outcome → Event → G) (s : State) (g : G) :
    List Event → Option (State × G)
  | [] => some (s, g)
  | e :: es => do
    let o ← step s e
    follow next o.state (next g s o e) es

theorem Followed.base {g : G} (h : Followed next C init s g) : Base s ∧ Active s := by
  induction h with
  | boot => exact ⟨boot_base, boot_active⟩
  | step _ _ hs ih =>
    have hk := step_stepped ih.1 ih.2 hs
    exact ⟨hk.base, hk.active⟩

theorem Followed.follow {g g' : G} {es : List Event}
    (h : Followed next C init s g) (hf : follow next s g es = some (s', g'))
    (hC : ∀ e ∈ es, ∀ s g, C s g e) : Followed next C init s' g' := by
  induction es generalizing s g with
  | nil =>
    cases hf
    exact h
  | cons e es ih =>
    simp only [Kernel.follow, bind_eq_bind, bind_eq_some_iff] at hf
    obtain ⟨o, hs, hf⟩ := hf
    exact ih (h.step (hC e mem_cons_self s g) hs) hf fun e he => hC e (mem_cons_of_mem _ he)

end

end Eotan.Kernel
