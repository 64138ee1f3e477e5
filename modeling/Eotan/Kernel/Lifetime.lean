import Eotan.Kernel.Rendezvous

/-!
The lists of a port lie in the thread that owns it. No thread is left on such a list when
`thread_destroy` frees the owner, provided that the port's lists are empty by then.
-/

namespace Eotan.Kernel

open Function

def Guard.owner : Guard → Option ℕ
  | .caller p => some p
  | .receiver p => some p
  | .reply _ => none

/-- A thread that waits on a port is on the port's list, and only an open port has threads on its
lists; but the port `shut`, if any, is being closed. -/
structure Housed (shut : Option ℕ) (s : State) : Prop where
  linked : ∀ t th g p, s.threads t = some th → th.wait.waiting = some g → g.owner = some p →
    t ∈ s.queues g
  opened : ∀ g p, g.owner = some p → s.queues g ≠ [] →
    ∃ th, s.threads p = some th ∧ (th.port.opened = true ∨ shut = some p)

section

variable {shut : Option ℕ} {s s' : State} {t : ℕ}

theorem Housed.empty {g : Guard} {p : ℕ} (h : Housed none s) (hg : g.owner = some p)
    (hp : ∀ th, s.threads p = some th → th.port.opened = false) : s.queues g = [] := by
  by_contra hne
  obtain ⟨th, ht, hop⟩ := h.opened g p hg hne
  simp [hp th ht] at hop

variable {th' th : Thread}

theorem Housed.touch (h : Housed shut s) (hts : s'.threads = update s.threads t (some th'))
    (hq : ∀ g p, g.owner = some p → s'.queues g = s.queues g)
    (hw : ∀ g p, th'.wait.waiting = some g → g.owner = some p → t ∈ s.queues g)
    (hop : ∀ th, s.threads t = some th → th.port.opened = true → th'.port.opened = true ∨
      shut = some t) : Housed shut s' := by
  constructor
  · intro u thu g p hu hg hp
    rw [hq g p hp]
    rw [hts, update_apply] at hu
    split_ifs at hu with he
    · cases hu
      rw [he]
      exact hw g p hg hp
    · exact h.linked u thu g p hu hg hp
  · intro g p hp hne
    rw [hq g p hp] at hne
    obtain ⟨th, ht, ho⟩ := h.opened g p hp hne
    rw [hts, update_apply]
    split_ifs with he
    · subst he
      exact ⟨th', rfl, ho.elim (hop th ht) .inr⟩
    · exact ⟨th, ht, ho⟩

section

variable (h : Housed shut s) (ht : s.threads t = some th) (hts : s'.threads = update s.threads t (some th'))
include h ht hts

theorem Housed.same (hq : ∀ g p, g.owner = some p → s'.queues g = s.queues g)
    (hw : th'.wait.waiting = th.wait.waiting) (hop : th'.port.opened = th.port.opened) : Housed shut s' := by
  apply h.touch hts hq
  · intro g p hg hp
    exact h.linked t th g p ht (hw ▸ hg) hp
  · intro th0 ht0 ho
    rw [ht] at ht0
    cases ht0
    exact .inl (hop ▸ ho)

theorem Housed.unlink (hq : ∀ g p, g.owner = some p → s'.queues g = (s.queues g).erase t)
    (hw : ∀ g p, th'.wait.waiting = some g → g.owner ≠ some p)
    (hop : th'.port.opened = th.port.opened) : Housed shut s' := by
  constructor
  · intro u thu g p hu hg hp
    rw [hq g p hp]
    rw [hts, update_apply] at hu
    split_ifs at hu with he
    · cases hu
      exact absurd hp (hw g p hg)
    · exact (List.mem_erase_of_ne he).mpr (h.linked u thu g p hu hg hp)
  · intro g p hp hne
    have hne' : s.queues g ≠ [] := by
      intro he
      rw [hq g p hp, he] at hne
      exact hne rfl
    obtain ⟨thp, htp, ho⟩ := h.opened g p hp hne'
    rw [hts, update_apply]
    split_ifs with he
    · subst he
      rw [ht] at htp
      cases htp
      exact ⟨th', rfl, hop ▸ ho⟩
    · exact ⟨thp, htp, ho⟩

end

theorem Housed.roused {th0 : Thread} {f : Wait → Wait} (h : Housed shut s)
    (ht : s.threads t = some th0) (hf : ∀ w, (f w).waiting = w.waiting)
    (hp : th.port.opened = th0.port.opened) : Housed shut (roused s t th f) := by
  refine h.unlink ht (roused_threads ..) (fun g _ _ => roused_queues s t th f g) ?_ hp
  intro g p hg
  simp [woken, hf] at hg

theorem Housed.waiting {g : Guard} {f : Wait → Wait} {c : Cont} (h : Housed none s)
    (ht : s.threads s.running = some th) (hf : ∀ w, (f w).waiting = w.waiting)
    (hopen : ∀ p, g.owner = some p → Opened s p) : Housed none (waiting s th g f c) := by
  have hw : (blocked th g f c).wait.waiting = some g := hf _
  have hts : (Kernel.waiting s th g f c).threads = update s.threads s.running (some (blocked th g f c)) := rfl
  have hqs : (Kernel.waiting s th g f c).queues = update s.queues g (s.queues g ++ [s.running]) := rfl
  constructor
  · intro u thu g' p hu hg hp
    rw [hts, update_apply] at hu
    rw [hqs, update_apply]
    split_ifs at hu with he
    · cases hu
      rw [hw] at hg
      cases hg
      simp [he]
    have hm := h.linked u thu g' p hu hg hp
    split_ifs with hgg
    · subst hgg
      exact List.mem_append_left _ hm
    · exact hm
  · intro g' p hp hne
    have hold : ∃ th', s.threads p = some th' ∧ th'.port.opened = true := by
      by_cases hgg : g' = g
      · subst hgg
        exact hopen p hp
      · rw [hqs, update_of_ne hgg] at hne
        obtain ⟨th', ht', ho⟩ := h.opened g' p hp hne
        exact ⟨th', ht', by simpa using ho⟩
    obtain ⟨th', ht', ho⟩ := hold
    rw [hts, update_apply]
    split_ifs with he
    · subst he
      rw [ht] at ht'
      cases ht'
      exact ⟨_, rfl, .inl ho⟩
    · exact ⟨th', ht', .inl ho⟩

theorem note_housed (hm : Note s s') (h : Housed shut s) : Housed shut s' := by
  cases hm with
  | mark noRequest delay bits hbits => exact { h with }
  | raise t flag th ht hf hr => exact h.same ht rfl (fun _ _ _ => rfl) rfl rfl
  | rouse t th ht hp _ => exact h.roused ht (fun _ => rfl) rfl

theorem tail_housed (hm : Tail s s') (h : Housed shut s) : Housed shut s' := by
  cases hm with
  | note hm => exact note_housed hm h
  | switch next prev th hprev ht hr hne =>
    have hview : (yielded prev).wait = prev.wait ∧ (yielded prev).port = prev.port := by
      unfold yielded
      split_ifs <;> exact ⟨rfl, rfl⟩
    have h1 : Housed shut (s.set s.running (yielded prev)) :=
      h.same hprev rfl (fun _ _ _ => rfl) (congrArg Wait.waiting hview.1)
        (congrArg Port.opened hview.2)
    exact h1.same ((update_of_ne hne ..).trans ht) rfl (fun _ _ _ => rfl) rfl rfl

theorem Housed.clearPort {p : ℕ} (h : Housed none s)
    (hp : ∀ th, s.threads p = some th → th.port.opened = false) (g : Guard) :
    (clearPort (s.set p th) p).queues g = s.queues g := by
  have hc := h.empty (g := .caller p) rfl hp
  have hr := h.empty (g := .receiver p) rfl hp
  simp only [Kernel.clearPort, update_apply, State.set_queues]
  split_ifs with h1 h2
  · rw [h1, hr]
  · rw [h2, hc]
  · rfl

theorem act_housed (hm : Act s s') (h : Housed none s) : Housed none s' := by
  cases hm with
  | note hm => exact note_housed hm h
  | answer key t size th ht hm hq hc hp => exact h.roused ht (fun _ => rfl) rfl
  | fire t th ht hst hp => exact h.same ht rfl (fun _ _ _ => rfl) rfl rfl
  | create id priority hnone hid =>
    have hts : (clearPort (s.set id (setup priority)) id).threads =
        update s.threads id (some (setup priority)) := rfl
    refine h.touch hts ?_ (by simp [setup]) (by simp [hnone])
    exact fun g _ _ => h.clearPort (by simp [hnone]) g
  | suspend t th ht hr hne => exact h.same ht rfl (fun _ _ _ => rfl) rfl rfl
  | shelve t th st ht hb hb' => exact h.same ht rfl (fun _ _ _ => rfl) rfl rfl
  | resume t th ht hst hp => exact h.same ht rfl (fun _ _ _ => rfl) rfl rfl
  | openPort th attr maxCall maxReply ht hop =>
    have hclosed : ∀ th, s.threads s.running = some th → th.port.opened = false := by
      intro th0 ht0
      rw [ht] at ht0
      cases ht0
      exact hop
    exact h.touch rfl (fun g _ _ => h.clearPort hclosed g)
      (fun g p => h.linked s.running th g p ht) fun _ _ _ => .inl rfl
  | done th ht => exact h.same ht rfl (fun _ _ _ => rfl) rfl rfl
  | book replies q => exact { h with }
  | openReply key max q hnone =>
    have hq : ∀ g p, g.owner = some p → (openRendezvous s q key max).queues g = s.queues g := by
      intro g p hp
      apply update_of_ne
      rintro rfl
      cases hp
    constructor
    · intro t th g p ht hw hp
      rw [hq g p hp]
      exact h.linked t th g p ht hw hp
    · intro g p hp hne
      rw [hq g p hp] at hne
      exact h.opened g p hp hne
  | rotate p head rest hl => exact { h with }

theorem post_housed (hm : Post s s') (h : Housed none s) : Housed none s' := by
  cases hm with
  | wait g th f c ht hty hf hok hflag hopen htag =>
    refine h.waiting ht hf ?_
    intro p hp
    apply hopen p
    cases g <;> simp_all [Guard.owner]
  | hand p t size key th ht hm hp => exact h.roused ht (fun _ => rfl) rfl
  | accept p t th ht hm hty =>
    refine h.unlink ht rfl ?_ ?_ rfl
    · intro g p hp
      apply update_of_ne
      rintro rfl
      cases hp
    · intro g p hg
      simp only [handedOver, Thread.setWait_wait, Option.some.injEq] at hg
      subst hg
      simp [Guard.owner]
  | sent p t th ht hm hty hp => exact h.roused ht (fun _ => rfl) rfl

theorem shut_housed (hm : Shut s s') (h : Housed (some s.running) s) :
    Housed (some s.running) s' ∧ s'.running = s.running := by
  cases hm with
  | close th ht hop =>
    exact ⟨h.touch rfl (fun _ _ _ => rfl) (fun g p => h.linked s.running th g p ht) fun _ _ _ => .inr rfl, rfl⟩
  | expel g t th hg ht hm hp => exact ⟨h.roused ht (fun _ => rfl) rfl, roused_running ..⟩

theorem move_housed {e : Event} (hm : Move e s s') (hclose : e ≠ .op .ipcClose)
    (hdestroy : ∀ id, e ≠ .op (.threadDestroy id)) (h : Housed none s) : Housed none s' := by
  cases hm with
  | act hm => exact act_housed hm h
  | heed _ hm =>
    obtain ⟨th, ht⟩ := hm
    exact h.same ht rfl (fun _ _ _ => rfl) rfl rfl
  | kill t _ hm =>
    cases hm with
    | halt th ht hst => exact h.same ht rfl (fun _ _ _ => rfl) rfl rfl
    | abort th ht hb =>
      exact h.unlink ht rfl (fun _ _ _ => rfl) (by simp [aborted, stopped]) rfl
  | destroy id he _ => exact absurd he (hdestroy id)
  | stop _ hm =>
    obtain ⟨th, ht, hu⟩ := hm
    exact h.same ht rfl (fun _ _ _ => rfl) rfl rfl
  | park hm =>
    cases hm with
    | listen th ht hty hf => exact h.same ht rfl (fun _ _ _ => rfl) rfl rfl
    | suspend th ht hr => exact h.same ht rfl (fun _ _ _ => rfl) rfl rfl
  | post _ hm => exact post_housed hm h
  | shut he _ => exact absurd he hclose

theorem destroy_housed {id : ℕ} (hm : Destroy id s s') (h : Housed none s)
    (hv : ∀ th, s.threads id = some th → th.status = .dmt →
      s.queues (.caller id) = [] ∧ s.queues (.receiver id) = []) : Housed none s' := by
  obtain ⟨th, ht, hst, hq⟩ := hm
  obtain ⟨hc, hr⟩ := hv th ht hst
  constructor
  · intro u thu g p hu hg hp
    simp only [update_apply] at hu
    split_ifs at hu
    exact h.linked u thu g p hu hg hp
  · intro g p hp hne
    have hpid : p ≠ id := by
      rintro rfl
      cases g <;> simp_all [Guard.owner]
    obtain ⟨thp, htp, ho⟩ := h.opened g p hp hne
    exact ⟨thp, (update_of_ne hpid ..).trans htp, ho⟩

end

def Vacant (s : State) : Event → Prop
  | .op (.threadDestroy id) => ∀ th, s.threads id = some th → th.status = .dmt →
    s.queues (.caller id) = [] ∧ s.queues (.receiver id) = []
  | _ => True

section

variable {s : State} {e : Event} {o : Outcome}

theorem ipcClose_housed (h : Base s) (ho : ipcClose s = some o) (hh : Housed none s) : Housed none o.state := by
  obtain ⟨s1, hs1, hb1, hl, -, hrun, hend⟩ := ipcClose_ran h ho
  -- while the lists are emptied, the port is closed already
  have hshut : Housed (some s.running) s1 := by
    have hopen : Housed (some s.running) s := by
      refine ⟨hh.linked, ?_⟩
      intro g p hp hne
      obtain ⟨th, ht, ho⟩ := hh.opened g p hp hne
      exact ⟨th, ht, .inl (by simpa using ho)⟩
    have hkeep := keeps_run (P := fun x => Housed (some s.running) x ∧ x.running = s.running)
      (fun x y hm hx => by
        obtain ⟨h1, h2⟩ := shut_housed hm (hx.2.symm ▸ hx.1)
        rw [hx.2] at h1 h2
        exact ⟨h1, h2⟩) hs1 ⟨hopen, rfl⟩
    exact hkeep.1
  have hdone : Housed none s1 := by
    rcases hend with rfl | ⟨hc, hr⟩
    · exact hh
    refine ⟨hshut.linked, ?_⟩
    intro g p hp hne
    obtain ⟨th, ht, ho⟩ := hshut.opened g p hp hne
    refine ⟨th, ht, .inl (ho.resolve_right ?_)⟩
    intro he
    rw [Option.some.injEq] at he
    subst he
    cases g <;> simp_all [Guard.owner]
  exact keeps_run (fun _ _ => tail_housed) ((Leaves.dispatch hl).tails hb1) hdone

theorem threadDestroy_housed {id : ℕ} (h : Base s) (ho : threadDestroy s id = some o)
    (hv : Vacant s (.op (.threadDestroy id))) (hh : Housed none s) : Housed none o.state := by
  obtain ⟨s1, hs1, hb1, hl⟩ := (threadDestroy_quiet h ho).ran
  have hkeep := keeps_run (P := fun x => Housed none x ∧ Vacant x (.op (.threadDestroy id))) (fun x y hm hx => by
      refine ⟨destroy_housed hm hx.1 hx.2, ?_⟩
      cases hm
      simp [Vacant]) hs1 ⟨hh, hv⟩
  exact keeps_run (fun _ _ => tail_housed) (hl.tails hb1) hkeep.1

theorem step_housed (h : Base s) (ha : Active s) (hs : step s e = some o) (hv : Vacant s e)
    (hh : Housed none s) : Housed none o.state := by
  have hran := step_ran h ha hs
  by_cases hclose : e = .op .ipcClose
  · subst hclose
    obtain ⟨-, -, -, ho⟩ := step_op hs
    exact ipcClose_housed h ho hh
  by_cases hdestroy : ∃ id, e = .op (.threadDestroy id)
  · obtain ⟨id, rfl⟩ := hdestroy
    obtain ⟨-, -, -, ho⟩ := step_op hs
    exact threadDestroy_housed h ho hv hh
  · rw [not_exists] at hdestroy
    exact hran.keeps (fun _ _ hm => move_housed hm hclose hdestroy) (fun _ _ => tail_housed) hh

end

theorem boot_housed : Housed none boot := by
  constructor
  · intro t th g p ht hw
    simp only [boot, update_apply] at ht
    split_ifs at ht
    cases ht
    cases hw
  · intro g p _ hne
    exact absurd rfl hne

theorem Reachable.housed {s : State} (h : Reachable Vacant s) : Housed none s := by
  induction h with
  | boot => exact boot_housed
  | step hr hv hs ih => exact step_housed hr.base.1 hr.base.2 hs hv ih

def destroyRun : List Event :=
  queueRun ++ [.op (.threadTerminate 3), .op (.threadDestroy 3)]

end Eotan.Kernel
