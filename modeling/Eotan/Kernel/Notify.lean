import Eotan.Kernel.Rendezvous

namespace Eotan.Kernel

open Function
open List
open Option

def FlagClear : State → Prop :=
  Every fun _ th => th.wait.type = .flag ∨ th.wait.type = .receive → th.port.flag = 0

variable {e : Event} {f : Wait → Wait} {th th' : Thread} {s : State}

section

variable {s s' : State} {t : ℕ}

theorem blocked_type {g : Guard} {c : Cont}
    (hf : ∀ w, (f w).waiting = w.waiting) (hok : ThreadOk (blocked th g f c)) :
    (blocked th g f c).wait.type ≠ .flag ∧ ((blocked th g f c).wait.type = .receive → ∃ p, g = .receiver p) := by
  have hw : (blocked th g f c).wait.waiting = some g := hf _
  constructor
  · intro hty
    simp only [ThreadOk, hty] at hok
    rw [hok.2.1] at hw
    cases hw
  · intro hty
    simp only [ThreadOk, hty] at hok
    obtain ⟨-, p, hp, -⟩ := hok
    rw [hp] at hw
    cases hw
    exact ⟨p, rfl⟩

theorem flagClear_lasting : Lasting fun _ th =>
    th.wait.type = .flag ∨ th.wait.type = .receive → th.port.flag = 0 := by
  refine ⟨fun _ _ _ => rfl, ?_⟩
  intro t th th' hr h
  cases hr with
  | raise flag hf hr => exact fun hty => (hty.elim hf hr).elim
  | heed | fire => exact fun _ => rfl
  | listen hf => exact fun _ => hf
  | abort | wake | note | accept => rintro (hty | hty) <;> cases hty
  | block g f c hf hok hflag htag =>
    obtain ⟨hnf, hrec⟩ := blocked_type hf hok
    intro hty
    obtain ⟨p, hp⟩ := hrec (hty.resolve_left hnf)
    exact hflag p hp
  | _ => exact h

theorem move_running (hm : Move e s s') : s'.running = s.running := by
  cases hm with
  | act hm =>
    cases hm with
    | note hm =>
      cases hm with
      | rouse t th ht hp _ => exact roused_running ..
      | _ => rfl
    | answer key t size th ht hm hq hc hp => exact roused_running ..
    | _ => rfl
  | heed _ hm => cases hm; rfl
  | kill t _ hm => cases hm <;> rfl
  | destroy id _ hm => cases hm; rfl
  | stop _ hm => cases hm; rfl
  | park hm => cases hm <;> rfl
  | post _ hm =>
    cases hm with
    | wait g th f c ht hty hf hok hflag hopen htag => rfl
    | accept p t th ht hm hty => rfl
    | _ => exact roused_running ..
  | shut _ hm =>
    cases hm with
    | close th ht hop => rfl
    | expel g t th hg ht hm hp => exact roused_running ..

end

def Has (Q : Thread → Prop) (s : State) (p : ℕ) : Prop := ∃ th, s.threads p = some th ∧ Q th

section

variable {Q : Thread → Prop} {s s' : State} {t p : ℕ}

theorem Has.touch (h : Has Q s p) (ht : s.threads t = some th)
    (hts : s'.threads = update s.threads t (some th')) (hQ : Q th → t = p → Q th') : Has Q s' p := by
  obtain ⟨th0, ht0, hq⟩ := h
  by_cases he : t = p
  · subst he
    rw [ht] at ht0
    cases ht0
    exact ⟨th', by rw [hts, update_self], hQ hq rfl⟩
  · exact ⟨th0, by rw [hts, update_of_ne (Ne.symm he)]; exact ht0, hq⟩

theorem Has.other {th' : Option Thread} (h : Has Q s p) (hts : s'.threads = update s.threads t th')
    (hQ : ∀ th, s.threads t = some th → Q th → t ≠ p) : Has Q s' p := by
  obtain ⟨th0, ht0, hq⟩ := h
  have hne : p ≠ t := by
    rintro rfl
    exact hQ th0 ht0 hq rfl
  exact ⟨th0, by rw [hts, update_of_ne hne]; exact ht0, hq⟩

theorem Has.unlike {th' : Option Thread} (h : Has Q s p) (ht : s.threads t = some th)
    (hts : s'.threads = update s.threads t th') (hQ : ¬Q th) : Has Q s' p := by
  refine h.other hts ?_
  intro th1 ht1 hq
  rw [ht] at ht1
  cases ht1
  exact absurd hq hQ

theorem Has.switched {next : ℕ} {prev : Thread} (h : Has Q s p) (hprev : s.threads s.running = some prev)
    (ht : s.threads next = some th) (hne : next ≠ s.running)
    (hQ : ∀ th st, Q th → st = .run ∨ st = .rdy → Q (th.setStatus st)) : Has Q (switched s prev th next) p := by
  have h1 : Has Q (s.set s.running (yielded prev)) p := by
    refine h.touch hprev rfl ?_
    intro hp _
    unfold yielded
    split_ifs
    · exact hQ prev .rdy hp (.inr rfl)
    · exact hp
  exact h1.touch ((update_of_ne hne ..).trans ht) rfl fun hp _ => hQ th .run hp (.inl rfl)

end

def Pending (th : Thread) : Prop :=
  th.status ≠ .dmt ∧ th.port.flag ≠ 0 ∧ th.wait.type ≠ .flag ∧ th.wait.type ≠ .receive

def Released (th : Thread) : Prop :=
  ¬Blocked th ∧ th.status ≠ .dmt ∧ th.wait.type = .none ∧ th.wait.result = eRlwai ∧
    (th.cont = .listen ∨ th.cont = .receive)

section

variable {s s' : State} {p t : ℕ}

theorem Pending.same (h : Pending th) (hst : th'.status = th.status)
    (hp : th'.port.flag = th.port.flag) (hw : th'.wait.type = th.wait.type) : Pending th' := by
  unfold Pending at h ⊢
  rw [hst, hp, hw]
  exact h

theorem pending_roused (h : Has Pending s p)
    (ht : s.threads t = some th) (hb : Blocked th) : Has Pending (roused s t th f) p := by
  refine h.touch ht (roused_threads ..) ?_
  rintro ⟨-, hflag, -, -⟩ -
  refine ⟨?_, hflag, by simp [woken], by simp [woken]⟩
  rcases hb with hb | hb <;> simp [woken, hb]

theorem note_pending (hm : Note s s') (h : Has Pending s p) : Has Pending s' p := by
  cases hm with
  | mark noRequest delay bits hbits => exact h
  | raise t flag th ht hf hr =>
    refine h.touch ht rfl ?_
    rintro ⟨hst, hflag, -, -⟩ -
    refine ⟨hst, ?_, hf, hr⟩
    intro hz
    exact hflag (Nat.or_eq_zero_iff.mp hz).1
  | rouse t th ht hp hty =>
    refine h.touch ht (roused_threads ..) ?_
    rintro ⟨-, -, hf, hr⟩ -
    exact (hty.elim hf hr).elim

theorem tail_pending (hm : Tail s s') (h : Has Pending s p) : Has Pending s' p := by
  cases hm with
  | note hm => exact note_pending hm h
  | switch next prev th hprev ht hr hne =>
    refine h.switched hprev ht hne ?_
    rintro th st ⟨-, hrest⟩ hst
    exact ⟨by rcases hst with rfl | rfl <;> simp, hrest⟩

theorem tails_pending (hm : Tails s s') (h : Has Pending s p) : Has Pending s' p :=
  keeps_run (P := fun x => Has Pending x p) (fun _ _ => tail_pending) hm h

theorem act_pending (hm : Act s s') (h : Has Pending s p) : Has Pending s' p := by
  cases hm with
  | note hm => exact note_pending hm h
  | answer key t size th ht hm hq hc hp => exact pending_roused h ht hp.1
  | fire t th ht hst hp => exact h.unlike ht rfl fun hp => hp.1 hst
  | create id priority hnone hid => exact h.other rfl (by simp [hnone])
  | suspend t th ht hr hne => exact h.touch ht rfl fun hp _ => ⟨by simp, hp.2⟩
  | shelve t th st ht hb hb' =>
    refine h.touch ht rfl fun hp _ => ⟨?_, hp.2⟩
    rcases hb' with hb' | hb' <;> rw [hb'] <;> decide
  | resume t th ht hst hp => exact h.touch ht rfl fun hp _ => ⟨by simp, hp.2⟩
  | openPort th attr maxCall maxReply ht hop => exact h.touch ht rfl fun hp _ => hp.same rfl rfl rfl
  | done th ht => exact h.touch ht rfl fun hp _ => hp.same rfl rfl rfl
  | book replies q => exact h
  | openReply key max q hnone => exact h
  | rotate p head rest hl => exact h

def Ends (e : Event) (s : State) (p : ℕ) : Prop :=
  (s.running = p ∧ (e.Heeds ∨ e = .op .threadEnd)) ∨ e = .op (.threadTerminate p)

theorem move_pending (hm : Move e s s') (he : ¬Ends e s p) (h : Has Pending s p) : Has Pending s' p := by
  cases hm with
  | act hm => exact act_pending hm h
  | heed hh hm =>
    obtain ⟨th, ht⟩ := hm
    refine h.other rfl ?_
    rintro - - - rfl
    exact he (.inl ⟨rfl, .inl hh⟩)
  | kill t hk hm =>
    have hne : t ≠ p := by
      rintro rfl
      exact he (.inr hk)
    cases hm with
    | halt th ht hst => exact h.other rfl fun _ _ _ => hne
    | abort th ht hb => exact h.other rfl fun _ _ _ => hne
  | destroy id _ hm =>
    obtain ⟨th, ht, hst, hq⟩ := hm
    exact h.unlike ht rfl fun hp => hp.1 hst
  | stop hk hm =>
    obtain ⟨th, ht, hu⟩ := hm
    refine h.other rfl ?_
    rintro - - - rfl
    exact he (.inl ⟨rfl, .inr hk⟩)
  | park hm =>
    cases hm with
    | listen th ht hty hf => exact h.unlike ht rfl fun hp => hp.2.1 hf
    | suspend th ht hr => exact h.touch ht rfl fun hp _ => ⟨by simp, hp.2⟩
  | post _ hm =>
    cases hm with
    | wait g th f c ht hty hf hok hflag hopen htag =>
      obtain ⟨hnf, hrec⟩ := blocked_type hf hok
      refine h.touch ht rfl fun hp _ => ⟨by simp [blocked], hp.2.1, hnf, ?_⟩
      intro hr
      obtain ⟨q, hq⟩ := hrec hr
      exact hp.2.1 (hflag q hq)
    | hand q t size key th ht hm hp => exact pending_roused h ht hp.1
    | accept q t th ht hm hty =>
      exact h.touch ht rfl fun hp _ =>
        ⟨hp.1, hp.2.1, by simp [handedOver], by simp [handedOver]⟩
    | sent q t th ht hm hty hp => exact pending_roused h ht hp.1
  | shut _ hm =>
    cases hm with
    | close th ht hop => exact h.touch ht rfl fun hp _ => hp.same rfl rfl rfl
    | expel g t th hg ht hm hp => exact pending_roused h ht hp.1

theorem released_roused (h : Has Released s p)
    (ht : s.threads t = some th) (hb : Blocked th) : Has Released (roused s t th' f) p :=
  h.unlike ht (roused_threads ..) fun hr => hr.1 hb

theorem note_released (hm : Note s s') (h : Has Released s p) : Has Released s' p := by
  cases hm with
  | mark noRequest delay bits hbits => exact h
  | raise t flag th ht hf hr => exact h.touch ht rfl fun hp _ => hp
  | rouse t th ht hp hty => exact released_roused h ht hp.1

theorem Released.setStatus {st : Status} (h : Released th)
    (hst : st = .run ∨ st = .rdy ∨ st = .sus) : Released (th.setStatus st) := by
  refine ⟨?_, ?_, h.2.2⟩
  · rcases hst with rfl | rfl | rfl <;> simp [Blocked]
  · rcases hst with rfl | rfl | rfl <;> simp

theorem tail_released (hm : Tail s s') (h : Has Released s p) : Has Released s' p := by
  cases hm with
  | note hm => exact note_released hm h
  | switch next prev th hprev ht hr hne =>
    refine h.switched hprev ht hne ?_
    intro th st hp hst
    exact hp.setStatus (hst.imp_right .inl)

theorem tails_released (hm : Tails s s') (h : Has Released s p) : Has Released s' p :=
  keeps_run (P := fun x => Has Released x p) (fun _ _ => tail_released) hm h

theorem act_released (hm : Act s s') (hne : s.running ≠ p) (h : Has Released s p) : Has Released s' p := by
  cases hm with
  | note hm => exact note_released hm h
  | answer key t size th ht hm hq hc hp => exact released_roused h ht hp.1
  | fire t th ht hst hp => exact h.unlike ht rfl fun hr => hr.2.1 hst
  | create id priority hnone hid => exact h.other rfl (by simp [hnone])
  | suspend t th ht hr hne => exact h.touch ht rfl fun hp _ => hp.setStatus (by simp)
  | shelve t th st ht hb hb' => exact h.unlike ht rfl fun hr => hr.1 hb
  | resume t th ht hst hp => exact h.touch ht rfl fun hp _ => hp.setStatus (by simp)
  | openPort th attr maxCall maxReply ht hop => exact h.other rfl fun _ _ _ => hne
  | done th ht => exact h.other rfl fun _ _ _ => hne
  | book replies q => exact h
  | openReply key max q hnone => exact h
  | rotate p head rest hl => exact h

theorem move_released (hm : Move e s s') (hne : s.running ≠ p)
    (hk : e ≠ .op (.threadTerminate p)) (h : Has Released s p) : Has Released s' p := by
  cases hm with
  | act hm => exact act_released hm hne h
  | heed _ hm =>
    obtain ⟨th, ht⟩ := hm
    exact h.other rfl fun _ _ _ => hne
  | kill t he hm =>
    have htp : t ≠ p := by
      rintro rfl
      exact hk he
    cases hm with
    | halt th ht hst => exact h.other rfl fun _ _ _ => htp
    | abort th ht hb => exact h.other rfl fun _ _ _ => htp
  | destroy id _ hm =>
    obtain ⟨th, ht, hst, hq⟩ := hm
    exact h.unlike ht rfl fun hr => hr.2.1 hst
  | stop _ hm =>
    obtain ⟨th, ht, hu⟩ := hm
    exact h.other rfl fun _ _ _ => hne
  | park hm =>
    cases hm with
    | listen th ht hty hf => exact h.other rfl fun _ _ _ => hne
    | suspend th ht hr => exact h.other rfl fun _ _ _ => hne
  | post _ hm =>
    cases hm with
    | wait g th f c ht hty hf hok hflag hopen htag => exact h.other rfl fun _ _ _ => hne
    | hand q t size key th ht hm hp => exact released_roused h ht hp.1
    | accept q t th ht hm hty =>
      refine h.unlike ht rfl fun hr => ?_
      rw [hr.2.2.1] at hty
      cases hty
    | sent q t th ht hm hty hp => exact released_roused h ht hp.1
  | shut _ hm =>
    cases hm with
    | close th ht hop => exact h.other rfl fun _ _ _ => hne
    | expel g t th hg ht hm hp => exact released_roused h ht hp.1

end

section

variable {s : State} {e : Event} {o : Outcome} {p : ℕ}

theorem step_pending (h : Base s) (ha : Active s) (hs : step s e = some o) (he : ¬Ends e s p)
    (hp : Has Pending s p) : Has Pending o.state p := by
  obtain ⟨s1, hs1, hb, hl⟩ := step_ran h ha hs
  have h1 := keeps_run (P := fun x => ¬Ends e x p ∧ Has Pending x p) ?_ hs1 ⟨he, hp⟩
  · exact tails_pending (hl.tails hb) h1.2
  · rintro x y hm ⟨hx, hpx⟩
    refine ⟨?_, move_pending hm hx hpx⟩
    simpa only [Ends, move_running hm] using hx

theorem step_released (h : Base s) (ha : Active s) (hs : step s e = some o) (hne : s.running ≠ p)
    (hk : e ≠ .op (.threadTerminate p)) (hp : Has Released s p) : Has Released o.state p := by
  obtain ⟨s1, hs1, hb, hl⟩ := step_ran h ha hs
  have h1 := keeps_run (P := fun x => x.running ≠ p ∧ Has Released x p) ?_ hs1 ⟨hne, hp⟩
  · exact tails_released (hl.tails hb) h1.2
  · rintro x y hm ⟨hx, hpx⟩
    refine ⟨?_, move_released hm hx hk hpx⟩
    rw [move_running hm]
    exact hx

theorem step_tail (hs : step s e = some o) (ho : ∀ op, e ≠ .op op) (hf : e ≠ .finish) : Tail s o.state := by
  cases e with
  | op op => exact absurd rfl (ho op)
  | finish => exact absurd rfl hf
  | switch next =>
    obtain ⟨prev, th, hprev, ht, hr, hne, rfl⟩ := step_switch hs
    exact .switch next prev th hprev ht hr hne
  | request =>
    cases hs
    exact .note (.mark false s.delayThreadStart s.readyBits fun _ _ hb => hb)
  | timer =>
    cases hs
    exact .note (.mark s.noRequest true s.readyBits fun _ _ hb => hb)

theorem step_released_until (h : Base s) (ha : Active s) (hs : step s e = some o)
    (hf : s.running = p → e ≠ .finish) (hk : e ≠ .op (.threadTerminate p))
    (hp : Has Released s p) : Has Released o.state p := by
  by_cases hne : s.running = p
  · refine tail_released (step_tail hs ?_ (hf hne)) hp
    rintro op rfl
    obtain ⟨th, ht, hr⟩ := hp
    obtain ⟨th', ht', hu, -⟩ := step_op hs
    rw [hne, ht] at ht'
    cases ht'
    rcases hr.2.2.2.2 with hc | hc <;> simp [hc] at hu
  · exact step_released h ha hs hne hk hp

variable {flag : ℕ}

theorem Notified.queues {x : State × ℤ} (hn : Notified s p flag x) :
    ∃ l : List ℕ, l.Sublist [p] ∧ ∀ g, x.1.queues g = (s.queues g).diff l := by
  cases hn with
  | rouse th ht hp hty =>
    refine ⟨[p], .refl _, fun g => ?_⟩
    rw [roused_queues, diff_cons, diff_nil]
  | _ => exact ⟨[], nil_sublist _, fun _ => rfl⟩

theorem leaveSerialize_queues {s' : State} (h : Base s) (hl : leaveSerialize s = some s') :
    ∃ l : List ℕ, l.Sublist [portDelay] ∧ ∀ g, s'.queues g = (s.queues g).diff l := by
  unfold leaveSerialize at hl
  split_ifs at hl
  · cases hl
    exact ⟨[], nil_sublist _, fun _ => rfl⟩
  obtain ⟨s1, bits, next, th, hs1, -, -, -, hp⟩ := dispatch_eq h hl
  have hq : s'.queues = s1.queues := by cases hp <;> rfl
  rw [hq]
  cases hs1 with
  | none => exact ⟨[], nil_sublist _, fun _ => rfl⟩
  | notified x _ hn => exact hn.queues

theorem notify_reaches {x : State × ℤ} (h : Base s)
    (ht : s.threads p = some th) (hst : th.status ≠ .dmt) (hflag : flag ≠ 0)
    (hn : Notified s p flag x) : x.2 = eOk ∧
      if th.wait.type = .flag ∨ th.wait.type = .receive then Has Released x.1 p else Has Pending x.1 p := by
  have hok := h.thread p th ht
  cases hn with
  | absent hnone =>
    rw [ht] at hnone
    cases hnone
  | dormant th' ht' hd =>
    rw [ht] at ht'
    cases ht'
    exact absurd hd hst
  | raise th' ht' hf hr =>
    rw [ht] at ht'
    cases ht'
    rw [if_neg (not_or.mpr ⟨hf, hr⟩)]
    refine ⟨rfl, _, update_self .., hst, ?_, hf, hr⟩
    intro hz
    exact hflag (Nat.or_eq_zero_iff.mp hz).2
  | rouse th' ht' hp hty =>
    rw [ht] at ht'
    cases ht'
    rw [if_pos hty]
    refine ⟨rfl, woken (th.setFlag 0) _, by rw [roused_threads, update_self], ?_, ?_, rfl, rfl, ?_⟩
    · cases hs : th.status <;> simp [Blocked, woken, hs]
    · cases hs : th.status <;> simp_all [woken]
    · rcases hty with hty | hty
      · simp only [ThreadOk, hty] at hok
        exact .inl hok.2.2
      · simp only [ThreadOk, hty] at hok
        obtain ⟨-, q, -, hc⟩ := hok
        exact .inr hc

theorem ipcNotify_reaches (h : Base s) (ht : s.threads p = some th)
    (hst : th.status ≠ .dmt) (hflag : flag ≠ 0) (ho : ipcNotify s p flag = some o) :
    o.ret = some eOk ∧ (∃ l : List ℕ, l.Sublist [p, portDelay] ∧ ∀ g, o.state.queues g = (s.queues g).diff l) ∧
      if th.wait.type = .flag ∨ th.wait.type = .receive then Has Released o.state p
      else Has Pending o.state p := by
  simp only [ipcNotify, bind_eq_bind, bind_eq_some_iff] at ho
  obtain ⟨x, hx, ho⟩ := ho
  have hn := notify_notified h hx
  obtain ⟨hcode, hreach⟩ := notify_reaches h ht hst hflag hn
  have hb := (Still.of_run h (fun _ _ => Note.still) hn.notes).keeps.base
  have htails := (leave_leaves ho).tails hb
  obtain ⟨s', hs', rfl⟩ := leave_eq ho
  obtain ⟨l1, hl1, hq1⟩ := hn.queues
  obtain ⟨l2, hl2, hq2⟩ := leaveSerialize_queues hb hs'
  refine ⟨congrArg some hcode, ⟨l1 ++ l2, hl1.append hl2, ?_⟩, ?_⟩
  · intro g
    rw [diff_append, ← hq1]
    exact hq2 g
  · split_ifs at hreach ⊢
    · exact tails_released htails hreach
    · exact tails_pending htails hreach

theorem pending_returns (ht : s.threads s.running = some th) (hflag : th.port.flag ≠ 0) :
    (step s (.op .ipcListen) = some o → o.ret = some eOk) ∧
      ∀ q m c, step s (.op (.ipcReceive q m c)) = some o → o.ret = some eRlwai := by
  constructor
  · intro hs
    simp only [step, apply, ht, ipcListen, bind_eq_bind, bind_some, if_pos hflag, leave] at hs
    split_ifs at hs
    simp only [map_eq_some_iff] at hs
    obtain ⟨s', -, rfl⟩ := hs
    rfl
  · intro q m c hs
    simp only [step, apply, ht, ipcReceive, bind_eq_bind, bind_some, if_pos hflag, leave] at hs
    split_ifs at hs
    simp only [map_eq_some_iff] at hs
    obtain ⟨s', -, rfl⟩ := hs
    rfl

theorem released_returns (ht : s.threads s.running = some th) (hr : Released th)
    (hs : step s .finish = some o) : o.ret = some eRlwai := by
  obtain ⟨-, -, -, hres, hc⟩ := hr
  simp only [step, finish, ht, bind_eq_bind, bind_some] at hs
  rcases hc with hc | hc
  · simp only [hc, some.injEq] at hs
    subst hs
    exact congrArg some hres
  have hne : th.wait.result ≠ 0 := by
    rw [hres]
    decide
  simp only [hc, if_pos hne, leave, map_eq_some_iff] at hs
  obtain ⟨s', -, rfl⟩ := hs
  exact congrArg some hres

end

/-- The threads that a notification has released and that have not run on since, and those that
have a notification to come. -/
structure Notices where
  released : List ℕ
  pending : List ℕ

def Notices.without (n : Notices) (p : ℕ) : Notices :=
  ⟨n.released.filter (· ≠ p), n.pending.filter (· ≠ p)⟩

def notice (n : Notices) (s : State) (o : Outcome) : Event → Notices
  | .op (.ipcNotify p flag) =>
    match s.threads p with
    | none => n
    | some th =>
      if th.status = .dmt ∨ flag = 0 then n
      else if th.wait.type = .flag ∨ th.wait.type = .receive then
        { n with released := p :: n.released }
      else { n with pending := p :: n.pending }
  | .op .ipcListen | .op (.ipcReceive ..) =>
    { n with pending := n.pending.filter (· ≠ s.running) }
  | .finish => { n with released := n.released.filter (· ≠ s.running) }
  | .op (.threadTerminate id) => if o.ret = some eOk then n.without id else n
  | .op .threadEnd => n.without s.running
  | _ => n

def Noted : State → Notices → Prop := Followed notice (fun _ _ _ => True) ⟨[], []⟩

structure Owed (s : State) (n : Notices) : Prop where
  released : ∀ p ∈ n.released, Has Released s p
  pending : ∀ p ∈ n.pending, Has Pending s p

variable {n : Notices}

theorem mem_without {p q : ℕ} {l : List ℕ} (h : p ∈ l.filter (· ≠ q)) : p ∈ l ∧ q ≠ p := by
  obtain ⟨hp, hne⟩ := mem_filter.mp h
  exact ⟨hp, Ne.symm (by simpa using hne)⟩

theorem step_owed {o : Outcome} (h : Base s) (ha : Active s)
    (hn : Owed s n) (hs : step s e = some o) : Owed o.state (notice n s o e) := by
  -- what is noted already, up to the thread's own next step
  have hrel : ∀ p ∈ n.released, (s.running = p → e ≠ .finish) →
      e ≠ .op (.threadTerminate p) → Has Released o.state p := by
    intro p hp hf hk
    exact step_released_until h ha hs hf hk (hn.released p hp)
  have hpend : ∀ p ∈ n.pending, ¬Ends e s p → Has Pending o.state p := by
    intro p hp he
    exact step_pending h ha hs he (hn.pending p hp)
  have hplain : notice n s o e = n → e ≠ .finish → (∀ p, e ≠ .op (.threadTerminate p)) →
      (∀ p, ¬Ends e s p) → Owed o.state (notice n s o e) := by
    intro hno hf hk he
    rw [hno]
    exact ⟨fun p hp => hrel p hp (fun _ => hf) (hk p), fun p hp => hpend p hp (he p)⟩
  cases e with
  | op op =>
    cases op with
    | ipcNotify p flag =>
      have hnotends : ∀ q, ¬Ends (.op (.ipcNotify p flag)) s q := by
        simp [Ends, Event.Heeds]
      cases ht : s.threads p with
      | none => exact hplain (by simp [notice, ht]) (by simp) (by simp) hnotends
      | some th =>
        by_cases hskip : th.status = .dmt ∨ flag = 0
        · exact hplain (by simp [notice, ht, hskip]) (by simp) (by simp) hnotends
        simp only [notice, ht, if_neg hskip]
        rw [not_or] at hskip
        obtain ⟨-, -, -, ho⟩ := step_op hs
        obtain ⟨-, -, hreach⟩ := ipcNotify_reaches h ht hskip.1 hskip.2 ho
        split_ifs at hreach ⊢
        · exact ⟨forall_mem_cons.mpr ⟨hreach, fun q hq => hrel q hq (by simp) (by simp)⟩,
            fun q hq => hpend q hq (hnotends q)⟩
        · exact ⟨fun q hq => hrel q hq (by simp) (by simp),
            forall_mem_cons.mpr ⟨hreach, fun q hq => hpend q hq (hnotends q)⟩⟩
    | ipcListen | ipcReceive =>
      refine ⟨fun p hp => hrel p hp (by simp) (by simp), ?_⟩
      intro p hp
      obtain ⟨hp, hne⟩ := mem_without hp
      exact hpend p hp (by simp [Ends, hne])
    | threadEnd =>
      refine ⟨?_, ?_⟩
      · intro p hp
        exact hrel p (mem_filter.mp hp).1 (by simp) (by simp)
      · intro p hp
        obtain ⟨hp, hne⟩ := mem_without hp
        exact hpend p hp (by simp [Ends, hne])
    | threadTerminate id =>
      simp only [notice]
      split_ifs with hret
      · refine ⟨?_, ?_⟩
        · intro p hp
          obtain ⟨hp, hne⟩ := mem_without hp
          exact hrel p hp (by simp) (by simp [hne])
        · intro p hp
          obtain ⟨hp, hne⟩ := mem_without hp
          exact hpend p hp (by simp [Ends, Event.Heeds, hne])
      · obtain ⟨-, -, -, ho⟩ := step_op hs
        obtain ⟨-, hl | hk⟩ := threadTerminate_cases h ho
        · have htails := hl.tails h
          exact ⟨fun p hp => tails_released htails (hn.released p hp),
            fun p hp => tails_pending htails (hn.pending p hp)⟩
        · exact absurd hk.1 hret
    | _ => exact hplain rfl (by simp) (by simp) (by simp [Ends, Event.Heeds])
  | finish =>
    refine ⟨?_, fun p hp => hpend p hp (by simp [Ends, Event.Heeds])⟩
    intro p hp
    obtain ⟨hp, hne⟩ := mem_without hp
    exact hrel p hp (fun he => absurd he hne) (by simp)
  | _ => exact hplain rfl (by simp) (by simp) (by simp [Ends, Event.Heeds])

theorem Noted.owed (h : Noted s n) : Owed s n := by
  induction h with
  | boot => exact ⟨by simp, by simp⟩
  | step hr _ hs ih => exact step_owed hr.base.1 hr.base.2 ih hs

theorem Noted.flagClear (h : Noted s n) : FlagClear s := by
  induction h with
  | boot =>
    intro t th ht hty
    simp only [Kernel.boot, update_apply] at ht
    split_ifs at ht
    cases ht
    rfl
  | step hr _ hs ih =>
    exact (step_ran hr.base.1 hr.base.2 hs).every flagClear_lasting ih

theorem notification_not_lost {s : State} {n : Notices} (h : Noted s n) :
    (∀ t th, s.threads t = some th → th.wait.type = .flag ∨ th.wait.type = .receive →
      Blocked th ∧ th.port.flag = 0) ∧
    (∀ p ∈ n.released, Has Released s p ∧
      ∀ o, s.running = p → step s .finish = some o → o.ret = some eRlwai) ∧
    (∀ p ∈ n.pending, Has Pending s p ∧ ∀ o, s.running = p →
      (step s (.op .ipcListen) = some o → o.ret = some eOk) ∧
      ∀ q m c, step s (.op (.ipcReceive q m c)) = some o → o.ret = some eRlwai) ∧
    ∀ p flag th o, s.threads p = some th → th.status ≠ .dmt → flag ≠ 0 →
      step s (.op (.ipcNotify p flag)) = some o → o.ret = some eOk ∧
      (if th.wait.type = .flag ∨ th.wait.type = .receive then Has Released o.state p
        else Has Pending o.state p) ∧
      (∃ l : List ℕ, l.Sublist [p, portDelay] ∧ ∀ g, o.state.queues g = (s.queues g).diff l) ∧
      ∀ g, (o.state.queues g).Nodup ∧ ∀ t ∈ o.state.queues g,
        ∃ th', o.state.threads t = some th' ∧ Blocked th' ∧ th'.wait.waiting = some g := by
  obtain ⟨hb, ha⟩ := Followed.base h
  refine ⟨?_, ?_, ?_, ?_⟩
  · intro t th ht hty
    refine ⟨(hb.thread t th ht).blocked ?_, h.flagClear t th ht hty⟩
    rcases hty with hty | hty <;> simp [hty]
  · intro p hp
    have hr := h.owed.released p hp
    refine ⟨hr, ?_⟩
    rintro o rfl hs
    obtain ⟨th, ht, hr⟩ := hr
    exact released_returns ht hr hs
  · intro p hp
    have hr := h.owed.pending p hp
    refine ⟨hr, ?_⟩
    rintro o rfl
    obtain ⟨th, ht, hr⟩ := hr
    exact pending_returns ht hr.2.1
  · intro p flag th o ht hst hflag hs
    have hb' := (step_stepped hb ha hs).base
    simp only [step, apply, bind_eq_bind, bind_eq_some_iff] at hs
    obtain ⟨self, -, ho⟩ := hs
    split_ifs at ho
    obtain ⟨hret, hq, hreach⟩ := ipcNotify_reaches hb ht hst hflag ho
    refine ⟨hret, hreach, hq, fun g => ⟨hb'.nodup g, ?_⟩⟩
    intro t ht
    obtain ⟨th', ht', hw, hblk⟩ := hb'.queued_blocked ht
    exact ⟨th', ht', hblk, hw⟩

def noticeRun : List Event :=
  queueRun ++ [.op (.ipcNotify 3 1), .op (.ipcNotify 3 2), .switch 3, .finish]

theorem notification_not_lost_sample : ∃ s n, follow notice boot ⟨[], []⟩ noticeRun = some (s, n) ∧
    n.pending = [3] ∧ s.running = 3 ∧
    ∃ o, step s (.op .ipcListen) = some o ∧ o.ret = some eOk := by
  have hrun : (follow notice boot ⟨[], []⟩ noticeRun).map (fun x => (x.2.pending, x.1.running,
      (step x.1 (.op .ipcListen)).isSome)) = some ([3], 3, true) := by
    decide +kernel
  obtain ⟨⟨s, n⟩, hf, hx⟩ := map_eq_some_iff.mp hrun
  simp only [Prod.mk.injEq] at hx
  obtain ⟨hp, hr, hsome⟩ := hx
  obtain ⟨o, ho⟩ := isSome_iff_exists.mp hsome
  have hn : Noted s n := Followed.boot.follow hf fun _ _ _ _ => trivial
  obtain ⟨-, -, hpend, -⟩ := notification_not_lost hn
  have h3 := (hpend 3 (by simp [hp])).2 o hr
  exact ⟨s, n, hf, hp, hr, o, ho, h3.1 ho⟩

end Eotan.Kernel
