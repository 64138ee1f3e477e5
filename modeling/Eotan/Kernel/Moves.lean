import Eotan.Kernel.Invariant
import Mathlib.Logic.Relation

/-!
Every step of the kernel as a sequence of moves, each of which changes one thread together with the
lists it is on. An invariant that the moves keep holds in every state the kernel reaches.
-/

namespace Eotan.Kernel

open Eotan.Sequence
open Function
open Option

def fired (th : Thread) : Thread :=
  { (th.setFlag 0).setStatus .rdy with priority := th.attrPriority, cont := .user }

def listening (th : Thread) : Thread :=
  ((th.setWait { th.wait with type := .flag, result := eOk }).setStatus .wai).setCont .listen

def stopped (th : Thread) : Thread := (th.setStatus .dmt).setCont .user

def aborted (th : Thread) : Thread :=
  stopped (th.setWait { th.wait with waiting := none, type := .none })

def Placed (th : Thread) : Prop := Blocked th ∧ (th.status = .wai → th.priority ≤ maxPriority)

def yielded (th : Thread) : Thread := if th.status = .run then th.setStatus .rdy else th

def switched (s : State) (prev th : Thread) (next : ℕ) : State :=
  { s with
    threads := Function.update (Function.update s.threads s.running (some (yielded prev))) next
      (some (th.setStatus .run))
    running := next }

variable {next t p : ℕ} {s s' : State} {th : Thread}

theorem switchTo_switched (h : switchTo s next = some s')
    (ht : s.threads next = some th) (hne : next ≠ s.running) :
    ∃ prev, s.threads s.running = some prev ∧ s' = switched s prev th next := by
  unfold switchTo at h
  simp only [bind_eq_bind, bind_eq_some_iff, some.injEq] at h
  obtain ⟨prev, hp, th', ht', rfl⟩ := h
  refine ⟨prev, hp, ?_⟩
  unfold switched yielded
  split_ifs at ht' ⊢ with hrun
  · simp only [State.set_threads, update_of_ne hne, ht, some.injEq] at ht'
    subst ht'
    rfl
  · rw [ht] at ht'
    cases ht'
    rw [← hp, update_eq_self]
    rfl

def Every (Q : ℕ → Thread → Prop) (s : State) : Prop := ∀ t th, s.threads t = some th → Q t th

section

variable {Q : ℕ → Thread → Prop} {s s' : State} {t : ℕ}

theorem Every.touch {th' : Option Thread} (h : Every Q s)
    (hts : s'.threads = update s.threads t th') (hk : ∀ th ∈ th', Q t th) : Every Q s' := by
  intro u thu hu
  rw [hts, update_apply] at hu
  split_ifs at hu with he
  · rw [he]
    exact hk thu hu
  · exact h u thu hu

theorem Every.set {th' : Thread} (h : Every Q s)
    (hts : s'.threads = update s.threads t (some th')) (hQ : Q t th') : Every Q s' := by
  apply h.touch hts
  rintro th (rfl | _)
  exact hQ

theorem Every.switched {prev : Thread} (h : Every Q s)
    (hQ : ∀ t th st, Q t th → Q t (th.setStatus st)) (hprev : s.threads s.running = some prev)
    (ht : s.threads next = some th) : Every Q (switched s prev th next) := by
  have hy : Q s.running (yielded prev) := by
    unfold yielded
    split_ifs
    · exact hQ _ _ _ (h _ _ hprev)
    · exact h _ _ hprev
  have h1 : Every Q (s.set s.running (yielded prev)) := h.set rfl hy
  exact h1.set rfl (hQ _ _ _ (h _ _ ht))

end

inductive Note (s : State) : State → Prop
  | mark (noRequest delay : Bool) (bits : BitVec 32) :
    (∀ p, s.readyTask p ≠ [] → s.readyBits.getLsbD p = true → bits.getLsbD p = true) →
    Note s { s with noRequest := noRequest, delayThreadStart := delay, readyBits := bits }
  | raise (t flag : ℕ) (th : Thread) : s.threads t = some th → th.wait.type ≠ .flag →
    th.wait.type ≠ .receive → Note s (s.set t (th.setFlag (th.port.flag ||| flag)))
  | rouse (t : ℕ) (th : Thread) : s.threads t = some th → Placed th →
    th.wait.type = .flag ∨ th.wait.type = .receive →
    Note s (roused s t (th.setFlag 0) fun w => { w with result := eRlwai })

inductive Tail (s : State) : State → Prop
  | note {s' : State} : Note s s' → Tail s s'
  | switch (next : ℕ) (prev th : Thread) : s.threads s.running = some prev →
    s.threads next = some th → Runnable th → next ≠ s.running → Tail s (switched s prev th next)

/-- What a section does that leaves the lists of the ports as they are, but for threads that go. -/
inductive Act (s : State) : State → Prop
  | note {s' : State} : Note s s' → Act s s'
  | answer (key t size : ℕ) (th : Thread) : s.threads t = some th → t ∈ s.queues (.reply key) →
    (∀ p, t ∉ s.queues (.caller p)) → th.cont = .call key → Placed th →
    Act s (roused s t th fun w => { w with size := size })
  | fire (t : ℕ) (th : Thread) : s.threads t = some th → th.status = .dmt →
    th.attrPriority ≤ maxPriority → Act s (enqueue (s.set t (fired th)) th.attrPriority t)
  | create (id priority : ℕ) : s.threads id = none → id < 2 ^ 16 →
    Act s (clearPort (s.set id (setup priority)) id)
  | suspend (t : ℕ) (th : Thread) : s.threads t = some th → Runnable th → t ≠ s.running →
    Act s (readyRemove (s.set t (th.setStatus .sus)) t)
  | shelve (t : ℕ) (th : Thread) (st : Status) : s.threads t = some th → Blocked th →
    Blocked (th.setStatus st) → Act s (s.set t (th.setStatus st))
  | resume (t : ℕ) (th : Thread) : s.threads t = some th → th.status = .sus →
    th.priority ≤ maxPriority → Act s (enqueue (s.set t (th.setStatus .rdy)) th.priority t)
  | openPort (th : Thread) (attr maxCall maxReply : ℕ) : s.threads s.running = some th →
    th.port.opened = false →
    Act s (clearPort (s.set s.running
      (th.setPort ⟨true, th.port.flag, attr, maxCall, maxReply⟩)) s.running)
  | done (th : Thread) : s.threads s.running = some th →
    Act s (s.set s.running (th.setCont .user))
  | book (replies : ℕ → Option ℕ) (q : Seq) : Act s { s with replies := replies, replySequence := q }
  | openReply (key max : ℕ) (q : Seq) : s.replies key = none → Act s (openRendezvous s q key max)
  | rotate (p head : ℕ) (rest : List ℕ) : s.readyTask p = head :: rest →
    Act s { s with readyTask := Function.update s.readyTask p (rest ++ [head]) }

inductive Heed (s : State) : State → Prop
  | consume (th : Thread) : s.threads s.running = some th → Heed s (s.set s.running (th.setFlag 0))

inductive Kill (t : ℕ) (s : State) : State → Prop
  | halt (th : Thread) : s.threads t = some th → th.status = .rdy ∨ th.status = .sus →
    Kill t s (readyRemove (s.set t (stopped th)) t)
  | abort (th : Thread) : s.threads t = some th → Blocked th → Kill t s (unlink s t (aborted th))

inductive Destroy (id : ℕ) (s : State) : State → Prop
  | destroy (th : Thread) : s.threads id = some th → th.status = .dmt →
    (∀ g, id ∉ s.queues g) → Destroy id s { s with threads := Function.update s.threads id none }

inductive Stop (s : State) : State → Prop
  | stop (th : Thread) : s.threads s.running = some th → th.cont = .user →
    Stop s (parked s (th.setStatus .dmt))

inductive Park (s : State) : State → Prop
  | listen (th : Thread) : s.threads s.running = some th → th.wait.type = .none →
    th.port.flag = 0 → Park s (parked s (listening th))
  | suspend (th : Thread) : s.threads s.running = some th → Runnable th →
    Park s (parked s (th.setStatus .sus))

def Opened (s : State) (p : ℕ) : Prop := ∃ th, s.threads p = some th ∧ th.port.opened = true

inductive Post (s : State) : State → Prop
  | wait (g : Guard) (th : Thread) (f : Wait → Wait) (c : Cont) :
    s.threads s.running = some th → th.wait.type = .none → (∀ w, (f w).waiting = w.waiting) →
    ThreadOk (blocked th g f c) → (∀ p, g = .receiver p → th.port.flag = 0) →
    (∀ p, g = .caller p ∨ g = .receiver p → Opened s p) →
    ((blocked th g f c).wait.type = .call →
      ∃ k < 2 ^ 16, (blocked th g f c).wait.key = createIpcTag s.running k) →
    Post s (waiting s th g f c)
  | hand (p t size key : ℕ) (th : Thread) : s.threads t = some th → t ∈ s.queues (.receiver p) →
    Placed th → Post s (roused s t th fun w => { w with size := size, key := key })
  | accept (p t : ℕ) (th : Thread) : s.threads t = some th → t ∈ s.queues (.caller p) →
    th.wait.type = .call →
    Post s (handOver s t th)
  | sent (p t : ℕ) (th : Thread) : s.threads t = some th → t ∈ s.queues (.caller p) →
    th.wait.type = .send → Placed th → Post s (roused s t th id)

inductive Shut (s : State) : State → Prop
  | close (th : Thread) : s.threads s.running = some th → th.port.opened = true →
    Shut s (s.set s.running (th.setPort { th.port with opened := false }))
  | expel (g : Guard) (t : ℕ) (th : Thread) : g = .caller s.running ∨ g = .receiver s.running →
    s.threads t = some th → t ∈ s.queues g → Placed th →
    Shut s (roused s t th fun w => { w with result := eDlt })

def Event.Plain : Event → Prop
  | .op (.ipcCall ..) | .op (.ipcReceive ..) => False
  | .op (.ipcSend tag ..) => keyOfIpc tag ≠ 0
  | _ => True

def Event.Heeds : Event → Prop
  | .op .ipcListen | .op (.ipcReceive ..) => True
  | _ => False

inductive Move (e : Event) (s s' : State) : Prop
  | act : Act s s' → Move e s s'
  | heed : e.Heeds → Heed s s' → Move e s s'
  | kill (t : ℕ) : e = .op (.threadTerminate t) → Kill t s s' → Move e s s'
  | destroy (id : ℕ) : e = .op (.threadDestroy id) → Destroy id s s' → Move e s s'
  | stop : e = .op .threadEnd → Stop s s' → Move e s s'
  | park : Park s s' → Move e s s'
  | post : ¬e.Plain → Post s s' → Move e s s'
  | shut : e = .op .ipcClose → Shut s s' → Move e s s'

abbrev Notes : State → State → Prop := Relation.ReflTransGen Note
abbrev Tails : State → State → Prop := Relation.ReflTransGen Tail
abbrev Acts : State → State → Prop := Relation.ReflTransGen Act

/-- What a move does to the thread that it changes. -/
inductive Recast (t : ℕ) (th : Thread) : Thread → Prop
  | status (st : Status) : Recast t th (th.setStatus st)
  | stop : Recast t th (stopped th)
  | abort : Recast t th (aborted th)
  | done : Recast t th (th.setCont .user)
  | port (opened : Bool) (attr maxCall maxReply : ℕ) :
    Recast t th (th.setPort ⟨opened, th.port.flag, attr, maxCall, maxReply⟩)
  | raise (flag : ℕ) : th.wait.type ≠ .flag → th.wait.type ≠ .receive →
    Recast t th (th.setFlag (th.port.flag ||| flag))
  | heed : Recast t th (th.setFlag 0)
  | wake (f : Wait → Wait) : Recast t th (woken th f)
  | note (f : Wait → Wait) : Recast t th (woken (th.setFlag 0) f)
  | fire : th.attrPriority ≤ maxPriority → Recast t th (fired th)
  | listen : th.port.flag = 0 → Recast t th (listening th)
  | block (g : Guard) (f : Wait → Wait) (c : Cont) : (∀ w, (f w).waiting = w.waiting) →
    ThreadOk (blocked th g f c) → (∀ p, g = .receiver p → th.port.flag = 0) →
    ((blocked th g f c).wait.type = .call →
      ∃ k < 2 ^ 16, (blocked th g f c).wait.key = createIpcTag t k) →
    Recast t th (blocked th g f c)
  | accept : Recast t th (handedOver th)

structure Lasting (Q : ℕ → Thread → Prop) : Prop where
  setup : ∀ t priority, Q t (setup priority)
  recast : ∀ t th th', Recast t th th' → Q t th → Q t th'

section

variable {Q : ℕ → Thread → Prop} {th' : Thread}

theorem Lasting.set (hQ : Lasting Q) (h : Every Q s) (ht : s.threads t = some th)
    (hts : s'.threads = update s.threads t (some th')) (hr : Recast t th th') : Every Q s' :=
  h.set hts (hQ.recast t th th' hr (h t th ht))

theorem Lasting.noted (hQ : Lasting Q) (hm : Note s s') (h : Every Q s) : Every Q s' := by
  cases hm with
  | mark noRequest delay bits hbits => exact h
  | raise t flag th ht hf hr => exact hQ.set h ht rfl (.raise flag hf hr)
  | rouse t th ht hp _ => exact hQ.set h ht (roused_threads ..) (.note _)

theorem Lasting.tail (hQ : Lasting Q) (hm : Tail s s') (h : Every Q s) : Every Q s' := by
  cases hm with
  | note hm => exact hQ.noted hm h
  | switch next prev th hprev ht hr hne =>
    exact h.switched (fun t th st => hQ.recast t th _ (.status st)) hprev ht

theorem Lasting.act (hQ : Lasting Q) (hm : Act s s') (h : Every Q s) : Every Q s' := by
  cases hm with
  | note hm => exact hQ.noted hm h
  | answer key t size th ht hm hq hc hp => exact hQ.set h ht (roused_threads ..) (.wake _)
  | fire t th ht hst hp => exact hQ.set h ht rfl (.fire hp)
  | create id priority hnone hid => exact h.set rfl (hQ.setup id priority)
  | suspend t th ht hr hne => exact hQ.set h ht rfl (.status .sus)
  | shelve t th st ht hb hb' => exact hQ.set h ht rfl (.status st)
  | resume t th ht hst hp => exact hQ.set h ht rfl (.status .rdy)
  | openPort th attr maxCall maxReply ht hop => exact hQ.set h ht rfl (.port true attr maxCall maxReply)
  | done th ht => exact hQ.set h ht rfl .done
  | book replies q => exact h
  | openReply key max q hnone => exact h
  | rotate p head rest hl => exact h

theorem Lasting.move {e : Event} (hQ : Lasting Q) (hm : Move e s s') (h : Every Q s) : Every Q s' := by
  cases hm with
  | act hm => exact hQ.act hm h
  | heed _ hm =>
    obtain ⟨th, ht⟩ := hm
    exact hQ.set h ht rfl .heed
  | kill t _ hm =>
    cases hm with
    | halt th ht hst => exact hQ.set h ht rfl .stop
    | abort th ht hb => exact hQ.set h ht rfl .abort
  | destroy id _ hm =>
    obtain ⟨th, ht, hst, hq⟩ := hm
    exact h.touch rfl (by simp)
  | stop _ hm =>
    obtain ⟨th, ht, hu⟩ := hm
    exact hQ.set h ht rfl (.status .dmt)
  | park hm =>
    cases hm with
    | listen th ht hty hf => exact hQ.set h ht rfl (.listen hf)
    | suspend th ht hr => exact hQ.set h ht rfl (.status .sus)
  | post _ hm =>
    cases hm with
    | wait g th f c ht hty hf hok hflag hopen htag =>
      exact hQ.set h ht rfl (.block g f c hf hok hflag htag)
    | hand p t size key th ht hm hp => exact hQ.set h ht (roused_threads ..) (.wake _)
    | accept p t th ht hm hty => exact hQ.set h ht rfl .accept
    | sent p t th ht hm hty hp => exact hQ.set h ht (roused_threads ..) (.wake _)
  | shut _ hm =>
    cases hm with
    | close th ht hop => exact hQ.set h ht rfl (.port false _ _ _)
    | expel g t th hg ht hm hp => exact hQ.set h ht (roused_threads ..) (.wake _)

end

theorem Notes.tails (h : Notes s s') : Tails s s' := Relation.ReflTransGen.mono (fun _ _ => Tail.note) _ _ h

theorem Notes.acts (h : Notes s s') : Acts s s' := Relation.ReflTransGen.mono (fun _ _ => Act.note) _ _ h

theorem wake_roused {f : Wait → Wait} (h : Base s)
    (hb : ∀ th, s.threads t = some th → Blocked th) (hw : wake s t f = some s') :
    ∃ th, s.threads t = some th ∧ Placed th ∧ s' = roused s t th f := by
  obtain ⟨th, ht, hp, he⟩ := wake_eq h hw
  exact ⟨th, ht, ⟨hb th ht, hp⟩, he⟩

theorem Base.queued_blocked {g : Guard} (h : Base s) (hm : t ∈ s.queues g) :
    ∃ th, s.threads t = some th ∧ th.wait.waiting = some g ∧ Blocked th := by
  obtain ⟨th, ht, hw⟩ := h.queued g t hm
  refine ⟨th, ht, hw, (h.thread t th ht).blocked ?_⟩
  intro hty
  rw [(h.thread t th ht).waiting_none hty] at hw
  cases hw

theorem Base.blocked_of_mem {g : Guard} (h : Base s) (hm : t ∈ s.queues g) :
    ∀ th, s.threads t = some th → Blocked th := by
  intro th ht
  obtain ⟨th', ht', -, hb⟩ := h.queued_blocked hm
  rw [ht] at ht'
  cases ht'
  exact hb

inductive Notified (s : State) (p flag : ℕ) : State × ℤ → Prop
  | absent : s.threads p = none → Notified s p flag (s, eNoexs)
  | dormant (th : Thread) : s.threads p = some th → th.status = .dmt → Notified s p flag (s, eObj)
  | raise (th : Thread) : s.threads p = some th → th.wait.type ≠ .flag → th.wait.type ≠ .receive →
    Notified s p flag (s.set p (th.setFlag (th.port.flag ||| flag)), eOk)
  | rouse (th : Thread) : s.threads p = some th → Placed th →
    th.wait.type = .flag ∨ th.wait.type = .receive →
    Notified s p flag (roused s p (th.setFlag 0) fun w => { w with result := eRlwai }, eOk)

theorem notify_notified {flag : ℕ} {x : State × ℤ} (h : Base s)
    (hn : notify s p flag = some x) : Notified s p flag x := by
  unfold notify at hn
  split at hn
  · rename_i hnone
    cases hn
    exact .absent hnone
  rename_i th ht
  have hok := h.thread p th ht
  have hwake : (if th.wait.type = .flag ∨ th.wait.type = .receive then
        (wake (s.set p (th.setFlag 0)) p fun w => { w with result := eRlwai }).bind fun s => some (s, eOk)
      else some (s.set p (th.setFlag (th.port.flag ||| flag)), eOk)) = some x →
      Notified s p flag x := by
    intro hx
    split_ifs at hx with hty
    · simp only [bind_eq_some_iff, some.injEq] at hx
      obtain ⟨s1, hw, rfl⟩ := hx
      have hok0 : ThreadOk (th.setFlag 0) := hok
      obtain ⟨th1, ht1, hp, rfl⟩ := wake_eq (h.set ht hok0 rfl fun hr => hr) hw
      simp only [State.set_threads, update_self, some.injEq] at ht1
      subst ht1
      rw [roused_set]
      exact .rouse th ht ⟨hok.blocked (by rcases hty with hty | hty <;> simp [hty]), hp⟩ hty
    · rw [not_or] at hty
      cases hx
      exact .raise th ht hty.1 hty.2
  dsimp only at hn
  split at hn
  · rename_i hst
    cases hn
    exact .dormant th ht hst
  · exact hwake hn
  · exact hwake hn
  · rename_i hs1 hs2 hs3
    have hty := hok.type_of_not_blocked (not_or.mpr ⟨hs2, hs3⟩)
    cases hn
    exact .raise th ht (by simp [hty]) (by simp [hty])

theorem Notified.notes {flag : ℕ} {x : State × ℤ} (h : Notified s p flag x) : Notes s x.1 := by
  cases h with
  | absent => exact .refl
  | dormant => exact .refl
  | raise th ht hf hr => exact .single (.raise p flag th ht hf hr)
  | rouse th ht hp hty => exact .single (.rouse p th ht hp hty)

theorem keeps_run {R : State → State → Prop} {P : State → Prop}
    (hP : ∀ s s', R s s' → P s → P s') (hm : Relation.ReflTransGen R s s') (hp : P s) : P s' := by
  induction hm with
  | refl => exact hp
  | tail _ hstep ih => exact hP _ _ hstep ih

structure Still (s s' : State) : Prop where
  keeps : Keeps s s'
  active : Active s → Active s'

theorem Still.trans {s'' : State} (h : Still s s') (h' : Still s' s'') : Still s s'' :=
  ⟨h.keeps.trans h'.keeps, fun ha => h'.active (h.active ha)⟩

theorem Still.of_run {R : State → State → Prop} (h : Base s)
    (hR : ∀ s s', R s s' → Base s → Still s s') (hm : Relation.ReflTransGen R s s') : Still s s' := by
  refine keeps_run (P := Still s) ?_ hm ⟨Keeps.refl h, fun ha => ha⟩
  intro x y hxy hx
  exact hx.trans (hR x y hxy hx.keeps.base)

theorem Note.still (hm : Note s s') (h : Base s) : Still s s' := by
  cases hm with
  | mark noRequest delay bits _ => exact ⟨keeps_same h rfl rfl rfl rfl rfl, fun ha => ha⟩
  | raise t flag th ht _ _ =>
    have hok : ThreadOk (th.setFlag (th.port.flag ||| flag)) := h.thread t th ht
    exact ⟨keeps_set h ht hok rfl rfl fun hr => hr, fun ha => ha.set ht fun hty => hty⟩
  | rouse t th ht hp hty =>
    have hok : ThreadOk (th.setFlag 0) := h.thread t th ht
    refine ⟨keeps_roused h ht rfl (woken_ok hok fun _ => rfl) ?_ ?_, Active.roused⟩
    · rcases hty with hty | hty <;> simp [hty]
    · have hv : callView (th.setFlag 0) = callView th := rfl
      rw [← hv]
      apply callView_woken hok <;> rcases hty with hty | hty <;> simp [hty]

theorem Runnable.not_blocked (h : Runnable th) : ¬Blocked th := by
  rcases h with hs | hs <;> simp [Blocked, hs]

theorem Base.active_of_runnable (h : Base s)
    (ht : s.threads s.running = some th) (hr : Runnable th) : Active s := by
  intro th' ht'
  rw [ht] at ht'
  cases ht'
  exact (h.thread _ th ht).type_of_not_blocked hr.not_blocked

theorem switched_keeps {prev : Thread} (h : Base s)
    (hprev : s.threads s.running = some prev) (ht : s.threads next = some th) (hr : Runnable th)
    (hne : next ≠ s.running) : Keeps s (switched s prev th next) ∧ Active (switched s prev th next) := by
  have hy : Keeps s (s.set s.running (yielded prev)) := by
    unfold yielded
    split_ifs with hrun
    · refine keeps_set h hprev ?_ rfl rfl fun _ => .inr rfl
      exact (h.thread _ _ hprev).runnable (.inl hrun) (.inr rfl) rfl
    · exact keeps_set h hprev (h.thread _ _ hprev) rfl rfl fun hr => hr
  have ht1 : (s.set s.running (yielded prev)).threads next = some th := (update_of_ne hne ..).trans ht
  have hok : ThreadOk (th.setStatus .run) := (h.thread _ _ ht).runnable hr (.inl rfl) rfl
  have hset := keeps_set hy.base ht1 hok rfl rfl fun _ => .inl rfl
  have hk : Keeps s (switched s prev th next) := (hy.trans hset).trans (keeps_same hset.base rfl rfl rfl rfl rfl)
  exact ⟨hk, hk.base.active_of_runnable (update_self ..) (.inl rfl)⟩

theorem Tail.still (hm : Tail s s') (h : Base s) : Still s s' := by
  cases hm with
  | note hm => exact hm.still h
  | switch next prev th hprev ht hr hne =>
    obtain ⟨hk, ha⟩ := switched_keeps h hprev ht hr hne
    exact ⟨hk, fun _ => ha⟩

theorem readyDequeue_bits {readyTask : ℕ → List ℕ} {bits : BitVec 32} (fuel : ℕ)
    (hp : readyTask p ≠ []) (hb : bits.getLsbD p = true) :
    (readyDequeue readyTask fuel bits).2.getLsbD p = true := by
  induction fuel generalizing bits with
  | zero => exact hb
  | succ fuel ih =>
    simp only [readyDequeue]
    split_ifs
    · exact hb
    split
    · exact hb
    rename_i he
    apply ih
    have hne : p ≠ countNtz bits := by
      rintro rfl
      exact hp he
    have hlt : p < 32 := BitVec.lt_of_getLsbD hb
    simp only [BitVec.getLsbD_and, BitVec.getLsbD_not, BitVec.getLsbD_shiftLeft, BitVec.getLsbD_one, hb, hlt]
    simp
    omega

theorem Base.mark (h : Base s) (noRequest delay : Bool) (bits : BitVec 32) :
    Base { s with noRequest := noRequest, delayThreadStart := delay, readyBits := bits } := by
  have hk : Keeps s { s with noRequest := noRequest, delayThreadStart := delay, readyBits := bits } :=
    keeps_same h rfl rfl rfl rfl rfl
  exact hk.base

inductive Delayed (s : State) : State → Prop
  | none : Delayed s { s with noRequest := true }
  | notified (x : State × ℤ) : s.delayThreadStart = true →
    Notified { s with noRequest := true, delayThreadStart := false } portDelay eventInterrupt x →
    Delayed s x.1

inductive Picked (s : State) (next : ℕ) (th : Thread) : State → Prop
  | same : next = s.running → Picked s next th s
  | switch (prev : Thread) : next ≠ s.running → s.threads s.running = some prev →
    Picked s next th (switched s prev th next)

theorem dispatch_eq (h : Base s) (hd : dispatch s = some s') : ∃ s1 bits next th, Delayed s s1 ∧
      (∀ p, s1.readyTask p ≠ [] → s1.readyBits.getLsbD p = true → bits.getLsbD p = true) ∧
      s1.threads next = some th ∧ Runnable th ∧ Picked { s1 with readyBits := bits } next th s' := by
  unfold dispatch at hd
  simp only [bind_eq_bind, bind_eq_some_iff] at hd
  obtain ⟨s1, hs1, next, hnext, hd⟩ := hd
  have h1 : Delayed s s1 ∧ Base s1 := by
    unfold startDelay at hs1
    split_ifs at hs1 with hdelay
    · simp only [map_eq_some_iff] at hs1
      obtain ⟨x, hx, rfl⟩ := hs1
      have hb := h.mark true false s.readyBits
      have hn := notify_notified hb hx
      exact ⟨.notified x hdelay hn, (Still.of_run hb (fun _ _ => Note.still) hn.notes).keeps.base⟩
    · cases hs1
      exact ⟨.none, h.mark true s.delayThreadStart s.readyBits⟩
  obtain ⟨p, hp⟩ := readyDequeue_mem (Prod.ext hnext rfl)
  obtain ⟨th, ht, hr⟩ := h1.2.ready p next hp
  refine ⟨s1, _, next, th, h1.1, fun p hq hb => readyDequeue_bits 33 hq hb, ht, hr, ?_⟩
  split_ifs at hd with he
  · cases hd
    exact .same he
  · obtain ⟨prev, hprev, rfl⟩ := switchTo_switched hd ht he
    exact .switch prev he hprev

theorem Delayed.notes (hd : Delayed s s') : Notes s s' := by
  cases hd with
  | none => exact .single (.mark true s.delayThreadStart s.readyBits fun _ _ hp => hp)
  | notified x _ hn => exact .head (.mark true false s.readyBits fun _ _ hp => hp) hn.notes

theorem dispatch_tails (h : Base s) (hd : dispatch s = some s') : Tails s s' ∧ Active s' := by
  obtain ⟨s1, bits, next, th, hs1, hbits, ht, hr, hp⟩ := dispatch_eq h hd
  have hb := ((Still.of_run h (fun _ _ => Note.still) hs1.notes).keeps.base).mark s1.noRequest
    s1.delayThreadStart bits
  have h2 := hs1.notes.tails.tail (.note (.mark s1.noRequest s1.delayThreadStart bits hbits))
  cases hp with
  | same he =>
    subst he
    exact ⟨h2, hb.active_of_runnable ht hr⟩
  | switch prev hne hprev =>
    exact ⟨h2.tail (.switch next prev th hprev ht hr hne), (switched_keeps hb hprev ht hr hne).2⟩

inductive Leaves (s : State) : State → Prop
  | now : Leaves s s
  | serialize {s' : State} : leaveSerialize s = some s' → Leaves s s'
  | dispatch {s' : State} : leaveSerializeAndDispatch s = some s' → Leaves s s'
  | switch {s' : State} : Tail s s' → Leaves s s'

theorem leaveSerializeAndDispatch_eq (s : State) :
    leaveSerializeAndDispatch s = dispatch { s with noRequest := false } := by
  simp [leaveSerializeAndDispatch, leaveSerialize]

theorem Leaves.tails (hl : Leaves s s') (h : Base s) : Tails s s' := by
  cases hl with
  | now => exact .refl
  | serialize hl =>
    unfold leaveSerialize at hl
    split_ifs at hl
    · cases hl
      exact .refl
    · exact (dispatch_tails h hl).1
  | dispatch hl =>
    rw [leaveSerializeAndDispatch_eq] at hl
    have hb := h.mark false s.delayThreadStart s.readyBits
    exact .head (.note (.mark false s.delayThreadStart s.readyBits fun _ _ hp => hp)) (dispatch_tails hb hl).1
  | switch hm => exact .single hm

theorem Leaves.still (hl : Leaves s s') (h : Base s) : Still s s' :=
  Still.of_run h (fun _ _ => Tail.still) (hl.tails h)

theorem leaveSerializeAndDispatch_active (h : Base s)
    (hl : leaveSerializeAndDispatch s = some s') : Active s' := by
  rw [leaveSerializeAndDispatch_eq] at hl
  exact (dispatch_tails (h.mark false s.delayThreadStart s.readyBits) hl).2

section

variable {code : ℤ} {o : Outcome}

theorem leave_eq (h : leave s code = some o) :
    ∃ s', leaveSerialize s = some s' ∧ o = ⟨s', some code, none, none⟩ := by
  obtain ⟨s', hs', rfl⟩ := map_eq_some_iff.mp h
  exact ⟨s', hs', rfl⟩

theorem leaveAndDispatch_eq (h : leaveAndDispatch s code = some o) :
    ∃ s', leaveSerializeAndDispatch s = some s' ∧ o = ⟨s', some code, none, none⟩ := by
  obtain ⟨s', hs', rfl⟩ := map_eq_some_iff.mp h
  exact ⟨s', hs', rfl⟩

theorem leave_leaves (h : leave s code = some o) : Leaves s o.state := by
  obtain ⟨s', hs', rfl⟩ := leave_eq h
  exact .serialize hs'

theorem leaveAndDispatch_leaves (h : leaveAndDispatch s code = some o) : Leaves s o.state := by
  obtain ⟨s', hs', rfl⟩ := leaveAndDispatch_eq h
  exact .dispatch hs'

end

end Eotan.Kernel
