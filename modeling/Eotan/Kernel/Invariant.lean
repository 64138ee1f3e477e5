import Eotan.Kernel.Ipc

/-!
What every kernel section keeps: threads whose wait reason, list and status agree, ready lists of
runnable threads, waiting lists of the threads that wait on them, and the numbers of
`reply_sequence` against the keys of `reply_tree`.
-/

namespace Eotan.Kernel

open Eotan.Sequence
open Function
open List

theorem mem_of_head {l rest : List ℕ} {t : ℕ} (h : l = t :: rest) : t ∈ l := by
  rw [h]
  exact mem_cons_self

def Blocked (th : Thread) : Prop := th.status = .wai ∨ th.status = .was

def Runnable (th : Thread) : Prop := th.status = .run ∨ th.status = .rdy

instance (th : Thread) : Decidable (Blocked th) :=
  inferInstanceAs (Decidable (th.status = .wai ∨ th.status = .was))

instance (th : Thread) : Decidable (Runnable th) :=
  inferInstanceAs (Decidable (th.status = .run ∨ th.status = .rdy))

def ThreadOk (th : Thread) : Prop :=
  match th.wait.type with
  | .none => ¬Blocked th ∧ th.wait.waiting = none ∧ (th.status = .dmt → th.cont = .user)
  | .flag => Blocked th ∧ th.wait.waiting = none ∧ th.cont = .listen
  | .call => Blocked th ∧ th.wait.result = 0 ∧ ∃ p k, th.wait.waiting = some (.caller p) ∧
      th.cont = .call k ∧ keyOfIpc th.wait.key = k
  | .reply => Blocked th ∧ th.wait.result = 0 ∧ ∃ k, th.wait.waiting = some (.reply k) ∧
      th.cont = .call k
  | .receive => Blocked th ∧ ∃ p, th.wait.waiting = some (.receiver p) ∧ th.cont = .receive
  | .send => Blocked th ∧ ∃ p, th.wait.waiting = some (.caller p) ∧ th.cont = .send ∧
      keyOfIpc th.wait.key = 0

structure Base (s : State) : Prop where
  thread : ∀ t th, s.threads t = some th → ThreadOk th
  id : ∀ t, (s.threads t).isSome → t < 2 ^ 16
  ready : ∀ p t, t ∈ s.readyTask p → ∃ th, s.threads t = some th ∧ Runnable th
  queued : ∀ g t, t ∈ s.queues g → ∃ th, s.threads t = some th ∧ th.wait.waiting = some g
  nodup : ∀ g, (s.queues g).Nodup
  sequence : Valid s.replySequence maxThread
  blocks : s.replySequence.numOfBlocks = 32
  free : ∀ k, Free s.replySequence k ↔ k < maxThread ∧ k ≠ 0 ∧ s.replies k = none
  key : ∀ k, (s.replies k).isSome → k ≠ 0 ∧ k < maxThread

/-- The rendezvous a thread inside `ipc_call` has still to see the end of, and whether it waits
for the reply. -/
def callView (th : Thread) : Option (ℕ × Bool) :=
  match th.cont with
  | .call k =>
    if th.wait.type ≠ .none ∨ th.wait.result ≠ 0 then some (k, decide (th.wait.type = .reply))
    else none
  | _ => none

def calls (s : State) (t : ℕ) : Option (ℕ × Bool) := (s.threads t).bind callView

structure Keeps (s s' : State) : Prop where
  base : Base s'
  replies : s'.replies = s.replies
  calls : calls s' = calls s
  queue : ∀ k, s'.queues (.reply k) = s.queues (.reply k)

variable {s s' : State} {g : Guard} {t p : ℕ} {th th' : Thread} {f : Wait → Wait}

theorem Keeps.refl (h : Base s) : Keeps s s := ⟨h, rfl, rfl, fun _ => rfl⟩

theorem Keeps.trans {s'' : State} (h : Keeps s s') (h' : Keeps s' s'') : Keeps s s'' :=
  ⟨h'.base, h'.replies.trans h.replies, h'.calls.trans h.calls, fun k => (h'.queue k).trans (h.queue k)⟩

theorem keeps_same (h : Base s) (ht : s'.threads = s.threads)
    (hr : s'.readyTask = s.readyTask) (hq : s'.queues = s.queues) (hp : s'.replies = s.replies)
    (hs : s'.replySequence = s.replySequence) : Keeps s s' := by
  refine ⟨?_, hp, ?_, fun k => by rw [hq]⟩
  · obtain ⟨h1, h2, h3, h4, h5, h6, h7, h8, h9⟩ := h
    constructor <;> simp only [ht, hr, hq, hp, hs] <;> assumption
  · funext t
    simp only [Kernel.calls, ht]

theorem Base.not_queued (h : Base s)
    (ht : s.threads t = some th) (hw : th.wait.waiting ≠ some g) : t ∉ s.queues g := by
  intro hm
  obtain ⟨th', ht', hg⟩ := h.queued g t hm
  rw [ht] at ht'
  cases ht'
  exact hw hg

theorem Base.not_ready (h : Base s)
    (ht : s.threads t = some th) (hr : ¬Runnable th) (p : ℕ) : t ∉ s.readyTask p := by
  intro hm
  obtain ⟨th', ht', hr'⟩ := h.ready p t hm
  rw [ht] at ht'
  cases ht'
  exact hr hr'

theorem Base.change (h : Base s) (hp : s'.replies = s.replies) (hs : s'.replySequence = s.replySequence)
    (hid : ∀ t, (s'.threads t).isSome → (s.threads t).isSome ∨ t < 2 ^ 16)
    (hok : ∀ t th, s'.threads t = some th → s.threads t = some th ∨ ThreadOk th)
    (hr : ∀ p t, t ∈ s'.readyTask p → ∃ th, s'.threads t = some th ∧ Runnable th)
    (hq : ∀ g t, t ∈ s'.queues g → ∃ th, s'.threads t = some th ∧ th.wait.waiting = some g)
    (hn : ∀ g, (s'.queues g).Nodup) : Base s' := by
  constructor
  · intro t th ht
    rcases hok t th ht with h' | h'
    · exact h.thread t th h'
    · exact h'
  · intro t ht
    rcases hid t ht with h' | h'
    · exact h.id t h'
    · exact h'
  · exact hr
  · exact hq
  · exact hn
  · rw [hs]
    exact h.sequence
  · rw [hs]
    exact h.blocks
  · rw [hs, hp]
    exact h.free
  · rw [hp]
    exact h.key

theorem calls_update (h : s'.threads = update s.threads t (some th)) :
    calls s' = update (calls s) t (callView th) := by
  funext u
  by_cases hu : u = t
  · subst hu
    simp [calls, h]
  · simp [calls, h, hu]

theorem calls_of_thread (h : s.threads t = some th) : calls s t = callView th := by
  simp [calls, h]

theorem Base.write (h : Base s) (hts : s'.threads = update s.threads t (some th')) (hp : s'.replies = s.replies)
    (hs : s'.replySequence = s.replySequence) (hid : t < 2 ^ 16) (hok : ThreadOk th')
    (hr : ∀ p u, u ∈ s'.readyTask p → u ≠ t ∧ u ∈ s.readyTask p ∨ u = t ∧ Runnable th')
    (hq : ∀ g u, u ∈ s'.queues g → u ≠ t ∧ u ∈ s.queues g ∨ u = t ∧ th'.wait.waiting = some g)
    (hn : ∀ g, (s'.queues g).Nodup) : Base s' := by
  refine h.change hp hs ?_ ?_ ?_ ?_ hn
  · intro u hu
    rw [hts, update_apply] at hu
    split_ifs at hu with he
    · exact .inr (he ▸ hid)
    · exact .inl hu
  · intro u th'' hu
    rw [hts, update_apply] at hu
    split_ifs at hu with he
    · cases hu
      exact .inr hok
    · exact .inl hu
  · intro p u hu
    rw [hts]
    rcases hr p u hu with ⟨hne, hu⟩ | ⟨rfl, hrun⟩
    · rw [update_of_ne hne]
      exact h.ready p u hu
    · rw [update_self]
      exact ⟨th', rfl, hrun⟩
  · intro g u hu
    rw [hts]
    rcases hq g u hu with ⟨hne, hu⟩ | ⟨rfl, hw⟩
    · rw [update_of_ne hne]
      exact h.queued g u hu
    · rw [update_self]
      exact ⟨th', rfl, hw⟩

theorem Base.cleared (h : Base s) (hq : ∀ g, s'.queues g = s.queues g ∨ s'.queues g = []) :
    (∀ g u, u ∈ s'.queues g → u ∈ s.queues g) ∧ ∀ g, (s'.queues g).Nodup := by
  constructor
  · intro g u hu
    rcases hq g with he | he
    · rwa [he] at hu
    · simp [he] at hu
  · intro g
    rcases hq g with he | he
    · rw [he]
      exact h.nodup g
    · rw [he]
      exact nodup_nil

theorem Base.touch (h : Base s) (hts : s'.threads = update s.threads t (some th')) (hp : s'.replies = s.replies)
    (hs : s'.replySequence = s.replySequence) (hid : t < 2 ^ 16) (hok : ThreadOk th')
    (hw : ∀ th, s.threads t = some th → th'.wait.waiting = th.wait.waiting)
    (hq : ∀ g, s'.queues g = s.queues g ∨ s'.queues g = []) (hr : ∀ p u, u ∈ s'.readyTask p → u ∈ s.readyTask p ∧
      (u = t → ∀ th, s.threads t = some th → Runnable th → Runnable th')) : Base s' := by
  obtain ⟨hmem, hnodup⟩ := h.cleared hq
  refine h.write hts hp hs hid hok ?_ ?_ hnodup
  · intro p u hu
    obtain ⟨hm, hrun⟩ := hr p u hu
    by_cases he : u = t
    · obtain ⟨th'', hu', hr'⟩ := h.ready p u hm
      exact .inr ⟨he, hrun he th'' (he ▸ hu') hr'⟩
    · exact .inl ⟨he, hm⟩
  · intro g u hu
    by_cases he : u = t
    · obtain ⟨th'', hu', hg⟩ := h.queued g u (hmem g u hu)
      exact .inr ⟨he, (hw th'' (he ▸ hu')).trans hg⟩
    · exact .inl ⟨he, hmem g u hu⟩

theorem keeps_thread (h : Base s')
    (hts : s'.threads = update s.threads t (some th')) (hp : s'.replies = s.replies)
    (hc : callView th' = calls s t) (hqr : ∀ k, s'.queues (.reply k) = s.queues (.reply k)) : Keeps s s' := by
  refine ⟨h, hp, ?_, hqr⟩
  rw [calls_update hts, hc, update_eq_self]

section

variable {s : State} {t : ℕ} {th th' : Thread} (h : Base s) (ht : s.threads t = some th)
  (hok : ThreadOk th') (hw : th'.wait.waiting = th.wait.waiting)

include h ht hok hw

theorem Base.set (hr : Runnable th → Runnable th') : Base (s.set t th') := by
  refine h.touch rfl rfl rfl (h.id t (by simp [ht])) hok ?_ (fun _ => .inl rfl) ?_
  · intro th0 ht0
    rw [ht] at ht0
    cases ht0
    exact hw
  · intro p u hu
    refine ⟨hu, ?_⟩
    intro _ th0 ht0
    rw [ht] at ht0
    cases ht0
    exact hr

theorem keeps_set (hc : callView th' = callView th) (hr : Runnable th → Runnable th') :
    Keeps s (s.set t th') := by
  refine keeps_thread (h.set ht hok hw hr) rfl rfl ?_ fun _ => rfl
  rw [hc, calls_of_thread ht]

theorem Base.park : Base (readyRemove (s.set t th') t) := by
  refine h.touch rfl rfl rfl (h.id t (by simp [ht])) hok ?_ (fun _ => .inl rfl) ?_
  · intro th0 ht0
    rw [ht] at ht0
    cases ht0
    exact hw
  · intro p u hu
    simp only [readyRemove, State.set_readyTask, mem_filter, decide_eq_true_eq] at hu
    exact ⟨hu.1, fun he => absurd he hu.2⟩

theorem keeps_park (hc : callView th' = callView th) : Keeps s (readyRemove (s.set t th') t) := by
  refine keeps_thread (h.park ht hok hw) rfl rfl ?_ fun _ => rfl
  rw [hc, calls_of_thread ht]

end

def enqueue (s : State) (pri t : ℕ) : State :=
  { s with
    readyBits := s.readyBits ||| 1#32 <<< pri
    readyTask := Function.update s.readyTask pri (s.readyTask pri ++ [t]) }

theorem enqueue_of_readyEnqueue {pri : ℕ} (h : readyEnqueue s pri t = some s') :
    pri ≤ maxPriority ∧ s' = enqueue s pri t := by
  unfold readyEnqueue at h
  split_ifs at h with hp
  cases h
  exact ⟨hp, rfl⟩

theorem mem_enqueue {pri u : ℕ} (hu : u ∈ (enqueue s pri t).readyTask p) : u ∈ s.readyTask p ∨ u = t := by
  simp only [enqueue, update_apply] at hu
  split_ifs at hu with hp
  · subst hp
    rcases mem_append.mp hu with hu | hu
    · exact .inl hu
    · exact .inr (mem_singleton.mp hu)
  · exact .inl hu

theorem keeps_enqueue (h : Base s) (ht : s.threads t = some th)
    (hr : Runnable th) (pri : ℕ) : Keeps s (enqueue s pri t) := by
  refine ⟨?_, rfl, rfl, fun _ => rfl⟩
  refine h.change rfl rfl (fun t ht => .inl ht) (fun t th ht => .inl ht) ?_ h.queued h.nodup
  intro p u hu
  rcases mem_enqueue hu with hu | rfl
  · exact h.ready p u hu
  · exact ⟨th, ht, hr⟩

theorem listRemove_eq (h : Base s) (hr : listRemove s t = some s') :
    ∃ th, s.threads t = some th ∧ s' = { s with
      threads := update s.threads t
        (some (th.setWait { th.wait with waiting := none }))
      queues := fun g => (s.queues g).erase t } := by
  unfold listRemove at hr
  cases ht : s.threads t with
  | none => simp [ht] at hr
  | some th =>
    refine ⟨th, rfl, ?_⟩
    simp only [ht, Option.bind_eq_bind, Option.bind_some] at hr
    split at hr
    · rename_i hw
      cases hr
      have he : th.setWait { th.wait with waiting := none } = th := by
        rw [← hw]
        rfl
      have hq : (fun g => (s.queues g).erase t) = s.queues := by
        funext g
        apply erase_of_not_mem
        apply h.not_queued ht
        simp [hw]
      rw [he, ← ht, update_eq_self, hq]
    · rename_i g hw
      split_ifs at hr
      cases hr
      have hq : (fun g' => (s.queues g').erase t) = update s.queues g ((s.queues g).erase t) := by
        funext g'
        by_cases hg : g' = g
        · subst hg
          simp
        · rw [update_of_ne hg, erase_of_not_mem]
          apply h.not_queued ht
          simp [hw, Ne.symm hg]
      rw [hq]
      rfl

def woken (th : Thread) (f : Wait → Wait) : Thread :=
  (th.setWait { f { th.wait with waiting := none } with type := .none }).setStatus
    (released th.status)

def unlink (s : State) (t : ℕ) (th : Thread) : State :=
  { s with
    threads := Function.update s.threads t (some th)
    queues := fun g => (s.queues g).erase t }

def roused (s : State) (t : ℕ) (th : Thread) (f : Wait → Wait) : State :=
  if th.status = .wai then enqueue (unlink s t (woken th f)) th.priority t
  else unlink s t (woken th f)

section

variable (s : State) (t : ℕ) (th : Thread) (f : Wait → Wait)

@[simp]
theorem roused_threads : (roused s t th f).threads = update s.threads t (some (woken th f)) := by
  unfold roused
  split_ifs <;> rfl

@[simp]
theorem roused_queues (g : Guard) : (roused s t th f).queues g = (s.queues g).erase t := by
  unfold roused
  split_ifs <;> rfl

@[simp]
theorem roused_running : (roused s t th f).running = s.running := by
  unfold roused
  split_ifs <;> rfl

@[simp]
theorem roused_replies : (roused s t th f).replies = s.replies := by
  unfold roused
  split_ifs <;> rfl

@[simp]
theorem roused_replySequence : (roused s t th f).replySequence = s.replySequence := by
  unfold roused
  split_ifs <;> rfl

theorem roused_set (th' : Thread) : roused (s.set t th') t th f = roused s t th f := by
  simp [roused, unlink, State.set]

end

theorem wake_eq (h : Base s) (hw : wake s t f = some s') :
    ∃ th, s.threads t = some th ∧ (th.status = .wai → th.priority ≤ maxPriority) ∧ s' = roused s t th f := by
  unfold wake at hw
  cases hl : listRemove s t with
  | none => simp [hl] at hw
  | some s1 =>
    obtain ⟨th, ht, rfl⟩ := listRemove_eq h hl
    refine ⟨th, ht, ?_⟩
    simp only [hl, release, Option.bind_eq_bind, Option.bind_some, update_self,
      State.set_threads, State.set_set, Thread.setWait_status] at hw
    unfold roused
    split_ifs at hw with hst
    · obtain ⟨hp, rfl⟩ := enqueue_of_readyEnqueue hw
      refine ⟨fun _ => hp, ?_⟩
      simp only [State.set, update_idem, if_pos hst]
      rfl
    · cases hw
      refine ⟨fun hs => absurd hs hst, ?_⟩
      simp only [State.set, update_idem, if_neg hst]
      rfl

section

variable (h : ThreadOk th)
include h

theorem ThreadOk.type_of_not_blocked (hb : ¬Blocked th) : th.wait.type = .none := by
  unfold ThreadOk at h
  split at h
  · assumption
  all_goals exact absurd h.1 hb

theorem ThreadOk.blocked (ht : th.wait.type ≠ .none) : Blocked th := by
  by_contra hb
  exact ht (h.type_of_not_blocked hb)

theorem ThreadOk.waiting_none (ht : th.wait.type = .none) : th.wait.waiting = none := by
  simp only [ThreadOk, ht] at h
  exact h.2.1

theorem ThreadOk.user_of_dmt (hs : th.status = .dmt) : th.cont = .user := by
  have ht := h.type_of_not_blocked (by simp [Blocked, hs])
  simp only [ThreadOk, ht] at h
  exact h.2.2 hs

theorem ThreadOk.type_of_user (hc : th.cont = .user) : th.wait.type = .none := by
  unfold ThreadOk at h
  split at h
  · assumption
  all_goals simp [hc] at h

theorem ThreadOk.type_of_caller
    (hw : th.wait.waiting = some (.caller p)) : th.wait.type = .call ∨ th.wait.type = .send := by
  unfold ThreadOk at h
  split at h <;> simp_all

theorem ThreadOk.of_receiver (hw : th.wait.waiting = some (.receiver p)) : th.wait.type = .receive := by
  unfold ThreadOk at h
  split at h <;> simp_all

theorem ThreadOk.of_reply {k : ℕ} (hw : th.wait.waiting = some (.reply k)) :
    th.wait.type = .reply ∧ th.cont = .call k ∧ th.wait.result = 0 := by
  unfold ThreadOk at h
  split at h <;> simp_all

end

theorem ThreadOk.of_type_none (ht : th.wait.type = .none)
    (hw : th.wait.waiting = none) (hb : ¬Blocked th) (hd : th.status = .dmt → th.cont = .user) :
    ThreadOk th := by
  simp only [ThreadOk, ht]
  exact ⟨hb, hw, hd⟩

theorem woken_ok (h : ThreadOk th) (hf : ∀ w, (f w).waiting = w.waiting) : ThreadOk (woken th f) := by
  apply ThreadOk.of_type_none rfl
  · simp [woken, hf]
  · cases hs : th.status <;> simp [Blocked, woken, hs]
  · intro hd
    apply h.user_of_dmt
    cases hs : th.status <;> simp_all [woken]

theorem Base.unlink (h : Base s) (ht : s.threads t = some th) (hts : s'.threads = update s.threads t (some th'))
    (hq : s'.queues = fun g => (s.queues g).erase t) (hp : s'.replies = s.replies)
    (hs : s'.replySequence = s.replySequence) (hok : ThreadOk th')
    (hr : ∀ p u, u ∈ s'.readyTask p → (u ≠ t ∧ u ∈ s.readyTask p) ∨ (u = t ∧ Runnable th')) : Base s' := by
  refine h.write hts hp hs (h.id t (by simp [ht])) hok hr ?_ ?_
  · intro g u hu
    rw [hq] at hu
    exact .inl ((h.nodup g).mem_erase_iff.mp hu)
  · intro g
    rw [hq]
    exact (h.nodup g).erase t

theorem Base.roused {th0 : Thread} (h : Base s)
    (ht : s.threads t = some th0) (hst : th.status = th0.status) (hok : ThreadOk (woken th f)) :
    Base (roused s t th f) := by
  refine h.unlink ht (roused_threads ..) (funext (roused_queues s t th f)) (roused_replies ..)
    (roused_replySequence ..) hok ?_
  intro p u hu
  have hu' : u ∈ s.readyTask p ∨ (u = t ∧ th.status = .wai) := by
    unfold Kernel.roused at hu
    split_ifs at hu with hs
    · rcases mem_enqueue hu with hu | he
      · exact .inl hu
      · exact .inr ⟨he, hs⟩
    · exact .inl hu
  by_cases he : u = t
  · subst he
    refine .inr ⟨rfl, ?_⟩
    rcases hu' with hm | ⟨-, hs⟩
    · obtain ⟨th', ht', hr⟩ := h.ready p u hm
      rw [ht] at ht'
      cases ht'
      rcases hr with hs | hs <;> simp [Runnable, woken, hst, hs]
    · simp [Runnable, woken, hs]
  · rcases hu' with hm | ⟨he', -⟩
    · exact .inl ⟨he, hm⟩
    · exact absurd he' he

theorem wake_base (h : Base s) (hf : ∀ w, (f w).waiting = w.waiting) (hw : wake s t f = some s') : Base s' := by
  obtain ⟨th, ht, -, rfl⟩ := wake_eq h hw
  exact h.roused ht rfl (woken_ok (h.thread t th ht) hf)

theorem callView_woken (hok : ThreadOk th) (ht : th.wait.type ≠ .call) (ht' : th.wait.type ≠ .reply)
    (hf : th.wait.type = .none → ∀ w, (f w).result = w.result) : callView (woken th f) = callView th := by
  unfold ThreadOk at hok
  split at hok <;> simp_all [callView, woken]

theorem keeps_roused {th0 : Thread} (h : Base s)
    (ht : s.threads t = some th0) (hst : th.status = th0.status) (hok : ThreadOk (woken th f))
    (hty : th0.wait.type ≠ .reply) (hc : callView (woken th f) = callView th0) : Keeps s (roused s t th f) := by
  refine ⟨h.roused ht hst hok, roused_replies .., ?_, ?_⟩
  · rw [calls_update (roused_threads ..), hc, ← calls_of_thread ht, update_eq_self]
  · intro k
    rw [roused_queues]
    apply erase_of_not_mem
    apply h.not_queued ht
    intro hk
    exact hty ((h.thread t th0 ht).of_reply hk).1

def Active (s : State) : Prop := ∀ th, s.threads s.running = some th → th.wait.type = .none

theorem Active.set (h : Active s)
    (ht : s.threads t = some th) (hty : th.wait.type = .none → th'.wait.type = .none) :
    Active (s.set t th') := by
  intro th1 ht1
  simp only [State.set_threads, State.set_running, update_apply] at ht1
  split_ifs at ht1 with he
  · cases ht1
    exact hty (h th (he ▸ ht))
  · exact h th1 ht1

theorem Active.roused (h : Active s) : Active (roused s t th f) := by
  intro th' ht'
  rw [roused_threads, roused_running, update_apply] at ht'
  split_ifs at ht'
  · cases ht'
    rfl
  · exact h th' ht'

theorem ThreadOk.runnable (h : ThreadOk th) (hr : Runnable th)
    (hr' : Runnable th') (hw : th'.wait = th.wait) : ThreadOk th' := by
  have hb : ¬Blocked th := by
    rcases hr with hs | hs <;> simp [Blocked, hs]
  have ht := h.type_of_not_blocked hb
  apply ThreadOk.of_type_none
  · rw [hw, ht]
  · rw [hw, h.waiting_none ht]
  · rcases hr' with hs | hs <;> simp [Blocked, hs]
  · intro hd
    rcases hr' with hs | hs <;> simp [hd] at hs

theorem readyDequeue_mem {readyTask : ℕ → List ℕ} {fuel : ℕ} {bits bits' : BitVec 32}
    (h : readyDequeue readyTask fuel bits = (some t, bits')) : ∃ p, t ∈ readyTask p := by
  induction fuel generalizing bits with
  | zero => simp [readyDequeue] at h
  | succ fuel ih =>
    simp only [readyDequeue] at h
    split_ifs at h with hz
    · cases h
    split at h
    · rename_i u rest he
      cases h
      exact ⟨_, by rw [he]; exact mem_cons_self⟩
    · exact ih h

def blocked (th : Thread) (g : Guard) (f : Wait → Wait) (c : Cont) : Thread :=
  ((th.setWait { f { th.wait with waiting := some g } with result := eOk }).setStatus .wai).setCont c

def link (s : State) (g : Guard) (t : ℕ) : State :=
  { s with queues := Function.update s.queues g (s.queues g ++ [t]) }

def parked (s : State) (th : Thread) : State := readyRemove (s.set s.running th) s.running

def waiting (s : State) (th : Thread) (g : Guard) (f : Wait → Wait) (c : Cont) : State :=
  link (parked s (blocked th g f c)) g s.running

theorem Base.waiting {c : Cont} (h : Base s) (ht : s.threads s.running = some th) (hty : th.wait.type = .none)
    (hf : ∀ w, (f w).waiting = w.waiting) (hok : ThreadOk (blocked th g f c)) : Base (waiting s th g f c) := by
  have hq : ∀ g, s.running ∉ s.queues g := by
    intro g
    apply h.not_queued ht
    simp [(h.thread _ _ ht).waiting_none hty]
  refine h.write rfl rfl rfl (h.id _ (by simp [ht])) hok ?_ ?_ ?_
  · intro p t hm
    simp only [Kernel.waiting, link, parked, readyRemove, State.set_readyTask, mem_filter,
      decide_eq_true_eq] at hm
    exact .inl hm.symm
  · intro g' t hm
    simp only [Kernel.waiting, link, parked, readyRemove, State.set_queues, update_apply] at hm
    split_ifs at hm with hg
    · subst hg
      rcases mem_append.mp hm with hm | hm
      · exact .inl ⟨fun he => hq g' (he ▸ hm), hm⟩
      · exact .inr ⟨mem_singleton.mp hm, hf _⟩
    · exact .inl ⟨fun he => hq g' (he ▸ hm), hm⟩
  · intro g'
    simp only [Kernel.waiting, link, parked, readyRemove, State.set_queues, update_apply]
    split_ifs
    · exact (h.nodup g).append (nodup_singleton _) (disjoint_singleton.mpr (hq g))
    · exact h.nodup g'

theorem block_waiting {c : Cont} (ht : s.threads s.running = some th) (hb : block s g f c = some s') :
    leaveSerializeAndDispatch (waiting s th g f c) = some s' := by
  simp only [block, listEnqueue, wait, ht, Option.bind_eq_bind, Option.bind_some, State.set_threads,
    State.set_running, update_self] at hb
  rw [← hb]
  congr 1
  simp only [waiting, link, parked, readyRemove, State.set, update_idem]
  rfl

theorem ThreadOk.setStatus {st : Status} (h : ThreadOk th) (hb : ¬Blocked th)
    (hs : st = .run ∨ st = .rdy ∨ st = .sus) : ThreadOk (th.setStatus st) := by
  have ht := h.type_of_not_blocked hb
  refine ThreadOk.of_type_none ht (h.waiting_none ht) ?_ ?_
  · rcases hs with rfl | rfl | rfl <;> simp [Blocked]
  · rcases hs with rfl | rfl | rfl <;> simp

theorem ThreadOk.setStatus_blocked {st : Status} (h : ThreadOk th) (hb : Blocked th)
    (hs : Blocked (th.setStatus st)) : ThreadOk (th.setStatus st) := by
  unfold ThreadOk at h ⊢
  split at h
  · exact absurd hb h.1
  all_goals
    rename_i hty
    simp only [Thread.setStatus_wait, hty]
    exact ⟨hs, h.2⟩

theorem callView_none_of_user (h : th.cont = .user) : callView th = none := by
  simp [callView, h]

section

variable {s : State}

theorem clearPort_queues (s : State) (t : ℕ) (g : Guard) :
    (clearPort s t).queues g = s.queues g ∨ (clearPort s t).queues g = [] := by
  simp only [clearPort, update_apply]
  split_ifs <;> simp

theorem Base.bookkeeping (h : Base s) (ht : s'.threads = s.threads)
    (hr : s'.readyTask = s.readyTask) (hq : ∀ g, s'.queues g = s.queues g ∨ s'.queues g = [])
    (hv : Valid s'.replySequence maxThread) (hb : s'.replySequence.numOfBlocks = 32)
    (hf : ∀ k, Free s'.replySequence k ↔ k < maxThread ∧ k ≠ 0 ∧ s'.replies k = none)
    (hk : ∀ k, (s'.replies k).isSome → k ≠ 0 ∧ k < maxThread) : Base s' := by
  obtain ⟨hmem, hnodup⟩ := h.cleared hq
  refine ⟨?_, ?_, ?_, ?_, hnodup, hv, hb, hf, hk⟩
  · rw [ht]
    exact h.thread
  · rw [ht]
    exact h.id
  · rw [ht, hr]
    exact h.ready
  · intro g t hm
    rw [ht]
    exact h.queued g t (hmem g t hm)

theorem releaseRendezvous_replies (s : State) (key : ℕ) :
    (releaseRendezvous s key).replies = update s.replies key none := by
  unfold releaseRendezvous
  split_ifs with hk
  · rfl
  · have : s.replies key = none := by simpa using hk
    rw [← this, update_eq_self]

theorem releaseRendezvous_base (h : Base s) (key : ℕ) : Base (releaseRendezvous s key) := by
  unfold releaseRendezvous
  split_ifs with hk
  · obtain ⟨h0, hlt⟩ := h.key key hk
    have hlt' : key < 1024 := hlt
    have hblock : key / 32 < s.replySequence.numOfBlocks := by
      rw [h.blocks]
      omega
    refine h.bookkeeping rfl rfl (fun _ => .inl rfl) ?_ ?_ ?_ ?_
    · exact sequenceRelease_valid h.sequence (by omega) hblock hlt
    · exact (sequenceRelease_numOfBlocks _ _).trans h.blocks
    · intro k
      rw [sequenceRelease_free (by omega) hblock, h.free]
      simp only [update_apply]
      split_ifs with he
      · subst he
        simp [h0, hlt]
      · simp [he]
    · intro k
      simp only [update_apply]
      split_ifs
      · simp
      · exact h.key k
  · exact h

theorem releaseRendezvous_active (h : Active s) (key : ℕ) : Active (releaseRendezvous s key) := by
  unfold releaseRendezvous
  split_ifs <;> exact h

variable {q : Seq}

theorem openRendezvous_base {key : ℕ} (max : ℕ) (h : Base s) (hg : sequenceGet s.replySequence = (some key, q)) :
    s.replies key = none ∧ key < 2 ^ 16 ∧ Base (openRendezvous s q key max) := by
  have ht := sequenceGet_some h.sequence hg
  obtain ⟨hlt, h0, hnone⟩ := (h.free key).mp ht.free
  have hlt' : key < 1024 := hlt
  refine ⟨hnone, by omega, ?_⟩
  refine h.bookkeeping rfl rfl ?_ (sequenceGet_valid h.sequence hg) (ht.blocks.trans h.blocks) ?_ ?_
  · intro g
    simp only [openRendezvous, update_apply]
    split_ifs <;> simp
  · intro k
    simp only [openRendezvous, ht.left, h.free, update_apply]
    split_ifs with he
    · simp [he]
    · simp [he]
  · intro k
    simp only [openRendezvous, update_apply]
    split_ifs with he
    · subst he
      intro _
      exact ⟨h0, hlt⟩
    · exact h.key k

theorem keeps_sequence (h : Base s) (hv : Valid q maxThread) (hb : q.numOfBlocks = s.replySequence.numOfBlocks)
    (hf : ∀ k, Free q k ↔ Free s.replySequence k) : Keeps s { s with replySequence := q } := by
  refine ⟨?_, rfl, rfl, fun _ => rfl⟩
  refine h.bookkeeping rfl rfl (fun _ => .inl rfl) hv (hb.trans h.blocks) ?_ h.key
  intro k
  rw [hf]
  exact h.free k

theorem keeps_sequence_none (h : Base s) (hg : sequenceGet s.replySequence = (none, q)) :
    Keeps s { s with replySequence := q } := by
  obtain ⟨hno, hv, hno', hb⟩ := sequenceGet_none h.sequence hg
  apply keeps_sequence h hv hb
  intro k
  exact iff_of_false (hno' k) (hno k)

theorem keeps_sequence_undo {key : ℕ} (h : Base s) (hg : sequenceGet s.replySequence = (some key, q)) :
    Keeps s { s with replySequence := sequenceRelease q key } := by
  have ht := sequenceGet_some h.sequence hg
  have hlt : key < 1024 := h.sequence.bound key ht.free
  have hblock : key / 32 < q.numOfBlocks := by
    rw [ht.blocks, h.blocks]
    omega
  apply keeps_sequence h
  · exact sequenceRelease_valid (sequenceGet_valid h.sequence hg) (by omega) hblock hlt
  · rw [sequenceRelease_numOfBlocks, ht.blocks]
  · intro k
    rw [sequenceRelease_free (by omega) hblock, ht.left]
    by_cases he : k = key
    · subst he
      simp [ht.free]
    · simp [he]

theorem keeps_clearPort (h : Base s) (t : ℕ) : Keeps s (clearPort s t) :=
  ⟨h.bookkeeping rfl rfl (clearPort_queues s t) h.sequence h.blocks h.free h.key, rfl, rfl, fun _ => rfl⟩

theorem Base.not_running_receiver (h : Base s) (ha : Active s)
    (hm : t ∈ s.queues (.receiver p)) : t ≠ s.running := by
  rintro rfl
  obtain ⟨th, ht, hw⟩ := h.queued _ _ hm
  have := (h.thread _ th ht).of_receiver hw
  rw [ha th ht] at this
  cases this

def handedOver (th : Thread) : Thread :=
  th.setWait { th.wait with waiting := some (.reply (keyOfIpc th.wait.key)), type := .reply }

def handOver (s : State) (tp : ℕ) (th : Thread) : State :=
  link (unlink s tp (handedOver th)) (.reply (keyOfIpc th.wait.key)) tp

theorem Base.handOver {tp : ℕ} (h : Base s) (ht : s.threads tp = some th)
    (hty : th.wait.type = .call) : Base (handOver s tp th) := by
  have hok := h.thread tp th ht
  simp only [ThreadOk, hty] at hok
  obtain ⟨hb, hres, p', key, hw, hc, hkey⟩ := hok
  refine h.write rfl rfl rfl (h.id tp (by simp [ht]))
    ⟨hb, hres, key, congrArg (some ∘ Guard.reply) hkey, hc⟩ ?_ ?_ ?_
  · intro q u hu
    refine .inl ⟨?_, hu⟩
    rintro rfl
    refine h.not_ready ht ?_ q hu
    rcases hb with hb | hb <;> simp [Runnable, hb]
  · intro g u hu
    simp only [Kernel.handOver, link, update_apply] at hu
    split_ifs at hu with hg
    · subst hg
      rcases mem_append.mp hu with hu | hu
      · exact .inl ((h.nodup _).mem_erase_iff.mp hu)
      · exact .inr ⟨mem_singleton.mp hu, rfl⟩
    · exact .inl ((h.nodup g).mem_erase_iff.mp hu)
  · intro g
    simp only [Kernel.handOver, link, update_apply]
    split_ifs
    · exact ((h.nodup _).erase tp).append (nodup_singleton _) (disjoint_singleton.mpr (h.nodup _).not_mem_erase)
    · exact (h.nodup g).erase tp

end

theorem boot_base : Base boot := by
  have hinit : Valid (sequenceInitialize maxThread) maxThread := sequenceInitialize_valid (by decide)
  have hget : sequenceGet (sequenceInitialize maxThread) =
      (some 0, (sequenceGet (sequenceInitialize maxThread)).2) := by
    apply Prod.ext
    · decide
    · rfl
  have ht := sequenceGet_some hinit hget
  constructor
  · intro t th hth
    simp only [boot, update_apply] at hth
    split_ifs at hth
    · cases hth
      exact ThreadOk.of_type_none rfl rfl (by simp [Blocked]) (by simp)
  · intro t hth
    simp only [boot, update_apply] at hth
    split_ifs at hth with he
    · subst he
      decide
    · simp at hth
  · intro p t hm
    simp only [boot, update_apply] at hm
    split_ifs at hm
    · rw [mem_singleton.mp hm]
      exact ⟨{ setup maxPriority with status := .run, priority := maxPriority }, rfl, .inl rfl⟩
    · simp at hm
  · simp [boot]
  · simp [boot]
  · exact sequenceGet_valid hinit hget
  · exact ht.blocks
  · intro k
    show Free (sequenceGet (sequenceInitialize maxThread)).2 k ↔ _
    rw [ht.left, sequenceInitialize_free]
    simp [boot]
  · simp [boot]

theorem boot_active : Active boot := by
  intro th ht
  simp only [boot, update_self, Option.some.injEq] at ht
  subst ht
  rfl

end Eotan.Kernel
