import Eotan.Kernel.Delivery

namespace Eotan.Kernel

open Function
open List
open Option

def Prioritized : State → Prop := Every fun _ th => th.priority ≤ maxPriority

variable {e : Event} {o : Outcome} {s : State}

theorem prioritized_lasting : Lasting fun _ th => th.priority ≤ maxPriority := by
  refine ⟨fun _ _ => Nat.zero_le _, ?_⟩
  intro t th th' hr h
  cases hr with
  | fire hp => exact hp
  | _ => exact h

theorem step_prioritized (hb : Base s) (ha : Active s)
    (hs : step s e = some o) (h : Prioritized s) : Prioritized o.state :=
  (step_ran hb ha hs).every prioritized_lasting h

theorem boot_prioritized : Prioritized boot := by
  intro t th ht
  simp only [boot, update_apply] at ht
  split_ifs at ht
  cases ht
  exact le_rfl

structure Settled (s : State) : Prop where
  base : Base s
  active : Active s
  prioritized : Prioritized s

theorem Settled.step (h : Settled s) (hs : step s e = some o) : Settled o.state := by
  have hk := step_stepped h.base h.active hs
  exact ⟨hk.base, hk.active, step_prioritized h.base h.active hs h.prioritized⟩

theorem Reachable.settled {P : State → Event → Prop} (h : Reachable P s) : Settled s := by
  induction h with
  | boot => exact ⟨boot_base, boot_active, boot_prioritized⟩
  | step _ _ hs ih => exact ih.step hs

structure Looks (s : State) (p : ℕ) : Prop where
  user : contOf s s.running = some .user
  clear : ∃ self, s.threads s.running = some self ∧ self.port.flag = 0
  opened : Opened s p

section

variable {s : State} {g : Guard} {p tp m : ℕ} {rest : List ℕ} {th : Thread}

theorem listRemove_of_mem (h : Base s) (hm : tp ∈ s.queues g) (ht : s.threads tp = some th) :
    listRemove s tp = some { s with
      threads := update s.threads tp (some (th.setWait { th.wait with waiting := none }))
      queues := fun g => (s.queues g).erase tp } := by
  obtain ⟨th', ht', hw⟩ := h.queued g tp hm
  rw [ht] at ht'
  cases ht'
  have hsome : ∃ s', listRemove s tp = some s' := by
    simp only [listRemove, ht, hw, bind_eq_bind, bind_some, if_pos hm]
    exact ⟨_, rfl⟩
  obtain ⟨s', hs'⟩ := hsome
  obtain ⟨th', ht', rfl⟩ := listRemove_eq h hs'
  rw [ht] at ht'
  cases ht'
  exact hs'

theorem wake_of_mem (h : Settled s) (hm : tp ∈ s.queues g) (ht : s.threads tp = some th) (f : Wait → Wait) :
    wake s tp f = some (roused s tp th f) := by
  have hsome : ∃ s', wake s tp f = some s' := by
    simp only [wake, listRemove_of_mem h.base hm ht, release, bind_eq_bind, bind_some,
      update_self, State.set_threads]
    split_ifs
    · rw [readyEnqueue, if_pos (by exact h.prioritized tp th ht)]
      exact ⟨_, rfl⟩
    · exact ⟨_, rfl⟩
  obtain ⟨s', hs'⟩ := hsome
  obtain ⟨th', ht', -, rfl⟩ := wake_roused h.base (h.base.blocked_of_mem hm) hs'
  rw [ht] at ht'
  cases ht'
  exact hs'

theorem Looks.step_eq (hl : Looks s p) (copyOk : Bool) :
    step s (.op (.ipcReceive p m copyOk)) = ipcReceive s p m copyOk := by
  obtain ⟨huser, ⟨self, hself, -⟩, -⟩ := hl
  have hcont : self.cont = .user := by
    rw [contOf, hself] at huser
    exact some.inj huser
  simp only [step, hself, bind_eq_bind, bind_some, if_pos hcont, apply]

theorem Looks.refused (hl : Looks s p) (hq : s.queues (.caller p) = tp :: rest)
    (ht : s.threads tp = some th) : step s (.op (.ipcReceive p m false)) = leave s ePar := by
  rw [hl.step_eq]
  obtain ⟨-, ⟨self, hself, hflag⟩, thp, hthp, hopen⟩ := hl
  simp [ipcReceive, hself, hflag, hthp, hopen, hq, ht]

def told (th : Thread) (s : State) : Outcome := ⟨s, some th.wait.size, some th.wait.key, some th.wait.key⟩

theorem Looks.called (hl : Looks s p) (h : Base s) (hq : s.queues (.caller p) = tp :: rest)
    (ht : s.threads tp = some th) (hty : th.wait.type = .call) :
    step s (.op (.ipcReceive p m true)) = (s.replies (keyOfIpc th.wait.key)).bind fun _ =>
      (leaveSerialize (handOver s tp th)).map (told th) := by
  have hm := mem_of_head hq
  rw [hl.step_eq]
  obtain ⟨-, ⟨self, hself, hflag⟩, thp, hthp, hopen⟩ := hl
  simp only [ipcReceive, hself, hflag, hthp, hopen, hq, ht, hty, listRemove_of_mem h hm ht, listEnqueue,
    bind_eq_bind, bind_some, ne_eq, not_true_eq_false, if_false, Bool.true_eq_false,
    update_self, State.set, update_idem]
  cases s.replies (keyOfIpc th.wait.key) with
  | none => rfl
  | some max => exact (map_eq_bind ..).symm

theorem Looks.sent (hl : Looks s p) (h : Settled s) (hq : s.queues (.caller p) = tp :: rest)
    (ht : s.threads tp = some th) (hty : th.wait.type = .send) :
    step s (.op (.ipcReceive p m true)) = (leaveSerialize (roused s tp th id)).map (told th) := by
  have hm := mem_of_head hq
  rw [hl.step_eq]
  obtain ⟨-, ⟨self, hself, hflag⟩, thp, hthp, hopen⟩ := hl
  simp only [ipcReceive, hself, hflag, hthp, hopen, hq, ht, hty, wake_of_mem h hm ht,
    bind_eq_bind, bind_some, ne_eq, not_true_eq_false, if_false, Bool.true_eq_false]
  exact (map_eq_bind ..).symm

theorem tail_callers {s' : State} (hm : Tail s s') (h : Base s) (p : ℕ) :
    s'.queues (.caller p) = s.queues (.caller p) := by
  cases hm with
  | switch => rfl
  | note hm =>
    cases hm with
    | mark => rfl
    | raise => rfl
    | rouse t th ht hp hty =>
      rw [roused_queues]
      apply erase_of_not_mem
      apply h.not_queued ht
      have hok := h.thread t th ht
      rcases hty with hty | hty <;> simp only [ThreadOk, hty] at hok
      · simp [hok.2.1]
      · obtain ⟨-, p', hw, -⟩ := hok
        simp [hw]

theorem leaveSerialize_callers {s' : State} (h : Base s) (hl : leaveSerialize s = some s') (p : ℕ) :
    s'.queues (.caller p) = s.queues (.caller p) := by
  refine (keeps_run (P := fun x => Base x ∧ x.queues (.caller p) = s.queues (.caller p)) ?_
    ((Leaves.serialize hl).tails h) ⟨h, rfl⟩).2
  rintro x y hm ⟨hx, hq⟩
  exact ⟨(hm.still hx).keeps.base, (tail_callers hm hx p).trans hq⟩

theorem Looks.takes (hl : Looks s p) (h : Settled s) (hq : s.queues (.caller p) = tp :: rest)
    (hs : step s (.op (.ipcReceive p m true)) = some o) : o.tag.isSome ∧ o.state.queues (.caller p) = rest := by
  have hm := mem_of_head hq
  obtain ⟨th, ht, hw⟩ := h.base.queued _ tp hm
  rcases (h.base.thread tp th ht).type_of_caller hw with hty | hty
  · rw [hl.called h.base hq ht hty] at hs
    simp only [bind_eq_some_iff, map_eq_some_iff] at hs
    obtain ⟨max, -, s', hs', rfl⟩ := hs
    refine ⟨rfl, (leaveSerialize_callers (h.base.handOver ht hty) hs' p).trans ?_⟩
    rw [handOver_queues (by simp), hq, erase_cons_head]
  · rw [hl.sent h hq ht hty] at hs
    simp only [map_eq_some_iff] at hs
    obtain ⟨s', hs', rfl⟩ := hs
    have hbase : Base (roused s tp th id) := wake_base h.base (fun _ => rfl) (wake_of_mem h hm ht id)
    refine ⟨rfl, (leaveSerialize_callers hbase hs' p).trans ?_⟩
    rw [roused_queues, hq, erase_cons_head]

end

def Grows (s s' : State) (p : ℕ) : Prop :=
  ∃ x, (∀ u ∈ x, u ∉ s.queues (.caller p)) ∧ (s'.queues (.caller p)).Sublist (s.queues (.caller p) ++ x)

section

variable {s s' : State} {o : Outcome} {self : Thread} {p q m size : ℕ}

theorem grows_of_sublist (h : (s'.queues (.caller p)).Sublist (s.queues (.caller p))) : Grows s s' p := by
  refine ⟨[], fun u hu => absurd hu not_mem_nil, ?_⟩
  rw [append_nil]
  exact h

theorem Calm.grows (h : Calm s s') (p : ℕ) : Grows s s' p := grows_of_sublist (h.callers p)

theorem waiting_grows {g : Guard} {f : Wait → Wait} {c : Cont} (h : Base s) (ha : Active s)
    (ht : s.threads s.running = some self) (hb : Base (waiting s self g f c))
    (hl : leaveSerializeAndDispatch (waiting s self g f c) = some s') (p : ℕ) : Grows s s' p := by
  refine ⟨[s.running], ?_, ((Leaves.dispatch hl).calm hb).callers p |>.trans ?_⟩
  · exact forall_mem_singleton.mpr (h.running_not_queued ha ht _)
  · rw [waiting_queues]
    split_ifs
    · exact List.Sublist.refl _
    · exact sublist_append_left _ _

theorem CallCase.grows (hc : CallCase s self q m size o) (ha : Active s)
    (ht : s.threads s.running = some self) (p : ℕ) : Grows s o.state p := by
  cases hc with
  | refused hr => exact (hr.1.calm fun _ _ => act_calm).grows p
  | handed key max tp sq rest th s2 s3 s' hg hkey hnone hq htp hpl hne hs2 hs3 hb1 hb2 hb3 hl =>
    refine grows_of_sublist ((((Leaves.dispatch hl).calm hb3).callers p).trans ?_)
    rw [hs3, waiting_queues, if_neg (by simp), hs2, roused_queues]
    exact erase_sublist
  | queued key max sq s2 s' hg hkey hnone hopen hq hs2 hb1 hb2 hl =>
    rw [hs2] at hb2 hl
    exact waiting_grows hb1 ha ht hb2 hl p

theorem SendCase.grows (hc : SendCase s self q m size o) (h : Base s) (ha : Active s)
    (ht : s.threads s.running = some self) (p : ℕ) : Grows s o.state p := by
  cases hc with
  | refused hr => exact (hr.1.calm fun _ _ => act_calm).grows p
  | handed tp rest th s2 s' hq htp hpl hne hs2 hb2 hl =>
    refine grows_of_sublist ((((Leaves.serialize hl).calm hb2).callers p).trans ?_)
    rw [hs2, roused_queues]
    exact erase_sublist
  | queued s2 s' hopen hq hs2 hb2 hl =>
    rw [hs2] at hb2 hl
    exact waiting_grows h ha ht hb2 hl p

theorem ReceiveCase.grows (hc : ReceiveCase s self q m o) (h : Base s) (ha : Active s)
    (ht : s.threads s.running = some self) (p : ℕ) : Grows s o.state p := by
  cases hc with
  | refused hr => exact (hr.1.calm fun _ _ => act_calm).grows p
  | heeded s' hflag hb hl =>
    exact ((heed_calm (.consume self ht)).trans ((Leaves.serialize hl).calm hb)).grows p
  | called tp rest th s2 s' hq htp hty hentry hne hs2 hb2 hl =>
    rw [hs2] at hb2 hl
    exact ((calm_handOver htp).trans ((Leaves.serialize hl).calm hb2)).grows p
  | sent tp rest th s2 s' hq htp hty hpl hne hs2 hb2 hl =>
    refine grows_of_sublist ((((Leaves.serialize hl).calm hb2).callers p).trans ?_)
    rw [hs2, roused_queues]
    exact erase_sublist
  | queued s2 s' hflag hopen hq hs2 hb2 hl =>
    rw [hs2] at hb2 hl
    exact waiting_grows h ha ht hb2 hl p

theorem step_grows (h : Base s) (ha : Active s) (hs : step s e = some o) (p : ℕ) : Grows s o.state p := by
  by_cases he : e.Plain
  · exact ((step_ran h ha hs).calm fun _ _ => move_calm he).grows p
  cases e with
  | op op =>
    simp only [step, bind_eq_bind, bind_eq_some_iff] at hs
    obtain ⟨th, ht, ho⟩ := hs
    split_ifs at ho
    cases op with
    | ipcCall q m size allocOk copyOk => exact (ipcCall_cases h ha ht ho).1.grows ha ht p
    | ipcReceive q m copyOk => exact (ipcReceive_cases h ha ht ho).1.grows h ha ht p
    | ipcSend tag m size copyOk =>
      have hkey : ¬keyOfIpc tag ≠ 0 := he
      simp only [apply, ipcSend, if_neg hkey] at ho
      exact (send_cases h ha ht ho).1.grows h ha ht p
    | _ => exact absurd trivial he
  | _ => exact absurd trivial he

end

theorem split_of_sublist {q l r x : List ℕ} {t : ℕ} (hsub : q.Sublist (l ++ t :: r ++ x)) (hm : t ∈ q)
    (hl : t ∉ l) (hr : t ∉ r) (hx : t ∉ x) : ∃ l' r', q = l' ++ t :: r' ∧ l'.Sublist l := by
  rw [append_assoc, cons_append] at hsub
  obtain ⟨a, b, rfl, ha, hb⟩ := sublist_append_iff.mp hsub
  have htb : t ∈ b := by
    rcases mem_append.mp hm with hta | htb
    · exact absurd (ha.subset hta) hl
    · exact htb
  cases hb with
  | cons _ hb =>
    rcases mem_append.mp (hb.subset htb) with hin | hin
    · exact absurd hin hr
    · exact absurd hin hx
  | cons_cons _ hb => exact ⟨a, _, rfl, ha⟩

/-- A run in which the caller `t` is not made to leave the queue of the port: the number of calls of
`ipc_receive` that looked at the queue, and the callers and senders whose message they returned. -/
inductive Serving (copyable : ℕ → Bool) (p t : ℕ) (s₀ : State) : ℕ → List ℕ → State → Prop
  | start : Serving copyable p t s₀ 0 [] s₀
  | look {n : ℕ} {got : List ℕ} {s : State} {m tp : ℕ} {rest : List ℕ} {o : Outcome} :
    Serving copyable p t s₀ n got s → Looks s p → s.queues (.caller p) = tp :: rest →
    step s (.op (.ipcReceive p m (copyable tp))) = some o →
    Serving copyable p t s₀ (n + 1) (if o.tag.isSome then got ++ [tp] else got) o.state
  | empty {n : ℕ} {got : List ℕ} {s : State} {m : ℕ} {copyOk : Bool} {o : Outcome} :
    Serving copyable p t s₀ n got s → Looks s p → s.queues (.caller p) = [] →
    step s (.op (.ipcReceive p m copyOk)) = some o → Serving copyable p t s₀ (n + 1) got o.state
  | other {n : ℕ} {got : List ℕ} {s : State} {e : Event} {o : Outcome} :
    Serving copyable p t s₀ n got s → (∀ m copyOk, e = .op (.ipcReceive p m copyOk) → ¬Looks s p) →
    step s e = some o → (t ∈ s.queues (.caller p) → t ∈ o.state.queues (.caller p)) →
    Serving copyable p t s₀ n got o.state

section

variable {copyable : ℕ → Bool} {s₀ s : State} {p t n : ℕ} {l r got : List ℕ}

def Advanced (p t n : ℕ) (l got : List ℕ) (s : State) : Prop :=
  t ∈ got ∨ ∃ l' r', s.queues (.caller p) = l' ++ t :: r' ∧ l'.Sublist l ∧ l'.length + n ≤ l.length

theorem Serving.advanced (hrun : Serving copyable p t s₀ n got s) (h : Settled s₀)
    (hq : s₀.queues (.caller p) = l ++ t :: r) (hcopy : ∀ u ∈ l ++ [t], copyable u = true) :
    Settled s ∧ Advanced p t n l got s := by
  induction hrun with
  | start => exact ⟨h, .inr ⟨l, r, hq, List.Sublist.refl l, le_rfl⟩⟩
  | @look n got s m tp rest o _ hl hhead hs ih =>
    obtain ⟨hset, hadv⟩ := ih
    refine ⟨hset.step hs, ?_⟩
    rcases hadv with hgot | ⟨l', r', hq', hsub, hlen⟩
    · left
      split_ifs
      · exact mem_append_left _ hgot
      · exact hgot
    rw [hq'] at hhead
    cases l' with
    | nil =>
      -- it is the first one now
      obtain ⟨rfl, rfl⟩ := cons.inj hhead
      rw [hcopy t (by simp)] at hs
      left
      rw [if_pos (hl.takes hset hq' hs).1]
      exact mem_append_right _ (mem_singleton_self t)
    | cons u l' =>
      obtain ⟨rfl, rfl⟩ := cons.inj hhead
      rw [hcopy u (mem_append_left _ (hsub.subset mem_cons_self))] at hs
      right
      refine ⟨l', r', (hl.takes hset hq' hs).2, (sublist_cons_self u l').trans hsub, ?_⟩
      rw [length_cons] at hlen
      omega
  | @empty n got s m copyOk o _ hl hnone hs ih =>
    obtain ⟨hset, hadv⟩ := ih
    refine ⟨hset.step hs, hadv.imp_right ?_⟩
    rintro ⟨l', r', hq', -⟩
    rw [hnone] at hq'
    exact absurd hq'.symm (by simp)
  | @other n got s e o _ _ hs hstay ih =>
    obtain ⟨hset, hadv⟩ := ih
    refine ⟨hset.step hs, hadv.imp_right ?_⟩
    rintro ⟨l', r', hq', hsub, hlen⟩
    obtain ⟨x, hx, hgrow⟩ := step_grows hset.base hset.active hs p
    have hmem : t ∈ s.queues (.caller p) := by
      rw [hq']
      simp
    have hnodup := hset.base.nodup (.caller p)
    rw [hq', nodup_append] at hnodup
    have htl : t ∉ l' := fun hin => hnodup.2.2 t hin t mem_cons_self rfl
    have htr : t ∉ r' := (nodup_cons.mp hnodup.2.1).1
    rw [hq'] at hgrow
    obtain ⟨l'', r'', hq'', hsub'⟩ := split_of_sublist hgrow (hstay hmem) htl htr fun hin => hx t hin hmem
    exact ⟨l'', r'', hq'', hsub'.trans hsub, by have := hsub'.length_le; omega⟩

end

def letter (s : State) (u : ℕ) : Option ℤ × Option ℕ :=
  ((s.threads u).map fun th => th.wait.size, (s.threads u).map fun th => th.wait.key)

def Held (s : State) (u : ℕ) : Prop :=
  ∀ th, s.threads u = some th → th.wait.type = .call → (s.replies (keyOfIpc th.wait.key)).isSome

def serve (copyable : ℕ → Bool) (p m : ℕ) : ℕ → State → Option (State × List (Option ℤ × Option ℕ))
  | 0, s => some (s, [])
  | n + 1, s => do
    let o ← step s (.op (.ipcReceive p m (copyable ((s.queues (.caller p)).headD 0))))
    let (s', letters) ← serve copyable p m n o.state
    some (s', (o.ret, o.tag) :: letters)

structure Received (s s' : State) (p tp : ℕ) (rest : List ℕ) : Prop where
  queue : s'.queues (.caller p) = rest
  running : s'.running = s.running
  noRequest : s'.noRequest = s.noRequest
  replies : s'.replies = s.replies
  thread : ∃ th th', s.threads tp = some th ∧ s'.threads = Function.update s.threads tp (some th') ∧
    th'.port = th.port

section

variable {copyable : ℕ → Bool} {s s' : State} {p m tp : ℕ} {l r rest : List ℕ}

theorem Looks.not_queued (hl : Looks s p) (h : Settled s) (g : Guard) : s.running ∉ s.queues g := by
  obtain ⟨self, hself, -⟩ := hl.clear
  apply h.base.not_queued hself
  simp [(h.base.thread _ _ hself).waiting_none (h.active self hself)]

theorem Received.looks (hr : Received s s' p tp rest) (hl : Looks s p) (hne : tp ≠ s.running) : Looks s' p := by
  obtain ⟨th, th', ht, hts, hport⟩ := hr.thread
  obtain ⟨huser, ⟨self, hself, hflag⟩, thp, hthp, hopen⟩ := hl
  have hself' : s'.threads s'.running = some self := by
    rw [hr.running, hts, update_of_ne hne.symm, hself]
  refine ⟨?_, ⟨self, hself', hflag⟩, ?_⟩
  · rw [contOf, hself', ← hself]
    exact huser
  · by_cases hp : p = tp
    · refine ⟨th', by rw [hts, hp, update_self], ?_⟩
      rw [hp, ht] at hthp
      cases hthp
      rw [hport]
      exact hopen
    · exact ⟨thp, by rw [hts, update_of_ne hp, hthp], hopen⟩

theorem Received.threads_of_ne (hr : Received s s' p tp rest) {u : ℕ} (hne : u ≠ tp) :
    s'.threads u = s.threads u := by
  obtain ⟨th, th', -, hts, -⟩ := hr.thread
  rw [hts, update_of_ne hne]

theorem Looks.receives (hl : Looks s p) (h : Settled s) (hn : s.noRequest = true)
    (hq : s.queues (.caller p) = tp :: rest) (hheld : Held s tp) :
    ∃ o, step s (.op (.ipcReceive p m true)) = some o ∧ (o.ret, o.tag) = letter s tp ∧
      Received s o.state p tp rest := by
  have hm := mem_of_head hq
  obtain ⟨th, ht, hw⟩ := h.base.queued _ tp hm
  rcases (h.base.thread tp th ht).type_of_caller hw with hty | hty
  · obtain ⟨max, hmax⟩ := isSome_iff_exists.mp (hheld th ht hty)
    have hleave : leaveSerialize (handOver s tp th) = some (handOver s tp th) := if_pos hn
    refine ⟨told th (handOver s tp th), ?_, ?_, ?_⟩
    · rw [hl.called h.base hq ht hty, hmax, hleave]
      rfl
    · simp [told, letter, ht]
    · refine ⟨?_, rfl, rfl, rfl, th, handedOver th, ht, rfl, rfl⟩
      exact (handOver_queues (by simp)).trans (by rw [hq, erase_cons_head])
  · have hno : (roused s tp th id).noRequest = s.noRequest := by
      unfold roused
      split_ifs <;> rfl
    have hreplies : (roused s tp th id).replies = s.replies := by
      unfold roused
      split_ifs <;> rfl
    have hleave : leaveSerialize (roused s tp th id) = some (roused s tp th id) := if_pos (hno.trans hn)
    refine ⟨told th (roused s tp th id), ?_, ?_, ?_⟩
    · rw [hl.sent h hq ht hty, hleave]
      rfl
    · simp [told, letter, ht]
    · refine ⟨?_, roused_running .., hno, hreplies, th, woken th id, ht, roused_threads .., rfl⟩
      exact (roused_queues ..).trans (by rw [hq, erase_cons_head])

theorem serve_receives (h : Settled s) (hl : Looks s p) (hn : s.noRequest = true)
    (hq : s.queues (.caller p) = l ++ r) (hcopy : ∀ u ∈ l, copyable u = true) (hheld : ∀ u ∈ l, Held s u) :
    ∃ s', serve copyable p m l.length s = some (s', l.map (letter s)) := by
  induction l generalizing s with
  | nil => exact ⟨s, rfl⟩
  | cons tp l ih =>
    obtain ⟨o, hs, hletter, hr⟩ := hl.receives h hn hq (hheld tp mem_cons_self) (m := m)
    have hne : tp ≠ s.running := by
      rintro rfl
      apply hl.not_queued h (.caller p)
      rw [hq]
      exact mem_cons_self
    have hnodup : tp ∉ l := by
      have hnd := h.base.nodup (.caller p)
      rw [hq] at hnd
      exact fun hin => (nodup_cons.mp hnd).1 (mem_append_left r hin)
    -- the others still wait with their messages
    have hsame (u : ℕ) (hu : u ∈ l) : o.state.threads u = s.threads u :=
      hr.threads_of_ne fun heq => hnodup (heq ▸ hu)
    obtain ⟨s', hs'⟩ := ih (h.step hs) (hr.looks hl hne) (hr.noRequest.trans hn) hr.queue
      (fun u hu => hcopy u (mem_cons_of_mem tp hu)) (fun u hu th ht hty => by
        rw [hr.replies]
        exact hheld u (mem_cons_of_mem tp hu) th (hsame u hu ▸ ht) hty)
    have hletters : l.map (letter o.state) = l.map (letter s) := by
      apply map_congr_left
      intro u hu
      rw [letter, letter, hsame u hu]
    refine ⟨s', ?_⟩
    have hhead : copyable ((s.queues (.caller p)).headD 0) = true := by
      rw [hq]
      exact hcopy tp mem_cons_self
    rw [length_cons, serve, hhead, hs, map_cons, ← hletters, ← hletter]
    simp only [bind_eq_bind, bind_some, hs']

theorem queued_messages_received (copyable : ℕ → Bool) {P : State → Event → Prop} {t : ℕ} (h : Reachable P s)
    (hq : s.queues (.caller p) = l ++ t :: r) (hcopy : ∀ u ∈ l ++ [t], copyable u = true) :
    (∀ n got s', Serving copyable p t s n got s' → l.length < n → t ∈ got) ∧
    (Looks s p → s.noRequest = true → (∀ u ∈ l ++ [t], Held s u) → ∀ m, ∃ s',
      serve copyable p m (l.length + 1) s = some (s', (l ++ [t]).map (letter s))) := by
  refine ⟨?_, ?_⟩
  · intro n got s' hrun hlen
    obtain ⟨-, hgot | ⟨l', r', -, -, hle⟩⟩ := hrun.advanced h.settled hq hcopy
    · exact hgot
    · omega
  · intro hl hn hheld m
    have hq' : s.queues (.caller p) = (l ++ [t]) ++ r := by rw [hq, append_assoc, singleton_append]
    have hserve := serve_receives (m := m) h.settled hl hn hq' hcopy hheld
    rwa [length_append, length_singleton] at hserve

theorem serve_stuck {th : Thread} (hl : Looks s p) (hn : s.noRequest = true)
    (hq : s.queues (.caller p) = tp :: rest) (ht : s.threads tp = some th) (hcopy : copyable tp = false)
    (n : ℕ) : serve copyable p m n s = some (s, replicate n (some ePar, none)) := by
  induction n with
  | zero => rfl
  | succ n ih =>
    have hstep : step s (.op (.ipcReceive p m false)) = some ⟨s, some ePar, none, none⟩ := by
      rw [hl.refused hq ht, leave, leaveSerialize, if_pos hn]
      rfl
    have hhead : copyable ((s.queues (.caller p)).headD 0) = false := by
      rw [hq]
      exact hcopy
    rw [serve, hhead, hstep]
    simp only [bind_eq_bind, bind_some, ih]
    rfl

end

def backlogRun : List Event :=
  queueRun ++ [.op (.threadCreate 5 taAct 3 kthreadStackSize true true), .op (.ipcCall 3 0 8 true true),
    .op (.ipcNotify 3 1), .switch 3, .finish]

structure BacklogView where
  queue : List ℕ
  running : ℕ
  server : Option (Cont × ℕ × Bool)
  noRequest : Bool
  keys : List (Option ℕ)
  entries : List (Option ℕ)
deriving DecidableEq

def backlogView (s : State) : BacklogView where
  queue := s.queues (.caller 3)
  running := s.running
  server := (s.threads 3).map fun th => (th.cont, th.port.flag, th.port.opened)
  noRequest := s.noRequest
  keys := [4, 5].map fun t => (s.threads t).map fun th => keyOfIpc th.wait.key
  entries := [s.replies 1, s.replies 2]

theorem backlogRun_view : ∃ s, run boot backlogRun = some s ∧
    backlogView s = ⟨[4, 5], 3, some (.user, 0, true), true, [some 1, some 2], [some 16, some 16]⟩ := by
  apply map_eq_some_iff.mp
  decide +kernel

theorem looks_of_view {v : BacklogView} (h : backlogView s = v) (hr : v.running = 3)
    (hv : v.server = some (.user, 0, true)) : Looks s 3 := by
  have hrun : s.running = 3 := by
    rw [← hr, ← h]
    rfl
  have hserver : (s.threads 3).map (fun th => (th.cont, th.port.flag, th.port.opened)) =
      some (.user, 0, true) := by
    rw [← hv, ← h]
    rfl
  obtain ⟨self, hself, hx⟩ := map_eq_some_iff.mp hserver
  simp only [Prod.mk.injEq] at hx
  refine ⟨?_, ⟨self, by rw [hrun, hself], hx.2.1⟩, self, hself, hx.2.2⟩
  rw [contOf, hrun, hself, map_some, hx.1]

theorem queued_messages_received_sample : ∃ s, run boot backlogRun = some s ∧
    s.queues (.caller 3) = [4, 5] ∧ ∃ s', serve (fun _ => true) 3 0 2 s = some (s', [4, 5].map (letter s)) := by
  obtain ⟨s, hrun, hv⟩ := backlogRun_view
  have hreach : Reachable (fun _ _ => True) s := Reachable.boot.run hrun fun _ _ _ => trivial
  have hq : s.queues (.caller 3) = [4, 5] := congrArg BacklogView.queue hv
  have hn : s.noRequest = true := congrArg BacklogView.noRequest hv
  have hkeys : [4, 5].map (fun t => (s.threads t).map fun th => keyOfIpc th.wait.key) = [some 1, some 2] :=
    congrArg BacklogView.keys hv
  have hentries : [s.replies 1, s.replies 2] = [some 16, some 16] := congrArg BacklogView.entries hv
  simp only [map_cons, map_nil, cons.injEq, and_true] at hkeys hentries
  have hheld : ∀ u ∈ [4] ++ [5], Held s u := by
    intro u hu th ht _
    have hcases : u = 4 ∨ u = 5 := by simpa using hu
    rcases hcases with rfl | rfl
    · rw [ht, map_some, some.injEq] at hkeys
      simp [hkeys.1, hentries.1]
    · rw [ht, map_some, some.injEq] at hkeys
      simp [hkeys.2, hentries.2]
  have hall := queued_messages_received (fun _ => true) (l := [4]) (r := []) hreach hq fun _ _ => rfl
  exact ⟨s, hrun, hq, hall.2 (looks_of_view hv rfl rfl) hn hheld 0⟩

/-- The message of thread 4 cannot be copied, and that of thread 5 behind it is never received. -/
theorem bad_caller_blocks : ∃ s, run boot backlogRun = some s ∧ s.queues (.caller 3) = [4, 5] ∧
    ∀ n, serve (fun t => t ≠ 4) 3 0 n s = some (s, List.replicate n (some ePar, none)) := by
  obtain ⟨s, hrun, hv⟩ := backlogRun_view
  have hq : s.queues (.caller 3) = [4, 5] := congrArg BacklogView.queue hv
  have hbase : Base s := (Reachable.boot.run hrun fun _ _ _ => trivial : Reachable (fun _ _ => True) s).base.1
  obtain ⟨th, ht, -⟩ := hbase.queued (.caller 3) 4 (by rw [hq]; simp)
  refine ⟨s, hrun, hq, ?_⟩
  exact serve_stuck (looks_of_view hv rfl rfl) (congrArg BacklogView.noRequest hv) hq ht rfl

end Eotan.Kernel
