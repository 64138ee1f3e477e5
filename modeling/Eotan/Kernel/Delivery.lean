import Eotan.Kernel.Ports

namespace Eotan.Kernel

open Function
open List

def contOf (s : State) (t : ℕ) : Option Cont := (s.threads t).map Thread.cont

variable {s s' : State} {th : Thread}

theorem contOf_update {t : ℕ} {th' : Thread} (ht : s.threads t = some th)
    (hts : s'.threads = update s.threads t (some th')) (hc : th'.cont = th.cont) (u : ℕ) :
    contOf s' u = contOf s u := by
  by_cases hu : u = t
  · subst hu
    simp [contOf, hts, ht, hc]
  · simp [contOf, hts, hu]

theorem note_cont (hm : Note s s') (u : ℕ) : contOf s' u = contOf s u := by
  cases hm with
  | mark noRequest delay bits hbits => rfl
  | raise t flag th ht _ _ =>
    refine contOf_update ht rfl ?_ u
    rfl
  | rouse t th ht hp _ =>
    refine contOf_update ht (roused_threads ..) ?_ u
    rfl

theorem tail_cont (hm : Tail s s') (u : ℕ) : contOf s' u = contOf s u := by
  cases hm with
  | note hm => exact note_cont hm u
  | switch next prev th hprev ht hr hne =>
    have hview : (yielded prev).cont = prev.cont := by
      unfold yielded
      split_ifs <;> rfl
    have h1 : contOf (s.set s.running (yielded prev)) u = contOf s u := contOf_update hprev rfl hview u
    rw [← h1]
    refine contOf_update ((update_of_ne hne ..).trans ht) rfl ?_ u
    rfl

theorem Leaves.cont (hl : Leaves s s') (hb : Base s) (u : ℕ) : contOf s' u = contOf s u := by
  exact keeps_run (P := fun x => contOf x u = contOf s u)
    (fun _ _ hm he => (tail_cont hm u).trans he) (hl.tails hb) rfl

theorem Base.running_not_queued (h : Base s) (ha : Active s) (ht : s.threads s.running = some th)
    (g : Guard) : s.running ∉ s.queues g := by
  apply h.not_queued ht
  simp [(h.thread _ _ ht).waiting_none (ha th ht)]

section

variable (s : State) (th : Thread) (g : Guard) (f : Wait → Wait) (c : Cont)

theorem waiting_queues (g' : Guard) : (waiting s th g f c).queues g' =
      if g' = g then s.queues g' ++ [s.running] else s.queues g' := by
  simp only [waiting, link, parked, readyRemove, State.set_queues, update_apply]
  split_ifs with he
  · rw [he]
  · rfl

theorem waiting_threads : (waiting s th g f c).threads =
      update s.threads s.running (some (blocked th g f c)) := rfl

theorem contOf_waiting : contOf (waiting s th g f c) s.running = some c := by
  simp [contOf, waiting_threads, blocked]

end

section

variable {s : State} {l : Log} {o : Outcome} {self : Thread} {p m size : ℕ}

theorem sentTag_call {key : ℕ} (hc : contOf o.state s.running = some (.call key)) :
    sentTag s o = createIpcTag s.running key := by
  unfold contOf at hc
  simp only [sentTag, hc]

variable {c : Cont} {tag tp : ℕ}

theorem sentTag_plain (hc : contOf o.state s.running = some c)
    (hn : ∀ key, c ≠ .call key) : sentTag s o = createIpcTag s.running 0 := by
  unfold contOf at hc
  unfold sentTag
  rw [hc]
  split
  · rename_i key he
    cases he
    exact absurd rfl (hn key)
  · rfl

theorem recordPost_refused (hr : Refused s o) : recordPost l s o p size = l := by
  obtain ⟨-, hret, -, hh⟩ := hr
  obtain ⟨x, hx⟩ := Option.isSome_iff_exists.mp hret
  simp [recordPost, hh, hx]

theorem recordPost_handed {rest : List ℕ} (hq : s.queues (.receiver p) = tp :: rest)
    (hh : o.handed.isSome) (ht : sentTag s o = tag) :
    recordPost l s o p size = l.deliver tp ⟨p, s.running, tag, size⟩ := by
  simp [recordPost, hh, hq, ht]

theorem recordPost_queued (hh : o.handed = none) (hr : o.ret = none) (ht : sentTag s o = tag) :
    recordPost l s o p size = l.post s.running ⟨p, s.running, tag, size⟩ := by
  simp [recordPost, hh, hr, ht]

theorem Posted.hand {rest : List ℕ} (hp : Posted s l) (h : Base s)
    (hq : s.queues (.receiver p) = tp :: rest) (ht : s.threads tp = some th) (htag : portOfIpc tag = s.running) :
    Posted (roused s tp th (message size tag)) (l.deliver tp ⟨p, s.running, tag, size⟩) := by
  have hm := mem_of_head hq
  obtain ⟨th', ht', hwait, -⟩ := h.queued_blocked hm
  rw [ht] at ht'
  cases ht'
  refine hp.deliver (p := p) ?_ ?_ ?_ ?_ ?_ (hp.asks p tp hm) rfl htag
  · rcases hp.one p with he | he
    · exact he
    · rw [hq] at he
      cases he
  · intro p'
    rw [roused_queues]
    exact erase_sublist
  · intro p'
    rw [roused_queues]
    exact erase_sublist
  · intro p' u hu
    rw [roused_queues] at hu
    rw [mailOf_update (roused_threads s tp th (message size tag)), if_neg]
    rintro rfl
    exact h.not_queued ht (by simp [hwait]) (mem_of_mem_erase hu)
  · intro u x hx
    rw [heldOf_update (roused_threads s tp th (message size tag))] at hx
    split_ifs at hx with he
    · refine .inl ⟨he, ?_⟩
      unfold heldView at hx
      split_ifs at hx
      cases hx
      rfl
    · exact .inr ⟨he, hx⟩

theorem Posted.queue {f : Wait → Wait} (hp : Posted s l) (h : Base s)
    (ha : Active s) (ht : s.threads s.running = some self) (hq : s.queues (.receiver p) = [])
    (hf : ∀ w, (f w).key = tag ∧ (f w).size = size) (hc : c ≠ .receive) (htag : portOfIpc tag = s.running) :
    Posted (waiting s self (.caller p) f c) (l.post s.running ⟨p, s.running, tag, size⟩) := by
  refine hp.post (p := p) (fun p' => h.running_not_queued ha ht _) hq ?_ ?_ ?_ ?_ rfl htag
  · intro p'
    rw [waiting_queues]
    simp only [Guard.caller.injEq]
  · intro p'
    rw [waiting_queues, if_neg (by simp)]
  · intro t
    rw [mailOf_update (waiting_threads s self (.caller p) f c)]
    have := hf { self.wait with waiting := some (.caller p) }
    simp only [blocked, Thread.setCont_wait, Thread.setStatus_wait, Thread.setWait_wait, this]
  · intro t x hx
    rw [heldOf_update (waiting_threads s self (.caller p) f c)] at hx
    split_ifs at hx
    · rw [heldView_of_cont (by simp [blocked, hc])] at hx
      cases hx
    · exact hx

theorem calm_reply {key : ℕ} {f : Wait → Wait} (ht : s.threads s.running = some self)
    (hf : ∀ w, (f w).key = w.key ∧ (f w).size = w.size) (hc : c ≠ .receive) :
    Calm s (waiting s self (.reply key) f c) := by
  refine calm_touch ht (waiting_threads ..) ?_ (.inl (hf _)) (.inl (heldView_of_cont (by simp [blocked, hc])))
  intro g hg
  rw [waiting_queues, if_neg (hg key)]

theorem CallCase.posted (hc : CallCase s self p m size o) (h : Base s) (ha : Active s)
    (ht : s.threads s.running = some self) (hp : Posted s l) : Posted o.state (recordPost l s o p size) := by
  have hid : s.running < 2 ^ 16 := h.id s.running (by simp [ht])
  cases hc with
  | refused hr =>
    rw [recordPost_refused hr]
    exact hp.calm (hr.1.calm fun _ _ => act_calm)
  | handed key max tp q rest th s2 s3 s' hg hkey hnone hq htp hpl hne hs2 hs3 hb1 hb2 hb3 hl =>
    have hl := Leaves.dispatch hl
    have hcont : contOf s' s.running = some (.call key) := by
      have hrun : s2.running = s.running := by
        rw [hs2, roused_running]
        rfl
      rw [hl.cont hb3, hs3, ← hrun]
      exact contOf_waiting ..
    rw [recordPost_handed hq rfl (sentTag_call hcont)]
    have h1 : Posted (openRendezvous s q key max) l := hp.calm (act_calm (.openReply key max q hnone))
    have h2 : Posted s2 (l.deliver tp ⟨p, s.running, createIpcTag s.running key, size⟩) := by
      rw [hs2]
      exact h1.hand hb1 hq htp (portOfIpc_createIpcTag hid)
    have ht2 : s2.threads s2.running = some self := by
      rw [hs2, roused_running, roused_threads]
      exact (update_of_ne hne.symm ..).trans ht
    have h3 : Calm s2 s3 := by
      rw [hs3]
      exact calm_reply ht2 (fun _ => ⟨rfl, rfl⟩) (by simp)
    exact (h2.calm h3).calm (hl.calm hb3)
  | queued key max q s2 s' hg hkey hnone hopen hq hs2 hb1 hb2 hl =>
    have hl := Leaves.dispatch hl
    have hcont : contOf s' s.running = some (.call key) := by
      rw [hl.cont hb2, hs2]
      exact contOf_waiting ..
    rw [recordPost_queued rfl rfl (sentTag_call hcont)]
    have h1 : Posted (openRendezvous s q key max) l := hp.calm (act_calm (.openReply key max q hnone))
    have h2 : Posted s2 (l.post s.running ⟨p, s.running, createIpcTag s.running key, size⟩) := by
      rw [hs2]
      exact h1.queue hb1 ha ht hq (fun _ => ⟨rfl, rfl⟩) (by simp) (portOfIpc_createIpcTag hid)
    exact h2.calm (hl.calm hb2)

theorem SendCase.posted (hc : SendCase s self p m size o) (h : Base s) (ha : Active s)
    (ht : s.threads s.running = some self) (hu : self.cont = .user) (hp : Posted s l) :
    Posted o.state (recordPost l s o p size) := by
  have hid : s.running < 2 ^ 16 := h.id s.running (by simp [ht])
  cases hc with
  | refused hr =>
    rw [recordPost_refused hr]
    exact hp.calm (hr.1.calm fun _ _ => act_calm)
  | handed tp rest th s2 s' hq htp hpl hne hs2 hb2 hl =>
    have hl := Leaves.serialize hl
    have hcont : contOf s' s.running = some .user := by
      rw [hl.cont hb2, hs2, contOf, roused_threads, update_of_ne hne.symm, ht]
      exact congrArg some hu
    rw [recordPost_handed hq rfl (sentTag_plain hcont (by simp))]
    have h2 : Posted s2 (l.deliver tp ⟨p, s.running, createIpcTag s.running 0, size⟩) := by
      rw [hs2]
      exact hp.hand h hq htp (portOfIpc_createIpcTag hid)
    exact h2.calm (hl.calm hb2)
  | queued s2 s' hopen hq hs2 hb2 hl =>
    have hl := Leaves.dispatch hl
    have hcont : contOf s' s.running = some .send := by
      rw [hl.cont hb2, hs2]
      exact contOf_waiting ..
    rw [recordPost_queued rfl rfl (sentTag_plain hcont (by simp))]
    have h2 : Posted s2 (l.post s.running ⟨p, s.running, createIpcTag s.running 0, size⟩) := by
      rw [hs2]
      exact hp.queue h ha ht hq (fun _ => ⟨rfl, rfl⟩) (by simp) (portOfIpc_createIpcTag hid)
    exact h2.calm (hl.calm hb2)

theorem handOver_queues {g : Guard} (hg : ∀ k, g ≠ .reply k) :
    (handOver s tp th).queues g = (s.queues g).erase tp := update_of_ne (hg _) ..

theorem calm_handOver (ht : s.threads tp = some th) : Calm s (handOver s tp th) := by
  refine calm_touch ht rfl ?_ (.inl ⟨rfl, rfl⟩) (.inl (by simp [heldView, handedOver]))
  intro g hg
  rw [handOver_queues hg]
  exact erase_sublist

theorem ReceiveCase.posted (hc : ReceiveCase s self p m o) (h : Base s) (ha : Active s)
    (ht : s.threads s.running = some self) (hp : Posted s l) (copyOk : Bool) :
    Posted o.state (record l s o (.op (.ipcReceive p m copyOk))) := by
  cases hc with
  | refused hr =>
    obtain ⟨hran, hret, htag, -⟩ := hr
    obtain ⟨x, hx⟩ := Option.isSome_iff_exists.mp hret
    have hl : record l s o (.op (.ipcReceive p m copyOk)) = l := by simp [record, htag, hx]
    rw [hl]
    exact hp.calm (hran.calm fun _ _ => act_calm)
  | heeded s' hflag hb hl =>
    exact (hp.calm (heed_calm (.consume self ht))).calm ((Leaves.serialize hl).calm hb)
  | called tp rest th s2 s' hq htp hty hentry hne hs2 hb2 hl =>
    have hq2 : s2.queues (.caller p) = rest := by
      rw [hs2, handOver_queues (by simp), hq, erase_cons_head]
    have hcalm : Calm s s2 := by
      rw [hs2]
      exact calm_handOver htp
    have hmail : mailOf s tp = some (th.wait.key, th.wait.size) := by simp [mailOf, htp]
    have h2 := hp.take hcalm hq hq2 hmail
    simp only [record, hq, headD_cons, Option.isSome_some, if_true]
    exact h2.calm ((Leaves.serialize hl).calm hb2)
  | sent tp rest th s2 s' hq htp hty hpl hne hs2 hb2 hl =>
    have hq2 : s2.queues (.caller p) = rest := by
      rw [hs2, roused_queues, hq, erase_cons_head]
    have hcont : th.cont = .send := by
      have hok := h.thread tp th htp
      simp only [ThreadOk, hty] at hok
      obtain ⟨-, p', -, hc, -⟩ := hok
      exact hc
    have hcalm : Calm s s2 := by
      rw [hs2]
      exact calm_roused htp (.inl ⟨rfl, rfl⟩) (heldView_of_cont (by simp [woken, hcont]))
    have hmail : mailOf s tp = some (th.wait.key, th.wait.size) := by simp [mailOf, htp]
    have h2 := hp.take hcalm hq hq2 hmail
    simp only [record, hq, headD_cons, Option.isSome_some, if_true]
    exact h2.calm ((Leaves.serialize hl).calm hb2)
  | queued s2 s' hflag hopen hq hs2 hb2 hl =>
    have h2 : Posted s2 (l.ask s.running p) := by
      rw [hs2]
      refine hp.ask (fun p' => h.running_not_queued ha ht _) hq ?_ ?_ ?_ ?_
      · intro p'
        rw [waiting_queues, if_neg (by simp)]
      · intro p'
        rw [waiting_queues]
        simp only [Guard.receiver.injEq]
      · intro t
        rw [mailOf_update (waiting_threads s self (.receiver p) (receiveWait m) .receive)]
        split_ifs with he
        · rw [he]
          simp [mailOf, ht, blocked, receiveWait]
        · rfl
      · intro t x hx
        rw [heldOf_update (waiting_threads s self (.receiver p) (receiveWait m) .receive)] at hx
        split_ifs at hx with he
        · simp [heldView, blocked, receiveWait] at hx
        · exact ⟨he, hx⟩
    exact h2.calm ((Leaves.dispatch hl).calm hb2)

theorem finish_posted (h : Base s) (ha : Active s) (hp : Posted s l) (ho : finish s = some o) :
    Posted o.state (record l s o .finish) := by
  have hran := (finish_ran h ha ho).calm fun _ _ => act_calm
  obtain ⟨th, ht, hf⟩ := finish_finished ho
  cases hf with
  | received s' hc hres hl =>
    have hheld : heldOf s s.running = some (th.wait.key, th.wait.size) := by
      simp [heldOf, ht, heldView, hc, ha th ht, hres]
    have hnone : heldOf s' s.running = none := by
      have hcalm := (Leaves.serialize hl).calm (h.done ha ht)
      cases hx : heldOf s' s.running with
      | none => rfl
      | some x =>
        have := hcalm.held _ _ hx
        simp [heldOf, heldView] at this
    simp only [record, Option.isSome_some, if_true]
    exact hp.give hran hheld hnone
  | _ => exact hp.calm hran

theorem step_posted {e : Event} (h : Base s) (ha : Active s) (hp : Posted s l)
    (hs : step s e = some o) : Posted o.state (record l s o e) := by
  have hplain : e.Plain → record l s o e = l → Posted o.state (record l s o e) := by
    intro he hr
    rw [hr]
    apply hp.calm
    exact (step_ran h ha hs).calm fun _ _ => move_calm he
  cases e with
  | op op =>
    cases op with
    | ipcCall portId message size allocOk copyOk =>
      obtain ⟨th, ht, -, ho⟩ := step_op hs
      exact (ipcCall_cases h ha ht ho).1.posted h ha ht hp
    | ipcReceive portId message copyOk =>
      obtain ⟨th, ht, -, ho⟩ := step_op hs
      exact (ipcReceive_cases h ha ht ho).1.posted h ha ht hp copyOk
    | ipcSend tag message size copyOk =>
      by_cases hkey : keyOfIpc tag ≠ 0
      · exact hplain hkey (by simp [record, hkey])
      · obtain ⟨th, ht, hu, ho⟩ := step_op hs
        simp only [apply, ipcSend, if_neg hkey] at ho
        simp only [record, if_neg hkey]
        exact (send_cases h ha ht ho).1.posted h ha ht hu hp
    | _ => exact hplain trivial rfl
  | finish => exact finish_posted h ha hp hs
  | _ => exact hplain trivial rfl

end

theorem boot_posted : Posted boot .empty := by
  have hheld : ∀ t, heldOf boot t = none := by
    intro t
    by_cases ht : t = portIdle
    · subst ht
      decide
    · simp [heldOf, boot, ht]
  constructor
  case held =>
    intro t x hx
    rw [hheld t] at hx
    cases hx
  case apart =>
    intro t u ht
    rw [hheld t] at ht
    cases ht
  all_goals simp [boot, Log.empty]

theorem Logged.base {l : Log} (h : Logged s l) : Base s ∧ Active s := by
  induction h with
  | boot => exact ⟨boot_base, boot_active⟩
  | step _ hs ih =>
    have := step_stepped ih.1 ih.2 hs
    exact ⟨this.base, this.active⟩

theorem Logged.posted {l : Log} (h : Logged s l) : Posted s l := by
  induction h with
  | boot => exact boot_posted
  | step hr hs ih => exact step_posted hr.base.1 hr.base.2 ih hs

theorem port_messages_ordered {s : State} {l : Log} (h : Logged s l) :
    (∀ p, s.queues (.caller p) = [] ∨ s.queues (.receiver p) = []) ∧
    (∀ m ∈ l.posts, portOfIpc m.tag = m.sender) ∧
    (∀ id ∈ l.got, id < l.posts.length) ∧ l.got.Nodup ∧
    (l.got.Pairwise fun i j => l.portOf i = l.portOf j → i < j) ∧
    (l.returned.map (·.mail)).Nodup ∧
    ∀ r ∈ l.returned, r.mail ∈ l.got ∧ ∃ m, l.posts[r.mail]? = some m ∧ m.port = r.port ∧
      r.tag = some m.tag ∧ r.size = some (m.size : ℤ) := by
  have hp := h.posted
  refine ⟨hp.one, hp.sender, hp.bound, ?_, hp.sorted, hp.once, hp.receipt⟩
  refine hp.sorted.imp ?_
  rintro i j hlt rfl
  exact lt_irrefl i (hlt rfl)

def deliveryRun : List Event :=
  queueRun ++ [.op (.ipcNotify 3 1), .switch 3, .finish, .op (.ipcReceive 3 0 true),
    .op (.ipcSend (createIpcTag 4 1) 0 4 true), .op (.ipcReceive 3 0 true), .finish,
    .op (.ipcCall 3 0 5 true true), .finish]

theorem port_messages_ordered_sample : ∃ s l, logRun boot .empty deliveryRun = some (s, l) ∧
    l.got = [0, 1] ∧ l.returned =
      [⟨0, 3, some (createIpcTag 4 1), some 8⟩, ⟨1, 3, some (createIpcTag 4 2), some 5⟩] ∧
    ∀ r ∈ l.returned, ∃ m, l.posts[r.mail]? = some m ∧ r.tag = some m.tag ∧
      portOfIpc m.tag = m.sender := by
  have hrun : (logRun boot .empty deliveryRun).map (fun x => (x.2.got, x.2.returned)) =
      some ([0, 1], [⟨0, 3, some (createIpcTag 4 1), some 8⟩, ⟨1, 3, some (createIpcTag 4 2), some 5⟩]) := by
    decide +kernel
  obtain ⟨⟨s, l⟩, hr, hx⟩ := Option.map_eq_some_iff.mp hrun
  rw [Prod.mk.injEq] at hx
  obtain ⟨-, hsend, -, -, -, -, hrec⟩ := port_messages_ordered (Logged.boot.run hr)
  refine ⟨s, l, hr, hx.1, hx.2, ?_⟩
  intro r hm
  obtain ⟨-, m, hm, -, ht, -⟩ := hrec r hm
  exact ⟨m, hm, ht, hsend m (mem_of_getElem? hm)⟩

end Eotan.Kernel
