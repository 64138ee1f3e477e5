import Eotan.Kernel.Moves

/-!
All that one step of the kernel can do to the rendezvous: the entries of `reply_tree`, the callers
that have not seen the end of their call, and the lists of the entries.
-/

namespace Eotan.Kernel

open Eotan.Sequence
open Function

structure Table where
  entries : ℕ → Option ℕ
  calls : ℕ → Option (ℕ × Bool)
  queue : ℕ → List ℕ

def table (s : State) : Table := ⟨s.replies, calls s, fun k => s.queues (.reply k)⟩

theorem Keeps.table_eq {s s' : State} (h : Keeps s s') : table s' = table s := by
  simp only [table, Table.mk.injEq]
  exact ⟨h.replies, h.calls, funext h.queue⟩

def Delivered (s : State) (key size : ℕ) (copyOk : Bool) : Prop :=
  ∃ maxReply, s.replies key = some maxReply ∧ size ≤ maxReply ∧ s.queues (.reply key) ≠ [] ∧
    copyOk = true

def Event.Calls : Event → Prop
  | .op (.ipcCall ..) => True
  | _ => False

def Event.Receives (p : ℕ) : Event → Prop
  | .op (.ipcReceive portId ..) => portId = p
  | _ => False

def Event.Replies (key : ℕ) : Event → Prop
  | .op (.ipcSend tag ..) => keyOfIpc tag = key
  | _ => False

inductive Change (s : State) (e : Event) : Option ℕ → Table → Prop
  | keep {handed : Option ℕ} : (∀ tag ∈ handed, keyOfIpc tag = 0) → Change s e handed (table s)
  | clear (key : ℕ) : s.replies key = none →
    Change s e none { table s with queue := Function.update (table s).queue key [] }
  | call (key max : ℕ) : e.Calls → (sequenceGet s.replySequence).1 = some key →
    s.replies key = none → calls s s.running = none →
    Change s e (some (createIpcTag s.running key))
      { entries := Function.update s.replies key (some max)
        calls := Function.update (calls s) s.running (some (key, true))
        queue := Function.update (table s).queue key [s.running] }
  | wait (key max : ℕ) : e.Calls → (sequenceGet s.replySequence).1 = some key →
    s.replies key = none → calls s s.running = none →
    Change s e none
      { entries := Function.update s.replies key (some max)
        calls := Function.update (calls s) s.running (some (key, false))
        queue := Function.update (table s).queue key [] }
  | receive (p t key : ℕ) (th : Thread) : e.Receives p → (s.queues (.caller p)).head? = some t →
    s.threads t = some th → th.wait.type = .call →
    (s.replies key).isSome → calls s t = some (key, false) →
    Change s e (some th.wait.key)
      { table s with
        calls := Function.update (calls s) t (some (key, true))
        queue := Function.update (table s).queue key (s.queues (.reply key) ++ [t]) }
  | deliver (t key : ℕ) : e.Replies key → calls s t = some (key, true) →
    t ∈ s.queues (.reply key) →
    Change s e none
      { entries := Function.update s.replies key none
        calls := Function.update (calls s) t none
        queue := fun k => (s.queues (.reply k)).erase t }
  | refuse (tag message size : ℕ) (copyOk : Bool) :
    e = .op (.ipcSend tag message size copyOk) → keyOfIpc tag ≠ 0 →
    ¬Delivered s (keyOfIpc tag) size copyOk →
    Change s e none { table s with entries := Function.update s.replies (keyOfIpc tag) none }
  | fail (t key : ℕ) : e = .finish → calls s t = some (key, false) →
    Change s e none
      { table s with
        entries := Function.update s.replies key none
        calls := Function.update (calls s) t none }
  | terminate (t : ℕ) : e = .op (.threadTerminate t) →
    Change s e none
      { table s with
        calls := Function.update (calls s) t none
        queue := fun k => (s.queues (.reply k)).erase t }

structure Stepped (s : State) (e : Event) (o : Outcome) : Prop where
  base : Base o.state
  active : Active o.state
  change : Change s e o.handed (table o.state)

theorem Change.of_keeps {s s₁ s' : State} {e : Event} {handed : Option ℕ}
    (h : Change s e handed (table s₁)) (hk : Keeps s₁ s') : Change s e handed (table s') := by
  rw [hk.table_eq]
  exact h

section

variable {s s₁ : State} {e : Event} {o : Outcome}

theorem Keeps.change (hk : Keeps s s₁) : Change s e none (table s₁) := by
  rw [hk.table_eq]
  exact .keep (by simp)

theorem Still.stepped (hs : Still s o.state) (ha : Active s) (hh : o.handed = none) : Stepped s e o := by
  refine ⟨hs.keeps.base, hs.active ha, ?_⟩
  rw [hh]
  exact hs.keeps.change

theorem stepped_leaves (hb : Base s₁) (ha : Active s₁) (hc : Change s e o.handed (table s₁))
    (hl : Leaves s₁ o.state) : Stepped s e o := by
  have hs := hl.still hb
  exact ⟨hs.keeps.base, hs.active ha, hc.of_keeps hs.keeps⟩

theorem stepped_dispatch (hb : Base s₁) (hc : Change s e o.handed (table s₁))
    (hl : leaveSerializeAndDispatch s₁ = some o.state) : Stepped s e o := by
  have hs := (Leaves.dispatch hl).still hb
  exact ⟨hs.keeps.base, leaveSerializeAndDispatch_active hb hl, hc.of_keeps hs.keeps⟩

end

section

variable {s : State}

theorem releaseRendezvous_table (s : State) (key : ℕ) : table (releaseRendezvous s key) =
      { table s with entries := update s.replies key none } := by
  have hr := releaseRendezvous_replies s key
  have ht : (releaseRendezvous s key).threads = s.threads := by
    unfold releaseRendezvous
    split_ifs <;> rfl
  have hq : (releaseRendezvous s key).queues = s.queues := by
    unfold releaseRendezvous
    split_ifs <;> rfl
  have hc : calls (releaseRendezvous s key) = calls s := by
    funext t
    simp only [calls, ht]
  simp only [table, hr, hq, hc]

theorem openRendezvous_calls (s : State) (q : Seq) (key max : ℕ) :
    calls (openRendezvous s q key max) = calls s := rfl

theorem openRendezvous_queue (s : State) (q : Seq) (key max : ℕ) :
    (fun k => (openRendezvous s q key max).queues (.reply k)) = update (table s).queue key [] := by
  funext k
  simp only [openRendezvous, table, update_apply, Guard.reply.injEq]

variable {f : Wait → Wait} {th : Thread}

theorem waiting_table {g : Guard} {c : Cont} : table (waiting s th g f c) =
      { entries := s.replies
        calls := update (calls s) s.running (callView (blocked th g f c))
        queue := fun k => update s.queues g (s.queues g ++ [s.running]) (.reply k) } := by
  have ht : (waiting s th g f c).threads = update s.threads s.running (some (blocked th g f c)) := rfl
  simp only [table, calls_update ht]
  rfl

theorem waiting_keeps {g : Guard} {c : Cont}
    (ht : s.threads s.running = some th) (hu : th.cont = .user) (hb : Base (waiting s th g f c))
    (hg : ∀ k, g ≠ .reply k) (hc : ∀ k, c ≠ .call k) : Keeps s (waiting s th g f c) := by
  have hview : callView (blocked th g f c) = calls s s.running := by
    rw [calls_of_thread ht, callView_none_of_user hu]
    cases c with
    | call k => exact absurd rfl (hc k)
    | _ => rfl
  have htab : table (waiting s th g f c) = table s := by
    rw [waiting_table, hview, update_eq_self]
    simp only [table, update_of_ne (hg _).symm]
  simp only [table, Table.mk.injEq] at htab
  exact ⟨hb, htab.1, htab.2.1, congrFun htab.2.2⟩

theorem receiver_still {p t : ℕ} (h : Base s) (hm : t ∈ s.queues (.receiver p)) (ht : s.threads t = some th)
    (hf : ∀ w, (f w).waiting = w.waiting) : Still s (roused s t th f) := by
  obtain ⟨th', ht', hwait⟩ := h.queued _ _ hm
  rw [ht] at ht'
  cases ht'
  have hok := h.thread t th ht
  have hty := hok.of_receiver hwait
  refine ⟨keeps_roused h ht rfl (woken_ok hok hf) (by simp [hty]) ?_, Active.roused⟩
  exact callView_woken hok (by simp [hty]) (by simp [hty]) (by simp [hty])

end

end Eotan.Kernel
