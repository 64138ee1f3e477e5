import Eotan.Kernel.Rendezvous

/-!
Whom a reply reaches. `_reply` looks only at the key of the tag it is given; that it finds the call
the tag was made for depends on the server's not answering a request twice.
-/

namespace Eotan.Kernel

open Eotan.Sequence
open Function
open List
open Option

def Tagged : State → Prop :=
  Every fun t th => th.wait.type = .call → ∃ k < 2 ^ 16, th.wait.key = createIpcTag t k

variable {th : Thread}

section

variable {s s' : State} {t : ℕ}

theorem tagged_lasting : Lasting fun t th => th.wait.type = .call →
    ∃ k < 2 ^ 16, th.wait.key = createIpcTag t k := by
  refine ⟨fun _ _ => (by simp [setup]), ?_⟩
  intro t th th' hr h
  cases hr with
  | block g f c hf hok hflag htag => exact htag
  | abort | wake | note | listen | accept =>
    intro hty
    cases hty
  | _ => exact h

end

/-- The calls of a run so far, by number: the tag that each has made, the last one of each thread,
the one that each rendezvous belongs to, and those whose tag a receiver has been handed and that
have not been answered since. -/
structure Ledger where
  made : List ℕ
  call : ℕ → ℕ
  entry : ℕ → ℕ
  handed : List (ℕ × ℕ)

namespace Ledger

def empty : Ledger := ⟨[], fun _ => 0, fun _ => 0, []⟩

def enter (l : Ledger) (t key : ℕ) : Ledger :=
  { l with
    made := l.made ++ [createIpcTag t key]
    call := Function.update l.call t l.made.length
    entry := Function.update l.entry key l.made.length }

def hand (l : Ledger) (handed : Option ℕ) (n : ℕ) : Ledger :=
  match handed with
  | some tag => if keyOfIpc tag = 0 then l else { l with handed := (tag, n) :: l.handed }
  | none => l

def prune (l : Ledger) (replies : ℕ → Option ℕ) : Ledger :=
  { l with handed := l.handed.filter fun x => (replies (keyOfIpc x.1)).isSome }

end Ledger

def account (l : Ledger) (s : State) (o : Outcome) (e : Event) : Ledger :=
  Ledger.prune (match e with
    | .op (.ipcCall ..) =>
      match (sequenceGet s.replySequence).1 with
      | some key =>
        if (o.state.replies key).isSome then
          (l.enter s.running key).hand o.handed l.made.length
        else l
      | none => l
    | .op (.ipcReceive p ..) =>
      match (s.queues (.caller p)).head? with
      | some t => l.hand o.handed (l.call t)
      | none => l
    | _ => l) o.state.replies

/-- A reply is for a request that has been handed over and not been answered since, or else for a
key that no rendezvous has. -/
def Rightful (s : State) (l : Ledger) : Event → Prop
  | .op (.ipcSend tag ..) =>
    keyOfIpc tag ≠ 0 → (s.replies (keyOfIpc tag)).isSome → ∃ n, (tag, n) ∈ l.handed
  | _ => True

structure Matched (x : Table) (l : Ledger) : Prop where
  tag : ∀ t k b, x.calls t = some (k, b) → t < 2 ^ 16 ∧ l.made[l.call t]? = some (createIpcTag t k)
  own : ∀ t k, x.calls t = some (k, false) → (x.entries k).isSome ∧ l.entry k = l.call t ∧
    ∀ y ∈ l.handed, y.2 ≠ l.call t
  linked : ∀ t k, t ∈ x.queue k → (x.entries k).isSome → l.entry k = l.call t
  handed : ∀ y ∈ l.handed, l.made[y.2]? = some y.1 ∧ (x.entries (keyOfIpc y.1)).isSome ∧
    l.entry (keyOfIpc y.1) = y.2

section

variable {x y : Table} {l : Ledger} {t u key : ℕ}

section

variable (h : Matched x l)
include h

theorem Matched.caller {c d : ℕ × Bool} (ht : x.calls t = some c)
    (hu : x.calls u = some d) (he : l.call t = l.call u) : t = u := by
  obtain ⟨hlt, hmt⟩ := h.tag t c.1 c.2 ht
  obtain ⟨hlu, hmu⟩ := h.tag u d.1 d.2 hu
  rw [he, hmu, some.injEq] at hmt
  have hport := congrArg portOfIpc hmt
  rw [portOfIpc_createIpcTag hlt, portOfIpc_createIpcTag hlu] at hport
  exact hport.symm

theorem Matched.shrink (hc : ∀ t c, y.calls t = some c → x.calls t = some c)
    (he : ∀ k, (y.entries k).isSome → (x.entries k).isSome) (hq : ∀ k t, t ∈ y.queue k → t ∈ x.queue k)
    (ho : ∀ t k, y.calls t = some (k, false) → (y.entries k).isSome) : Matched y (l.prune y.entries) := by
  constructor
  · intro t k b ht
    exact h.tag t k b (hc t _ ht)
  · intro t k ht
    obtain ⟨-, hentry, hh⟩ := h.own t k (hc t _ ht)
    exact ⟨ho t k ht, hentry, fun z hz => hh z (mem_of_mem_filter hz)⟩
  · intro t k ht hk
    exact h.linked t k (hq k t ht) (he k hk)
  · intro z hz
    obtain ⟨hz, hk⟩ := mem_filter.mp hz
    obtain ⟨hm, -, hn⟩ := h.handed z hz
    exact ⟨hm, hk, hn⟩

theorem Matched.prune : Matched x (l.prune x.entries) :=
  h.shrink (fun _ _ hc => hc) (fun _ he => he) (fun _ _ hm => hm) fun t k ht => (h.own t k ht).1

theorem Matched.enter {max : ℕ} {b : Bool} {q : List ℕ}
    (hn : x.entries key = none) (ht : x.calls t = none) (hid : t < 2 ^ 16)
    (he : y.entries = update x.entries key (some max)) (hc : y.calls = update x.calls t (some (key, b)))
    (hq : y.queue = update x.queue key q) (hqt : ∀ u ∈ q, u = t)
    (hqc : ∀ u k, u ∈ x.queue k → x.calls u = some (k, true)) : Matched y (l.enter t key) := by
  have hold : ∀ u k c, x.calls u = some (k, c) → u ≠ t := by
    rintro u k c hu rfl
    rw [ht] at hu
    cases hu

  have hkey : ∀ k, (x.entries k).isSome → k ≠ key := by
    rintro k hk rfl
    simp [hn] at hk
  have hmade : ∀ {n m : ℕ}, l.made[n]? = some m → (l.enter t key).made[n]? = some m := by
    intro n m hm
    obtain ⟨hlt, -⟩ := List.getElem?_eq_some_iff.mp hm
    exact (getElem?_append_left hlt).trans hm
  have hentries : ∀ k, (y.entries k).isSome → k ≠ key → (x.entries k).isSome := by
    intro k hk hne
    rw [he, update_of_ne hne] at hk
    exact hk
  constructor
  · intro u k c hu
    rw [hc, update_apply] at hu
    split_ifs at hu with hut
    · cases hu
      subst hut
      refine ⟨hid, ?_⟩
      simp [Ledger.enter]
    obtain ⟨hu16, hm⟩ := h.tag u k c hu
    refine ⟨hu16, ?_⟩
    have hcall : (l.enter t key).call u = l.call u := update_of_ne hut ..
    rw [hcall]
    exact hmade hm
  · intro u k hu
    rw [hc, update_apply] at hu
    split_ifs at hu with hut
    · cases hu
      subst hut
      refine ⟨by rw [he]; simp, by simp [Ledger.enter], ?_⟩
      intro z hz
      obtain ⟨hlt, -⟩ := List.getElem?_eq_some_iff.mp (h.handed z hz).1
      simp only [Ledger.enter, update_self]
      omega
    · obtain ⟨hs, hentry, hh⟩ := h.own u k hu
      have hk := hkey k hs
      simp only [Ledger.enter, update_of_ne hut, update_of_ne hk, he]
      exact ⟨hs, hentry, hh⟩
  · intro u k hu hk
    rw [hq, update_apply] at hu
    split_ifs at hu with hkk
    · rw [hqt u hu, hkk]
      simp [Ledger.enter]
    · have hut := hold u k true (hqc u k hu)
      simp only [Ledger.enter, update_of_ne hut, update_of_ne hkk]
      exact h.linked u k hu (hentries k hk hkk)
  · intro z hz
    obtain ⟨hm, hs, hn⟩ := h.handed z hz
    have hk := hkey _ hs
    simp only [Ledger.enter, update_of_ne hk, he]
    exact ⟨hmade hm, hs, hn⟩

theorem Matched.hand {tag n : ℕ} (hm : l.made[n]? = some tag)
    (hs : (x.entries (keyOfIpc tag)).isSome) (hn : l.entry (keyOfIpc tag) = n)
    (ho : ∀ u k, x.calls u = some (k, false) → l.call u ≠ n) : Matched x (l.hand (some tag) n) := by
  simp only [Ledger.hand]
  split_ifs
  · exact h
  refine ⟨h.tag, ?_, h.linked, ?_⟩
  · intro t k ht
    obtain ⟨h1, h2, h3⟩ := h.own t k ht
    exact ⟨h1, h2, forall_mem_cons.mpr ⟨(ho t k ht).symm, h3⟩⟩
  · exact forall_mem_cons.mpr ⟨⟨hm, hs, hn⟩, h.handed⟩

theorem Matched.receive (ht : x.calls t = some (key, false))
    (he : y.entries = x.entries) (hc : y.calls = update x.calls t (some (key, true)))
    (hq : y.queue = update x.queue key (x.queue key ++ [t])) : Matched y l := by
  have hold : ∀ u k c, y.calls u = some (k, c) → ∃ c', x.calls u = some (k, c') ∧ (c = false → c' = false) := by
    intro u k c hu
    rw [hc, update_apply] at hu
    split_ifs at hu with hut
    · cases hu
      exact ⟨false, hut ▸ ht, by simp⟩
    · exact ⟨c, hu, id⟩
  constructor
  · intro u k c hu
    obtain ⟨c', hu, -⟩ := hold u k c hu
    exact h.tag u k c' hu
  · intro u k hu
    obtain ⟨c', hu, hf⟩ := hold u k false hu
    rw [hf rfl] at hu
    rw [he]
    exact h.own u k hu
  · intro u k hu hk
    rw [he] at hk
    rw [hq, update_apply] at hu
    split_ifs at hu with hkk
    · subst hkk
      rcases mem_append.mp hu with hu | hu
      · exact h.linked u k hu hk
      · rw [mem_singleton.mp hu]
        exact (h.own t k ht).2.1
    · exact h.linked u k hu hk
  · intro z hz
    rw [he]
    exact h.handed z hz

end

end

section

variable {s : State} {l : Ledger} {e : Event} {o : Outcome} {key : ℕ}

theorem account_shrink (h : Base s) (he : ∀ k, (o.state.replies k).isSome → (s.replies k).isSome)
    (hh : ∀ tag ∈ o.handed, keyOfIpc tag = 0) : account l s o e = l.prune o.state.replies := by
  have hhand : ∀ n, l.hand o.handed n = l := by
    intro n
    unfold Ledger.hand
    split
    · rename_i tag ht
      rw [if_pos (hh tag ht)]
    · rfl
  unfold account
  split
  · split
    · rename_i key hg
      have hnone : s.replies key = none := (openRendezvous_base 0 h (Prod.ext hg rfl)).1
      rw [if_neg]
      intro hs
      simpa [hnone] using he key hs
    · rfl
  · split
    · rw [hhand]
    · rfl
  · rfl

theorem account_calls (he : e.Calls) (hg : (sequenceGet s.replySequence).1 = some key)
    (hs : (o.state.replies key).isSome) : account l s o e =
      ((l.enter s.running key).hand o.handed l.made.length).prune o.state.replies := by
  unfold Event.Calls at he
  split at he
  · simp only [account, hg, if_pos hs]
  · exact he.elim

variable {t : ℕ}

theorem account_receives {p : ℕ} (he : e.Receives p) (hq : (s.queues (.caller p)).head? = some t) :
    account l s o e = (l.hand o.handed (l.call t)).prune o.state.replies := by
  unfold Event.Receives at he
  split at he
  · subst he
    simp only [account, hq]
  · exact he.elim

theorem running_lt (h : Base s) (he : e.Calls) (hs : step s e = some o) : s.running < 2 ^ 16 := by
  unfold Event.Calls at he
  split at he
  · simp only [step, bind_eq_bind, bind_eq_some_iff] at hs
    obtain ⟨th, ht, -⟩ := hs
    exact h.id s.running (by simp [ht])
  · exact he.elim

theorem queued_tag (h : Base s) (htag : Tagged s) (ht : s.threads t = some th)
    (hty : th.wait.type = .call) (hc : calls s t = some (key, false)) :
    th.wait.key = createIpcTag t key ∧ keyOfIpc th.wait.key = key := by
  obtain ⟨k, hk, hkey⟩ := htag t th ht hty
  have hok := h.thread t th ht
  simp only [ThreadOk, hty] at hok
  obtain ⟨-, -, p, k', -, hcont, hkey'⟩ := hok
  have hk' : k' = key := by
    rw [calls_of_thread ht] at hc
    simp only [callView, hcont] at hc
    split_ifs at hc
    exact congrArg Prod.fst (some.inj hc)
  subst hk'
  have hlt : t < 2 ^ 16 := h.id t (by simp [ht])
  rw [hkey, keyOfIpc_createIpcTag hlt hk] at hkey'
  subst hkey'
  exact ⟨hkey, by rw [hkey]; exact keyOfIpc_createIpcTag hlt hk⟩

theorem update_none_some {α : Type} {f : ℕ → Option α} {u : ℕ} {c : α}
    (h : update f t none u = some c) : u ≠ t ∧ f u = some c := by
  rw [update_apply] at h
  split_ifs at h with hut
  exact ⟨hut, h⟩

theorem update_none_isSome {α : Type} {f : ℕ → Option α} {u : ℕ}
    (h : (update f t none u).isSome) : (f u).isSome := by
  obtain ⟨c, hc⟩ := isSome_iff_exists.mp h
  rw [(update_none_some hc).2]
  rfl

theorem step_matched (h : Base s) (ha : Active s) (htag : Tagged s) (hm : Matched (table s) l)
    (hr : Rightful s l e) (hs : step s e = some o) : Matched (table o.state) (account l s o e) := by
  have hqc : ∀ u k, u ∈ (table s).queue k → (table s).calls u = some (k, true) := fun u k hu => h.queue_calls hu
  have hchange := (step_stepped h ha hs).change
  -- calls that end
  have hshrink : ∀ {y : Table} {handed : Option ℕ}, y = table o.state → handed = o.handed →
      (∀ tag ∈ handed, keyOfIpc tag = 0) →
      (∀ t c, y.calls t = some c → calls s t = some c) →
      (∀ k, (y.entries k).isSome → (s.replies k).isSome) →
      (∀ k t, t ∈ y.queue k → t ∈ s.queues (.reply k)) →
      (∀ t k, y.calls t = some (k, false) → (y.entries k).isSome) →
      Matched y (account l s o e) := by
    rintro y handed rfl rfl hh hc he hq ho
    rw [account_shrink h he hh]
    exact hm.shrink hc he hq ho
  -- a rendezvous that is taken out is nobody's whose message is still queued
  have hgone : ∀ {k t k' : ℕ}, calls s t = some (k', false) → k' ≠ k → (update s.replies k none k').isSome := by
    intro k t k' ht hne
    rw [update_of_ne hne]
    exact (hm.own t k' ht).1
  generalize hy : table o.state = y at hchange ⊢
  generalize hhd : o.handed = handed at hchange
  have hrep : o.state.replies = y.entries := congrArg Table.entries hy
  cases hchange with
  | keep hh =>
    exact hshrink hy.symm hhd.symm hh (fun _ _ hc => hc) (fun _ he => he) (fun _ _ hu => hu)
      fun t k ht => (hm.own t k ht).1
  | clear key hn =>
    refine hshrink hy.symm hhd.symm (by simp) (fun _ _ hc => hc) (fun _ he => he) ?_
      fun t k ht => (hm.own t k ht).1
    intro k t ht
    simp only [update_apply] at ht
    split_ifs at ht
    · simp at ht
    · exact ht
  | call key max he hg hn hc =>
    have hlt := running_lt h he hs
    have hkey : keyOfIpc (createIpcTag s.running key) = key :=
      keyOfIpc_createIpcTag hlt (openRendezvous_base 0 h (Prod.ext hg rfl)).2.1
    rw [account_calls he hg (by simp [hrep]), hhd, hrep]
    refine ((hm.enter hn hc hlt rfl rfl rfl (by simp) hqc).hand ?_ ?_ ?_ ?_).prune
    · simp [Ledger.enter]
    · simp [hkey]
    · simp [Ledger.enter, hkey]
    · intro u k hu
      have hur : u ≠ s.running := by
        rintro rfl
        simp at hu
      simp only [update_of_ne hur] at hu
      obtain ⟨hlen, -⟩ := List.getElem?_eq_some_iff.mp (hm.tag u k false hu).2
      simp only [Ledger.enter, update_of_ne hur]
      exact hlen.ne
  | wait key max he hg hn hc =>
    have hlt := running_lt h he hs
    rw [account_calls he hg (by simp [hrep]), hhd, hrep]
    exact (hm.enter (q := []) hn hc hlt rfl rfl rfl (by simp) hqc).prune
  | receive p t key th he hq ht hty hn hc =>
    obtain ⟨htag, hkey⟩ := queued_tag h htag ht hty hc
    rw [account_receives he hq, hhd, hrep]
    refine ((hm.receive hc ?_ ?_ ?_).hand ?_ ?_ ?_ ?_).prune
    iterate 3 rfl
    · rw [htag]
      exact (hm.tag t key false hc).2
    · rw [hkey]
      exact hn
    · rw [hkey]
      exact (hm.own t key hc).2.1
    · intro u k hu heq
      have hut : u ≠ t := by
        rintro rfl
        simp at hu
      simp only [update_of_ne hut] at hu
      exact hut (hm.caller hu hc heq)
  | deliver t key _ ht hmem =>
    refine hshrink hy.symm hhd.symm (by simp) (fun _ _ hu => (update_none_some hu).2)
      (fun _ => update_none_isSome) (fun _ _ => mem_of_mem_erase) ?_
    intro u k hcall
    obtain ⟨hne, hu⟩ := update_none_some hcall
    apply hgone hu
    rintro rfl
    obtain ⟨hsome, hentry, -⟩ := hm.own u k hu
    exact hne (hm.caller hu ht (hentry.symm.trans (hm.linked t k hmem hsome)))
  | refuse tag message size copyOk he hkey hd =>
    subst he
    refine hshrink hy.symm hhd.symm (by simp) (fun _ _ hc => hc) (fun _ => update_none_isSome)
      (fun _ _ hu => hu) ?_
    intro u k hu
    apply hgone hu
    rintro rfl
    obtain ⟨hsome, hentry, hh⟩ := hm.own u _ hu
    obtain ⟨n, hn⟩ := hr hkey hsome
    exact hh _ hn ((hm.handed _ hn).2.2.symm.trans hentry)
  | fail t key _ ht =>
    refine hshrink hy.symm hhd.symm (by simp) (fun _ _ hu => (update_none_some hu).2)
      (fun _ => update_none_isSome) (fun _ _ hu => hu) ?_
    intro u k hcall
    obtain ⟨hne, hu⟩ := update_none_some hcall
    apply hgone hu
    rintro rfl
    exact hne (hm.caller hu ht ((hm.own u k hu).2.1.symm.trans (hm.own t k ht).2.1))
  | terminate t he =>
    refine hshrink hy.symm hhd.symm (by simp) (fun _ _ hu => (update_none_some hu).2)
      (fun _ hk => hk) (fun _ _ => mem_of_mem_erase) ?_
    intro u k hu
    exact (hm.own u k (update_none_some hu).2).1

theorem reply_found {size max : ℕ} {copyOk : Bool} (h : Base s) (hmax : s.replies key = some max)
    (ho : reply s key size copyOk = some o) : ∃ s1, Leaves s1 o.state ∧
      (s1 = releaseRendezvous s key ∨ ∃ t th, t ∈ s.queues (.reply key) ∧ s.threads t = some th ∧
        s1 = releaseRendezvous (roused s t th fun w => { w with size := size }) key) := by
  simp only [reply, hmax] at ho
  split at ho
  · exact ⟨_, leave_leaves ho, .inl rfl⟩
  split at ho
  · rename_i t rest hq
    split_ifs at ho
    · exact ⟨_, leave_leaves ho, .inl rfl⟩
    simp only [bind_eq_bind, bind_eq_some_iff] at ho
    obtain ⟨s1, hw, ho⟩ := ho
    have hm := mem_of_head hq
    obtain ⟨th, ht, -, rfl⟩ := wake_roused h (h.blocked_of_mem hm) hw
    exact ⟨_, leaveAndDispatch_leaves ho, .inr ⟨t, th, hm, ht, rfl⟩⟩
  · exact ⟨_, leaveAndDispatch_leaves ho, .inl rfl⟩

end

theorem Followed.matched {s : State} {l : Ledger} (h : Followed account Rightful .empty s l) :
    Tagged s ∧ Matched (table s) l := by
  induction h with
  | boot =>
    refine ⟨?_, ?_⟩
    · intro t th ht hty
      simp only [Kernel.boot, update_apply] at ht
      split_ifs at ht
      cases ht
      cases hty
    · constructor
      · simp [table, boot_calls]
      · simp [table, boot_calls]
      · simp [table, Kernel.boot]
      · simp [Ledger.empty]
  | step hf hr hs ih =>
    obtain ⟨hb, ha⟩ := hf.base
    exact ⟨(step_ran hb ha hs).every tagged_lasting ih.1, step_matched hb ha ih.1 ih.2 hr hs⟩

/-- A reply goes to the call that made its tag and takes out that call's rendezvous; one whose key
has no rendezvous does nothing. -/
theorem reply_reaches_own_call {s : State} {l : Ledger} {tag message size : ℕ} {copyOk : Bool}
    {o : Outcome} (h : Followed account Rightful .empty s l) (hkey : keyOfIpc tag ≠ 0)
    (hr : Rightful s l (.op (.ipcSend tag message size copyOk)))
    (hs : step s (.op (.ipcSend tag message size copyOk)) = some o) :
    (s.replies (keyOfIpc tag) = none → leave s eObj = some o) ∧
    ((s.replies (keyOfIpc tag)).isSome → ∃ n, (tag, n) ∈ l.handed ∧ l.made[n]? = some tag ∧
      l.entry (keyOfIpc tag) = n ∧ ∃ s₁, Leaves s₁ o.state ∧
        (s₁ = releaseRendezvous s (keyOfIpc tag) ∨
          ∃ th, s.threads (portOfIpc tag) = some th ∧ Blocked th ∧ th.wait.type = .reply ∧
            th.cont = .call (keyOfIpc tag) ∧ l.call (portOfIpc tag) = n ∧
            s₁ = releaseRendezvous
              (roused s (portOfIpc tag) th fun w => { w with size := size }) (keyOfIpc tag))) := by
  obtain ⟨hb, -⟩ := h.base
  obtain ⟨-, hm⟩ := h.matched
  simp only [step, apply, ipcSend, if_pos hkey, bind_eq_bind, bind_eq_some_iff] at hs
  obtain ⟨self, -, ho⟩ := hs
  split_ifs at ho
  constructor
  · intro hnone
    have hsame : releaseRendezvous s (keyOfIpc tag) = s := by simp [releaseRendezvous, hnone]
    simp only [reply, hnone, hsame] at ho
    exact ho
  · intro hsome
    obtain ⟨n, hn⟩ := hr hkey hsome
    obtain ⟨hmade, -, hentry⟩ := hm.handed _ hn
    obtain ⟨max, hmax⟩ := isSome_iff_exists.mp hsome
    obtain ⟨s₁, hl, hs1⟩ := reply_found hb hmax ho
    refine ⟨n, hn, hmade, hentry, s₁, hl, hs1.imp id ?_⟩
    rintro ⟨t, th, hq, ht, rfl⟩
    have hcall := hb.queue_calls hq
    have hnum : l.call t = n := (hm.linked t _ hq hsome).symm.trans hentry
    obtain ⟨hlt, htag⟩ := hm.tag t _ _ hcall
    rw [hnum, hmade, some.injEq] at htag
    have hport : portOfIpc tag = t := (congrArg portOfIpc htag).trans (portOfIpc_createIpcTag hlt)
    obtain ⟨th', ht', hw⟩ := hb.queued _ _ hq
    rw [ht] at ht'
    cases ht'
    obtain ⟨hty, hc, -⟩ := (hb.thread t th ht).of_reply hw
    subst hport
    exact ⟨th, ht, hb.blocked_of_mem hq th ht, hty, hc, hnum, rfl⟩

theorem reply_reaches_own_call_sample : ∃ s l o, follow account boot .empty (callRun ++ [.finish]) =
      some (s, l) ∧ step s (.op (.ipcSend (createIpcTag 4 1) 0 8 true)) = some o ∧
    ∃ n, (createIpcTag 4 1, n) ∈ l.handed ∧ l.made[n]? = some (createIpcTag 4 1) ∧ l.entry 1 = n := by
  have hrun : (follow account boot .empty (callRun ++ [.finish])).map (fun x =>
      (x.2.handed, x.1.replies 1, (step x.1 (.op (.ipcSend (createIpcTag 4 1) 0 8 true))).isSome)) =
      some ([(createIpcTag 4 1, 0)], some 16, true) := by
    decide +kernel
  obtain ⟨⟨s, l⟩, hf, hx⟩ := map_eq_some_iff.mp hrun
  simp only [Prod.mk.injEq] at hx
  obtain ⟨hh, hmax, hsome⟩ := hx
  obtain ⟨o, ho⟩ := isSome_iff_exists.mp hsome
  have hr : Followed account Rightful .empty s l := by
    refine Followed.boot.follow hf ?_
    intro e he s l
    simp only [callRun, cons_append, nil_append, mem_cons, not_mem_nil, or_false] at he
    rcases he with rfl | rfl | rfl | rfl | rfl | rfl <;> trivial
  have hright : Rightful s l (.op (.ipcSend (createIpcTag 4 1) 0 8 true)) := fun _ _ => ⟨0, by simp [hh]⟩
  have hkey : keyOfIpc (createIpcTag 4 1) = 1 := by decide
  obtain ⟨n, hn, hm, he, -⟩ := (reply_reaches_own_call hr (by decide) hright ho).2 (by rw [hkey, hmax]; rfl)
  rw [hkey] at he
  exact ⟨s, l, o, hf, ho, n, hn, hm, he⟩

/-- The first client is answered; the numbers go round, here by calls that find no memory; a second
client's call takes the same key. -/
def staleRun : List Event :=
  callRun ++ [.finish, .op (.ipcSend (createIpcTag 4 1) 0 4 true), .op (.ipcReceive 3 0 true),
    .finish] ++ List.replicate 1022 (.op (.ipcCall 3 0 8 false true)) ++
  [.op (.threadCreate 5 taAct 2 kthreadStackSize true true), .op (.ipcCall 3 0 8 true true),
    .finish]

theorem reply_reaches_other_call : ∃ s o th th', run boot staleRun = some s ∧
    step s (.op (.ipcSend (createIpcTag 4 1) 0 4 true)) = some o ∧
    portOfIpc (createIpcTag 4 1) = 4 ∧ s.threads 5 = some th ∧ th.status = .wai ∧
    th.wait.type = .reply ∧ o.state.threads 5 = some th' ∧ th'.status = .rdy ∧
    th'.wait.type = .none := by
  have hrun : ((run boot staleRun).bind fun s =>
      (step s (.op (.ipcSend (createIpcTag 4 1) 0 4 true))).bind fun o =>
        (s.threads 5).bind fun th => (o.state.threads 5).map fun th' =>
          (th.status, th.wait.type, th'.status, th'.wait.type)) =
      some (.wai, .reply, .rdy, .none) := by
    decide +kernel
  simp only [bind_eq_some_iff, map_eq_some_iff, Prod.mk.injEq] at hrun
  obtain ⟨s, hs, o, ho, th, ht, th', ht', h1, h2, h3, h4⟩ := hrun
  exact ⟨s, o, th, th', hs, ho, by decide, ht, h1, h2, ht', h3, h4⟩

end Eotan.Kernel
