import Eotan.Kernel.Rendezvous

/-!
The messages that go through the ports. A log beside the state numbers the calls and sends in the
order they are made and notes which of them have been handed over and which a receive has returned.
-/

namespace Eotan.Kernel

open Function
open List
open Option

def mailOf (s : State) (t : ℕ) : Option (ℕ × ℕ) :=
  (s.threads t).map fun th => (th.wait.key, th.wait.size)

def heldView (th : Thread) : Option (ℕ × ℕ) :=
  if th.cont = .receive ∧ th.wait.type = .none ∧ th.wait.result = 0 then
    some (th.wait.key, th.wait.size)
  else none

def heldOf (s : State) (t : ℕ) : Option (ℕ × ℕ) := (s.threads t).bind heldView

structure Calm (s s' : State) : Prop where
  callers : ∀ p, (s'.queues (.caller p)).Sublist (s.queues (.caller p))
  receivers : ∀ p, (s'.queues (.receiver p)).Sublist (s.queues (.receiver p))
  mail : ∀ p t, t ∈ s'.queues (.caller p) → ∀ x, mailOf s t = some x → mailOf s' t = some x
  held : ∀ t x, heldOf s' t = some x → heldOf s t = some x

theorem Calm.refl (s : State) : Calm s s :=
  ⟨fun _ => .refl _, fun _ => .refl _, fun _ _ _ _ h => h, fun _ _ h => h⟩

theorem Calm.trans {s s' s'' : State} (h : Calm s s') (h' : Calm s' s'') : Calm s s'' where
  callers p := (h'.callers p).trans (h.callers p)
  receivers p := (h'.receivers p).trans (h.receivers p)
  mail p t ht x hx := h'.mail p t ht x (h.mail p t ((h'.callers p).subset ht) x hx)
  held t x hx := h.held t x (h'.held t x hx)

variable {id : ℕ}

section

variable {s s' : State} {t : ℕ} {th th' : Thread}

theorem mailOf_update (hts : s'.threads = update s.threads t (some th')) (u : ℕ) :
    mailOf s' u = if u = t then some (th'.wait.key, th'.wait.size) else mailOf s u := by
  by_cases hu : u = t
  · subst hu
    simp [mailOf, hts]
  · simp [mailOf, hts, hu]

theorem heldOf_update (hts : s'.threads = update s.threads t (some th')) (u : ℕ) :
    heldOf s' u = if u = t then heldView th' else heldOf s u := by
  by_cases hu : u = t
  · subst hu
    simp [heldOf, hts]
  · simp [heldOf, hts, hu]

theorem calm_touch (ht : s.threads t = some th) (hts : s'.threads = update s.threads t (some th'))
    (hq : ∀ g, (∀ k, g ≠ .reply k) → (s'.queues g).Sublist (s.queues g))
    (hmail : (th'.wait.key = th.wait.key ∧ th'.wait.size = th.wait.size) ∨ ∀ p, t ∉ s'.queues (.caller p))
    (hheld : heldView th' = none ∨ heldView th' = heldView th) : Calm s s' := by
  refine ⟨fun p => hq _ (by simp), fun p => hq _ (by simp), ?_, ?_⟩
  · intro p u hu x hx
    rw [mailOf_update hts]
    split_ifs with he
    · subst he
      rcases hmail with ⟨hk, hsz⟩ | hno
      · rw [hk, hsz, ← hx]
        simp [mailOf, ht]
      · exact absurd hu (hno p)
    · exact hx
  · intro u x hx
    rw [heldOf_update hts] at hx
    split_ifs at hx with he
    · subst he
      rcases hheld with hn | hs
      · rw [hn] at hx
        cases hx
      · simp only [heldOf, ht, bind_some]
        rw [← hs]
        exact hx
    · exact hx

theorem calm_set (ht : s.threads t = some th)
    (hts : s'.threads = update s.threads t (some th')) (hq : s'.queues = s.queues)
    (hw : th'.wait = th.wait) (hheld : heldView th' = none ∨ heldView th' = heldView th) : Calm s s' := by
  refine calm_touch ht hts ?_ (.inl (by rw [hw]; exact ⟨rfl, rfl⟩)) hheld
  intro g _
  rw [hq]

theorem calm_roused {f : Wait → Wait} {th0 : Thread} (ht : s.threads t = some th0)
    (hmail : ((f { th.wait with waiting := none }).key = th0.wait.key ∧
        (f { th.wait with waiting := none }).size = th0.wait.size) ∨
      ∀ p, t ∉ s.queues (.caller p))
    (hheld : heldView (woken th f) = none) : Calm s (roused s t th f) := by
  refine calm_touch ht (roused_threads s t th f) ?_ ?_ (.inl hheld)
  · intro g _
    rw [roused_queues]
    exact erase_sublist
  · rcases hmail with hm | hm
    · exact .inl hm
    · right
      intro p hp
      rw [roused_queues] at hp
      exact hm p (mem_of_mem_erase hp)

theorem calm_same (ht : s'.threads = s.threads) (hcall : ∀ p, s'.queues (.caller p) = s.queues (.caller p))
    (hrecv : ∀ p, s'.queues (.receiver p) = s.queues (.receiver p)) : Calm s s' := by
  have hm : mailOf s' = mailOf s := by
    funext t
    simp only [mailOf, ht]
  have hh : heldOf s' = heldOf s := by
    funext t
    simp only [heldOf, ht]
  refine ⟨?_, ?_, ?_, ?_⟩
  · intro p
    rw [hcall]
  · intro p
    rw [hrecv]
  · intro p t _ x hx
    rw [hm]
    exact hx
  · intro t x hx
    rwa [hh] at hx

theorem clearPort_sublist (s : State) (id : ℕ) (g : Guard) :
    ((clearPort s id).queues g).Sublist (s.queues g) := by
  rcases clearPort_queues s id g with he | he
  · rw [he]
  · rw [he]
    exact nil_sublist _

theorem heldView_of_cont (hc : th.cont ≠ .receive) : heldView th = none := by
  simp [heldView, hc]

theorem note_calm (hm : Note s s') : Calm s s' := by
  cases hm with
  | mark noRequest delay bits hbits => exact calm_same rfl (fun _ => rfl) fun _ => rfl
  | raise t flag th ht _ _ => exact calm_set ht rfl rfl rfl (.inr rfl)
  | rouse t th ht hp _ =>
    exact calm_roused ht (.inl ⟨rfl, rfl⟩) (by simp [heldView, woken, eRlwai])

theorem tail_calm (hm : Tail s s') : Calm s s' := by
  cases hm with
  | note hm => exact note_calm hm
  | switch next prev th hprev ht hr hne =>
    have hview : (yielded prev).wait = prev.wait ∧ heldView (yielded prev) = heldView prev := by
      unfold yielded
      split_ifs <;> exact ⟨rfl, rfl⟩
    have h1 : Calm s (s.set s.running (yielded prev)) := calm_set hprev rfl rfl hview.1 (.inr hview.2)
    exact h1.trans (calm_set ((update_of_ne hne ..).trans ht) rfl rfl rfl (.inr rfl))

theorem act_calm (hm : Act s s') : Calm s s' := by
  cases hm with
  | note hm => exact note_calm hm
  | answer key t size th ht hm hq hc hp =>
    exact calm_roused ht (.inr hq) (heldView_of_cont (by simp [woken, hc]))
  | fire t th ht hst hp =>
    exact calm_set ht rfl rfl rfl (.inl (heldView_of_cont (by simp [fired])))
  | create id priority hnone hid =>
    have hts : (clearPort (s.set id (setup priority)) id).threads =
        update s.threads id (some (setup priority)) := rfl
    refine ⟨fun _ => clearPort_sublist .., fun _ => clearPort_sublist .., ?_, ?_⟩
    · intro p t _ x hx
      rw [mailOf_update hts, if_neg]
      · exact hx
      · rintro rfl
        simp [mailOf, hnone] at hx
    · intro t x hx
      rw [heldOf_update hts] at hx
      split_ifs at hx with he
      · simp [heldView, setup] at hx
      · exact hx
  | suspend t th ht hr hne => exact calm_set ht rfl rfl rfl (.inr rfl)
  | shelve t th st ht hb hb' => exact calm_set ht rfl rfl rfl (.inr rfl)
  | resume t th ht hst hp => exact calm_set ht rfl rfl rfl (.inr rfl)
  | openPort th attr maxCall maxReply ht hop =>
    exact calm_touch ht rfl (fun _ _ => clearPort_sublist ..) (.inl ⟨rfl, rfl⟩) (.inr rfl)
  | done th ht => exact calm_set ht rfl rfl rfl (.inl (heldView_of_cont (by simp)))
  | book replies q => exact calm_same rfl (fun _ => rfl) fun _ => rfl
  | openReply key max q hnone =>
    exact calm_same rfl (fun _ => by simp [openRendezvous]) fun _ => by simp [openRendezvous]
  | rotate p head rest hl => exact calm_same rfl (fun _ => rfl) fun _ => rfl

theorem heed_calm (hm : Heed s s') : Calm s s' := by
  obtain ⟨th, ht⟩ := hm
  exact calm_set ht rfl rfl rfl (.inr rfl)

theorem kill_calm (hm : Kill t s s') : Calm s s' := by
  cases hm with
  | halt th ht hst =>
    exact calm_set ht rfl rfl rfl (.inl (heldView_of_cont (by simp [stopped])))
  | abort th ht hb =>
    exact calm_touch ht rfl (fun _ _ => erase_sublist)
      (.inl ⟨rfl, rfl⟩) (.inl (heldView_of_cont (by simp [aborted, stopped])))

theorem destroy_calm (hm : Destroy id s s') : Calm s s' := by
  obtain ⟨th, ht, hst, hq⟩ := hm
  refine ⟨fun _ => .refl _, fun _ => .refl _, ?_, ?_⟩
  · intro p t hm x hx
    have hne : t ≠ id := by
      rintro rfl
      exact hq _ hm
    simp only [mailOf, update_of_ne hne]
    exact hx
  · intro t x hx
    by_cases he : t = id
    · subst he
      simp [heldOf] at hx
    · simpa only [heldOf, update_of_ne he] using hx

theorem stop_calm (hm : Stop s s') : Calm s s' := by
  obtain ⟨th, ht, hu⟩ := hm
  exact calm_set ht rfl rfl rfl (.inr rfl)

theorem park_calm (hm : Park s s') : Calm s s' := by
  cases hm with
  | listen th ht hty hf =>
    exact calm_touch ht rfl (fun _ _ => .refl _) (.inl ⟨rfl, rfl⟩)
      (.inl (heldView_of_cont (by simp [listening])))
  | suspend th ht hr => exact calm_set ht rfl rfl rfl (.inr rfl)

theorem shut_calm (hm : Shut s s') : Calm s s' := by
  cases hm with
  | close th ht hop => exact calm_set ht rfl rfl rfl (.inr rfl)
  | expel g t th hg ht hm hp =>
    exact calm_roused ht (.inl ⟨rfl, rfl⟩) (by simp [heldView, woken, eDlt])

theorem move_calm {e : Event} (he : e.Plain) (hm : Move e s s') : Calm s s' := by
  cases hm with
  | act hm => exact act_calm hm
  | heed _ hm => exact heed_calm hm
  | kill t _ hm => exact kill_calm hm
  | destroy id _ hm => exact destroy_calm hm
  | stop _ hm => exact stop_calm hm
  | park hm => exact park_calm hm
  | post hn hm => exact absurd he hn
  | shut _ hm => exact shut_calm hm

theorem calm_run {R : State → State → Prop} (hR : ∀ s s', R s s' → Calm s s')
    (h : Relation.ReflTransGen R s s') : Calm s s' := by
  induction h with
  | refl => exact .refl s
  | tail _ hstep ih => exact ih.trans (hR _ _ hstep)

theorem Leaves.calm (hl : Leaves s s') (hb : Base s) : Calm s s' := calm_run (fun _ _ => tail_calm) (hl.tails hb)

theorem Ran.calm {R : State → State → Prop} (hR : ∀ s s', R s s' → Calm s s') (h : Ran R s s') : Calm s s' := by
  obtain ⟨s1, hs1, hb, hl⟩ := h
  exact (calm_run hR hs1).trans (hl.calm hb)

end

structure Mail where
  port : ℕ
  sender : ℕ
  tag : ℕ
  size : ℕ
deriving DecidableEq, Repr

structure Receipt where
  mail : ℕ
  port : ℕ
  tag : Option ℕ
  size : Option ℤ
deriving DecidableEq, Repr

structure Log where
  posts : List Mail
  queued : ℕ → ℕ
  got : List ℕ
  holds : ℕ → ℕ
  asked : ℕ → ℕ
  returned : List Receipt

def Log.empty : Log := ⟨[], fun _ => 0, [], fun _ => 0, fun _ => 0, []⟩

def Log.post (l : Log) (t : ℕ) (m : Mail) : Log :=
  { l with
    posts := l.posts ++ [m]
    queued := Function.update l.queued t l.posts.length }

def Log.deliver (l : Log) (t : ℕ) (m : Mail) : Log :=
  { l with
    posts := l.posts ++ [m]
    got := l.got ++ [l.posts.length]
    holds := Function.update l.holds t l.posts.length }

def Log.take (l : Log) (id : ℕ) : Log := { l with got := l.got ++ [id] }

def Log.ask (l : Log) (t p : ℕ) : Log := { l with asked := Function.update l.asked t p }

def Log.give (l : Log) (r : Receipt) : Log := { l with returned := l.returned ++ [r] }

/-- The tag of a message of the running thread: its id, and the key of the rendezvous that it
waits for, or 0. -/
def sentTag (s : State) (o : Outcome) : ℕ :=
  match (o.state.threads s.running).map Thread.cont with
  | some (.call key) => createIpcTag s.running key
  | _ => createIpcTag s.running 0

def recordPost (l : Log) (s : State) (o : Outcome) (p size : ℕ) : Log :=
  let m : Mail := ⟨p, s.running, sentTag s o, size⟩
  if o.handed.isSome then l.deliver ((s.queues (.receiver p)).headD 0) m
  else if o.ret.isNone then l.post s.running m
  else l

def record (l : Log) (s : State) (o : Outcome) : Event → Log
  | .op (.ipcCall p _ size _ _) => recordPost l s o p size
  | .op (.ipcSend tag _ size _) => if keyOfIpc tag ≠ 0 then l else recordPost l s o tag size
  | .op (.ipcReceive p _ _) =>
    if o.tag.isSome then
      let id := l.queued ((s.queues (.caller p)).headD 0)
      (l.take id).give ⟨id, p, o.tag, o.ret⟩
    else if o.ret.isNone then l.ask s.running p
    else l
  | .finish =>
    if o.tag.isSome then l.give ⟨l.holds s.running, l.asked s.running, o.tag, o.ret⟩ else l
  | _ => l

inductive Logged : State → Log → Prop
  | boot : Logged boot .empty
  | step {s : State} {l : Log} {e : Event} {o : Outcome} :
    Logged s l → step s e = some o → Logged o.state (record l s o e)

def logRun (s : State) (l : Log) : List Event → Option (State × Log)
  | [] => some (s, l)
  | e :: es => do
    let o ← step s e
    logRun o.state (record l s o e) es

theorem Logged.run {s s' : State} {l l' : Log} {es : List Event} (h : Logged s l)
    (hr : logRun s l es = some (s', l')) : Logged s' l' := by
  induction es generalizing s l with
  | nil =>
    cases hr
    exact h
  | cons e es ih =>
    simp only [logRun, bind_eq_bind, bind_eq_some_iff] at hr
    obtain ⟨o, hs, hr⟩ := hr
    exact ih (h.step hs) hr

def Log.portOf (l : Log) (id : ℕ) : Option ℕ := l.posts[id]?.map (·.port)

structure Posted (s : State) (l : Log) : Prop where
  one : ∀ p, s.queues (.caller p) = [] ∨ s.queues (.receiver p) = []
  mail : ∀ p t, t ∈ s.queues (.caller p) → ∃ m, l.posts[l.queued t]? = some m ∧ m.port = p ∧
    mailOf s t = some (m.tag, m.size)
  order : ∀ p, (s.queues (.caller p)).Pairwise fun t u => l.queued t < l.queued u
  after : ∀ p t, t ∈ s.queues (.caller p) → ∀ id ∈ l.got, l.portOf id = some p → id < l.queued t
  asks : ∀ p t, t ∈ s.queues (.receiver p) → l.asked t = p
  bound : ∀ id ∈ l.got, id < l.posts.length
  sorted : l.got.Pairwise fun i j => l.portOf i = l.portOf j → i < j
  held : ∀ t x, heldOf s t = some x → l.holds t ∈ l.got ∧
    (∀ r ∈ l.returned, r.mail ≠ l.holds t) ∧
    ∃ m, l.posts[l.holds t]? = some m ∧ m.port = l.asked t ∧ x = (m.tag, m.size)
  apart : ∀ t u, (heldOf s t).isSome → (heldOf s u).isSome → l.holds t = l.holds u → t = u
  receipt : ∀ r ∈ l.returned, r.mail ∈ l.got ∧ ∃ m, l.posts[r.mail]? = some m ∧ m.port = r.port ∧
    r.tag = some m.tag ∧ r.size = some (m.size : ℤ)
  once : (l.returned.map (·.mail)).Nodup
  sender : ∀ m ∈ l.posts, portOfIpc m.tag = m.sender

section

variable {s s' : State} {l : Log}

theorem Posted.one_sublist {p : ℕ} (h : Posted s l)
    (hcall : (s'.queues (.caller p)).Sublist (s.queues (.caller p)))
    (hrecv : (s'.queues (.receiver p)).Sublist (s.queues (.receiver p))) :
    s'.queues (.caller p) = [] ∨ s'.queues (.receiver p) = [] := by
  rcases h.one p with he | he
  · rw [he, sublist_nil] at hcall
    exact .inl hcall
  · rw [he, sublist_nil] at hrecv
    exact .inr hrecv

theorem Posted.apart_of (h : Posted s l) (hheld : ∀ t x, heldOf s' t = some x → heldOf s t = some x) :
    ∀ t u, (heldOf s' t).isSome → (heldOf s' u).isSome → l.holds t = l.holds u → t = u := by
  intro t u ht hu
  obtain ⟨x, hx⟩ := isSome_iff_exists.mp ht
  obtain ⟨y, hy⟩ := isSome_iff_exists.mp hu
  exact h.apart t u (by rw [hheld t x hx]; rfl) (by rw [hheld u y hy]; rfl)

theorem Posted.calm (h : Posted s l) (hc : Calm s s') : Posted s' l where
  one p := h.one_sublist (hc.callers p) (hc.receivers p)
  mail p t ht := by
    obtain ⟨m, hm, hp, hx⟩ := h.mail p t ((hc.callers p).subset ht)
    exact ⟨m, hm, hp, hc.mail p t ht _ hx⟩
  order p := (h.order p).sublist (hc.callers p)
  after p t ht := h.after p t ((hc.callers p).subset ht)
  asks p t ht := h.asks p t ((hc.receivers p).subset ht)
  bound := h.bound
  sorted := h.sorted
  held t x hx := h.held t x (hc.held t x hx)
  apart := h.apart_of hc.held
  receipt := h.receipt
  once := h.once
  sender := h.sender

variable {m : Mail} {p t : ℕ}

theorem getElem?_post {m' : Mail} (h : l.posts[id]? = some m) : (l.posts ++ [m'])[id]? = some m := by
  rw [getElem?_append_left]
  · exact h
  · exact (List.getElem?_eq_some_iff.mp h).1

theorem portOf_post {m' : Mail} (h : id < l.posts.length) :
    (l.posts ++ [m'])[id]?.map (·.port) = l.portOf id := by
  rw [getElem?_append_left h]
  rfl

section

variable (h : Posted s l)
include h

theorem Posted.receipts_post : ∀ r ∈ l.returned, r.mail ∈ l.got ∧ ∃ m', (l.posts ++ [m])[r.mail]? = some m' ∧
      m'.port = r.port ∧ r.tag = some m'.tag ∧ r.size = some (m'.size : ℤ) := by
  intro r hr
  obtain ⟨hg, m', hm', hrest⟩ := h.receipt r hr
  exact ⟨hg, m', getElem?_post hm', hrest⟩

theorem Posted.sender_post (hm : portOfIpc m.tag = m.sender) :
    ∀ m' ∈ l.posts ++ [m], portOfIpc m'.tag = m'.sender :=
  forall_mem_append.mpr ⟨h.sender, forall_mem_singleton.mpr hm⟩

theorem Posted.sorted_post :
    l.got.Pairwise fun i j => (l.posts ++ [m])[i]?.map (·.port) = (l.posts ++ [m])[j]?.map (·.port) → i < j := by
  refine h.sorted.imp_of_mem ?_
  intro i j hi hj hlt he
  rw [portOf_post (h.bound i hi), portOf_post (h.bound j hj)] at he
  exact hlt he

theorem Posted.post {r : ℕ} (hr : ∀ p, r ∉ s.queues (.caller p))
    (hempty : s.queues (.receiver p) = []) (hcall : ∀ p', s'.queues (.caller p') =
      if p' = p then s.queues (.caller p') ++ [r] else s.queues (.caller p'))
    (hrecv : ∀ p', s'.queues (.receiver p') = s.queues (.receiver p'))
    (hmail : ∀ t, mailOf s' t = if t = r then some (m.tag, m.size) else mailOf s t)
    (hheld : ∀ t x, heldOf s' t = some x → heldOf s t = some x) (hport : m.port = p)
    (hsender : portOfIpc m.tag = m.sender) : Posted s' (l.post r m) := by
  have hmem : ∀ p' t, t ∈ s'.queues (.caller p') → (t ≠ r ∧ t ∈ s.queues (.caller p')) ∨ (t = r ∧ p' = p) := by
    intro p' t ht
    have hne : t ∈ s.queues (.caller p') → t ≠ r := by
      rintro ht rfl
      exact hr p' ht
    rw [hcall] at ht
    split_ifs at ht with hp
    · rcases mem_append.mp ht with ht | ht
      · exact .inl ⟨hne ht, ht⟩
      · exact .inr ⟨mem_singleton.mp ht, hp⟩
    · exact .inl ⟨hne ht, ht⟩
  have hqueued : ∀ t, t ≠ r → (l.post r m).queued t = l.queued t := by
    intro t ht
    exact update_of_ne ht ..
  have hself : (l.post r m).queued r = l.posts.length := update_self ..
  have hlt : ∀ p' t, t ∈ s.queues (.caller p') → l.queued t < l.posts.length := by
    intro p' t ht
    obtain ⟨m', hm', -⟩ := h.mail p' t ht
    exact (List.getElem?_eq_some_iff.mp hm').1
  constructor
  · intro p'
    by_cases hp : p' = p
    · right
      rw [hrecv, hp]
      exact hempty
    · rw [hcall, if_neg hp, hrecv]
      exact h.one p'
  · intro p' t ht
    rw [hmail]
    rcases hmem p' t ht with ⟨hne, ht⟩ | ⟨rfl, rfl⟩
    · obtain ⟨m', hm', hp', hx⟩ := h.mail p' t ht
      rw [hqueued t hne, if_neg hne]
      exact ⟨m', getElem?_post hm', hp', hx⟩
    · rw [hself, if_pos rfl]
      exact ⟨m, by simp [Log.post], hport, rfl⟩
  · intro p'
    have hold : (s.queues (.caller p')).Pairwise fun t u => (l.post r m).queued t < (l.post r m).queued u := by
      refine (h.order p').imp_of_mem ?_
      intro t u ht hu hlt
      rw [hqueued t (by rintro rfl; exact hr p' ht), hqueued u (by rintro rfl; exact hr p' hu)]
      exact hlt
    rw [hcall]
    split_ifs
    · refine pairwise_append.mpr ⟨hold, pairwise_singleton _ _, ?_⟩
      intro t ht u hu
      rw [mem_singleton.mp hu, hself, hqueued t (by rintro rfl; exact hr p' ht)]
      exact hlt p' t ht
    · exact hold
  · intro p' t ht id hid hp'
    rcases hmem p' t ht with ⟨hne, ht⟩ | ⟨rfl, rfl⟩
    · rw [hqueued t hne]
      apply h.after p' t ht id hid
      rw [← hp']
      exact (portOf_post (h.bound id hid)).symm
    · rw [hself]
      exact h.bound id hid
  · intro p' t ht
    rw [hrecv] at ht
    exact h.asks p' t ht
  · intro id hid
    have := h.bound id hid
    simp only [Log.post, length_append, length_singleton]
    omega
  · exact h.sorted_post
  · intro t x hx
    obtain ⟨hg, hret, m', hm', hrest⟩ := h.held t x (hheld t x hx)
    exact ⟨hg, hret, m', getElem?_post hm', hrest⟩
  · exact h.apart_of hheld
  · exact h.receipts_post
  · exact h.once
  · exact h.sender_post hsender

theorem Posted.deliver (hempty : s.queues (.caller p) = [])
    (hcall : ∀ p', (s'.queues (.caller p')).Sublist (s.queues (.caller p')))
    (hrecv : ∀ p', (s'.queues (.receiver p')).Sublist (s.queues (.receiver p')))
    (hmail : ∀ p' u, u ∈ s'.queues (.caller p') → mailOf s' u = mailOf s u)
    (hheld : ∀ u x, heldOf s' u = some x → (u = t ∧ x = (m.tag, m.size)) ∨ (u ≠ t ∧ heldOf s u = some x))
    (hask : l.asked t = p) (hport : m.port = p) (hsender : portOfIpc m.tag = m.sender) :
    Posted s' (l.deliver t m) := by
  have hfresh : ∀ id ∈ l.got, id ≠ l.posts.length := by
    intro id hid
    have := h.bound id hid
    omega
  have hself : (l.deliver t m).holds t = l.posts.length := update_self ..
  have hother : ∀ u, u ≠ t → (l.deliver t m).holds u = l.holds u := by
    intro u hu
    exact update_of_ne hu ..
  have hnew : (l.posts ++ [m])[l.posts.length]? = some m := by simp
  constructor
  · intro p'
    exact h.one_sublist (hcall p') (hrecv p')
  · intro p' u hu
    obtain ⟨m', hm', hp', hx⟩ := h.mail p' u ((hcall p').subset hu)
    exact ⟨m', getElem?_post hm', hp', (hmail p' u hu).trans hx⟩
  · intro p'
    exact (h.order p').sublist (hcall p')
  · intro p' u hu id hid hp'
    rcases mem_append.mp hid with hid | hid
    · apply h.after p' u ((hcall p').subset hu) id hid
      rw [← hp']
      exact (portOf_post (h.bound id hid)).symm
    rw [mem_singleton.mp hid] at hp'
    simp only [Log.portOf, Log.deliver, hnew, map_some, some.injEq] at hp'
    rw [← hp', hport] at hu
    have := (hcall p).subset hu
    rw [hempty] at this
    cases this
  · intro p' u hu
    exact h.asks p' u ((hrecv p').subset hu)
  · intro id hid
    simp only [Log.deliver, length_append, length_singleton]
    rcases mem_append.mp hid with hid | hid
    · have := h.bound id hid
      omega
    · rw [mem_singleton.mp hid]
      omega
  · refine pairwise_append.mpr ⟨h.sorted_post, pairwise_singleton _ _, ?_⟩
    intro i hi j hj _
    rw [mem_singleton.mp hj]
    exact h.bound i hi
  · intro u x hx
    rcases hheld u x hx with ⟨rfl, rfl⟩ | ⟨hne, hx⟩
    · rw [hself]
      refine ⟨mem_append_right _ (mem_singleton_self _), ?_, m, hnew, ?_, rfl⟩
      · intro r hr
        exact hfresh _ (h.receipt r hr).1
      · exact hport.trans hask.symm
    · obtain ⟨hg, hret, m', hm', hrest⟩ := h.held u x hx
      rw [hother u hne]
      exact ⟨mem_append_left _ hg, hret, m', getElem?_post hm', hrest⟩
  · intro u v hu hv he
    obtain ⟨x, hx⟩ := isSome_iff_exists.mp hu
    obtain ⟨y, hy⟩ := isSome_iff_exists.mp hv
    rcases hheld u x hx with ⟨rfl, -⟩ | ⟨hne, hx⟩
    · rcases hheld v y hy with ⟨rfl, -⟩ | ⟨hne, hy⟩
      · rfl
      · rw [hself, hother v hne] at he
        exact absurd he.symm (hfresh _ (h.held v y hy).1)
    rcases hheld v y hy with ⟨rfl, -⟩ | ⟨hne', hy⟩
    · rw [hself, hother u hne] at he
      exact absurd he (hfresh _ (h.held u x hx).1)
    · rw [hother u hne, hother v hne'] at he
      exact h.apart u v (by rw [hx]; rfl) (by rw [hy]; rfl) he
  · intro r hr
    obtain ⟨hg, hrest⟩ := h.receipts_post r hr
    exact ⟨mem_append_left _ hg, hrest⟩
  · exact h.once
  · exact h.sender_post hsender

theorem Posted.once_give {r : Receipt}
    (hr : ∀ r' ∈ l.returned, r'.mail ≠ r.mail) : ((l.give r).returned.map (·.mail)).Nodup := by
  simp only [Log.give, map_append, map_singleton]
  refine nodup_append.mpr ⟨h.once, nodup_singleton _, ?_⟩
  intro a ha b hb
  obtain ⟨r', hr', rfl⟩ := mem_map.mp ha
  rw [mem_singleton.mp hb]
  exact hr r' hr'

theorem Posted.take {tag size : ℕ} {rest : List ℕ} (hc : Calm s s')
    (hq : s.queues (.caller p) = t :: rest) (hq' : s'.queues (.caller p) = rest)
    (hmail : mailOf s t = some (tag, size)) :
    Posted s' ((l.take (l.queued t)).give ⟨l.queued t, p, some tag, some (size : ℤ)⟩) := by
  have h' := h.calm hc
  have ht := mem_of_head hq
  obtain ⟨m, hm, hport, hx⟩ := h.mail p t ht
  have hportOf : l.portOf (l.queued t) = some p := by
    simp only [Log.portOf, hm, map_some, hport]
  have hnew : l.queued t ∉ l.got := by
    intro hg
    have := h.after p t ht _ hg hportOf
    omega
  rw [hmail, some.injEq, Prod.mk.injEq] at hx
  constructor
  · exact h'.one
  · exact h'.mail
  · exact h'.order
  · intro p' u hu id hid hp'
    rcases mem_append.mp hid with hid | hid
    · exact h'.after p' u hu id hid hp'
    rw [mem_singleton.mp hid] at hp' ⊢
    have hpp : some p = some p' := hportOf.symm.trans hp'
    rw [some.injEq] at hpp
    subst hpp
    have hord := h.order p
    rw [hq] at hord
    rw [hq'] at hu
    exact (pairwise_cons.mp hord).1 u hu
  · exact h'.asks
  · exact forall_mem_append.mpr ⟨h.bound, forall_mem_singleton.mpr (List.getElem?_eq_some_iff.mp hm).1⟩
  · refine pairwise_append.mpr ⟨h.sorted, pairwise_singleton _ _, ?_⟩
    intro i hi j hj he
    rw [mem_singleton.mp hj] at he ⊢
    exact h.after p t ht i hi (he.trans hportOf)
  · intro u x hx
    obtain ⟨hg, hret, hm'⟩ := h'.held u x hx
    refine ⟨mem_append_left _ hg, forall_mem_append.mpr ⟨hret, forall_mem_singleton.mpr fun he => ?_⟩, hm'⟩
    have he' : l.queued t = l.holds u := he
    exact hnew (he' ▸ hg)
  · exact h'.apart
  · intro r hr
    rcases mem_append.mp hr with hr | hr
    · obtain ⟨hg, hrest⟩ := h.receipt r hr
      exact ⟨mem_append_left _ hg, hrest⟩
    · rw [mem_singleton.mp hr]
      refine ⟨mem_append_right _ (mem_singleton_self _), m, hm, hport, ?_, ?_⟩
      · rw [hx.1]
      · rw [hx.2]
  · apply h.once_give
    intro r hr he
    have he' : r.mail = l.queued t := he
    exact hnew (he' ▸ (h.receipt r hr).1)
  · exact h.sender

theorem Posted.give {tag size : ℕ} (hc : Calm s s')
    (hheld : heldOf s t = some (tag, size)) (hnone : heldOf s' t = none) :
    Posted s' (l.give ⟨l.holds t, l.asked t, some tag, some (size : ℤ)⟩) := by
  have h' := h.calm hc
  obtain ⟨hg, hret, m, hm, hport, hx⟩ := h.held t _ hheld
  rw [Prod.mk.injEq] at hx
  constructor
  · exact h'.one
  · exact h'.mail
  · exact h'.order
  · exact h'.after
  · exact h'.asks
  · exact h'.bound
  · exact h'.sorted
  · intro u x hx'
    obtain ⟨hg', hret', hm'⟩ := h'.held u x hx'
    refine ⟨hg', forall_mem_append.mpr ⟨hret', forall_mem_singleton.mpr fun he => ?_⟩, hm'⟩
    have hut : t = u := h.apart t u (by rw [hheld]; rfl) (by rw [hc.held u x hx']; rfl) he
    rw [← hut, hnone] at hx'
    cases hx'
  · exact h'.apart
  · refine forall_mem_append.mpr ⟨h.receipt, forall_mem_singleton.mpr ⟨hg, m, hm, hport, ?_, ?_⟩⟩
    · rw [hx.1]
    · rw [hx.2]
  · exact h.once_give hret
  · exact h.sender

theorem Posted.ask {r : ℕ} (hr : ∀ p, r ∉ s.queues (.receiver p)) (hempty : s.queues (.caller p) = [])
    (hcall : ∀ p', s'.queues (.caller p') = s.queues (.caller p')) (hrecv : ∀ p', s'.queues (.receiver p') =
      if p' = p then s.queues (.receiver p') ++ [r] else s.queues (.receiver p'))
    (hmail : ∀ t, mailOf s' t = mailOf s t)
    (hheld : ∀ t x, heldOf s' t = some x → t ≠ r ∧ heldOf s t = some x) : Posted s' (l.ask r p) := by
  have hasked : ∀ t, t ≠ r → (l.ask r p).asked t = l.asked t := by
    intro t ht
    exact update_of_ne ht ..
  constructor
  · intro p'
    by_cases hp : p' = p
    · left
      rw [hcall, hp]
      exact hempty
    · rw [hrecv, if_neg hp, hcall]
      exact h.one p'
  · intro p' t ht
    rw [hcall] at ht
    obtain ⟨m, hm, hp', hx⟩ := h.mail p' t ht
    exact ⟨m, hm, hp', (hmail t).trans hx⟩
  · intro p'
    rw [hcall]
    exact h.order p'
  · intro p' t ht
    rw [hcall] at ht
    exact h.after p' t ht
  · intro p' t ht
    have hold : t ∈ s.queues (.receiver p') → (l.ask r p).asked t = p' := by
      intro ht
      rw [hasked t (by rintro rfl; exact hr p' ht)]
      exact h.asks p' t ht
    rw [hrecv] at ht
    split_ifs at ht with hp
    · rcases mem_append.mp ht with ht | ht
      · exact hold ht
      · rw [mem_singleton.mp ht, hp]
        exact update_self ..
    · exact hold ht
  · exact h.bound
  · exact h.sorted
  · intro t x hx
    obtain ⟨hne, hx⟩ := hheld t x hx
    obtain ⟨hg, hret, m, hm, hport, hx⟩ := h.held t x hx
    exact ⟨hg, hret, m, hm, hport.trans (hasked t hne).symm, hx⟩
  · exact h.apart_of fun t x hx => (hheld t x hx).2
  · exact h.receipt
  · exact h.once
  · exact h.sender

end

end

end Eotan.Kernel
