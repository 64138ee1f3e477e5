import Eotan.Kernel.Rendezvous

namespace Eotan.Kernel

open Eotan.Sequence
open Function

def readyView (th : Thread) : Option ℕ :=
  if th.status = .run ∨ th.status = .rdy then some th.priority else none

def place (s : State) (t : ℕ) : Option ℕ := (s.threads t).bind readyView

variable {th : Thread} {s s' : State}

theorem readyView_eq_some {p : ℕ} : readyView th = some p ↔ Runnable th ∧ th.priority = p := by
  simp [readyView, Runnable]

theorem readyView_eq_none : readyView th = none ↔ ¬Runnable th := by
  simp [readyView, Runnable]

theorem place_of_thread {t : ℕ} (h : s.threads t = some th) : place s t = readyView th := by
  simp [place, h]

theorem place_update {t : ℕ} {th : Option Thread} (h : s'.threads = update s.threads t th) :
    place s' = update (place s) t (th.bind readyView) := by
  funext u
  by_cases hu : u = t
  · subst hu
    simp [place, h]
  · simp [place, h, hu]

structure Scheduled (s : State) : Prop where
  count : ∀ p t, (s.readyTask p).count t = if place s t = some p then 1 else 0
  bits : ∀ p, s.readyTask p ≠ [] → s.readyBits.getLsbD p = true

section

variable {s s' : State} {t : ℕ} (h : Scheduled s)

include h

theorem Scheduled.same (hv : place s' = place s) (hr : s'.readyTask = s.readyTask)
    (hb : s'.readyBits = s.readyBits) : Scheduled s' := by
  constructor
  · rw [hv, hr]
    exact h.count
  · rw [hr, hb]
    exact h.bits

theorem Scheduled.touch {th' : Option Thread} (ht : s.threads t = some th)
    (hts : s'.threads = update s.threads t th') (hv : th'.bind readyView = readyView th)
    (hr : s'.readyTask = s.readyTask) (hb : s'.readyBits = s.readyBits) : Scheduled s' := by
  refine h.same ?_ hr hb
  rw [place_update hts, hv, ← place_of_thread ht, update_eq_self]

theorem Scheduled.leave {th' : Thread} (hts : s'.threads = update s.threads t (some th'))
    (hv : readyView th' = none) (hr : s'.readyTask = fun p => (s.readyTask p).filter (· ≠ t))
    (hb : s'.readyBits = s.readyBits) : Scheduled s' := by
  constructor
  · intro p u
    rw [hr, place_update hts, Option.bind_some, hv]
    by_cases hu : u = t
    · subst hu
      rw [update_self, if_neg (by simp), List.count_eq_zero]
      simp
    · rw [update_of_ne hu, List.count_filter (by simpa using hu)]
      exact h.count p u
  · intro p hp
    rw [hb]
    apply h.bits
    intro he
    simp [hr, he] at hp

theorem Scheduled.enter {pri : ℕ} {th' : Thread}
    (hts : s'.threads = update s.threads t (some th')) (hn : place s t = none) (hv : readyView th' = some pri)
    (hr : s'.readyTask = update s.readyTask pri (s.readyTask pri ++ [t]))
    (hb : s'.readyBits = s.readyBits ||| 1#32 <<< pri) (hp : pri ≤ maxPriority) : Scheduled s' := by
  constructor
  · intro p u
    rw [hr, place_update hts, Option.bind_some, hv]
    have hcount := h.count p u
    by_cases hu : u = t
    · subst hu
      rw [hn, if_neg (by simp)] at hcount
      by_cases hpp : p = pri
      · subst hpp
        simp [hcount]
      · rw [update_of_ne hpp, update_self, hcount, if_neg]
        simpa using Ne.symm hpp
    · rw [update_of_ne hu, ← hcount]
      by_cases hpp : p = pri
      · subst hpp
        simp [Ne.symm hu]
      · rw [update_of_ne hpp]
  · intro p hne
    rw [hb, BitVec.getLsbD_or, Bool.or_eq_true]
    by_cases hpp : p = pri
    · subst hpp
      right
      simp only [maxPriority] at hp
      simp
      omega
    · rw [hr, update_of_ne hpp] at hne
      exact .inl (h.bits p hne)

theorem Scheduled.roused {th0 : Thread} {f : Wait → Wait} (ht : s.threads t = some th0)
    (hb0 : Blocked th0) (hp : Placed th) : Scheduled (roused s t th f) := by
  have hnone : place s t = none := by
    rw [place_of_thread ht, readyView_eq_none]
    rcases hb0 with hs | hs <;> simp [Runnable, hs]
  unfold Kernel.roused
  split_ifs with hst
  · exact h.enter rfl hnone (by simp [readyView, woken, hst]) rfl rfl (hp.2 hst)
  · have hst' : th.status = .was := hp.1.resolve_left hst
    refine h.touch ht rfl ?_ rfl rfl
    rw [← place_of_thread ht, hnone]
    simp [readyView, woken, hst']

theorem Scheduled.parked (hv : readyView th = none) : Scheduled (parked s th) := h.leave rfl hv rfl rfl

end

theorem note_scheduled (hm : Note s s') (h : Scheduled s) : Scheduled s' := by
  cases hm with
  | mark noRequest delay bits hbits =>
    exact ⟨h.count, fun p hp => hbits p hp (h.bits p hp)⟩
  | raise t flag th ht _ _ => exact h.touch ht rfl rfl rfl rfl
  | rouse t th ht hp _ => exact h.roused ht hp.1 hp

theorem tail_scheduled (hm : Tail s s') (h : Scheduled s) : Scheduled s' := by
  cases hm with
  | note hm => exact note_scheduled hm h
  | switch next prev th hprev ht hr hne =>
    have hview : readyView (yielded prev) = readyView prev := by
      unfold yielded
      split_ifs with hrun
      · simp [readyView, hrun]
      · rfl
    have h1 : Scheduled (s.set s.running (yielded prev)) := h.touch hprev rfl hview rfl rfl
    refine h1.touch ((update_of_ne hne ..).trans ht) rfl ?_ rfl rfl
    rcases hr with hr | hr <;> simp [readyView, hr]

theorem act_scheduled (hm : Act s s') (h : Scheduled s) : Scheduled s' := by
  cases hm with
  | note hm => exact note_scheduled hm h
  | answer key t size th ht hm hq hc hp => exact h.roused ht hp.1 hp
  | fire t th ht hst hp =>
    have hnone : place s t = none := by
      rw [place_of_thread ht]
      simp [readyView, hst]
    exact h.enter (by simp [enqueue]; rfl) hnone (by simp [readyView, fired]) rfl rfl hp
  | create id priority hnone hid =>
    refine h.same ?_ rfl rfl
    have hts : (clearPort (s.set id (setup priority)) id).threads =
        update s.threads id (some (setup priority)) := rfl
    rw [place_update hts]
    have hn : place s id = (some (setup priority)).bind readyView := by
      simp [place, hnone, readyView, setup]
    rw [← hn, update_eq_self]
  | suspend t th ht hr hne => exact h.leave rfl (by simp [readyView]) rfl rfl
  | shelve t th st ht hb hb' =>
    refine h.touch ht rfl ?_ rfl rfl
    rcases hb with hb | hb <;> rcases hb' with hb' | hb' <;> simp_all [readyView]
  | resume t th ht hst hp =>
    have hnone : place s t = none := by
      rw [place_of_thread ht]
      simp [readyView, hst]
    exact h.enter (by simp [enqueue]; rfl) hnone (by simp [readyView]) rfl rfl hp
  | openPort th attr maxCall maxReply ht hop => exact h.touch ht rfl rfl rfl rfl
  | done th ht => exact h.touch ht rfl rfl rfl rfl
  | book replies q => exact h.same rfl rfl rfl
  | openReply key max q hnone => exact h.same rfl rfl rfl
  | rotate p head rest hl =>
    constructor
    · intro q t
      have hcount := h.count q t
      by_cases hq : q = p
      · subst hq
        rw [hl] at hcount
        refine Eq.trans ?_ hcount
        simp only [update_self]
        exact (List.perm_append_singleton head rest).count_eq t
      · simp only [update_of_ne hq]
        exact hcount
    · intro q hq
      apply h.bits
      intro he
      by_cases hp : q = p
      · subst hp
        rw [hl] at he
        cases he
      · simp only [update_of_ne hp] at hq
        exact hq he

theorem post_scheduled (hm : Post s s') (h : Scheduled s) : Scheduled s' := by
  cases hm with
  | wait g th f c ht hty hf hok hflag hopen htag =>
    exact (h.parked (by simp [readyView, blocked])).same rfl rfl rfl
  | hand p t size key th ht hm hp => exact h.roused ht hp.1 hp
  | accept p t th ht hm hty => exact h.touch ht rfl rfl rfl rfl
  | sent p t th ht hm hty hp => exact h.roused ht hp.1 hp

theorem move_scheduled {e : Event} (hm : Move e s s') (h : Scheduled s) : Scheduled s' := by
  cases hm with
  | act hm => exact act_scheduled hm h
  | heed _ hm =>
    obtain ⟨th, ht⟩ := hm
    exact h.touch ht rfl rfl rfl rfl
  | kill t _ hm =>
    cases hm with
    | halt th ht hst => exact h.leave rfl (by simp [readyView, stopped]) rfl rfl
    | abort th ht hb =>
      refine h.touch ht rfl ?_ rfl rfl
      rcases hb with hb | hb <;> simp [readyView, aborted, stopped, hb]
  | destroy id _ hm =>
    obtain ⟨th, ht, hst, hq⟩ := hm
    exact h.touch ht rfl (by simp [readyView, hst]) rfl rfl
  | stop _ hm =>
    obtain ⟨th, ht, hu⟩ := hm
    exact h.parked (by simp [readyView])
  | park hm =>
    cases hm with
    | listen th ht hty hf => exact h.parked (by simp [readyView, listening])
    | suspend th ht hr => exact h.parked (by simp [readyView])
  | post _ hm => exact post_scheduled hm h
  | shut _ hm =>
    cases hm with
    | close th ht hop => exact h.touch ht rfl rfl rfl rfl
    | expel g t th hg ht hm hp => exact h.roused ht hp.1 hp

theorem boot_scheduled : Scheduled boot := by
  constructor
  · intro p t
    by_cases ht : t = portIdle
    · subst ht
      by_cases hp : p = maxPriority
      · subst hp
        decide
      · simp [boot, place, readyView, hp, Ne.symm hp]
    · by_cases hp : p = maxPriority
      · subst hp
        simp [boot, place, ht, Ne.symm ht]
      · simp [boot, place, ht, hp]
  · intro p hp
    by_cases he : p = maxPriority
    · subst he
      decide
    · simp [boot, he] at hp

theorem Reachable.scheduled {P : State → Event → Prop} (h : Reachable P s) : Scheduled s := by
  induction h with
  | boot => exact boot_scheduled
  | step hr _ hs ih =>
    exact (step_ran hr.base.1 hr.base.2 hs).keeps (fun _ _ => move_scheduled) (fun _ _ => tail_scheduled) ih

theorem countNtz_le {d : BitVec 32} {j : ℕ} (h : d.getLsbD j = true) : countNtz d ≤ j := by
  have hj : j < 32 := BitVec.lt_of_getLsbD h
  unfold countNtz
  cases hf : (List.range 32).find? fun i => d.getLsbD i with
  | none => exact absurd h (by simpa using List.find?_eq_none.mp hf j (List.mem_range.mpr hj))
  | some i =>
    obtain ⟨-, -, hlow⟩ := List.find?_range_eq_some.mp hf
    by_contra hlt
    have := hlow j (not_le.mp hlt)
    simp [h] at this

theorem readyDequeue_spec {readyTask : ℕ → List ℕ} {bits : BitVec 32} {fuel i : ℕ}
    (hbits : ∀ p, readyTask p ≠ [] → bits.getLsbD p = true)
    (hlow : ∀ p, bits.getLsbD p = true → i ≤ p) (hfuel : 33 ≤ fuel + i) :
    match (readyDequeue readyTask fuel bits).1 with
    | some t => ∃ p rest, readyTask p = t :: rest ∧ ∀ q, readyTask q ≠ [] → p ≤ q
    | none => ∀ p, readyTask p = [] := by
  have hzero : bits = 0#32 → ∀ p, readyTask p = [] := by
    intro hz p
    by_contra hp
    have := hbits p hp
    simp [hz] at this
  induction fuel generalizing bits i with
  | zero =>
    simp only [readyDequeue]
    intro p
    by_contra hp
    have hb := hbits p hp
    have hlt := BitVec.lt_of_getLsbD hb
    have := hlow p hb
    omega
  | succ fuel ih =>
    simp only [readyDequeue]
    split_ifs with hz
    · exact hzero hz
    obtain ⟨hlt, hbit⟩ := countNtz_spec hz
    have hbelow : ∀ p, readyTask p ≠ [] → countNtz bits ≤ p := fun p hp => countNtz_le (hbits p hp)
    cases hq : readyTask (countNtz bits) with
    | cons t rest => exact ⟨countNtz bits, rest, hq, hbelow⟩
    | nil =>
      have hclear : ∀ p, (bits &&& ~~~(1#32 <<< countNtz bits)).getLsbD p = true ↔
          bits.getLsbD p = true ∧ p ≠ countNtz bits := by
        intro p
        by_cases hp : p < 32
        · simp [hp]
          omega
        · simp [BitVec.getLsbD_of_ge bits p (not_lt.mp hp)]
      have hbits' : ∀ p, readyTask p ≠ [] → (bits &&& ~~~(1#32 <<< countNtz bits)).getLsbD p = true := by
        intro p hp
        rw [hclear]
        refine ⟨hbits p hp, ?_⟩
        rintro rfl
        exact hp hq
      refine ih hbits' (i := i + 1) ?_ (by omega) ?_
      · intro p hp
        rw [hclear] at hp
        have h1 := countNtz_le hp.1
        have h2 := hlow _ hbit
        omega
      · intro hz' p
        by_contra hp
        have := hbits' p hp
        simp [hz'] at this

def firstReady (s : State) : Option ℕ := (readyDequeue s.readyTask 33 s.readyBits).1

theorem ready_lists_exact {es : List Event} {s : State} (h : run boot es = some s) :
    (∀ t th, s.threads t = some th → ∀ p,
      (s.readyTask p).count t = if Runnable th ∧ th.priority = p then 1 else 0) ∧
    (∀ t, s.threads t = none → ∀ p, t ∉ s.readyTask p) ∧
    (∀ p, s.readyTask p ≠ [] → s.readyBits.getLsbD p = true) ∧
    (∀ t, firstReady s = some t → ∃ th, s.threads t = some th ∧ Runnable th ∧
      (s.readyTask th.priority).head? = some t ∧
      ∀ u thu, s.threads u = some thu → Runnable thu → th.priority ≤ thu.priority) ∧
    (firstReady s = none → ∀ t th, s.threads t = some th → ¬Runnable th) := by
  have hr : Reachable (fun _ _ => True) s := Reachable.boot.run h fun _ _ _ => trivial
  have hs := hr.scheduled
  have hspec := readyDequeue_spec (i := 0) hs.bits (fun _ _ => Nat.zero_le _) (le_refl 33)
  have hlisted : ∀ t th, s.threads t = some th → Runnable th → s.readyTask th.priority ≠ [] := by
    intro t th ht hrun he
    have hcount := hs.count th.priority t
    rw [place_of_thread ht, if_pos (readyView_eq_some.mpr ⟨hrun, rfl⟩), he] at hcount
    cases hcount
  refine ⟨?_, ?_, hs.bits, ?_, ?_⟩
  · intro t th ht p
    rw [hs.count, place_of_thread ht]
    simp only [readyView_eq_some]
  · intro t ht p
    rw [← List.count_eq_zero, hs.count]
    simp [place, ht]
  · intro t hf
    unfold firstReady at hf
    rw [hf] at hspec
    obtain ⟨p, rest, hp, hmin⟩ := hspec
    have hplace : place s t = some p := by
      have hcount := hs.count p t
      rw [hp, List.count_cons_self] at hcount
      by_contra hne
      rw [if_neg hne] at hcount
      cases hcount
    obtain ⟨th, ht, hview⟩ := Option.bind_eq_some_iff.mp hplace
    obtain ⟨hrun, rfl⟩ := readyView_eq_some.mp hview
    refine ⟨th, ht, hrun, by rw [hp]; rfl, ?_⟩
    intro u thu hu hrunu
    exact hmin _ (hlisted u thu hu hrunu)
  · intro hf t th ht hrun
    unfold firstReady at hf
    rw [hf] at hspec
    exact hlisted t th ht hrun (hspec _)

theorem ready_lists_exact_sample : ∃ s th, run boot callRun = some s ∧ s.threads 3 = some th ∧
    Runnable th ∧ (s.readyTask th.priority).count 3 = 1 ∧
    (s.readyTask th.priority).head? = some 3 := by
  have hfirst : (run boot callRun).map firstReady = some (some 3) := by decide +kernel
  obtain ⟨s, hs, hf⟩ := Option.map_eq_some_iff.mp hfirst
  obtain ⟨hcount, -, -, hhead, -⟩ := ready_lists_exact hs
  obtain ⟨th, ht, hrun, hq, -⟩ := hhead 3 hf
  refine ⟨s, th, hs, ht, hrun, ?_, hq⟩
  rw [hcount 3 th ht, if_pos ⟨hrun, rfl⟩]

-- The node by which a thread hangs on such a list is linked once.
theorem waiting_lists_apart {es : List Event} {s : State} (h : run boot es = some s) {g : Guard} {t : ℕ}
    (ht : t ∈ s.queues g) : (∃ th, s.threads t = some th ∧ Blocked th ∧ th.wait.waiting = some g) ∧
      (s.queues g).count t = 1 ∧ (∀ g' ≠ g, t ∉ s.queues g') ∧ ∀ p, t ∉ s.readyTask p := by
  have hr : Reachable (fun _ _ => True) s := Reachable.boot.run h fun _ _ _ => trivial
  have hb := hr.base.1
  obtain ⟨th, hth, hw⟩ := hb.queued g t ht
  have hok := hb.thread t th hth
  have hblocked : Blocked th := by
    apply hok.blocked
    intro hnone
    simp [ThreadOk, hnone, hw] at hok
  refine ⟨⟨th, hth, hblocked, hw⟩, List.count_eq_one_of_mem (hb.nodup g) ht, ?_, ?_⟩
  · intro g' hne hg'
    obtain ⟨th', hth', hw'⟩ := hb.queued g' t hg'
    rw [hth] at hth'
    cases hth'
    exact hne (Option.some.inj (hw'.symm.trans hw))
  · intro p hp
    obtain ⟨th', hth', hrun⟩ := hb.ready p t hp
    rw [hth] at hth'
    cases hth'
    rcases hblocked with hs | hs <;> simp [Runnable, hs] at hrun

theorem waiting_lists_apart_sample : ∃ s, run boot callRun = some s ∧ 4 ∈ s.queues (.reply 1) ∧
    ∀ p, 4 ∉ s.readyTask p := by
  have hqueue : (run boot callRun).map (·.queues (.reply 1)) = some [4] := by decide +kernel
  obtain ⟨s, hs, hq⟩ := Option.map_eq_some_iff.mp hqueue
  have hmem : 4 ∈ s.queues (.reply 1) := hq ▸ List.mem_singleton_self 4
  exact ⟨s, hs, hmem, (waiting_lists_apart hs hmem).2.2.2⟩

end Eotan.Kernel
