import Eotan.Mm.TreeKin

namespace Eotan.Mm

open Function
open List
open Option

structure Sim (k : Kinship) (t : Tree) : Prop where
  guardian : k.guardian = t.guardian
  pending : k.pending = t.pending
  waiting : ∀ tag q, k.waiting tag = some q ↔ ∃ proc, t.procs q = some proc ∧ proc.tag = some tag

section Sim

variable {k : Kinship} {t t' : Tree} {lone : ℕ} {bare owed : ℕ → Prop} {c q : ℕ} {proc : Proc}

theorem Sim.congr (h : Sim k t) (hprocs : t'.procs = t.procs) : Sim k t' := by
  refine ⟨?_, ?_, ?_⟩
  · rw [h.guardian]
    funext p
    exact (Tree.guardian_congr (congrFun hprocs p)).symm
  · rw [h.pending]
    funext p
    exact (Tree.pending_congr (congrFun hprocs p)).symm
  · rw [hprocs]
    exact h.waiting

@[simps]
def Proc.deceased (proc : Proc) (status : ℤ) : Proc :=
  { proc with exitStatus := status, status := .dead }

theorem pending_of_group (h : proc.status = .group) : proc.pending = none := by
  simp [Proc.pending, h]

theorem guardian_eq_some (h : proc.guardian = some q) : proc.ppid = q ∧ proc.ppid ≠ 0 ∧ proc.status ≠ .group := by
  unfold Proc.guardian at h
  split_ifs at h with hif
  exact ⟨some.inj h, hif⟩

theorem Tree.exists_of_guardian (h : t.guardian c = some q) :
    ∃ proc, t.procs c = some proc ∧ proc.guardian = some q := bind_eq_some_iff.mp h

theorem Kin.settleAt (h : Kin lone bare owed t) {owed' : ℕ → Prop} (hq : t.procs q = some proc)
    (hquiet : proc.tag.isSome = true → ∀ c ∈ t.children q, t.isDead c = false)
    (himp : ∀ p, owed p → p ≠ q → owed' p) : Kin lone bare owed' t := by
  refine h.settle ?_
  intro p proc' hp _ htag howed hsettled
  have heq : p = q := by
    by_contra hne
    exact hsettled (himp p howed hne)
  rw [heq, hq] at hp
  cases hp
  rw [heq]
  exact hquiet htag

theorem Removed.sim {out : List TreeEvent} (hr : Removed t c proc out t')
    (h : Kin lone bare owed t) (hs : Sim k t) (hc : t.procs c = some proc) :
    Sim ((k.drop proc.tag).forget c) t' := by
  -- a leader that is only kept for its group counts for nothing
  have hview {α : Type} (f : Proc → Option α) (hf : ∀ {proc'}, proc'.status = .group → f proc' = none) :
      update (fun p => (t.procs p).bind f) c none = fun p => (t'.procs p).bind f := by
    funext p
    by_cases hpc : p = c
    · subst hpc
      rw [update_self]
      cases hp : t'.procs p with
      | none => rfl
      | some proc' => exact (hf (hr.self proc' hp).1).symm
    · rw [update_of_ne hpc]
      by_cases hgroup : ∀ proc', t.procs p = some proc' → proc'.status ≠ .group
      · rw [hr.procs p hpc hgroup]
      push Not at hgroup
      obtain ⟨leader, hleader, hstatus⟩ := hgroup
      cases hp : t'.procs p with
      | none =>
        rw [hleader]
        exact hf hstatus
      | some proc' => rw [hr.gone p proc' hp hpc]
  refine ⟨?_, ?_, ?_⟩
  · change update (k.drop proc.tag).guardian c none = t'.guardian
    rw [Kinship.drop_guardian, hs.guardian]
    exact hview _ guardian_of_group
  · change update (k.drop proc.tag).pending c none = t'.pending
    rw [Kinship.drop_pending, hs.pending]
    exact hview _ pending_of_group
  · intro tag q
    have hleft : (∃ proc', t'.procs q = some proc' ∧ proc'.tag = some tag) ↔
        q ≠ c ∧ ∃ proc', t.procs q = some proc' ∧ proc'.tag = some tag := by
      constructor
      · rintro ⟨proc', hq, htag⟩
        have hqc : q ≠ c := by
          rintro rfl
          rw [(hr.self proc' hq).2] at htag
          cases htag
        exact ⟨hqc, proc', hr.gone q proc' hq hqc, htag⟩
      · rintro ⟨hqc, proc', hq, htag⟩
        refine ⟨proc', ?_, htag⟩
        rw [hr.procs q hqc ?_]
        · exact hq
        · intro proc1 hproc1 hgroup
          rw [hq] at hproc1
          cases hproc1
          rw [(h.group q proc' hq hgroup).2.1] at htag
          cases htag
    rw [hleft, ← hs.waiting]
    change (k.drop proc.tag).waiting tag = some q ↔ _
    have hself : k.waiting tag = some c ↔ proc.tag = some tag := by
      rw [hs.waiting, hc]
      simp
    by_cases htag : proc.tag = some tag
    · rw [htag]
      change update k.waiting tag none tag = some q ↔ _
      rw [update_self, hself.mpr htag]
      constructor
      · intro hq
        cases hq
      · rintro ⟨hqc, hq⟩
        exact absurd (some.inj hq).symm hqc
    · rw [Kinship.drop_waiting k htag]
      constructor
      · intro hq
        refine ⟨?_, hq⟩
        rintro rfl
        exact htag (hself.mp hq)
      · exact fun hq => hq.2

theorem Sim.set {k' : Kinship} {proc' : Proc} (hs : Sim k t) (hq : t.procs q = some proc)
    (hviews : proc'.guardian = proc.guardian ∧ proc'.pending = proc.pending)
    (hk : k'.guardian = k.guardian ∧ k'.pending = k.pending)
    (hself : ∀ tag, k'.waiting tag = some q ↔ proc'.tag = some tag)
    (hother : ∀ tag p, p ≠ q → (k'.waiting tag = some p ↔ k.waiting tag = some p)) : Sim k' (t.set q proc') := by
  have hview {α : Type} (f : Proc → Option α) (hf : f proc' = f proc) (p : ℕ) :
      (t.procs p).bind f = ((t.set q proc').procs p).bind f := by
    by_cases hpq : p = q
    · rw [hpq, Tree.set_self, hq]
      exact hf.symm
    · rw [Tree.set_ne t hpq]
  refine ⟨?_, ?_, ?_⟩
  · rw [hk.1, hs.guardian]
    exact funext (hview _ hviews.1)
  · rw [hk.2, hs.pending]
    exact funext (hview _ hviews.2)
  · intro tag p
    by_cases hpq : p = q
    · rw [hpq, hself, Tree.set_self]
      simp
    · rw [hother tag p hpq, hs.waiting, Tree.set_ne t hpq]

theorem Sim.setTag (hs : Sim k t) (hq : t.procs q = some proc) {tag : ℕ} (htag : proc.tag = some tag) :
    Sim (k.answer tag) (t.set q { proc with tag := none }) := by
  refine hs.set hq ⟨rfl, rfl⟩ ⟨rfl, rfl⟩ ?_ ?_
  · intro tag'
    change update k.waiting tag none tag' = some q ↔ none = some tag'
    by_cases heq : tag' = tag
    · simp [heq]
    · rw [update_of_ne heq, hs.waiting, hq]
      simp [htag, Ne.symm heq]
  · intro tag' p hpq
    change update k.waiting tag none tag' = some p ↔ _
    by_cases heq : tag' = tag
    · rw [heq, update_self, (hs.waiting tag q).mpr ⟨proc, hq, htag⟩]
      simp [Ne.symm hpq]
    · rw [update_of_ne heq]

theorem releaseBody_spec (h : Kin lone noOne owed t) (hs : Sim k t)
    (hq : t.procs q = some proc) (hliving : proc.Living) {tag : ℕ} (htag : proc.tag = some tag) :
    ∃ k', k.accept (t.releaseBody q proc).1 = some k' ∧ Sim k' (t.releaseBody q proc).2 ∧
      Kin lone noOne (fun p => owed p ∧ p ≠ q) (t.releaseBody q proc).2 ∧
      (t.Numbered → (t.releaseBody q proc).2.Numbered) ∧
      ∀ p proc', t.procs p = some proc' → p ≠ q → proc'.status ≠ .group →
        (t.children q).find? t.isDead ≠ some p → (t.releaseBody q proc).2.procs p = some proc' := by
  unfold Tree.releaseBody
  cases hfind : (t.children q).find? t.isDead with
  | none =>
    refine ⟨k, rfl, hs, h.settleAt hq ?_ fun p ho hne => ⟨ho, hne⟩, id, fun p proc' hp _ _ _ => hp⟩
    intro _ c hc
    have hnone := find?_eq_none.mp hfind c hc
    simpa using hnone
  | some c =>
    have hmem := mem_of_find?_eq_some hfind
    have hdead := find?_some hfind
    have hguardian := (h.child c q).mp hmem
    have hcq : c ≠ q := by
      rintro rfl
      exact h.ownParent c hguardian
    obtain ⟨child, hchild, hkid⟩ := Tree.exists_of_guardian hguardian
    have hstatus := (Tree.isDead_of_procs hchild).mp hdead
    have hchild' := (Tree.set_ne t hcq { proc with tag := none }).trans hchild
    simp only [hchild', htag, getD_some]
    have hkin1 : Kin lone noOne (fun p => owed p ∨ p = q) (t.set q { proc with tag := none }) :=
      h.setLiving hq hliving hliving rfl rfl (fun tag' htag' => by cases htag')
    have hkin2 : Kin lone noOne (fun p => owed p ∧ p ≠ q) (t.set q { proc with tag := none }) :=
      hkin1.settleAt (Tree.set_self t q _) (fun htag' => by cases htag')
        fun p ho hne => ⟨ho.resolve_right hne, hne⟩
    have hsim1 := hs.setTag hq htag
    obtain ⟨hkin, hremoved⟩ := destroyFrame_kin hkin2 hchild' hstatus
    have hsim := hremoved.sim hkin2 hsim1 hchild'
    obtain ⟨freed, hout⟩ := hremoved.out
    have hfresh : child.tag ≠ some tag := fun htag' => hcq (h.tags c q child proc tag hchild hq htag' htag)
    have hpending : k.pending c = some child.exitStatus := by
      rw [hs.pending, Tree.pending, hchild]
      simp [Proc.pending, (guardian_eq_some hkid).2, hstatus]
    refine ⟨((k.drop child.tag).answer tag).forget c, ?_, ?_, hkin, ?_, ?_⟩
    · rw [hout, Kinship.accept_append, Kinship.accept_dropped]
      have hwait : (k.drop child.tag).waiting tag = some q := by
        rw [Kinship.drop_waiting k hfresh, hs.waiting]
        exact ⟨proc, hq, htag⟩
      have hguard : (k.drop child.tag).guardian c = some q := by
        rw [Kinship.drop_guardian, hs.guardian, hguardian]
      have hpend : ((k.drop child.tag).pending c).map (· % 256) = some (child.exitStatus % 256) := by
        rw [Kinship.drop_pending, hpending]
        rfl
      change Kinship.accept _ [_] = _
      rw [Kinship.accept_cons, Kinship.event, if_pos ⟨hwait, hguard, hpend⟩]
      rfl
    · rw [← Kinship.drop_answer]
      exact hsim
    · intro hnumbered
      exact hremoved.numbered (hnumbered.set hq _)
    · intro p proc' hp hpq hgroup hne
      have hpc : p ≠ c := by
        rintro rfl
        exact hne rfl
      have hp' := (Tree.set_ne t hpq { proc with tag := none }).trans hp
      rw [hremoved.procs p hpc, hp']
      intro proc1 hproc1
      rw [hp'] at hproc1
      cases hproc1
      exact hgroup

theorem foldl_adopt (l : List ℕ) (t : Tree) : (∀ p, (l.foldl Tree.adopt t).procs p =
      if p ∈ l then (t.procs p).map fun proc => { proc with ppid := initPid } else t.procs p) ∧
    (∀ q, (l.foldl Tree.adopt t).children q =
      if q = initPid then l.reverse ++ t.children initPid else t.children q) ∧
    (l.foldl Tree.adopt t).members = t.members ∧ (l.foldl Tree.adopt t).sequence = t.sequence := by
  induction l generalizing t with
  | nil =>
    refine ⟨fun p => by simp, fun q => ?_, rfl, rfl⟩
    by_cases hq : q = initPid
    · simp [hq]
    · simp [hq]
  | cons c l ih =>
    obtain ⟨hprocs, hchildren, hmembers, hsequence⟩ := ih (t.adopt c)
    rw [foldl_cons]
    refine ⟨fun p => ?_, fun q => ?_, hmembers, hsequence⟩
    · rw [hprocs]
      by_cases hpc : p = c
      · subst hpc
        by_cases hmem : p ∈ l
        · simp [hmem, Tree.adopt, comp_def]
        · simp [hmem, Tree.adopt]
      · by_cases hmem : p ∈ l <;> simp [hmem, hpc, Tree.adopt]
    · rw [hchildren]
      by_cases hq : q = initPid
      · simp [hq, Tree.adopt]
      · simp [hq, Tree.adopt]

theorem adoptAll_spec (t : Tree) {p : ℕ} (hp : p ≠ initPid) :
    (∀ c, (t.adoptAll p).procs c = if c ∈ t.children p then
      (t.procs c).map fun proc => { proc with ppid := initPid } else t.procs c) ∧
    (∀ q, (t.adoptAll p).children q =
      if q = initPid then (t.children p).reverse ++ t.children initPid
      else if q = p then [] else t.children q) ∧
    (t.adoptAll p).members = t.members ∧ (t.adoptAll p).sequence = t.sequence := by
  obtain ⟨hprocs, hchildren, hmembers, hsequence⟩ :=
    foldl_adopt (t.children p) { t with children := update t.children p [] }
  refine ⟨hprocs, fun q => ?_, hmembers, hsequence⟩
  rw [Tree.adoptAll, hchildren]
  by_cases hq : q = initPid
  · simp [hq, Ne.symm hp]
  · by_cases hqp : q = p
    · simp [hqp, hp]
    · simp [hq, hqp]

/-- `c` has died, and its children are those of process `INIT_PID`. -/
structure Died (t : Tree) (c : ℕ) (dead : Proc) (t' : Tree) : Prop where
  self : t'.procs c = some dead
  view : ∀ p, p = c ∨
    (p ≠ c ∧ ∃ child, t.procs p = some child ∧ child.guardian = some c ∧
      t'.procs p = some { child with ppid := initPid }) ∨
    t.guardian p ≠ some c ∧ t'.procs p = t.procs p
  children : ∀ q, t'.children q = if q = initPid then (t.children c).reverse ++ t.children initPid
    else if q = c then [] else t.children q
  members : t'.members = t.members
  sequence : t'.sequence = t.sequence

theorem adoptAll_died (h : Kin lone bare owed t) {dead : Proc} (hinit : c ≠ initPid) :
    Died t c dead ((t.set c dead).adoptAll c) := by
  obtain ⟨hprocs, hchildren, hmembers, hsequence⟩ := adoptAll_spec (t.set c dead) hinit
  have hmem (p : ℕ) : p ∈ (t.set c dead).children c ↔ t.guardian p = some c := h.child p c
  refine ⟨?_, ?_, hchildren, hmembers, hsequence⟩
  · rw [hprocs, if_neg (mt (hmem c).mp (h.ownParent c))]
    exact Tree.set_self t c dead
  · intro p
    by_cases hpc : p = c
    · exact .inl hpc
    right
    rw [hprocs, Tree.set_ne t hpc]
    by_cases hkid : t.guardian p = some c
    · left
      obtain ⟨child, hchild, hguardian⟩ := Tree.exists_of_guardian hkid
      rw [if_pos ((hmem p).mpr hkid), hchild]
      exact ⟨hpc, child, rfl, hguardian, rfl⟩
    · exact .inr ⟨hkid, if_neg (mt (hmem p).mp hkid)⟩

section Died

variable {status : ℤ}

theorem Died.guardian (hd : Died t c (proc.deceased status) t') (h : Kin lone bare owed t)
    (hc : t.procs c = some proc) (hliving : proc.Living) (p : ℕ) :
    t'.guardian p = if t.guardian p = some c then some initPid else t.guardian p := by
  rcases hd.view p with rfl | ⟨-, child, hchild, hkid, hp⟩ | ⟨hkid, hp⟩
  · rw [if_neg (h.ownParent p), Tree.guardian_of_procs hd.self, Tree.guardian_of_procs hc, Proc.guardian,
      Proc.guardian]
    simp [hliving.status]
  · rw [Tree.guardian_of_procs hchild, if_pos hkid, Tree.guardian_of_procs hp, Proc.guardian, if_pos]
    exact ⟨Nat.one_ne_zero, (guardian_eq_some hkid).2.2⟩
  · rw [if_neg hkid]
    exact Tree.guardian_congr hp

theorem Died.isDead {dead : Proc} (hd : Died t c dead t') (h : Kin lone bare owed t) (hc : t.procs c = some proc)
    {p : ℕ} (hp : p ∈ t.children q) (hqc : q ≠ c) (hq : q ≠ proc.ppid) : t'.isDead p = t.isDead p := by
  have hguard := (h.child p q).mp hp
  rcases hd.view p with rfl | ⟨-, child, hchild, hkid, -⟩ | ⟨-, hsame⟩
  · rw [Tree.guardian_of_procs hc] at hguard
    exact absurd (guardian_eq_some hguard).1.symm hq
  · rw [Tree.guardian_of_procs hchild, hkid] at hguard
    exact absurd (some.inj hguard).symm hqc
  · exact Tree.isDead_congr hsame

theorem Kin.die (h : Kin 0 noOne owed t) (hc : t.procs c = some proc)
    (hliving : proc.Living) (hinit : c ≠ initPid) (hd : Died t c (proc.deceased status) t') :
    Kin c noOne (fun q => owed q ∨ q = initPid ∨ q = proc.ppid) t' := by
  have hguardian := hd.guardian h hc hliving
  obtain ⟨init, hinit', hlive, hzero⟩ := h.init
  -- process `INIT_PID` is nobody's child
  have hroot : t.guardian initPid ≠ some c := by
    rw [Tree.guardian_of_procs hinit', Proc.guardian, if_neg (by simp [hzero])]
    simp
  have hregrouped : Regrouped c t t' := by
    refine ⟨hd.members, ?_, ?_⟩
    · intro p proc1 hp
      rcases hd.view p with rfl | ⟨-, proc3, hproc3, -, hkid⟩ | ⟨-, hsame⟩
      · rw [hc] at hp
        cases hp
        exact ⟨_, hd.self, rfl, fun hne => absurd rfl hne⟩
      · rw [hp] at hproc3
        cases hproc3
        exact ⟨_, hkid, rfl, fun _ => rfl⟩
      · exact ⟨proc1, hsame.trans hp, rfl, fun _ => rfl⟩
    · intro p proc2 hp
      rcases hd.view p with rfl | ⟨-, proc3, hproc3, -, hkid⟩ | ⟨-, hsame⟩
      · rw [hd.self] at hp
        cases hp
        exact ⟨proc, hc, rfl, fun hne => absurd rfl hne⟩
      · rw [hkid] at hp
        cases hp
        exact ⟨proc3, hproc3, rfl, fun _ => ⟨rfl, rfl⟩⟩
      · rw [hsame] at hp
        exact ⟨proc2, hp, rfl, fun _ => ⟨rfl, rfl⟩⟩
  refine h.regroup hregrouped hd.self (by simp) (fun hgroup => by cases hgroup) ?_ ⟨?_, ?_, ?_, ?_, ?_, ?_, ?_⟩
  · intro tag htag q proc1 hq htag1
    exact h.tags q c proc1 proc tag hq hc htag1 htag
  · intro p q
    rw [hd.children, hguardian]
    by_cases hkid : t.guardian p = some c
    · rw [if_pos hkid]
      by_cases hq : q = initPid
      · rw [if_pos hq, hq, mem_append, mem_reverse, h.child, hkid]
        simp
      rw [if_neg hq]
      by_cases hqc : q = c
      · rw [if_pos hqc, hqc]
        simp [Ne.symm hinit]
      · rw [if_neg hqc, h.child, hkid]
        simp [Ne.symm hqc, Ne.symm hq]
    · rw [if_neg hkid]
      by_cases hq : q = initPid
      · rw [if_pos hq, hq, mem_append, mem_reverse, h.child, h.child]
        simp [hkid]
      rw [if_neg hq]
      by_cases hqc : q = c
      · rw [if_pos hqc, hqc]
        simp [hkid]
      · rw [if_neg hqc, h.child]
  · intro q
    rw [hd.children]
    by_cases hq : q = initPid
    · rw [if_pos hq]
      refine List.Nodup.append (nodup_reverse.mpr (h.childNodup c)) (h.childNodup _) ?_
      intro p hkid hold
      rw [mem_reverse, h.child] at hkid
      rw [h.child, hkid] at hold
      exact hinit (some.inj hold)
    · rw [if_neg hq]
      by_cases hqc : q = c
      · rw [if_pos hqc]
        exact nodup_nil
      · rw [if_neg hqc]
        exact h.childNodup q
  · intro p q hp
    have hlives : ∀ q, q ≠ c → (∃ proc1, t.procs q = some proc1 ∧ proc1.Living) →
        ∃ proc2, t'.procs q = some proc2 ∧ proc2.Living := by
      rintro q hqc ⟨proc1, hq, hl⟩
      obtain ⟨proc2, hq', -, hstatus⟩ := hregrouped.forward q proc1 hq
      refine ⟨proc2, hq', ?_⟩
      rw [Proc.Living, hstatus hqc]
      exact hl
    rw [hguardian] at hp
    by_cases hkid : t.guardian p = some c
    · rw [if_pos hkid] at hp
      cases hp
      exact hlives _ (Ne.symm hinit) ⟨init, hinit', hlive⟩
    · rw [if_neg hkid] at hp
      refine hlives q ?_ (h.parent p q hp)
      rintro rfl
      exact hkid hp
  · intro p proc2 hp hdead hppid
    rcases hd.view p with rfl | ⟨-, proc3, -, -, hkid⟩ | ⟨-, hsame⟩
    · rfl
    · rw [hkid] at hp
      cases hp
      cases hppid
    · rw [hsame] at hp
      have hbound := h.bound p proc2 hp
      have hnone := h.waited p proc2 hp hdead hppid
      omega
  · rcases hd.view initPid with heq | ⟨-, proc3, hproc3, hkid, -⟩ | ⟨-, hsame⟩
    · exact absurd heq.symm hinit
    · exact absurd ((Tree.guardian_of_procs hproc3).trans hkid) hroot
    · exact ⟨init, hsame.trans hinit', hlive, hzero⟩
  · intro p hp
    rw [hguardian] at hp
    by_cases hkid : t.guardian p = some c
    · rw [if_pos hkid] at hp
      have heq := some.inj hp
      rw [← heq] at hkid
      exact hroot hkid
    · rw [if_neg hkid] at hp
      exact h.ownParent p hp
  · intro q proc2 hq hl htag howed p hp
    have hqc : q ≠ c := by
      rintro rfl
      rw [hd.self] at hq
      cases hq
      exact hl.status.1 rfl
    have hqi : q ≠ initPid := fun heq => howed (.inr (.inl heq))
    rw [hd.children, if_neg hqi, if_neg hqc] at hp
    obtain ⟨proc1, hq', -, hsame⟩ := hregrouped.back q proc2 hq
    obtain ⟨htag', hstatus⟩ := hsame hqc
    have hl' : proc1.Living := by
      rw [Proc.Living, hstatus]
      exact hl
    -- the parent of the dead process is still to be told
    rw [hd.isDead h hc hp hqc fun heq => howed (.inr (.inr heq))]
    exact h.quiet q proc1 hq' hl' (htag' ▸ htag) (fun ho => howed (.inl ho)) p hp

theorem Sim.die (hs : Sim k t) (h : Kin lone bare owed t) (hc : t.procs c = some proc)
    (hliving : proc.Living) (hd : Died t c (proc.deceased status) t') :
    ∃ k', k.event (.died c status (proc.ppid ≠ 0)) = some k' ∧ Sim k' t' := by
  have hstatus := hliving.status
  have hpending (p : ℕ) (hpc : p ≠ c) : t'.pending p = t.pending p := by
    rcases hd.view p with heq | ⟨-, child, hchild, hkid, hp⟩ | ⟨-, hp⟩
    · exact absurd heq hpc
    · rw [Tree.pending, Tree.pending, hp, hchild]
      simp [Proc.pending, (guardian_eq_some hkid).2, initPid]
    · exact Tree.pending_congr hp
  have hwaiting (tag q : ℕ) : k.waiting tag = some q ↔ ∃ proc', t'.procs q = some proc' ∧
      proc'.tag = some tag := by
    rw [hs.waiting]
    rcases hd.view q with rfl | ⟨-, child, hchild, -, hq⟩ | ⟨-, hq⟩
    · rw [hd.self, hc]
      simp
    · rw [hq, hchild]
      simp
    · rw [hq]
  have hbereave : (k.bereave c).guardian = t'.guardian := by
    funext p
    change (if k.guardian p = some c then some initPid else k.guardian p) = _
    rw [hs.guardian, hd.guardian h hc hliving]
  by_cases hppid : proc.ppid = 0
  · have hnone : k.guardian c = none := by
      rw [hs.guardian, Tree.guardian_of_procs hc]
      simp [Proc.guardian, hppid]
    refine ⟨k.bereave c, by simp [Kinship.event, hppid, hnone], hbereave, ?_, hwaiting⟩
    change k.pending = _
    rw [hs.pending]
    funext p
    by_cases hpc : p = c
    · rw [hpc, Tree.pending, Tree.pending, hc, hd.self]
      simp [Proc.pending, hppid]
    · exact (hpending p hpc).symm
  · have hsome : (k.guardian c).isSome = true := by
      rw [hs.guardian, Tree.guardian_of_procs hc]
      simp [Proc.guardian, hppid, hstatus]
    have hnone : k.pending c = none := by
      rw [hs.pending, Tree.pending, hc]
      simp [Proc.pending, hstatus]
    refine ⟨{ k.bereave c with pending := update k.pending c (some status) },
      by simp [Kinship.event, hppid, hsome, hnone, Kinship.bereave], hbereave, ?_, hwaiting⟩
    change update k.pending c (some status) = _
    rw [hs.pending]
    funext p
    by_cases hpc : p = c
    · rw [hpc, update_self, Tree.pending, hd.self]
      simp [Proc.pending, hppid]
    · rw [update_of_ne hpc]
      exact (hpending p hpc).symm

end Died

theorem notify_spec (h : Kin lone noOne owed t) (hs : Sim k t)
    (hq : t.procs q = some proc) (hliving : proc.Living) :
    ∃ k', k.accept (t.notify q proc).1 = some k' ∧ Sim k' (t.notify q proc).2 ∧
      Kin lone noOne (fun p => owed p ∧ p ≠ q) (t.notify q proc).2 ∧
      (t.Numbered → (t.notify q proc).2.Numbered) ∧
      ∀ p proc', t.procs p = some proc' → p ≠ q → proc'.status ≠ .group →
        (t.children q).find? t.isDead ≠ some p → (t.notify q proc).2.procs p = some proc' := by
  unfold Tree.notify
  cases htag : proc.tag with
  | none =>
    simp only [isSome_none, Bool.false_eq_true, if_false]
    refine ⟨k, rfl, hs, h.settleAt hq ?_ fun p ho hne => ⟨ho, hne⟩, id, fun p proc' hp _ _ _ => hp⟩
    rw [htag]
    rintro ⟨⟩
  | some tag =>
    simp only [isSome_some, if_true]
    exact releaseBody_spec h hs hq hliving htag

theorem Kin.weaken (h : Kin lone bare owed t) {owed' : ℕ → Prop} (himp : ∀ q, owed q → owed' q) :
    Kin lone bare owed' t := h.settle fun q _ _ _ _ howed hsettled => absurd (himp q howed) hsettled

theorem leaveChildren_spec (h : t.Settled)
    (hc : t.procs c = some proc) (hliving : proc.Living) (hinit : c ≠ initPid) (status : ℤ)
    (hs : Sim k ((t.set c (proc.deceased status)).adoptAll c)) :
    let r := (t.set c (proc.deceased status)).leaveChildren c
    ∃ k', k.accept r.1 = some k' ∧ Sim k' r.2 ∧
      Kin c noOne (fun q => q = proc.ppid) r.2 ∧ (t.Numbered → r.2.Numbered) ∧
      r.2.procs c = some (proc.deceased status) := by
  obtain ⟨t', ht'⟩ : ∃ t', t' = (t.set c (proc.deceased status)).adoptAll c := ⟨_, rfl⟩
  have hd : Died t c (proc.deceased status) t' := by
    rw [ht']
    exact adoptAll_died h hinit
  have hkin := h.die hc hliving hinit hd
  obtain ⟨init, hinit', hlive, hzero⟩ := h.init
  have hset := (Tree.set_ne t (Ne.symm hinit) (proc.deceased status)).trans hinit'
  have hisDead : ∀ p ∈ t.children c, (t.set c (proc.deceased status)).isDead p = t'.isDead p := by
    intro p hp
    rcases hd.view p with rfl | ⟨hpc, child, hchild, -, hkid⟩ | ⟨hne, -⟩
    · exact absurd ((h.child p p).mp hp) (h.ownParent p)
    · rw [Tree.isDead, Tree.isDead, hkid, Tree.set_ne t hpc, hchild]
    · exact absurd ((h.child p c).mp hp) hne
  intro r
  rw [← ht'] at hs
  have hinit1 : t'.procs initPid = some init := by
    rcases hd.view initPid with heq | ⟨-, child, hchild, hkid, -⟩ | ⟨-, hsame⟩
    · exact absurd heq.symm hinit
    · rw [hinit'] at hchild
      cases hchild
      simp [Proc.guardian, hzero] at hkid
    · exact hsame.trans hinit'
  have hnumbered : t.Numbered → t'.Numbered := by
    intro hn
    refine hn.congr hd.sequence ?_
    intro p
    rcases hd.view p with rfl | ⟨-, child, hchild, -, hkid⟩ | ⟨-, hsame⟩
    · rw [hd.self, hc]
      simp
    · rw [hkid, hchild]
      simp
    · rw [hsame]
  have hr : r = if (t.children c).any (t.set c (proc.deceased status)).isDead = true then
      t'.notify initPid init else ([], t') := by
    simp only [r, Tree.leaveChildren, if_neg hinit, hset, ← ht', hinit1]
    rfl
  rw [hr]
  by_cases hany : (t.children c).any (t.set c (proc.deceased status)).isDead = true
  · rw [if_pos hany]
    obtain ⟨k', haccept, hsim, hkin', hnum, hkeep⟩ := notify_spec hkin hs hinit1 hlive
    refine ⟨k', haccept, hsim, ?_, fun hn => hnum (hnumbered hn), ?_⟩
    · refine hkin'.weaken ?_
      rintro q ⟨hfalse | heq | heq, hne⟩
      · exact absurd hfalse id
      · exact absurd heq hne
      · exact heq
    · apply hkeep c _ hd.self hinit (by simp)
      -- a dead child of `c` comes before `c` itself
      obtain ⟨p, hp, hdead⟩ := any_eq_true.mp hany
      rw [hisDead p hp] at hdead
      rw [hd.children, if_pos rfl, find?_append]
      cases hfind : (t.children c).reverse.find? t'.isDead with
      | none =>
        have hnone := find?_eq_none.mp hfind p (mem_reverse.mpr hp)
        exact absurd hdead hnone
      | some p' =>
        rw [some_or]
        intro heq
        cases heq
        have hmem := mem_reverse.mp (mem_of_find?_eq_some hfind)
        exact h.ownParent c ((h.child c c).mp hmem)
  · rw [if_neg hany]
    refine ⟨k, rfl, hs, ?_, hnumbered, hd.self⟩
    refine hkin.settle ?_
    rintro q proc' hq hl htag (hfalse | rfl | heq) hsettled p hp
    · exact absurd hfalse id
    · rw [hd.children, if_pos rfl] at hp
      rw [hinit1] at hq
      cases hq
      rcases mem_append.mp hp with hp | hp
      · have hp := mem_reverse.mp hp
        rw [← hisDead p hp]
        by_contra hdead
        exact hany (any_eq_true.mpr ⟨p, hp, by simpa using hdead⟩)
      · rw [hd.isDead h hc hp (Ne.symm hinit) hsettled]
        exact h.quiet initPid init hinit' hlive htag id p hp
    · exact absurd heq hsettled

theorem leaveParent_spec (h : Kin c noOne (fun q => q = proc.ppid) t) (hs : Sim k t)
    (hc : t.procs c = some proc) (hdead : proc.status = .dead) :
    ∃ k', k.accept (t.leaveParent c).1 = some k' ∧ Sim k' (t.leaveParent c).2 ∧
      Kin 0 noOne noOne (t.leaveParent c).2 ∧ (t.Numbered → (t.leaveParent c).2.Numbered) := by
  unfold Tree.leaveParent
  simp only [hc]
  by_cases hppid : proc.ppid = 0
  · simp only [if_pos hppid]
    obtain ⟨hkin, hremoved⟩ := destroyFrame_kin h hc hdead
    obtain ⟨freed, hout⟩ := hremoved.out
    have hforget : (k.drop proc.tag).forget c = k.drop proc.tag := by
      have hguardian : (k.drop proc.tag).guardian c = none := by
        rw [Kinship.drop_guardian, hs.guardian, Tree.guardian_of_procs hc]
        simp [Proc.guardian, hppid]
      have hpending : (k.drop proc.tag).pending c = none := by
        rw [Kinship.drop_pending, hs.pending, Tree.pending, hc]
        simp [Proc.pending, hppid]
      exact Kinship.forget_of_none hguardian hpending
    refine ⟨k.drop proc.tag, ?_, ?_, ?_, hremoved.numbered⟩
    · rw [hout]
      exact Kinship.accept_dropped k proc.tag freed
    · rw [← hforget]
      exact hremoved.sim h hs hc
    · have halone := hkin.accompany (by
        intro proc' hp hstatus
        rw [(hremoved.self proc' hp).1] at hstatus
        cases hstatus)
      refine halone.settle ?_
      intro q proc' hq _ _ heq _
      have hbound := halone.bound q proc' hq
      omega
  · have hguardian : t.guardian c = some proc.ppid := by
      rw [Tree.guardian_of_procs hc, Proc.guardian, if_pos ⟨hppid, by simp [hdead]⟩]
    obtain ⟨parent, hparent, hliving⟩ := h.parent c _ hguardian
    simp only [if_neg hppid, hparent]
    have halone := h.accompany (by
      intro proc' hp _
      rw [hc] at hp
      cases hp
      exact hppid)
    obtain ⟨k', haccept, hsim, hkin, hnum, -⟩ := notify_spec halone hs hparent hliving
    refine ⟨k', haccept, hsim, hkin.weaken ?_, hnum⟩
    rintro q ⟨heq, hne⟩
    exact hne heq

theorem processDestroy_spec (h : t.Settled) (hs : Sim k t)
    (hc : t.procs c = some proc) (hliving : proc.Living) (hinit : c ≠ initPid) (status : ℤ) :
    ∃ k', k.accept (t.processDestroy c proc status).1 = some k' ∧ Sim k' (t.processDestroy c proc status).2 ∧
      Kin 0 noOne noOne (t.processDestroy c proc status).2 ∧
      (t.Numbered → (t.processDestroy c proc status).2.Numbered) := by
  have hnull : proc.status ≠ .null := h.born c proc hc
  have hdestroy : t.processDestroy c proc status =
      let r := (t.set c (proc.deceased status)).leaveChildren c
      let r' := r.2.leaveParent c
      (.died c status (proc.ppid ≠ 0) :: r.1 ++ r'.1, r'.2) := by
    simp only [Tree.processDestroy, if_neg hnull]
    rfl
  rw [hdestroy]
  have hd : Died t c (proc.deceased status) _ := adoptAll_died h hinit
  obtain ⟨k1, hdied, hsim1⟩ := hs.die h hc hliving hd
  obtain ⟨k2, haccept2, hsim2, hkin2, hnum2, hself⟩ := leaveChildren_spec h hc hliving hinit status hsim1
  have hkin2' : Kin c noOne (fun q => q = (proc.deceased status).ppid)
      ((t.set c (proc.deceased status)).leaveChildren c).2 := hkin2
  obtain ⟨k3, haccept3, hsim3, hkin3, hnum3⟩ := leaveParent_spec hkin2' hsim2 hself rfl
  refine ⟨k3, ?_, hsim3, hkin3, fun hn => hnum3 (hnum2 hn)⟩
  simp only
  rw [cons_append, Kinship.accept_cons, hdied, bind_some, Kinship.accept_append, haccept2]
  exact haccept3

end Sim

end Eotan.Mm
