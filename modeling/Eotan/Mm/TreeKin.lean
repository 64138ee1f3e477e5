import Eotan.Mm.Kinship

namespace Eotan.Mm

open Sequence (sequenceRelease)
open Function

def Proc.Living (proc : Proc) : Prop := proc.status = .active ∨ proc.status = .dying

def Proc.guardian (proc : Proc) : Option ℕ :=
  if proc.ppid ≠ 0 ∧ proc.status ≠ .group then some proc.ppid else none

def Proc.pending (proc : Proc) : Option ℤ :=
  if proc.ppid ≠ 0 ∧ proc.status = .dead then some proc.exitStatus else none

def Tree.guardian (t : Tree) (p : ℕ) : Option ℕ := (t.procs p).bind Proc.guardian

def Tree.pending (t : Tree) (p : ℕ) : Option ℤ := (t.procs p).bind Proc.pending

/-- The lists agree with the processes. Exempt are `lone`, a process that dies without a parent,
the leaders `bare` that have just lost a member, and the waiting processes `owed` that have to be
told of a death. -/
structure Kin (lone : ℕ) (bare owed : ℕ → Prop) (t : Tree) : Prop where
  bound : ∀ p proc, t.procs p = some proc → 0 < p ∧ p < idMax
  child : ∀ p q, p ∈ t.children q ↔ t.guardian p = some q
  childNodup : ∀ q, (t.children q).Nodup
  parent : ∀ p q, t.guardian p = some q → ∃ proc, t.procs q = some proc ∧ proc.Living
  waited : ∀ p proc, t.procs p = some proc → proc.status = .dead → proc.ppid = 0 → p = lone
  born : ∀ p proc, t.procs p = some proc → proc.status ≠ .null
  member : ∀ m l, m ∈ t.members l ↔ ∃ proc, t.procs m = some proc ∧ proc.pgid = l ∧ l ≠ m
  memberNodup : ∀ l, (t.members l).Nodup
  leader : ∀ m proc, t.procs m = some proc →
    ∃ leader, t.procs proc.pgid = some leader ∧ leader.pgid = proc.pgid
  group : ∀ l proc, t.procs l = some proc → proc.status = .group →
    proc.pgid = l ∧ proc.tag = none ∧ (t.members l = [] → bare l)
  init : ∃ proc, t.procs initPid = some proc ∧ proc.Living ∧ proc.ppid = 0
  ownParent : ∀ p, t.guardian p ≠ some p
  quiet : ∀ q proc, t.procs q = some proc → proc.Living → proc.tag.isSome = true → ¬owed q →
    ∀ c ∈ t.children q, t.isDead c = false
  tags : ∀ p q proc proc' tag, t.procs p = some proc → t.procs q = some proc' →
    proc.tag = some tag → proc'.tag = some tag → p = q

abbrev noOne : ℕ → Prop := fun _ => False

abbrev Tree.Settled (t : Tree) : Prop := Kin 0 noOne noOne t

structure Brood (lone : ℕ) (owed : ℕ → Prop) (t : Tree) : Prop where
  child : ∀ p q, p ∈ t.children q ↔ t.guardian p = some q
  childNodup : ∀ q, (t.children q).Nodup
  parent : ∀ p q, t.guardian p = some q → ∃ proc, t.procs q = some proc ∧ proc.Living
  waited : ∀ p proc, t.procs p = some proc → proc.status = .dead → proc.ppid = 0 → p = lone
  init : ∃ proc, t.procs initPid = some proc ∧ proc.Living ∧ proc.ppid = 0
  ownParent : ∀ p, t.guardian p ≠ some p
  quiet : ∀ q proc, t.procs q = some proc → proc.Living → proc.tag.isSome = true → ¬owed q →
    ∀ c ∈ t.children q, t.isDead c = false

def Tree.Numbered (t : Tree) : Prop := Ids t.sequence fun n => n = 0 ∨ t.procs n ≠ none

variable {p : ℕ} {t' : Tree}

theorem Proc.Living.status {proc : Proc} (h : proc.Living) :
    proc.status ≠ .dead ∧ proc.status ≠ .group ∧ proc.status ≠ .null := by
  rcases h with h | h <;> simp [h]

theorem guardian_of_group {proc : Proc} (h : proc.status = .group) : proc.guardian = none := by
  simp [Proc.guardian, h]

namespace Tree

def without (t : Tree) (c : ℕ) : Tree :=
  { t with
    procs := Function.update t.procs c none
    children := fun q => (t.children q).erase c
    members := fun l => (t.members l).erase c }

theorem without_procs_self (t : Tree) (c : ℕ) : (t.without c).procs c = none := by
  simp [without]

theorem without_procs_ne (t : Tree) {c : ℕ} (h : p ≠ c) : (t.without c).procs p = t.procs p := by
  simp [without, h]

theorem set_self (t : Tree) (p : ℕ) (proc : Proc) : (t.set p proc).procs p = some proc := update_self ..

theorem set_ne (t : Tree) {c : ℕ} (h : p ≠ c) (proc : Proc) : (t.set c proc).procs p = t.procs p :=
  update_of_ne h ..

variable {t : Tree}

theorem ne_of_none {c : ℕ} {proc : Proc} (hc : t.procs c = some proc) (hp : t.procs p = none) : c ≠ p := by
  rintro rfl
  rw [hp] at hc
  cases hc

theorem guardian_of_procs {proc : Proc} (h : t.procs p = some proc) : t.guardian p = proc.guardian := by
  rw [guardian, h]
  rfl

theorem guardian_congr (h : t'.procs p = t.procs p) : t'.guardian p = t.guardian p := by
  rw [guardian, guardian, h]

theorem guardian_of_none (h : t.procs p = none) : t.guardian p = none := by
  rw [guardian, h]
  rfl

theorem pending_congr (h : t'.procs p = t.procs p) : t'.pending p = t.pending p := by
  rw [pending, pending, h]

theorem isDead_congr (h : t'.procs p = t.procs p) : t'.isDead p = t.isDead p := by
  rw [isDead, isDead, h]

theorem isDead_of_procs {proc : Proc} (h : t.procs p = some proc) : t.isDead p = true ↔ proc.status = .dead := by
  rw [isDead, h]
  simp

end Tree

section Kin

variable {lone : ℕ} {bare owed : ℕ → Prop} {t : Tree} {c : ℕ} {proc : Proc}

section

variable (h : Kin lone bare owed t) (hc : t.procs c = some proc) (hdead : ¬proc.Living)
include h hc hdead

theorem Kin.ppid_ne_self (p : ℕ) : t.guardian p ≠ some c := by
  intro hp
  obtain ⟨proc', hproc', hliving⟩ := h.parent p c hp
  rw [hc] at hproc'
  cases hproc'
  exact hdead hliving

theorem Kin.ne_init : c ≠ initPid := by
  rintro rfl
  obtain ⟨proc', hproc', hliving, -⟩ := h.init
  rw [hc] at hproc'
  cases hproc'
  exact hdead hliving

theorem Kin.leave (hne : ∀ {p}, p ≠ c → t'.procs p = t.procs p)
    (hself : ∀ proc', t'.procs c = some proc' → proc'.status = .group)
    (hchildren : t'.children = (t.unlink c).children) : Brood lone owed t' := by
  have hold {p : ℕ} {proc' : Proc} (hp : t'.procs p = some proc') (hstatus : proc'.status ≠ .group) :
      t.procs p = some proc' := by
    rw [← hne, hp]
    rintro rfl
    exact hstatus (hself proc' hp)
  have hguardian {p q : ℕ} : t'.guardian p = some q ↔ p ≠ c ∧ t.guardian p = some q := by
    by_cases hpc : p = c
    · subst hpc
      cases hp : t'.procs p with
      | none => simp [Tree.guardian_of_none hp]
      | some proc' => simp [Tree.guardian_of_procs hp, guardian_of_group (hself proc' hp)]
    · rw [Tree.guardian_congr (hne hpc)]
      simp [hpc]
  refine ⟨?_, ?_, ?_, ?_, ?_, ?_, ?_⟩
  · intro p q
    rw [hguardian, hchildren]
    change p ∈ (t.children q).erase c ↔ _
    rw [(h.childNodup q).mem_erase_iff, h.child]
  · rw [hchildren]
    exact fun q => (h.childNodup q).erase c
  · intro p q hp
    have hold := (hguardian.mp hp).2
    obtain ⟨proc', hq, hliving⟩ := h.parent p q hold
    refine ⟨proc', (hne ?_).trans hq, hliving⟩
    rintro rfl
    exact h.ppid_ne_self hc hdead p hold
  · intro p proc' hp hstatus
    exact h.waited p proc' (hold hp (by simp [hstatus])) hstatus
  · obtain ⟨proc', hinit, hliving⟩ := h.init
    exact ⟨proc', (hne (Ne.symm (h.ne_init hc hdead))).trans hinit, hliving⟩
  · intro p hp
    exact h.ownParent p (hguardian.mp hp).2
  · intro q proc' hq hliving htag howed p hp
    rw [hchildren] at hp
    have hpc : p ≠ c := by
      rintro rfl
      exact (h.childNodup q).not_mem_erase hp
    rw [Tree.isDead_congr (hne hpc)]
    exact h.quiet q proc' (hold hq hliving.status.2.1) hliving htag howed p (List.mem_of_mem_erase hp)

theorem Kin.without (hmembers : t.members c = []) :
    Kin lone (fun l => bare l ∨ l = proc.pgid) owed (t.without c) := by
  have hne {p : ℕ} {proc' : Proc} (hp : (t.without c).procs p = some proc') :
      p ≠ c ∧ t.procs p = some proc' := by
    have hpc := Tree.ne_of_none hp (Tree.without_procs_self t c)
    exact ⟨hpc, (Tree.without_procs_ne t hpc).symm.trans hp⟩
  have hkeep {q : ℕ} {proc' : Proc} (hq : t.procs q = some proc') (hqc : q ≠ c) :
      (t.without c).procs q = some proc' := (Tree.without_procs_ne t hqc).trans hq
  obtain ⟨hchild, hchildNodup, hparent, hwaited, hinit, hownParent, hquiet⟩ :=
    h.leave hc hdead (Tree.without_procs_ne t) (by simp [Tree.without]) rfl
  refine ⟨?_, hchild, hchildNodup, hparent, hwaited, ?_, ?_, ?_, ?_, ?_, hinit, hownParent, hquiet, ?_⟩
  · intro p proc' hp
    exact h.bound p proc' (hne hp).2
  · intro p proc' hp
    exact h.born p proc' (hne hp).2
  · intro m l
    change m ∈ (t.members l).erase c ↔ _
    rw [(h.memberNodup l).mem_erase_iff, h.member]
    constructor
    · rintro ⟨hmc, proc', hm, hpgid, hlm⟩
      exact ⟨proc', hkeep hm hmc, hpgid, hlm⟩
    · rintro ⟨proc', hm, hpgid, hlm⟩
      obtain ⟨hmc, hm⟩ := hne hm
      exact ⟨hmc, proc', hm, hpgid, hlm⟩
  · intro l
    exact (h.memberNodup l).erase c
  · intro m proc' hm
    obtain ⟨hmc, hm⟩ := hne hm
    obtain ⟨leader, hleader, hpgid⟩ := h.leader m proc' hm
    refine ⟨leader, hkeep hleader ?_, hpgid⟩
    intro hl
    -- otherwise `m` would be a member of `c`
    have hmem : m ∈ t.members c := (h.member m c).mpr ⟨proc', hm, hl, Ne.symm hmc⟩
    rw [hmembers] at hmem
    cases hmem
  · intro l proc' hl hgroup
    obtain ⟨hlc, hl⟩ := hne hl
    obtain ⟨hpgid, htag, hbare⟩ := h.group l proc' hl hgroup
    refine ⟨hpgid, htag, fun hnil => ?_⟩
    by_cases hmem : c ∈ t.members l
    · obtain ⟨proc₁, hproc1, hl1, -⟩ := (h.member c l).mp hmem
      rw [hc] at hproc1
      cases hproc1
      exact .inr hl1.symm
    · left
      apply hbare
      rw [← List.erase_of_not_mem hmem]
      exact hnil
  · intro p q proc₁ proc₂ tag hp hq
    exact h.tags p q proc₁ proc₂ tag (hne hp).2 (hne hq).2

end

/-- But for their parents only `c` may have changed. -/
structure Regrouped (c : ℕ) (t t' : Tree) : Prop where
  members : t'.members = t.members
  forward : ∀ p proc₁, t.procs p = some proc₁ → ∃ proc₂, t'.procs p = some proc₂ ∧
    proc₂.pgid = proc₁.pgid ∧ (p ≠ c → proc₂.status = proc₁.status)
  back : ∀ p proc₂, t'.procs p = some proc₂ → ∃ proc₁, t.procs p = some proc₁ ∧
    proc₁.pgid = proc₂.pgid ∧ (p ≠ c → proc₁.tag = proc₂.tag ∧ proc₁.status = proc₂.status)

theorem Regrouped.of_update {proc' : Proc} (hc : t.procs c = some proc)
    (hprocs : t'.procs = update t.procs c (some proc')) (hmembers : t'.members = t.members)
    (hpgid : proc'.pgid = proc.pgid) : Regrouped c t t' := by
  refine ⟨hmembers, ?_, ?_⟩
  · intro p proc₁ hp
    rw [hprocs]
    by_cases hpc : p = c
    · subst hpc
      rw [hc] at hp
      cases hp
      exact ⟨proc', update_self .., hpgid, fun hne => absurd rfl hne⟩
    · exact ⟨proc₁, (update_of_ne hpc ..).trans hp, rfl, fun _ => rfl⟩
  · intro p proc₂ hp
    rw [hprocs] at hp
    by_cases hpc : p = c
    · subst hpc
      rw [update_self] at hp
      cases hp
      exact ⟨proc, hc, hpgid.symm, fun hne => absurd rfl hne⟩
    · rw [update_of_ne hpc] at hp
      exact ⟨proc₂, hp, rfl, fun _ => ⟨rfl, rfl⟩⟩

section

variable (h : Kin lone bare owed t)
include h

theorem Kin.regroup {lone' : ℕ} {owed' : ℕ → Prop} {proc' : Proc}
    (hr : Regrouped c t t') (hself : t'.procs c = some proc') (hborn : proc'.status ≠ .null)
    (hgroup : proc'.status = .group → proc'.pgid = c ∧ proc'.tag = none ∧ t.members c ≠ [])
    (htag : ∀ tag, proc'.tag = some tag → ∀ q proc₁, t.procs q = some proc₁ → proc₁.tag = some tag → q = c)
    (hb : Brood lone' owed' t') : Kin lone' bare owed' t' := by
  obtain ⟨hchild, hchildNodup, hparent, hwaited, hinit, hownParent, hquiet⟩ := hb
  refine ⟨?_, hchild, hchildNodup, hparent, hwaited, ?_, ?_, ?_, ?_, ?_, hinit, hownParent, hquiet, ?_⟩
  · intro p proc₂ hp
    obtain ⟨proc₁, hp, -⟩ := hr.back p proc₂ hp
    exact h.bound p proc₁ hp
  · intro p proc₂ hp
    obtain ⟨proc₁, hp1, -, hsame⟩ := hr.back p proc₂ hp
    by_cases hpc : p = c
    · subst hpc
      rw [hself] at hp
      cases hp
      exact hborn
    · rw [← (hsame hpc).2]
      exact h.born p proc₁ hp1
  · intro m l
    rw [hr.members, h.member]
    constructor
    · rintro ⟨proc₁, hm, hl, hne⟩
      obtain ⟨proc₂, hm', hpgid, -⟩ := hr.forward m proc₁ hm
      exact ⟨proc₂, hm', hpgid.trans hl, hne⟩
    · rintro ⟨proc₂, hm, hl, hne⟩
      obtain ⟨proc₁, hm', hpgid, -⟩ := hr.back m proc₂ hm
      exact ⟨proc₁, hm', hpgid.trans hl, hne⟩
  · rw [hr.members]
    exact h.memberNodup
  · intro m proc₂ hm
    obtain ⟨proc₁, hm', hpgid, -⟩ := hr.back m proc₂ hm
    obtain ⟨leader, hleader, hlpgid⟩ := h.leader m proc₁ hm'
    obtain ⟨leader', hleader', hlpgid', -⟩ := hr.forward _ leader hleader
    rw [← hpgid]
    exact ⟨leader', hleader', hlpgid'.trans hlpgid⟩
  · intro l proc₂ hl hstatus
    rw [hr.members]
    by_cases hlc : l = c
    · subst hlc
      rw [hself] at hl
      cases hl
      obtain ⟨hpgid, hnone, hmembers⟩ := hgroup hstatus
      exact ⟨hpgid, hnone, fun hnil => absurd hnil hmembers⟩
    · obtain ⟨proc₁, hl', hpgid, hsame⟩ := hr.back l proc₂ hl
      obtain ⟨hnone, hsame⟩ := hsame hlc
      rw [← hpgid, ← hnone]
      exact h.group l proc₁ hl' (hsame.trans hstatus)
  · intro p q proc₁ proc₂ tag hp hq htag1 htag2
    obtain ⟨proc3, hp', -, hsame3⟩ := hr.back p proc₁ hp
    obtain ⟨proc4, hq', -, hsame4⟩ := hr.back q proc₂ hq
    by_cases hpc : p = c
    · by_cases hqc : q = c
      · exact hpc.trans hqc.symm
      · rw [hpc, hself] at hp
        cases hp
        rw [hpc, htag tag htag1 q proc4 hq' ((hsame4 hqc).1.trans htag2)]
    · by_cases hqc : q = c
      · rw [hqc, hself] at hq
        cases hq
        rw [hqc, htag tag htag2 p proc3 hp' ((hsame3 hpc).1.trans htag1)]
      · exact h.tags p q proc3 proc4 tag hp' hq' ((hsame3 hpc).1.trans htag1) ((hsame4 hqc).1.trans htag2)

theorem Kin.keepLeader (hc : t.procs c = some proc)
    (hdead : proc.status = .dead) (hpgid : proc.pgid = c) (hmembers : t.members c ≠ []) :
    Kin lone bare owed ((t.unlink c).set c { proc with tag := none, status := .group }) := by
  have hself := Tree.set_self (t.unlink c) c { proc with tag := none, status := .group }
  refine h.regroup (Regrouped.of_update hc rfl rfl rfl) hself (by simp)
    (fun _ => ⟨hpgid, rfl, hmembers⟩) (fun tag htag => by cases htag)
    (h.leave hc (fun hl => hl.status.1 hdead) (fun hpc => Tree.set_ne _ hpc _) ?_ rfl)
  intro proc' hp
  rw [hself] at hp
  cases hp
  rfl

theorem Kin.setLiving (hc : t.procs c = some proc) (hliving : proc.Living)
    {proc' : Proc} (hliving' : proc'.Living) (hppid : proc'.ppid = proc.ppid) (hpgid : proc'.pgid = proc.pgid)
    (hfresh : ∀ tag, proc'.tag = some tag → ∀ q proc₁, t.procs q = some proc₁ →
      proc₁.tag = some tag → q = c) : Kin lone bare (fun q => owed q ∨ q = c) (t.set c proc') := by
  have hne {p : ℕ} (hpc : p ≠ c) := Tree.set_ne t hpc proc'
  have hself := Tree.set_self t c proc'
  have hguardian : (t.set c proc').guardian = t.guardian := by
    funext p
    by_cases hpc : p = c
    · subst hpc
      rw [Tree.guardian_of_procs hself, Tree.guardian_of_procs hc, Proc.guardian, Proc.guardian, hppid]
      simp [hliving.status, hliving'.status]
    · exact Tree.guardian_congr (hne hpc)
  have hisDead : (t.set c proc').isDead = t.isDead := by
    funext p
    by_cases hpc : p = c
    · subst hpc
      simp [Tree.isDead, hself, hc, hliving.status, hliving'.status]
    · exact Tree.isDead_congr (hne hpc)
  refine h.regroup (Regrouped.of_update hc rfl rfl hpgid) hself hliving'.status.2.2
    (fun hgroup => absurd hgroup hliving'.status.2.1) hfresh ⟨?_, h.childNodup, ?_, ?_, ?_, ?_, ?_⟩
  · rw [hguardian]
    exact h.child
  · intro p q hp
    rw [hguardian] at hp
    obtain ⟨proc₁, hq, hl⟩ := h.parent p q hp
    by_cases hqc : q = c
    · subst hqc
      exact ⟨proc', hself, hliving'⟩
    · exact ⟨proc₁, (hne hqc).trans hq, hl⟩
  · intro p proc₁ hp hdead
    by_cases hpc : p = c
    · subst hpc
      rw [hself] at hp
      cases hp
      exact absurd hdead hliving'.status.1
    · rw [hne hpc] at hp
      exact h.waited p proc₁ hp hdead
  · obtain ⟨proc₁, hinit, hl, hzero⟩ := h.init
    by_cases hic : initPid = c
    · rw [hic] at hinit ⊢
      rw [hc] at hinit
      cases hinit
      exact ⟨proc', hself, hliving', hppid.trans hzero⟩
    · exact ⟨proc₁, (hne hic).trans hinit, hl, hzero⟩
  · rw [hguardian]
    exact h.ownParent
  · intro q proc₁ hq hl htag howed p hp
    rw [hisDead]
    have hqc : q ≠ c := fun hqc => howed (.inr hqc)
    rw [hne hqc] at hq
    exact h.quiet q proc₁ hq hl htag (fun ho => howed (.inl ho)) p hp

theorem Kin.settle {owed' : ℕ → Prop}
    (hquiet : ∀ q proc, t.procs q = some proc → proc.Living → proc.tag.isSome = true → owed q →
      ¬owed' q → ∀ c ∈ t.children q, t.isDead c = false) : Kin lone bare owed' t := by
  refine { h with quiet := ?_ }
  intro q proc hq hliving htag howed
  by_cases ho : owed q
  · exact hquiet q proc hq hliving htag ho howed
  · exact h.quiet q proc hq hliving htag ho

theorem Kin.accompany (hlone : ∀ proc, t.procs lone = some proc → proc.status = .dead → proc.ppid ≠ 0) :
    Kin 0 bare owed t := by
  refine { h with waited := ?_ }
  intro p proc hp hdead hppid
  have heq := h.waited p proc hp hdead hppid
  rw [heq] at hp
  exact absurd hppid (hlone proc hp hdead)

theorem Kin.clothe {bare' : ℕ → Prop}
    (hbare : ∀ l leader, t.procs l = some leader → leader.status = .group → t.members l = [] →
      bare l → bare' l) : Kin lone bare' owed t := by
  refine { h with group := ?_ }
  intro l leader hl hgroup
  obtain ⟨hpgid, htag, hnil⟩ := h.group l leader hl hgroup
  exact ⟨hpgid, htag, fun hmembers => hbare l leader hl hgroup hmembers (hnil hmembers)⟩

theorem Kin.congr (hprocs : t'.procs = t.procs)
    (hchildren : t'.children = t.children) (hmembers : t'.members = t.members) : Kin lone bare owed t' := by
  obtain ⟨procs, children, members, sequence⟩ := t'
  subst hprocs hchildren hmembers
  exact { h with }

end

theorem Tree.Numbered.destroyBody (h : t.Numbered) (hp : 0 < p) (hbound : p < idMax) :
    (t.destroyBody p).2.Numbered := by
  refine (Ids.release h hbound).congr ?_
  intro n
  by_cases hn : n = p
  · subst hn
    simp [Tree.destroyBody]
    omega
  · simp [Tree.destroyBody, hn]

theorem Tree.Numbered.congr (h : t.Numbered) (hsequence : t'.sequence = t.sequence)
    (hprocs : ∀ p, t'.procs p = none ↔ t.procs p = none) : t'.Numbered := by
  rw [Tree.Numbered, hsequence]
  refine Ids.congr h ?_
  intro n
  rw [Ne, Ne, hprocs]

theorem Tree.Numbered.set (h : t.Numbered) (hc : t.procs c = some proc) (proc' : Proc) :
    (t.set c proc').Numbered := by
  refine h.congr rfl ?_
  intro p
  by_cases hpc : p = c
  · subst hpc
    simp [Tree.set_self, hc]
  · rw [Tree.set_ne t hpc]

section

variable (h : Kin lone bare owed t) (hc : t.procs c = some proc)
include h hc

theorem Kin.not_mem_members (hpgid : proc.pgid = c) (l : ℕ) : c ∉ t.members l := by
  intro hmem
  obtain ⟨proc', hproc', hl, hne⟩ := (h.member c l).mp hmem
  rw [hc] at hproc'
  cases hproc'
  exact hne (hl.symm.trans hpgid)

theorem Kin.not_mem_children (hgroup : proc.status = .group) (q : ℕ) : c ∉ t.children q := by
  intro hmem
  rw [h.child, Tree.guardian_of_procs hc, Proc.guardian, if_neg (by simp [hgroup])] at hmem
  cases hmem

theorem Kin.members_eq_nil (hpgid : proc.pgid ≠ c) : t.members c = [] := by
  rw [List.eq_nil_iff_forall_not_mem]
  intro m hm
  obtain ⟨proc', hproc', hl, -⟩ := (h.member m c).mp hm
  obtain ⟨leader, hleader, hlpgid⟩ := h.leader m proc' hproc'
  rw [hl, hc] at hleader
  cases hleader
  exact hpgid (hlpgid.trans hl)

end

structure Removed (t : Tree) (c : ℕ) (proc : Proc) (out : List TreeEvent) (t' : Tree) : Prop where
  numbered : t.Numbered → t'.Numbered
  procs : ∀ p, p ≠ c → (∀ proc', t.procs p = some proc' → proc'.status ≠ .group) →
    t'.procs p = t.procs p
  gone : ∀ p proc', t'.procs p = some proc' → p ≠ c → t.procs p = some proc'
  self : ∀ proc', t'.procs c = some proc' → proc'.status = .group ∧ proc'.tag = none
  children : ∀ q, t'.children q = (t.children q).erase c
  out : ∃ freed : List ℕ, out = proc.tag.toList.map .dropped ++ freed.map .freed

theorem Removed.of_procs {out : List TreeEvent} (freed : List ℕ) (hnumbered : t.Numbered → t'.Numbered)
    (hother : ∀ p, p ≠ c → t'.procs p = t.procs p ∨
      t'.procs p = none ∧ ∃ leader, t.procs p = some leader ∧ leader.status = .group)
    (hself : ∀ proc', t'.procs c = some proc' → proc'.status = .group ∧ proc'.tag = none)
    (hchildren : ∀ q, t'.children q = (t.children q).erase c)
    (hout : out = proc.tag.toList.map .dropped ++ freed.map .freed) : Removed t c proc out t' := by
  refine ⟨hnumbered, ?_, ?_, hself, hchildren, freed, hout⟩
  · intro p hpc hgroup
    rcases hother p hpc with heq | ⟨-, leader, hleader, hstatus⟩
    · exact heq
    · exact absurd hstatus (hgroup leader hleader)
  · intro p proc' hp hpc
    rcases hother p hpc with heq | ⟨hnone, -⟩
    · exact heq.symm.trans hp
    · rw [hnone] at hp
      cases hp

theorem destroyFrame_kin (h : Kin lone noOne owed t) (hc : t.procs c = some proc)
    (hdead : proc.status = .dead) : Kin lone noOne owed (t.destroyFrame c proc).2 ∧
      Removed t c proc (t.destroyFrame c proc).1 (t.destroyFrame c proc).2 := by
  have hbound := h.bound c proc hc
  obtain ⟨leader, hleader, hlpgid⟩ := h.leader c proc hc
  have hlbound := h.bound proc.pgid leader hleader
  have hpgid : proc.pgid ≠ 0 := by omega
  by_cases hkeep : proc.pgid = c ∧ t.members c ≠ []
  · have heq : t.destroyFrame c proc = (proc.tag.toList.map .dropped,
        (t.unlink c).set c { proc with tag := none, status := .group }) := by
      simp [Tree.destroyFrame, Tree.set, Tree.unlink, hkeep]
    rw [heq]
    refine ⟨h.keepLeader hc hdead hkeep.1 hkeep.2, .of_procs [] ?_ ?_ ?_ (fun _ => rfl) (by simp)⟩
    · intro hnumbered
      exact Tree.Numbered.set (t := t.unlink c) hnumbered hc _
    · intro p hpc
      exact .inl (Tree.set_ne _ hpc _)
    · intro proc' hp
      rw [Tree.set_self] at hp
      cases hp
      exact ⟨rfl, rfl⟩
  have hnil : t.members c = [] := by
    by_cases hself : proc.pgid = c
    · by_contra hne
      exact hkeep ⟨hself, hne⟩
    · exact h.members_eq_nil hc hself
  have hwithout := h.without hc (fun hl => hl.status.1 hdead) hnil
  by_cases hfree : proc.pgid ≠ c ∧ leader.status = .group ∧ (t.members proc.pgid).erase c = []
  · obtain ⟨hself, hgroup, hlast⟩ := hfree
    have heq : t.destroyFrame c proc = (proc.tag.toList.map .dropped ++ [proc.pgid, c].map .freed,
        { (t.leaveGroup c).unlink c with
          procs := update (update t.procs proc.pgid none) c none
          sequence := sequenceRelease (sequenceRelease t.sequence proc.pgid) c }) := by
      simp [Tree.destroyFrame, Tree.destroyLeader, Tree.destroyBody, Tree.leaveGroup, Tree.set, Tree.unlink,
        hself, hpgid, hleader, hgroup, hlast, update_comm (Ne.symm hself)]
    rw [heq]
    refine ⟨?_, .of_procs [proc.pgid, c] (fun hnumbered => ?_) ?_ (by simp) (fun _ => rfl) rfl⟩
    · have hboth := hwithout.without ((Tree.without_procs_ne t hself).trans hleader)
        (fun hl => hl.status.2.1 hgroup) hlast
      have hkin : Kin lone noOne owed ((t.without c).without proc.pgid) := by
        refine hboth.clothe ?_
        rintro l leader' hl - - ((hfalse | rfl) | rfl)
        · exact hfalse
        · rw [Tree.without_procs_self] at hl
          cases hl
        · rw [hlpgid, Tree.without_procs_self] at hl
          cases hl
      refine hkin.congr (update_comm hself ..) ?_ ?_
      · funext q
        refine (List.erase_of_not_mem ?_).symm
        intro hmem
        exact h.not_mem_children hleader hgroup q (List.mem_of_mem_erase hmem)
      · funext l
        refine (List.erase_of_not_mem ?_).symm
        intro hmem
        exact h.not_mem_members hleader hlpgid l (List.mem_of_mem_erase hmem)
    · exact (hnumbered.destroyBody hlbound.1 hlbound.2).destroyBody hbound.1 hbound.2
    · intro p hpc
      by_cases hpl : p = proc.pgid
      · subst hpl
        exact .inr ⟨by simp [hpc], leader, hleader, hgroup⟩
      · exact .inl (by simp [hpc, hpl])
  · have heq : t.destroyFrame c proc = (proc.tag.toList.map .dropped ++ [c].map .freed,
        { t.without c with sequence := sequenceRelease t.sequence c }) := by
      by_cases hself : proc.pgid = c
      · have hmembers : (fun l => (t.members l).erase c) = t.members := by
          funext l
          exact List.erase_of_not_mem (h.not_mem_members hc hself l)
        simp [Tree.destroyFrame, Tree.destroyBody, Tree.set, Tree.unlink, Tree.without, hself, hnil, hmembers]
      · have hkept : ¬(leader.status = .group ∧ (t.members proc.pgid).erase c = []) := by
          rintro ⟨hgroup, hlast⟩
          exact hfree ⟨hself, hgroup, hlast⟩
        simp [-List.erase_eq_nil_iff, Tree.destroyFrame, Tree.destroyLeader, Tree.destroyBody, Tree.leaveGroup,
          Tree.set, Tree.unlink, Tree.without, hself, hpgid, hleader, hkept]
    rw [heq]
    refine ⟨?_, .of_procs [c] (fun hnumbered => ?_)
      (fun p hpc => .inl (Tree.without_procs_ne t hpc)) (by simp [Tree.without]) (fun _ => rfl) rfl⟩
    · have hkin : Kin lone noOne owed (t.without c) := by
        refine hwithout.clothe ?_
        rintro l leader' hl hgroup hmembers (hfalse | rfl)
        · exact hfalse
        · have hself := Tree.ne_of_none hl (Tree.without_procs_self t c)
          rw [Tree.without_procs_ne t hself, hleader] at hl
          cases hl
          exact hfree ⟨hself, hgroup, hmembers⟩
      exact hkin.congr rfl rfl rfl
    · exact hnumbered.destroyBody hbound.1 hbound.2

end Kin

end Eotan.Mm
