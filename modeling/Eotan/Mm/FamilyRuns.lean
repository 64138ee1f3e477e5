import Eotan.Mm.TreeRuns

namespace Eotan.Mm

open Sequence (Seq sequenceGet sequenceRelease)
open Function
open List

section Fork

variable {k : Kinship} {t T : Tree} {src p lone : ℕ} {bare owed : ℕ → Prop} {proc dest : Proc}
  {nowait noteg : Bool}

theorem Kin.absent (h : Kin lone bare owed t) (hp : t.procs p = none) :
    t.children p = [] ∧ t.members p = [] ∧ (∀ q, p ∉ t.children q) ∧ ∀ l, p ∉ t.members l := by
  refine ⟨?_, ?_, ?_, ?_⟩
  · rw [eq_nil_iff_forall_not_mem]
    intro c hc
    obtain ⟨proc', hproc', -⟩ := h.parent c p ((h.child c p).mp hc)
    rw [hp] at hproc'
    cases hproc'
  · rw [eq_nil_iff_forall_not_mem]
    intro m hm
    obtain ⟨proc', hproc', hpgid, -⟩ := (h.member m p).mp hm
    obtain ⟨leader, hleader, -⟩ := h.leader m proc' hproc'
    rw [hpgid, hp] at hleader
    cases hleader
  · intro q hq
    rw [h.child, Tree.guardian_of_none hp] at hq
    cases hq
  · intro l hl
    obtain ⟨proc', hproc', -⟩ := (h.member p l).mp hl
    rw [hp] at hproc'
    cases hproc'

theorem Kin.ne_init_of_none (h : Kin lone bare owed t) (hp : t.procs p = none) : p ≠ initPid := by
  obtain ⟨init, hinit, -⟩ := h.init
  exact (Tree.ne_of_none hinit hp).symm

theorem Kin.leader_ne (h : Kin lone bare owed t) (hsrc : t.procs src = some proc)
    (hp : t.procs p = none) : proc.pgid ≠ p := by
  obtain ⟨leader, hleader, -⟩ := h.leader src proc hsrc
  exact Tree.ne_of_none hleader hp

structure Added (t : Tree) (p : ℕ) (dest : Proc) (T : Tree) : Prop where
  procs : ∀ q, q ≠ p → T.procs q = t.procs q
  children : ∀ q, (T.children q).erase p = t.children q
  noChildren : T.children p = []
  members : ∀ l, (T.members l).erase p = t.members l
  noMembers : T.members p = []
  group : dest.pgid = p ∨ dest.pgid = 0 → T.members = t.members

theorem processDestroy_unborn (h : t.Settled)
    (hp : t.procs p = none) (hadded : Added t p dest T) (hnull : dest.status = .null)
    (htag : dest.tag = none) (status : ℤ) : T.processDestroy p dest status =
      ([.died p status false, .freed p], { t with sequence := sequenceRelease T.sequence p }) := by
  have hinit := h.ne_init_of_none hp
  obtain ⟨init, hproc, -⟩ := h.init
  obtain ⟨dest', hdest'⟩ : ∃ dest' : Proc,
      dest' = { dest with exitStatus := status, ppid := 0, status := .dead } := ⟨_, rfl⟩
  have hprocs : update T.procs p none = t.procs := by
    funext q
    by_cases hq : q = p
    · rw [hq, update_self, hp]
    · rw [update_of_ne hq, hadded.procs q hq]
  have hchildren : (T.set p dest').leaveChildren p = ([], T.set p dest') := by
    have hnil : (T.set p dest').children p = [] := hadded.noChildren
    have hsome : (T.set p dest').procs initPid = some init := by
      rw [← hproc, ← hadded.procs initPid (Ne.symm hinit)]
      exact Tree.set_ne _ (Ne.symm hinit) _
    have hadopt : (T.set p dest').adoptAll p = T.set p dest' := by
      unfold Tree.adoptAll
      rw [hnil, foldl_nil, ← hnil, update_eq_self]
    simp only [Tree.leaveChildren, if_neg hinit, hsome, hadopt, hnil, any_nil, Bool.false_eq_true, if_false]
  have hparent : (T.set p dest').leaveParent p =
      ([.freed p], { t with sequence := sequenceRelease T.sequence p }) := by
    have hppid : dest'.ppid = 0 := by rw [hdest']
    have htag' : dest'.tag = none := by rw [hdest', ← htag]
    have hpgid : dest'.pgid = dest.pgid := by rw [hdest']
    simp only [Tree.leaveParent, Tree.set_self, hppid, if_true]
    by_cases hgroup : dest'.pgid ≠ p ∧ dest'.pgid ≠ 0
    · -- a leader that is only kept for its group has members other than `p`
      have hkept (leader : Proc) (hl : t.procs dest'.pgid = some leader) :
          ¬(leader.status = .group ∧ t.members dest'.pgid = []) := by
        rintro ⟨hstatus, hnil⟩
        exact (h.group _ leader hl hstatus).2.2 hnil
      cases hl : t.procs dest'.pgid with
      | none =>
        simp [Tree.destroyFrame, Tree.destroyLeader, Tree.destroyBody, Tree.leaveGroup, Tree.set, Tree.unlink,
          htag', hgroup, hadded.procs, hl, hprocs, hadded.children, hadded.members]
      | some leader =>
        simp [Tree.destroyFrame, Tree.destroyLeader, Tree.destroyBody, Tree.leaveGroup, Tree.set, Tree.unlink,
          htag', hgroup, hadded.procs, hl, hkept leader hl, hprocs, hadded.children, hadded.members]
    · have hmembers : T.members = t.members := by
        refine hadded.group ?_
        rw [← hpgid]
        by_contra hno
        push Not at hno
        exact hgroup hno
      have hnil := hadded.noMembers
      rw [hmembers] at hnil
      simp [Tree.destroyFrame, Tree.destroyBody, Tree.set, Tree.unlink, htag', hgroup, hprocs, hadded.children,
        hmembers, hnil]
  have hdestroy : T.processDestroy p dest status =
      let r := (T.set p dest').leaveChildren p
      let r' := r.2.leaveParent p
      (.died p status (dest'.ppid ≠ 0) :: r.1 ++ r'.1, r'.2) := by
    simp only [Tree.processDestroy, if_pos hnull, hdest']
  rw [hdestroy]
  simp only [hchildren, hparent]
  rw [hdest']
  rfl

structure Linked (t : Tree) (src leader p : ℕ) (nowait noteg : Bool) (r : Proc × Tree) : Prop where
  ppid : r.1.ppid = if nowait = true then 0 else src
  pgid : r.1.pgid = if noteg = true then p else leader
  tag : r.1.tag = none
  status : r.1.status = .null
  procs : r.2.procs = Function.update t.procs p (some r.1)
  children : ∀ q, r.2.children q =
    if nowait = false ∧ q = src then t.children q ++ [p] else t.children q
  members : ∀ l, r.2.members l =
    if noteg = false ∧ l = leader then t.members l ++ [p] else t.members l
  sequence : r.2.sequence = t.sequence

theorem create_procs (t : Tree) (p : ℕ) (stale : Proc) : (t.create p stale).procs =
      update t.procs p (some { stale with status := .null, tag := none }) := rfl

theorem create_children (h : t.Settled) (hp : t.procs p = none)
    (stale : Proc) : (t.create p stale).children = t.children := by
  change update t.children p [] = t.children
  rw [← (h.absent hp).1, update_eq_self]

theorem create_members (h : t.Settled) (hp : t.procs p = none)
    (stale : Proc) : (t.create p stale).members = t.members := by
  change update t.members p [] = t.members
  rw [← (h.absent hp).2.1, update_eq_self]

theorem create_added (h : t.Settled) (hp : t.procs p = none)
    (stale dest : Proc) : Added t p dest (t.create p stale) := by
  obtain ⟨hchildren, hmembers, hno, hnomem⟩ := h.absent hp
  refine ⟨fun q hq => update_of_ne hq _ _, ?_, ?_, ?_, ?_, fun _ => create_members h hp stale⟩
  · intro q
    rw [create_children h hp stale]
    exact erase_of_not_mem (hno q)
  · rw [create_children h hp stale, hchildren]
  · intro l
    rw [create_members h hp stale]
    exact erase_of_not_mem (hnomem l)
  · rw [create_members h hp stale, hmembers]

theorem update_append (f : ℕ → List ℕ) (b : Bool) (n p q : ℕ) :
    (if b = true then f else update f n (f n ++ [p])) q = if b = false ∧ q = n then f q ++ [p] else f q := by
  by_cases hq : q = n
  · subst hq
    cases b <;> simp
  · cases b <;> simp [hq]

theorem joinParent_eq (t : Tree) (src p : ℕ) (dest : Proc) (nowait : Bool) :
    t.joinParent src p dest nowait = ({ dest with ppid := if nowait = true then 0 else src },
      { t with children := if nowait = true then t.children
          else update t.children src (t.children src ++ [p]) }) := by
  cases nowait <;> rfl

theorem joinGroup_eq {leader : Proc} {pgid : ℕ} (hleader : t.procs pgid = some leader) :
    t.joinGroup pgid p dest noteg = ({ dest with pgid := if noteg = true then p else pgid },
      { t with members := if noteg = true then t.members
          else update t.members pgid (t.members pgid ++ [p]) }) := by
  cases noteg with
  | false => simp only [Tree.joinGroup, Bool.false_eq_true, if_false, hleader]
  | true => rfl

theorem link_linked (h : t.Settled) (hp : t.procs p = none)
    (hsrc : t.procs src = some proc) (nowait noteg : Bool) (stale : Proc) :
    Linked t src proc.pgid p nowait noteg ((t.create p stale).link src proc p
      { stale with status := .null, tag := none } nowait noteg) := by
  obtain ⟨leader, hleader, -⟩ := h.leader src proc hsrc
  have hlook : (t.create p stale).procs proc.pgid = some leader := by
    rw [← hleader]
    exact update_of_ne (h.leader_ne hsrc hp) _ _
  have hchildren := create_children h hp stale
  have hmembers := create_members h hp stale
  have hprocs (proc' : Proc) : update (t.create p stale).procs p (some proc') =
      update t.procs p (some proc') := by
    rw [create_procs, update_idem]
  simp only [Tree.link, joinParent_eq]
  rw [joinGroup_eq (by exact hlook)]
  refine ⟨rfl, rfl, rfl, rfl, hprocs _, fun q => ?_, fun l => ?_, rfl⟩
  · rw [← update_append, ← hchildren]
    rfl
  · rw [← update_append, ← hmembers]
    rfl

variable {leader : ℕ} {r : Proc × Tree}

theorem nodup_joined {l : List ℕ} (hl : l.Nodup) (hp : p ∉ l) (b : Prop) [Decidable b] :
    (if b then l ++ [p] else l).Nodup := by
  split
  · exact nodup_append_comm.mp (nodup_cons.mpr ⟨hp, hl⟩)
  · exact hl

theorem Linked.set_procs (hl : Linked t src leader p nowait noteg r)
    (proc' : Proc) : (r.2.set p proc').procs = update t.procs p (some proc') := by
  change update r.2.procs p (some proc') = _
  rw [hl.procs, update_idem]

theorem Linked.added (hl : Linked t src leader p nowait noteg r)
    (h : t.Settled) (hp : t.procs p = none) (hsrc : src ≠ p)
    (hleader : leader ≠ p) (hzero : leader ≠ 0) : Added t p r.1 r.2 := by
  obtain ⟨hchildren, hmembers, hno, hnomem⟩ := h.absent hp
  have herase {l : List ℕ} (hl : p ∉ l) : (l ++ [p]).erase p = l := by
    rw [erase_append_right _ hl]
    simp
  refine ⟨?_, ?_, ?_, ?_, ?_, ?_⟩
  · intro q hq
    rw [hl.procs]
    exact update_of_ne hq _ _
  · intro q
    rw [hl.children]
    split
    · exact herase (hno q)
    · exact erase_of_not_mem (hno q)
  · rw [hl.children, if_neg fun hboth => hsrc hboth.2.symm, hchildren]
  · intro l
    rw [hl.members]
    split
    · exact herase (hnomem l)
    · exact erase_of_not_mem (hnomem l)
  · rw [hl.members, if_neg fun hboth => hleader hboth.2.symm, hmembers]
  · intro hpgid
    have hnoteg : noteg = true := by
      rw [hl.pgid] at hpgid
      by_contra hnot
      rw [if_neg hnot] at hpgid
      rcases hpgid with hpgid | hpgid
      · exact hleader hpgid
      · exact hzero hpgid
    funext l
    rw [hl.members, if_neg]
    rw [hnoteg]
    simp

theorem Linked.kin (hl : Linked t src proc.pgid p nowait noteg r) (h : t.Settled) (hp : t.procs p = none)
    (hbound : 0 < p ∧ p < idMax) (hsrc : t.procs src = some proc) (hliving : proc.Living) :
    Kin 0 noOne noOne (r.2.set p { r.1 with status := .active }) := by
  obtain ⟨t', ht'⟩ : ∃ t', t' = r.2.set p { r.1 with status := .active } := ⟨_, rfl⟩
  obtain ⟨child, hchild⟩ : ∃ child : Proc, child = { r.1 with status := .active } := ⟨_, rfl⟩
  have hppid : child.ppid = if nowait = true then 0 else src := by rw [hchild, ← hl.ppid]
  have hpgid : child.pgid = if noteg = true then p else proc.pgid := by rw [hchild, ← hl.pgid]
  have htag : child.tag = none := by rw [hchild, ← hl.tag]
  have hstatus : child.status = .active := by rw [hchild]
  have hne {q : ℕ} (hq : q ≠ p) : t'.procs q = t.procs q := by
    rw [ht', hl.set_procs, update_of_ne hq]
  have hself : t'.procs p = some child := by
    rw [ht', hchild]
    exact Tree.set_self ..
  have hchildren (q : ℕ) : t'.children q =
      if nowait = false ∧ q = src then t.children q ++ [p] else t.children q := by
    rw [← hl.children, ht']
    rfl
  have hmembers (l : ℕ) : t'.members l =
      if noteg = false ∧ l = proc.pgid then t.members l ++ [p] else t.members l := by
    rw [← hl.members, ht']
    rfl
  rw [← ht']
  obtain ⟨-, -, hno, hnomem⟩ := h.absent hp
  have hsrcp := Tree.ne_of_none hsrc hp
  have hsrc0 := (h.bound src proc hsrc).1
  have hguardian : t'.guardian p = if nowait = true then none else some src := by
    rw [Tree.guardian_of_procs hself, Proc.guardian, hppid, hstatus]
    cases nowait
    · simp
      omega
    · simp
  have hlook {q : ℕ} {proc' : Proc} (hq : t.procs q = some proc') : t'.procs q = some proc' := by
    rw [← hq]
    exact hne (Tree.ne_of_none hq hp)
  have hnew {q : ℕ} {proc' : Proc} (hq : t'.procs q = some proc') :
      q = p ∧ proc' = child ∨ t.procs q = some proc' := by
    by_cases hqp : q = p
    · rw [hqp, hself] at hq
      exact .inl ⟨hqp, (Option.some.inj hq).symm⟩
    · exact .inr ((hne hqp).symm.trans hq)
  refine ⟨?_, ?_, ?_, ?_, ?_, ?_, ?_, ?_, ?_, ?_, ?_, ?_, ?_, ?_⟩
  · intro q proc' hq
    rcases hnew hq with ⟨rfl, -⟩ | hq
    · exact hbound
    · exact h.bound q proc' hq
  · intro c q
    rw [hchildren]
    by_cases hcp : c = p
    · subst hcp
      rw [hguardian]
      have hnot := hno q
      cases nowait with
      | true => simp [hnot]
      | false =>
        by_cases hq : q = src
        · simp [hq]
        · simp [hq, hnot, Ne.symm hq]
    · rw [Tree.guardian_congr (hne hcp), ← h.child]
      split <;> simp [hcp]
  · intro q
    rw [hchildren]
    exact nodup_joined (h.childNodup q) (hno q) _
  · intro c q hc
    by_cases hcp : c = p
    · subst hcp
      rw [hguardian] at hc
      cases nowait with
      | true => cases hc
      | false =>
        cases hc
        exact ⟨proc, hlook hsrc, hliving⟩
    · rw [Tree.guardian_congr (hne hcp)] at hc
      obtain ⟨proc', hq, hlive⟩ := h.parent c q hc
      exact ⟨proc', hlook hq, hlive⟩
  · intro q proc' hq hdead
    rcases hnew hq with ⟨rfl, rfl⟩ | hq
    · rw [hstatus] at hdead
      cases hdead
    · exact h.waited q proc' hq hdead
  · intro q proc' hq
    rcases hnew hq with ⟨rfl, rfl⟩ | hq
    · simp [hstatus]
    · exact h.born q proc' hq
  · intro m l
    rw [hmembers]
    by_cases hmp : m = p
    · subst hmp
      rw [hself]
      have hnot := hnomem l
      cases noteg with
      | true =>
        simp only [if_true] at hpgid
        simp [hnot, hpgid, eq_comm]
      | false =>
        simp only [Bool.false_eq_true, if_false] at hpgid
        have hleaderp := h.leader_ne hsrc hp
        by_cases heq : l = proc.pgid
        · subst heq
          simp [hpgid, hleaderp]
        · simp [heq, hnot, hpgid, Ne.symm heq]
    · rw [hne hmp, ← h.member]
      split <;> simp [hmp]
  · intro l
    rw [hmembers]
    exact nodup_joined (h.memberNodup l) (hnomem l) _
  · intro m proc' hm
    rcases hnew hm with ⟨rfl, rfl⟩ | hm
    · rw [hpgid]
      cases noteg with
      | true => exact ⟨proc', hself, hpgid⟩
      | false =>
        obtain ⟨leader, hleader, heq⟩ := h.leader src proc hsrc
        exact ⟨leader, hlook hleader, heq⟩
    · obtain ⟨leader, hleader, heq⟩ := h.leader m proc' hm
      exact ⟨leader, hlook hleader, heq⟩
  · intro l proc' hl' hgroup
    rcases hnew hl' with ⟨rfl, rfl⟩ | hl'
    · rw [hstatus] at hgroup
      cases hgroup
    obtain ⟨hown, hnone, hnil⟩ := h.group l proc' hl' hgroup
    refine ⟨hown, hnone, fun hmem => hnil ?_⟩
    rw [hmembers] at hmem
    split at hmem
    · simp at hmem
    · exact hmem
  · obtain ⟨init, hinit, hlive⟩ := h.init
    exact ⟨init, hlook hinit, hlive⟩
  · intro c
    by_cases hcp : c = p
    · subst hcp
      rw [hguardian]
      cases nowait with
      | true => simp
      | false => simpa using hsrcp
    · rw [Tree.guardian_congr (hne hcp)]
      exact h.ownParent c
  · intro q proc' hq hlive hwait howed c hc
    rcases hnew hq with ⟨rfl, rfl⟩ | hq
    · rw [htag] at hwait
      cases hwait
    by_cases hcp : c = p
    · subst hcp
      simp [Tree.isDead, hself, hstatus]
    have hc' : c ∈ t.children q := by
      rw [hchildren] at hc
      split at hc
      · simpa [hcp] using hc
      · exact hc
    rw [Tree.isDead_congr (hne hcp)]
    exact h.quiet q proc' hq hlive hwait howed c hc'
  · intro q q' proc1 proc2 tag hq hq' htag1 htag2
    have hold {q : ℕ} {proc' : Proc} (hq : t'.procs q = some proc') (htag' : proc'.tag = some tag) :
        t.procs q = some proc' := by
      rcases hnew hq with ⟨-, rfl⟩ | hq
      · rw [htag] at htag'
        cases htag'
      · exact hq
    exact h.tags q q' proc1 proc2 tag (hold hq htag1) (hold hq' htag2) htag1 htag2

theorem Linked.sim (hl : Linked t src proc.pgid p nowait noteg r)
    (h : t.Settled) (hs : Sim k t) (hp : t.procs p = none)
    (hsrc : t.procs src = some proc) : ∃ k', k.event (.forked p src !nowait) = some k' ∧
      Sim k' (r.2.set p { r.1 with status := .active }) := by
  have hguardian : k.guardian p = none := by
    rw [hs.guardian, Tree.guardian_of_none hp]
  have hpending : k.pending p = none := by
    rw [hs.pending, Tree.pending, hp]
    rfl
  have hne {q : ℕ} (hq : q ≠ p) : (r.2.set p { r.1 with status := .active }).procs q = t.procs q := by
    rw [hl.set_procs, update_of_ne hq]
  have hself := Tree.set_self r.2 p { r.1 with status := .active }
  have hsrc0 := (h.bound src proc hsrc).1
  refine ⟨_, if_pos ⟨hguardian, hpending⟩, ?_, ?_, ?_⟩
  · change update k.guardian p _ = _
    funext q
    by_cases hq : q = p
    · subst hq
      rw [update_self, Tree.guardian_of_procs hself, Proc.guardian, hl.ppid]
      cases nowait
      · simp
        omega
      · simp
    · rw [update_of_ne hq, Tree.guardian_congr (hne hq), hs.guardian]
  · change k.pending = _
    funext q
    by_cases hq : q = p
    · subst hq
      rw [hpending, Tree.pending, hself]
      simp [Proc.pending]
    · rw [Tree.pending_congr (hne hq), hs.pending]
  · intro tag q
    change k.waiting tag = some q ↔ _
    rw [hs.waiting]
    by_cases hq : q = p
    · subst hq
      rw [hself, hp]
      simp [hl.tag]
    · rw [hne hq]

theorem Tree.Numbered.used (h : t.Numbered) {n : ℕ} {s : Seq} (hget : sequenceGet t.sequence = (some n, s)) :
    (0 < n ∧ n < idMax) ∧ t.procs n = none ∧ Ids s fun m => (m = 0 ∨ t.procs m ≠ none) ∨ m = n := by
  obtain ⟨hbound, hunused, hids⟩ := Ids.get h hget
  push Not at hunused
  exact ⟨⟨by omega, hbound⟩, hunused.2, hids⟩

theorem Ids.giveBack {s : Seq} {n : ℕ} (hids : Ids s fun m => (m = 0 ∨ t.procs m ≠ none) ∨ m = n)
    (hbound : 0 < n ∧ n < idMax) (hn : t.procs n = none) :
    Ids (sequenceRelease s n) fun m => m = 0 ∨ t.procs m ≠ none := by
  refine (hids.release hbound.2).congr ?_
  intro m
  by_cases hm : m = n
  · subst hm
    simp [hn]
    omega
  · simp [hm]

theorem Linked.numbered (hl : Linked t src leader p nowait noteg r)
    (hids : Ids t.sequence fun m => (m = 0 ∨ t.procs m ≠ none) ∨ m = p) (proc' : Proc) :
    (r.2.set p proc').Numbered := by
  rw [Tree.Numbered, hl.set_procs]
  change Ids r.2.sequence _
  rw [hl.sequence]
  refine hids.congr ?_
  intro m
  by_cases hm : m = p
  · simp [hm]
  · simp [hm]

theorem accept_unborn (k : Kinship) (hs : Sim k t) (hp : t.procs p = none)
    (h : t.Settled) (status : ℤ) (e : Fs.Errno) :
    k.accept ([.died p status false, .freed p] ++ [.failed src e]) = some k := by
  have hguardian : k.guardian p = none := by
    rw [hs.guardian, Tree.guardian_of_none hp]
  have hbereave : k.bereave p = k := by
    have hno (c : ℕ) : k.guardian c ≠ some p := by
      intro hc
      rw [hs.guardian] at hc
      obtain ⟨proc', hproc', -⟩ := h.parent c p hc
      rw [hp] at hproc'
      cases hproc'
    unfold Kinship.bereave
    simp only [hno, if_false]
  have hdied : k.event (.died p status false) = some k := by
    simp only [Kinship.event, Bool.false_eq_true, if_false, if_pos hguardian, hbereave]
  rw [cons_append, Kinship.accept_cons, hdied]
  rfl

theorem rfork_spec (h : t.Settled) (hs : Sim k t)
    (hn : t.Numbered) (hsrc : t.procs src = some proc) (hliving : proc.Living) (nowait noteg : Bool)
    (stale : Proc) (ending : Tree.ForkEnd) : let r := t.rfork src proc nowait noteg stale ending
    ∃ k', k.accept r.1 = some k' ∧ Sim k' r.2 ∧ r.2.Settled ∧
      r.2.Numbered ∧ ∀ q proc', t.procs q = some proc' → r.2.procs q = some proc' := by
  intro r
  obtain ⟨n, s, hget⟩ : ∃ n s, sequenceGet t.sequence = (n, s) := ⟨_, _, rfl⟩
  have hr : r = t.rfork src proc nowait noteg stale ending := rfl
  unfold Tree.rfork at hr
  rw [hget] at hr
  cases n with
  | none =>
    rw [hr]
    exact ⟨k, rfl, hs.congr rfl, h.congr rfl rfl rfl, (Ids.get_none hn hget).2, fun q proc' hq => hq⟩
  | some p =>
    obtain ⟨hbound, hp, hids⟩ := hn.used hget
    obtain ⟨t1, ht1⟩ : ∃ t1 : Tree, t1 = { t with sequence := s } := ⟨_, rfl⟩
    have h1 : t1.Settled := by
      rw [ht1]
      exact h.congr rfl rfl rfl
    have hs1 : Sim k t1 := by
      rw [ht1]
      exact hs.congr rfl
    have hp1 : t1.procs p = none := by rw [ht1, ← hp]
    have hsrc1 : t1.procs src = some proc := by rw [ht1, ← hsrc]
    have hback : Tree.Numbered { t1 with sequence := sequenceRelease t1.sequence p } := by
      rw [ht1]
      exact hids.giveBack hbound hp
    have hlinked := link_linked h1 hp1 hsrc1 nowait noteg stale
    obtain ⟨leader, hleader, -⟩ := h.leader src proc hsrc
    have hleader0 := (h.bound _ leader hleader).1
    have hold : ∀ q proc', t.procs q = some proc' → t1.procs q = some proc' := by
      rw [ht1]
      exact fun q proc' hq => hq
    simp only [← ht1] at hr
    cases ending with
    | create e =>
      have hfail : r = ([.failed src e], { t1 with sequence := sequenceRelease t1.sequence p }) := by
        rw [hr, ht1]
      rw [hfail]
      exact ⟨k, rfl, hs1.congr rfl, h1.congr rfl rfl rfl, hback, hold⟩
    | segments e =>
      have hunborn := processDestroy_unborn h1 hp1
        (create_added h1 hp1 stale { stale with status := .null, tag := none })
        rfl rfl 137
      simp only [hunborn] at hr
      rw [hr]
      exact ⟨k, accept_unborn k hs1 hp1 h1 137 e, hs1.congr rfl, h1.congr rfl rfl rfl, hback, hold⟩
    | later e =>
      have hunborn := processDestroy_unborn h1 hp1
        (hlinked.added h1 hp1 (Tree.ne_of_none hsrc hp) (h.leader_ne hsrc hp) (by omega)) hlinked.status hlinked.tag 137
      simp only [hunborn, hlinked.sequence] at hr
      rw [hr]
      exact ⟨k, accept_unborn k hs1 hp1 h1 137 e, hs1.congr rfl, h1.congr rfl rfl rfl, hback, hold⟩
    | success =>
      obtain ⟨k', hevent, hsim⟩ := hlinked.sim h1 hs1 hp1 hsrc1
      simp only at hr
      rw [hr]
      refine ⟨k', ?_, hsim, hlinked.kin h1 hp1 hbound hsrc1 hliving, hlinked.numbered ?_ _, ?_⟩
      · rw [Kinship.accept_cons, hevent]
        rfl
      · rw [ht1]
        exact hids
      · intro q proc' hq
        change Tree.procs (Tree.set _ _ _) q = _
        rw [hlinked.set_procs, update_of_ne (Tree.ne_of_none hq hp)]
        exact hold q proc' hq

end Fork

section Keeps

variable {t t' t'' : Tree} {c p q : ℕ} {proc : Proc}

def Tree.Keeps (c : ℕ) (t t' : Tree) : Prop :=
  ∀ q proc, q ≠ c → t.procs q = some proc → proc.Living →
    ∃ proc', t'.procs q = some proc' ∧ proc'.status = proc.status

theorem Tree.Keeps.refl (c : ℕ) (t : Tree) : t.Keeps c t := fun _ proc _ hq _ => ⟨proc, hq, rfl⟩

theorem Tree.Keeps.trans (h : t.Keeps c t') (h' : t'.Keeps c t'') : t.Keeps c t'' := by
  intro q proc hqc hq hliving
  obtain ⟨proc', hq', hstatus⟩ := h q proc hqc hq hliving
  have hliving' : proc'.Living := by rwa [Proc.Living, hstatus]
  obtain ⟨proc'', hq'', hstatus'⟩ := h' q proc' hqc hq' hliving'
  exact ⟨proc'', hq'', hstatus'.trans hstatus⟩

theorem Tree.Keeps.set_self (t : Tree) (c : ℕ) (proc : Proc) : t.Keeps c (t.set c proc) := by
  intro q proc' hqc hq _
  exact ⟨proc', (Tree.set_ne t hqc proc).trans hq, rfl⟩

theorem Tree.Keeps.set_status {proc' : Proc} (hp : t.procs p = some proc)
    (hstatus : proc'.status = proc.status) : t.Keeps c (t.set p proc') := by
  intro q proc1 _ hq _
  by_cases hqp : q = p
  · subst hqp
    rw [hp] at hq
    cases hq
    exact ⟨proc', update_self _ _ _, hstatus⟩
  · exact ⟨proc1, (update_of_ne hqp _ _).trans hq, rfl⟩

theorem destroyLeader_procs {pgid : ℕ} (hq : t.procs q = some proc) (hliving : proc.Living) :
    (t.destroyLeader pgid).2.procs q = some proc := by
  unfold Tree.destroyLeader
  cases hleader : t.procs pgid with
  | none => exact hq
  | some leader =>
    simp only
    split_ifs with hfree
    · have hne : q ≠ pgid := by
        rintro rfl
        rw [hq] at hleader
        cases hleader
        exact hliving.status.2.1 hfree.1
      exact (update_of_ne hne _ _).trans hq
    · exact hq

theorem destroyFrame_keeps (hp : ∀ proc', t.procs p = some proc' → p ≠ c → ¬proc'.Living) :
    t.Keeps c (t.destroyFrame p proc).2 := by
  intro q proc1 hqc hq hliving
  refine ⟨proc1, ?_, rfl⟩
  have hqp : q ≠ p := by
    rintro rfl
    exact hp proc1 hq hqc hliving
  unfold Tree.destroyFrame
  simp only
  have hq1 : ((t.unlink p).set p { proc with tag := none }).procs q = some proc1 :=
    (update_of_ne hqp _ _).trans hq
  split
  · exact (update_of_ne hqp _ _).trans hq1
  · split
    · exact (update_of_ne hqp _ _).trans (destroyLeader_procs hq1 hliving)
    · exact (update_of_ne hqp _ _).trans hq1

theorem releaseBody_keeps (hq : t.procs q = some proc) : t.Keeps c (t.releaseBody q proc).2 := by
  unfold Tree.releaseBody
  cases hfind : (t.children q).find? t.isDead with
  | none => exact .refl c t
  | some d =>
    have hset : t.Keeps c (t.set q { proc with tag := none }) := .set_status hq rfl
    simp only
    cases hd : (t.set q { proc with tag := none }).procs d with
    | none => exact hset
    | some child =>
      refine hset.trans (destroyFrame_keeps ?_)
      intro proc' hproc' _ hliving
      rw [hd] at hproc'
      cases hproc'
      have hdead := find?_some hfind
      have hold : ∃ proc1, t.procs d = some proc1 ∧ proc1.status = child.status := by
        by_cases hdq : d = q
        · subst hdq
          have heq := (update_self _ _ _).symm.trans hd
          cases heq
          exact ⟨proc, hq, rfl⟩
        · exact ⟨child, (update_of_ne hdq _ _).symm.trans hd, rfl⟩
      obtain ⟨proc1, hproc1, hstatus⟩ := hold
      exact hliving.status.1 (hstatus.symm.trans ((Tree.isDead_of_procs hproc1).mp hdead))

theorem notify_keeps (hq : t.procs q = some proc) : t.Keeps c (t.notify q proc).2 := by
  unfold Tree.notify
  split
  · exact releaseBody_keeps hq
  · exact .refl c t

theorem adoptAll_keeps (hp : p ≠ initPid) : t.Keeps c (t.adoptAll p) := by
  obtain ⟨hprocs, -⟩ := adoptAll_spec t hp
  intro q proc' _ hq _
  rw [hprocs, hq]
  split
  · exact ⟨_, rfl, rfl⟩
  · exact ⟨proc', rfl, rfl⟩

theorem leaveChildren_keeps (hp : p ≠ initPid) {init : Proc} (hinit : t.procs initPid = some init) :
    t.Keeps c (t.leaveChildren p).2 := by
  unfold Tree.leaveChildren
  simp only [if_neg hp, hinit]
  have hadopt : t.Keeps c (t.adoptAll p) := adoptAll_keeps hp
  cases hinit' : (t.adoptAll p).procs initPid with
  | none => exact hadopt
  | some init' =>
    simp only
    split
    · exact hadopt.trans (notify_keeps hinit')
    · exact hadopt

theorem leaveParent_keeps (t : Tree) (c : ℕ) : t.Keeps c (t.leaveParent c).2 := by
  unfold Tree.leaveParent
  cases hc : t.procs c with
  | none => exact .refl c t
  | some proc =>
    simp only
    cases hparent : (if proc.ppid = 0 then none else t.procs proc.ppid) with
    | none => exact destroyFrame_keeps fun _ _ hne => absurd rfl hne
    | some parent =>
      refine notify_keeps ?_
      split at hparent
      · cases hparent
      · exact hparent

theorem processDestroy_keeps (hc : c ≠ initPid) {init : Proc} (hinit : t.procs initPid = some init)
    (proc : Proc) (status : ℤ) : t.Keeps c (t.processDestroy c proc status).2 := by
  unfold Tree.processDestroy
  generalize ({ proc with
    exitStatus := status
    ppid := if proc.status = .null then 0 else proc.ppid
    status := .dead } : Proc) = proc'
  have hset : t.Keeps c (t.set c proc') := .set_self t c proc'
  have hinit' : (t.set c proc').procs initPid = some init := (update_of_ne (Ne.symm hc) _ _).trans hinit
  exact (hset.trans (leaveChildren_keeps hc hinit')).trans (leaveParent_keeps _ c)

end Keeps

namespace Family

structure Sound (k : Kinship) (f : Family) : Prop where
  kin : f.tree.Settled
  sim : Sim k f.tree
  numbered : f.tree.Numbered
  dying : ∀ e ∈ f.closing, e.1 ≠ initPid ∧
    ∃ proc, f.tree.procs e.1 = some proc ∧ proc.status = .dying
  once : (f.closing.map Prod.fst).Nodup

/-- Process `INIT_PID` lives, a process has at most one waiting thread, no process that is dying is
ended again, and a request is not that of a process that died while it waited. -/
def Orderly (f : Family) : FamilyStep → Prop
  | .rfork _ _ _ _ _ | .closed _ _ => True
  | .wait pid tag => (f.tree.procs pid).bind Proc.tag = none ∧
      ∀ q < idMax, (f.tree.procs q).bind Proc.tag ≠ some tag
  | .exit pid _ | .signal pid _ =>
    pid ≠ initPid ∧ (f.tree.procs pid).map Proc.status ≠ some .dying
  | .kill _ target _ _ => target ≠ initPid

def OrderlyRun (f : Family) : List FamilyStep → Prop
  | [] => True
  | s :: steps => f.Orderly s ∧ OrderlyRun (f.step s).2 steps

instance (f : Family) (s : FamilyStep) : Decidable (f.Orderly s) := by
  cases s <;> unfold Orderly <;> infer_instance

instance decidableOrderlyRun (f : Family) : (steps : List FamilyStep) → Decidable (f.OrderlyRun steps)
  | [] => .isTrue trivial
  | s :: steps =>
    have := decidableOrderlyRun (f.step s).2 steps
    inferInstanceAs (Decidable (f.Orderly s ∧ OrderlyRun (f.step s).2 steps))

section Step

variable {k : Kinship} {f : Family} {pid : ℕ} {proc : Proc}

theorem caller_some (h : f.caller pid = some proc) : f.tree.procs pid = some proc ∧ proc.Living := by
  unfold caller at h
  cases hp : f.tree.procs pid with
  | none => simp [hp] at h
  | some proc' =>
    simp only [hp] at h
    split at h
    · cases h
      exact ⟨rfl, ‹_›⟩
    · cases h

section

variable (h : f.Sound k)
include h

theorem Sound.keep {k' : Kinship} {tree : Tree} (hkin : tree.Settled) (hsim : Sim k' tree)
    (hnumbered : tree.Numbered) (hkeeps : f.tree.Keeps 0 tree) : Sound k' { f with tree := tree } := by
  refine ⟨hkin, hsim, hnumbered, ?_, h.once⟩
  intro e he
  obtain ⟨hinit, proc, hproc, hstatus⟩ := h.dying e he
  have hbound := h.kin.bound e.1 proc hproc
  obtain ⟨proc', hproc', hstatus'⟩ := hkeeps e.1 proc (by omega) hproc (.inr hstatus)
  exact ⟨hinit, proc', hproc', hstatus'.trans hstatus⟩

theorem Sound.close (hp : f.tree.procs pid = some proc)
    (hactive : proc.status = .active) (hinit : pid ≠ initPid) (status : ℤ) :
    (f.close pid proc status).Sound k := by
  have hne {q : ℕ} (hq : q ≠ pid) := Tree.set_ne f.tree hq { proc with status := .dying }
  have hself := Tree.set_self f.tree pid { proc with status := .dying }
  have hother {e : ℕ × ℤ} (he : e ∈ f.closing) : e.1 ≠ pid := by
    rintro rfl
    obtain ⟨-, proc', hproc', hstatus⟩ := h.dying e he
    rw [hp] at hproc'
    cases hproc'
    rw [hactive] at hstatus
    cases hstatus
  refine ⟨?_, ?_, h.numbered.set hp _, ?_, ?_⟩
  · have hset : Kin 0 noOne (fun q => False ∨ q = pid) (f.close pid proc status).tree :=
      h.kin.setLiving hp (.inl hactive) (.inr rfl) rfl rfl
        fun tag htag q proc1 hq htag1 => h.kin.tags q pid proc1 proc tag hq hp htag1 htag
    refine hset.settle ?_
    rintro q proc' hq - htag (hfalse | rfl) - c hc
    · exact hfalse.elim
    · have heq := hself.symm.trans hq
      cases heq
      have hquiet := h.kin.quiet q proc hp (.inl hactive) htag (fun hfalse => hfalse) c hc
      have hcq : c ≠ q := by
        rintro rfl
        exact h.kin.ownParent c ((h.kin.child c c).mp hc)
      exact (Tree.isDead_congr (hne hcq)).trans hquiet
  · refine h.sim.set hp ⟨?_, ?_⟩ ⟨rfl, rfl⟩ ?_ fun _ _ _ => Iff.rfl
    · simp [Proc.guardian, hactive]
    · simp [Proc.pending, hactive]
    · intro tag
      rw [h.sim.waiting, hp]
      simp
  · intro e he
    rcases mem_append.mp he with he | he
    · obtain ⟨hne', proc', hproc', hstatus⟩ := h.dying e he
      exact ⟨hne', proc', (hne (hother he)).trans hproc', hstatus⟩
    · rw [mem_singleton.mp he]
      exact ⟨hinit, _, hself, rfl⟩
  · change ((f.closing ++ [(pid, status)]).map Prod.fst).Nodup
    rw [map_append, nodup_append]
    refine ⟨h.once, by simp, ?_⟩
    intro p hp p' hp'
    obtain ⟨e, he, rfl⟩ := mem_map.mp hp
    simp only [map_cons, map_nil, mem_singleton] at hp'
    rw [hp']
    exact hother he

theorem Sound.exit (hcaller : f.caller pid = some proc)
    (horderly : pid ≠ initPid ∧ (f.tree.procs pid).map Proc.status ≠ some .dying) (status : ℤ) :
    (f.close pid proc status).Sound k := by
  obtain ⟨hp, hliving⟩ := caller_some hcaller
  obtain ⟨hinit, hdying⟩ := horderly
  rw [hp] at hdying
  have hactive : proc.status = .active := by
    refine hliving.resolve_right ?_
    simpa using hdying
  exact h.close hp hactive hinit status

theorem Sound.wait (hp : f.tree.procs pid = some proc) (hliving : proc.Living)
    (hnone : proc.tag = none) {tag : ℕ}
    (hfresh : ∀ q < idMax, (f.tree.procs q).bind Proc.tag ≠ some tag) :
    let r := (f.tree.set pid { proc with tag := some tag }).releaseBody pid { proc with tag := some tag }
    ∃ k', k.accept (.waits pid tag :: r.1) = some k' ∧ Sound k' { f with tree := r.2 } := by
  obtain ⟨tree, htree⟩ : ∃ tree, tree = f.tree.set pid { proc with tag := some tag } := ⟨_, rfl⟩
  have hother (q : ℕ) (proc' : Proc) (hq : f.tree.procs q = some proc') : proc'.tag ≠ some tag := by
    have := hfresh q (h.kin.bound q proc' hq).2
    rwa [hq] at this
  have hkin : Kin 0 noOne (fun q => False ∨ q = pid) tree := by
    rw [htree]
    refine h.kin.setLiving hp hliving hliving rfl rfl ?_
    intro tag' htag q proc1 hq htag1
    cases htag
    exact absurd htag1 (hother q proc1 hq)
  have hwaiting : k.waiting tag = none := by
    cases hw : k.waiting tag with
    | none => rfl
    | some q =>
      obtain ⟨proc', hq, htag⟩ := (h.sim.waiting tag q).mp hw
      exact absurd htag (hother q proc' hq)
  have hsim : Sim { k with waiting := update k.waiting tag (some pid) } tree := by
    rw [htree]
    refine h.sim.set hp ⟨rfl, rfl⟩ ⟨rfl, rfl⟩ ?_ ?_
    · intro tag'
      change update k.waiting tag (some pid) tag' = some pid ↔ some tag = some tag'
      by_cases heq : tag' = tag
      · simp [heq]
      · rw [update_of_ne heq, h.sim.waiting, hp]
        simp [hnone, Ne.symm heq]
    · intro tag' q hq
      change update k.waiting tag (some pid) tag' = some q ↔ _
      by_cases heq : tag' = tag
      · rw [heq, update_self, hwaiting]
        simp [Ne.symm hq]
      · rw [update_of_ne heq]
  have hnumbered : tree.Numbered := by
    rw [htree]
    exact h.numbered.set hp _
  have hself : tree.procs pid = some { proc with tag := some tag } := by
    rw [htree]
    exact Tree.set_self ..
  have hkeeps : f.tree.Keeps 0 tree := by
    rw [htree]
    exact .set_status hp rfl
  intro r
  have hr : r = tree.releaseBody pid { proc with tag := some tag } := by rw [htree]
  rw [hr]
  obtain ⟨k', haccept, hsim', hkin', hnum', -⟩ := releaseBody_spec hkin hsim hself hliving rfl
  refine ⟨k', ?_, h.keep ?_ hsim' (hnum' hnumbered) (hkeeps.trans (releaseBody_keeps hself))⟩
  · rw [Kinship.accept_cons, Kinship.event, if_pos hwaiting]
    exact haccept
  · refine hkin'.weaken ?_
    rintro q ⟨hfalse | heq, hneq⟩
    · exact hfalse
    · exact hneq heq

theorem Sound.closed {status : ℤ} (hmem : (pid, status) ∈ f.closing)
    (hp : f.tree.procs pid = some proc) : let r := f.tree.processDestroy pid proc status
    ∃ k', k.accept r.1 = some k' ∧ Sound k' ⟨r.2, f.closing.erase (pid, status)⟩ := by
  obtain ⟨hinit, proc', hproc', hstatus⟩ := h.dying _ hmem
  have heq : proc' = proc := Option.some.inj (hproc'.symm.trans hp)
  rw [heq] at hstatus
  obtain ⟨init, hproc, -⟩ := h.kin.init
  obtain ⟨k', haccept, hsim, hkin, hnum⟩ := processDestroy_spec h.kin h.sim hp (.inr hstatus) hinit status
  have hkeeps := processDestroy_keeps hinit hproc proc status
  refine ⟨k', haccept, hkin, hsim, hnum h.numbered, ?_, ?_⟩
  · intro e he
    have he' := mem_of_mem_erase he
    obtain ⟨hne, proc1, hproc1, hstatus1⟩ := h.dying e he'
    -- the process was in the list once
    have hpid : e.1 ≠ pid := by
      intro heq'
      have hsame := inj_on_of_nodup_map h.once he' hmem heq'
      rw [hsame] at he
      exact h.once.of_map.not_mem_erase he
    obtain ⟨proc2, hproc2, hstatus2⟩ := hkeeps e.1 proc1 hpid hproc1 (.inr hstatus1)
    exact ⟨hne, proc2, hproc2, hstatus2.trans hstatus1⟩
  · exact h.once.sublist (erase_sublist.map Prod.fst)

theorem step_sound (s : FamilyStep) (horderly : f.Orderly s) :
    ∃ k', k.accept (f.step s).1 = some k' ∧ (f.step s).2.Sound k' := by
  cases s with
  | rfork pid nowait noteg stale ending =>
    simp only [step]
    cases hcaller : f.caller pid with
    | none => exact ⟨k, rfl, h⟩
    | some proc =>
      obtain ⟨hp, hliving⟩ := caller_some hcaller
      obtain ⟨k', haccept, hsim, hkin, hnum, hold⟩ :=
        rfork_spec h.kin h.sim h.numbered hp hliving nowait noteg stale ending
      exact ⟨k', haccept, h.keep hkin hsim hnum fun q proc' _ hq _ => ⟨proc', hold q proc' hq, rfl⟩⟩
  | wait pid tag =>
    simp only [step]
    cases hcaller : f.caller pid with
    | none => exact ⟨k, rfl, h⟩
    | some proc =>
      obtain ⟨hp, hliving⟩ := caller_some hcaller
      by_cases hchildren : f.tree.children pid = []
      · simp only [if_pos hchildren]
        exact ⟨k, rfl, h⟩
      · simp only [if_neg hchildren]
        obtain ⟨hnone, hfresh⟩ := horderly
        rw [hp] at hnone
        exact h.wait hp hliving hnone hfresh
  | exit pid status =>
    simp only [step]
    cases hcaller : f.caller pid with
    | none => exact ⟨k, rfl, h⟩
    | some proc => exact ⟨k, rfl, h.exit hcaller horderly status⟩
  | signal pid no =>
    simp only [step]
    cases hcaller : f.caller pid with
    | none => exact ⟨k, rfl, h⟩
    | some proc => exact ⟨k, rfl, h.exit hcaller horderly (128 + no)⟩
  | kill pid target pnproc status =>
    simp only [step]
    cases hcaller : f.caller pid with
    | none => exact ⟨k, rfl, h⟩
    | some proc =>
      cases hvictim : f.tree.procs target with
      | none => exact ⟨k, rfl, h⟩
      | some victim =>
        simp only
        split
        · exact ⟨k, rfl, h⟩
        split
        · exact ⟨k, rfl, h⟩
        · split
          · exact ⟨k, rfl, h⟩
          · rename_i hactive
            exact ⟨k, rfl, h.close hvictim (not_not.mp hactive) horderly status⟩
  | closed pid status =>
    simp only [step]
    by_cases hmem : (pid, status) ∈ f.closing
    · obtain ⟨-, proc, hp, -⟩ := h.dying _ hmem
      simp only [if_pos hmem, hp]
      exact h.closed hmem hp
    · simp only [if_neg hmem]
      exact ⟨k, rfl, h⟩

theorem run_sound (steps : List FamilyStep) (horderly : f.OrderlyRun steps) :
    ∃ k', k.accept (f.run steps).1 = some k' ∧ (f.run steps).2.Sound k' := by
  induction steps generalizing f k with
  | nil => exact ⟨k, rfl, h⟩
  | cons s steps ih =>
    obtain ⟨k1, haccept1, hsound1⟩ := step_sound h s horderly.1
    obtain ⟨k2, haccept2, hsound2⟩ := ih hsound1 horderly.2
    refine ⟨k2, ?_, hsound2⟩
    change k.accept ((f.step s).1 ++ ((f.step s).2.run steps).1) = _
    rw [Kinship.accept_append, haccept1]
    exact haccept2

end

theorem start_sound : start.Sound Kinship.start := by
  have hprocs {p : ℕ} {proc : Proc} (hp : start.tree.procs p = some proc) :
      p = initPid ∧ proc = ⟨0, initPid, 0, .active, 0, none⟩ := by
    by_cases heq : p = initPid
    · subst heq
      exact ⟨rfl, (Option.some.inj hp).symm⟩
    · simp [start, heq] at hp
  have hinit : start.tree.procs initPid = some ⟨0, initPid, 0, .active, 0, none⟩ := rfl
  have hguardian (p : ℕ) : start.tree.guardian p = none := by
    cases hp : start.tree.procs p with
    | none => exact Tree.guardian_of_none hp
    | some proc =>
      rw [Tree.guardian_of_procs hp, (hprocs hp).2]
      rfl
  have hpending (p : ℕ) : start.tree.pending p = none := by
    cases hp : start.tree.procs p with
    | none => simp [Tree.pending, hp]
    | some proc =>
      rw [Tree.pending, hp, (hprocs hp).2]
      rfl
  refine ⟨?_, ?_, ?_, fun e he => (not_mem_nil he).elim, nodup_nil⟩
  · refine ⟨?_, ?_, fun q => nodup_nil, ?_, ?_, ?_, ?_, fun l => nodup_nil, ?_, ?_,
      ⟨_, hinit, .inl rfl, rfl⟩, ?_, ?_, ?_⟩
    · intro p proc hp
      rw [(hprocs hp).1]
      decide
    · intro p q
      rw [hguardian]
      simp [start]
    · intro p q hp
      rw [hguardian] at hp
      cases hp
    · intro p proc hp hdead
      rw [(hprocs hp).2] at hdead
      cases hdead
    · intro p proc hp
      rw [(hprocs hp).2]
      simp
    · intro m l
      constructor
      · intro hm
        cases hm
      · rintro ⟨proc, hm, hpgid, hne⟩
        obtain ⟨hmi, hproc⟩ := hprocs hm
        rw [hproc] at hpgid
        exact absurd (hpgid.symm.trans hmi.symm) hne
    · intro m proc hm
      rw [(hprocs hm).2]
      exact ⟨_, hinit, rfl⟩
    · intro l proc hl hgroup
      rw [(hprocs hl).2] at hgroup
      cases hgroup
    · intro p
      rw [hguardian]
      simp
    · intro q proc hq _ htag
      rw [(hprocs hq).2] at htag
      cases htag
    · intro p q proc proc' tag hp hq _ _
      rw [(hprocs hp).1, (hprocs hq).1]
  · refine ⟨?_, ?_, ?_⟩
    · funext p
      exact (hguardian p).symm
    · funext p
      exact (hpending p).symm
    · intro tag q
      constructor
      · intro hfalse
        cases hfalse
      · rintro ⟨proc, hq, htag⟩
        rw [(hprocs hq).2] at htag
        cases htag
  · have hget : sequenceGet createIdStore = (some 1, start.tree.sequence) := rfl
    refine (createIdStore_ids.get hget).2.2.congr ?_
    intro n
    by_cases hn : n = initPid
    · rw [hn, hinit]
      simp [initPid]
    · have hnone : start.tree.procs n = none := by simp [start, hn]
      rw [hnone]
      simp only [initPid] at hn
      simp [hn]

end Step

/-- In every orderly run the lists of children say who answers for whom, and every exit status is
told once, to the one who answers. -/
theorem family_run (steps : List FamilyStep) (horderly : start.OrderlyRun steps) :
    let t := (start.run steps).2.tree
    ∃ k, Kinship.start.accept (start.run steps).1 = some k ∧
      (∀ p q, p ∈ t.children q ↔ k.guardian p = some q) ∧ (∀ q, (t.children q).Nodup) ∧
      (∀ p q, k.guardian p = some q → ∃ proc, t.procs q = some proc ∧ proc.Living) ∧
      (∀ p status, k.pending p = some status ↔
        ∃ proc, t.procs p = some proc ∧ proc.status = .dead ∧ proc.exitStatus = status) ∧
      (∀ q proc, t.procs q = some proc → proc.Living → proc.tag.isSome = true →
        ∀ c ∈ t.children q, k.pending c = none) ∧
      (∀ n, Sequence.Free t.sequence n ↔ n < idMax ∧ n ≠ 0 ∧ t.procs n = none) ∧
      (∀ m l, m ∈ t.members l ↔ ∃ proc, t.procs m = some proc ∧ proc.pgid = l ∧ l ≠ m) ∧
      ∀ l, (t.members l ≠ [] → t.procs l ≠ none) ∧
        ∀ proc, t.procs l = some proc → proc.status = .group → t.members l ≠ [] := by
  intro t
  obtain ⟨k, haccept, hsound⟩ := run_sound start_sound steps horderly
  have hkin : t.Settled := hsound.kin
  have hsim : Sim k t := hsound.sim
  have hpending (p : ℕ) (status : ℤ) : k.pending p = some status ↔
      ∃ proc, t.procs p = some proc ∧ proc.status = .dead ∧ proc.exitStatus = status := by
    rw [hsim.pending, Tree.pending]
    cases hp : t.procs p with
    | none => simp
    | some proc =>
      have hwaited : proc.status = .dead → proc.ppid ≠ 0 := by
        intro hdead hzero
        have heq := hkin.waited p proc hp hdead hzero
        have := (hkin.bound p proc hp).1
        omega
      simp only [Option.bind_some, Proc.pending, Option.some.injEq, exists_eq_left']
      by_cases hdead : proc.status = .dead
      · simp [hdead, hwaited hdead]
      · simp [hdead]
  refine ⟨k, haccept, ?_, hkin.childNodup, ?_, hpending, ?_, ?_, hkin.member, ?_⟩
  · rw [hsim.guardian]
    exact hkin.child
  · rw [hsim.guardian]
    exact hkin.parent
  · intro q proc hq hliving htag c hc
    have hquiet := hkin.quiet q proc hq hliving htag (fun hfalse => hfalse) c hc
    cases hpend : k.pending c with
    | none => rfl
    | some status =>
      obtain ⟨proc', hproc', hdead, -⟩ := (hpending c status).mp hpend
      rw [(Tree.isDead_of_procs hproc').mpr hdead] at hquiet
      cases hquiet
  · intro n
    have hids : Ids t.sequence fun n => n = 0 ∨ t.procs n ≠ none := hsound.numbered
    rw [hids.free]
    simp
  · intro l
    refine ⟨?_, ?_⟩
    · intro hmembers hnone
      exact hmembers (hkin.absent hnone).2.1
    · intro proc hl hgroup hnil
      exact (hkin.group l proc hl hgroup).2.2 hnil

def deaths : List FamilyStep :=
  [.rfork 1 false true ⟨0, 0, 0, .null, 0, none⟩ .success,
    .rfork 2 false false ⟨0, 0, 0, .null, 0, none⟩ .success,
    .wait 1 5, .exit 2 7, .closed 2 7, .wait 1 6, .signal 3 9, .closed 3 137]

theorem family_run_deaths : ∃ k, Kinship.start.accept (start.run deaths).1 = some k ∧
    k.pending 3 = none := by
  obtain ⟨k, haccept, -, -, -, hpending, -⟩ := family_run deaths (by decide +kernel)
  refine ⟨k, haccept, ?_⟩
  cases hk : k.pending 3 with
  | none => rfl
  | some status =>
    obtain ⟨proc, hproc, -⟩ := (hpending 3 status).mp hk
    have hnone : (start.run deaths).2.tree.procs 3 = none := by decide +kernel
    rw [hnone] at hproc
    cases hproc

def endedTwice : List FamilyStep :=
  [.rfork 1 false false ⟨0, 0, 0, .null, 0, none⟩ .success,
    .rfork 2 false false ⟨0, 0, 0, .null, 0, none⟩ .success,
    .kill 2 3 true 9, .exit 3 7, .closed 3 7, .closed 3 9, .wait 2 5]

theorem endedTwice_lost : (start.run endedTwice).1 =
      [.forked 2 1 true, .forked 3 2 true, .died 3 7 true, .died 3 9 true, .waits 2 5, .freed 3,
        .reaped 2 5 3 9] ∧
    (Kinship.start.accept (start.run endedTwice).1).isNone = true := by
  decide +kernel

end Family

end Eotan.Mm
