import Eotan.Mm.FileCounts

/-!
The numbers of sessions and files, and the descriptors of the processes (`file.c`), over calls on valid
pointers in which memory may run out.
-/

namespace Eotan.Mm

open Fs (Errno)
open Sequence (Seq sequenceGet sequenceRelease)

/-- The numbers that are held are 0 and those of the keys. -/
structure Keyed {β : ℕ → Type} (number : ℕ → ℕ) (seq : Seq) (l : AList β) : Prop where
  held : Ids seq fun n => n = 0 ∨ ∃ k ∈ l, number k = n
  bound : ∀ k ∈ l, 0 < number k ∧ number k < idMax
  apart : ∀ k ∈ l, ∀ k' ∈ l, number k = number k' → k = k'

section Keyed

variable {β : ℕ → Type} {number : ℕ → ℕ} {seq seq' : Seq} {l : AList β} {n k : ℕ}

theorem Keyed.insert (h : Keyed number seq l) (hget : sequenceGet seq = (some n, seq'))
    (hk : number k = n) (b : β k) : k ∉ l ∧ Keyed number seq' (l.insert k b) := by
  obtain ⟨hbound, hunused, hids⟩ := h.held.get hget
  have hnew : ∀ k' ∈ l, number k' ≠ n := by
    intro k' hk' heq
    exact hunused (.inr ⟨k', hk', heq⟩)
  refine ⟨fun hmem => hnew k hmem hk, hids.congr ?_, ?_, ?_⟩
  · intro m
    simp only [AList.mem_insert, exists_eq_or_imp, hk, @eq_comm _ m n]
    rw [← or_assoc, or_right_comm]
  · simp only [AList.mem_insert, forall_eq_or_imp, hk]
    refine ⟨⟨?_, hbound⟩, h.bound⟩
    exact Nat.pos_of_ne_zero fun hzero => hunused (.inl hzero)
  · simp only [AList.mem_insert, forall_eq_or_imp, hk, implies_true, true_and]
    refine ⟨?_, ?_⟩
    · intro k' hk' heq
      exact absurd heq.symm (hnew k' hk')
    · intro k' hk'
      exact ⟨fun heq => absurd heq (hnew k' hk'), h.apart k' hk'⟩

theorem Keyed.giveBack (h : Keyed number seq l) (hget : sequenceGet seq = (some n, seq')) :
    Keyed number (sequenceRelease seq' n) l := by
  obtain ⟨hbound, hunused, hids⟩ := h.held.get hget
  refine ⟨(hids.release hbound).congr ?_, h.bound, h.apart⟩
  intro m
  constructor
  · intro hm
    refine ⟨.inl hm, ?_⟩
    rintro rfl
    exact hunused hm
  · rintro ⟨hm | hm, hne⟩
    · exact hm
    · exact absurd hm hne

theorem Keyed.erase (h : Keyed number seq l) (hk : k ∈ l) :
    Keyed number (sequenceRelease seq (number k)) (l.erase k) := by
  obtain ⟨hpositive, hbound⟩ := h.bound k hk
  refine ⟨(h.held.release hbound).congr ?_, ?_, ?_⟩
  · intro m
    simp only [AList.mem_erase]
    constructor
    · rintro (rfl | ⟨k', hk', rfl⟩)
      · exact ⟨.inl rfl, by omega⟩
      · exact ⟨.inr ⟨k', hk'.2, rfl⟩, fun heq => hk'.1 (h.apart k' hk'.2 k hk heq)⟩
    · rintro ⟨rfl | ⟨k', hk', rfl⟩, hne⟩
      · exact .inl rfl
      · exact .inr ⟨k', ⟨fun heq => hne (congrArg number heq), hk'⟩, rfl⟩
  · intro k' hk'
    exact h.bound k' (AList.mem_erase.mp hk').2
  · intro k1 hk1 k2 hk2 heq
    exact h.apart k1 (AList.mem_erase.mp hk1).2 k2 (AList.mem_erase.mp hk2).2 heq

end Keyed

structure Described (σ : Type) where
  files : Files σ
  descs : ℕ → AList fun _ : ℤ => Option ℕ

inductive FileCall where
  | sessionCreate (server : ℕ)
  | sessionDestroy (sid : ℕ)
  | sessionCreateFile (sid : ℕ)
  | sessionDestroyFile (fid : ℕ)
  | processCreateDesc (pid : ℕ)
  | processDestroyDesc (pid : ℕ) (fd : ℤ)
  /-- What the callers do with a descriptor. -/
  | setFile (pid : ℕ) (fd : ℤ) (file : Option ℕ)

section Files

variable {σ : Type}

namespace Described

def start (servers : σ) (faults : List Bool) : Described σ := ⟨Files.start servers faults, fun _ => ∅⟩

def setDescs (s : Described σ) (pid : ℕ) (descs : AList fun _ : ℤ => Option ℕ) : Described σ :=
  { s with descs := Function.update s.descs pid descs }

def processFindNewFd (s : Described σ) (pid : ℕ) : Option ℕ :=
  (List.range filesPerProcess).find? fun fd => ((s.descs pid).lookup (fd : ℤ)).isNone

/-- Without an entry the null pointer is written through. -/
def processAllocateDesc (s : Described σ) : Option (Described σ) :=
  match s.files.slabAlloc with
  | (false, _) => none
  | (true, files) => some { s with files := files }

def processCreateDesc (s : Described σ) (pid : ℕ) : Option (Option ℕ × Described σ) :=
  match s.processFindNewFd pid with
  | none => some (none, s)
  | some fd => s.processAllocateDesc.map fun s =>
    if ((s.descs pid).lookup (fd : ℤ)).isSome then (none, s)
    else (some fd, s.setDescs pid ((s.descs pid).insert fd none))

def processDestroyDesc (s : Described σ) (pid : ℕ) (fd : ℤ) : Option Errno × Described σ :=
  match (s.descs pid).lookup fd with
  | none => (some .ebadf, s)
  | some file =>
    let s := s.setDescs pid ((s.descs pid).erase fd)
    match file with
    | none => (none, s)
    | some fid => (none, { s with files := s.files.sessionDestroyFile fid })

def call (s : Described σ) : FileCall → Option (Described σ)
  | .sessionCreate server => some { s with files := (s.files.sessionCreate server).2 }
  | .sessionDestroy sid => some { s with files := s.files.sessionDestroy sid }
  | .sessionCreateFile sid => some { s with files := (s.files.sessionCreateFile sid).2 }
  | .sessionDestroyFile fid => some { s with files := s.files.sessionDestroyFile fid }
  | .processCreateDesc pid => (s.processCreateDesc pid).map Prod.snd
  | .processDestroyDesc pid fd => some (s.processDestroyDesc pid fd).2
  | .setFile pid fd file => some (s.setDescs pid ((s.descs pid).replace fd file))

/-- Memory suffices where its lack is not handled, sessions and files are passed while they live, and a
session is destroyed without files. -/
def Supplied (s : Described σ) : FileCall → Prop
  | .sessionCreate _ | .processCreateDesc _ => s.files.faults.head? ≠ some true
  | .sessionDestroy sid => sid ∈ s.files.sessions ∧
      ∀ fid file, s.files.files.lookup fid = some file → file.sid ≠ sid
  | .sessionCreateFile sid => sid ∈ s.files.sessions
  | .sessionDestroyFile fid => fid ∈ s.files.files
  | .processDestroyDesc pid fd =>
      ∀ fid, (s.descs pid).lookup fd = some (some fid) → fid ∈ s.files.files
  | .setFile .. => True

def run (s : Described σ) : List FileCall → Option (Described σ)
  | [] => some s
  | c :: cs => (s.call c).bind fun s => run s cs

def SuppliedRun (s : Described σ) : List FileCall → Prop
  | [] => True
  | c :: cs => s.Supplied c ∧ ∀ s', s.call c = some s' → SuppliedRun s' cs

end Described

namespace Files

structure Numbered (s : Files σ) : Prop where
  sessions : Keyed sequenceFromSid s.sessionSequence s.sessions
  files : Keyed id s.fileSequence s.files
  owned : ∀ fid file, s.files.lookup fid = some file → file.sid ∈ s.sessions

variable {s : Files σ}

theorem Numbered.sessionCreate (h : s.Numbered) (server : ℕ) (hsupplied : s.faults.head? ≠ some true) :
    (s.sessionCreate server).2.Numbered := by
  unfold Files.sessionCreate
  rcases hget : sequenceGet s.sessionSequence with ⟨_ | n, seq⟩
  · have hids := (h.sessions.held.get_none hget).2
    exact ⟨⟨hids, h.sessions.bound, h.sessions.apart⟩, h.files, h.owned⟩
  obtain ⟨ok, faults, hslab, hok⟩ := slabAlloc_eq { s with sessionSequence := seq }
  obtain rfl := hok hsupplied
  have hn := (h.sessions.held.get hget).1
  have hnumber : sequenceFromSid (createSid server n) = n := by
    simp only [idMax] at hn
    simp only [sequenceFromSid, createSid]
    omega
  obtain ⟨hnew, hids⟩ := h.sessions.insert hget hnumber server
  have hnone : ¬(s.sessions.lookup (createSid server n)).isSome := by
    rwa [AList.lookup_isSome]
  simp only [hslab, if_neg hnone]
  refine ⟨hids, h.files, ?_⟩
  intro fid file hfile
  exact (AList.mem_insert _).mpr (.inr (h.owned fid file hfile))

theorem Numbered.sessionDestroy (h : s.Numbered) {sid : ℕ} (hsid : sid ∈ s.sessions)
    (hnone : ∀ fid file, s.files.lookup fid = some file → file.sid ≠ sid) : (s.sessionDestroy sid).Numbered := by
  refine ⟨h.sessions.erase hsid, h.files, ?_⟩
  intro fid file hfile
  exact AList.mem_erase.mpr ⟨hnone fid file hfile, h.owned fid file hfile⟩

theorem Numbered.sessionCreateFile (h : s.Numbered) {sid : ℕ} (hsid : sid ∈ s.sessions) :
    (s.sessionCreateFile sid).2.Numbered := by
  unfold Files.sessionCreateFile
  rcases hget : sequenceGet s.fileSequence with ⟨_ | fid, seq⟩
  · have hids := (h.files.held.get_none hget).2
    exact ⟨h.sessions, ⟨hids, h.files.bound, h.files.apart⟩, h.owned⟩
  obtain ⟨ok, faults, hslab, -⟩ := slabAlloc_eq { s with fileSequence := seq }
  obtain ⟨hnew, hids⟩ := h.files.insert hget rfl ⟨sid, 0⟩
  have hnone : ¬(s.files.lookup fid).isSome := by
    rwa [AList.lookup_isSome]
  cases ok with
  | false =>
    simp only [hslab]
    exact ⟨h.sessions, h.files.giveBack hget, h.owned⟩
  | true =>
    simp only [hslab, if_neg hnone]
    refine ⟨h.sessions, hids, ?_⟩
    intro fid' file hfile
    by_cases heq : fid' = fid
    · subst heq
      rw [AList.lookup_insert] at hfile
      cases hfile
      exact hsid
    · rw [AList.lookup_insert_ne heq] at hfile
      exact h.owned fid' file hfile

theorem Numbered.sessionDestroyFile (h : s.Numbered) (fid : ℕ) : (s.sessionDestroyFile fid).Numbered := by
  unfold Files.sessionDestroyFile
  cases hfile : s.files.lookup fid with
  | none => exact h
  | some file =>
    have hids := h.files.erase (AList.lookup_isSome.mp (by rw [hfile]; rfl))
    have hleft : ∀ fid' file', (s.files.erase fid).lookup fid' = some file' →
        s.files.lookup fid' = some file' := by
      intro fid' file' hfile'
      by_cases heq : fid' = fid
      · subst heq
        rw [AList.lookup_erase] at hfile'
        cases hfile'
      · rwa [AList.lookup_erase_ne heq] at hfile'
    simp only
    split_ifs with hany
    · exact ⟨h.sessions, hids, fun fid' file' hfile' => h.owned fid' file' (hleft fid' file' hfile')⟩
    refine ⟨h.sessions.erase (h.owned fid file hfile), hids, ?_⟩
    intro fid' file' hfile'
    refine AList.mem_erase.mpr ⟨?_, h.owned fid' file' (hleft fid' file' hfile')⟩
    intro heq
    apply hany
    rw [List.any_eq_true]
    exact ⟨⟨fid', file'⟩, AList.mem_lookup_iff.mp hfile', beq_iff_eq.mpr heq⟩

end Files

variable {s : Described σ}

theorem call_numbered (h : s.files.Numbered) {c : FileCall} (hsupplied : s.Supplied c) :
    ∃ s', s.call c = some s' ∧ s'.files.Numbered := by
  cases c with
  | sessionCreate server => exact ⟨_, rfl, h.sessionCreate server hsupplied⟩
  | sessionDestroy sid =>
    obtain ⟨hsid, hnone⟩ := hsupplied
    exact ⟨_, rfl, h.sessionDestroy hsid hnone⟩
  | sessionCreateFile sid => exact ⟨_, rfl, h.sessionCreateFile hsupplied⟩
  | sessionDestroyFile fid => exact ⟨_, rfl, h.sessionDestroyFile fid⟩
  | setFile pid fd file => exact ⟨s.setDescs pid ((s.descs pid).replace fd file), rfl, h⟩
  | processCreateDesc pid =>
    obtain ⟨ok, faults, hslab, hok⟩ := s.files.slabAlloc_eq
    obtain rfl := hok hsupplied
    change ∃ s', (s.processCreateDesc pid).map Prod.snd = some s' ∧ _
    unfold Described.processCreateDesc
    cases s.processFindNewFd pid with
    | none => exact ⟨s, rfl, h⟩
    | some fd =>
      simp only [Described.processAllocateDesc, hslab, Option.map_some]
      refine ⟨_, rfl, ?_⟩
      split_ifs
      · exact { h with }
      · exact { h with }
  | processDestroyDesc pid fd =>
    refine ⟨_, rfl, ?_⟩
    unfold Described.processDestroyDesc
    split
    · exact h
    · dsimp only
      split
      · exact h
      · exact h.sessionDestroyFile _

theorem run_numbered {calls : List FileCall} (h : s.files.Numbered) (hrun : s.SuppliedRun calls) :
    ∃ s', s.run calls = some s' ∧ s'.files.Numbered := by
  induction calls generalizing s with
  | nil => exact ⟨s, rfl, h⟩
  | cons c calls ih =>
    obtain ⟨hsupplied, hrest⟩ := hrun
    obtain ⟨s1, hcall, h1⟩ := call_numbered h hsupplied
    rw [Described.run, hcall]
    exact ih h1 (hrest s1 hcall)

theorem start_numbered (servers : σ) (faults : List Bool) : (Files.start servers faults).Numbered := by
  refine ⟨⟨createIdStore_ids.congr ?_, ?_, ?_⟩, ⟨createIdStore_ids.congr ?_, ?_, ?_⟩, ?_⟩
  all_goals simp [Files.start]

end Files

theorem numbers_held {σ : Type} (servers : σ) (faults : List Bool) (calls : List FileCall)
    (hrun : (Described.start servers faults).SuppliedRun calls) :
    ∃ s, (Described.start servers faults).run calls = some s ∧
      Ids s.files.sessionSequence (fun n => n = 0 ∨ ∃ sid ∈ s.files.sessions, sequenceFromSid sid = n) ∧
      Ids s.files.fileSequence (fun n => n = 0 ∨ n ∈ s.files.files) := by
  obtain ⟨s, heq, h⟩ := run_numbered (start_numbered servers faults) hrun
  exact ⟨s, heq, h.sessions.held, h.files.held.congr (by simp)⟩

def refusedFile : List FileCall := [.sessionCreate 9, .sessionCreateFile (createSid 9 1)]

theorem numbers_held_refused : ∃ s, (Described.start () [false, true]).run refusedFile = some s ∧
    Ids s.files.fileSequence (fun n => n = 0 ∨ n ∈ s.files.files) := by
  obtain ⟨s, hrun, -, hfiles⟩ := numbers_held () [false, true] refusedFile (by
    refine ⟨by simp [Described.Supplied, Described.start, Files.start], ?_⟩
    intro s hs
    cases hs
    refine ⟨?_, fun _ _ => trivial⟩
    change createSid 9 1 ∈ _
    decide)
  exact ⟨s, hrun, hfiles⟩

/-- A number that no session has, and the null pointer. -/
theorem number_lost : ((Files.start () [true]).sessionCreate 9).1 = none ∧
    ((Files.start () [true]).sessionCreate 9).2.sessions.keys = [] ∧
    (sequenceGet ((Files.start () [true]).sessionCreate 9).2.sessionSequence).1 = some 2 ∧
    ((Described.start () [true]).processCreateDesc 1).isNone = true := by
  decide +kernel

end Eotan.Mm
