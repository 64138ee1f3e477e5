import Eotan.Lib.Total
import Eotan.Mm.Files
import Mathlib.Algebra.Order.Group.Multiset
import Mathlib.Tactic.Abel

namespace Eotan.Mm.Files

open Fs (Errno)
open Lib.Total (total total_of_lookup total_insert)
open Sequence (sequenceGet)
open List

def held (holders : AList fun _ : ℕ => Holder) : Multiset ℕ :=
  total (fun h => (filesOf h : Multiset ℕ)) holders

/-- The fids that a log leaves at the servers, if each is made before it is clunked, and clunked
before it is made again. -/
def replay : Finset ℕ → List FileEvent → Option (Finset ℕ)
  | live, [] => some live
  | live, .made fid :: log => if fid ∈ live then none else replay (insert fid live) log
  | live, .clunked fid :: log => if fid ∈ live then replay (live.erase fid) log else none
  | live, .ended _ _ :: log => replay live log

theorem replay_append (l l' : List FileEvent) (live : Finset ℕ) :
    replay live (l ++ l') = (replay live l).bind fun live => replay live l' := by
  induction l generalizing live with
  | nil => rfl
  | cons e l ih =>
    cases e with
    | made fid =>
      simp only [cons_append, replay]
      split
      · rfl
      · exact ih _
    | clunked fid =>
      simp only [cons_append, replay]
      split
      · exact ih _
      · rfl
    | ended sid server => exact ih live

structure Counted {σ : Type} (refs : Multiset ℕ) (s : Files σ) : Prop where
  count : ∀ fid, (s.files.lookup fid).map OpenFile.count =
    if fid ∈ refs then some (refs.count fid : ℤ) else none
  live : ∃ live, replay ∅ s.log = some live ∧ ∀ fid, fid ∈ live ↔ fid ∈ refs

variable {e : Option Errno} {ok : Bool} {p : Packet} {r : Except Errno ℕ} {server : ℕ} {fd : ℤ}

section Counted

variable {σ : Type} {call : σ → ℕ → ℕ → Packet → Option Errno × σ} {s s' : Files σ}
  {refs : Multiset ℕ} {fid sid : ℕ}

structure Frame (s s' : Files σ) : Prop where
  files : s'.files = s.files
  log : s'.log = s.log
  holders : s'.holders = s.holders

section

variable (h : Counted refs s)
include h

theorem Counted.congr (hfiles : s'.files = s.files) (hlog : s'.log = s.log) : Counted refs s' := by
  refine ⟨?_, ?_⟩
  · rw [hfiles]
    exact h.count
  · rw [hlog]
    exact h.live

theorem Counted.noteEnded (sid : ℕ) (server : Option ℕ) : Counted refs (s.note (.ended sid server)) := by
  obtain ⟨live, hreplay, hlive⟩ := h.live
  refine ⟨h.count, live, ?_, hlive⟩
  change replay ∅ (s.log ++ [.ended sid server]) = _
  rw [replay_append, hreplay]
  rfl

theorem Counted.frame (hframe : Frame s s') : Counted refs s' := h.congr hframe.files hframe.log

theorem Counted.lookup_isSome : (s.files.lookup fid).isSome ↔ fid ∈ refs := by
  have hcount := h.count fid
  split_ifs at hcount with hmem
  · cases hfile : s.files.lookup fid with
    | none => simp [hfile] at hcount
    | some file => simp [hmem]
  · cases hfile : s.files.lookup fid with
    | none => simp [hmem]
    | some file => simp [hfile] at hcount

theorem Counted.of_lookup {file : OpenFile}
    (hfile : s.files.lookup fid = some file) : fid ∈ refs ∧ file.count = refs.count fid := by
  have hcount := h.count fid
  have hmem : fid ∈ refs := h.lookup_isSome.mp (by rw [hfile]; rfl)
  rw [hfile, if_pos hmem] at hcount
  exact ⟨hmem, Option.some.inj hcount⟩

theorem Counted.exists_file (hmem : fid ∈ refs) :
    ∃ file, s.files.lookup fid = some file ∧ file.count = refs.count fid := by
  obtain ⟨file, hfile⟩ := Option.isSome_iff_exists.mp (h.lookup_isSome.mpr hmem)
  exact ⟨file, hfile, (h.of_lookup hfile).2⟩

end

theorem slabAlloc_eq (s : Files σ) : ∃ ok faults, s.slabAlloc = (ok, { s with faults := faults }) ∧
    (s.faults.head? ≠ some true → ok = true) := by
  unfold slabAlloc
  split
  · exact ⟨true, s.faults, rfl, fun _ => rfl⟩
  · rename_i fault faults hfaults
    refine ⟨!fault, faults, rfl, ?_⟩
    rw [hfaults]
    simp

theorem sessionCreate_cases {r : Option ℕ} (h : s.sessionCreate server = (r, s')) : ∃ seq faults,
    r = none ∧ s' = { s with sessionSequence := seq, faults := faults } ∨
    ∃ sid, r = some sid ∧ s.sessions.lookup sid = none ∧ s' = { s with
      sessionSequence := seq, faults := faults, sessions := s.sessions.insert sid server } := by
  unfold sessionCreate at h
  rcases hget : sequenceGet s.sessionSequence with ⟨_ | n, seq⟩
  · simp only [hget] at h
    cases h
    exact ⟨seq, s.faults, .inl ⟨rfl, rfl⟩⟩
  obtain ⟨ok, faults, hslab, -⟩ := slabAlloc_eq { s with sessionSequence := seq }
  simp only [hget, hslab] at h
  cases ok with
  | false =>
    cases h
    exact ⟨seq, faults, .inl ⟨rfl, rfl⟩⟩
  | true =>
    simp only at h
    split_ifs at h with hsome
    · cases h
      exact ⟨_, faults, .inl ⟨rfl, rfl⟩⟩
    · cases h
      exact ⟨seq, faults, .inr ⟨_, rfl, by simpa using hsome, rfl⟩⟩

theorem sessionCreateFile_cases {r : Option ℕ} (h : s.sessionCreateFile sid = (r, s')) : ∃ seq faults,
    r = none ∧ s' = { s with fileSequence := seq, faults := faults } ∨
    ∃ fid, r = some fid ∧ s.files.lookup fid = none ∧ s' = { s with
      fileSequence := seq, faults := faults, files := s.files.insert fid ⟨sid, 0⟩ } := by
  unfold sessionCreateFile at h
  rcases hget : sequenceGet s.fileSequence with ⟨_ | n, seq⟩
  · simp only [hget] at h
    cases h
    exact ⟨seq, s.faults, .inl ⟨rfl, rfl⟩⟩
  obtain ⟨ok, faults, hslab, -⟩ := slabAlloc_eq { s with fileSequence := seq }
  simp only [hget, hslab] at h
  cases ok with
  | false =>
    cases h
    exact ⟨_, faults, .inl ⟨rfl, rfl⟩⟩
  | true =>
    simp only at h
    split_ifs at h with hsome
    · cases h
      exact ⟨_, faults, .inl ⟨rfl, rfl⟩⟩
    · cases h
      exact ⟨seq, faults, .inr ⟨n, rfl, by simpa using hsome, rfl⟩⟩

theorem slabAlloc_frame (h : s.slabAlloc = (ok, s')) : Frame s s' := by
  obtain ⟨ok', faults, hslab, -⟩ := slabAlloc_eq s
  rw [hslab] at h
  cases h
  exact ⟨rfl, rfl, rfl⟩

theorem callDevice_eq (h : s.callDevice call sid p = (e, s')) :
    ∃ servers, s' = { s with servers := servers } := by
  unfold callDevice at h
  split at h
  · cases h
    exact ⟨s.servers, rfl⟩
  · cases h
    exact ⟨_, rfl⟩

theorem callDevice_frame (h : s.callDevice call sid p = (e, s')) : Frame s s' := by
  obtain ⟨servers, rfl⟩ := callDevice_eq h
  exact ⟨rfl, rfl, rfl⟩

theorem fileCall_frame (h : s.fileCall call fid p = (e, s')) : Frame s s' := by
  unfold fileCall at h
  split at h
  · cases h
    exact ⟨rfl, rfl, rfl⟩
  · exact callDevice_frame h

theorem sessionCreate_frame {r : Option ℕ} (h : s.sessionCreate server = (r, s')) : Frame s s' := by
  obtain ⟨seq, faults, ⟨-, rfl⟩ | ⟨sid, -, -, rfl⟩⟩ := sessionCreate_cases h
  · exact ⟨rfl, rfl, rfl⟩
  · exact ⟨rfl, rfl, rfl⟩

theorem sessionCreateFile_spec {r : Option ℕ} (h : s.sessionCreateFile sid = (r, s')) :
    s'.log = s.log ∧ s'.holders = s.holders ∧ match r with
      | none => s'.files = s.files
      | some fid => s.files.lookup fid = none ∧ s'.files = s.files.insert fid ⟨sid, 0⟩ := by
  obtain ⟨seq, faults, ⟨rfl, rfl⟩ | ⟨fid, rfl, hnone, rfl⟩⟩ := sessionCreateFile_cases h
  · exact ⟨rfl, rfl, rfl⟩
  · exact ⟨rfl, rfl, hnone, rfl⟩

theorem sessionDestroyFile_spec (s : Files σ) (fid : ℕ) : (∀ fid', (s.sessionDestroyFile fid).files.lookup fid' =
      if fid' = fid then none else s.files.lookup fid') ∧
    (s.sessionDestroyFile fid).log = s.log ∧ (s.sessionDestroyFile fid).holders = s.holders := by
  unfold sessionDestroyFile
  cases hfile : s.files.lookup fid with
  | none =>
    refine ⟨?_, rfl, rfl⟩
    intro fid'
    by_cases heq : fid' = fid
    · rw [if_pos heq, heq, hfile]
    · rw [if_neg heq]
  | some file =>
    have hlookup (fid' : ℕ) : (s.files.erase fid).lookup fid' =
        if fid' = fid then none else s.files.lookup fid' := by
      split_ifs with heq
      · rw [heq, AList.lookup_erase]
      · rw [AList.lookup_erase_ne heq]
    simp only
    split
    · exact ⟨hlookup, rfl, rfl⟩
    · exact ⟨hlookup, rfl, rfl⟩

def taken (refs : Multiset ℕ) : Except Errno ℕ → Multiset ℕ
  | .ok fid => fid ::ₘ refs
  | .error _ => refs

structure Makes (refs : Multiset ℕ) (s : Files σ) (r : Except Errno ℕ) (s' : Files σ) : Prop where
  counted : Counted (taken refs r) s'
  holders : s'.holders = s.holders
  fresh : ∀ fid, r = .ok fid → fid ∉ refs

theorem Counted.fresh (h : Counted refs s) (hnone : s.files.lookup fid = none) : fid ∉ refs := by
  intro hmem
  have hsome := h.lookup_isSome.mpr hmem
  rw [hnone] at hsome
  cases hsome

theorem Makes.of_error (h : Counted refs s') (hholders : s'.holders = s.holders) (e : Errno) :
    Makes refs s (.error e) s' := ⟨h, hholders, fun _ hok => by cases hok⟩

section

variable (h : Counted refs s) (hnone : s.files.lookup fid = none) (hfiles : s'.files = s.files.insert fid ⟨sid, 0⟩) (hlog : s'.log = s.log)
include h hnone hfiles hlog

theorem Counted.made : Counted (fid ::ₘ refs) (s'.made sid fid) := by
  have hfresh := h.fresh hnone
  refine ⟨?_, ?_⟩
  · intro fid'
    change ((s'.files.insert fid _).lookup fid').map _ = _
    by_cases heq : fid' = fid
    · subst heq
      rw [AList.lookup_insert]
      simp [Multiset.count_eq_zero.mpr hfresh]
    · rw [AList.lookup_insert_ne heq, hfiles, AList.lookup_insert_ne heq, h.count]
      simp [heq, Multiset.count_cons_of_ne heq]
  · obtain ⟨live, hreplay, hlive⟩ := h.live
    refine ⟨insert fid live, ?_, ?_⟩
    · change replay ∅ (s'.log ++ [.made fid]) = _
      rw [hlog, replay_append, hreplay]
      have hnot : fid ∉ live := fun hmem => hfresh ((hlive fid).mp hmem)
      simp [replay, hnot]
    · intro fid'
      simp [hlive]

theorem Counted.unmade : Counted refs (s'.sessionDestroyFile fid) := by
  obtain ⟨hlookup, hlog', -⟩ := sessionDestroyFile_spec s' fid
  refine ⟨?_, ?_⟩
  · intro fid'
    rw [hlookup, ← h.count]
    split_ifs with heq
    · rw [heq, hnone]
    · rw [hfiles, AList.lookup_insert_ne heq]
  · rw [hlog', hlog]
    exact h.live

end

theorem Counted.makes {s1 s2 : Files σ} (h : Counted refs s1)
    (hfile : s1.sessionCreateFile sid = (some fid, s2)) (hcall : s2.callDevice call sid p = (e, s')) :
    Makes refs s1 (e.elim (.ok fid) .error) (e.elim (s'.made sid fid) fun _ => s'.sessionDestroyFile fid) := by
  obtain ⟨hlog, hholders, hnone, hfiles⟩ := sessionCreateFile_spec hfile
  have hframe := callDevice_frame hcall
  cases e with
  | none =>
    refine ⟨h.made hnone (hframe.files.trans hfiles) (hframe.log.trans hlog), hframe.holders.trans hholders, ?_⟩
    intro fid' hok
    cases hok
    exact h.fresh hnone
  | some e =>
    refine .of_error (h.unmade hnone (hframe.files.trans hfiles) (hframe.log.trans hlog)) ?_ e
    exact (sessionDestroyFile_spec s' fid).2.2.trans (hframe.holders.trans hholders)

theorem attach_makes (h : Counted refs s) {uid : ℕ}
    (hattach : s.attach call server uid = (r, s')) : Makes refs s r s' := by
  unfold attach at hattach
  rcases hcreate : s.sessionCreate server with ⟨_ | sid, s1⟩
  · simp only [hcreate] at hattach
    cases hattach
    have hframe := sessionCreate_frame hcreate
    exact .of_error (h.frame hframe) hframe.holders _
  have hframe := sessionCreate_frame hcreate
  have h1 := h.frame hframe
  simp only [hcreate] at hattach
  rcases hfile : s1.sessionCreateFile sid with ⟨_ | fid, s2⟩
  · obtain ⟨hlog, hholders, hfiles⟩ := sessionCreateFile_spec hfile
    simp only [hfile] at hattach
    cases hattach
    have hdestroyed : Counted refs (s2.sessionDestroy sid) := h1.congr hfiles hlog
    exact .of_error hdestroyed (hholders.trans hframe.holders) _
  · simp only [hfile] at hattach
    rcases hcall : s2.callDevice call sid (.tattach fid uid) with ⟨e, s3⟩
    have hmakes := h1.makes hfile hcall
    cases e with
    | none =>
      simp only [hcall] at hattach
      cases hattach
      exact ⟨hmakes.counted, hmakes.holders.trans hframe.holders, hmakes.fresh⟩
    | some e =>
      simp only [hcall] at hattach
      cases hattach
      exact .of_error hmakes.counted (hmakes.holders.trans hframe.holders) e

theorem walk_makes (h : Counted refs s) {holder : Holder} {path : List UInt8} {n : ℕ} (hwalk : s.walk call holder path n = (r, s')) : Makes refs s r s' := by
  unfold walk at hwalk
  rcases hresolve : resolve holder path n with ⟨_ | root, nwname, wname⟩
  · simp only [hresolve] at hwalk
    cases hwalk
    exact .of_error h rfl _
  simp only [hresolve] at hwalk
  cases hroot : s.files.lookup root with
  | none =>
    simp only [hroot] at hwalk
    cases hwalk
    exact .of_error h rfl _
  | some file =>
    simp only [hroot] at hwalk
    rcases hfile : s.sessionCreateFile file.sid with ⟨_ | fid, s1⟩
    · obtain ⟨hlog, hholders, hfiles⟩ := sessionCreateFile_spec hfile
      simp only [hfile] at hwalk
      cases hwalk
      exact .of_error (h.congr hfiles hlog) hholders _
    simp only [hfile] at hwalk
    rcases hcall : s1.callDevice call file.sid (.twalk root fid nwname wname) with ⟨e, s2⟩
    have hmakes := h.makes hfile hcall
    cases e with
    | none =>
      simp only [hcall] at hwalk
      cases hwalk
      exact hmakes
    | some e =>
      simp only [hcall] at hwalk
      cases hwalk
      exact hmakes

theorem setCount_lookup (s : Files σ) (fid : ℕ) (file : OpenFile) (n : ℤ) (fid' : ℕ) :
    ((s.setCount fid file n).files.lookup fid').map OpenFile.count =
      if fid' = fid then some n else (s.files.lookup fid').map OpenFile.count := by
  change ((s.files.insert fid _).lookup fid').map _ = _
  split_ifs with heq
  · rw [heq, AList.lookup_insert]
    rfl
  · rw [AList.lookup_insert_ne heq]

theorem Counted.setCount (h : Counted refs s) {refs' : Multiset ℕ} {file : OpenFile}
    (hmem : fid ∈ refs) (hmem' : fid ∈ refs')
    (hother : ∀ fid', fid' ≠ fid → refs'.count fid' = refs.count fid') :
    Counted refs' (s.setCount fid file (refs'.count fid)) := by
  have hsame (fid' : ℕ) : fid' ∈ refs' ↔ fid' ∈ refs := by
    by_cases heq : fid' = fid
    · rw [heq]
      exact iff_of_true hmem' hmem
    · rw [← Multiset.count_pos, hother fid' heq, Multiset.count_pos]
  refine ⟨?_, ?_⟩
  · intro fid'
    rw [setCount_lookup]
    by_cases heq : fid' = fid
    · rw [if_pos heq, heq, if_pos hmem']
    · rw [if_neg heq, h.count]
      simp only [hsame, hother fid' heq]
  · obtain ⟨live, hreplay, hlive⟩ := h.live
    exact ⟨live, hreplay, fun fid' => (hlive fid').trans (hsame fid').symm⟩

theorem clunk_counted (call : σ → ℕ → ℕ → Packet → Option Errno × σ) (h : Counted (fid ::ₘ refs) s) :
    Counted refs (s.clunk call fid).2 ∧ (s.clunk call fid).2.holders = s.holders := by
  have hmem : fid ∈ fid ::ₘ refs := Multiset.mem_cons_self fid refs
  obtain ⟨file, hfile, hcount⟩ := h.exists_file hmem
  rw [Multiset.count_cons_self] at hcount
  have hleft : file.count - 1 = refs.count fid := by
    rw [hcount]
    push_cast
    omega
  have hother (fid' : ℕ) (hne : fid' ≠ fid) : refs.count fid' = (fid ::ₘ refs).count fid' :=
    (Multiset.count_cons_of_ne hne refs).symm
  unfold clunk
  rw [hfile]
  simp only [hleft]
  by_cases hpos : (refs.count fid : ℤ) > 0
  · rw [if_pos hpos]
    have hin : fid ∈ refs := Multiset.count_pos.mp (by omega)
    exact ⟨h.setCount hmem hin hother, rfl⟩
  rw [if_neg hpos]
  have hnot : fid ∉ refs := by
    intro hin
    have := Multiset.count_pos.mpr hin
    omega
  rcases hcall : (s.setCount fid file (refs.count fid)).callDevice call file.sid (.tclunk fid) with ⟨e, s1⟩
  have hframe := callDevice_frame hcall
  obtain ⟨hlookup, hlog, hholders⟩ := sessionDestroyFile_spec (s1.note (.clunked fid)) fid
  have hgone : Counted refs ((s1.note (.clunked fid)).sessionDestroyFile fid) ∧
      ((s1.note (.clunked fid)).sessionDestroyFile fid).holders = s.holders := ?_
  · simp only
    split
    · exact ⟨hgone.1.noteEnded file.sid _, hgone.2⟩
    · exact hgone
  refine ⟨⟨?_, ?_⟩, hholders.trans hframe.holders⟩
  · intro fid'
    rw [hlookup]
    by_cases heq : fid' = fid
    · rw [if_pos heq, heq, if_neg hnot]
      rfl
    · rw [if_neg heq]
      change (s1.files.lookup fid').map _ = _
      rw [hframe.files, setCount_lookup, if_neg heq, h.count]
      simp [heq, Multiset.count_cons_of_ne heq]
  · obtain ⟨live, hreplay, hlive⟩ := h.live
    refine ⟨live.erase fid, ?_, ?_⟩
    · rw [hlog]
      change replay ∅ (s1.log ++ [.clunked fid]) = _
      rw [hframe.log]
      change replay ∅ (s.log ++ [.clunked fid]) = _
      rw [replay_append, hreplay]
      have hin : fid ∈ live := (hlive fid).mpr hmem
      simp [replay, hin]
    · intro fid'
      rw [Finset.mem_erase, hlive, Multiset.mem_cons]
      constructor
      · rintro ⟨hne, heq | hin⟩
        · exact absurd heq hne
        · exact hin
      · intro hin
        refine ⟨?_, .inr hin⟩
        rintro rfl
        exact hnot hin

theorem retain_counted (h : Counted refs s) (hmem : fid ∈ refs) :
    Counted (fid ::ₘ refs) (s.retain fid) ∧ (s.retain fid).holders = s.holders := by
  obtain ⟨file, hfile, hcount⟩ := h.exists_file hmem
  unfold retain
  rw [hfile]
  have hnext : file.count + 1 = ((fid ::ₘ refs).count fid : ℕ) := by
    rw [hcount, Multiset.count_cons_self]
    push_cast
    rfl
  simp only [hnext]
  exact ⟨h.setCount hmem (Multiset.mem_cons_self fid refs)
    fun fid' hne => Multiset.count_cons_of_ne hne refs, rfl⟩

end Counted

section Held

variable {σ : Type} {s : Files σ} {pid fid : ℕ} {h : Holder}

theorem coe_map_eq_sum {α : Type} (f : α → ℕ) (l : List α) :
    ((l.map f : List ℕ) : Multiset ℕ) = (l.map fun a => ({f a} : Multiset ℕ)).sum := by
  induction l with
  | nil => rfl
  | cons a l ih =>
    rw [map_cons, ← Multiset.cons_coe, ih, map_cons, sum_cons, Multiset.singleton_add]

def descFiles (descs : AList fun _ : ℤ => ℕ) : Multiset ℕ :=
  total (fun fid => ({fid} : Multiset ℕ)) descs

theorem coe_filesOf (h : Holder) : (filesOf h : Multiset ℕ) =
    descFiles h.descs + (h.root.toList : Multiset ℕ) + (h.namespaces.map (·.2) : List ℕ) := by
  rw [filesOf, ← Multiset.coe_add, ← Multiset.coe_add, coe_map_eq_sum]
  rfl

theorem descFiles_insert {descs : AList fun _ : ℤ => ℕ} (hfd : descs.lookup fd = none)
    (fid : ℕ) : descFiles (descs.insert fd fid) = fid ::ₘ descFiles descs := by
  rw [descFiles, total_insert, Lib.Total.erase_of_lookup_none hfd, Multiset.singleton_add]
  rfl

theorem descFiles_of_lookup {descs : AList fun _ : ℤ => ℕ} (hfd : descs.lookup fd = some fid) :
    descFiles descs = fid ::ₘ descFiles (descs.erase fd) := by
  rw [descFiles, total_of_lookup _ hfd, Multiset.singleton_add]
  rfl

theorem held_of_lookup (hp : s.holders.lookup pid = some h) :
    held s.holders = filesOf h + held (s.holders.erase pid) := total_of_lookup _ hp

theorem held_setHolder (s : Files σ) (pid : ℕ) (h : Holder) :
    held (s.setHolder pid h).holders = filesOf h + held (s.holders.erase pid) := total_insert _ _ _ _

theorem held_insert_desc (hp : s.holders.lookup pid = some h) (hfd : h.descs.lookup fd = none) (fid : ℕ) :
    held (s.setHolder pid { h with descs := h.descs.insert fd fid }).holders =
      fid ::ₘ held s.holders := by
  rw [held_setHolder, held_of_lookup hp, coe_filesOf, coe_filesOf, descFiles_insert hfd]
  simp only [Multiset.cons_add]

theorem held_erase_desc (hp : s.holders.lookup pid = some h) (hfd : h.descs.lookup fd = some fid) :
    held s.holders = fid ::ₘ held (s.setHolder pid { h with descs := h.descs.erase fd }).holders := by
  rw [held_setHolder, held_of_lookup hp, coe_filesOf, coe_filesOf, descFiles_of_lookup hfd]
  simp only [Multiset.cons_add]

theorem newFd_none {fd : ℕ} (hfd : newFd h = some fd) : h.descs.lookup (fd : ℤ) = none := by
  have hnone := find?_some hfd
  simpa using hnone

end Held

def Packet.Still (fid : ℕ) : Packet → Prop
  | .topen _ _ | .tcreate _ _ _ _ | .tstat _ => True
  | .twalk fid' newfid _ _ => fid' = fid ∧ newfid = fid
  | .tattach _ _ | .tclunk _ => False

structure Stable {σ : Type} (call : σ → ℕ → ℕ → Packet → Option Errno × σ) (Q : Files σ → Prop) :
    Prop where
  holders : ∀ {s} holders, Q s → Q { s with holders := holders }
  slabAlloc : ∀ {s s' ok}, s.slabAlloc = (ok, s') → Q s → Q s'
  attach : ∀ {s s' server uid r}, s.attach call server uid = (r, s') → Q s → Q s'
  walk : ∀ {s s' h path n r}, s.walk call h path n = (r, s') → Q s → Q s'
  fileCall : ∀ {s s' fid p e}, s.fileCall call fid p = (e, s') → Packet.Still fid p → Q s → Q s'
  setCount : ∀ {s fid file} n, s.files.lookup fid = some file → Q s → Q (s.setCount fid file n)
  clunk : ∀ {s} fid, Q s → Q (s.clunk call fid).2

structure Kept {σ : Type} (Q : Files σ → Prop) (refs : Multiset ℕ) (s : Files σ) : Prop
    extends Counted refs s where
  kept : Q s

/-- The references are those of the processes and `extra`, which forks that failed have left. -/
def Fine {σ : Type} (Q : Files σ → Prop) (extra : Multiset ℕ) (s : Files σ) : Prop :=
  Kept Q (extra + held s.holders) s

/-- In the middle of a request that began with `holders`. -/
structure Holding {σ : Type} (Q : Files σ → Prop) (refs : Multiset ℕ)
    (holders : AList fun _ : ℕ => Holder) (s : Files σ) : Prop extends Kept Q refs s where
  same : s.holders = holders

section Kept

variable {σ : Type} {call : σ → ℕ → ℕ → Packet → Option Errno × σ} {Q : Files σ → Prop}
  {s s' : Files σ} {refs : Multiset ℕ} {fid : ℕ} {holders : AList fun _ : ℕ => Holder} {l : List ℕ}
  (hQ : Stable call Q)
include hQ

theorem Kept.setHolders (hc : Kept Q refs s) (holders : AList fun _ : ℕ => Holder) :
    Holding Q refs holders { s with holders := holders } := ⟨⟨hc.congr rfl rfl, hQ.holders holders hc.kept⟩, rfl⟩

theorem Kept.setHolder (hc : Kept Q refs s) (pid : ℕ) (h : Holder) :
    Holding Q refs (s.setHolder pid h).holders (s.setHolder pid h) := hc.setHolders hQ _

theorem Holding.slabAlloc (hc : Holding Q refs holders s) (halloc : s.slabAlloc = (ok, s')) :
    Holding Q refs holders s' := by
  have hframe := slabAlloc_frame halloc
  exact ⟨⟨hc.frame hframe, hQ.slabAlloc halloc hc.kept⟩, hframe.holders.trans hc.same⟩

theorem Holding.fileCall (hc : Holding Q refs holders s)
    (hcall : s.fileCall call fid p = (e, s')) (hp : Packet.Still fid p) : Holding Q refs holders s' := by
  have hframe := fileCall_frame hcall
  exact ⟨⟨hc.frame hframe, hQ.fileCall hcall hp hc.kept⟩, hframe.holders.trans hc.same⟩

theorem Holding.clunk (hc : Holding Q (fid ::ₘ refs) holders s) :
    Holding Q refs holders (s.clunk call fid).2 := by
  obtain ⟨hcounted, hholders⟩ := clunk_counted call hc.toCounted
  exact ⟨⟨hcounted, hQ.clunk fid hc.kept⟩, hholders.trans hc.same⟩

theorem Holding.clunkAll (hc : Holding Q (l + refs) holders s) : Holding Q refs holders (s.clunkAll call l) := by
  induction l generalizing s with
  | nil =>
    rw [Multiset.coe_nil, zero_add] at hc
    exact hc
  | cons fid l ih =>
    rw [← Multiset.cons_coe, Multiset.cons_add] at hc
    exact ih (hc.clunk hQ)

theorem Holding.retain (hc : Holding Q refs holders s) (hmem : fid ∈ refs) :
    Holding Q (fid ::ₘ refs) holders (s.retain fid) := by
  obtain ⟨hcounted, hholders⟩ := retain_counted hc.toCounted hmem
  refine ⟨⟨hcounted, ?_⟩, hholders.trans hc.same⟩
  obtain ⟨file, hfile, -⟩ := hc.exists_file hmem
  unfold Files.retain
  rw [hfile]
  exact hQ.setCount _ hfile hc.kept

omit hQ in
theorem cons_add_swap (fid : ℕ) (l : List ℕ) (refs : Multiset ℕ) :
    ((fid :: l : List ℕ) : Multiset ℕ) + refs = l + fid ::ₘ refs := by
  rw [← Multiset.cons_coe, Multiset.cons_add, Multiset.add_cons]

theorem Holding.retainAll (hc : Holding Q refs holders s) (hl : ∀ fid ∈ l, fid ∈ refs) :
    Holding Q (l + refs) holders (l.foldl Files.retain s) := by
  induction l generalizing s refs with
  | nil =>
    rw [Multiset.coe_nil, zero_add]
    exact hc
  | cons fid l ih =>
    obtain ⟨hfid, hl⟩ := forall_mem_cons.mp hl
    rw [cons_add_swap]
    exact ih (hc.retain hQ hfid) fun fid' hmem => Multiset.mem_cons_of_mem (hl fid' hmem)

theorem Holding.dupNamespaces (hc : Holding Q refs holders s) (hl : ∀ fid ∈ l, fid ∈ refs)
    (hdup : s.dupNamespaces l = (ok, s')) :
    ∃ l' : List ℕ, (ok = true → l' = l) ∧ Holding Q (l' + refs) holders s' := by
  induction l generalizing s refs with
  | nil =>
    cases hdup
    refine ⟨[], fun _ => rfl, ?_⟩
    rwa [Multiset.coe_nil, zero_add]
  | cons fid l ih =>
    unfold Files.dupNamespaces at hdup
    rcases halloc : s.slabAlloc with ⟨_ | _, s1⟩
    · simp only [halloc] at hdup
      cases hdup
      refine ⟨[], by simp, ?_⟩
      rw [Multiset.coe_nil, zero_add]
      exact hc.slabAlloc hQ halloc
    · simp only [halloc] at hdup
      obtain ⟨hfid, hl⟩ := forall_mem_cons.mp hl
      obtain ⟨l', hl', hrest⟩ := ih ((hc.slabAlloc hQ halloc).retain hQ hfid)
        (fun fid' hmem => Multiset.mem_cons_of_mem (hl fid' hmem)) hdup
      refine ⟨fid :: l', fun hok => by rw [hl' hok], ?_⟩
      rw [cons_add_swap]
      exact hrest

omit hQ in
theorem dupNamespaces_of_dupDescs (h : s.dupDescs l = some s') : s.dupNamespaces l = (true, s') := by
  induction l generalizing s with
  | nil =>
    cases h
    rfl
  | cons fid l ih =>
    unfold Files.dupDescs at h
    unfold Files.dupNamespaces
    rcases halloc : s.slabAlloc with ⟨_ | _, s1⟩
    · simp [halloc] at h
    · simp only [halloc] at h
      exact ih h

end Kept

section Requests

variable {σ : Type} {call : σ → ℕ → ℕ → Packet → Option Errno × σ} {Q : Files σ → Prop}
  {s s' : Files σ} {extra : Multiset ℕ} {pid fid : ℕ} {h : Holder}
  {holders : AList fun _ : ℕ => Holder}

theorem Fine.of_holding (hc : Holding Q (extra + held holders) holders s) : Fine Q extra s := by
  rw [Fine, hc.same]
  exact hc.toKept

theorem Fine.holding (hc : Fine Q extra s) : Holding Q (extra + held s.holders) s.holders s := ⟨hc, rfl⟩

def Fetched (Q : Files σ → Prop) (extra : Multiset ℕ) (s s' : Files σ) : Except Errno ℕ → Prop
  | .error _ => Fine Q extra s'
  | .ok fid => Kept Q (fid ::ₘ (extra + held s.holders)) s' ∧ fid ∉ extra + held s.holders

theorem Makes.fetched (hmakes : Makes (extra + held s.holders) s r s')
    (hkept : Q s') : s'.holders = s.holders ∧ Fetched Q extra s s' r := by
  obtain ⟨hcounted, hholders, hfresh⟩ := hmakes
  refine ⟨hholders, ?_⟩
  cases r with
  | error e => exact .of_holding ⟨⟨hcounted, hkept⟩, hholders⟩
  | ok fid => exact ⟨⟨hcounted, hkept⟩, hfresh fid rfl⟩

variable (hQ : Stable call Q)
include hQ

theorem Fine.slabAlloc (hc : Fine Q extra s) (halloc : s.slabAlloc = (ok, s')) :
    Fine Q extra s' ∧ s'.holders = s.holders := by
  have hc' := hc.holding.slabAlloc hQ halloc
  exact ⟨.of_holding hc', hc'.same⟩

theorem Fine.walk (hc : Fine Q extra s) {path : List UInt8} {n : ℕ}
    (hwalk : s.walk call h path n = (r, s')) : s'.holders = s.holders ∧ Fetched Q extra s s' r :=
  (walk_makes (Kept.toCounted hc) hwalk).fetched (hQ.walk hwalk (Kept.kept hc))

theorem Fine.attach (hc : Fine Q extra s) {uid : ℕ} (hattach : s.attach call server uid = (r, s')) :
    s'.holders = s.holders ∧ Fetched Q extra s s' r :=
  (attach_makes (Kept.toCounted hc) hattach).fetched (hQ.attach hattach (Kept.kept hc))

theorem Fine.destroy (hc : Fine Q extra s) (hp : s.holders.lookup pid = some h) :
    Fine Q extra (s.destroy call pid h) := by
  have hsum : extra + held s.holders = filesOf h + (extra + held (s.holders.erase pid)) := by
    rw [held_of_lookup hp]
    abel
  rw [Fine, hsum] at hc
  exact .of_holding ((hc.setHolders hQ (s.holders.erase pid)).clunkAll hQ)

theorem Fine.setDesc (hc : Holding Q (fid ::ₘ (extra + held holders)) holders s)
    (hp : holders.lookup pid = some h) {fd : ℕ} (hfd : newFd h = some fd) :
    Fine Q extra (s.setHolder pid { h with descs := h.descs.insert fd fid }) := by
  obtain rfl := hc.same
  rw [Fine, held_insert_desc hp (newFd_none hfd), Multiset.add_cons]
  exact (hc.setHolder hQ pid _).toKept

theorem openWith_fine (hc : Fine Q extra s) (hp : s.holders.lookup pid = some h)
    {fd : ℕ} (hfd : newFd h = some fd) (path : List UInt8) (oflag : ℕ) :
    Fine Q extra (s.openWith call pid h fd path oflag).2 := by
  unfold openWith
  rcases hwalk : s.walk call h path path.length with ⟨e | fid, s1⟩
  · exact (hc.walk hQ hwalk).2
  obtain ⟨hholders, hc1, -⟩ := hc.walk hQ hwalk
  simp only
  rcases hcall : s1.fileCall call fid (.topen fid oflag) with ⟨e, s2⟩
  have hc2 := Holding.fileCall hQ ⟨hc1, hholders⟩ hcall trivial
  cases e with
  | none => exact Fine.setDesc hQ hc2 hp hfd
  | some e => exact .of_holding (hc2.clunk hQ)

theorem createChild_holding {refs : Multiset ℕ} (hc : Holding Q refs holders s)
    {name : List UInt8} {oflag perm : ℕ}
    (hcreate : s.createChild call fid name oflag perm = (e, s')) : Holding Q refs holders s' := by
  have hchild {s1 s2 : Files σ} {e : Option Errno} (hc : Holding Q refs holders s1)
      (hwalk : s1.walkChild call fid name = (e, s2)) : Holding Q refs holders s2 := by
    unfold walkChild at hwalk
    split at hwalk
    · cases hwalk
      exact hc
    · exact hc.fileCall hQ hwalk ⟨rfl, rfl⟩
  unfold createChild at hcreate
  rcases hwalk : s.walkChild call fid name with ⟨_ | _, s1⟩
  · simp only [hwalk] at hcreate
    exact (hchild hc hwalk).fileCall hQ hcreate trivial
  simp only [hwalk] at hcreate
  rcases hmake : s1.fileCall call fid (.tcreate fid name perm oflag) with ⟨_ | e1, s2⟩
  · simp only [hmake] at hcreate
    cases hcreate
    exact (hchild hc hwalk).fileCall hQ hmake trivial
  simp only [hmake] at hcreate
  have hc2 := (hchild hc hwalk).fileCall hQ hmake trivial
  rcases hagain : s2.walkChild call fid name with ⟨_ | _, s3⟩
  · simp only [hagain] at hcreate
    exact (hchild hc2 hagain).fileCall hQ hcreate trivial
  · simp only [hagain] at hcreate
    cases hcreate
    exact hchild hc2 hagain

theorem createWith_fine (hc : Fine Q extra s) (hp : s.holders.lookup pid = some h)
    {fd : ℕ} (hfd : newFd h = some fd) (path : List UInt8) (oflag perm : ℕ) :
    Fine Q extra (s.createWith call pid h fd path oflag perm).2 := by
  unfold createWith
  rcases hsplit : splitPath path with ⟨dir, name⟩
  simp only
  rcases hwalk : (if dir = [] then s.walk call h path 0 else s.walk call h dir dir.length) with
    ⟨r, s1⟩
  have hwalked : s1.holders = s.holders ∧ Fetched Q extra s s1 r := by
    split at hwalk
    · exact hc.walk hQ hwalk
    · exact hc.walk hQ hwalk
  cases r with
  | error e => exact hwalked.2
  | ok fid =>
    obtain ⟨hholders, hc1, hfresh⟩ := hwalked
    simp only
    rcases hcreate : s1.createChild call fid name oflag perm with ⟨e, s2⟩
    have hc2 := createChild_holding hQ ⟨hc1, hholders⟩ hcreate
    cases e with
    | some e => exact .of_holding (hc2.clunk hQ)
    | none =>
      obtain ⟨file, hfile, -⟩ := hc2.exists_file (Multiset.mem_cons_self fid _)
      have hone : ((fid ::ₘ (extra + held s.holders)).count fid : ℤ) = 1 := by
        rw [Multiset.count_cons_self, Multiset.count_eq_zero.mpr hfresh]
        rfl
      have hset : Counted _ (s2.setCount fid file _) := hc2.setCount (Multiset.mem_cons_self fid _)
        (Multiset.mem_cons_self fid _) fun _ _ => rfl
      rw [hone] at hset
      simp only [hfile]
      exact Fine.setDesc hQ ⟨⟨hset, hQ.setCount 1 hfile hc2.kept⟩, hc2.same⟩ hp hfd

theorem close_fine (hc : Fine Q extra s) (hp : s.holders.lookup pid = some h)
    (fd : ℤ) : Fine Q extra (s.mmClose call pid h fd).2 := by
  unfold mmClose
  cases hfd : h.descs.lookup fd with
  | none => exact hc
  | some fid =>
    simp only
    rw [Fine, held_erase_desc hp hfd, Multiset.add_cons] at hc
    have hdone : Fine Q extra _ :=
      .of_holding ((hc.setHolder hQ pid { h with descs := h.descs.erase fd }).clunk hQ)
    rcases hclunk : (s.setHolder pid { h with descs := h.descs.erase fd }).clunk call fid with
      ⟨_ | e, s1⟩
    · rwa [hclunk] at hdone
    · rwa [hclunk] at hdone

theorem chdir_fine (hc : Fine Q extra s) (path : Except Errno (List UInt8))
    (isDir : Bool) : Fine Q extra (s.mmChdir call h path isDir).2 := by
  unfold mmChdir
  cases path with
  | error e => exact hc
  | ok path =>
    simp only
    rcases hwalk : s.walk call h path path.length with ⟨e | fid, s1⟩
    · exact (hc.walk hQ hwalk).2
    obtain ⟨hholders, hc1, -⟩ := hc.walk hQ hwalk
    simp only
    rcases hcall : s1.fileCall call fid (.tstat fid) with ⟨e, s2⟩
    have hc2 := Holding.fileCall hQ ⟨hc1, hholders⟩ hcall trivial
    have hdone : Fine Q extra _ := .of_holding (hc2.clunk hQ)
    cases e with
    | some e => exact hdone
    | none =>
      simp only
      split
      · exact hdone
      · exact hdone

section

variable (hc : Fine Q extra s) (hp : s.holders.lookup pid = some h)
include hc hp

theorem exec_fine (path : Except Errno (List UInt8)) (ending : ExecEnd) :
    Fine Q extra (s.mmExec call pid h path ending).2 := by
  unfold mmExec
  cases path with
  | error e => exact hc
  | ok path =>
    simp only
    rcases hwalk : s.walk call h path path.length with ⟨e | fid, s1⟩
    · exact (hc.walk hQ hwalk).2
    obtain ⟨hholders, hc1, -⟩ := hc.walk hQ hwalk
    simp only
    rcases hcall : s1.fileCall call fid (.topen fid oExec) with ⟨e, s2⟩
    have hc2 := (Holding.fileCall hQ ⟨hc1, hholders⟩ hcall trivial).clunk hQ
    have hdone : Fine Q extra _ := .of_holding hc2
    rw [← hc2.same] at hp
    cases e with
    | some e => exact hdone
    | none =>
      cases ending with
      | refused e => exact hdone
      | broken => exact hdone.destroy hQ hp
      | stopped => exact hdone.destroy hQ hp
      | success => exact hdone

theorem dup_fine {fd2 : ℤ} {r : Except Errno ℤ} (hdup : s.mmDup call pid h fd fd2 = some (r, s')) :
    Fine Q extra s' := by
  unfold mmDup at hdup
  cases hfd : h.descs.lookup fd with
  | none =>
    simp only [hfd] at hdup
    cases hdup
    exact hc
  | some fid =>
    simp only [hfd] at hdup
    by_cases heq : fd = fd2
    · rw [if_pos heq] at hdup
      cases hdup
      exact hc
    rw [if_neg heq] at hdup
    by_cases hneg : fd2 < 0
    · rw [if_pos hneg] at hdup
      cases hdup
      exact hc
    rw [if_neg hneg] at hdup
    cases hfd2 : h.descs.lookup fd2 with
    | some fid2 =>
      simp only [hfd2] at hdup
      cases hdup
      rw [Fine, held_erase_desc hp hfd2, Multiset.add_cons] at hc
      have hdone := Holding.clunk hQ ⟨hc, rfl⟩
      -- `fd` still refers to the file
      have hmem : fid ∈ extra + held (s.setHolder pid { h with descs := h.descs.erase fd2 }).holders := by
        have hleft : (h.descs.erase fd2).lookup fd = some fid := by
          rw [AList.lookup_erase_ne heq, hfd]
        rw [held_setHolder, coe_filesOf]
        simp only [descFiles_of_lookup hleft, Multiset.cons_add, Multiset.add_cons]
        exact Multiset.mem_cons_self _ _
      have hnext : held ((s.clunk call fid2).2.setHolder pid
          { h with descs := h.descs.insert fd2 fid }).holders =
            fid ::ₘ held (s.setHolder pid { h with descs := h.descs.erase fd2 }).holders := by
        rw [held_setHolder, held_setHolder, hdone.same, coe_filesOf, coe_filesOf]
        simp only [descFiles, total_insert, Multiset.singleton_add, Multiset.cons_add]
      have hretain := (hdone.setHolder hQ pid { h with descs := h.descs.insert fd2 fid }).retain hQ hmem
      rw [Fine, hretain.same, hnext, Multiset.add_cons]
      exact hretain.toKept
    | none =>
      simp only [hfd2] at hdup
      rcases halloc : s.slabAlloc with ⟨_ | _, s1⟩
      · simp [halloc] at hdup
      simp only [halloc] at hdup
      cases hdup
      obtain ⟨hc1, hholders1⟩ := hc.slabAlloc hQ halloc
      rw [← hholders1] at hp
      have hmem : fid ∈ extra + held s1.holders := by
        rw [held_erase_desc hp hfd, Multiset.add_cons]
        exact Multiset.mem_cons_self _ _
      have hretain := (Kept.setHolder hQ hc1 pid { h with descs := h.descs.insert fd2 fid }).retain hQ hmem
      rw [Fine, hretain.same, held_insert_desc hp hfd2, Multiset.add_cons]
      exact hretain.toKept

theorem rfork_fine {child : Except Errno ℕ} {started : Bool} {r : Except Errno ℤ}
    (hfork : s.mmRfork h child started = some (r, s')) :
    ∃ extra', Fine Q extra' s' ∧ (r.isOk = true → extra' = extra) := by
  unfold mmRfork at hfork
  cases child with
  | error e =>
    cases hfork
    exact ⟨extra, hc, fun _ => rfl⟩
  | ok child =>
    simp only at hfork
    by_cases hsome : (s.holders.lookup child).isSome = true
    · rw [if_pos hsome] at hfork
      cases hfork
      exact ⟨extra, hc, fun _ => rfl⟩
    rw [if_neg hsome] at hfork
    have hall : ∀ fid ∈ filesOf h, fid ∈ extra + held s.holders := by
      intro fid hmem
      rw [held_of_lookup hp]
      exact Multiset.mem_add.mpr (.inr (Multiset.mem_add.mpr (.inl hmem)))
    cases hdescs : s.dupDescs (h.descs.entries.map (·.2)) with
    | none => simp [hdescs] at hfork
    | some s1 =>
      simp only [hdescs] at hfork
      obtain ⟨l1, hl1, hc1⟩ := hc.holding.dupNamespaces hQ
        (fun fid hmem => hall fid (mem_append_left _ (mem_append_left _ hmem)))
        (dupNamespaces_of_dupDescs hdescs)
      obtain rfl := hl1 rfl
      have hc2 := hc1.retainAll hQ (l := h.root.toList) (fun fid hmem =>
        Multiset.mem_add.mpr (.inr (hall fid (mem_append_left _ (mem_append_right _ hmem)))))
      rcases hspaces : dupNamespaces (h.root.toList.foldl retain s1) (h.namespaces.map (·.2)) with
        ⟨ok, s3⟩
      obtain ⟨l3, hl3, hc3⟩ := hc2.dupNamespaces hQ (fun fid hmem =>
        Multiset.mem_add.mpr (.inr (Multiset.mem_add.mpr (.inr (hall fid (mem_append_right _ hmem)))))) hspaces
      -- what a fork that fails here leaves counted
      have hleft : Fine Q ((l3 : Multiset ℕ) + (h.root.toList + ((h.descs.entries.map (·.2) : List ℕ) +
          extra))) s3 := by
        rw [Fine, hc3.same]
        simpa only [add_assoc] using hc3.toKept
      cases ok with
      | false =>
        simp only [hspaces] at hfork
        cases hfork
        exact ⟨_, hleft, fun hok => by cases hok⟩
      | true =>
        simp only [hspaces] at hfork
        by_cases hstarted : started = false
        · rw [if_pos hstarted] at hfork
          cases hfork
          exact ⟨_, hleft, fun hok => by cases hok⟩
        rw [if_neg hstarted] at hfork
        cases hfork
        obtain rfl := hl3 rfl
        refine ⟨extra, ?_, fun _ => rfl⟩
        have hnone : s.holders.lookup child = none := by simpa using hsome
        rw [Fine, held_setHolder, hc3.same, Lib.Total.erase_of_lookup_none hnone]
        have hsum : extra + ((filesOf h : Multiset ℕ) + held s.holders) =
            (h.namespaces.map (·.2) : List ℕ) + ((h.root.toList : Multiset ℕ) +
              ((h.descs.entries.map (·.2) : List ℕ) + (extra + held s.holders))) := by
          rw [filesOf, ← Multiset.coe_add, ← Multiset.coe_add]
          abel
        rw [hsum]
        exact (hc3.setHolder hQ child h).toKept

theorem removeNamespace_fine
    (name : List UInt8) :
    let r := s.removeNamespace call pid h name
    Fine Q extra r.2 ∧ r.2.holders.lookup pid = some r.1 := by
  obtain ⟨h', hh'⟩ : ∃ h' : Holder, h' =
      { h with namespaces := h.namespaces.filter fun ns => ns.1 ≠ name } := ⟨_, rfl⟩
  have hsplit : (h.namespaces.map (·.2) : List ℕ) =
      (((h.namespaces.filter fun ns => ns.1 = name).map (·.2) : List ℕ) : Multiset ℕ) +
        (h'.namespaces.map (·.2) : List ℕ) := by
    rw [hh', Multiset.coe_add, ← map_append, Multiset.coe_eq_coe]
    refine List.Perm.map _ ?_
    have hperm := filter_append_perm (fun ns : List UInt8 × ℕ => decide (ns.1 = name)) h.namespaces
    simpa only [ne_eq, decide_not] using hperm.symm
  have hheld : extra + held s.holders = ((h.namespaces.filter fun ns => ns.1 = name).map (·.2) : List ℕ) +
        (extra + held (s.setHolder pid h').holders) := by
    rw [held_of_lookup hp, held_setHolder, coe_filesOf, coe_filesOf, hsplit, hh']
    abel
  rw [Fine, hheld] at hc
  have hdone := (hc.setHolder hQ pid h').clunkAll hQ
  intro r
  have hr : r = (h', clunkAll call (s.setHolder pid h')
      ((h.namespaces.filter fun ns => ns.1 = name).map (·.2))) := by
    rw [hh']
    rfl
  rw [hr]
  refine ⟨.of_holding hdone, ?_⟩
  simp only [hdone.same]
  exact AList.lookup_insert _

theorem bind_fine (target : Except Errno (ℕ × List UInt8)) : Fine Q extra (s.mmBind call pid h target).2 := by
  unfold mmBind
  rcases target with e | ⟨server, path⟩
  · exact hc
  simp only
  split_ifs with hroot
  · rcases hattach : s.attach call server h.uid with ⟨e | fid, s1⟩
    · exact (hc.attach hQ hattach).2
    obtain ⟨hholders, hc1, -⟩ := hc.attach hQ hattach
    rw [← hholders] at hp hc1
    have hheld : fid ::ₘ (extra + held s1.holders) = (h.root.toList : Multiset ℕ) +
        (extra + held (s1.setHolder pid { h with root := some fid }).holders) := by
      rw [held_of_lookup hp, held_setHolder, coe_filesOf, coe_filesOf]
      simp only [Option.toList_some, Multiset.coe_singleton, ← Multiset.singleton_add]
      abel
    rw [hheld] at hc1
    exact .of_holding ((hc1.setHolder hQ pid { h with root := some fid }).clunkAll hQ)
  · rcases halloc : s.slabAlloc with ⟨_ | _, s1⟩
    · exact (hc.slabAlloc hQ halloc).1
    obtain ⟨hc1, hholders1⟩ := hc.slabAlloc hQ halloc
    simp only
    rcases hattach : s1.attach call server h.uid with ⟨e | fid, s2⟩
    · exact (hc1.attach hQ hattach).2
    obtain ⟨hholders2, hc2, -⟩ := hc1.attach hQ hattach
    rw [← hholders1, ← hholders2] at hp
    rw [← hholders2, ← Multiset.cons_add] at hc2
    have hremoved := removeNamespace_fine hQ hc2 hp path
    simp only at hremoved ⊢
    generalize s2.removeNamespace call pid h path = r at hremoved ⊢
    obtain ⟨hc3, hp3⟩ := hremoved
    have hheld : extra + held (r.2.setHolder pid
        { r.1 with namespaces := r.1.namespaces ++ [(path, fid)] }).holders =
          fid ::ₘ extra + held r.2.holders := by
      rw [held_setHolder, held_of_lookup hp3, coe_filesOf, coe_filesOf]
      simp only [map_append, map_cons, map_nil, ← Multiset.coe_add,
        Multiset.coe_singleton, ← Multiset.singleton_add]
      abel
    rw [Fine, hheld]
    exact (Kept.setHolder hQ hc3 pid _).toKept

theorem withDesc_fine {rest : Files σ → ℕ → Except Errno ℤ × Files σ} {r : Except Errno ℤ}
    (hrest : ∀ s1 fd, newFd h = some fd → s1.holders.lookup pid = some h → Fine Q extra s1 →
      Fine Q extra (rest s1 fd).2) (hdesc : s.withDesc h rest = some (r, s')) : Fine Q extra s' := by
  unfold withDesc at hdesc
  cases hfd : newFd h with
  | none =>
    simp only [hfd] at hdesc
    cases hdesc
    exact hc
  | some fd =>
    simp only [hfd] at hdesc
    rcases halloc : s.slabAlloc with ⟨_ | _, s1⟩
    · simp [halloc] at hdesc
    simp only [halloc, Option.some.injEq] at hdesc
    obtain ⟨hc1, hholders⟩ := hc.slabAlloc hQ halloc
    rw [← hholders] at hp
    have hdone := hrest s1 fd hfd hp hc1
    rwa [hdesc] at hdone

end

end Requests

def forkSucceeds {σ : Type} (s : Files σ) (h : Holder) : FileRequest → Bool
  | .rfork (.ok child) started => (s.mmRfork h (.ok child) started).all fun r => r.1.isOk
  | _ => true

section Runs

variable {σ : Type} (call : σ → ℕ → ℕ → Packet → Option Errno × σ)

variable {s' : Files σ}

theorem snd_of_some {r : Except Errno ℤ} {x : Except Errno ℤ × Files σ}
    (h : some x = some (r, s')) : s' = x.2 := by
  rw [Option.some.inj h]

variable {call} {Q : Files σ → Prop}

theorem serve_fine {s : Files σ} {extra : Multiset ℕ} {pid : ℕ} {h : Holder} {request : FileRequest}
    {r : Except Errno ℤ} (hQ : Stable call Q) (hc : Fine Q extra s) (hp : s.holders.lookup pid = some h)
    (hserve : s.serve call pid h request = some (r, s')) :
    ∃ extra', Fine Q extra' s' ∧ (s.forkSucceeds h request = true → extra' = extra) := by
  have hsame (hdone : Fine Q extra s') :
      ∃ extra', Fine Q extra' s' ∧ (s.forkSucceeds h request = true → extra' = extra) :=
    ⟨extra, hdone, fun _ => rfl⟩
  cases request with
  | bind target =>
    apply hsame
    rw [snd_of_some hserve]
    exact bind_fine hQ hc hp target
  | unmount path =>
    apply hsame
    rw [snd_of_some hserve]
    cases path with
    | error e => exact hc
    | ok path => exact (removeNamespace_fine hQ hc hp path).1
  | openPath path oflag =>
    apply hsame
    have hopen : s.mmOpen call pid h path oflag = some (r, s') := hserve
    unfold mmOpen at hopen
    refine withDesc_fine hQ hc hp ?_ hopen
    intro s1 fd hfd hp1 hc1
    cases path with
    | error e => exact hc1
    | ok path => exact openWith_fine hQ hc1 hp1 hfd path oflag
  | create path oflag perm =>
    apply hsame
    cases path with
    | error e =>
      rw [snd_of_some hserve]
      exact hc
    | ok path =>
      have hcreate : s.mmCreate call pid h (.ok path) oflag perm = some (r, s') := hserve
      unfold mmCreate at hcreate
      refine withDesc_fine hQ hc hp ?_ hcreate
      intro s1 fd hfd hp1 hc1
      exact createWith_fine hQ hc1 hp1 hfd path oflag perm
  | close fd =>
    apply hsame
    rw [snd_of_some hserve]
    exact close_fine hQ hc hp fd
  | dup fd fd2 => exact hsame (dup_fine hQ hc hp hserve)
  | chdir path isDir =>
    apply hsame
    rw [snd_of_some hserve]
    exact chdir_fine hQ hc path isDir
  | rfork child started =>
    cases child with
    | error e =>
      apply hsame
      rw [snd_of_some hserve]
      exact hc
    | ok child =>
      have hresult : s.mmRfork h (.ok child) started = some (r, s') := hserve
      obtain ⟨extra', hdone, hok⟩ := rfork_fine hQ hc hp hresult
      refine ⟨extra', hdone, fun hfork => ?_⟩
      rw [forkSucceeds, hresult] at hfork
      exact hok hfork
  | exec path ending =>
    apply hsame
    rw [snd_of_some hserve]
    exact exec_fine hQ hc hp path ending
  | exit =>
    apply hsame
    rw [snd_of_some hserve]
    exact Fine.destroy hQ hc hp

variable (call)

def forksSucceed (s : Files σ) : List (ℕ × FileRequest) → Bool
  | [] => true
  | r :: rs => ((s.holders.lookup r.1).all fun h => s.forkSucceeds h r.2) &&
    ((s.step call r).all fun x => forksSucceed x.2 rs)

variable {call}

theorem run_fine {s : Files σ} {extra : Multiset ℕ} {rs : List (ℕ × FileRequest)}
    (hQ : Stable call Q) (hc : Fine Q extra s) (hrun : s.run call rs = some s') :
    ∃ extra', Fine Q extra' s' ∧ (forksSucceed call s rs = true → extra' = extra) := by
  induction rs generalizing s extra with
  | nil =>
    cases hrun
    exact ⟨extra, hc, fun _ => rfl⟩
  | cons r rs ih =>
    unfold run at hrun
    cases hstep : s.step call r with
    | none => simp [hstep] at hrun
    | some x =>
      obtain ⟨e, s1⟩ := x
      simp only [hstep] at hrun
      have hfirst : ∃ extra1, Fine Q extra1 s1 ∧
          (((s.holders.lookup r.1).all fun h => s.forkSucceeds h r.2) = true → extra1 = extra) := by
        unfold step at hstep
        cases hp : s.holders.lookup r.1 with
        | none =>
          simp only [hp] at hstep
          cases hstep
          exact ⟨extra, hc, fun _ => rfl⟩
        | some h =>
          simp only [hp] at hstep
          exact serve_fine hQ hc hp hstep
      obtain ⟨extra1, hc1, hextra1⟩ := hfirst
      obtain ⟨extra', hdone, hextra'⟩ := ih hc1 hrun
      refine ⟨extra', hdone, fun hforks => ?_⟩
      rw [forksSucceed, Bool.and_eq_true, hstep] at hforks
      exact (hextra' hforks.2).trans (hextra1 hforks.1)

theorem stable_true : Stable call fun _ => True :=
  ⟨fun _ => id, fun _ => id, fun _ => id, fun _ => id, fun _ _ => id, fun _ _ => id, fun _ => id⟩

theorem start_fine {servers : σ} {faults : List Bool} (hq : Q (start servers faults)) :
    Fine Q 0 (start servers faults) := by
  have hheld : 0 + held (start servers faults).holders = 0 := rfl
  rw [Fine, hheld]
  refine ⟨⟨?_, ∅, rfl, ?_⟩, hq⟩
  · intro fid
    rfl
  · intro fid
    simp

variable (call)

def references (s : Files σ) (fid : ℕ) : ℕ := (held s.holders).count fid

/-- The count of a file is the number of references to it, and the fids at the servers are those
with a reference. -/
theorem open_counts {servers : σ} {faults : List Bool} {rs : List (ℕ × FileRequest)} {s : Files σ}
    (hforks : forksSucceed call (start servers faults) rs = true)
    (hrun : (start servers faults).run call rs = some s) :
    (∀ fid, (s.files.lookup fid).map OpenFile.count =
      if 0 < s.references fid then some (s.references fid : ℤ) else none) ∧
    ∃ live, replay ∅ s.log = some live ∧ ∀ fid, fid ∈ live ↔ 0 < s.references fid := by
  obtain ⟨extra, hc, hextra⟩ := run_fine stable_true (start_fine trivial) hrun
  rw [hextra hforks, Fine, zero_add] at hc
  obtain ⟨live, hreplay, hlive⟩ := hc.live
  refine ⟨?_, live, hreplay, ?_⟩
  · intro fid
    rw [hc.count]
    simp only [references, Multiset.count_pos]
  · intro fid
    rw [hlive, references, Multiset.count_pos]

end Runs

def grants : Unit → ℕ → ℕ → Packet → Option Errno × Unit := fun _ _ _ _ => (none, ())

def sharedFile : List (ℕ × FileRequest) :=
  [(1, .bind (.ok (9, [slash]))), (1, .openPath (.ok [slash, 97]) 0), (1, .dup 0 5),
    (1, .rfork (.ok 2) true), (1, .close 0), (2, .exit), (1, .create (.ok [slash, 98]) 1 0)]

theorem open_counts_sharedFile : ∃ s, (start () []).run grants sharedFile = some s ∧
    (s.files.lookup 2).map OpenFile.count = some 1 ∧ s.references 2 = 1 := by
  have hforks : forksSucceed grants (start () []) sharedFile = true := by decide +kernel
  cases hrun : (start () []).run grants sharedFile with
  | none =>
    have hsome : ((start () []).run grants sharedFile).isSome = true := by decide +kernel
    rw [hrun] at hsome
    cases hsome
  | some s =>
    have hcounts := (open_counts grants hforks hrun).1 2
    have hone : ((start () []).run grants sharedFile).map (fun s => s.references 2) = some 1 := by
      decide +kernel
    rw [hrun] at hone
    have hreferences : s.references 2 = 1 := Option.some.inj hone
    rw [hreferences] at hcounts
    exact ⟨s, rfl, hcounts, hreferences⟩

def failedFork : List (ℕ × FileRequest) :=
  [(1, .bind (.ok (9, [slash]))), (1, .rfork (.ok 2) false), (1, .exit)]

/-- The root is counted for a process that has never been, and is not clunked. -/
theorem failedFork_keeps_root : ((start () []).run grants failedFork).map (fun s =>
    ((s.files.lookup 1).map OpenFile.count, s.references 1, s.log)) = some (some 1, 0, [.made 1]) := by
  decide +kernel

end Eotan.Mm.Files
