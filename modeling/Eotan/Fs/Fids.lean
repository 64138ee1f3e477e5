import Eotan.Fs.References
import Eotan.Fs.Server
import Eotan.Lib.Total
import Mathlib.Algebra.Order.Group.Multiset

namespace Eotan.Fs

open Lib.RefCount Lib.Total Vfs Server
open List
open Option

def optRef (v : Option ℕ) : Multiset ℕ := v.elim 0 fun v => {v}

def fidsOf (session : Session) : Multiset ℕ := total (fun file => optRef file.vnode) session.files

def held (sessions : AList fun _ : ℕ => Session) : Multiset ℕ := total fidsOf sessions

structure Sound (root : ℕ) (srv : Server) : Prop where
  own : Own srv.fs ∅ (root ::ₘ held srv.sessions)
  mounted : srv.fs.root = some root
  session : ∀ sid session, srv.sessions.lookup sid = some session → session.root = some root

section Held

variable {srv : Server} {sid : ℕ} {session : Session} {fid : ℤ} {file : File}

def heldBut (srv : Server) (sid : ℕ) (session : Session) (fid : ℤ) : Multiset ℕ :=
  total (fun file => optRef file.vnode) (session.files.erase fid) + held (srv.sessions.erase sid)

theorem held_of_findFile (h : srv.findFile sid fid = .ok (session, file)) :
    held srv.sessions = optRef file.vnode + heldBut srv sid session fid := by
  obtain ⟨hs, hf⟩ := findFile_ok h
  rw [held, total_of_lookup fidsOf hs, fidsOf, total_of_lookup _ hf, add_assoc]
  rfl

theorem held_setFile (srv : Server) (sid : ℕ) (session : Session) (fid : ℤ) (file : File) :
    held (srv.setFile sid session fid file).sessions = optRef file.vnode + heldBut srv sid session fid := by
  change total fidsOf (srv.sessions.insert sid _) = _
  rw [total_insert, fidsOf, total_insert, add_assoc]
  rfl

theorem held_eraseFile (srv : Server) (sid : ℕ) (session : Session) (fid : ℤ) :
    held (srv.setSession sid { session with files := session.files.erase fid }).sessions =
      heldBut srv sid session fid := by
  change total fidsOf (srv.sessions.insert sid _) = _
  rw [total_insert]
  rfl

theorem held_of_lookup_none (hs : srv.sessions.lookup sid = some session)
    (hf : session.files.lookup fid = none) : heldBut srv sid session fid = held srv.sessions := by
  rw [heldBut, erase_of_lookup_none hf, held, held, total_of_lookup fidsOf hs]
  rfl

end Held

variable {fs : Vfs} {root : ℕ} {srv : Server}

theorem Sound.of_setSession (h : Sound root srv) (sid : ℕ)
    (session : Session) (hroot : session.root = some root) (hfs : fs.root = srv.fs.root)
    (hown : Own fs ∅ (root ::ₘ held (srv.setSession sid session).sessions)) :
    Sound root ((srv.setFs fs).setSession sid session) where
  own := hown
  mounted := hfs.trans h.mounted
  session := by
    intro sid' session' hlookup
    by_cases hsid : sid' = sid
    · subst hsid
      change (srv.sessions.insert sid' session).lookup sid' = _ at hlookup
      rw [AList.lookup_insert, some.injEq] at hlookup
      rw [← hlookup, hroot]
    · change (srv.sessions.insert sid session).lookup sid' = _ at hlookup
      rw [AList.lookup_insert_ne hsid] at hlookup
      exact h.session sid' session' hlookup

theorem Sound.setFs (h : Sound root srv)
    (hfs : Fixed srv.fs fs) (hown : Own fs ∅ (root ::ₘ held srv.sessions)) : Sound root (srv.setFs fs) :=
  ⟨hown, hfs.root.trans h.mounted, h.session⟩

structure Served (root : ℕ) (srv : Server) (r : Response) (srv' : Server) : Prop where
  sound : Sound root srv'
  stale : r ≠ .rremove → srv'.fs.stale = srv.fs.stale

section Requests

variable {root : ℕ} {srv : Server} {sid : ℕ} {session : Session} {fid : ℤ} {file : File}

theorem Sound.refuse (h : Sound root srv) (r : Response) : Served root srv r srv := ⟨h, fun _ => rfl⟩

theorem Sound.steady (h : Sound root srv) (hfs : Steady srv.fs fs) (r : Response) :
    Served root srv r (srv.setFs fs) := ⟨h.setFs hfs.fixed (h.own.steady hfs), fun _ => hfs.stale⟩

theorem optRef_some (v : ℕ) (refs : Multiset ℕ) : optRef (some v) + refs = v ::ₘ refs :=
  Multiset.singleton_add v refs

variable {v parent : ℕ}

theorem Sound.mem_held (h : srv.findFile sid fid = .ok (session, file))
    (hv : file.vnode = some v) : v ∈ held srv.sessions := by
  rw [held_of_findFile h, hv, optRef_some]
  exact Multiset.mem_cons_self v _

section

variable (h : Sound root srv)
include h

theorem Sound.session_root (hfind : srv.findFile sid fid = .ok (session, file)) : session.root = some root :=
  h.session sid session (findFile_ok hfind).1

theorem Sound.setFile (hroot : session.root = some root) (hfs : Fixed srv.fs fs) (file : File)
    (hown : Own fs ∅ (root ::ₘ (optRef file.vnode + heldBut srv sid session fid))) :
    Sound root ((srv.setFs fs).setFile sid session fid file) := by
  rw [← held_setFile] at hown
  exact h.of_setSession sid { session with files := session.files.insert fid file } hroot hfs.root hown

theorem sessionDestroyFile_spec (sid : ℕ) (fid : ℤ) : Sound root (sessionDestroyFile srv sid fid).2 ∧
      (sessionDestroyFile srv sid fid).2.fs.stale = srv.fs.stale := by
  unfold sessionDestroyFile
  cases hfind : srv.findFile sid fid with
  | error e => exact ⟨h, rfl⟩
  | ok found =>
    obtain ⟨session, file⟩ := found
    have hroot := h.session_root hfind
    have hown := h.own
    rw [held_of_findFile hfind] at hown
    cases hv : file.vnode with
    | none =>
      rw [hv] at hown
      simp only [hv]
      refine ⟨h.of_setSession sid { session with files := session.files.erase fid } hroot rfl ?_, rfl⟩
      rw [held_eraseFile]
      rwa [optRef, elim_none, zero_add] at hown
    | some v =>
      rw [hv, optRef_some, Multiset.cons_swap] at hown
      obtain ⟨-, hown', hfixed⟩ := vnodesRemove_spec hown
      simp only [hv]
      refine ⟨h.of_setSession sid { session with files := session.files.erase fid } hroot
        hfixed.root ?_, hfixed.stale⟩
      rw [held_eraseFile]
      exact hown'

theorem ifClunk_spec (sid : ℕ) (fid : ℤ) : Served root srv (ifClunk srv sid fid).1 (ifClunk srv sid fid).2 := by
  obtain ⟨hsound, hstale⟩ := sessionDestroyFile_spec h sid fid
  unfold ifClunk
  rcases hd : sessionDestroyFile srv sid fid with ⟨_ | e, srv'⟩
  · rw [hd] at hsound hstale
    exact ⟨hsound, fun _ => hstale⟩
  · rw [hd] at hsound hstale
    exact ⟨hsound, fun _ => hstale⟩

theorem ifAttach_spec (sid : ℕ) (fid afid : ℤ) (uname : ℕ)
    (sessionOk fileOk : Bool) : Served root srv (ifAttach srv sid fid afid uname sessionOk fileOk).1
      (ifAttach srv sid fid afid uname sessionOk fileOk).2 := by
  unfold ifAttach
  split_ifs with hafid hsession hfile
  · exact h.refuse _
  · exact h.refuse _
  · exact h.refuse _
  · have hnone : srv.sessions.lookup sid = none := by
      rw [not_or, not_isSome_iff_eq_none] at hsession
      exact hsession.2
    obtain ⟨hd, n, hn⟩ := h.own.exists_vnode (Multiset.mem_cons_self root _)
    have hfixed := retain_fixed srv.fs root
    simp only [h.mounted]
    refine ⟨h.setFile rfl hfixed _ ?_, fun _ => hfixed.stale⟩
    have hbut : heldBut srv sid ⟨⟨uname, initGid⟩, some root, ∅⟩ fid = held srv.sessions := by
      rw [heldBut, erase_of_lookup_none hnone, erase_of_lookup_none (AList.lookup_empty fid)]
      exact zero_add _
    rw [optRef_some, hbut]
    exact h.own.retain hd hn

end

theorem vnodeOf_some {n : Vnode} (h : srv.vnodeOf file = some (v, n)) :
    file.vnode = some v ∧ srv.fs.vnodes v = some n := by
  unfold vnodeOf at h
  cases hv : file.vnode with
  | none =>
    rw [hv] at h
    cases h
  | some w =>
    rw [hv] at h
    obtain ⟨m, hm, heq⟩ := map_eq_some_iff.mp h
    cases heq
    exact ⟨rfl, hm⟩

theorem sessionGetPath_mem (hroot : session.root = some root) {start : ℕ}
    (hparent : parent ∈ held srv.sessions) {name : Option (List UInt8)} {path : List UInt8}
    (hpath : sessionGetPath session (some parent) name = .ok (path, some start)) :
    start ∈ root ::ₘ held srv.sessions := by
  unfold sessionGetPath at hpath
  cases hget : getPath name with
  | error e =>
    rw [hget] at hpath
    cases hpath
  | ok path' =>
    simp only [hget, Except.ok.injEq, Prod.mk.injEq] at hpath
    obtain ⟨-, hstart⟩ := hpath
    split_ifs at hstart
    · rw [hroot, some.injEq] at hstart
      rw [← hstart]
      exact Multiset.mem_cons_self root _
    · rw [some.injEq] at hstart
      rw [← hstart]
      exact Multiset.mem_cons_of_mem hparent

theorem walkFrom_spec (h : Sound root srv) (hroot : session.root = some root)
    (hparent : parent ∈ held srv.sessions) (nwname : ℕ) (wname : Option (List UInt8)) :
    ∃ r fs, walkFrom srv session parent nwname wname = (r, srv.setFs fs) ∧
      Yields srv.fs r fs (root ::ₘ held srv.sessions) := by
  unfold walkFrom
  split_ifs with hnw
  · obtain ⟨hd, n, hn⟩ := h.own.exists_vnode (Multiset.mem_cons_of_mem hparent)
    exact ⟨_, _, rfl, Yields.of_ok (retain_fixed srv.fs parent) (h.own.retain hd hn)⟩
  rcases hpath : sessionGetPath session (some parent) wname with e | ⟨path, _ | start⟩
  · exact ⟨_, srv.fs, rfl, Yields.of_error (Fixed.refl srv.fs) h.own⟩
  · exact ⟨_, srv.fs, rfl, Yields.of_error (Fixed.refl srv.fs) h.own⟩
  · have hin := sessionGetPath_mem hroot hparent hpath
    exact ⟨_, _, rfl, vfsWalk_spec h.own hin path oRdonly session.permission⟩

section

variable (h : Sound root srv) (hfind : srv.findFile sid fid = .ok (session, file)) (hparent : file.vnode = some parent)
include h hfind hparent

theorem Sound.replace
    (hyields : Yields srv.fs (.ok v) fs (root ::ₘ held srv.sessions)) (flag : ℕ) (r : Response) :
    Served root srv r ((srv.setFs (vnodesRemove fs parent).2).setFile sid session fid ⟨some v, flag⟩) := by
  have hown := hyields.ok v rfl
  rw [held_of_findFile hfind, hparent, optRef_some, Multiset.cons_swap root, Multiset.cons_swap v] at hown
  obtain ⟨-, hown', hfixed⟩ := vnodesRemove_spec hown
  have hfixed' := hyields.toFixed.trans hfixed
  refine ⟨h.setFile (h.session_root hfind) hfixed' _ ?_, fun _ => hfixed'.stale⟩
  rw [optRef_some, Multiset.cons_swap]
  exact hown'

theorem walkSelf_spec (nwname : ℕ) (wname : Option (List UInt8)) :
    Served root srv (walkSelf srv sid session fid parent nwname wname).1
      (walkSelf srv sid session fid parent nwname wname).2 := by
  unfold walkSelf
  split_ifs with hnw
  · exact h.refuse _
  obtain ⟨r, fs, hwalk, hyields⟩ := walkFrom_spec h (h.session_root hfind)
    (Sound.mem_held hfind hparent) nwname wname
  rw [hwalk]
  cases r with
  | error e =>
    exact ⟨h.setFs hyields.toFixed (hyields.error e rfl), fun _ => hyields.stale⟩
  | ok v => exact h.replace hfind hparent hyields oAccmode .rwalk

theorem walkNew_spec (newfid : ℤ) (nwname : ℕ) (wname : Option (List UInt8)) (fileOk : Bool) :
    Served root srv (walkNew srv sid session newfid parent nwname wname fileOk).1
      (walkNew srv sid session newfid parent nwname wname fileOk).2 := by
  have hroot := h.session_root hfind
  unfold walkNew sessionCreateFile
  split_ifs with hbusy hfile
  · exact h.refuse _
  · exact h.refuse _
  rw [Bool.not_eq_true, isSome_eq_false_iff, isNone_iff_eq_none] at hbusy
  have hbut := held_of_lookup_none (findFile_ok hfind).1 hbusy
  -- the new fid has no vnode yet
  have hsound : Sound root (srv.setFile sid session newfid ⟨none, 0⟩) := by
    apply h.setFile hroot (Fixed.refl srv.fs)
    rw [hbut]
    change Own srv.fs ∅ (root ::ₘ (0 + held srv.sessions))
    rw [zero_add]
    exact h.own
  have hheld : held (srv.setFile sid session newfid ⟨none, 0⟩).sessions = held srv.sessions := by
    rw [held_setFile, hbut]
    exact zero_add _
  obtain ⟨r, fs, hwalk, hyields⟩ := walkFrom_spec hsound hroot
    (by rw [hheld]; exact Sound.mem_held hfind hparent) nwname wname
  simp only [hwalk]
  cases r with
  | error e =>
    have hsound' := hsound.setFs hyields.toFixed (hyields.error e rfl)
    obtain ⟨hdone, hstale⟩ := sessionDestroyFile_spec hsound' sid newfid
    exact ⟨hdone, fun _ => hstale.trans hyields.stale⟩
  | ok v =>
    refine ⟨hsound.setFile hroot hyields.toFixed _ ?_, fun _ => hyields.stale⟩
    have hbut' : heldBut (srv.setFile sid session newfid ⟨none, 0⟩) sid session newfid = held srv.sessions := by
      rw [← hbut, heldBut, heldBut]
      change _ + held ((srv.sessions.insert sid _).erase sid) = _
      rw [erase_insert]
    have hown := hyields.ok v rfl
    rw [hheld] at hown
    rw [optRef_some, hbut', Multiset.cons_swap]
    exact hown

end

theorem ifWalk_spec (h : Sound root srv) (sid : ℕ) (fid newfid : ℤ) (nwname : ℕ)
    (wname : Option (List UInt8)) (fileOk : Bool) :
    Served root srv (ifWalk srv sid fid newfid nwname wname fileOk).1
      (ifWalk srv sid fid newfid nwname wname fileOk).2 := by
  unfold ifWalk
  rcases hfind : srv.findFile sid fid with e | ⟨session, file⟩
  · exact h.refuse _
  rcases hvnode : srv.vnodeOf file with _ | ⟨v, n⟩
  · simp only [hvnode]
    split_ifs
    · exact h.refuse _
    · exact h.refuse _
  have hv := (vnodeOf_some hvnode).1
  simp only [hvnode]
  split_ifs with hflag hdir hself
  · exact h.refuse _
  · exact h.refuse _
  · exact walkSelf_spec h hfind hv nwname wname
  · exact walkNew_spec h hfind hv newfid nwname wname fileOk

theorem vfsOpen_steady (s : Vfs) (v flags : ℕ) (permission : Permission) :
    Steady s (vfsOpen s v flags permission).2 := by
  fun_cases vfsOpen
  all_goals grind

theorem ifOpen_spec (h : Sound root srv) (sid : ℕ) (fid : ℤ) (mode : ℕ) :
    Served root srv (ifOpen srv sid fid mode).1 (ifOpen srv sid fid mode).2 := by
  unfold ifOpen
  rcases hfind : srv.findFile sid fid with e | ⟨session, file⟩
  · exact h.refuse _
  rcases hvnode : srv.vnodeOf file with _ | ⟨v, n⟩
  · simp only [hvnode]
    split_ifs
    · exact h.refuse _
    · exact h.refuse _
  simp only [hvnode]
  split_ifs with hflag
  · exact h.refuse _
  have hsteady := vfsOpen_steady srv.fs v mode session.permission
  rcases hopen : vfsOpen srv.fs v mode session.permission with ⟨_ | e, fs⟩
  · rw [hopen] at hsteady
    refine ⟨h.setFile (h.session_root hfind) hsteady.fixed _ ?_, fun _ => hsteady.stale⟩
    rw [← held_of_findFile hfind]
    exact h.own.steady hsteady
  · rw [hopen] at hsteady
    exact h.steady hsteady _

theorem ifCreate_spec (h : Sound root srv) (sid : ℕ) (fid : ℤ) (name : Option (List UInt8))
    (perm mode : ℕ) : Served root srv (ifCreate srv sid fid name perm mode).1
      (ifCreate srv sid fid name perm mode).2 := by
  unfold ifCreate
  rcases hfind : srv.findFile sid fid with e | ⟨session, file⟩
  · exact h.refuse _
  rcases hvnode : srv.vnodeOf file with _ | ⟨parent, n⟩
  · simp only [hvnode]
    split_ifs
    · exact h.refuse _
    · exact h.refuse _
  have hv := (vnodeOf_some hvnode).1
  simp only [hvnode]
  split_ifs with hflag hdir
  · exact h.refuse _
  · exact h.refuse _
  rcases hpath : sessionGetPath session (some parent) name with e | ⟨path, _ | start⟩
  · exact h.refuse _
  · exact h.refuse _
  have hin := sessionGetPath_mem (h.session_root hfind) (Sound.mem_held hfind hv) hpath
  have hyields := vfsCreate_spec h.own hin path mode perm session.permission
  simp only
  rcases hcreate : vfsCreate srv.fs start path mode perm session.permission with ⟨e | v, fs⟩
  · rw [hcreate] at hyields
    exact ⟨h.setFs hyields.toFixed (hyields.error e rfl), fun _ => hyields.stale⟩
  · rw [hcreate] at hyields
    exact h.replace hfind hv hyields _ _

theorem ifRead_spec (h : Sound root srv) (sid : ℕ) (fid offset : ℤ) (count : ℕ)
    (faults : List Bool) : Served root srv (ifRead srv sid fid offset count faults).1
      (ifRead srv sid fid offset count faults).2 := by
  fun_cases ifRead
  all_goals grind [Sound.refuse, Sound.steady]

theorem fillHole_steady (s : Vfs) (v size offset : ℕ) (behind : ℕ → UInt8) :
    Steady s (fillHole s v size offset behind).2 := by
  fun_cases fillHole
  all_goals grind

theorem ifWrite_spec (h : Sound root srv) (sid : ℕ) (fid offset : ℤ) (count : ℕ) (data : Source)
    (behind : ℕ → UInt8) : Served root srv (ifWrite srv sid fid offset count data behind).1
      (ifWrite srv sid fid offset count data behind).2 := by
  fun_cases ifWrite
  all_goals grind [Sound.refuse, Sound.steady, fillHole_steady]

theorem ifStat_spec (h : Sound root srv) (sid : ℕ) (fid : ℤ) (copyOk : Bool) :
    Served root srv (ifStat srv sid fid copyOk).1 (ifStat srv sid fid copyOk).2 := by
  fun_cases ifStat
  all_goals exact h.refuse _

theorem ifWstat_spec (h : Sound root srv) (sid : ℕ) (fid : ℤ) (stat : Option (ℕ × Stat)) :
    Served root srv (ifWstat srv sid fid stat).1 (ifWstat srv sid fid stat).2 := by
  fun_cases ifWstat
  all_goals grind [Sound.refuse, Sound.steady]

theorem vnodesSynchronize_steady (s : Vfs) : Steady s (vnodesSynchronize s) := by
  unfold vnodesSynchronize
  generalize hl : s.list = l
  clear hl
  induction l generalizing s with
  | nil => exact Steady.refl s
  | cons v l ih => exact (tfsSynchronize_steady s v).trans (ih (tfsSynchronize s v).2)

theorem ifSync_spec (h : Sound root srv) : Served root srv (ifSync srv).1 (ifSync srv).2 := by
  have hsteady := vnodesSynchronize_steady srv.fs
  refine h.steady (hsteady.trans (Cached.steady ⟨rfl, ?_⟩)) _
  exact fun hr => (cacheFlush_reused _ _ _).trans hr

theorem ifRemove_spec (h : Sound root srv) (sid : ℕ) (fid : ℤ) :
    Served root srv (ifRemove srv sid fid).1 (ifRemove srv sid fid).2 := by
  unfold ifRemove
  rcases hfind : srv.findFile sid fid with e | ⟨session, file⟩
  · exact h.refuse _
  simp only
  cases hv : file.vnode with
  | none => exact h.refuse _
  | some v =>
    have hown := h.own
    rw [held_of_findFile hfind, hv, optRef_some, Multiset.cons_swap] at hown
    have hremoves := vfsRemove_spec hown session.permission
    simp only
    rcases hremove : vfsRemove srv.fs v session.permission with ⟨_ | e, fs⟩
    · rw [hremove] at hremoves
      obtain ⟨hdone, hgone⟩ := hremoves.ok rfl
      refine ⟨?_, fun hr => absurd rfl hr⟩
      -- `session_destroy_file` drops the reference that `vfs_remove` has dropped
      have hstale : vnodesRemove fs v = (none, { fs with stale := v :: fs.stale }) := by
        unfold vnodesRemove removeLoop
        rw [hgone]
      have hfind' : (srv.setFs fs).findFile sid fid = .ok (session, file) := hfind
      have hdestroy : (sessionDestroyFile (srv.setFs fs) sid fid).2 =
          (srv.setFs { fs with stale := v :: fs.stale }).setSession sid
            { session with files := session.files.erase fid } := by
        unfold sessionDestroyFile
        rw [hfind']
        simp only [hv]
        exact congrArg (fun r => Server.setFs _ r.2) hstale
      rw [hdestroy]
      have hroot : ({ fs with stale := v :: fs.stale } : Vfs).root = srv.fs.root := hremoves.root
      have hsession := h.session_root hfind
      apply h.of_setSession sid { session with files := session.files.erase fid } hsession hroot
      rw [held_eraseFile]
      exact { hdone with }
    · rw [hremove] at hremoves
      have hback : Own fs ∅ (root ::ₘ held srv.sessions) := by
        rw [held_of_findFile hfind, hv, optRef_some, Multiset.cons_swap]
        exact hremoves.error e rfl
      obtain ⟨hsound, hstale⟩ := sessionDestroyFile_spec (h.setFs hremoves.toFixed hback) sid fid
      exact ⟨hsound, fun _ => hstale.trans hremoves.stale⟩

theorem step_served (h : Sound root srv) (m : Message) : Served root srv (srv.step m).1 (srv.step m).2 := by
  have hown := h.own
  have h' : Sound root (srv.setFs { srv.fs with clock := m.clock, stack := m.stack }) :=
    ⟨{ hown with }, h.mounted, h.session⟩
  suffices hserved : Served root (srv.setFs { srv.fs with clock := m.clock, stack := m.stack })
      (srv.step m).1 (srv.step m).2 from { hserved with }
  unfold Server.step
  cases m.request with
  | attach fid afid uname sessionOk fileOk => exact ifAttach_spec h' ..
  | walk fid newfid nwname wname fileOk => exact ifWalk_spec h' ..
  | openFid fid mode => exact ifOpen_spec h' ..
  | create fid name perm mode => exact ifCreate_spec h' ..
  | read fid offset count faults => exact ifRead_spec h' ..
  | write fid offset count data behind => exact ifWrite_spec h' ..
  | clunk fid => exact ifClunk_spec h' ..
  | remove fid => exact ifRemove_spec h' ..
  | stat fid copyOk => exact ifStat_spec h' ..
  | wstat fid stat => exact ifWstat_spec h' ..
  | sync => exact ifSync_spec h'

end Requests

def Server.responses (srv : Server) : List Message → List Response
  | [] => []
  | m :: ms => (srv.step m).1 :: Server.responses (srv.step m).2 ms

theorem run_sound (ms : List Message) : ∀ {srv : Server}, Sound root srv → Sound root (srv.run ms) ∧
      ((∀ r ∈ srv.responses ms, r ≠ .rremove) → (srv.run ms).fs.stale = srv.fs.stale) := by
  induction ms with
  | nil =>
    intro srv h
    exact ⟨h, fun _ => rfl⟩
  | cons m ms ih =>
    intro srv h
    have hserved := step_served h m
    obtain ⟨hsound, hstale⟩ := ih hserved.sound
    refine ⟨hsound, ?_⟩
    intro hr
    obtain ⟨hfirst, hrest⟩ := forall_mem_cons.mp hr
    exact (hstale hrest).trans (hserved.stale hfirst)

theorem own_initial (disk : ℕ → Lib.Bytes.Block) (faults : List Bool) (clock : Clock)
    (stack : ℕ → UInt8) : Own (fsInitialize disk faults clock stack) ∅ 0 where
  counted := by
    refine ⟨?_, ?_, ?_⟩
    · rintro v n ⟨⟩
    · rintro v n ⟨⟩
    · intro v _
      rw [Multiset.count_zero, zero_add]
      apply Finset.card_eq_zero.mpr
      apply Finset.filter_eq_empty_iff.mpr
      rintro w _ ⟨⟩
  spare_nodup := nodup_range
  mem_spare := by
    intro v
    exact mem_range.trans (and_iff_left rfl).symm
  list_nodup := nodup_nil
  mem_list := by
    rintro v ⟨⟩

theorem tfsMount_spec {s : Vfs} {refs : Multiset ℕ} (h : Own s ∅ refs)
    (hnode : (s.vnodes root).map Vnode.node = some ⟨1, none⟩) :
    Own (tfsMount s root).2 ∅ refs ∧ (tfsMount s root).2.list = s.list ∧
      (tfsMount s root).2.stale = s.stale := by
  have hdone {s' : Vfs} (hs' : Steady s s') : Own s' ∅ refs ∧ s'.list = s.list ∧
      s'.stale = s.stale := ⟨h.steady hs', hs'.list, hs'.stale⟩
  unfold tfsMount
  rcases hget : s.get superBlockNo with ⟨_ | p, s1⟩
  · exact hdone (get_cached hget).steady
  have hsteady := (get_cached hget).steady
  simp only
  split_ifs with hsuper
  · exact hdone (hsteady.trans (release_cached rfl).steady)
  have hset : Steady s1 { s1 with tfs := some p } := ⟨fun _ => rfl, rfl, rfl, rfl, rfl, id⟩
  have hsteady2 := hsteady.trans hset
  have hnode2 : (({ s1 with tfs := some p } : Vfs).vnodes root).map Vnode.node =
      some ⟨1, none⟩ := (hsteady2.node root).trans hnode
  have hopen := hsteady2.trans (tfsOpen_steady ({ s1 with tfs := some p } : Vfs).dblkno hnode2)
  rcases htfs : tfsOpen { s1 with tfs := some p } ({ s1 with tfs := some p } : Vfs).dblkno root with ⟨_ | e, s2⟩
  · rw [htfs] at hopen
    exact hdone hopen
  · rw [htfs] at hopen
    exact hdone (hopen.trans (release_cached rfl).steady)

theorem start_sound {disk : ℕ → Lib.Bytes.Block} {faults : List Bool} {clock : Clock}
    {stack : ℕ → UInt8} (h : Server.start disk faults clock stack = some srv) :
    srv.fs.stale = [] ∧ ∃ root, Sound root srv := by
  unfold Server.start vfsMount at h
  rcases hcreate : vnodesCreate (fsInitialize disk faults clock stack) none with ⟨_ | root, s⟩
  · rw [hcreate] at h
    cases h
  obtain ⟨hown, hfixed, -, hnode⟩ :=
    vnodesCreate_spec (own_initial disk faults clock stack) (by rintro p ⟨⟩) hcreate
  have hown1 : Own { s with list := [] } ∅ (root ::ₘ 0) :=
    ⟨hown.counted, hown.spare_nodup, hown.mem_spare, nodup_nil, by rintro v ⟨⟩⟩
  obtain ⟨hown2, hlist, hstale⟩ := tfsMount_spec hown1 hnode
  rcases hmount : tfsMount { s with list := [] } root with ⟨_ | e, s2⟩
  · rw [hmount] at hown2 hlist hstale
    simp only [hcreate, hmount, some.injEq] at h
    subst h
    refine ⟨hstale.trans hfixed.stale, root, ?_, rfl, ?_⟩
    · obtain ⟨-, n, hn⟩ := hown2.exists_vnode (Multiset.mem_cons_self root 0)
      have hnotin : root ∉ s2.list := by
        rw [hlist]
        exact not_mem_nil
      have happend := hown2.append hnotin (by rw [hn]; exact some_ne_none n)
      exact { happend with }
    · intro sid session hlookup
      rw [AList.lookup_empty] at hlookup
      cases hlookup
  · simp only [hcreate, hmount] at h
    cases h

def Server.fids (srv : Server) (v : ℕ) : ℕ :=
  (srv.sessions.entries.map fun s => s.2.files.entries.countP fun f => f.2.vnode = some v).sum

def Vfs.childrenOf (s : Vfs) (v : ℕ) : ℕ :=
  ((Finset.range slabVnodes).filter fun w => (s.vnodes w).bind Vnode.parent = some v).card

def Server.references (srv : Server) (v : ℕ) : ℕ :=
  srv.fids v + srv.fs.childrenOf v + if srv.fs.root = some v then 1 else 0

theorem count_fidsOf (session : Session) (v : ℕ) :
    (fidsOf session).count v = session.files.entries.countP fun f => f.2.vnode = some v := by
  unfold fidsOf total
  induction session.files.entries with
  | nil => rfl
  | cons f l ih =>
    rw [map_cons, sum_cons, Multiset.count_add, ih, countP_cons, add_comm]
    congr 1
    cases hf : f.2.vnode with
    | none => simp [optRef, hf]
    | some w => simp [optRef, hf, Multiset.count_singleton, eq_comm]

theorem count_held (srv : Server) (v : ℕ) : (held srv.sessions).count v = srv.fids v := by
  unfold held total Server.fids
  induction srv.sessions.entries with
  | nil => rfl
  | cons s l ih =>
    rw [map_cons, sum_cons, Multiset.count_add, ih, count_fidsOf, map_cons, sum_cons]

theorem children_graph (s : Vfs) (v : ℕ) : children pool (graph s ∅) v = s.childrenOf v := by
  unfold children childrenOf
  congr 1
  apply Finset.filter_congr
  intro w _
  cases hw : s.vnodes w with
  | none => simp [graph, link, hw]
  | some n => simp [graph, link, hw, Vnode.node]

theorem Sound.references (h : Sound root srv) (v : ℕ) :
    (root ::ₘ held srv.sessions).count v + children pool (graph srv.fs ∅) v = srv.references v := by
  rw [Multiset.count_cons, count_held, children_graph, Server.references, h.mounted]
  simp only [some.injEq, eq_comm]
  omega

theorem vnode_references {disk : ℕ → Lib.Bytes.Block} {faults : List Bool} {clock : Clock}
    {stack : ℕ → UInt8} {srv : Server} (h : Server.start disk faults clock stack = some srv)
    (ms : List Message) :
    (∀ v n, (srv.run ms).fs.vnodes v = some n → n.referCount = (srv.run ms).references v) ∧
    (∀ v, (srv.run ms).fs.vnodes v = none ↔ (srv.run ms).references v = 0) ∧
    ((∀ r ∈ srv.responses ms, r ≠ .rremove) → (srv.run ms).fs.stale = []) := by
  obtain ⟨hempty, root, hstart⟩ := start_sound h
  obtain ⟨hsound, hstale⟩ := run_sound ms hstart
  have hcounted := hsound.own.counted
  have hlive {v : ℕ} {n : Vnode} (hn : (srv.run ms).fs.vnodes v = some n) :
      n.referCount = (srv.run ms).references v ∧ 0 < n.referCount := by
    rw [← hsound.references]
    exact hcounted.live v _ (graph_of_notMem (Finset.notMem_empty v) hn)
  refine ⟨fun v n hn => (hlive hn).1, ?_, fun hr => (hstale hr).trans hempty⟩
  intro v
  constructor
  · intro hnone
    rw [← hsound.references]
    apply hcounted.dead
    rw [graph, hnone]
    simp
  · intro hzero
    cases hn : (srv.run ms).fs.vnodes v with
    | none => rfl
    | some n =>
      have := hlive hn
      omega

def createRun : List Message :=
  [message (.attach 1 0 7 true true), message (.create 1 (some [97]) 0o777 oRdwr)]

theorem vnode_references_sample : ∃ srv, Server.startOn emptyDisk = some srv ∧
    (srv.run createRun).fs.vnodes 0 ≠ none ∧
    (∀ v n, (srv.run createRun).fs.vnodes v = some n →
      n.referCount = (srv.run createRun).references v) ∧ (srv.run createRun).fs.stale = [] := by
  have hstart : (Server.startOn emptyDisk).isSome = true := by decide +kernel
  obtain ⟨srv, h⟩ := isSome_iff_exists.mp hstart
  have hroot : (Server.startOn emptyDisk).map (fun srv => (srv.run createRun).references 0) =
      some 2 := by decide +kernel
  have hanswers : (Server.startOn emptyDisk).map (fun srv =>
      decide (∀ r ∈ srv.responses createRun, r ≠ .rremove)) = some true := by decide +kernel
  rw [h, map_some, some.injEq] at hroot hanswers
  obtain ⟨hlive, hgone, hstale⟩ := vnode_references h createRun
  refine ⟨srv, h, ?_, hlive, hstale (of_decide_eq_true hanswers)⟩
  rw [Ne, hgone, hroot]
  decide

/-- `if_remove` frees the vnode in `vfs_remove`, and `session_destroy_file` then takes it for one
that the fid still refers to. -/
theorem remove_drops_freed_vnode : (Server.startOn emptyDisk).map (fun srv =>
      (srv.run (createRun ++ [message (.remove 1)])).fs.stale) = some [1] := by
  decide +kernel

end Eotan.Fs
