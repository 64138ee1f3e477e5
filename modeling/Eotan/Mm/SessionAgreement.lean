import Eotan.Fs.SessionShape
import Eotan.Mm.FileCounts

/-!
The process server with the file server it talks to: the sessions and fids of the one are those of
the other, but for sessions whose last file has been clunked.
-/

namespace Eotan.Mm

open Fs (Errno)
open Function
open Option

def portFs : ℕ := 9

structure Circumstance where
  clock : Fs.Clock
  stack : ℕ → UInt8
  sessionOk : Bool
  fileOk : Bool
  readable : Bool
  copyOk : Bool

/-- The file server, how many messages it has got, and the other servers. -/
structure World (τ : Type) where
  fs : Fs.Server
  calls : ℕ
  others : τ

def toRequest (c : Circumstance) : Packet → Fs.Request
  | .tattach fid uname => .attach fid Fs.noFid uname c.sessionOk c.fileOk
  | .twalk fid newfid nwname wname =>
    .walk fid newfid nwname (if c.readable = true then some wname else none) c.fileOk
  | .topen fid mode => .openFid fid mode
  | .tcreate fid name perm mode => .create fid (if c.readable = true then some name else none) perm mode
  | .tclunk fid => .clunk fid
  | .tstat fid => .stat fid c.copyOk

namespace World

variable {τ : Type}

def call (circumstances : ℕ → Circumstance) (others : τ → ℕ → ℕ → Packet → Option Errno × τ)
    (w : World τ) (server sid : ℕ) (p : Packet) : Option Errno × World τ :=
  if server = portFs then
    let c := circumstances w.calls
    match w.fs.step ⟨sid, c.clock, c.stack, toRequest c p⟩ with
    | (r, fs) => (r.error, { w with fs := fs, calls := w.calls + 1 })
  else
    match others w.others server sid p with
    | (e, others) => (e, { w with others := others })

end World

def ShapeChange (sid : ℕ) (p : Packet) (e : Option Errno) (shape shape' : ℕ → Option (Set ℤ)) : Prop :=
  match p with
  | .tattach fid _ => e.isSome = true ∧ shape' = shape ∨
      e = none ∧ shape sid = none ∧ shape' = Function.update shape sid (some {(fid : ℤ)})
  | .twalk fid newfid _ _ =>
    if newfid = fid then shape' = shape
    else e.isSome = true ∧ shape' = shape ∨ e = none ∧ ∃ fids, shape sid = some fids ∧
      shape' = Function.update shape sid (some (insert (newfid : ℤ) fids))
  | .tclunk fid => shape' = Function.update shape sid ((shape sid).map (· \ {(fid : ℤ)}))
  | .topen _ _ | .tcreate _ _ _ _ | .tstat _ => shape' = shape

variable {p : Packet} {srv : Fs.Server}

theorem serve_effect {srv' : Fs.Server} {sid : ℕ} {c : Circumstance}
    {r : Fs.Response} (h : Fs.serve srv sid (toRequest c p) = (r, srv')) :
    ShapeChange sid p r.error srv.shape srv'.shape := by
  cases p with
  | tattach fid uname => exact Fs.ifAttach_shape h
  | twalk fid newfid nwname wname =>
    by_cases heq : newfid = fid
    · subst heq
      rw [ShapeChange, if_pos rfl]
      exact Fs.ifWalk_self_shape h
    · rw [ShapeChange, if_neg heq]
      have hne : (newfid : ℤ) ≠ fid := by exact_mod_cast heq
      exact Fs.ifWalk_shape hne h
  | topen fid mode =>
    have hshape := Fs.ifOpen_shape srv sid fid mode
    rw [show Fs.ifOpen srv sid fid mode = (r, srv') from h] at hshape
    exact hshape
  | tcreate fid name perm mode =>
    have hshape := Fs.ifCreate_shape srv sid fid (if c.readable = true then some name else none) perm mode
    rw [show Fs.ifCreate srv sid fid _ perm mode = (r, srv') from h] at hshape
    exact hshape
  | tclunk fid =>
    have hshape := Fs.ifClunk_shape srv sid fid
    rw [show Fs.ifClunk srv sid fid = (r, srv') from h] at hshape
    exact hshape
  | tstat fid =>
    have hshape := Fs.ifStat_shape srv sid fid c.copyOk
    rw [show Fs.ifStat srv sid fid c.copyOk = (r, srv') from h] at hshape
    exact hshape

theorem step_effect {srv' : Fs.Server} {sid : ℕ} {c : Circumstance}
    {r : Fs.Response} (h : srv.step ⟨sid, c.clock, c.stack, toRequest c p⟩ = (r, srv')) :
    ShapeChange sid p r.error srv.shape srv'.shape := by
  have heffect := serve_effect h
  rw [Fs.setFs_shape] at heffect
  exact heffect

namespace Files

variable {τ : Type}

def sidOf {σ : Type} (s : Files σ) (n : ℕ) : Option ℕ := (s.files.lookup n).map OpenFile.sid

def fidsOf {σ : Type} (s : Files σ) (sid : ℕ) : Set ℤ := {fid | ∃ n : ℕ, fid = n ∧ s.sidOf n = some sid}

structure Agree (s : Files (World τ)) : Prop where
  known : ∀ sid, s.sessions.lookup sid = some portFs →
    s.servers.fs.shape sid = some (s.fidsOf sid)
  stale : ∀ sid fids, s.servers.fs.shape sid = some fids → s.sessions.lookup sid ≠ some portFs →
    fids = ∅ ∧ .ended sid (some portFs) ∈ s.log
  owned : ∀ n sid, s.sidOf n = some sid → (s.sessions.lookup sid).isSome = true

section Agree

variable {circumstances : ℕ → Circumstance} {others : τ → ℕ → ℕ → Packet → Option Errno × τ}
  {s s' : Files (World τ)} {sid fid : ℕ}

variable {σ : Type} {file : OpenFile}

theorem fidsOf_congr {s s' : Files σ} (h : ∀ n, s'.sidOf n = s.sidOf n) (sid : ℕ) :
    s'.fidsOf sid = s.fidsOf sid := by
  unfold fidsOf
  simp only [h]

theorem mem_fidsOf {s : Files σ} {n : ℕ} : (n : ℤ) ∈ s.fidsOf sid ↔ s.sidOf n = some sid := by
  constructor
  · rintro ⟨m, heq, hm⟩
    rw [Nat.cast_inj.mp heq]
    exact hm
  · intro hn
    exact ⟨n, rfl, hn⟩

structure AgreeAt (s : Files (World τ)) (sid : ℕ) : Prop where
  known : s.sessions.lookup sid = some portFs → s.servers.fs.shape sid = some (s.fidsOf sid)
  stale : ∀ fids, s.servers.fs.shape sid = some fids → s.sessions.lookup sid ≠ some portFs →
    fids = ∅ ∧ .ended sid (some portFs) ∈ s.log
  owned : ∀ n, s.sidOf n = some sid → (s.sessions.lookup sid).isSome = true

theorem agree_of_at (h : ∀ sid, AgreeAt s sid) : Agree s :=
  ⟨fun sid => (h sid).known, fun sid => (h sid).stale, fun n sid => (h sid).owned n⟩

theorem Agree.keep (h : Agree s) (hshape : s'.servers.fs.shape sid = s.servers.fs.shape sid)
    (hsessions : s'.sessions.lookup sid = s.sessions.lookup sid) (hfids : s'.fidsOf sid = s.fidsOf sid)
    (hlog : ∀ e ∈ s.log, e ∈ s'.log) : AgreeAt s' sid := by
  refine ⟨?_, ?_, ?_⟩
  · rw [hshape, hsessions, hfids]
    exact h.known sid
  · intro fids hfids' hsid
    rw [hshape] at hfids'
    rw [hsessions] at hsid
    obtain ⟨hempty, hended⟩ := h.stale sid fids hfids' hsid
    exact ⟨hempty, hlog _ hended⟩
  · intro n hn
    rw [← mem_fidsOf, hfids, mem_fidsOf] at hn
    rw [hsessions]
    exact h.owned n sid hn

theorem Agree.congr (h : Agree s) (hshape : s'.servers.fs.shape = s.servers.fs.shape)
    (hsessions : ∀ sid, s'.sessions.lookup sid = s.sessions.lookup sid)
    (hsids : ∀ n, s'.sidOf n = s.sidOf n) (hlog : ∀ e ∈ s.log, e ∈ s'.log) : Agree s' :=
  agree_of_at fun sid => h.keep (congrFun hshape sid) (hsessions sid) (fidsOf_congr hsids sid) hlog

theorem Agree.same (h : Agree s) (hshape : s'.servers.fs.shape = s.servers.fs.shape)
    (hsessions : s'.sessions = s.sessions) (hfiles : s'.files = s.files) (hlog : s'.log = s.log) : Agree s' := by
  apply h.congr hshape
  · intro sid
    rw [hsessions]
  · intro n
    rw [sidOf, hfiles, sidOf]
  · rw [hlog]
    exact fun _ => id

theorem callDevice_spec {e : Option Errno}
    (h : s.callDevice (World.call circumstances others) sid p = (e, s')) : s'.sessions = s.sessions ∧
      (s.sessions.lookup sid = some portFs → ShapeChange sid p e s.servers.fs.shape s'.servers.fs.shape) ∧
      (s.sessions.lookup sid ≠ some portFs → s'.servers.fs.shape = s.servers.fs.shape) := by
  unfold callDevice at h
  cases hserver : s.sessions.lookup sid with
  | none =>
    simp only [hserver] at h
    cases h
    refine ⟨rfl, ?_, fun _ => rfl⟩
    intro hfalse
    cases hfalse
  | some server =>
    simp only [hserver] at h
    by_cases heq : server = portFs
    · simp only [World.call, if_pos heq] at h
      cases h
      refine ⟨rfl, fun _ => step_effect rfl, ?_⟩
      intro hne
      exact absurd (congrArg some heq) hne
    · simp only [World.call, if_neg heq] at h
      cases h
      refine ⟨rfl, ?_, fun _ => rfl⟩
      intro hsome
      exact absurd (some.inj hsome) heq

theorem sidOf_insert (s : Files σ) {m : AList fun _ : ℕ => OpenFile} (h : s.files = m.insert fid file) (n : ℕ) :
    s.sidOf n = if n = fid then some file.sid else (m.lookup n).map OpenFile.sid := by
  rw [sidOf, h]
  split_ifs with heq
  · rw [heq, AList.lookup_insert]
    rfl
  · rw [AList.lookup_insert_ne heq]

theorem any_sid_iff (s : Files σ) (sid : ℕ) :
    s.files.entries.any (fun e => e.2.sid == sid) = true ↔ ∃ n, s.sidOf n = some sid := by
  rw [List.any_eq_true]
  constructor
  · rintro ⟨⟨n, file⟩, hmem, hsid⟩
    have hlookup : s.files.lookup n = some file := AList.mem_lookup_iff.mpr hmem
    refine ⟨n, ?_⟩
    rw [sidOf, hlookup]
    simpa using hsid
  · rintro ⟨n, hn⟩
    unfold sidOf at hn
    obtain ⟨file, hlookup, hsid⟩ := map_eq_some_iff.mp hn
    exact ⟨⟨n, file⟩, AList.mem_lookup_iff.mp hlookup, by simpa using hsid⟩

theorem sessionDestroyFile_sessions {s : Files σ} (hfile : s.sidOf fid = some sid) :
    (s.sessionDestroyFile fid).servers = s.servers ∧
      (∀ n, (s.sessionDestroyFile fid).sidOf n = if n = fid then none else s.sidOf n) ∧
      ((∃ n, n ≠ fid ∧ s.sidOf n = some sid) → (s.sessionDestroyFile fid).sessions = s.sessions) ∧
      ((∀ n, n ≠ fid → s.sidOf n ≠ some sid) → (s.sessionDestroyFile fid).sessions = s.sessions.erase sid) := by
  have hsids (n : ℕ) : (s.sessionDestroyFile fid).sidOf n = if n = fid then none else s.sidOf n := by
    rw [sidOf, (sessionDestroyFile_spec s fid).1]
    by_cases heq : n = fid
    · rw [if_pos heq, if_pos heq]
      rfl
    · rw [if_neg heq, if_neg heq, sidOf]
  have herased (n : ℕ) : ({ s with files := s.files.erase fid } : Files σ).sidOf n =
      if n = fid then none else s.sidOf n := by
    by_cases heq : n = fid
    · rw [if_pos heq, sidOf, heq, AList.lookup_erase]
      rfl
    · rw [if_neg heq, sidOf, AList.lookup_erase_ne heq, sidOf]
  obtain ⟨file, hlookup, hsid⟩ := map_eq_some_iff.mp hfile
  have hany := any_sid_iff { s with files := s.files.erase fid } sid
  refine ⟨?_, hsids, ?_, ?_⟩
  · unfold sessionDestroyFile
    simp only [hlookup]
    split
    · rfl
    · rfl
  · rintro ⟨n, hne, hn⟩
    unfold sessionDestroyFile
    simp only [hlookup, hsid]
    rw [if_pos]
    refine hany.mpr ⟨n, ?_⟩
    rw [herased, if_neg hne, hn]
  · intro hnone
    unfold sessionDestroyFile
    simp only [hlookup, hsid]
    rw [if_neg]
    · rfl
    · intro htrue
      obtain ⟨n, hn⟩ := hany.mp htrue
      rw [herased] at hn
      by_cases heq : n = fid
      · rw [if_pos heq] at hn
        cases hn
      · rw [if_neg heq] at hn
        exact hnone n heq hn

theorem fidsOf_made {s s' : Files σ} (hsids : ∀ n, s'.sidOf n = if n = fid then some sid else s.sidOf n)
    (hfresh : s.sidOf fid = none) (sid' : ℕ) :
    s'.fidsOf sid' = if sid' = sid then insert (fid : ℤ) (s.fidsOf sid') else s.fidsOf sid' := by
  have hmem (x : ℤ) : x ∈ s'.fidsOf sid' ↔ (x = fid ∧ sid' = sid) ∨ x ∈ s.fidsOf sid' := by
    constructor
    · rintro ⟨n, rfl, hn⟩
      rw [hsids] at hn
      split_ifs at hn with heq
      · exact .inl ⟨by rw [heq], (some.inj hn).symm⟩
      · exact .inr ⟨n, rfl, hn⟩
    · rintro (⟨rfl, rfl⟩ | ⟨n, rfl, hn⟩)
      · exact ⟨fid, rfl, by rw [hsids, if_pos rfl]⟩
      · refine ⟨n, rfl, ?_⟩
        have hne : n ≠ fid := by
          rintro rfl
          rw [hfresh] at hn
          cases hn
        rw [hsids, if_neg hne, hn]
  ext x
  rw [hmem]
  split_ifs with heq
  · rw [Set.mem_insert_iff]
    simp [heq]
  · simp [heq]

theorem fidsOf_gone {s s' : Files σ} (hsids : ∀ n, s'.sidOf n = if n = fid then none else s.sidOf n)
    (hfile : s.sidOf fid = some sid) (sid' : ℕ) :
    s'.fidsOf sid' = if sid' = sid then s.fidsOf sid' \ {(fid : ℤ)} else s.fidsOf sid' := by
  have hmem (x : ℤ) : x ∈ s'.fidsOf sid' ↔ x ∈ s.fidsOf sid' ∧ x ≠ fid := by
    constructor
    · rintro ⟨n, rfl, hn⟩
      rw [hsids] at hn
      by_cases heq : n = fid
      · rw [if_pos heq] at hn
        cases hn
      · rw [if_neg heq] at hn
        exact ⟨⟨n, rfl, hn⟩, by exact_mod_cast heq⟩
    · rintro ⟨⟨n, rfl, hn⟩, hne⟩
      refine ⟨n, rfl, ?_⟩
      rw [hsids, if_neg (by exact_mod_cast hne), hn]
  ext x
  rw [hmem]
  by_cases heq : sid' = sid
  · rw [if_pos heq]
    simp
  rw [if_neg heq]
  constructor
  · exact fun hx => hx.1
  · intro hx
    refine ⟨hx, ?_⟩
    rintro rfl
    rw [mem_fidsOf, hfile] at hx
    exact heq (some.inj hx).symm

theorem made_sidOf {s s' : Files σ} (hsids : ∀ n, s'.sidOf n = if n = fid then some sid else s.sidOf n) (n : ℕ) :
    (s'.made sid fid).sidOf n = if n = fid then some sid else s.sidOf n := by
  rw [← hsids, sidOf_insert (s'.made sid fid) rfl]
  split_ifs with heq
  · rw [hsids, if_pos heq]
  · rw [sidOf]

theorem Agree.change (h : Agree s) (sid : ℕ)
    (hshape : ∀ sid', sid' ≠ sid → s'.servers.fs.shape sid' = s.servers.fs.shape sid')
    (hsessions : ∀ sid', sid' ≠ sid → s'.sessions.lookup sid' = s.sessions.lookup sid')
    (hfids : ∀ sid', sid' ≠ sid → s'.fidsOf sid' = s.fidsOf sid') (hlog : ∀ e ∈ s.log, e ∈ s'.log)
    (hat : AgreeAt s' sid) : Agree s' := by
  apply agree_of_at
  intro sid'
  by_cases heq : sid' = sid
  · rw [heq]
    exact hat
  · exact h.keep (hshape sid' heq) (hsessions sid' heq) (hfids sid' heq) hlog

theorem Agree.made {s1 : Files (World τ)} (h : Agree s) (hfresh : s.sidOf fid = none)
    (hsids : ∀ n, s1.sidOf n = if n = fid then some sid else s.sidOf n)
    (hsessions : ∀ sid', sid' ≠ sid → s1.sessions.lookup sid' = s.sessions.lookup sid')
    (hsome : (s1.sessions.lookup sid).isSome = true) (hshape : s1.sessions.lookup sid = some portFs →
      s1.servers.fs.shape = update s.servers.fs.shape sid (some (insert (fid : ℤ) (s.fidsOf sid))))
    (hother : s1.sessions.lookup sid ≠ some portFs → s1.servers.fs.shape = s.servers.fs.shape ∧
      s.sessions.lookup sid ≠ some portFs) (hlog : s1.log = s.log) : Agree (s1.made sid fid) := by
  have hfids := fidsOf_made (made_sidOf hsids) hfresh
  have hkept : ∀ e ∈ s.log, e ∈ (s1.made sid fid).log := by
    intro e he
    change e ∈ s1.log ++ _
    rw [hlog]
    exact List.mem_append_left _ he
  refine h.change sid ?_ hsessions ?_ hkept ⟨?_, ?_, fun _ _ => hsome⟩
  · intro sid' heq
    change s1.servers.fs.shape sid' = _
    by_cases hport : s1.sessions.lookup sid = some portFs
    · rw [hshape hport, update_of_ne heq]
    · rw [(hother hport).1]
  · intro sid' heq
    rw [hfids, if_neg heq]
  · intro hport
    change s1.servers.fs.shape sid = _
    rw [hfids, if_pos rfl, hshape hport, update_self]
  · intro fids hfids' hport
    obtain ⟨hsame, hbefore⟩ := hother hport
    change s1.servers.fs.shape sid = _ at hfids'
    rw [hsame] at hfids'
    obtain ⟨hempty, hended⟩ := h.stale sid fids hfids' hbefore
    exact ⟨hempty, hkept _ hended⟩

/-- The server has refused the file, and it is taken out again. -/
theorem Agree.unmade {s1 : Files (World τ)} (h : Agree s) (hfresh : s.sidOf fid = none)
    (hsids : ∀ n, s1.sidOf n = if n = fid then some sid else s.sidOf n)
    (hshape : s1.servers.fs.shape = s.servers.fs.shape) (hlog : s1.log = s.log)
    (hsessions : ∀ sid', (s1.sessionDestroyFile fid).sessions.lookup sid' = s.sessions.lookup sid') :
    Agree (s1.sessionDestroyFile fid) := by
  have hfile : s1.sidOf fid = some sid := by rw [hsids, if_pos rfl]
  obtain ⟨hservers, hgone, -⟩ := sessionDestroyFile_sessions hfile
  refine h.congr (by rw [hservers, hshape]) hsessions ?_ ?_
  · intro n
    rw [hgone]
    split_ifs with heq
    · rw [heq, hfresh]
    · rw [hsids, if_neg heq]
  · rw [(sessionDestroyFile_spec s1 fid).2.1, hlog]
    exact fun _ => id

/-- A file of the session `sid` has been made and the server asked for it. -/
theorem askedFor {e : Option Errno} (hfile : s.sessionCreateFile sid = (some fid, s'))
    {s'' : Files (World τ)} (hcall : s'.callDevice (World.call circumstances others) sid p = (e, s'')) :
    s.sidOf fid = none ∧ (∀ n, s''.sidOf n = if n = fid then some sid else s.sidOf n) ∧
      s''.log = s.log ∧ s''.sessions = s.sessions ∧
      (s.sessions.lookup sid = some portFs → ShapeChange sid p e s.servers.fs.shape s''.servers.fs.shape) ∧
      (s.sessions.lookup sid ≠ some portFs → s''.servers.fs.shape = s.servers.fs.shape) := by
  obtain ⟨_, _, ⟨⟨⟩, -⟩ | ⟨_, ⟨⟩, hnone, rfl⟩⟩ := sessionCreateFile_cases hfile
  have hframe := callDevice_frame hcall
  have hspec := callDevice_spec hcall
  refine ⟨?_, ?_, hframe.log, hspec⟩
  · rw [sidOf, hnone]
    rfl
  · intro n
    rw [sidOf_insert s'' hframe.files, sidOf]

theorem attach_agree (h : Agree s) {server uid : ℕ} {r : Except Errno ℕ}
    (hattach : s.attach (World.call circumstances others) server uid = (r, s')) : Agree s' := by
  unfold attach at hattach
  rcases hcreate : s.sessionCreate server with ⟨_ | sid, s1⟩
  · simp only [hcreate] at hattach
    cases hattach
    obtain ⟨_, _, ⟨-, rfl⟩ | ⟨_, ⟨⟩, -⟩⟩ := sessionCreate_cases hcreate
    exact h.same rfl rfl rfl rfl
  simp only [hcreate] at hattach
  obtain ⟨_, _, ⟨⟨⟩, -⟩ | ⟨_, ⟨⟩, hnosession, hs1⟩⟩ := sessionCreate_cases hcreate
  have hlookup1 (sid' : ℕ) : s1.sessions.lookup sid' =
      if sid' = sid then some server else s.sessions.lookup sid' := by
    rw [hs1]
    split_ifs with heq
    · rw [heq, AList.lookup_insert]
    · rw [AList.lookup_insert_ne heq]
  have hnofile (n : ℕ) : s.sidOf n ≠ some sid := by
    intro hn
    have hsome := h.owned n sid hn
    rw [hnosession] at hsome
    cases hsome
  -- the session is taken out again
  have herase {m : AList fun _ : ℕ => ℕ} (hm : m = s1.sessions) (sid' : ℕ) :
      (m.erase sid).lookup sid' = s.sessions.lookup sid' := by
    by_cases heq : sid' = sid
    · rw [heq, AList.lookup_erase, hnosession]
    · rw [AList.lookup_erase_ne heq, hm, hlookup1, if_neg heq]
  rcases hfile : s1.sessionCreateFile sid with ⟨_ | fid, s2⟩
  · simp only [hfile] at hattach
    cases hattach
    obtain ⟨_, _, ⟨-, hs2⟩ | ⟨_, ⟨⟩, -⟩⟩ := sessionCreateFile_cases hfile
    refine h.congr ?_ (herase (by rw [hs2])) ?_ ?_
    · rw [hs2, hs1]
      rfl
    · intro n
      rw [hs2, hs1]
      rfl
    · rw [hs2, hs1]
      exact fun _ => id
  simp only [hfile] at hattach
  rcases hcall : s2.callDevice (World.call circumstances others) sid (.tattach fid uid) with ⟨e, s3⟩
  obtain ⟨hfresh, hsids3, hlog3, hsessions3, heffect, hother⟩ := askedFor hfile hcall
  rw [← hsessions3] at heffect hother
  have hsame1 : s1.servers = s.servers ∧ s1.log = s.log ∧ s1.sidOf = s.sidOf := by
    rw [hs1]
    exact ⟨rfl, rfl, rfl⟩
  rw [hsame1.1] at heffect hother
  rw [hsame1.2.1] at hlog3
  rw [hsame1.2.2] at hfresh hsids3
  cases e with
  | none =>
    simp only [hcall] at hattach
    cases hattach
    have hempty : s.fidsOf sid = ∅ := by
      ext x
      simp only [Set.mem_empty_iff_false, iff_false]
      rintro ⟨n, -, hn⟩
      exact hnofile n hn
    refine h.made hfresh hsids3 ?_ ?_ ?_ ?_ hlog3
    · intro sid' heq
      rw [hsessions3, hlookup1, if_neg heq]
    · rw [hsessions3, hlookup1, if_pos rfl]
      rfl
    · intro hport
      obtain ⟨hfalse, -⟩ | ⟨-, -, hshape⟩ := heffect hport
      · cases hfalse
      · rw [hshape, hempty]
        simp
    · intro hport
      refine ⟨hother hport, ?_⟩
      rw [hnosession]
      simp
  | some e =>
    simp only [hcall] at hattach
    cases hattach
    refine h.unmade hfresh hsids3 ?_ hlog3 ?_
    · by_cases hport : s3.sessions.lookup sid = some portFs
      · obtain ⟨-, hsame⟩ | ⟨hfalse, -⟩ := heffect hport
        · exact hsame
        · cases hfalse
      · exact hother hport
    · intro sid'
      have hfile3 : s3.sidOf fid = some sid := by rw [hsids3, if_pos rfl]
      rw [(sessionDestroyFile_sessions hfile3).2.2.2]
      · exact herase hsessions3 sid'
      · intro n hne
        rw [hsids3, if_neg hne]
        exact hnofile n

theorem walk_agree (h : Agree s) {holder : Holder} {path : List UInt8} {k : ℕ}
    {r : Except Errno ℕ} (hwalk : s.walk (World.call circumstances others) holder path k = (r, s')) :
    Agree s' := by
  unfold walk at hwalk
  rcases hresolve : resolve holder path k with ⟨_ | root, nwname, wname⟩
  · simp only [hresolve] at hwalk
    cases hwalk
    exact h
  simp only [hresolve] at hwalk
  cases hroot : s.files.lookup root with
  | none =>
    simp only [hroot] at hwalk
    cases hwalk
    exact h
  | some file =>
    simp only [hroot] at hwalk
    have hrootSid : s.sidOf root = some file.sid := by
      rw [sidOf, hroot]
      rfl
    rcases hfile : s.sessionCreateFile file.sid with ⟨_ | fid, s1⟩
    · simp only [hfile] at hwalk
      cases hwalk
      obtain ⟨_, _, ⟨-, rfl⟩ | ⟨_, ⟨⟩, -⟩⟩ := sessionCreateFile_cases hfile
      exact h.same rfl rfl rfl rfl
    simp only [hfile] at hwalk
    rcases hcall : s1.callDevice (World.call circumstances others) file.sid
      (.twalk root fid nwname wname) with ⟨e, s2⟩
    obtain ⟨hfresh, hsids2, hlog2, hsessions, heffect, hother⟩ := askedFor hfile hcall
    rw [← hsessions] at heffect hother
    have hne : fid ≠ root := by
      rintro rfl
      rw [hfresh] at hrootSid
      cases hrootSid
    simp only [ShapeChange, if_neg hne] at heffect
    cases e with
    | none =>
      simp only [hcall] at hwalk
      cases hwalk
      refine h.made hfresh hsids2 ?_ ?_ ?_ ?_ hlog2
      · intro sid' _
        rw [hsessions]
      · rw [hsessions]
        exact h.owned root file.sid hrootSid
      · intro hport
        obtain ⟨hfalse, -⟩ | ⟨-, fids, hfids, hshape⟩ := heffect hport
        · cases hfalse
        · rw [h.known file.sid (by rwa [← hsessions])] at hfids
          rw [hshape, ← some.inj hfids]
      · intro hport
        refine ⟨hother hport, ?_⟩
        rwa [← hsessions]
    | some e =>
      simp only [hcall] at hwalk
      cases hwalk
      refine h.unmade hfresh hsids2 ?_ hlog2 ?_
      · by_cases hport : s2.sessions.lookup file.sid = some portFs
        · obtain ⟨-, hsame⟩ | ⟨hfalse, -⟩ := heffect hport
          · exact hsame
          · cases hfalse
        · exact hother hport
      · -- the root keeps the session
        intro sid'
        have hfile2 : s2.sidOf fid = some file.sid := by rw [hsids2, if_pos rfl]
        rw [(sessionDestroyFile_sessions hfile2).2.2.1, hsessions]
        exact ⟨root, Ne.symm hne, by rw [hsids2, if_neg (Ne.symm hne), hrootSid]⟩

theorem fileCall_agree (h : Agree s) {e : Option Errno}
    (hcall : s.fileCall (World.call circumstances others) fid p = (e, s'))
    (hp : ∀ sid shape shape', ShapeChange sid p e shape shape' → shape' = shape) : Agree s' := by
  unfold fileCall at hcall
  cases hfile : s.files.lookup fid with
  | none =>
    simp only [hfile] at hcall
    cases hcall
    exact h
  | some file =>
    simp only [hfile] at hcall
    have hframe := callDevice_frame hcall
    obtain ⟨hsessions, heffect, hother⟩ := callDevice_spec hcall
    refine h.same ?_ hsessions hframe.files hframe.log
    by_cases hport : s.sessions.lookup file.sid = some portFs
    · exact hp _ _ _ (heffect hport)
    · exact hother hport

theorem setCount_sidOf {s : Files σ} (hfile : s.files.lookup fid = some file)
    (count : ℤ) (n : ℕ) : (s.setCount fid file count).sidOf n = s.sidOf n := by
  rw [sidOf_insert (s.setCount fid file count) rfl]
  split_ifs with heq
  · rw [heq, sidOf, hfile]
    rfl
  · rw [sidOf]

theorem Agree.setCount (h : Agree s) (hfile : s.files.lookup fid = some file)
    (count : ℤ) : Agree (s.setCount fid file count) :=
  h.congr rfl (fun _ => rfl) (setCount_sidOf hfile count) fun _ => id

theorem clunk_agree (h : Agree s) (fid : ℕ) : Agree (s.clunk (World.call circumstances others) fid).2 := by
  unfold clunk
  cases hfile : s.files.lookup fid with
  | none => exact h
  | some file =>
    simp only
    have h1 := h.setCount hfile (file.count - 1)
    have hsids1 := setCount_sidOf hfile (file.count - 1)
    by_cases hpos : file.count - 1 > 0
    · rw [if_pos hpos]
      exact h1
    rw [if_neg hpos]
    generalize s.setCount fid file (file.count - 1) = s1 at h1 hsids1
    have hfile1 : s1.sidOf fid = some file.sid := by
      rw [hsids1, sidOf, hfile]
      rfl
    rcases hcall : s1.callDevice (World.call circumstances others) file.sid (.tclunk fid) with ⟨e, s2⟩
    have hframe2 := callDevice_frame hcall
    obtain ⟨hsessions2, heffect, hother⟩ := callDevice_spec hcall
    simp only
    have hsids2 (n : ℕ) : (s2.note (.clunked fid)).sidOf n = s1.sidOf n := by
      change (s2.files.lookup n).map _ = _
      rw [hframe2.files, sidOf]
    have hfile2 : (s2.note (.clunked fid)).sidOf fid = some file.sid := by rw [hsids2, hfile1]
    have hlog2 : (s2.note (.clunked fid)).log = s1.log ++ [.clunked fid] := by
      rw [← hframe2.log]
      rfl
    have hsession2 : (s2.note (.clunked fid)).sessions = s1.sessions := hsessions2
    have hshape2 : (s2.note (.clunked fid)).servers = s2.servers := rfl
    obtain ⟨hservers3, hsids3, hkept, hended⟩ := sessionDestroyFile_sessions hfile2
    have hlog3 := (sessionDestroyFile_spec (s2.note (.clunked fid)) fid).2.1
    generalize (s2.note (.clunked fid)).sessionDestroyFile fid = s3 at hservers3 hsids3 hkept hended hlog3
    rw [hshape2] at hservers3
    have hfids := fidsOf_gone (fun n => by rw [hsids3, hsids2]) hfile1
    have hsome := h1.owned fid file.sid hfile1
    -- what becomes of the other sessions
    have hshape (sid' : ℕ) (hne : sid' ≠ file.sid) : s3.servers.fs.shape sid' = s1.servers.fs.shape sid' := by
      rw [hservers3]
      by_cases hport : s1.sessions.lookup file.sid = some portFs
      · rw [heffect hport, update_of_ne hne]
      · rw [hother hport]
    have hself (hport : s1.sessions.lookup file.sid = some portFs) :
        s3.servers.fs.shape file.sid = some (s3.fidsOf file.sid) := by
      rw [hservers3, heffect hport, update_self, h1.known file.sid hport, hfids, if_pos rfl]
      rfl
    by_cases hleft : ∃ n, n ≠ fid ∧ s1.sidOf n = some file.sid
    · have hsessions : s3.sessions = s1.sessions := by
        rw [hkept, hsession2]
        obtain ⟨n, hne, hn⟩ := hleft
        exact ⟨n, hne, by rw [hsids2, hn]⟩
      have hisSome : (s3.sessions.lookup file.sid).isNone = false := by
        rw [hsessions]
        cases hlookup : s1.sessions.lookup file.sid with
        | none =>
          rw [hlookup] at hsome
          cases hsome
        | some server => rfl
      rw [if_neg (by simp [hisSome])]
      have hlog : ∀ e ∈ s1.log, e ∈ s3.log := by
        rw [hlog3, hlog2]
        exact fun e => List.mem_append_left _
      refine h1.change file.sid hshape ?_ ?_ hlog ⟨?_, ?_, ?_⟩
      · intro sid' _
        rw [hsessions]
      · intro sid' heq
        rw [hfids, if_neg heq]
      · rw [hsessions]
        exact hself
      · intro fids hfids' hsid'
        rw [hsessions] at hsid'
        rw [hservers3, hother hsid'] at hfids'
        obtain ⟨hzero, hmem⟩ := h1.stale file.sid fids hfids' hsid'
        exact ⟨hzero, hlog _ hmem⟩
      · intro _ _
        rw [hsessions]
        exact hsome
    · push Not at hleft
      have hsessions : s3.sessions = s1.sessions.erase file.sid := by
        rw [hended, hsession2]
        intro n hne
        rw [hsids2]
        exact hleft n hne
      have hlast : s3.sessions.lookup file.sid = none := by rw [hsessions, AList.lookup_erase]
      rw [if_pos (by rw [hlast]; rfl)]
      have hlog : ∀ e ∈ s1.log, e ∈ s3.log ++ [.ended file.sid (s2.sessions.lookup file.sid)] := by
        rw [hlog3, hlog2]
        exact fun e he => List.mem_append_left _ (List.mem_append_left _ he)
      refine h1.change file.sid hshape ?_ ?_ hlog ⟨?_, ?_, ?_⟩
      · intro sid' hne
        change s3.sessions.lookup sid' = _
        rw [hsessions, AList.lookup_erase_ne hne]
      · intro sid' heq
        change s3.fidsOf sid' = _
        rw [hfids, if_neg heq]
      · intro hport
        change s3.sessions.lookup file.sid = some portFs at hport
        rw [hlast] at hport
        cases hport
      · intro fids hfids' _
        change s3.servers.fs.shape file.sid = some fids at hfids'
        by_cases hport : s1.sessions.lookup file.sid = some portFs
        · -- the session has just lost its last file
          rw [hself hport] at hfids'
          refine ⟨?_, ?_⟩
          · rw [← some.inj hfids', hfids, if_pos rfl]
            ext x
            simp only [Set.mem_sdiff, Set.mem_singleton_iff, Set.mem_empty_iff_false, iff_false]
            rintro ⟨⟨n, rfl, hn⟩, hne⟩
            exact hleft n (by exact_mod_cast hne) hn
          · apply List.mem_append_right
            rw [hsessions2, hport]
            exact List.mem_singleton_self _
        · rw [hservers3, hother hport] at hfids'
          obtain ⟨hzero, hmem⟩ := h1.stale file.sid fids hfids' hport
          exact ⟨hzero, hlog _ hmem⟩
      · intro n hn
        change s3.sidOf n = some file.sid at hn
        rw [hsids3, hsids2] at hn
        by_cases heq : n = fid
        · rw [if_pos heq] at hn
          cases hn
        · rw [if_neg heq] at hn
          exact absurd hn (hleft n heq)

theorem slabAlloc_agree (h : Agree s) {ok : Bool} (halloc : s.slabAlloc = (ok, s')) : Agree s' := by
  obtain ⟨_, _, hslab, -⟩ := slabAlloc_eq s
  rw [hslab] at halloc
  cases halloc
  exact h.same rfl rfl rfl rfl

theorem Agree.holders (h : Agree s) (holders : AList fun _ : ℕ => Holder) :
    Agree { s with holders := holders } := h.congr rfl (fun _ => rfl) (fun _ => rfl) fun _ => id

theorem agree_stable : Stable (World.call circumstances others) (@Agree τ) where
  holders holders h := h.holders holders
  slabAlloc halloc h := slabAlloc_agree h halloc
  attach hattach h := attach_agree h hattach
  walk hwalk h := walk_agree h hwalk
  fileCall hcall hstill h := by
    refine fileCall_agree h hcall fun sid shape shape' heffect => ?_
    rename_i p _
    cases p with
    | twalk fid newfid n path =>
      obtain ⟨rfl, rfl⟩ := hstill
      rw [ShapeChange, if_pos rfl] at heffect
      exact heffect
    | tattach fid uid => exact hstill.elim
    | tclunk fid => exact hstill.elim
    | topen fid oflag => exact heffect
    | tcreate fid name perm oflag => exact heffect
    | tstat fid => exact heffect
  setCount n hfile h := h.setCount hfile n
  clunk fid h := clunk_agree h fid

end Agree

section Requests

theorem start_agree (hsrv : srv.sessions = ∅) (others : τ) (faults : List Bool) :
    Agree (start ⟨srv, 0, others⟩ faults) := by
  refine ⟨?_, ?_, ?_⟩
  · intro sid hsid
    cases hsid
  · intro sid fids hfids
    change (srv.sessions.lookup sid).map _ = some fids at hfids
    rw [hsrv] at hfids
    cases hfids
  · intro n sid hn
    cases hn

/-- Where no session with the file server loses its last file, both servers have the same sessions
with the same fids. -/
theorem sessions_agree {disk : ℕ → Lib.Bytes.Block} {diskFaults : List Bool} {clock : Fs.Clock}
    {stack : ℕ → UInt8} {srv : Fs.Server} (hsrv : Fs.Server.start disk diskFaults clock stack = some srv)
    (circumstances : ℕ → Circumstance) (others : τ → ℕ → ℕ → Packet → Option Errno × τ) (rest : τ)
    (faults : List Bool) {rs : List (ℕ × FileRequest)} {s : Files (World τ)}
    (hrun : (start ⟨srv, 0, rest⟩ faults).run (World.call circumstances others) rs = some s)
    (hlast : ∀ sid, .ended sid (some portFs) ∉ s.log) (sid : ℕ) : s.servers.fs.shape sid =
      if s.sessions.lookup sid = some portFs then some (s.fidsOf sid) else none := by
  have hempty : srv.sessions = ∅ := by
    unfold Fs.Server.start at hsrv
    split at hsrv
    · cases hsrv
    · cases hsrv
      rfl
  obtain ⟨_, hc, -⟩ := run_fine agree_stable (start_fine (start_agree hempty rest faults)) hrun
  have ha := hc.kept
  split_ifs with hsid
  · exact ha.known sid hsid
  · cases hshape : s.servers.fs.shape sid with
    | none => rfl
    | some fids => exact absurd (ha.stale sid fids hshape hsid).2 (hlast sid)

end Requests

def atRest : ℕ → Circumstance := fun _ => ⟨⟨0, 0, 0⟩, fun _ => 0, true, true, true, true⟩

def sharedSession : List (ℕ × FileRequest) :=
  [(1, .bind (.ok (portFs, [slash]))), (1, .rfork (.ok 2) true), (2, .chdir (.ok [slash]) true),
    (2, .exit), (1, .rfork (.ok 3) false), (1, .openPath (.ok [slash, 97]) 0)]

def refuses : Unit → ℕ → ℕ → Packet → Option Errno × Unit := fun _ _ _ _ => (some .econnrefused, ())

def onEmptyDisk (rs : List (ℕ × FileRequest)) : Option (Files (World Unit)) :=
  (Fs.Server.startOn Fs.emptyDisk).bind fun srv =>
    (start ⟨srv, 0, ()⟩ []).run (World.call atRest refuses) rs

theorem sessions_agree_shared : ∃ s, onEmptyDisk sharedSession = some s ∧
    s.servers.fs.shape (createSid portFs 1) = some (s.fidsOf (createSid portFs 1)) := by
  have hseen : (onEmptyDisk sharedSession).map (fun s =>
      (s.log.all fun e => match e with | .ended _ _ => false | _ => true) &&
        (s.sessions.lookup (createSid portFs 1) == some portFs)) = some true := by
    decide +kernel
  obtain ⟨s, hs, hwell⟩ := map_eq_some_iff.mp hseen
  rw [Bool.and_eq_true, List.all_eq_true] at hwell
  obtain ⟨srv, hsrv, hrun⟩ := bind_eq_some_iff.mp hs
  have hagree := sessions_agree hsrv atRest refuses () [] hrun (by
    intro sid hmem
    have hfalse := hwell.1 _ hmem
    cases hfalse) (createSid portFs 1)
  rw [if_pos (by simpa using hwell.2)] at hagree
  exact ⟨s, hs, hagree⟩

def boundTwice : List (ℕ × FileRequest) :=
  [(1, .bind (.ok (portFs, [slash]))), (1, .bind (.ok (portFs, [slash])))]

/-- The file server keeps the session that is gone, and will not take another with its number. -/
theorem boundTwice_keeps_session : (onEmptyDisk boundTwice).map (fun s =>
    (s.sessions.keys, s.servers.fs.sessions.keys,
      (Fs.ifAttach s.servers.fs (createSid portFs 1) 3 Fs.noFid 0 true true).1)) =
    some ([createSid portFs 2], [createSid portFs 1, createSid portFs 2], .rerror .enomem) := by
  decide +kernel

end Files

end Eotan.Mm
