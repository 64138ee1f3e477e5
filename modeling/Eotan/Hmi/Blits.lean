import Eotan.Hmi.Server
import Mathlib.Tactic.Zify

namespace Eotan.Hmi

open Mpu (Memory Thread userCopy copyLoop memcpy getPageAddress)

def Rectangle.Inside (r s : Rectangle) : Prop :=
  (s.min.x ≤ r.min.x ∧ r.max.x ≤ s.max.x) ∧ s.min.y ≤ r.min.y ∧ r.max.y ≤ s.max.y

instance (r s : Rectangle) : Decidable (r.Inside s) := inferInstanceAs (Decidable (_ ∧ _))

def Display.Shows (d : Display) (r : Rectangle) (a : ℕ) : Prop :=
  ∃ x y i : ℤ, (r.min.x ≤ x ∧ x < r.max.x) ∧ (r.min.y ≤ y ∧ y < r.max.y) ∧ (0 ≤ i ∧ i < d.bpp) ∧
    (a : ℤ) = d.base + y * d.bpl + x * d.bpp + i

variable {a sid : ℕ} {d : Display} {m : Memory} {th : Option Thread} {srv : Server}
  {session session' : Session}

theorem Display.Shows.mono {r s : Rectangle} (h : d.Shows r a) (hin : r.Inside s) : d.Shows s a := by
  obtain ⟨x, y, i, hx, hy, hi⟩ := h
  obtain ⟨hcols, hrows⟩ := hin
  exact ⟨x, y, i, by omega, by omega, hi⟩

theorem rectIntersect_inside {src1 src2 r : Rectangle} (h : rectIntersect src1 src2 = some r) :
    r.Inside src2 ∧ r.min.x < r.max.x ∧ r.min.y < r.max.y := by
  unfold rectIntersect at h
  dsimp only at h
  split_ifs at h <;> cases h <;> refine ⟨⟨?_, ?_⟩, ?_, ?_⟩ <;> dsimp only <;> omega

theorem copyLoop_buffer (dir fuel : ℕ) {p u k rest len : ℕ} (ha : a < k ∨ k + rest ≤ a) :
    (copyLoop (fun m p k len => memcpy m k p len) dir fuel p u k rest len m).mem a = m a := by
  induction fuel generalizing p u k rest len m with
  | zero => rfl
  | succ fuel ih =>
    rw [copyLoop]
    have hl : (if rest < len then rest else len) ≤ rest := by split <;> omega
    generalize (if rest < len then rest else len) = l at *
    have hhere : memcpy m k p l a = m a := if_neg (by omega)
    split_ifs with hend
    · exact hhere
    · cases hp : getPageAddress (memcpy m k p l) dir ((u + l) % 2 ^ 32) with
      | none => exact hhere
      | some page => exact (ih (by omega)).trans hhere

theorem userCopy_buffer (th : Thread) {u k n : ℕ} (ha : a < k ∨ k + n ≤ a) :
    (userCopy (fun m p k len => memcpy m k p len) m th u k n).mem a = m a := by
  unfold userCopy
  cases getPageAddress m (Mpu.kernP2v th.cr3) u with
  | none => rfl
  | some page => exact copyLoop_buffer _ _ ha

-- The fragments do not wrap around the end of the memory, so the `j`th begins at `dst + j * skip`.
theorem copyFragments_frame (th : Thread) {size chunkSize skip : ℕ} (hsize : 0 < size)
    (n dst src : ℕ) (m : Memory) (hend : n = 0 ∨ dst + (n - 1) * skip + size ≤ 2 ^ 32)
    (ha : ∀ j < n, a < dst + j * skip ∨ dst + j * skip + size ≤ a) :
    (copyFragments th size chunkSize skip n dst src m).2 a = m a := by
  induction n generalizing dst src m with
  | zero => rfl
  | succ n ih =>
    rw [copyFragments]
    have hfirst := ha 0 (Nat.succ_pos n)
    rw [Nat.zero_mul, Nat.add_zero] at hfirst
    have hhere := userCopy_buffer (m := m) (u := src) th hfirst
    split_ifs with hcode
    · exact hhere
    refine Eq.trans ?_ hhere
    rcases Nat.eq_zero_or_pos n with rfl | hn
    · rfl
    have hend : dst + n * skip + size ≤ 2 ^ 32 := by simpa using hend
    have hskip : skip ≤ n * skip := Nat.le_mul_of_pos_left skip hn
    have hnext : (dst + skip) % 2 ^ 32 = dst + skip := Nat.mod_eq_of_lt (by omega)
    rw [hnext]
    apply ih
    · right
      have hsplit : n * skip = (n - 1) * skip + skip := by
        rw [← Nat.succ_mul, Nat.succ_eq_add_one, Nat.sub_add_cancel hn]
      omega
    · intro j hj
      have hlater := ha (j + 1) (Nat.succ_lt_succ hj)
      rw [Nat.succ_mul] at hlater
      omega

-- Nothing wraps around, for a rectangle on the screen.
theorem blitRange_eq (inbuf : ℕ → UInt8) {dest : Rectangle} (hin : dest.Inside d.r)
    (hx : dest.min.x < dest.max.x) (hy : dest.min.y < dest.max.y) :
    ((blitRange d inbuf dest).dst : ℤ) = d.base + dest.min.y * d.bpl + dest.min.x * d.bpp ∧
      ((blitRange d inbuf dest).fragmentSize : ℤ) = (dest.max.x - dest.min.x) * d.bpp ∧
      0 < (blitRange d inbuf dest).fragmentSize ∧
      ((blitRange d inbuf dest).dst : ℤ) + (dest.max.y - dest.min.y - 1) * d.bpl +
        (blitRange d inbuf dest).fragmentSize ≤ 2 ^ 32 := by
  obtain ⟨⟨hleft, hright⟩, htop, hbottom⟩ := hin
  rw [d.origin] at hleft htop
  have hpixel : (0 : ℤ) < d.bpp := by exact_mod_cast d.pixel
  have hline : (d.bpl : ℤ) < 2 ^ 31 := by exact_mod_cast d.line
  have hwide := d.wide
  have hhigh := d.high
  have hcols : dest.max.x * d.bpp ≤ d.r.max.x * d.bpp := Int.mul_le_mul_of_nonneg_right hright hpixel.le
  have hrows : dest.max.y * d.bpl ≤ d.r.max.y * d.bpl :=
    Int.mul_le_mul_of_nonneg_right hbottom (Int.natCast_nonneg d.bpl)
  have hmin : 0 ≤ dest.min.x * (d.bpp : ℤ) := Int.mul_nonneg hleft hpixel.le
  have htops : 0 ≤ dest.min.y * (d.bpl : ℤ) := Int.mul_nonneg htop (Int.natCast_nonneg _)
  have hwidth : 0 < (dest.max.x - dest.min.x) * d.bpp := Int.mul_pos (by omega) hpixel
  have hheight : 0 ≤ (dest.max.y - dest.min.y - 1) * d.bpl := Int.mul_nonneg (by omega) (Int.natCast_nonneg _)
  have hsize : ((blitRange d inbuf dest).fragmentSize : ℤ) = (dest.max.x - dest.min.x) * d.bpp := by
    have hbound : (dest.max.x - dest.min.x) * d.bpp < 2 ^ 32 := by
      rw [Int.sub_mul]
      omega
    exact (Int.toNat_of_nonneg (Int.emod_nonneg _ (by decide))).trans (Int.emod_eq_of_lt hwidth.le hbound)
  rw [Int.sub_mul, Int.sub_mul, Int.one_mul] at hheight
  have hdst : ((blitRange d inbuf dest).dst : ℤ) = d.base + dest.min.y * d.bpl + dest.min.x * d.bpp := by
    rw [Int.sub_mul] at hwidth
    exact (Int.toNat_of_nonneg (Int.emod_nonneg _ (by decide))).trans (Int.emod_eq_of_lt (by omega) (by omega))
  refine ⟨hdst, hsize, by omega, ?_⟩
  rw [hdst, hsize, Int.sub_mul, Int.sub_mul, Int.sub_mul, Int.one_mul]
  omega

theorem drawWrite_eq (d : Display) (w : Window) (size : ℕ) (inbuf : ℕ → UInt8) (th : Option Thread)
    (m : Memory) : (drawWrite d w size inbuf th m).2 = m ∨
      ∃ dest, rectIntersect (rectTransform (rectNormalize (blitDest inbuf)) w.outer.r.min)
          w.outer.viewport = some dest ∧
        (drawWrite d w size inbuf th m).2 = (skipCopy m th d.bpl (blitRange d inbuf dest)).2 := by
  unfold drawWrite
  split_ifs with hshort hop hsize htype
  · exact .inl rfl
  · exact .inl rfl
  · exact .inl rfl
  · exact .inl rfl
  · cases hdest : rectIntersect (rectTransform (rectNormalize (blitDest inbuf)) w.outer.r.min)
        w.outer.viewport with
    | none => exact .inl rfl
    | some dest =>
      by_cases hbpl : blitBpl inbuf < (blitRange d inbuf dest).fragmentSize
      · exact .inl (by simp only [if_pos hbpl])
      · exact .inr ⟨dest, rfl, by simp only [if_neg hbpl]⟩

theorem skipCopy_shows (inbuf : ℕ → UInt8) {dest : Rectangle} (hin : dest.Inside d.r)
    (hx : dest.min.x < dest.max.x) (hy : dest.min.y < dest.max.y)
    (h : (skipCopy m th d.bpl (blitRange d inbuf dest)).2 a ≠ m a) : d.Shows dest a := by
  obtain ⟨hdst, hsize, hpos, hend⟩ := blitRange_eq inbuf hin hx hy
  have hrows : ((blitRange d inbuf dest).numOfFragments : ℤ) = dest.max.y - dest.min.y :=
    Int.toNat_of_nonneg (by omega)
  cases th with
  | none => exact absurd rfl h
  | some th =>
    by_contra hno
    apply h
    simp only [skipCopy, scatteredCopyU2k, if_neg hpos.ne']
    apply copyFragments_frame th hpos
    · right
      zify [show 1 ≤ (blitRange d inbuf dest).numOfFragments by omega]
      rw [hrows]
      exact hend
    · intro j hj
      by_contra hat
      apply hno
      have hlow : (blitRange d inbuf dest).dst + j * d.bpl ≤ a := by omega
      obtain ⟨k, rfl⟩ := Nat.exists_eq_add_of_le hlow
      have hpixel : (0 : ℤ) < d.bpp := by exact_mod_cast d.pixel
      have hk : (k : ℤ) < (dest.max.x - dest.min.x) * d.bpp := by omega
      have hcol : (k : ℤ) / d.bpp < dest.max.x - dest.min.x := Int.ediv_lt_of_lt_mul hpixel hk
      have hcol' : 0 ≤ (k : ℤ) / d.bpp := Int.ediv_nonneg (Int.natCast_nonneg k) hpixel.le
      -- the byte `k` of the fragment `j` belongs to the pixel `k / bpp` of the row `j`
      refine ⟨dest.min.x + k / d.bpp, dest.min.y + j, k % d.bpp, by omega, by omega,
        ⟨Int.emod_nonneg _ hpixel.ne', Int.emod_lt_of_pos _ hpixel⟩, ?_⟩
      have hsplit := Int.mul_ediv_add_emod k d.bpp
      rw [Int.mul_comm] at hsplit
      push_cast
      rw [hdst, Int.add_mul, Int.add_mul]
      omega

theorem drawWrite_shows {w : Window} (hin : w.outer.viewport.Inside d.r) {size : ℕ} {inbuf : ℕ → UInt8}
    (h : (drawWrite d w size inbuf th m).2 a ≠ m a) : d.Shows w.outer.viewport a := by
  rcases drawWrite_eq d w size inbuf th m with hsame | ⟨dest, hdest, heq⟩
  · exact absurd (congrFun hsame a) h
  obtain ⟨hview, hx, hy⟩ := rectIntersect_inside hdest
  have hscreen : dest.Inside d.r := by
    obtain ⟨hcols, hrows⟩ := hin
    obtain ⟨hcols', hrows'⟩ := hview
    exact ⟨by omega, by omega⟩
  rw [heq] at h
  exact (skipCopy_shows inbuf hscreen hx hy h).mono hview

theorem writeLines_frame {write : ℕ → (ℕ → UInt8) → Memory → ℤ × Memory}
    (hwrite : ∀ size inbuf m, (write size inbuf m).2 a = m a) (line : ℕ → Option (ℕ → UInt8))
    (fuel pos rest : ℕ) (m : Memory) : (writeLines write line fuel pos rest m).2 a = m a := by
  induction fuel generalizing pos rest m with
  | zero => rfl
  | succ fuel ih =>
    rw [writeLines]
    generalize (if 4096 < rest then 4096 else rest) = len
    split_ifs with hrest
    · rfl
    cases line pos with
    | none => rfl
    | some inbuf =>
      have hhere := hwrite len inbuf m
      dsimp only
      split_ifs with hbad
      · exact hhere
      · exact (ih _ _ _).trans hhere

def Session.Shown (d : Display) (session : Session) : Prop :=
  session.window.outer.viewport = session.window.outer.r ∧ session.window.outer.r.Inside d.r

theorem ifWrite_shows {fid : ℤ} {count : ℕ} {line : ℕ → Option (ℕ → UInt8)}
    (hshown : ∀ session, srv.sessions.lookup sid = some session → session.Shown d)
    (h : (ifWrite d srv sid fid count line th m).2 a ≠ m a) :
    ∃ session, srv.sessions.lookup sid = some session ∧ d.Shows session.window.outer.r a ∧ d.Shows d.r a := by
  unfold ifWrite at h
  cases hsession : srv.sessions.lookup sid with
  | none =>
    rw [hsession] at h
    exact absurd rfl h
  | some session =>
    rw [hsession] at h
    obtain ⟨hview, hin⟩ := hshown session hsession
    have hwrite : d.Shows session.window.outer.r a := by
      by_contra hno
      apply h
      dsimp only
      cases session.files.lookup fid with
      | none => rfl
      | some file =>
        dsimp only
        split
        · rfl
        apply writeLines_frame
        intro size inbuf m
        unfold writeFile
        split
        · rfl
        · by_contra hne
          apply hno
          rw [← hview] at hin ⊢
          exact drawWrite_shows hin hne
        · rfl
    exact ⟨session, rfl, hwrite, hwrite.mono hin⟩

def Keeps (srv srv' : Server) : Prop :=
  ∀ sid session', srv'.sessions.lookup sid = some session' →
    ∃ session, srv.sessions.lookup sid = some session ∧ session'.window = session.window

theorem Keeps.refl (srv : Server) : Keeps srv srv := fun _ session' h => ⟨session', h, rfl⟩

theorem keeps_setSession (h : srv.sessions.lookup sid = some session) (hw : session'.window = session.window) :
    Keeps srv (srv.setSession sid session') := by
  intro sid' session'' h'
  by_cases heq : sid' = sid
  · subst heq
    rw [Server.setSession, AList.lookup_insert, Option.some.injEq] at h'
    subst h'
    exact ⟨session, h, hw⟩
  · rw [Server.setSession, AList.lookup_insert_ne heq] at h'
    exact ⟨session'', h', rfl⟩

theorem sessionDestroyFile_keeps (fid : ℤ)
    (h : srv.sessions.lookup sid = some session) (hw : session'.window = session.window) :
    Keeps srv (sessionDestroyFile srv sid session' fid).2 := by
  unfold sessionDestroyFile
  dsimp only
  split_ifs with hfile hlast
  · exact Keeps.refl srv
  · intro sid' session'' h'
    by_cases heq : sid' = sid
    · subst heq
      exact absurd h' (by simp)
    · exact ⟨session'', (AList.lookup_erase_ne heq).symm.trans h', rfl⟩
  · exact keeps_setSession h hw

theorem sessionCreateFile_window {fid : ℤ} {fileOk : Bool}
    (h : sessionCreateFile session fid fileOk = .ok session') : session'.window = session.window := by
  unfold sessionCreateFile at h
  split_ifs at h
  cases h
  rfl

section

variable (srv : Server) (sid : ℕ)

theorem ifWalk_keeps (fid newfid : ℤ) (nwname : ℕ) (wname : Option (List UInt8)) (fileOk : Bool) :
    Keeps srv (ifWalk srv sid fid newfid nwname wname fileOk).2 := by
  unfold ifWalk
  split
  · exact Keeps.refl srv
  rename_i session hsession
  split
  · exact Keeps.refl srv
  split_ifs
  · exact Keeps.refl srv
  · exact Keeps.refl srv
  · exact Keeps.refl srv
  · split
    · exact Keeps.refl srv
    · exact keeps_setSession hsession rfl
  · split
    · exact Keeps.refl srv
    rename_i hcreate
    have hw := sessionCreateFile_window hcreate
    split
    · exact sessionDestroyFile_keeps newfid hsession hw
    · exact keeps_setSession hsession hw

theorem ifOpen_keeps (fid : ℤ) (mode : ℕ) : Keeps srv (ifOpen srv sid fid mode).2 := by
  unfold ifOpen
  split
  · exact Keeps.refl srv
  rename_i session hsession
  split
  · exact Keeps.refl srv
  split
  · exact Keeps.refl srv
  · dsimp only
    split_ifs
    all_goals first | exact Keeps.refl srv | exact keeps_setSession hsession rfl

theorem ifClunk_keeps (fid : ℤ) : Keeps srv (ifClunk srv sid fid).2 := by
  unfold ifClunk
  split
  · exact Keeps.refl srv
  · rename_i session hsession
    exact sessionDestroyFile_keeps fid hsession rfl

end

def Server.Attaches (srv : Server) (m : Message) : Prop :=
  match m.body with
  | .attach fid afid sessionOk fileOk windowOk =>
    (ifAttach srv m.sid fid afid sessionOk fileOk windowOk).1 = none
  | _ => False

theorem step_cases (srv : Server) (m : Message) : ¬srv.Attaches m ∧ Keeps srv (srv.step m) ∨
    srv.Attaches m ∧ ∃ session, session.window = srv.place ∧ srv.sessions.lookup m.sid = none ∧
      (srv.step m).sessions = srv.sessions.insert m.sid session := by
  obtain ⟨sid, body⟩ := m
  cases body with
  | attach fid afid sessionOk fileOk windowOk =>
    simp only [Server.Attaches, Server.step, ifAttach]
    split_ifs with hafid hsession
    · exact .inl ⟨nofun, Keeps.refl srv⟩
    · exact .inl ⟨nofun, Keeps.refl srv⟩
    · split <;> exact .inl ⟨nofun, Keeps.refl srv⟩
    split
    · exact .inl ⟨nofun, Keeps.refl srv⟩
    · rename_i session hcreate
      refine .inr ⟨rfl, session.setFile fid ⟨Fs.oAccmode, none⟩, sessionCreateFile_window hcreate, ?_, rfl⟩
      simpa using (not_or.mp hsession).2
  | walk fid newfid nwname wname fileOk => exact .inl ⟨id, ifWalk_keeps srv sid fid newfid nwname wname fileOk⟩
  | openFid fid mode => exact .inl ⟨id, ifOpen_keeps srv sid fid mode⟩
  | clunk fid => exact .inl ⟨id, ifClunk_keeps srv sid fid⟩

def Server.Room (d : Display) (srv : Server) (m : Message) : Prop :=
  match m.body with
  | .attach _ _ _ _ _ => srv.place.outer.r.Inside d.r
  | _ => True

instance (d : Display) (srv : Server) : (m : Message) → Decidable (srv.Room d m)
  | ⟨_, .attach _ _ _ _ _⟩ => inferInstanceAs (Decidable (Rectangle.Inside _ _))
  | ⟨_, .walk _ _ _ _ _⟩ => instDecidableTrue
  | ⟨_, .openFid _ _⟩ => instDecidableTrue
  | ⟨_, .clunk _⟩ => instDecidableTrue

def Server.Shown (d : Display) (srv : Server) : Prop :=
  ∀ sid session, srv.sessions.lookup sid = some session → session.Shown d

theorem Keeps.shown {srv' : Server} (h : Keeps srv srv') (hs : srv.Shown d) : srv'.Shown d := by
  intro sid session' h'
  obtain ⟨session, hsession, hw⟩ := h sid session' h'
  unfold Session.Shown
  rw [hw]
  exact hs sid session hsession

theorem step_shown (h : srv.Shown d) (m : Message) (hroom : srv.Room d m) : (srv.step m).Shown d := by
  rcases step_cases srv m with ⟨-, hkeeps⟩ | ⟨hattach, session, hw, -, heq⟩
  · exact hkeeps.shown h
  have hplace : srv.place.outer.r.Inside d.r := by
    obtain ⟨sid, body⟩ := m
    cases body with
    | attach => exact hroom
    | _ => exact hattach.elim
  intro sid session' h'
  rw [heq] at h'
  by_cases hsid : sid = m.sid
  · rw [hsid, AList.lookup_insert, Option.some.injEq] at h'
    unfold Session.Shown
    rw [← h', hw]
    exact ⟨rfl, hplace⟩
  · exact h sid session' ((AList.lookup_insert_ne hsid).symm.trans h')

def Server.Roomy (d : Display) : Server → List Message → Prop
  | _, [] => True
  | srv, m :: ms => srv.Room d m ∧ Server.Roomy d (srv.step m) ms

theorem run_shown (ms : List Message) (h : srv.Shown d) (hroom : srv.Roomy d ms) : (srv.run ms).Shown d := by
  induction ms generalizing srv with
  | nil => exact h
  | cons m ms ih => exact ih (step_shown h m hroom.1) hroom.2

def vga : Display where
  r := ⟨⟨0, 0⟩, ⟨1024, 768⟩⟩
  base := 0xe0000000
  bpl := 4096
  bpp := 4
  type := 2
  origin := rfl
  pixel := by decide
  line := by decide
  wide := by decide
  high := by decide

def drawing (sid : ℕ) : List Message :=
  [⟨sid, .attach 1 Fs.noFid true true true⟩, ⟨sid, .walk 1 2 1 (some [100, 114, 97, 119, 0]) true⟩,
    ⟨sid, .openFid 2 Fs.oWronly⟩]

def onePixel : ℕ → Option (ℕ → UInt8) := fun _ =>
  some (Lib.Bytes.ofWords [1, 0, 0, 1, 1, 0x400000, 4, 2])

def callerMemory : Memory := fun a =>
  if a = 0x80001004 then 7
  else if a = 0x80001005 then 0x20
  else if a = 0x80002000 then 7
  else if a = 0x80002001 then 0x30
  else if a = 0x80003000 then 0x42
  else 0

def caller : Thread := ⟨0x7ffff000, 0x1000⟩

end Eotan.Hmi
