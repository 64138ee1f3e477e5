import Eotan.Hmi.Blits

/-!
Where the windows of the sessions lie: the place of a new one is counted from the number of windows
that there are, wherever those are.
-/

namespace Eotan.Hmi

def Rectangle.Contains (r : Rectangle) (p : Point) : Prop :=
  (r.min.x ≤ p.x ∧ p.x < r.max.x) ∧ r.min.y ≤ p.y ∧ p.y < r.max.y

/-- No point is in two windows, or in one and in what a blit to another leaves of its rectangle. -/
def Server.Apart (srv : Server) : Prop :=
  ∀ sid sid' session session', srv.sessions.lookup sid = some session →
    srv.sessions.lookup sid' = some session' → sid ≠ sid' → ∀ p, session.window.outer.r.Contains p →
      ¬session'.window.outer.r.Contains p ∧
        ∀ src dest, rectIntersect src session'.window.outer.viewport = some dest → ¬dest.Contains p

/-- An attach that succeeds finds no window in the place of its own. -/
def Server.Vacant (srv : Server) (m : Message) : Prop :=
  srv.Attaches m → ∀ sid session, srv.sessions.lookup sid = some session →
    session.window.outer.r ≠ srv.place.outer.r

def Server.Along (P : Server → Message → Prop) : Server → List Message → Prop
  | _, [] => True
  | srv, m :: ms => P srv m ∧ Server.Along P (srv.step m) ms

def windowAt (n : ℤ) : Window := Server.place ⟨∅, n⟩

def Server.Placed (srv : Server) : Prop :=
  ∀ sid session, srv.sessions.lookup sid = some session → ∃ n, session.window = windowAt n

variable {srv : Server} {n k : ℤ}

theorem windowAt_contains {p : Point} : (windowAt n).outer.r.Contains p ↔
    (0 ≤ p.x ∧ p.x < 512) ∧ 20 + 374 * n ≤ p.y ∧ p.y < 20 + 374 * (n + 1) := by
  unfold windowAt Server.place windowCreate rectNormalize Rectangle.Contains barHeight defaultHeight defaultWidth
  dsimp only
  split_ifs <;> omega

theorem windowAt_corner (n : ℤ) : (windowAt n).outer.r.Contains ⟨0, 20 + 374 * n⟩ := by
  rw [windowAt_contains]
  dsimp only
  omega

theorem Server.Placed.apart_iff (hp : srv.Placed) : srv.Apart ↔ ∀ sid sid' session session',
    srv.sessions.lookup sid = some session → srv.sessions.lookup sid' = some session' →
      session.window.outer.r = session'.window.outer.r → sid = sid' := by
  constructor
  · intro h sid sid' session session' hs hs' heq
    obtain ⟨n, hn⟩ := hp sid session hs
    have hcorner := windowAt_corner n
    rw [← hn] at hcorner
    by_contra hne
    exact (h sid sid' session session' hs hs' hne _ hcorner).1 (heq ▸ hcorner)
  · intro h sid sid' session session' hs hs' hne p hin
    obtain ⟨n, hn⟩ := hp sid session hs
    obtain ⟨k, hk⟩ := hp sid' session' hs'
    have hnk : n ≠ k := by
      rintro rfl
      exact hne (h sid sid' session session' hs hs' (by rw [hn, hk]))
    rw [hn, windowAt_contains] at hin
    have hout : ¬session'.window.outer.r.Contains p := by
      rw [hk, windowAt_contains]
      omega
    refine ⟨hout, fun src dest hdest hmem => hout ?_⟩
    have hview : session'.window.outer.viewport = session'.window.outer.r := by rw [hk]; rfl
    obtain ⟨⟨hx, hy⟩, -⟩ := rectIntersect_inside hdest
    obtain ⟨hcols, hrows⟩ := hmem
    rw [hview] at hx hy
    exact ⟨by omega, by omega⟩

theorem step_apart (hp : srv.Placed) (ha : srv.Apart) (m : Message) :
    (srv.step m).Placed ∧ ((srv.step m).Apart ↔ srv.Vacant m) := by
  rcases step_cases srv m with ⟨hno, hkeeps⟩ | ⟨hattach, session, hw, hnone, heq⟩
  · refine ⟨fun sid session' h' => ?_, iff_of_true ?_ fun hattach => absurd hattach hno⟩
    · obtain ⟨session, h, hw⟩ := hkeeps sid session' h'
      rw [hw]
      exact hp sid session h
    · intro a b s t hs ht
      obtain ⟨s', hs', hsw⟩ := hkeeps a s hs
      obtain ⟨t', ht', htw⟩ := hkeeps b t ht
      rw [hsw, htw]
      exact ha a b s' t' hs' ht'
  have hsessions (sid : ℕ) (s : Session) : (srv.step m).sessions.lookup sid = some s ↔
      sid = m.sid ∧ s = session ∨ srv.sessions.lookup sid = some s := by
    rw [heq]
    by_cases hsid : sid = m.sid
    · rw [hsid, AList.lookup_insert, hnone]
      simp [eq_comm]
    · rw [AList.lookup_insert_ne hsid]
      simp [hsid]
  have hp' : (srv.step m).Placed := by
    intro sid s hs
    rcases (hsessions sid s).mp hs with ⟨-, rfl⟩ | hs
    · exact ⟨srv.numOfWindow, hw⟩
    · exact hp sid s hs
  refine ⟨hp', hp'.apart_iff.trans ?_⟩
  rw [Server.Vacant, ← hw]
  constructor
  · intro h _ sid s hs hr
    have hsid := h sid m.sid s session ((hsessions sid s).mpr (.inr hs)) ((hsessions _ _).mpr (.inl ⟨rfl, rfl⟩)) hr
    rw [hsid, hnone] at hs
    cases hs
  · intro h a b s t hs ht hr
    rcases (hsessions a s).mp hs with ⟨rfl, rfl⟩ | hs <;> rcases (hsessions b t).mp ht with ⟨rfl, rfl⟩ | ht
    · rfl
    · exact absurd hr.symm (h hattach b t ht)
    · exact absurd hr (h hattach a s hs)
    · exact hp.apart_iff.mp ha a b s t hs ht hr

theorem along_apart_iff (ms : List Message) (hp : srv.Placed) (ha : srv.Apart) :
    srv.Along (fun srv m => (srv.step m).Apart) ms ↔ srv.Along Server.Vacant ms := by
  induction ms generalizing srv with
  | nil => exact Iff.rfl
  | cons m ms ih =>
    obtain ⟨hp', hstep⟩ := step_apart hp ha m
    rw [Server.Along, Server.Along, hstep]
    exact and_congr_right fun hvacant => ih hp' (hstep.mpr hvacant)

def crowded : List Message :=
  [⟨1, .attach 1 Fs.noFid true true true⟩, ⟨2, .attach 1 Fs.noFid true true true⟩, ⟨1, .clunk 1⟩,
    ⟨3, .attach 1 Fs.noFid true true true⟩]

end Eotan.Hmi
