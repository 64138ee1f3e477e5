import Eotan.Pipe.Transfer

/-!
The loops of `if_read` and `if_write` end, whatever copies fail and whoever has left: each round of
`_read` that reports progress leaves fewer bytes to be read.
-/

namespace Eotan.Pipe

open List

def Request.Home (sid : ℕ) (i : Bool) (req : Request) : Prop := req.sid = sid ∧ req.channel = i

/-- An event about a request of the channel. The end of the file, an answer to a reader that has got
nothing, is reported only where the other end has no user, and no round raises SIGPIPE. -/
def Event.Fine (sid : ℕ) (i ended : Bool) : Event → Prop
  | .rread req => req.Home sid i ∧ (req.position = 0 → ended = true)
  | .rwrite req => req.Home sid i
  | .kill req signal => req.Home sid i ∧ signal = .segv
  | .readFault req | .writeFault req => req.Home sid i
  | .rattach _ | .rwalk | .ropen _ | .rclunk | .rerror _ => False

structure Channel.Sane (sid : ℕ) (i : Bool) (p : Channel) : Prop where
  good : p.Good
  reading : ∀ r ∈ p.readers, r.position < r.count
  readers : ∀ r ∈ p.readers, r.Home sid i
  writers : ∀ r ∈ p.writers, r.Home sid i

def Conn.Local (sid : ℕ) (i ended : Bool) (c : Conn) : Prop := ∀ e ∈ c.out, e.Fine sid i ended

variable {c c₁ c' : Conn} {req req' : Request}

theorem Conn.Local.emit {sid : ℕ} {i ended : Bool} (h : c.Local sid i ended) {e : Event}
    (he : e.Fine sid i ended) : (c.emit e).Local sid i ended :=
  forall_mem_append.mpr ⟨h, forall_mem_singleton.mpr he⟩

structure Conn.Same (c c' : Conn) : Prop where
  readers : c'.channel.readers = c.channel.readers
  writers : c'.channel.writers = c.channel.writers
  referCount : c'.channel.referCount = c.channel.referCount
  good : c.channel.Good → c'.channel.Good
  faults : c.faults = [] → c'.faults = []

theorem Conn.Same.refl (c : Conn) : c.Same c := ⟨rfl, rfl, rfl, id, id⟩

theorem Conn.Same.trans {c2 c3 : Conn} (h1 : c₁.Same c2) (h2 : c2.Same c3) : c₁.Same c3 :=
  ⟨h2.readers.trans h1.readers, h2.writers.trans h1.writers, h2.referCount.trans h1.referCount,
    fun h => h2.good (h1.good h), fun h => h2.faults (h1.faults h)⟩

theorem Conn.Same.emit (h : c.Same c') (e : Event) : c.Same (c'.emit e) := h.trans ⟨rfl, rfl, rfl, id, id⟩

section Copies

variable {sid : ℕ} {i ended : Bool}

def Copies (copy : Conn → Request → ℕ → Option Request × Conn) (fault : Request → Event) : Prop :=
  ∀ c req len,
    (c.faults ≠ [] ∧ ∃ faults, copy c req len = (none, c.refuse req (fault req) faults)) ∨
    ∃ req' c', copy c req len = (some req', c') ∧ c.Same c' ∧ c'.out = c.out ∧
      req'.ident = req.ident ∧ req'.position = req.position + len

theorem Request.Home.of_ident (h : req.Home sid i) (hident : req'.ident = req.ident) : req'.Home sid i := by
  have hsid := congrArg Request.sid hident
  have hchannel := congrArg Request.channel hident
  exact ⟨Eq.trans hsid h.1, Eq.trans hchannel h.2⟩

theorem copies_put : Copies Conn.put .readFault := by
  intro c req len
  unfold Conn.put
  split
  · rename_i faults hfaults
    exact .inl ⟨by rw [hfaults]; simp, faults, rfl⟩
  · refine .inr ⟨_, _, rfl, ⟨rfl, rfl, rfl, fun h => ?_, fun h => by simp [h]⟩, rfl, rfl, rfl⟩
    exact ⟨Nat.mod_lt _ pageSize_pos, h.write⟩

theorem copies_get : Copies Conn.get .writeFault := by
  intro c req len
  unfold Conn.get
  split
  · rename_i faults hfaults
    exact .inl ⟨by rw [hfaults]; simp, faults, rfl⟩
  · refine .inr ⟨_, _, rfl, ⟨rfl, rfl, rfl, fun h => ?_, fun h => by simp [h]⟩, rfl, rfl, rfl⟩
    exact ⟨h.read, Nat.mod_lt _ pageSize_pos⟩

theorem refuse_local (h : c.Local sid i ended) (hreq : req.Home sid i)
    {answer : Event} (hanswer : answer.Fine sid i ended) (faults : List Bool) :
    (c.refuse req answer faults).Local sid i ended := by
  have hkill : ({ c with faults := faults }.emit (.kill req .segv)).Local sid i ended :=
    Conn.Local.emit h ⟨hreq, rfl⟩
  exact hkill.emit hanswer

inductive TurnOk (sid : ℕ) (i ended : Bool) (c : Conn) (req : Request) : Turn → Prop where
  | gone {moved : Bool} {c' : Conn} (same : c.Same c') (out : c'.Local sid i ended) :
    TurnOk sid i ended c req (.gone moved c')
  | left {req' : Request} {moved : Bool} {c' : Conn} (same : c.Same c') (out : c'.Local sid i ended)
    (home : req'.Home sid i) (count : req'.count = req.count)
    (position : req.position ≤ req'.position)
    (waiting : req.position < req.count → req'.position < req'.count) :
    TurnOk sid i ended c req (.left req' moved c')

inductive Serves (copy : Conn → Request → ℕ → Option Request × Conn) (fault answer : Request → Event)
    (c : Conn) (req : Request) (moved : Bool) (len : ℕ) : Turn → Prop where
  | refused {faults : List Bool} (hne : c.faults ≠ []) :
    Serves copy fault answer c req moved len (.gone moved (c.refuse req (fault req) faults))
  | done {req' : Request} {c' : Conn} (same : c.Same c') (out : c'.out = c.out)
    (ident : req'.ident = req.ident) (position : req.count ≤ req'.position) :
    Serves copy fault answer c req moved len (.gone true (c'.emit (answer req')))
  | left {req' : Request} {c' : Conn} (hcopy : copy c req len = (some req', c')) (same : c.Same c')
    (out : c'.out = c.out) (ident : req'.ident = req.ident) (position : req'.position = req.position + len)
    (more : req'.position < req'.count) : Serves copy fault answer c req moved len (.left req' true c')

section Runs

variable {copy : Conn → Request → ℕ → Option Request × Conn} {fault answer : Request → Event}
  {moved : Bool} {len : ℕ} (hcopy : Copies copy fault)
include hcopy

theorem serveRun_serves (answer : Request → Event) (c : Conn) (req : Request) (moved : Bool) (len : ℕ) :
    Serves copy fault answer c req moved len (serveRun copy answer req moved len c) := by
  unfold serveRun
  by_cases hrest : req.count - req.position ≤ len
  · simp only [if_pos hrest]
    obtain ⟨hne, faults, heq⟩ | ⟨req', c', heq, hsame, hout, hident, hposition⟩ :=
      hcopy c req (req.count - req.position)
    · rw [heq]
      exact .refused hne
    · rw [heq]
      exact .done hsame hout hident (by omega)
  · simp only [if_neg hrest]
    obtain ⟨hne, faults, heq⟩ | ⟨req', c', heq, hsame, hout, hident, hposition⟩ := hcopy c req len
    · rw [heq]
      exact .refused hne
    · rw [heq]
      have hcount := Request.count_of_ident hident
      exact .left heq hsame hout hident hposition (by omega)

theorem serveRun_left {moved' : Bool} (h : serveRun copy answer req moved len c = .left req' moved' c') :
    moved' = true ∧ copy c req len = (some req', c') ∧ req'.position = req.position + len := by
  have hserves := serveRun_serves hcopy answer c req moved len
  rw [h] at hserves
  cases hserves with
  | left hcopy _ _ _ position => exact ⟨rfl, hcopy, position⟩

theorem serveRun_ok (hfault : (fault req).Fine sid i ended)
    (hanswer : ∀ r, r.Home sid i → req.count ≤ r.position → (answer r).Fine sid i ended)
    (hreq : req.Home sid i) (hc : c.Local sid i ended) :
    TurnOk sid i ended c req (serveRun copy answer req moved len c) := by
  have hlocal {c' : Conn} (hout : c'.out = c.out) : c'.Local sid i ended := by
    unfold Conn.Local
    rw [hout]
    exact hc
  have hserves := serveRun_serves hcopy answer c req moved len
  generalize serveRun copy answer req moved len c = t at hserves ⊢
  cases hserves with
  | refused hne => exact .gone ⟨rfl, rfl, rfl, id, fun h => absurd h hne⟩ (refuse_local hc hreq hfault _)
  | done same out ident position =>
    apply TurnOk.gone (same.emit _)
    exact (hlocal out).emit (hanswer _ (hreq.of_ident ident) position)
  | left _ same out ident position more =>
    exact .left same (hlocal out) (hreq.of_ident ident) (Request.count_of_ident ident) (by omega) fun _ => more

end Runs

end Copies

section Turns

variable {sid : ℕ} {i ended : Bool}

theorem TurnOk.stay (hc : c.Local sid i ended) (hreq : req.Home sid i) (moved : Bool) :
    TurnOk sid i ended c req (.left req moved c) := .left (Conn.Same.refl c) hc hreq rfl le_rfl id

theorem TurnOk.bind {t : Turn} {f : Request → Bool → Conn → Turn} (h : TurnOk sid i ended c req t)
    (hf : ∀ r m c', r.Home sid i → r.count = req.count → c'.Local sid i ended → TurnOk sid i ended c' r (f r m c')) :
    TurnOk sid i ended c req (match t with
      | .gone moved c => .gone moved c | .left req moved c => f req moved c) := by
  cases h with
  | gone same out => exact .gone same out
  | @left r m c' same out home count position waiting =>
    have hnext := hf r m c' home count out
    change TurnOk sid i ended c req (f r m c')
    generalize f r m c' = t at hnext ⊢
    cases hnext with
    | gone same' out' => exact .gone (same.trans same') out'
    | left same' out' home' count' position' waiting' =>
      exact .left (same.trans same') out' home' (count'.trans count) (position.trans position')
        fun h => waiting' (waiting h)

theorem readTurn_ok (hc : c.Local sid i ended) (hreq : req.Home sid i) (hcount : 0 < req.count) :
    TurnOk sid i ended c req (readTurn req c) := by
  have hanswer {n : ℕ} (hn : 0 < n) (r : Request) (hhome : r.Home sid i) (hle : n ≤ r.position) :
      (Event.rread r).Fine sid i ended := ⟨hhome, fun hzero => by omega⟩
  unfold readTurn
  apply TurnOk.bind
  · split_ifs
    · exact serveRun_ok copies_put hreq (hanswer hcount) hreq hc
    · exact .stay hc hreq false
  · intro r m c' hr hsame hc'
    split_ifs
    · exact serveRun_ok copies_put hr (hanswer (hsame ▸ hcount)) hr hc'
    · exact .stay hc' hr m

theorem readTurn_advance (hgood : c.channel.Good) (h : readTurn req c = .left req' true c') :
    req.position < req'.position := by
  have hr := hgood.read
  unfold readTurn at h
  split at h
  · cases h
  rename_i r m c₁ hfirst
  have hstart : req.position ≤ r.position ∧ (m = true → req.position < r.position) := by
    split_ifs at hfirst
    · obtain ⟨-, -, hposition⟩ := serveRun_left copies_put hfirst
      omega
    · cases hfirst
      exact ⟨le_rfl, nofun⟩
  split_ifs at h
  · obtain ⟨-, -, hposition⟩ := serveRun_left copies_put h
    omega
  · cases h
    exact hstart.2 rfl

theorem writeTurn_ok (hc : c.Local sid i ended) (hreq : req.Home sid i) :
    TurnOk sid i ended c req (writeTurn req c) := by
  unfold writeTurn
  apply TurnOk.bind
  · by_cases hup : c.channel.readPosition ≤ c.channel.writePosition
    · rw [if_pos hup]
      exact serveRun_ok copies_get hreq (fun _ hhome _ => hhome) hreq hc
    · rw [if_neg hup]
      exact .stay hc hreq false
  · intro r m c' hr _ hc'
    split_ifs
    · exact serveRun_ok copies_get hr (fun _ hhome _ => hhome) hr hc'
    · exact .stay hc' hr m

end Turns

/-- For a property `P` before each turn of `_read`, `Q` before each of `_write` and `E` at the end. -/
theorem rounds_rule {ended : Bool} {P Q E : Conn → Prop}
    (hread : ∀ c, P c → ∃ moved c', c.read ended = (moved, c') ∧ (moved = false → E c') ∧
      (moved = true → Q c' ∧ unread c'.channel < unread c.channel))
    (hwrite : ∀ c, Q c → ∃ moved c', c.write = (moved, c') ∧ (moved = false → E c') ∧
      P c' ∧ unread c'.channel = unread c.channel) :
    (∀ n c, P c → unread c.channel < n → ∃ c', readRounds ended n c = some c' ∧ E c') ∧
      ∀ n c, Q c → unread c.channel < n → ∃ c', writeRounds ended n c = some c' ∧ E c' := by
  constructor
  · intro n
    induction n with
    | zero => exact fun c _ hn => absurd hn (Nat.not_lt_zero _)
    | succ n ih =>
      intro c hc hn
      obtain ⟨moved, c₁, heq, hend, hgo⟩ := hread c hc
      rw [readRounds, heq]
      cases moved with
      | false => exact ⟨c₁, rfl, hend rfl⟩
      | true =>
        obtain ⟨hc1, hless⟩ := hgo rfl
        obtain ⟨moved, c2, heq, hend, hc2, hsame⟩ := hwrite c₁ hc1
        simp only [heq]
        cases moved with
        | false => exact ⟨c2, rfl, hend rfl⟩
        | true => exact ih c2 hc2 (by omega)
  · intro n
    induction n with
    | zero => exact fun c _ hn => absurd hn (Nat.not_lt_zero _)
    | succ n ih =>
      intro c hc hn
      obtain ⟨moved, c₁, heq, hend, hc1, hsame⟩ := hwrite c hc
      rw [writeRounds, heq]
      cases moved with
      | false => exact ⟨c₁, rfl, hend rfl⟩
      | true =>
        obtain ⟨moved, c2, heq, hend, hgo⟩ := hread c₁ hc1
        simp only [heq]
        cases moved with
        | false => exact ⟨c2, rfl, hend rfl⟩
        | true =>
          obtain ⟨hc2, hless⟩ := hgo rfl
          exact ih c2 hc2 (by omega)

structure LoopOk (sid : ℕ) (i ended : Bool) (c : Conn) (l l' : List Request) (c' : Conn) : Prop where
  same : c.Same c'
  out : c'.Local sid i ended
  home : ∀ r ∈ l', r.Home sid i
  waiting : (∀ r ∈ l, r.position < r.count) → ∀ r ∈ l', r.position < r.count
  bound : rests l' ≤ rests l

section Loops

variable {sid : ℕ} {i ended : Bool}

theorem LoopOk.cons {l l' : List Request} (hsame : c.Same c₁)
    (h : LoopOk sid i ended c₁ l l' c') (req : Request) : LoopOk sid i ended c (req :: l) l' c' where
  same := hsame.trans h.same
  out := h.out
  home := h.home
  waiting := fun hl => h.waiting fun r hr => hl r (mem_cons_of_mem req hr)
  bound := by
    have := h.bound
    simp only [rests, map_cons, sum_cons] at this ⊢
    omega

theorem LoopOk.stop {rest : List Request} (hsame : c.Same c')
    (hout : c'.Local sid i ended) (hhome : req'.Home sid i) (hcount : req'.count = req.count)
    (hposition : req.position ≤ req'.position) (hwaiting : req.position < req.count → req'.position < req'.count)
    (hrest : ∀ r ∈ rest, r.Home sid i) : LoopOk sid i ended c (req :: rest) (req' :: rest) c' where
  same := hsame
  out := hout
  home := forall_mem_cons.mpr ⟨hhome, hrest⟩
  waiting := by
    intro hl
    rw [forall_mem_cons] at hl ⊢
    exact ⟨hwaiting hl.1, hl.2⟩
  bound := by
    simp only [rests, map_cons, sum_cons]
    omega

theorem readLoop_ok (l : List Request) (hgood : c.channel.Good)
    (hc : c.Local sid i ended) (hl : ∀ r ∈ l, r.Home sid i) (hwaiting : ∀ r ∈ l, r.position < r.count) :
    ∃ moved l' c', readLoop ended l c = (moved, l', c') ∧ LoopOk sid i ended c l l' c' ∧
      (moved = true → rests l' < rests l) := by
  induction l generalizing c with
  | nil =>
    refine ⟨false, [], c, rfl, ⟨Conn.Same.refl c, hc, by simp, by simp, le_rfl⟩, ?_⟩
    intro h
    cases h
  | cons req rest ih =>
    rw [forall_mem_cons] at hl hwaiting
    have hreq := hwaiting.1
    have hok := readTurn_ok hc hl.1 (Nat.zero_lt_of_lt hreq)
    rw [readLoop]
    cases hturn : readTurn req c with
    | gone moved c₁ =>
      rw [hturn] at hok
      cases hok with
      | gone same out =>
        obtain ⟨again, l', c', heq, hloop, -⟩ := ih (same.good hgood) out hl.2 hwaiting.2
        refine ⟨moved || again, l', c', by simp only [heq], hloop.cons same req, ?_⟩
        intro _
        have := hloop.bound
        simp only [rests, map_cons, sum_cons] at this ⊢
        omega
    | left req' moved c₁ =>
      rw [hturn] at hok
      cases hok with
      | left same out home count position waiting =>
        have hstop := LoopOk.stop same out home count position waiting hl.2
        have hadvance : moved = true → req.position < req'.position := by
          intro htrue
          subst htrue
          exact readTurn_advance hgood hturn
        have hless : moved = true → rests (req' :: rest) < rests (req :: rest) := by
          intro htrue
          have := hadvance htrue
          simp only [rests, map_cons, sum_cons]
          omega
        simp only
        split_ifs with _ hanswer
        · exact ⟨moved, req' :: rest, c₁, rfl, hstop, hless⟩
        · refine ⟨moved, rest, c₁.emit (.rread req'), rfl, ⟨same.emit _, ?_,
            hl.2, ?_, ?_⟩, ?_⟩
          · refine out.emit ⟨home, fun hzero => ?_⟩
            rcases Bool.or_eq_true _ _ ▸ hanswer with hm | hended
            · have := hadvance hm
              omega
            · exact hended
          · intro _
            exact hwaiting.2
          · simp only [rests, map_cons, sum_cons]
            omega
          · intro _
            simp only [rests, map_cons, sum_cons]
            omega
        · exact ⟨moved, req' :: rest, c₁, rfl, hstop, hless⟩

theorem writeLoop_ok (l : List Request) (hc : c.Local sid i ended) (hl : ∀ r ∈ l, r.Home sid i) :
    ∃ moved l' c', writeLoop l c = (moved, l', c') ∧ LoopOk sid i ended c l l' c' := by
  induction l generalizing c with
  | nil => exact ⟨false, [], c, rfl, ⟨Conn.Same.refl c, hc, by simp, by simp, le_rfl⟩⟩
  | cons req rest ih =>
    rw [forall_mem_cons] at hl
    have hok := writeTurn_ok hc hl.1
    rw [writeLoop]
    cases hturn : writeTurn req c with
    | gone moved c₁ =>
      rw [hturn] at hok
      cases hok with
      | gone same out =>
        obtain ⟨again, l', c', heq, hloop⟩ := ih out hl.2
        exact ⟨moved || again, l', c', by simp only [heq], hloop.cons same req⟩
    | left req' moved c₁ =>
      rw [hturn] at hok
      cases hok with
      | left same out home count position waiting =>
        exact ⟨moved, req' :: rest, c₁, rfl, LoopOk.stop same out home count position waiting hl.2⟩

structure Conn.Steady (c c' : Conn) : Prop where
  referCount : c'.channel.referCount = c.channel.referCount
  faults : c.faults = [] → c'.faults = []

theorem Conn.Steady.trans {c2 c3 : Conn} (h1 : c₁.Steady c2) (h2 : c2.Steady c3) : c₁.Steady c3 :=
  ⟨h2.referCount.trans h1.referCount, fun h => h2.faults (h1.faults h)⟩

structure Conn.Sane (sid : ℕ) (i ended : Bool) (c : Conn) : Prop where
  channel : c.channel.Sane sid i
  out : c.Local sid i ended

theorem read_sane (h : c.Sane sid i ended) :
    ∃ moved c', c.read ended = (moved, c') ∧ c'.Sane sid i ended ∧ c.Steady c' ∧
      (moved = true → unread c'.channel < unread c.channel) := by
  obtain ⟨moved, l', c', heq, hloop, hless⟩ :=
    readLoop_ok c.channel.readers h.channel.good h.out h.channel.readers h.channel.reading
  have hgood := hloop.same.good h.channel.good
  refine ⟨moved, { c' with channel := { c'.channel with readers := l' } }, ?_,
    ⟨⟨{ hgood with }, hloop.waiting h.channel.reading, hloop.home, ?_⟩, hloop.out⟩,
    ⟨hloop.same.referCount, hloop.same.faults⟩, hless⟩
  · unfold Conn.read
    rw [heq]
  · simp only
    rw [hloop.same.writers]
    exact h.channel.writers

theorem write_sane (h : c.Sane sid i ended) :
    ∃ moved c', c.write = (moved, c') ∧ c'.Sane sid i ended ∧ c.Steady c' ∧
      unread c'.channel = unread c.channel := by
  obtain ⟨moved, l', c', heq, hloop⟩ := writeLoop_ok c.channel.writers h.out h.channel.writers
  have hgood := hloop.same.good h.channel.good
  refine ⟨moved, { c' with channel := { c'.channel with writers := l' } }, ?_,
    ⟨⟨{ hgood with }, ?_, ?_, hloop.home⟩, hloop.out⟩,
    ⟨hloop.same.referCount, hloop.same.faults⟩, ?_⟩
  · unfold Conn.write
    rw [heq]
  · simp only
    rw [hloop.same.readers]
    exact h.channel.reading
  · simp only
    rw [hloop.same.readers]
    exact h.channel.readers
  · simp only [unread]
    rw [hloop.same.readers]

theorem rounds_sane (c0 : Conn) : (∀ n c, c.Sane sid i ended ∧ c0.Steady c → unread c.channel < n →
      ∃ c', readRounds ended n c = some c' ∧ c'.Sane sid i ended ∧ c0.Steady c') ∧
    ∀ n c, c.Sane sid i ended ∧ c0.Steady c → unread c.channel < n →
      ∃ c', writeRounds ended n c = some c' ∧ c'.Sane sid i ended ∧ c0.Steady c' := by
  apply rounds_rule
  · rintro c ⟨hc, hsteady⟩
    obtain ⟨moved, c', hread, hsane, hsteady', hless⟩ := read_sane hc
    have hboth := And.intro hsane (hsteady.trans hsteady')
    exact ⟨moved, c', hread, fun _ => hboth, fun hmoved => ⟨hboth, hless hmoved⟩⟩
  · rintro c ⟨hc, hsteady⟩
    obtain ⟨moved, c', hwrite, hsane, hsteady', hsame⟩ := write_sane hc
    have hboth := And.intro hsane (hsteady.trans hsteady')
    exact ⟨moved, c', hwrite, fun _ => hboth, hboth, hsame⟩

end Loops

end Eotan.Pipe
