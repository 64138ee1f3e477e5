import Eotan.Pipe.Rounds
import Mathlib.Algebra.Order.Group.Multiset

namespace Eotan.Pipe

open Channel
open List

def Event.answers : Event → Multiset Request
  | .rread req | .rwrite req | .readFault req | .writeFault req => {req.ident}
  | _ => 0

def answered (out : List Event) : Multiset Request := (out.map Event.answers).sum

@[simp]
theorem answered_nil : answered [] = 0 := rfl

@[simp]
theorem answered_cons (e : Event) (out : List Event) : answered (e :: out) = e.answers + answered out := by
  rw [answered, map_cons, sum_cons]
  rfl

@[simp]
theorem answered_append (out out' : List Event) : answered (out ++ out') = answered out + answered out' := by
  rw [answered, map_append, sum_append]
  rfl

def idents (l : List Request) : Multiset Request := (l.map Request.ident : List Request)

@[simp]
theorem idents_nil : idents [] = 0 := rfl

@[simp]
theorem idents_cons (req : Request) (l : List Request) : idents (req :: l) = {req.ident} + idents l := by
  rw [idents, map_cons, ← Multiset.cons_coe, Multiset.singleton_add]
  rfl

@[simp]
theorem idents_append (l l' : List Request) : idents (l ++ l') = idents l + idents l' := by
  rw [idents, map_append, ← Multiset.coe_add]
  rfl

theorem length_le_of_idents {done : Multiset Request} {l l' : List Request} (h : done + idents l' = idents l) :
    l'.length ≤ l.length := by
  have hcard := congrArg Multiset.card h
  simp only [idents, Multiset.card_add, Multiset.coe_card, length_map] at hcard
  omega

def Channel.waiting (p : Channel) : Multiset Request := idents p.readers + idents p.writers

structure Conn.Sends (c c' : Conn) (done : Multiset Request) : Prop where
  same : c.Same c'
  out : ∃ added, c'.out = c.out ++ added ∧ answered added = done

theorem Conn.Sends.refl (c : Conn) : c.Sends c 0 := by
  refine ⟨Conn.Same.refl c, [], ?_, rfl⟩
  rw [append_nil]

theorem Conn.Sends.trans {c1 c2 c3 : Conn} {l1 l2 : Multiset Request} (h1 : c1.Sends c2 l1)
    (h2 : c2.Sends c3 l2) : c1.Sends c3 (l1 + l2) := by
  obtain ⟨a1, hout1, hdone1⟩ := h1.out
  obtain ⟨a2, hout2, hdone2⟩ := h2.out
  refine ⟨h1.same.trans h2.same, a1 ++ a2, ?_, ?_⟩
  · rw [hout2, hout1, append_assoc]
  · rw [answered_append, hdone1, hdone2]

variable {c c' : Conn}

theorem Conn.Sends.emit {l : Multiset Request} (h : c.Sends c' l) (e : Event) :
    c.Sends (c'.emit e) (l + e.answers) := by
  apply h.trans
  refine ⟨(Conn.Same.refl c').emit e, [e], rfl, ?_⟩
  rw [answered_cons, answered_nil, add_zero]

theorem Conn.Sends.mem {l : Multiset Request} (h : c.Sends c' l) {e : Event} (he : e ∈ c.out) : e ∈ c'.out := by
  obtain ⟨added, hout, -⟩ := h.out
  rw [hout]
  exact mem_append_left added he

inductive Turned (c : Conn) (req : Request) : Turn → Prop where
  | gone {moved : Bool} {c' : Conn} (sends : c.Sends c' {req.ident}) : Turned c req (.gone moved c')
  | left {req' : Request} {moved : Bool} {c' : Conn} (sends : c.Sends c' 0)
    (ident : req'.ident = req.ident) : Turned c req (.left req' moved c')

theorem Turned.after {req req' : Request} {t : Turn} (hsends : c.Sends c' 0)
    (hident : req'.ident = req.ident) (h : Turned c' req' t) : Turned c req t := by
  cases h with
  | gone sends =>
    rw [hident] at sends
    have htrans := hsends.trans sends
    rw [zero_add] at htrans
    exact .gone htrans
  | left sends ident => exact .left (hsends.trans sends) (ident.trans hident)

section Runs

variable {copy : Conn → Request → ℕ → Option Request × Conn} {fault answer : Request → Event}
  {c c' : Conn} {req req' : Request} {moved moved' : Bool} {len : ℕ} (hcopy : Copies copy fault)
include hcopy

theorem serveRun_turned (hfault : ∀ r, (fault r).answers = {r.ident})
    (hanswer : ∀ r, (answer r).answers = {r.ident}) : Turned c req (serveRun copy answer req moved len c) := by
  have hsends {c1 : Conn} (hsame : c.Same c1) (hout : c1.out = c.out) :
      c.Sends c1 0 := ⟨hsame, [], by rw [hout, append_nil], rfl⟩
  have hserves := serveRun_serves hcopy answer c req moved len
  generalize serveRun copy answer req moved len c = t at hserves ⊢
  cases hserves with
  | refused hne =>
    refine .gone ⟨⟨rfl, rfl, rfl, id, fun h => absurd h hne⟩, [.kill req .segv, fault req], ?_, ?_⟩
    · simp [Conn.refuse, Conn.emit]
    · rw [answered_cons, answered_cons, answered_nil, hfault, add_zero]
      exact zero_add _
  | @done r c1 same out ident =>
    have hemit := (hsends same out).emit (answer r)
    rw [hanswer, ident, zero_add] at hemit
    exact .gone hemit
  | left _ same out ident => exact .left (hsends same out) ident

theorem serveRun_idle (h : serveRun copy answer req moved len c = .gone false c') :
    moved = false ∧ ∃ faults, c' = c.refuse req (fault req) faults := by
  have hserves := serveRun_serves hcopy answer c req moved len
  rw [h] at hserves
  cases hserves with
  | refused => exact ⟨rfl, _, rfl⟩

end Runs

section Turns

variable {c c' : Conn} {req req' : Request} {moved ended : Bool}

theorem Turned.bind {t : Turn} {f : Request → Bool → Conn → Turn} :
    Turned c req t → (∀ r m c1, Turned c1 r (f r m c1)) → Turned c req (match t with
      | .gone moved c => .gone moved c | .left req moved c => f req moved c) := by
  intro h hf
  cases h with
  | gone sends => exact .gone sends
  | left sends ident => exact Turned.after sends ident (hf _ _ _)

theorem readTurn_turned : Turned c req (readTurn req c) := by
  unfold readTurn
  apply Turned.bind
  · split_ifs
    · exact serveRun_turned copies_put (fun _ => rfl) fun _ => rfl
    · exact .left (Conn.Sends.refl c) rfl
  · intro r m c1
    split_ifs
    · exact serveRun_turned copies_put (fun _ => rfl) fun _ => rfl
    · exact .left (Conn.Sends.refl c1) rfl

theorem writeTurn_turned : Turned c req (writeTurn req c) := by
  unfold writeTurn
  apply Turned.bind
  · by_cases hup : c.channel.readPosition ≤ c.channel.writePosition
    · rw [if_pos hup]
      exact serveRun_turned copies_get (fun _ => rfl) fun _ => rfl
    · rw [if_neg hup]
      exact .left (Conn.Sends.refl c) rfl
  · intro r m c1
    split_ifs
    · exact serveRun_turned copies_get (fun _ => rfl) fun _ => rfl
    · exact .left (Conn.Sends.refl c1) rfl

theorem put_position {len : ℕ} (h : c.put req len = (some req', c')) :
    c'.channel = { c.channel with readPosition := (c.channel.readPosition + len) % pageSize } := by
  unfold Conn.put at h
  split at h
  · cases h
  · cases h
    rfl

theorem get_position {len : ℕ} (h : c.get req len = (some req', c')) :
    c'.channel.readPosition = c.channel.readPosition ∧
      c'.channel.writePosition = (c.channel.writePosition + len) % pageSize := by
  unfold Conn.get at h
  split at h
  · cases h
  · cases h
    exact ⟨rfl, rfl⟩

theorem used_eq_zero {p : Channel} (h : p.Good) : p.used = 0 ↔ p.readPosition = p.writePosition := by
  rw [used_eq h]
  have hr := h.read
  split_ifs <;> omega

theorem readTurn_left (hgood : c.channel.Good) (h : readTurn req c = .left req' moved c') :
    c'.channel.readPosition = c'.channel.writePosition ∧ (moved = false → c'.channel = c.channel) := by
  have hr := hgood.read
  have hw := hgood.write
  unfold readTurn at h
  by_cases hwrap : c.channel.writePosition < c.channel.readPosition
  · simp only [if_pos hwrap] at h
    split at h
    · cases h
    rename_i r1 m1 c1 hfirst
    obtain ⟨rfl, hput, -⟩ := serveRun_left copies_put hfirst
    have hchannel := put_position hput
    rw [Nat.add_sub_cancel' (Nat.le_of_lt hr), Nat.mod_self] at hchannel
    split_ifs at h with hmid
    · obtain ⟨rfl, hput2, -⟩ := serveRun_left copies_put h
      have hchannel2 := put_position hput2
      rw [hchannel2, hchannel]
      refine ⟨?_, fun h => by cases h⟩
      simp only [Nat.zero_add, Nat.sub_zero]
      exact Nat.mod_eq_of_lt hw
    · cases h
      rw [hchannel] at hmid ⊢
      refine ⟨?_, fun h => by cases h⟩
      simp only at hmid ⊢
      omega
  · simp only [if_neg hwrap] at h
    split_ifs at h with hmid
    · obtain ⟨rfl, hput2, -⟩ := serveRun_left copies_put h
      rw [put_position hput2]
      refine ⟨?_, fun h => by cases h⟩
      simp only
      rw [Nat.add_sub_cancel' (Nat.le_of_lt hmid)]
      exact Nat.mod_eq_of_lt hw
    · cases h
      exact ⟨by omega, fun _ => rfl⟩

theorem readTurn_idle (h : readTurn req c = .gone false c') : c'.channel = c.channel := by
  unfold readTurn at h
  split at h
  · rename_i m1 c1 hfirst
    cases h
    split_ifs at hfirst
    obtain ⟨-, faults, rfl⟩ := serveRun_idle copies_put hfirst
    rfl
  · rename_i r1 m1 c1 hfirst
    split_ifs at h
    obtain ⟨rfl, faults, rfl⟩ := serveRun_idle copies_put h
    split_ifs at hfirst
    · obtain ⟨htrue, -⟩ := serveRun_left copies_put hfirst
      cases htrue
    · cases hfirst
      rfl

theorem writeTurn_left (hgood : c.channel.Good) (h : writeTurn req c = .left req' moved c') :
    c'.channel.Full := by
  have hfull {p : Channel} (hp : p.Good) (hone : p.readPosition = 0 → p.writePosition + 1 = pageSize)
      (hnext : p.readPosition ≠ 0 → p.writePosition + 1 = p.readPosition) : p.Full := by
    have hr := hp.read
    rw [Full, used_eq hp]
    by_cases hzero : p.readPosition = 0
    · have := hone hzero
      rw [if_pos (by omega)]
      omega
    · have := hnext hzero
      rw [if_neg (by omega)]
      omega
  have hr := hgood.read
  have hw := hgood.write
  unfold writeTurn at h
  by_cases hup : c.channel.readPosition ≤ c.channel.writePosition
  · simp only [if_pos hup] at h
    split at h
    · cases h
    rename_i r1 m1 c1 hfirst
    obtain ⟨rfl, hget, -⟩ := serveRun_left copies_get hfirst
    obtain ⟨hread, hwrite⟩ := get_position hget
    split_ifs at hwrite with hzero
    · rw [Nat.mod_eq_of_lt (by omega)] at hwrite
      rw [if_neg (by omega)] at h
      cases h
      apply hfull ⟨by omega, by omega⟩ <;> omega
    rw [Nat.sub_zero, Nat.add_sub_cancel' (Nat.le_of_lt hw), Nat.mod_self] at hwrite
    split_ifs at h with hmid
    · obtain ⟨rfl, hget2, -⟩ := serveRun_left copies_get h
      obtain ⟨hread2, hwrite2⟩ := get_position hget2
      rw [Nat.mod_eq_of_lt (by omega)] at hwrite2
      apply hfull ⟨by omega, by omega⟩ <;> omega
    · cases h
      apply hfull ⟨by omega, by omega⟩ <;> omega
  · simp only [if_neg hup] at h
    split_ifs at h with hmid
    · obtain ⟨rfl, hget, -⟩ := serveRun_left copies_get h
      obtain ⟨hread, hwrite⟩ := get_position hget
      rw [Nat.mod_eq_of_lt (by omega)] at hwrite
      apply hfull ⟨by omega, by omega⟩ <;> omega
    · cases h
      apply hfull hgood <;> omega

theorem writeTurn_empty (req : Request) (hempty : c.channel.readPosition = c.channel.writePosition) :
    (∀ r c1, writeTurn req c ≠ .left r false c1) ∧
      ∀ c1, writeTurn req c = .gone false c1 → .writeFault req ∈ c1.out := by
  have hfault {faults : List Bool} : .writeFault req ∈ (c.refuse req (.writeFault req) faults).out := by
    simp [Conn.refuse, Conn.emit]
  unfold writeTurn
  simp only [if_pos (Nat.le_of_eq hempty)]
  split
  · rename_i m1 c1 hfirst
    refine ⟨fun _ _ h => (by cases h), ?_⟩
    intro c2 h
    cases h
    obtain ⟨-, faults, rfl⟩ := serveRun_idle copies_get hfirst
    exact hfault
  · rename_i r1 m1 c1 hfirst
    obtain ⟨rfl, -⟩ := serveRun_left copies_get hfirst
    constructor
    · intro r c2 h
      split_ifs at h
      · obtain ⟨htrue, -⟩ := serveRun_left copies_get h
        cases htrue
      · cases h
    · intro c2 h
      split_ifs at h
      obtain ⟨htrue, -⟩ := serveRun_idle copies_get h
      cases htrue

end Turns

section Loops

variable {c c' : Conn} {moved ended : Bool} {l l' : List Request}

theorem readLoop_answers (hgood : c.channel.Good) (h : readLoop ended l c = (moved, l', c')) :
    (∃ done, c.Sends c' done ∧ done + idents l' = idents l) ∧
      (l' ≠ [] → c'.channel.readPosition = c'.channel.writePosition) ∧
      (moved = false → c'.channel = c.channel) := by
  induction l generalizing c moved with
  | nil =>
    cases h
    exact ⟨⟨0, Conn.Sends.refl _, rfl⟩, fun h => absurd rfl h, fun _ => rfl⟩
  | cons req rest ih =>
    have hturned : Turned c req (readTurn req c) := readTurn_turned
    rw [readLoop] at h
    cases hturn : readTurn req c with
    | gone m c1 =>
      rw [hturn] at hturned
      simp only [hturn] at h
      cases hturned with
      | gone sends =>
        rcases hrest : readLoop ended rest c1 with ⟨again, l1, c2⟩
        rw [hrest] at h
        cases h
        obtain ⟨⟨done, hsends, hdone⟩, hempty, hidle⟩ := ih (sends.same.good hgood) hrest
        refine ⟨⟨{req.ident} + done, sends.trans hsends, ?_⟩, hempty, ?_⟩
        · rw [add_assoc, hdone, idents_cons]
        · intro hmoved
          rw [Bool.or_eq_false_iff] at hmoved
          obtain ⟨rfl, hagain⟩ := hmoved
          rw [hidle hagain, readTurn_idle hturn]
    | left r m c1 =>
      rw [hturn] at hturned
      simp only [hturn] at h
      obtain ⟨hempty, hidle⟩ := readTurn_left hgood hturn
      cases hturned with
      | left sends ident =>
        have hstop : 0 + idents (r :: rest) = idents (req :: rest) := by
          rw [zero_add, idents_cons, idents_cons, ident]
        split_ifs at h
        · cases h
          exact ⟨⟨0, sends, hstop⟩, fun _ => hempty, hidle⟩
        · cases h
          refine ⟨⟨_, sends.emit _, ?_⟩, fun _ => hempty, hidle⟩
          rw [zero_add, idents_cons, ← ident]
          rfl
        · cases h
          exact ⟨⟨0, sends, hstop⟩, fun _ => hempty, hidle⟩

theorem writeLoop_answers (hgood : c.channel.Good) (h : writeLoop l c = (moved, l', c')) :
    (∃ done, c.Sends c' done ∧ done + idents l' = idents l) ∧ (l' ≠ [] → c'.channel.Full) := by
  induction l generalizing c moved with
  | nil =>
    cases h
    exact ⟨⟨0, Conn.Sends.refl _, rfl⟩, fun h => absurd rfl h⟩
  | cons req rest ih =>
    have hturned : Turned c req (writeTurn req c) := writeTurn_turned
    rw [writeLoop] at h
    cases hturn : writeTurn req c with
    | gone m c1 =>
      rw [hturn] at hturned
      simp only [hturn] at h
      cases hturned with
      | gone sends =>
        rcases hrest : writeLoop rest c1 with ⟨again, l1, c2⟩
        rw [hrest] at h
        cases h
        obtain ⟨⟨done, hsends, hdone⟩, hfull⟩ := ih (sends.same.good hgood) hrest
        refine ⟨⟨{req.ident} + done, sends.trans hsends, ?_⟩, hfull⟩
        rw [add_assoc, hdone, idents_cons]
    | left r m c1 =>
      rw [hturn] at hturned
      simp only [hturn] at h
      cases h
      cases hturned with
      | left sends ident =>
        refine ⟨⟨0, sends, ?_⟩, fun _ => writeTurn_left hgood hturn⟩
        rw [zero_add, idents_cons, idents_cons, ident]

theorem readLoop_ended (hlength : l.length ≤ 1) (hwriters : c.channel.writers = [])
    (h : readLoop true l c = (moved, l', c')) : l' = [] := by
  obtain _ | ⟨req, rest⟩ := l
  · cases h
    rfl
  obtain rfl : rest = [] := length_eq_zero_iff.mp (by simpa using hlength)
  have hturned : Turned c req (readTurn req c) := readTurn_turned
  rw [readLoop] at h
  cases hturn : readTurn req c with
  | gone m c1 =>
    simp only [hturn, readLoop] at h
    cases h
    rfl
  | left r m c1 =>
    rw [hturn] at hturned
    simp only [hturn] at h
    cases hturned with
    | left sends ident =>
      rw [if_neg (by rw [sends.same.writers, hwriters]; simp), if_pos (Bool.or_true m)] at h
      cases h
      rfl

theorem writeLoop_empty (hgood : c.channel.Good) (hempty : c.channel.readPosition = c.channel.writePosition)
    (hl : l ≠ []) (h : writeLoop l c = (false, l', c')) : ∃ req, .writeFault req ∈ c'.out := by
  obtain _ | ⟨req, rest⟩ := l
  · exact absurd rfl hl
  obtain ⟨hleft, hgone⟩ := writeTurn_empty req hempty
  have hturned : Turned c req (writeTurn req c) := writeTurn_turned
  rw [writeLoop] at h
  cases hturn : writeTurn req c with
  | gone m c1 =>
    rw [hturn] at hturned
    simp only [hturn] at h
    rcases hrest : writeLoop rest c1 with ⟨again, l1, c2⟩
    rw [hrest] at h
    simp only [Prod.mk.injEq, Bool.or_eq_false_iff] at h
    obtain ⟨⟨rfl, -⟩, rfl, rfl⟩ := h
    cases hturned with
    | gone sends =>
      obtain ⟨⟨done, hsends, -⟩, -⟩ := writeLoop_answers (sends.same.good hgood) hrest
      exact ⟨req, hsends.mem (hgone c1 hturn)⟩
  | left r m c1 =>
    simp only [hturn] at h
    cases h
    exact absurd hturn (hleft r c')

end Loops

structure Conn.Accounts (c c' : Conn) : Prop where
  referCount : c'.channel.referCount = c.channel.referCount
  good : c.channel.Good → c'.channel.Good
  readers : c.channel.readers = [] → c'.channel.readers = []
  writers : c.channel.writers = [] → c'.channel.writers = []
  out : ∃ added, c'.out = c.out ++ added ∧
    answered added + c'.channel.waiting = c.channel.waiting

theorem Conn.Accounts.refl (c : Conn) : c.Accounts c :=
  ⟨rfl, id, id, id, [], (append_nil _).symm, zero_add _⟩

theorem Conn.Accounts.trans {c1 c2 c3 : Conn} (h1 : c1.Accounts c2) (h2 : c2.Accounts c3) : c1.Accounts c3 := by
  obtain ⟨a1, hout1, hdone1⟩ := h1.out
  obtain ⟨a2, hout2, hdone2⟩ := h2.out
  refine ⟨h2.referCount.trans h1.referCount, fun h => h2.good (h1.good h),
    fun h => h2.readers (h1.readers h), fun h => h2.writers (h1.writers h), a1 ++ a2, ?_, ?_⟩
  · rw [hout2, hout1, append_assoc]
  · rw [answered_append, add_assoc, hdone2, hdone1]

section Rounds

variable {c c' : Conn} {moved ended : Bool} {n : ℕ}

theorem read_loop (h : c.read ended = (moved, c')) :
    ∃ c1, readLoop ended c.channel.readers c = (moved, c'.channel.readers, c1) ∧
      c' = { c1 with channel := { c1.channel with readers := c'.channel.readers } } := by
  unfold Conn.read at h
  rcases hloop : readLoop ended c.channel.readers c with ⟨m, l, c1⟩
  rw [hloop] at h
  cases h
  exact ⟨c1, rfl, rfl⟩

theorem write_loop (h : c.write = (moved, c')) :
    ∃ c1, writeLoop c.channel.writers c = (moved, c'.channel.writers, c1) ∧
      c' = { c1 with channel := { c1.channel with writers := c'.channel.writers } } := by
  unfold Conn.write at h
  rcases hloop : writeLoop c.channel.writers c with ⟨m, l, c1⟩
  rw [hloop] at h
  cases h
  exact ⟨c1, rfl, rfl⟩

theorem read_accounts (hgood : c.channel.Good) (h : c.read ended = (moved, c')) : c.Accounts c' ∧
    c'.channel.writers = c.channel.writers ∧ c'.channel.readers.length ≤ c.channel.readers.length := by
  obtain ⟨c1, hloop, heq⟩ := read_loop h
  obtain ⟨⟨done, hsends, hdone⟩, -⟩ := readLoop_answers hgood hloop
  obtain ⟨added, hout, hadded⟩ := hsends.out
  have hgood1 := hsends.same.good hgood
  have hlength := length_le_of_idents hdone
  have hwriters : c'.channel.writers = c.channel.writers := by
    rw [heq]
    exact hsends.same.writers
  refine ⟨⟨?_, ?_, ?_, fun hnil => hwriters.trans hnil, added, ?_, ?_⟩, hwriters, hlength⟩
  · rw [heq]
    exact hsends.same.referCount
  · rw [heq]
    exact fun _ => { hgood1 with }
  · intro hnil
    rw [hnil] at hlength
    exact length_eq_zero_iff.mp (Nat.le_zero.mp hlength)
  · rw [heq]
    exact hout
  · rw [hadded, Channel.waiting, ← add_assoc, hdone, hwriters]
    rfl

theorem write_accounts (hgood : c.channel.Good) (h : c.write = (moved, c')) :
    c.Accounts c' ∧ c'.channel.readers = c.channel.readers := by
  obtain ⟨c1, hloop, heq⟩ := write_loop h
  obtain ⟨⟨done, hsends, hdone⟩, -⟩ := writeLoop_answers hgood hloop
  obtain ⟨added, hout, hadded⟩ := hsends.out
  have hgood1 := hsends.same.good hgood
  have hreaders : c'.channel.readers = c.channel.readers := by
    rw [heq]
    exact hsends.same.readers
  refine ⟨⟨?_, ?_, fun hnil => hreaders.trans hnil, ?_, added, ?_, ?_⟩, hreaders⟩
  · rw [heq]
    exact hsends.same.referCount
  · rw [heq]
    exact fun _ => { hgood1 with }
  · intro hnil
    have hlength := length_le_of_idents hdone
    rw [hnil] at hlength
    exact length_eq_zero_iff.mp (Nat.le_zero.mp hlength)
  · rw [heq]
    exact hout
  · rw [hadded, Channel.waiting, add_left_comm, hdone, hreaders]
    rfl

def Channel.Pressed (p : Channel) : Prop := p.writers ≠ [] → p.Full

theorem write_pressed (hgood : c.channel.Good) (h : c.write = (moved, c')) : c'.channel.Pressed := by
  obtain ⟨c1, hloop, heq⟩ := write_loop h
  intro hne
  have hfull := (writeLoop_answers hgood hloop).2 hne
  rw [heq]
  exact hfull

structure Conn.Rounded (c c' : Conn) : Prop where
  accounts : c.Accounts c'
  pressed : c'.channel.Pressed

variable {sid : ℕ} {i : Bool}

theorem rounds_rounded (c0 : Conn) :
    (∀ n c, (c.Sane sid i ended ∧ c0.Accounts c) ∧ c.channel.Pressed → unread c.channel < n →
      ∃ c', readRounds ended n c = some c' ∧ c0.Rounded c') ∧
    ∀ n c, c.Sane sid i ended ∧ c0.Accounts c → unread c.channel < n →
      ∃ c', writeRounds ended n c = some c' ∧ c0.Rounded c' := by
  apply rounds_rule
  · rintro c ⟨⟨hc, haccounts⟩, hpressed⟩
    obtain ⟨moved, c', hread, hsane, -, hless⟩ := read_sane hc
    have haccounts' := haccounts.trans (read_accounts hc.channel.good hread).1
    refine ⟨moved, c', hread, ?_, fun hmoved => ⟨⟨hsane, haccounts'⟩, hless hmoved⟩⟩
    rintro rfl
    obtain ⟨c1, hloop, heq⟩ := read_loop hread
    refine ⟨haccounts', ?_⟩
    rw [heq, (readLoop_answers hc.channel.good hloop).2.2 rfl]
    exact hpressed
  · rintro c ⟨hc, haccounts⟩
    obtain ⟨moved, c', hwrite, hsane, -, hsame⟩ := write_sane hc
    have haccounts' := haccounts.trans (write_accounts hc.channel.good hwrite).1
    have hpressed := write_pressed hc.channel.good hwrite
    exact ⟨moved, c', hwrite, fun _ => ⟨haccounts', hpressed⟩, ⟨⟨hsane, haccounts'⟩, hpressed⟩, hsame⟩

/-- Where the other end has no user, a lone reader is answered, or a writer could not be copied from. -/
theorem readRounds_ended (n : ℕ) (c : Conn) (hc : c.Sane sid i true) (hpressed : c.channel.Pressed)
    (hlength : c.channel.readers.length ≤ 1) (hn : unread c.channel < n) : ∃ c', readRounds true n c = some c' ∧
      (c'.channel.readers = [] ∨ ∃ req, .writeFault req ∈ c'.out) := by
  refine (rounds_rule (P := fun c => c.Sane sid i true ∧ c.channel.Pressed ∧ c.channel.readers.length ≤ 1)
    (Q := fun c => c.Sane sid i true ∧ c.channel.readers.length ≤ 1 ∧ (c.channel.readers ≠ [] →
      c.channel.readPosition = c.channel.writePosition ∧ c.channel.writers ≠ []))
    ?_ ?_).1 n c ⟨hc, hpressed, hlength⟩ hn
  · rintro c ⟨hc, hpressed, hlength⟩
    have hgood := hc.channel.good
    obtain ⟨moved, c', hread, hsane, -, hless⟩ := read_sane hc
    obtain ⟨-, hwriters, hshort⟩ := read_accounts hgood hread
    obtain ⟨c1, hloop, heq⟩ := read_loop hread
    obtain ⟨-, hempty, hidle⟩ := readLoop_answers hgood hloop
    refine ⟨moved, c', hread, ?_, fun hmoved => ⟨⟨hsane, hshort.trans hlength, fun hne => ⟨?_, ?_⟩⟩, hless hmoved⟩⟩
    · rintro rfl
      left
      by_contra hne
      -- the buffer has been empty all along, so no writer waits
      have hnone := hempty hne
      rw [hidle rfl] at hnone
      refine hne (readLoop_ended hlength ?_ hloop)
      by_contra hwriters
      apply (hpressed hwriters).contents_ne_nil
      rw [contents_eq_nil, used_eq_zero hgood]
      exact hnone
    · rw [heq]
      exact hempty hne
    · rw [hwriters]
      exact fun hnil => hne (readLoop_ended hlength hnil hloop)
  · rintro c ⟨hc, hlength, hwait⟩
    have hgood := hc.channel.good
    obtain ⟨moved, c', hwrite, hsane, -, hsame⟩ := write_sane hc
    obtain ⟨-, hreaders⟩ := write_accounts hgood hwrite
    refine ⟨moved, c', hwrite, ?_, ⟨hsane, write_pressed hgood hwrite, by rwa [hreaders]⟩, hsame⟩
    rintro rfl
    by_cases hnil : c.channel.readers = []
    · left
      rw [hreaders, hnil]
    right
    obtain ⟨hempty, hwriters⟩ := hwait hnil
    obtain ⟨c1, hloop, heq⟩ := write_loop hwrite
    obtain ⟨req, hreq⟩ := writeLoop_empty hgood hempty hwriters hloop
    refine ⟨req, ?_⟩
    rw [heq]
    exact hreq

end Rounds

end Eotan.Pipe
