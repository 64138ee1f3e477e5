import Eotan.Lib.Ring
import Eotan.Pipe.Server

namespace Eotan.Pipe

open Lib
open List

theorem pageSize_pos : 0 < pageSize := by decide

def Request.delivered (req : Request) : List UInt8 := (List.range req.position).map req.data

def Request.pending (req : Request) : List UInt8 :=
  (List.range (req.count - req.position)).map fun i => req.data (req.position + i)

def Request.ident (req : Request) : Request := { req with position := 0, data := fun _ => 0 }

def Request.sent (req : Request) : Request := { req with position := 0 }

namespace Channel

def contents (p : Channel) : List UInt8 := Ring.contents pageSize p.buf p.readPosition p.writePosition

def used (p : Channel) : ℕ := Ring.used pageSize p.readPosition p.writePosition

structure Good (p : Channel) : Prop where
  read : p.readPosition < pageSize
  write : p.writePosition < pageSize

def Full (p : Channel) : Prop := p.used + 1 = pageSize

theorem length_contents (p : Channel) : p.contents.length = p.used := Ring.length_contents p.buf

theorem contents_eq_nil (p : Channel) : p.contents = [] ↔ p.used = 0 := by
  rw [← length_eq_zero_iff, length_contents]

theorem Full.contents_ne_nil {p : Channel} (h : p.Full) : p.contents ≠ [] := by
  intro hnil
  rw [contents_eq_nil] at hnil
  rw [Full, hnil] at h
  cases h

theorem used_eq {p : Channel} (h : p.Good) : p.used =
    if p.readPosition ≤ p.writePosition then p.writePosition - p.readPosition
    else p.writePosition + pageSize - p.readPosition := Ring.used_eq h.read h.write

end Channel

open Channel

structure Fed (c : Conn) (req : Request) (bytes : List UInt8) (c' : Conn) (req' : Request) :
    Prop where
  faults : c'.faults = []
  out : c'.out = c.out
  channel : c'.channel = { c.channel with readPosition := c'.channel.readPosition }
  good : c'.channel.Good
  contents : c.channel.contents = bytes ++ c'.channel.contents
  ident : req'.ident = req.ident
  position : req'.position = req.position + bytes.length
  delivered : req'.delivered = req.delivered ++ bytes

variable {c c' : Conn} {req req' : Request} {bytes : List UInt8}

theorem Fed.used (h : Fed c req bytes c' req') : c.channel.used = bytes.length + c'.channel.used := by
  rw [← length_contents, h.contents, length_append, length_contents]

theorem Fed.refl (hfaults : c.faults = []) (hgood : c.channel.Good) (req : Request) : Fed c req [] c req where
  faults := hfaults
  out := rfl
  channel := rfl
  good := hgood
  contents := rfl
  ident := rfl
  position := rfl
  delivered := (append_nil _).symm

theorem Fed.trans {c1 c2 c3 : Conn} {r1 r2 r3 : Request} {l1 l2 : List UInt8}
    (h1 : Fed c1 r1 l1 c2 r2) (h2 : Fed c2 r2 l2 c3 r3) : Fed c1 r1 (l1 ++ l2) c3 r3 where
  faults := h2.faults
  out := h2.out.trans h1.out
  channel := by
    rw [h2.channel, h1.channel]
  good := h2.good
  contents := by rw [h1.contents, h2.contents, append_assoc]
  ident := h2.ident.trans h1.ident
  position := by rw [h2.position, h1.position, length_append, Nat.add_assoc]
  delivered := by rw [h2.delivered, h1.delivered, append_assoc]

theorem Request.count_of_ident (h : req'.ident = req.ident) : req'.count = req.count := by
  have hcount := congrArg Request.count h
  exact hcount

theorem Fed.count (h : Fed c req bytes c' req') : req'.count = req.count := Request.count_of_ident h.ident

section

variable (hfaults : c.faults = []) (hgood : c.channel.Good)
include hfaults hgood

theorem put_fed (req : Request)
    {len : ℕ} (hused : len ≤ c.channel.used) (hrow : c.channel.readPosition + len ≤ pageSize) :
    ∃ bytes req' c', c.put req len = (some req', c') ∧ Fed c req bytes c' req' ∧ bytes.length = len := by
  let p := c.channel
  refine ⟨(range len).map fun i => p.buf ((p.readPosition + i) % pageSize), _, _,
    by simp only [Conn.put, hfaults]; rfl, ?_, by simp⟩
  refine ⟨rfl, rfl, rfl, ⟨Nat.mod_lt _ pageSize_pos, hgood.write⟩, ?_, rfl, by simp, ?_⟩
  · exact Ring.contents_take p.buf hgood.read hgood.write hused
  · unfold Request.delivered
    simp only
    rw [range_add, map_append, map_map]
    congr 1
    · apply map_congr_left
      intro i hi
      rw [if_neg]
      have := mem_range.mp hi
      omega
    · apply map_congr_left
      intro i hi
      have hlt := mem_range.mp hi
      simp only [Function.comp_apply]
      rw [if_pos ⟨by omega, by omega⟩, Nat.add_sub_cancel_left, Nat.mod_eq_of_lt]
      change p.readPosition + len ≤ pageSize at hrow
      omega

theorem serveRun_put (hreq : req.position < req.count) (moved : Bool) (len : ℕ) (hlen : 0 < len)
    (hused : len ≤ c.channel.used) (hrow : c.channel.readPosition + len ≤ pageSize) :
    ∃ bytes req' c', Fed c req bytes c' req' ∧ bytes ≠ [] ∧
      (serveRun Conn.put .rread req moved len c = .gone true (c'.emit (.rread req')) ∧
          req'.position = req.count ∨ serveRun Conn.put .rread req moved len c = .left req' true c' ∧
          bytes.length = len ∧ req'.position < req.count) := by
  unfold serveRun
  by_cases hrest : req.count - req.position ≤ len
  · obtain ⟨bytes, req', c', hput, hfed, hlength⟩ := put_fed hfaults hgood req (hrest.trans hused) (by omega)
    have hne : bytes ≠ [] := by
      rw [← length_pos_iff, hlength]
      omega
    refine ⟨bytes, req', c', hfed, hne, .inl ⟨?_, ?_⟩⟩
    · simp only [if_pos hrest, hput]
    · rw [hfed.position, hlength]
      omega
  · obtain ⟨bytes, req', c', hput, hfed, hlength⟩ := put_fed hfaults hgood req hused hrow
    have hne : bytes ≠ [] := by
      rw [← length_pos_iff, hlength]
      exact hlen
    refine ⟨bytes, req', c', hfed, hne, .inr ⟨?_, hlength, ?_⟩⟩
    · simp only [if_neg hrest, hput]
    · rw [hfed.position, hlength]
      omega

theorem readTurn_spec (hreq : req.position < req.count) : ∃ bytes req' c', Fed c req bytes c' req' ∧
      (readTurn req c = .gone true (c'.emit (.rread req')) ∧ bytes ≠ [] ∧ req'.position = req.count ∨
        readTurn req c = .left req' (decide (bytes ≠ [])) c' ∧ c'.channel.contents = [] ∧
          req'.position < req.count ∧ (bytes = [] → req' = req ∧ c' = c)) := by
  have hused := used_eq hgood
  have hr := hgood.read
  have hw := hgood.write
  unfold readTurn
  -- the bytes up to the end of the buffer come first
  by_cases hwrap : c.channel.writePosition < c.channel.readPosition
  · simp only [if_pos hwrap]
    rw [if_neg (by omega)] at hused
    obtain ⟨b1, r1, c1, hfed1, hne1, ⟨hgone, hfull⟩ | ⟨hleft, hlen, hmore⟩⟩ :=
      serveRun_put hfaults hgood hreq false (pageSize - c.channel.readPosition) (by omega) (by omega) (by omega)
    · exact ⟨b1, r1, c1, hfed1, .inl ⟨by simp only [hgone], hne1, hfull⟩⟩
    have hwrite : c1.channel.writePosition = c.channel.writePosition := by rw [hfed1.channel]
    have hused1 := used_eq hfed1.good
    have htotal : c1.channel.used = c.channel.used - (pageSize - c.channel.readPosition) := by
      have := hfed1.used
      omega
    have hzero : c1.channel.readPosition = 0 := by
      have := hfed1.good.read
      split_ifs at hused1 <;> omega
    simp only [hleft]
    by_cases hmid : c1.channel.readPosition < c1.channel.writePosition
    · simp only [if_pos hmid]
      rw [if_pos (by omega)] at hused1
      obtain ⟨b2, r2, c2, hfed2, hne2, ⟨hgone, hfull⟩ | ⟨hleft, hlen2, hmore2⟩⟩ :=
        serveRun_put hfed1.faults hfed1.good (hfed1.count ▸ hmore) true
          (c1.channel.writePosition - c1.channel.readPosition) (by omega) (by omega)
          (by have := hfed1.good.write; omega)
      · refine ⟨b1 ++ b2, r2, c2, hfed1.trans hfed2, .inl ⟨hgone, by simp [hne1], ?_⟩⟩
        rw [hfull, hfed1.count]
      refine ⟨b1 ++ b2, r2, c2, hfed1.trans hfed2, .inr ⟨?_, ?_, ?_, by simp [hne1]⟩⟩
      · rw [hleft]
        simp [hne1]
      · have := hfed2.used
        rw [contents_eq_nil]
        omega
      · rw [← hfed1.count]
        exact hmore2
    · refine ⟨b1, r1, c1, hfed1, .inr ⟨?_, ?_, hmore, fun h => absurd h hne1⟩⟩
      · simp [if_neg hmid, hne1]
      · rw [contents_eq_nil]
        split_ifs at hused1 <;> omega
  · simp only [if_neg hwrap]
    rw [if_pos (by omega)] at hused
    by_cases hmid : c.channel.readPosition < c.channel.writePosition
    · simp only [if_pos hmid]
      obtain ⟨b2, r2, c2, hfed2, hne2, ⟨hgone, hfull⟩ | ⟨hleft, hlen2, hmore2⟩⟩ :=
        serveRun_put hfaults hgood hreq false
          (c.channel.writePosition - c.channel.readPosition) (by omega) (by omega) (by omega)
      · exact ⟨b2, r2, c2, hfed2, .inl ⟨hgone, hne2, hfull⟩⟩
      refine ⟨b2, r2, c2, hfed2, .inr ⟨?_, ?_, hmore2, fun h => absurd h hne2⟩⟩
      · rw [hleft]
        simp [hne2]
      · have := hfed2.used
        rw [contents_eq_nil]
        omega
    · simp only [if_neg hmid]
      refine ⟨[], req, c, Fed.refl hfaults hgood req, .inr ⟨by simp, ?_, hreq, fun _ => ⟨rfl, rfl⟩⟩⟩
      rw [contents_eq_nil]
      omega

end

def rests (l : List Request) : ℕ := (l.map fun r => r.count - r.position).sum

structure Drained (c : Conn) (l done : List Request) (bytes : List UInt8) (moved : Bool)
    (l' : List Request) (c' : Conn) : Prop where
  out : c'.out = c.out ++ done.map .rread
  faults : c'.faults = []
  channel : c'.channel = { c.channel with readPosition := c'.channel.readPosition }
  good : c'.channel.Good
  contents : c.channel.contents = bytes ++ c'.channel.contents
  ident : (done ++ l').map Request.ident = l.map Request.ident
  delivered : (done ++ l').flatMap Request.delivered = l.flatMap Request.delivered ++ bytes
  progress : moved = true ↔ bytes ≠ []
  unmoved : moved = false → l' = l ∧ c' = c
  empty : l' ≠ [] → c'.channel.contents = []
  waiting : ∀ r ∈ l', r.position < r.count
  tail : ∀ r ∈ l'.tail, r.position = 0
  fresh : c.channel.writers = [] → moved = true → ∀ r ∈ l', r.position = 0
  bound : rests l' + bytes.length ≤ rests l

theorem delivered_of_zero (h : req.position = 0) : req.delivered = [] := by
  rw [Request.delivered, h]
  rfl

theorem flatMap_delivered_of_zero {l : List Request} (h : ∀ r ∈ l, r.position = 0) :
    l.flatMap Request.delivered = [] := by
  rw [flatMap_eq_nil_iff]
  intro r hr
  exact delivered_of_zero (h r hr)

theorem readLoop_spec (l : List Request) (hfaults : c.faults = [])
    (hgood : c.channel.Good) (hl : ∀ r ∈ l, r.position < r.count) (htail : ∀ r ∈ l.tail, r.position = 0) :
    ∃ done bytes moved l' c', readLoop false l c = (moved, l', c') ∧ Drained c l done bytes moved l' c' := by
  induction l generalizing c with
  | nil =>
    refine ⟨[], [], false, [], c, rfl, ?_⟩
    exact ⟨by simp, hfaults, rfl, hgood, rfl, rfl, rfl, by simp, fun _ => ⟨rfl, rfl⟩, by simp,
      by simp, by simp, by simp, Nat.le_refl _⟩
  | cons req rest ih =>
    obtain ⟨hreq, hlater⟩ := forall_mem_cons.mp hl
    have hrest : ∀ r ∈ rest, r.position = 0 := htail
    have hnil := flatMap_delivered_of_zero hrest
    obtain ⟨b1, r1, c1, hfed, ⟨hgone, hne, hdone⟩ | ⟨hleft, hempty, hmore, hsame⟩⟩ :=
      readTurn_spec hfaults hgood hreq
    · have hcount := hfed.count
      obtain ⟨done, b2, moved, l', c', heq, hdrained⟩ := ih (c := c1.emit (.rread r1)) hfed.faults hfed.good
          hlater (fun r hr => hrest r (mem_of_mem_tail hr))
      refine ⟨r1 :: done, b1 ++ b2, true, l', c', ?_, ?_⟩
      · rw [readLoop]
        simp only [hgone, heq, Bool.true_or]
      · refine ⟨?_, hdrained.faults, ?_, hdrained.good, ?_, ?_, ?_, by simp [hne], by simp,
          hdrained.empty, hdrained.waiting, hdrained.tail, ?_, ?_⟩
        · rw [hdrained.out, Conn.emit, hfed.out]
          simp
        · rw [hdrained.channel]
          simp only [Conn.emit]
          rw [hfed.channel]
        · rw [hfed.contents, append_assoc]
          congr 1
          exact hdrained.contents
        · rw [cons_append, map_cons, map_cons, hfed.ident, hdrained.ident]
        · rw [cons_append, flatMap_cons, flatMap_cons, hfed.delivered, hdrained.delivered, hnil]
          simp
        · intro hwriters _
          cases hmoved : moved with
          | true =>
            have hw : (c1.emit (.rread r1)).channel.writers = [] := by
              simp only [Conn.emit]
              rw [hfed.channel]
              exact hwriters
            exact hdrained.fresh hw hmoved
          | false =>
            rw [(hdrained.unmoved hmoved).1]
            exact hrest
        · have hrests := hdrained.bound
          have hposition := hfed.position
          simp only [rests, map_cons, sum_cons, length_append] at hrests ⊢
          omega
    · by_cases hwriters : c1.channel.writers = []
      · by_cases hmoved : b1 = []
        · obtain ⟨rfl, rfl⟩ := hsame hmoved
          refine ⟨[], [], false, r1 :: rest, c1, ?_, ?_⟩
          · rw [readLoop]
            simp [hleft, hmoved, hwriters]
          · exact ⟨by simp, hfaults, rfl, hgood, rfl, rfl, by simp, by simp, fun _ => ⟨rfl, rfl⟩,
              fun _ => hempty, hl, htail, by simp, Nat.le_refl _⟩
        · refine ⟨[r1], b1, true, rest, c1.emit (.rread r1), ?_, ?_⟩
          · rw [readLoop]
            simp [hleft, hmoved, hwriters]
          · refine ⟨by simp [Conn.emit, hfed.out], hfed.faults, hfed.channel, hfed.good,
              hfed.contents, ?_, ?_, by simp [hmoved], by simp, fun _ => hempty,
              hlater, fun r hr => hrest r (mem_of_mem_tail hr), fun _ _ => hrest, ?_⟩
            · simp [hfed.ident]
            · rw [singleton_append, flatMap_cons, flatMap_cons, hfed.delivered, hnil]
              simp
            · have hcount := hfed.count
              have hposition := hfed.position
              simp only [rests, map_cons, sum_cons]
              omega
      · refine ⟨[], b1, decide (b1 ≠ []), r1 :: rest, c1, ?_, ?_⟩
        · rw [readLoop]
          simp [hleft, hwriters]
        · have hcount := hfed.count
          refine ⟨by simp [hfed.out], hfed.faults, hfed.channel, hfed.good, hfed.contents, ?_, ?_,
            by simp, ?_, fun _ => hempty, ?_, hrest, ?_, ?_⟩
          · simp [hfed.ident]
          · rw [nil_append, flatMap_cons, flatMap_cons, hfed.delivered, hnil]
            simp
          · intro hmoved
            obtain ⟨rfl, rfl⟩ := hsame (by simpa using hmoved)
            exact ⟨rfl, rfl⟩
          · refine forall_mem_cons.mpr ⟨?_, hlater⟩
            rw [hcount]
            exact hmore
          · intro hw
            rw [hfed.channel] at hwriters
            exact absurd hw hwriters
          · have hposition := hfed.position
            simp only [rests, map_cons, sum_cons]
            omega

structure Took (c : Conn) (req : Request) (bytes : List UInt8) (c' : Conn) (req' : Request) :
    Prop where
  faults : c'.faults = []
  out : c'.out = c.out
  channel : c'.channel =
    { c.channel with buf := c'.channel.buf, writePosition := c'.channel.writePosition }
  good : c'.channel.Good
  contents : c'.channel.contents = c.channel.contents ++ bytes
  sent : req'.sent = req.sent
  position : req'.position = req.position + bytes.length
  pending : req.pending = bytes ++ req'.pending

theorem Took.refl (hfaults : c.faults = []) (hgood : c.channel.Good) (req : Request) : Took c req [] c req where
  faults := hfaults
  out := rfl
  channel := rfl
  good := hgood
  contents := (append_nil _).symm
  sent := rfl
  position := rfl
  pending := rfl

theorem Took.trans {c1 c2 c3 : Conn} {r1 r2 r3 : Request} {l1 l2 : List UInt8}
    (h1 : Took c1 r1 l1 c2 r2) (h2 : Took c2 r2 l2 c3 r3) : Took c1 r1 (l1 ++ l2) c3 r3 where
  faults := h2.faults
  out := h2.out.trans h1.out
  channel := by
    rw [h2.channel, h1.channel]
  good := h2.good
  contents := by rw [h2.contents, h1.contents, append_assoc]
  sent := h2.sent.trans h1.sent
  position := by rw [h2.position, h1.position, length_append, Nat.add_assoc]
  pending := by rw [h1.pending, h2.pending, append_assoc]

theorem Took.count (h : Took c req bytes c' req') : req'.count = req.count := by
  have hcount := congrArg Request.count h.sent
  exact hcount

theorem Took.used (h : Took c req bytes c' req') : c'.channel.used = c.channel.used + bytes.length := by
  rw [← length_contents, h.contents, length_append, length_contents]

section

variable (hfaults : c.faults = []) (hgood : c.channel.Good)
include hfaults hgood

theorem get_took (req : Request) (len : ℕ) (hroom : c.channel.used + len < pageSize)
    (hrow : c.channel.writePosition + len ≤ pageSize) (hlen : len ≤ req.count - req.position) :
    ∃ bytes req' c', c.get req len = (some req', c') ∧ Took c req bytes c' req' ∧ bytes.length = len := by
  let p := c.channel
  have hused := used_eq hgood
  refine ⟨(range len).map fun i => req.data (req.position + i), _, _,
    by simp only [Conn.get, hfaults]; rfl, ?_, by simp⟩
  refine ⟨rfl, rfl, rfl, ⟨hgood.read, Nat.mod_lt _ pageSize_pos⟩, ?_, rfl, by simp, ?_⟩
  · apply Ring.contents_put hgood.read hgood.write hroom
    · intro i hi
      have hmod : (c.channel.writePosition + i) % pageSize = c.channel.writePosition + i :=
        Nat.mod_eq_of_lt (by omega)
      simp only
      rw [hmod, if_pos ⟨by omega, by omega⟩, Nat.add_sub_cancel_left]
    · -- the cells in use are not among those written
      intro i hi
      change i < c.channel.used at hi
      simp only
      rw [if_neg]
      by_cases hwrap : c.channel.readPosition + i < pageSize
      · rw [Nat.mod_eq_of_lt hwrap]
        split_ifs at hused <;> omega
      · rw [Nat.mod_eq_sub_mod (by omega), Nat.mod_eq_of_lt (by split_ifs at hused <;> omega)]
        split_ifs at hused <;> omega
  · unfold Request.pending
    simp only
    rw [show req.count - req.position = len + (req.count - (req.position + len)) by omega,
      range_add, map_append, map_map]
    congr 1
    apply map_congr_left
    intro i _
    simp only [Function.comp_apply, Nat.add_assoc]

theorem serveRun_get (hreq : req.position < req.count) (moved : Bool) (len : ℕ)
    (hroom : c.channel.used + len < pageSize) (hrow : c.channel.writePosition + len ≤ pageSize) :
    ∃ bytes req' c', Took c req bytes c' req' ∧
      (serveRun Conn.get .rwrite req moved len c = .gone true (c'.emit (.rwrite req')) ∧
          req'.position = req.count ∨ serveRun Conn.get .rwrite req moved len c = .left req' true c' ∧
          bytes.length = len ∧ req'.position < req.count) := by
  unfold serveRun
  by_cases hrest : req.count - req.position ≤ len
  · obtain ⟨bytes, req', c', hget, htook, hlength⟩ :=
      get_took hfaults hgood req (req.count - req.position) (by omega) (by omega) le_rfl
    refine ⟨bytes, req', c', htook, .inl ⟨?_, ?_⟩⟩
    · simp only [if_pos hrest, hget]
    · rw [htook.position, hlength]
      omega
  · obtain ⟨bytes, req', c', hget, htook, hlength⟩ := get_took hfaults hgood req len hroom hrow (by omega)
    refine ⟨bytes, req', c', htook, .inr ⟨?_, hlength, ?_⟩⟩
    · simp only [if_neg hrest, hget]
    · rw [htook.position, hlength]
      omega

theorem writeTurn_spec (hreq : req.position < req.count) : ∃ bytes req' c', Took c req bytes c' req' ∧
      (writeTurn req c = .gone true (c'.emit (.rwrite req')) ∧ req'.position = req.count ∨
        ∃ moved, writeTurn req c = .left req' moved c' ∧ c'.channel.Full ∧
          req'.position < req.count ∧ (moved = false → req' = req ∧ c' = c)) := by
  have hused := used_eq hgood
  have hr := hgood.read
  have hw := hgood.write
  unfold writeTurn
  by_cases hup : c.channel.readPosition ≤ c.channel.writePosition
  · simp only [if_pos hup]
    rw [if_pos hup] at hused
    have hroom : c.channel.used + (pageSize - c.channel.writePosition -
        if c.channel.readPosition = 0 then 1 else 0) < pageSize := by
      split_ifs <;> omega
    obtain ⟨b1, r1, c1, htook1, ⟨hgone, hfull⟩ | ⟨hleft, hlen, hmore⟩⟩ :=
      serveRun_get hfaults hgood hreq false _ hroom (by omega)
    · exact ⟨b1, r1, c1, htook1, .inl ⟨by simp only [hgone], hfull⟩⟩
    have hread : c1.channel.readPosition = c.channel.readPosition := by rw [htook1.channel]
    have hused1 := used_eq htook1.good
    have htotal := htook1.used
    have hw1 := htook1.good.write
    simp only [hleft]
    by_cases hmid : 1 < c1.channel.readPosition ∧ c1.channel.writePosition < c1.channel.readPosition - 1
    · simp only [if_pos hmid]
      rw [if_neg (by omega)] at hused1
      obtain ⟨b2, r2, c2, htook2, ⟨hgone, hfull⟩ | ⟨hleft, hlen2, hmore2⟩⟩ :=
        serveRun_get htook1.faults htook1.good (htook1.count ▸ hmore) true
          (c1.channel.readPosition - 1 - c1.channel.writePosition) (by omega) (by omega)
      · refine ⟨b1 ++ b2, r2, c2, htook1.trans htook2, .inl ⟨hgone, ?_⟩⟩
        rw [hfull, htook1.count]
      refine ⟨b1 ++ b2, r2, c2, htook1.trans htook2, .inr ⟨true, hleft, ?_, ?_, fun h => by cases h⟩⟩
      · have htotal2 := htook2.used
        unfold Full
        omega
      · rw [← htook1.count]
        exact hmore2
    · refine ⟨b1, r1, c1, htook1, .inr ⟨true, by rw [if_neg hmid], ?_, hmore, fun h => by cases h⟩⟩
      unfold Full
      split_ifs at hlen hused1 <;> omega
  · simp only [if_neg hup]
    rw [if_neg hup] at hused
    by_cases hmid : 1 < c.channel.readPosition ∧ c.channel.writePosition < c.channel.readPosition - 1
    · simp only [if_pos hmid]
      obtain ⟨b2, r2, c2, htook2, ⟨hgone, hfull⟩ | ⟨hleft, hlen2, hmore2⟩⟩ :=
        serveRun_get hfaults hgood hreq false
          (c.channel.readPosition - 1 - c.channel.writePosition) (by omega) (by omega)
      · exact ⟨b2, r2, c2, htook2, .inl ⟨hgone, hfull⟩⟩
      · refine ⟨b2, r2, c2, htook2, .inr ⟨true, hleft, ?_, hmore2, fun h => by cases h⟩⟩
        have htotal2 := htook2.used
        unfold Full
        omega
    · simp only [if_neg hmid]
      refine ⟨[], req, c, Took.refl hfaults hgood req, .inr ⟨false, rfl, ?_, hreq, fun _ => ⟨rfl, rfl⟩⟩⟩
      unfold Full
      omega

end

structure Filled (c : Conn) (l done : List Request) (bytes : List UInt8) (moved : Bool)
    (l' : List Request) (c' : Conn) : Prop where
  out : c'.out = c.out ++ done.map .rwrite
  faults : c'.faults = []
  channel : c'.channel =
    { c.channel with buf := c'.channel.buf, writePosition := c'.channel.writePosition }
  good : c'.channel.Good
  contents : c'.channel.contents = c.channel.contents ++ bytes
  sent : (done ++ l').map Request.sent = l.map Request.sent
  pending : l.flatMap Request.pending = bytes ++ l'.flatMap Request.pending
  unmoved : moved = false → l' = l ∧ c' = c
  full : l' ≠ [] → c'.channel.Full
  waiting : ∀ r ∈ l', r.position < r.count

theorem pending_of_full (h : req.position = req.count) : req.pending = [] := by
  rw [Request.pending, h, Nat.sub_self]
  rfl

theorem writeLoop_spec (l : List Request) (hfaults : c.faults = [])
    (hgood : c.channel.Good) (hl : ∀ r ∈ l, r.position < r.count) :
    ∃ done bytes moved l' c', writeLoop l c = (moved, l', c') ∧ Filled c l done bytes moved l' c' := by
  induction l generalizing c with
  | nil =>
    refine ⟨[], [], false, [], c, rfl, ?_⟩
    exact ⟨by simp, hfaults, rfl, hgood, by simp, rfl, rfl, fun _ => ⟨rfl, rfl⟩, by simp, by simp⟩
  | cons req rest ih =>
    obtain ⟨hreq, hlater⟩ := forall_mem_cons.mp hl
    obtain ⟨b1, r1, c1, htook, ⟨hgone, hdone⟩ | ⟨moved, hleft, hfull, hmore, hsame⟩⟩ :=
      writeTurn_spec hfaults hgood hreq
    · obtain ⟨done, b2, moved, l', c', heq, hfilled⟩ := ih (c := c1.emit (.rwrite r1)) htook.faults htook.good
          hlater
      refine ⟨r1 :: done, b1 ++ b2, true, l', c', ?_, ?_⟩
      · rw [writeLoop]
        simp only [hgone, heq, Bool.true_or]
      · refine ⟨?_, hfilled.faults, ?_, hfilled.good, ?_, ?_, ?_, by simp, hfilled.full, hfilled.waiting⟩
        · rw [hfilled.out, Conn.emit, htook.out]
          simp
        · rw [hfilled.channel]
          simp only [Conn.emit]
          rw [htook.channel]
        · rw [hfilled.contents]
          simp only [Conn.emit]
          rw [htook.contents, append_assoc]
        · rw [cons_append, map_cons, map_cons, htook.sent, hfilled.sent]
        · have hpending : r1.pending = [] := pending_of_full (hdone.trans htook.count.symm)
          rw [flatMap_cons, htook.pending, hpending, hfilled.pending]
          simp
    · refine ⟨[], b1, moved, r1 :: rest, c1, ?_, ?_⟩
      · rw [writeLoop]
        simp only [hleft]
      · refine ⟨by simp [htook.out], htook.faults, htook.channel, htook.good, htook.contents, ?_, ?_,
          ?_, fun _ => hfull, ?_⟩
        · simp [htook.sent]
        · rw [flatMap_cons, flatMap_cons, htook.pending, append_assoc]
        · intro hmoved
          obtain ⟨rfl, rfl⟩ := hsame hmoved
          exact ⟨rfl, rfl⟩
        · refine forall_mem_cons.mpr ⟨?_, hlater⟩
          rw [htook.count]
          exact hmore

end Eotan.Pipe
