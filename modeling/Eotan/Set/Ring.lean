import Eotan.Lib.Ring
import Mathlib.Data.List.GetD
import Mathlib.Data.List.TakeDrop

/-!
Ring buffers (`ring.c`) as bounded queues. No position or length here wraps at `2 ^ 32`: they stay
below the size.
-/

namespace Eotan.RingBuffer

open Lib.Ring (used contents)
open List
open Nat

structure Ring where
  read : ℕ
  write : ℕ
  size : ℕ
  buf : ℕ → UInt8

def headerSize : ℕ := 12

def cutdown (ring : Ring) (n : ℕ) : ℕ := if n ≥ ring.size then 0 else n

def ringCreate (buf : ℕ → UInt8) (size : ℕ) : Option Ring :=
  if size ≤ headerSize + 1 then none
  else some ⟨0, 0, size - headerSize, fun i => buf (headerSize + i)⟩

def ringGetRest (ring : Ring) : ℕ :=
  if ring.read ≤ ring.write then ring.size - ring.write + ring.read - 1
  else ring.read - ring.write - 1

def getPiece (ring : Ring) : ℕ × Bool :=
  if ring.read ≤ ring.write then (ring.write - ring.read, true) else (ring.size - ring.read, false)

def getLoop : ℕ → Ring → ℕ → Option (List UInt8 × Ring)
  | 0, _, _ => none
  | n + 1, ring, rest =>
    if rest = 0 then some ([], ring)
    else
      let piece := getPiece ring
      if piece.1 = 0 then some ([], ring)
      else
        let len := min piece.1 rest
        let copied := (List.range len).map fun i => ring.buf (ring.read + i)
        let ring := { ring with read := cutdown ring (ring.read + len) }
        if piece.2 = true then some (copied, ring)
        else
          match getLoop n ring (rest - len) with
          | none => none
          | some (more, ring) => some (copied ++ more, ring)

def ringGet (ring : Ring) (size : ℕ) : Option (List UInt8 × Ring) := getLoop (size + 1) ring size

def memcpy (buf : ℕ → UInt8) (start : ℕ) (data : List UInt8) : ℕ → UInt8 :=
  fun i => if start ≤ i then data.getD (i - start) (buf i) else buf i

def putPiece (ring : Ring) : ℕ × Bool :=
  if ring.read ≤ ring.write then
    if ring.read = 0 then (ring.size - ring.write - 1, true) else (ring.size - ring.write, false)
  else (ring.read - ring.write - 1, true)

def putLoop : ℕ → Ring → List UInt8 → Option (ℕ × Ring)
  | 0, _, _ => none
  | n + 1, ring, data =>
    if data.length = 0 then some (0, ring)
    else
      let piece := putPiece ring
      if piece.1 = 0 then some (0, ring)
      else
        let len := min piece.1 data.length
        let ring := { ring with
          buf := memcpy ring.buf ring.write (data.take len)
          write := cutdown ring (ring.write + len) }
        if piece.2 = true then some (len, ring)
        else
          match putLoop n ring (data.drop len) with
          | none => none
          | some (more, ring) => some (len + more, ring)

def ringPut (ring : Ring) (data : List UInt8) : Option (ℕ × Ring) :=
  putLoop (data.length + 1) ring data

namespace Ring

def contents (ring : Ring) : List UInt8 := Lib.Ring.contents ring.size ring.buf ring.read ring.write

structure Valid (ring : Ring) : Prop where
  read_lt : ring.read < ring.size
  write_lt : ring.write < ring.size

end Ring

variable {ring : Ring}

theorem cutdown_eq {n : ℕ} (hn : n ≤ ring.size) : cutdown ring n = n % ring.size := by
  unfold cutdown
  by_cases h : n = ring.size
  · rw [if_pos (ge_of_eq h), h, mod_self]
  · have hlt : n < ring.size := by omega
    rw [if_neg (by omega), mod_eq_of_lt hlt]

theorem length_contents (h : ring.Valid) :
    ring.contents.length = if ring.read ≤ ring.write then ring.write - ring.read
      else ring.write + ring.size - ring.read := by
  rw [Ring.contents, Lib.Ring.length_contents, Lib.Ring.used_eq h.read_lt h.write_lt]

theorem length_add_rest (h : ring.Valid) : ring.contents.length + ringGetRest ring = ring.size - 1 := by
  have hr := h.read_lt
  have hw := h.write_lt
  rw [length_contents h, ringGetRest]
  split_ifs <;> omega

theorem take_drop_of_append {α : Type} {l a b : List α} {n : ℕ} (hl : l = a ++ b) (hn : a.length ≤ n) :
    l.take n = a ++ b.take (n - a.length) ∧ l.drop n = b.drop (n - a.length) := by
  rw [hl, take_append, drop_append, take_of_length_le hn, drop_eq_nil_of_le hn, nil_append]
  exact ⟨rfl, rfl⟩

theorem advance_read (h : ring.Valid) (rest len : ℕ) (hrest : len ≤ rest)
    (hlen : len ≤ ring.contents.length) (hend : ring.read + len ≤ ring.size) :
    let ring' := { ring with read := cutdown ring (ring.read + len) }
    ring'.Valid ∧ ring.contents.take rest =
        (range len).map (fun i => ring.buf (ring.read + i)) ++ ring'.contents.take (rest - len) ∧
      ring.contents.drop rest = ring'.contents.drop (rest - len) ∧
      ring'.contents.length = ring.contents.length - len := by
  intro ring'
  have hcut := cutdown_eq hend
  have hused : len ≤ used ring.size ring.read ring.write := by
    rw [Ring.contents, Lib.Ring.length_contents] at hlen
    exact hlen
  have hcontents : ring.contents = (range len).map (fun i => ring.buf (ring.read + i)) ++ ring'.contents := by
    simp only [ring', Ring.contents, hcut]
    rw [Lib.Ring.contents_take ring.buf h.read_lt h.write_lt hused]
    congr 1
    apply map_congr_left
    intro i hi
    rw [mem_range] at hi
    rw [mod_eq_of_lt (by omega)]
  have hcopied : ((range len).map fun i => ring.buf (ring.read + i)).length = len := by
    rw [length_map, length_range]
  refine ⟨⟨?_, h.write_lt⟩, ?_⟩
  · change cutdown ring (ring.read + len) < ring.size
    rw [hcut]
    exact mod_lt _ (zero_lt_of_lt h.read_lt)
  · obtain ⟨htake, hdrop⟩ := take_drop_of_append hcontents (hcopied.trans_le hrest)
    have hsum := congrArg length hcontents
    rw [length_append, hcopied] at hsum
    rw [hcopied] at htake hdrop
    exact ⟨htake, hdrop, by omega⟩

structure Got (ring : Ring) (n : ℕ) (out : List UInt8) (ring' : Ring) : Prop where
  out : out = ring.contents.take n
  valid : ring'.Valid
  rest : ring'.contents = ring.contents.drop n
  size : ring'.size = ring.size
  buf : ring'.buf = ring.buf

theorem getPiece_spec (h : ring.Valid) :
    (getPiece ring).1 ≤ ring.contents.length ∧ ring.read + (getPiece ring).1 ≤ ring.size ∧
      ((getPiece ring).2 = true ∨ (getPiece ring).1 = 0 → (getPiece ring).1 = ring.contents.length) := by
  have hread := h.read_lt
  have hwrite := h.write_lt
  rw [length_contents h, getPiece]
  split_ifs
  · exact ⟨le_rfl, by omega, fun _ => rfl⟩
  · simp only [false_or]
    omega

theorem getLoop_got (n : ℕ) (h : ring.Valid) (rest : ℕ) (hn : rest < n) :
    ∃ out ring', getLoop n ring rest = some (out, ring') ∧ Got ring rest out ring' := by
  induction n generalizing ring rest with
  | zero => exact absurd hn (not_lt_zero rest)
  | succ n ih =>
    obtain ⟨hlen, hend, hlast⟩ := getPiece_spec h
    unfold getLoop
    split_ifs with hzero
    · rw [hzero]
      exact ⟨[], ring, rfl, rfl, h, rfl, rfl, rfl⟩
    by_cases hempty : (getPiece ring).1 = 0
    · have hnil : ring.contents = [] := eq_nil_of_length_eq_zero ((hlast (.inr hempty)).symm.trans hempty)
      simp only [if_pos hempty]
      refine ⟨[], ring, rfl, ?_, h, ?_, rfl, rfl⟩
      · rw [hnil, take_nil]
      · rw [hnil, drop_nil]
    obtain ⟨hvalid, htake, hdrop, hleft⟩ := advance_read h rest
      (min (getPiece ring).1 rest) (min_le_right _ _) (by omega) (by omega)
    simp only [if_neg hempty]
    split_ifs with hpiece
    · -- Either all that is wanted has been copied, or nothing is left.
      rcases le_total rest (getPiece ring).1 with hall | hall
      · rw [min_eq_right hall] at hvalid htake hdrop ⊢
        rw [Nat.sub_self, take_zero, append_nil] at htake
        rw [Nat.sub_self, drop_zero] at hdrop
        exact ⟨_, _, rfl, htake.symm, hvalid, hdrop.symm, rfl, rfl⟩
      have hall' := hlast (.inl hpiece)
      have hnil := eq_nil_of_length_eq_zero (hleft.trans (by omega))
      rw [hnil, take_nil, append_nil] at htake
      rw [hnil, drop_nil, ← hnil] at hdrop
      exact ⟨_, _, rfl, htake.symm, hvalid, hdrop.symm, rfl, rfl⟩
    · obtain ⟨more, ring', hloop, hgot⟩ := ih hvalid (rest - min (getPiece ring).1 rest) (by omega)
      rw [hloop]
      refine ⟨_, ring', rfl, ?_, hgot.valid, ?_, hgot.size, hgot.buf⟩
      · rw [hgot.out, htake]
      · rw [hgot.rest, hdrop]

theorem memcpy_inside (buf : ℕ → UInt8) (start : ℕ) (data : List UInt8) {i : ℕ} (hi : i < data.length) :
    memcpy buf start data (start + i) = data.getD i 0 := by
  rw [memcpy, if_pos (Nat.le_add_right start i), Nat.add_sub_cancel_left, getD_eq_getElem _ _ hi,
    getD_eq_getElem _ _ hi]

theorem memcpy_outside (buf : ℕ → UInt8) (start : ℕ) (data : List UInt8) {i : ℕ}
    (hi : i < start ∨ start + data.length ≤ i) : memcpy buf start data i = buf i := by
  unfold memcpy
  split_ifs with h
  · rw [getD_eq_default]
    omega
  · rfl

theorem advance_write (h : ring.Valid) (data : List UInt8) (hdata : data.length ≤ ringGetRest ring)
    (hend : ring.write + data.length ≤ ring.size) : let ring' := { ring with
      buf := memcpy ring.buf ring.write data
      write := cutdown ring (ring.write + data.length) }
    ring'.Valid ∧ ring'.contents = ring.contents ++ data := by
  have hcut := cutdown_eq hend
  have hrest := length_add_rest h
  have hread := h.read_lt
  have hwrite := h.write_lt
  have hused : used ring.size ring.read ring.write = ring.contents.length :=
    (Lib.Ring.length_contents ring.buf).symm
  have hlength := length_contents h
  have hfree : used ring.size ring.read ring.write + data.length < ring.size := by omega
  have hnew : ∀ i < data.length, memcpy ring.buf ring.write data ((ring.write + i) % ring.size) =
      data.getD i 0 := by
    intro i hi
    rw [mod_eq_of_lt (by omega)]
    exact memcpy_inside ring.buf ring.write data hi
  have hold : ∀ i < used ring.size ring.read ring.write,
      memcpy ring.buf ring.write data ((ring.read + i) % ring.size) =
        ring.buf ((ring.read + i) % ring.size) := by
    intro i hi
    apply memcpy_outside
    rw [hused, hlength] at hi
    rw [hused, hlength] at hfree
    by_cases hround : ring.read + i < ring.size
    · rw [mod_eq_of_lt hround]
      split_ifs at hi hfree <;> omega
    · rw [mod_eq_sub_mod (by omega), mod_eq_of_lt (by omega)]
      split_ifs at hi hfree <;> omega
  refine ⟨⟨h.read_lt, ?_⟩, ?_⟩
  · rw [hcut]
    exact mod_lt _ (zero_lt_of_lt h.write_lt)
  · simp only [Ring.contents, hcut]
    rw [Lib.Ring.contents_put hread hwrite hfree hnew hold]
    congr 1
    apply ext_getElem
    · simp
    · intro i hi _
      rw [length_map, length_range] at hi
      rw [getElem_map, getElem_range, getD_eq_getElem _ _ hi]

structure Put (ring : Ring) (data : List UInt8) (n : ℕ) (ring' : Ring) : Prop where
  count : n = min data.length (ringGetRest ring)
  valid : ring'.Valid
  contents : ring'.contents = ring.contents ++ data.take (ringGetRest ring)
  size : ring'.size = ring.size
  outside : ∀ i, ring.size ≤ i → ring'.buf i = ring.buf i

theorem putPiece_spec (h : ring.Valid) :
    (putPiece ring).1 ≤ ringGetRest ring ∧ ring.write + (putPiece ring).1 ≤ ring.size ∧
      ((putPiece ring).2 = true ∨ (putPiece ring).1 = 0 → (putPiece ring).1 = ringGetRest ring) := by
  have hread := h.read_lt
  have hwrite := h.write_lt
  rw [ringGetRest, putPiece]
  split_ifs
  · simp only
    exact ⟨by omega, by omega, fun _ => by omega⟩
  · simp only [false_or]
    omega
  · exact ⟨le_rfl, by omega, fun _ => rfl⟩

theorem putLoop_put (n : ℕ) (h : ring.Valid) (data : List UInt8) (hn : data.length < n) :
    ∃ taken ring', putLoop n ring data = some (taken, ring') ∧ Put ring data taken ring' := by
  induction n generalizing ring data with
  | zero => exact absurd hn (not_lt_zero _)
  | succ n ih =>
    obtain ⟨hlen, hend, hlast⟩ := putPiece_spec h
    have hfree := length_add_rest h
    unfold putLoop
    split_ifs with hzero
    · refine ⟨0, ring, rfl, ?_, h, ?_, rfl, fun _ _ => rfl⟩
      · rw [hzero, Nat.zero_min]
      · rw [eq_nil_of_length_eq_zero hzero, take_nil, append_nil]
    by_cases hempty : (putPiece ring).1 = 0
    · have hfull : ringGetRest ring = 0 := (hlast (.inr hempty)).symm.trans hempty
      simp only [if_pos hempty]
      refine ⟨0, ring, rfl, ?_, h, ?_, rfl, fun _ _ => rfl⟩
      · rw [hfull, Nat.min_zero]
      · rw [hfull, take_zero, append_nil]
    have htaken : (data.take (min (putPiece ring).1 data.length)).length =
        min (putPiece ring).1 data.length := by
      rw [length_take]
      omega
    obtain ⟨hvalid, hcontents⟩ := advance_write h (data.take (min (putPiece ring).1 data.length))
      (by omega) (by omega)
    have hfree' := length_add_rest hvalid
    rw [hcontents, length_append, htaken] at hfree'
    rw [htaken] at hvalid hcontents
    have houtside (i : ℕ) (hi : ring.size ≤ i) :
        memcpy ring.buf ring.write (data.take (min (putPiece ring).1 data.length)) i = ring.buf i := by
      apply memcpy_outside
      omega
    simp only [if_neg hempty]
    by_cases hpiece : (putPiece ring).2 = true
    · have hall := hlast (.inl hpiece)
      rw [if_pos hpiece]
      refine ⟨_, _, rfl, ?_, hvalid, ?_, rfl, houtside⟩
      · rw [hall, min_comm]
      · rw [hcontents, hall]
        congr 1
        rw [take_eq_take_iff]
        omega
    · rw [if_neg hpiece]
      obtain ⟨more, ring', hloop, hput⟩ := ih hvalid (data.drop (min (putPiece ring).1 data.length))
        (by rw [length_drop]; omega)
      rw [hloop]
      simp only at hfree'
      refine ⟨_, ring', rfl, ?_, hput.valid, ?_, hput.size, ?_⟩
      · rw [hput.count, length_drop]
        omega
      · rw [hput.contents, hcontents, append_assoc]
        congr 1
        rw [← take_add]
        congr 1
        omega
      · intro i hi
        rw [hput.outside i hi]
        exact houtside i hi

inductive Op where
  | rest
  | get (size : ℕ)
  | put (data : List UInt8)

inductive Answer where
  | count (n : ℕ)
  | bytes (out : List UInt8)
  deriving DecidableEq

def step (ring : Ring) : Op → Option (Answer × Ring)
  | .rest => some (.count (ringGetRest ring), ring)
  | .get size =>
    match ringGet ring size with
    | none => none
    | some (out, ring) => some (.bytes out, ring)
  | .put data =>
    match ringPut ring data with
    | none => none
    | some (n, ring) => some (.count n, ring)

def run (ring : Ring) : List Op → Option (List Answer × Ring)
  | [] => some ([], ring)
  | op :: ops =>
    match step ring op with
    | none => none
    | some (answer, ring) =>
      match run ring ops with
      | none => none
      | some (answers, ring) => some (answer :: answers, ring)

def queueStep (capacity : ℕ) (q : List UInt8) : Op → Answer × List UInt8
  | .rest => (.count (capacity - q.length), q)
  | .get size => (.bytes (q.take size), q.drop size)
  | .put data =>
    (.count (min data.length (capacity - q.length)), q ++ data.take (capacity - q.length))

def queueRun (capacity : ℕ) (q : List UInt8) : List Op → List Answer × List UInt8
  | [] => ([], q)
  | op :: ops =>
    let r := queueStep capacity q op
    let rest := queueRun capacity r.2 ops
    (r.1 :: rest.1, rest.2)

def returned : List Answer → List UInt8
  | [] => []
  | .bytes out :: answers => out ++ returned answers
  | .count _ :: answers => returned answers

def accepted : List Op → List Answer → List UInt8
  | .put data :: ops, .count n :: answers => data.take n ++ accepted ops answers
  | _ :: ops, _ :: answers => accepted ops answers
  | _, _ => []

theorem step_queue (h : ring.Valid) (op : Op) :
    ∃ ring', step ring op = some ((queueStep (ring.size - 1) ring.contents op).1, ring') ∧ ring'.Valid ∧
      ring'.size = ring.size ∧ ring'.contents = (queueStep (ring.size - 1) ring.contents op).2 := by
  have hrest : ring.size - 1 - ring.contents.length = ringGetRest ring := by
    have := length_add_rest h
    omega
  cases op with
  | rest =>
    refine ⟨ring, ?_, h, rfl, rfl⟩
    rw [step, queueStep, hrest]
  | get size =>
    obtain ⟨out, ring', hget, hgot⟩ := getLoop_got (size + 1) h size (lt_succ_self _)
    refine ⟨ring', ?_, hgot.valid, hgot.size, hgot.rest⟩
    rw [step, ringGet, hget, hgot.out]
    rfl
  | put data =>
    obtain ⟨n, ring', hloop, hput⟩ := putLoop_put (data.length + 1) h data (lt_succ_self _)
    refine ⟨ring', ?_, hput.valid, hput.size, ?_⟩
    · rw [step, ringPut, hloop, hput.count, queueStep, hrest]
    · rw [hput.contents, queueStep, hrest]

theorem run_queue (h : ring.Valid) (ops : List Op) :
    ∃ ring', run ring ops = some ((queueRun (ring.size - 1) ring.contents ops).1, ring') ∧ ring'.Valid ∧
      ring'.size = ring.size ∧ ring'.contents = (queueRun (ring.size - 1) ring.contents ops).2 := by
  induction ops generalizing ring with
  | nil => exact ⟨ring, rfl, h, rfl, rfl⟩
  | cons op ops ih =>
    obtain ⟨ring1, hstep, h1, hsize1, hcontents1⟩ := step_queue h op
    obtain ⟨ring2, hrun, h2, hsize2, hcontents2⟩ := ih h1
    rw [hsize1, hcontents1] at hrun hcontents2
    refine ⟨ring2, ?_, h2, hsize2.trans hsize1, hcontents2⟩
    rw [run, hstep]
    simp only [hrun]
    rfl

theorem queueRun_order (capacity : ℕ) (q : List UInt8) (ops : List Op) :
    returned (queueRun capacity q ops).1 ++ (queueRun capacity q ops).2 =
      q ++ accepted ops (queueRun capacity q ops).1 := by
  induction ops generalizing q with
  | nil => exact (append_nil q).symm
  | cons op ops ih =>
    cases op with
    | rest => exact ih q
    | get size =>
      have hnext := ih (q.drop size)
      simp only [queueRun, queueStep, returned, accepted]
      rw [append_assoc, hnext, ← append_assoc, take_append_drop]
    | put data =>
      have hnext := ih (q ++ data.take (capacity - q.length))
      simp only [queueRun, queueStep, returned, accepted]
      rw [hnext, append_assoc]
      congr 2
      rw [take_eq_take_iff]
      omega

theorem ringCreate_valid {buf : ℕ → UInt8} {size : ℕ} (hcreate : ringCreate buf size = some ring) :
    ring.Valid ∧ ring.size = size - headerSize ∧ ring.contents = [] := by
  unfold ringCreate at hcreate
  split_ifs at hcreate with hsize
  cases hcreate
  have hpos : 0 < size - headerSize := by omega
  exact ⟨⟨hpos, hpos⟩, rfl, Lib.Ring.contents_self _ hpos⟩

/-- A ring answers as a queue does whose capacity is one less than its buffer. -/
theorem ring_queue (buf : ℕ → UInt8) (size : ℕ) (ring : Ring) (hcreate : ringCreate buf size = some ring)
    (ops : List Op) : ∃ answers ring', run ring ops = some (answers, ring') ∧
      answers = (queueRun (size - headerSize - 1) [] ops).1 ∧
      returned answers ++ ring'.contents = accepted ops answers ∧
      ring'.size = size - headerSize ∧ ring'.read < ring'.size ∧ ring'.write < ring'.size ∧
      ring'.contents.length + ringGetRest ring' = size - headerSize - 1 ∧
      (∀ data, ∃ r, ringPut ring' data = some (min data.length (ringGetRest ring'), r)) ∧
      ∀ n, ∃ out r, ringGet ring' n = some (out, r) ∧ out = ring'.contents.take n ∧
        out.length = min n ring'.contents.length := by
  obtain ⟨h, hsize, hempty⟩ := ringCreate_valid hcreate
  obtain ⟨ring', hrun, h', hsize', hcontents⟩ := run_queue h ops
  rw [hsize, hempty] at hrun hcontents
  have horder := queueRun_order (size - headerSize - 1) [] ops
  rw [← hcontents, nil_append] at horder
  have hrest := length_add_rest h'
  rw [hsize', hsize] at hrest
  refine ⟨_, ring', hrun, rfl, horder, hsize'.trans hsize, h'.read_lt, h'.write_lt, hrest, ?_, ?_⟩
  · intro data
    obtain ⟨n, r, hloop, hput⟩ := putLoop_put (data.length + 1) h' data (lt_succ_self _)
    refine ⟨r, ?_⟩
    rw [ringPut, hloop, hput.count]
  · intro n
    obtain ⟨out, r, hloop, hgot⟩ := getLoop_got (n + 1) h' n (lt_succ_self _)
    refine ⟨out, r, hloop, hgot.out, ?_⟩
    rw [hgot.out, length_take]

def smallRing : Ring := ⟨0, 0, 4, fun _ => 0⟩

theorem ring_queue_small : ringCreate (fun _ => 0) 16 = some smallRing ∧
    ∃ ring', run smallRing [.put [1, 2], .get 1, .put [3, 4, 5], .get 4] =
      some ([.count 2, .bytes [1], .count 2, .bytes [2, 3, 4]], ring') := by
  have hcreate : ringCreate (fun _ => 0) 16 = some smallRing := rfl
  refine ⟨hcreate, ?_⟩
  obtain ⟨answers, ring', hrun, hanswers, -⟩ :=
    ring_queue (fun _ => 0) 16 smallRing hcreate [.put [1, 2], .get 1, .put [3, 4, 5], .get 4]
  refine ⟨ring', hrun.trans ?_⟩
  rw [hanswers]
  rfl

end Eotan.RingBuffer
