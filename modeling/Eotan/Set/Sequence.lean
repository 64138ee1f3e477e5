import Mathlib.Algebra.Order.Ring.Int
import Mathlib.Data.Finset.Card
import Mathlib.Data.List.Range
import Mathlib.Logic.Function.Basic

/-!
The allocator of small numbers (`sequence.c`, `sequence_initialize.c`) and the bit search of
`mpu/bits.h` it uses. A set bit of the map is a number that is free.
-/

namespace Eotan.Sequence

open List

def countNtz (d : BitVec 32) : ℕ := ((List.range 32).find? fun i => d.getLsbD i).getD 32

theorem countNtz_spec {d : BitVec 32} (h : d ≠ 0#32) : countNtz d < 32 ∧ d.getLsbD (countNtz d) = true := by
  unfold countNtz
  cases hf : (range 32).find? fun i => d.getLsbD i with
  | some i =>
    have hi := mem_of_find?_eq_some hf
    exact ⟨by simpa using hi, by simpa using find?_some hf⟩
  | none =>
    exfalso
    apply h
    apply BitVec.eq_of_getLsbD_eq
    intro i hi
    have := find?_eq_none.mp hf i (by simpa using hi)
    simpa using this

theorem countNtz_min {d : BitVec 32} {i : ℕ} (hi : i < countNtz d) : d.getLsbD i = false := by
  unfold countNtz at hi
  cases hf : (range 32).find? fun i => d.getLsbD i with
  | some j =>
    rw [hf, Option.getD_some] at hi
    have hmin := (find?_range_eq_some.mp hf).2.2 i hi
    simpa using hmin
  | none =>
    by_cases h32 : i < 32
    · have := find?_eq_none.mp hf i (mem_range.mpr h32)
      simpa using this
    · exact BitVec.getLsbD_of_ge d i (by omega)

structure Seq where
  rest : ℕ
  clockBlock : ℕ
  numOfBlocks : ℕ
  map : ℕ → BitVec 32
  mask : BitVec 32

def blockSize (n : ℕ) : ℕ := (n + 31) / 32

def sequenceInitialize (max : ℕ) : Seq where
  rest := max
  clockBlock := 0
  numOfBlocks := blockSize max
  map i :=
    if max % 32 ≠ 0 ∧ i = blockSize max - 1 then (1#32 <<< (max % 32)) - 1#32 else BitVec.allOnes 32
  mask := BitVec.allOnes 32

def find (s : Seq) (block : ℕ) : Option ℕ × Seq :=
  let bits := s.map block &&& s.mask
  if bits ≠ 0#32 then
    let offset := countNtz bits
    let b := 1#32 <<< offset
    (some (block * 32 + offset),
      { s with
        rest := s.rest - 1
        clockBlock := block
        map := Function.update s.map block (s.map block &&& ~~~b)
        mask := ~~~((b <<< 1) - 1#32) })
  else
    (none, { s with mask := BitVec.allOnes 32 })

def findIn (s : Seq) : List ℕ → Option ℕ × Seq
  | [] => (none, s)
  | block :: blocks =>
    match find s block with
    | (some n, s') => (some n, s')
    | (none, s') => findIn s' blocks

def sequenceGet (s : Seq) : Option ℕ × Seq :=
  if s.rest > 0 then
    match findIn s (List.range' s.clockBlock (s.numOfBlocks - s.clockBlock)) with
    | (some n, s') => (some n, s')
    | (none, s') => findIn s' (List.range (s'.clockBlock + 1))
  else
    (none, s)

/-- `sequence_release`; the number is an `int`, read as unsigned by the shift. -/
def sequenceRelease (s : Seq) (n : ℤ) : Seq :=
  let u := (n % 2 ^ 32).toNat
  let block := u / 32
  let bits := 1#32 <<< (u % 32)
  if block ≥ s.numOfBlocks then s
  else if s.map block &&& bits ≠ 0#32 then s
  else
    let s' := { s with map := Function.update s.map block (s.map block ||| bits) }
    let s'' := if s.rest = 0 then { s' with clockBlock := block, mask := BitVec.allOnes 32 } else s'
    { s'' with rest := s.rest + 1 }

def Free (s : Seq) (n : ℕ) : Prop :=
  n / 32 < s.numOfBlocks ∧ (s.map (n / 32)).getLsbD (n % 32) = true

instance (s : Seq) (n : ℕ) : Decidable (Free s n) := by unfold Free; infer_instance

theorem getLsbD_one_shiftLeft {i j : ℕ} (hi : i < 32) : (1#32 <<< j).getLsbD i = decide (i = j) := by
  rw [BitVec.getLsbD_shiftLeft, BitVec.getLsbD_one, decide_eq_true hi, Bool.true_and, Bool.eq_iff_iff]
  simp only [Bool.and_eq_true, Bool.not_eq_true', decide_eq_false_iff_not, decide_eq_true_eq]
  omega

variable {s s' : Seq} {n max : ℕ}

theorem find_none {block : ℕ} (h : find s block = (none, s')) : s' = { s with mask := BitVec.allOnes 32 } ∧
      (s.mask = BitVec.allOnes 32 → s.map block = 0#32) := by
  simp only [find] at h
  split_ifs at h with hb
  · simp at h
  simp only [Prod.mk.injEq, true_and] at h
  refine ⟨h.symm, ?_⟩
  intro hm
  rw [hm, BitVec.and_allOnes] at hb
  exact not_not.mp hb

structure Taken (s s' : Seq) (n : ℕ) : Prop where
  free : Free s n
  left : ∀ m, Free s' m ↔ Free s m ∧ m ≠ n
  rest : s'.rest = s.rest - 1
  blocks : s'.numOfBlocks = s.numOfBlocks
  clock : s'.clockBlock < s.numOfBlocks

theorem find_some {block : ℕ} (hb : block < s.numOfBlocks) (h : find s block = (some n, s')) : Taken s s' n := by
  simp only [find] at h
  split_ifs at h with hz
  · simp only [Prod.mk.injEq, Option.some.injEq] at h
    obtain ⟨rfl, rfl⟩ := h
    obtain ⟨hlt, hbit⟩ := countNtz_spec hz
    generalize countNtz (s.map block &&& s.mask) = offset at hlt hbit
    rw [BitVec.getLsbD_and, Bool.and_eq_true] at hbit
    have hdiv : (block * 32 + offset) / 32 = block := by omega
    have hmod : (block * 32 + offset) % 32 = offset := by omega
    constructor
    · exact ⟨by rw [hdiv]; exact hb, by rw [hdiv, hmod]; exact hbit.1⟩
    · intro m
      simp only [Free, Function.update_apply]
      by_cases hm : m / 32 = block
      · have hlt : m % 32 < 32 := Nat.mod_lt _ (by decide)
        rw [if_pos hm, hm, BitVec.getLsbD_and, BitVec.getLsbD_not, getLsbD_one_shiftLeft hlt]
        simp only [hlt, decide_true, Bool.true_and, Bool.and_eq_true, Bool.not_eq_true',
          decide_eq_false_iff_not, and_assoc]
        have : m % 32 = offset ↔ m = block * 32 + offset := by omega
        rw [this]
      · rw [if_neg hm]
        have : m ≠ block * 32 + offset := by
          rintro rfl
          exact hm hdiv
        simp [this]
    · rfl
    · rfl
    · exact hb
  · simp at h

theorem findIn_some {blocks : List ℕ} (hb : ∀ b ∈ blocks, b < s.numOfBlocks)
    (h : findIn s blocks = (some n, s')) : Taken s s' n := by
  induction blocks generalizing s with
  | nil => simp [findIn] at h
  | cons block blocks ih =>
    unfold findIn at h
    split at h
    · rename_i n' s1 hf
      cases h
      exact find_some (hb _ mem_cons_self) hf
    rename_i s1 hf
    obtain ⟨rfl, -⟩ := find_none hf
    have := ih (s := { s with mask := BitVec.allOnes 32 }) (fun b hm => hb b (mem_cons_of_mem _ hm)) h
    exact ⟨this.free, this.left, this.rest, this.blocks, this.clock⟩

theorem findIn_none {blocks : List ℕ} (h : findIn s blocks = (none, s')) :
    s'.map = s.map ∧ s'.rest = s.rest ∧ s'.numOfBlocks = s.numOfBlocks ∧
      s'.clockBlock = s.clockBlock ∧ (blocks ≠ [] → s'.mask = BitVec.allOnes 32) ∧
      (s.mask = BitVec.allOnes 32 → ∀ b ∈ blocks, s.map b = 0#32) ∧ ∀ b ∈ blocks.tail, s.map b = 0#32 := by
  induction blocks generalizing s with
  | nil =>
    cases h
    simp
  | cons block blocks ih =>
    unfold findIn at h
    split at h
    · cases h
    rename_i s1 hf
    obtain ⟨rfl, hz⟩ := find_none hf
    obtain ⟨h1, h2, h3, h4, h5, h6, -⟩ := ih h
    refine ⟨h1, h2, h3, h4, ?_, ?_, h6 rfl⟩
    · intro _
      cases blocks with
      | nil => cases h; rfl
      | cons b bs => exact h5 (by simp)
    · exact fun hm => forall_mem_cons.mpr ⟨hz hm, h6 rfl⟩

structure Valid (s : Seq) (max : ℕ) : Prop where
  clock : s.clockBlock < s.numOfBlocks
  bound : ∀ n, Free s n → n < max
  rest : s.rest = ((Finset.range max).filter (Free s)).card

theorem getLsbD_low_ones {r : ℕ} (hr : r < 32) (i : ℕ) : (1#32 <<< r - 1#32).getLsbD i = decide (i < r) := by
  have hpow : 2 ^ r < 2 ^ 32 := Nat.pow_lt_pow_right (by decide) hr
  have hpos := Nat.two_pow_pos r
  have hn : (1#32 <<< r - 1#32).toNat = 2 ^ r - 1 := by
    have hs : (1#32 <<< r).toNat = 2 ^ r := by
      rw [BitVec.toNat_shiftLeft, Nat.shiftLeft_eq]
      show 1 * 2 ^ r % 2 ^ 32 = 2 ^ r
      rw [Nat.one_mul, Nat.mod_eq_of_lt hpow]
    rw [BitVec.toNat_sub, hs]
    simp only [BitVec.toNat_ofNat]
    omega
  rw [BitVec.getLsbD, hn, Nat.testBit_two_pow_sub_one]

theorem sequenceInitialize_free (n : ℕ) : Free (sequenceInitialize max) n ↔ n < max := by
  have hlt : n % 32 < 32 := Nat.mod_lt _ (by decide)
  have hm : max % 32 < 32 := Nat.mod_lt _ (by decide)
  have hb : blockSize max = (max + 31) / 32 := rfl
  simp only [Free, sequenceInitialize]
  split_ifs with h
  · rw [getLsbD_low_ones hm, decide_eq_true_eq]
    omega
  · simp only [BitVec.getLsbD_allOnes, hlt, decide_true, and_true]
    omega

theorem sequenceInitialize_valid (h : 0 < max) : Valid (sequenceInitialize max) max := by
  refine ⟨?_, fun n hn => (sequenceInitialize_free n).mp hn, ?_⟩
  · show 0 < (max + 31) / 32
    omega
  · have : (Finset.range max).filter (Free (sequenceInitialize max)) = Finset.range max := by
      apply Finset.filter_true_of_mem
      intro n hn
      exact (sequenceInitialize_free n).mpr (Finset.mem_range.mp hn)
    rw [this, Finset.card_range]
    rfl

theorem sequenceGet_some (hv : Valid s max) (h : sequenceGet s = (some n, s')) : Taken s s' n := by
  have hclock := hv.clock
  unfold sequenceGet at h
  split_ifs at h with hr
  · split at h
    · rename_i n' s1 hf
      cases h
      apply findIn_some _ hf
      intro b hb
      simp only [mem_range'_1] at hb
      omega
    · rename_i s1 hf
      obtain ⟨hmap, hrest, hnum, hclk, -⟩ := findIn_none hf
      have ht := findIn_some (by
        intro b hb
        simp only [mem_range] at hb
        omega) h
      have hfree : ∀ m, Free s1 m ↔ Free s m := by
        intro m
        simp only [Free, hmap, hnum]
      refine ⟨(hfree n).mp ht.free, ?_, ?_, ht.blocks.trans hnum, ?_⟩
      · intro m
        rw [ht.left, hfree]
      · rw [ht.rest, hrest]
      · rw [← hnum]
        exact ht.clock
  · cases h

theorem sequenceGet_none (hv : Valid s max) (h : sequenceGet s = (none, s')) : (∀ n, ¬Free s n) ∧ Valid s' max ∧
      (∀ n, ¬Free s' n) ∧ s'.numOfBlocks = s.numOfBlocks := by
  unfold sequenceGet at h
  split_ifs at h with hr
  · split at h
    · cases h
    rename_i s1 hf
    obtain ⟨hmap, hrest, hnum, hclk, hmask, -, htail⟩ := findIn_none hf
    obtain ⟨hmap', hrest', hnum', hclk', -, hall, -⟩ := findIn_none h
    have hclock := hv.clock
    have hm := hmask (by
      intro he
      have := congrArg length he
      simp only [length_range', length_nil] at this
      omega)
    have hzero : ∀ b < s.numOfBlocks, s.map b = 0#32 := by
      intro b hb
      by_cases hle : b ≤ s.clockBlock
      · rw [← hmap]
        apply hall hm
        simp only [mem_range]
        omega
      · apply htail
        have hk : s.numOfBlocks - s.clockBlock = s.numOfBlocks - s.clockBlock - 1 + 1 := by omega
        rw [hk, range'_succ, tail_cons, mem_range'_1]
        omega
    have hno : ∀ n, ¬Free s n := by
      rintro n ⟨hn, hbit⟩
      rw [hzero _ hn] at hbit
      simp at hbit
    have hfree : ∀ n, Free s' n ↔ Free s n := by
      intro n
      simp only [Free, hmap, hnum, hmap', hnum']
    refine ⟨hno, ⟨by omega, fun n hn => hv.bound n ((hfree n).mp hn), ?_⟩, ?_, hnum'.trans hnum⟩
    · simp only [hfree, hrest', hrest, hv.rest]
    · intro n hn
      exact hno n ((hfree n).mp hn)
  · cases h
    have hno : ∀ n, ¬Free s n := by
      intro n hn
      have hc := hv.rest
      rw [Nat.eq_zero_of_not_pos hr, eq_comm, Finset.card_eq_zero] at hc
      have : n ∈ (Finset.range max).filter (Free s) := by
        simp [hn, hv.bound n hn]
      simp [hc] at this
    exact ⟨hno, hv, hno, rfl⟩

theorem sequenceGet_valid (hv : Valid s max) (h : sequenceGet s = (some n, s')) : Valid s' max := by
  have ht := sequenceGet_some hv h
  refine ⟨by rw [ht.blocks]; exact ht.clock, ?_, ?_⟩
  · intro m hm
    exact hv.bound m ((ht.left m).mp hm).1
  · have hsub : (Finset.range max).filter (Free s') = ((Finset.range max).filter (Free s)).erase n := by
      ext m
      simp only [Finset.mem_filter, Finset.mem_erase, ht.left]
      tauto
    rw [ht.rest, hv.rest, hsub, Finset.card_erase_of_mem]
    simp [ht.free, hv.bound n ht.free]

theorem and_bit_eq_zero (hb : n / 32 < s.numOfBlocks) (hf : ¬Free s n) :
    s.map (n / 32) &&& 1#32 <<< (n % 32) = 0#32 := by
  have hbit : (s.map (n / 32)).getLsbD (n % 32) = false := by
    simpa [Free, hb] using hf
  apply BitVec.eq_of_getLsbD_eq
  intro i hi
  rw [BitVec.getLsbD_and, getLsbD_one_shiftLeft hi]
  by_cases he : i = n % 32
  · simp [he, hbit]
  · simp [he]

theorem sequenceRelease_of_free (hn : n < 2 ^ 32) (hf : Free s n) : sequenceRelease s n = s := by
  obtain ⟨hb, hbit⟩ := hf
  have hu : ((n : ℤ) % 2 ^ 32).toNat = n := by omega
  unfold sequenceRelease
  simp only [hu]
  rw [if_neg (by omega), if_pos]
  intro hz
  have := congrArg (BitVec.getLsbD · (n % 32)) hz
  simp [hbit, BitVec.getLsbD_and, getLsbD_one_shiftLeft (Nat.mod_lt n (by decide : 0 < 32))] at this

theorem sequenceRelease_free (hn : n < 2 ^ 32) (hb : n / 32 < s.numOfBlocks)
    (m : ℕ) : Free (sequenceRelease s n) m ↔ Free s m ∨ m = n := by
  by_cases hf : Free s n
  · rw [sequenceRelease_of_free hn hf]
    constructor
    · exact .inl
    · rintro (h | rfl) <;> assumption
  have hu : ((n : ℤ) % 2 ^ 32).toNat = n := by omega
  have hz := and_bit_eq_zero hb hf
  have hfields : (sequenceRelease s n).numOfBlocks = s.numOfBlocks ∧ (sequenceRelease s n).map =
      Function.update s.map (n / 32) (s.map (n / 32) ||| 1#32 <<< (n % 32)) := by
    unfold sequenceRelease
    simp only [hu]
    rw [if_neg (by omega), if_neg (by simp [hz])]
    split_ifs <;> exact ⟨rfl, rfl⟩
  simp only [Free, hfields, Function.update_apply]
  by_cases hm : m / 32 = n / 32
  · have hlt : m % 32 < 32 := Nat.mod_lt _ (by decide)
    have : m % 32 = n % 32 ↔ m = n := by omega
    rw [if_pos hm, BitVec.getLsbD_or, getLsbD_one_shiftLeft hlt, Bool.or_eq_true, decide_eq_true_eq, this, hm]
    tauto
  · have : m ≠ n := by
      rintro rfl
      exact hm rfl
    simp [hm, this]

theorem sequenceRelease_numOfBlocks (s : Seq) (n : ℤ) : (sequenceRelease s n).numOfBlocks = s.numOfBlocks := by
  simp only [sequenceRelease]
  split_ifs <;> rfl

theorem sequenceRelease_valid (hv : Valid s max) (hn : n < 2 ^ 32)
    (hb : n / 32 < s.numOfBlocks) (hmax : n < max) : Valid (sequenceRelease s n) max := by
  by_cases hf : Free s n
  · rw [sequenceRelease_of_free hn hf]
    exact hv
  have hfree := sequenceRelease_free hn hb
  have hu : ((n : ℤ) % 2 ^ 32).toNat = n := by omega
  refine ⟨?_, ?_, ?_⟩
  · have hclock := hv.clock
    unfold sequenceRelease
    simp only [hu]
    split_ifs <;> first | exact hclock | (show _ < s.numOfBlocks; omega)
  · intro m hm
    rcases (hfree m).mp hm with h | rfl
    · exact hv.bound m h
    · exact hmax
  · have hins : (Finset.range max).filter (Free (sequenceRelease s n)) =
        insert n ((Finset.range max).filter (Free s)) := by
      ext m
      simp only [Finset.mem_filter, Finset.mem_range, Finset.mem_insert, hfree]
      constructor
      · tauto
      · rintro (rfl | ⟨h1, h2⟩)
        · exact ⟨hmax, .inr rfl⟩
        · exact ⟨h1, .inl h2⟩
    rw [hins, Finset.card_insert_of_notMem (by simp [hf]), ← hv.rest]
    have hz := and_bit_eq_zero hb hf
    unfold sequenceRelease
    simp only [hu]
    rw [if_neg (by omega), if_neg (by simp [hz])]

end Eotan.Sequence
