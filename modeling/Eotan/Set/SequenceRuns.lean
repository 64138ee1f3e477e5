import Eotan.Set.Sequence

namespace Eotan.Sequence

def intMax : ℕ := 2 ^ 31 - 1

def sequenceCreate (max : ℕ) : Option Seq :=
  if max = 0 ∨ max > intMax then none else some (sequenceInitialize max)

inductive Call where
  | get
  | release (n : ℕ)

structure Issued where
  seq : Seq
  held : Finset ℕ

def Issued.step (s : Issued) : Call → Issued
  | .get =>
    match sequenceGet s.seq with
    | (some n, seq) => ⟨seq, insert n s.held⟩
    | (none, seq) => ⟨seq, s.held⟩
  | .release n => ⟨sequenceRelease s.seq n, s.held.erase n⟩

def Issued.run (s : Issued) (calls : List Call) : Issued := calls.foldl Issued.step s

structure Issued.Ok (s : Issued) (max : ℕ) : Prop where
  valid : Valid s.seq max
  blocks : s.seq.numOfBlocks = blockSize max
  free : ∀ n, Free s.seq n ↔ n < max ∧ n ∉ s.held
  held : ∀ n ∈ s.held, n < max

variable {max : ℕ} {s : Issued}

theorem Issued.Ok.get (h : s.Ok max) : (s.step .get).Ok max := by
  unfold Issued.step
  rcases hget : sequenceGet s.seq with ⟨_ | n, seq⟩
  · obtain ⟨hno, hvalid, hno', hblocks⟩ := sequenceGet_none h.valid hget
    refine ⟨hvalid, hblocks.trans h.blocks, ?_, h.held⟩
    intro m
    have hiff : Free seq m ↔ Free s.seq m := ⟨fun hm => absurd hm (hno' m), fun hm => absurd hm (hno m)⟩
    rw [hiff, h.free m]
  · have htaken := sequenceGet_some h.valid hget
    have hn := (h.free n).mp htaken.free
    refine ⟨sequenceGet_valid h.valid hget, htaken.blocks.trans h.blocks, ?_, ?_⟩
    · intro m
      rw [htaken.left, h.free, Finset.mem_insert]
      tauto
    · intro m hm
      rcases Finset.mem_insert.mp hm with rfl | hm
      · exact hn.1
      · exact h.held m hm

theorem Issued.Ok.release {n : ℕ} (h : s.Ok max) (hmax : max ≤ intMax)
    (hn : n < max) : (s.step (.release n)).Ok max := by
  have hword : n < 2 ^ 32 := lt_of_lt_of_le hn (le_trans hmax (by decide))
  have hblock : n / 32 < s.seq.numOfBlocks := by
    rw [h.blocks, blockSize]
    omega
  refine ⟨sequenceRelease_valid h.valid hword hblock hn, ?_, ?_, ?_⟩
  · exact (sequenceRelease_numOfBlocks _ _).trans h.blocks
  · intro m
    have hfree := sequenceRelease_free hword hblock m
    refine hfree.trans ?_
    rw [h.free]
    change _ ↔ m < max ∧ m ∉ s.held.erase n
    rw [Finset.mem_erase]
    by_cases hm : m = n
    · subst hm
      simp [hn]
    · simp [hm]
  · intro m hm
    exact h.held m (Finset.mem_of_mem_erase hm)

theorem Issued.Ok.run (hmax : max ≤ intMax) (calls : List Call)
    (hcalls : ∀ n, .release n ∈ calls → n < max) (h : s.Ok max) : (s.run calls).Ok max := by
  induction calls generalizing s with
  | nil => exact h
  | cons call calls ih =>
    apply ih
    · intro n hn
      exact hcalls n (List.mem_cons_of_mem _ hn)
    · cases call with
      | get => exact h.get
      | release n => exact h.release hmax (hcalls n List.mem_cons_self)

theorem sequenceInitialize_ok (h : 0 < max) : Issued.Ok ⟨sequenceInitialize max, ∅⟩ max := by
  refine ⟨sequenceInitialize_valid h, rfl, ?_, ?_⟩
  · intro n
    rw [sequenceInitialize_free]
    simp
  · simp

theorem sequence_run {max : ℕ} {seq : Seq} (hcreate : sequenceCreate max = some seq)
    (calls : List Call) (hcalls : ∀ n, .release n ∈ calls → n < max) {s : Issued}
    (hs : s = Issued.run ⟨seq, ∅⟩ calls) :
    s.seq.rest = ((Finset.range (32 * s.seq.numOfBlocks)).filter (Free s.seq)).card ∧
      (∀ n, (sequenceGet s.seq).1 = some n → n < max ∧ n ∉ s.held) ∧
      ((sequenceGet s.seq).1 = none ↔ s.held = Finset.range max) ∧
      ∀ n < max, n ∉ s.held → sequenceRelease s.seq n = s.seq := by
  unfold sequenceCreate at hcreate
  split_ifs at hcreate with hbad
  rw [not_or, not_lt] at hbad
  obtain rfl := Option.some.inj hcreate
  have hok : s.Ok max := by
    rw [hs]
    exact Issued.Ok.run hbad.2 calls hcalls (sequenceInitialize_ok (Nat.pos_of_ne_zero hbad.1))
  have hsome : ∀ n, (sequenceGet s.seq).1 = some n → n < max ∧ n ∉ s.held := by
    intro n hn
    have htaken := sequenceGet_some hok.valid (Prod.ext hn rfl)
    exact (hok.free n).mp htaken.free
  refine ⟨?_, hsome, ⟨?_, ?_⟩, ?_⟩
  · -- the bits at and above `max` are not free
    rw [hok.valid.rest]
    congr 1
    ext n
    simp only [Finset.mem_filter, Finset.mem_range, and_congr_left_iff]
    intro hfree
    have hmax := hok.valid.bound n hfree
    have hblock := hfree.1
    omega
  · intro hnone
    obtain ⟨hno, -⟩ := sequenceGet_none hok.valid (Prod.ext hnone rfl)
    ext n
    rw [Finset.mem_range]
    refine ⟨hok.held n, ?_⟩
    intro hn
    by_contra hheld
    exact hno n ((hok.free n).mpr ⟨hn, hheld⟩)
  · intro hall
    rcases hget : (sequenceGet s.seq).1 with _ | n
    · rfl
    · obtain ⟨hn, hheld⟩ := hsome n hget
      rw [hall, Finset.mem_range] at hheld
      exact absurd hn hheld
  · intro n hn hheld
    have hword : n < 2 ^ 32 := lt_of_lt_of_le hn (le_trans hbad.2 (by decide))
    exact sequenceRelease_of_free hword ((hok.free n).mpr ⟨hn, hheld⟩)

theorem sequence_run_three :
    (sequenceGet (Issued.run ⟨sequenceInitialize 3, ∅⟩ [.get, .release 0, .get]).seq).1 = some 2 ∧
      2 ∉ (Issued.run ⟨sequenceInitialize 3, ∅⟩ [.get, .release 0, .get]).held := by
  have hget : (sequenceGet (Issued.run ⟨sequenceInitialize 3, ∅⟩ [.get, .release 0, .get]).seq).1 =
      some 2 := by decide +kernel
  have hrun := sequence_run (s := Issued.run ⟨sequenceInitialize 3, ∅⟩ [.get, .release 0, .get])
    (show sequenceCreate 3 = some (sequenceInitialize 3) by rfl) [.get, .release 0, .get]
    (by simp) rfl
  exact ⟨hget, (hrun.2.1 2 hget).2⟩

def Padded (max : ℕ) (n : ℤ) : Prop := max ≤ n ∧ n < 32 * blockSize max

inductive Reached (max : ℕ) (Allowed : ℤ → Prop) : Seq → Prop
  | create {s : Seq} (h : sequenceCreate max = some s) : Reached max Allowed s
  | get {s : Seq} (h : Reached max Allowed s) : Reached max Allowed (sequenceGet s).2
  | release {s : Seq} (h : Reached max Allowed s) {n : ℤ} (hint : -2 ^ 31 ≤ n ∧ n < 2 ^ 31)
      (hn : Allowed n) : Reached max Allowed (sequenceRelease s n)

theorem sequenceRelease_outside {s : Seq} {n : ℤ} (hblocks : s.numOfBlocks = blockSize max)
    (hmax : max ≤ intMax) (hint : -2 ^ 31 ≤ n ∧ n < 2 ^ 31) (hout : n < 0 ∨ max ≤ n)
    (hpad : ¬Padded max n) : sequenceRelease s n = s := by
  have hblock : (n % 2 ^ 32).toNat / 32 ≥ s.numOfBlocks := by
    rw [hblocks]
    unfold Padded at hpad
    unfold intMax at hmax
    unfold blockSize at hpad ⊢
    omega
  simp only [sequenceRelease]
  rw [if_pos hblock]

theorem Reached.valid {s : Seq} (h : Reached max (¬Padded max ·) s) :
    Valid s max ∧ s.numOfBlocks = blockSize max ∧ max ≤ intMax := by
  induction h with
  | create h =>
    unfold sequenceCreate at h
    split_ifs at h with hbad
    rw [not_or, not_lt] at hbad
    obtain rfl := Option.some.inj h
    exact ⟨sequenceInitialize_valid (Nat.pos_of_ne_zero hbad.1), rfl, hbad.2⟩
  | @get s _ ih =>
    obtain ⟨hvalid, hblocks, hmax⟩ := ih
    rcases hget : sequenceGet s with ⟨_ | n, s'⟩
    · obtain ⟨-, hvalid', -, hsame⟩ := sequenceGet_none hvalid hget
      exact ⟨hvalid', hsame.trans hblocks, hmax⟩
    · have htaken := sequenceGet_some hvalid hget
      exact ⟨sequenceGet_valid hvalid hget, htaken.blocks.trans hblocks, hmax⟩
  | @release s _ n hint hn ih =>
    obtain ⟨hvalid, hblocks, hmax⟩ := ih
    refine ⟨?_, (sequenceRelease_numOfBlocks s n).trans hblocks, hmax⟩
    by_cases hout : n < 0 ∨ max ≤ n
    · rw [sequenceRelease_outside hblocks hmax hint hout hn]
      exact hvalid
    rw [not_or, not_lt, not_le] at hout
    lift n to ℕ using hout.1
    apply sequenceRelease_valid hvalid (by omega) _ (by omega)
    rw [hblocks, blockSize]
    omega

theorem release_harmless {s : Seq} (h : Reached max (¬Padded max ·) s) :
    (∀ n : ℤ, -2 ^ 31 ≤ n ∧ n < 2 ^ 31 → n < 0 ∨ max ≤ n → ¬Padded max n →
      sequenceRelease s n = s) ∧ ∀ n, (sequenceGet s).1 = some n → n < max := by
  obtain ⟨hvalid, hblocks, hmax⟩ := h.valid
  constructor
  · intro n hint hout hpad
    exact sequenceRelease_outside hblocks hmax hint hout hpad
  · intro n hn
    exact hvalid.bound n (sequenceGet_some hvalid (Prod.ext hn rfl)).free

theorem release_harmless_three : sequenceRelease (sequenceInitialize 3) (-1) = sequenceInitialize 3 :=
  (release_harmless (.create (show sequenceCreate 3 = some (sequenceInitialize 3) by rfl))).1 (-1)
    (by decide) (by decide) (by simp [Padded])

theorem release_padded : ∃ s, Reached 3 (fun _ => True) s ∧ (sequenceRelease s 3).rest ≠ s.rest ∧
    ∃ s', Reached 3 (fun _ => True) s' ∧ (sequenceGet s').1 = some 3 := by
  have hinit : Reached 3 (fun _ => True) (sequenceInitialize 3) := .create rfl
  exact ⟨_, hinit, by decide +kernel, _, (hinit.release (n := 3) (by decide) trivial).get.get.get,
    by decide +kernel⟩

end Eotan.Sequence
