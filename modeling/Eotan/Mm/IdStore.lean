import Eotan.Set.Sequence

/-!
The stores of ids of the process server: a `sequence_t` of 1024 numbers whose 0 is never given out
(`create_id_store`).
-/

namespace Eotan.Mm

open Sequence

/-- `PROCESS_MAX`, `THREAD_MAX`, `FILE_MAX` and `SESSION_MAX`. -/
def idMax : ℕ := 1024

def createIdStore : Seq := (sequenceGet (sequenceInitialize idMax)).2

structure Ids (s : Seq) (used : ℕ → Prop) : Prop where
  valid : Valid s idMax
  blocks : s.numOfBlocks = 32
  free : ∀ n, Free s n ↔ n < idMax ∧ ¬used n

variable {s : Seq} {used : ℕ → Prop}

theorem Ids.congr {used' : ℕ → Prop} (h : Ids s used) (heq : ∀ n, used' n ↔ used n) : Ids s used' := by
  refine ⟨h.valid, h.blocks, ?_⟩
  intro n
  rw [h.free, heq]

theorem Ids.get {s' : Seq} {n : ℕ} (h : Ids s used) (hget : sequenceGet s = (some n, s')) :
    n < idMax ∧ ¬used n ∧ Ids s' fun m => used m ∨ m = n := by
  have htaken := sequenceGet_some h.valid hget
  have hfree := (h.free n).mp htaken.free
  refine ⟨hfree.1, hfree.2, sequenceGet_valid h.valid hget, htaken.blocks.trans h.blocks, ?_⟩
  intro m
  rw [htaken.left, h.free]
  tauto

theorem Ids.get_none {s' : Seq} (h : Ids s used)
    (hget : sequenceGet s = (none, s')) : (∀ n < idMax, used n) ∧ Ids s' used := by
  obtain ⟨hno, hvalid, hno', hblocks⟩ := sequenceGet_none h.valid hget
  have hall : ∀ n < idMax, used n := by
    intro n hn
    by_contra hused
    exact hno n ((h.free n).mpr ⟨hn, hused⟩)
  refine ⟨hall, hvalid, hblocks.trans h.blocks, ?_⟩
  intro n
  exact ⟨fun hfree => absurd hfree (hno' n), fun hn => absurd (hall n hn.1) hn.2⟩

theorem sequenceInitialize_ids : Ids (sequenceInitialize idMax) fun _ => False := by
  refine ⟨sequenceInitialize_valid (by decide), rfl, ?_⟩
  intro n
  rw [sequenceInitialize_free]
  simp

theorem createIdStore_ids : Ids createIdStore fun n => n = 0 := by
  have hget : sequenceGet (sequenceInitialize idMax) = (some 0, createIdStore) := rfl
  exact (sequenceInitialize_ids.get hget).2.2.congr (by simp)

theorem Ids.release (h : Ids s used) {n : ℕ} (hn : n < idMax) :
    Ids (sequenceRelease s n) fun m => used m ∧ m ≠ n := by
  have hbound : n < 2 ^ 32 := lt_trans hn (by decide)
  have hblock : n / 32 < s.numOfBlocks := by
    rw [h.blocks]
    simp only [idMax] at hn
    omega
  refine ⟨sequenceRelease_valid h.valid hbound hblock hn, (sequenceRelease_numOfBlocks s n).trans h.blocks, ?_⟩
  intro m
  rw [sequenceRelease_free hbound hblock, h.free]
  constructor
  · rintro (⟨hm, hused⟩ | rfl)
    · exact ⟨hm, fun hboth => hused hboth.1⟩
    · exact ⟨hn, fun hboth => hboth.2 rfl⟩
  · rintro ⟨hm, hused⟩
    by_cases heq : m = n
    · exact .inr heq
    · exact .inl ⟨hm, fun hu => hused ⟨hu, heq⟩⟩

end Eotan.Mm
