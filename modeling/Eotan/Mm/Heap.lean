import Eotan.Mm.ExecRange

/-!
`mm_sbrk` maps pages without a check of their range: it relies on the `max` of the heap.
-/

namespace Eotan.Mm.Spaces

open Mpu

def Bounded (s : Spaces) : Prop :=
  ∀ id seg, s.segments id = some seg → seg.len ≤ seg.max ∧ seg.addr + seg.max ≤ userHeapMaxAddr

def Expands (s t : Spaces) : Prop := s.Adds t ∧ t.Bounded

variable {s : Spaces}

theorem Bounded.setSegment (h : s.Bounded) {id : ℕ} {seg : Segment} (hlen : seg.len ≤ seg.max)
    (hmax : seg.addr + seg.max ≤ userHeapMaxAddr) : (s.setSegment id seg).Bounded := by
  intro id' seg' hid
  rcases eq_or_ne id' id with rfl | hne
  · cases (Function.update_self ..).symm.trans hid
    exact ⟨hlen, hmax⟩
  · exact h id' seg' ((Function.update_of_ne hne ..).symm.trans hid)

theorem allocSegment_segments (s : Spaces) : s.allocSegment.2.segments = s.segments := by
  have hslab : s.slabAlloc.2.segments = s.segments := by
    unfold slabAlloc
    split
    · rfl
    · rfl
    · rfl
    · dsimp only
      split_ifs <;> rfl
  unfold allocSegment
  generalize s.slabAlloc = r at hslab ⊢
  rcases r with ⟨_ | _, t⟩
  · exact hslab
  · dsimp only
    split <;> exact hslab

-- The heap begins after the last segment and may grow up to `USER_HEAP_MAX_ADDR`.
theorem allocateHeap_expands (h : s.Bounded) (pid : ℕ) : s.Expands (s.allocateHeap pid).2 := by
  have hadds := s.allocSegment_adds
  have hsegments := s.allocSegment_segments
  unfold allocateHeap
  split
  · exact ⟨.refl s, h⟩
  generalize s.allocSegment = r at hadds hsegments ⊢
  have ht : r.2.Bounded := fun id seg hid => h id seg (hsegments ▸ hid)
  rcases r with ⟨_ | new, t⟩
  · exact ⟨hadds, ht⟩
  dsimp only
  split
  · exact ⟨hadds, ht⟩
  next prev hprev =>
  obtain ⟨id, -, hid⟩ := Option.bind_eq_some_iff.mp hprev
  have hend := ht id prev hid
  have hmax : pageRoundUp userHeapMaxAddr = userHeapMaxAddr := rfl
  refine ⟨hadds, ht.setSegment (Nat.zero_le _) ?_⟩
  rw [hmax]
  unfold sub32 userHeapMaxAddr at *
  dsimp only at hend ⊢
  omega

theorem sbrk_expands (h : s.Bounded) (pid : ℕ) (diff : Int32) : s.Expands (s.sbrk pid diff).2 := by
  unfold sbrk
  split
  · exact ⟨.refl s, h⟩
  next p _ =>
  have hheap : s.Expands (p.heap.elim (s.allocateHeap pid) fun id => (.ok id, s)).2 := by
    cases p.heap with
    | none => exact allocateHeap_expands h pid
    | some id => exact ⟨.refl s, h⟩
  generalize p.heap.elim (s.allocateHeap pid) (fun id => (.ok id, s)) = r at hheap ⊢
  rcases r with ⟨_ | id, t⟩
  · exact hheap
  obtain ⟨hadds, ht⟩ := hheap
  dsimp only at hadds ht ⊢
  split
  · exact ⟨hadds, ht⟩
  next seg hid =>
  obtain ⟨hlen, hmax⟩ := ht id seg hid
  split_ifs with hpos hsmall hneg hshort
  · exact ⟨hadds, ht⟩
  · rw [sub32_of_le hlen (by unfold userHeapMaxAddr at hmax; omega)] at hsmall
    have hrange : ((seg.addr + seg.len) % 2 ^ 32 / pageSize + pages (pageRoundUp diff.toInt.toNat)) *
        pageSize ≤ supervisorStart := by
      simp only [pages, pageRoundUp, pageRoundDown, pageSize, supervisorStart, userHeapMaxAddr] at *
      omega
    have hmap := Machine.Adds.trans hadds (@Machine.mapUserPages_adds _ p.directory t.machine _ true hrange)
    generalize t.machine.mapUserPages p.directory _ _ true = r at hmap ⊢
    rcases r with ⟨_ | e, m⟩
    · refine ⟨hmap, Bounded.setSegment ht ?_ hmax⟩
      unfold userHeapMaxAddr at hmax
      dsimp only
      omega
    · exact ⟨hmap, ht⟩
  · exact ⟨hadds, ht⟩
  · have hunmap := Machine.Adds.trans hadds (t.machine.unmapUserPages_adds p.directory
      (sub32 ((seg.addr + seg.len) % 2 ^ 32) (pageRoundUp (-diff.toInt).toNat))
      (pages (pageRoundUp (-diff.toInt).toNat)))
    generalize t.machine.unmapUserPages p.directory _ _ = r at hunmap ⊢
    rcases r with ⟨_ | e, m⟩
    · exact ⟨hunmap, Bounded.setSegment ht (by dsimp only; omega) hmax⟩
    · exact ⟨hunmap, ht⟩
  · exact ⟨hadds, ht⟩

def sbrkRun (s : Spaces) (calls : List (ℕ × Int32)) : Spaces :=
  calls.foldl (fun s c => (s.sbrk c.1 c.2).2) s

theorem sbrk_run_below (calls : List (ℕ × Int32)) (h : s.Bounded) : (s.sbrkRun calls).Bounded ∧
    ∀ t ∈ (s.sbrkRun calls).machine.touched, t ∈ s.machine.touched ∨ t.Below := by
  induction calls generalizing s with
  | nil => exact ⟨h, Adds.refl s⟩
  | cons call calls ih =>
    obtain ⟨hadds, hnext⟩ := sbrk_expands h call.1 call.2
    obtain ⟨hbounded, hrest⟩ := ih hnext
    exact ⟨hbounded, hadds.trans hrest⟩

def loaded : Spaces :=
  (bare.setProcess 2 ⟨0x8000, none, some 9, none, [], 0⟩).setSegment 9 ⟨4096, 4096, 4096, typeData, 1, []⟩

theorem sbrk_run_below_sample : (loaded.sbrk 2 5000).1 = .ok 8192 ∧
    ∀ t ∈ (loaded.sbrkRun [(2, 5000), (2, -100)]).machine.touched, t ∈ loaded.machine.touched ∨ t.Below := by
  have h : loaded.Bounded := Bounded.setSegment (by rintro _ _ ⟨⟩) (by decide) (by decide)
  exact ⟨by decide +kernel, (sbrk_run_below _ h).2⟩

end Eotan.Mm.Spaces
