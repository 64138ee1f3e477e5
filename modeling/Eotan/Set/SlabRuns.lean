import Eotan.Set.Slab
import Mathlib.Data.List.Perm.Basic
import Mathlib.Data.List.Range
import Mathlib.Tactic.Ring

namespace Eotan.Slabs

open Function
open List
open Nat

structure Shape (s : Slab) : Prop where
  size : ∃ k ≤ 32, s.blockSize = 2 ^ k
  mask : s.mask = 2 ^ 32 - s.blockSize
  unit : 0 < s.unitSize
  offset : s.offset = 0
  pos : 0 < s.entriesPerBlock
  fits : headerSize + s.entriesPerBlock * s.unitSize ≤ s.blockSize
  blockSize_lt : s.blockSize < 2 ^ 32
  maxBlock_lt : s.maxBlock < 2 ^ 32

structure Ok (s : Slab) (live : List ℕ) : Prop where
  pages : s.pages.Perm s.blocks
  nodup : s.blocks.Nodup
  aligned : ∀ b ∈ s.blocks, b % s.blockSize = 0 ∧ b + s.blockSize ≤ 2 ^ 32
  blockNum : s.blockNum = s.blocks.length
  max : s.blocks.length ≤ s.maxBlock
  empties_nodup : s.empties.Nodup
  empties : ∀ b, b ∈ s.empties ↔ b ∈ s.blocks ∧ (s.block b).entries ≠ []
  emptyNum : s.emptyNum = s.empties.length
  entryNum : ∀ b ∈ s.blocks, (s.block b).entryNum = (s.block b).entries.length
  entries_nodup : ∀ b ∈ s.blocks, (s.block b).entries.Nodup
  entries : ∀ b ∈ s.blocks, ∀ p, p ∈ (s.block b).entries ↔ p ∈ entriesOf s b ∧ p ∉ live
  live_nodup : live.Nodup
  live : ∀ p ∈ live, ∃ b ∈ s.blocks, p ∈ entriesOf s b

variable {n : ℕ} {s : Slab}

def Kept (block : Block) (entries live : List ℕ) : Prop :=
  block.entryNum = block.entries.length ∧ block.entries.Nodup ∧
    ∀ p, p ∈ block.entries ↔ p ∈ entries ∧ p ∉ live

theorem add_of_lt {m : ℕ} (h : m + n < 2 ^ 32) : add m n = m + n := mod_eq_of_lt h

theorem inc_of_lt (h : n + 1 < 2 ^ 32) : inc n = n + 1 := by
  unfold inc add
  omega

theorem dec_succ (h : n + 1 < 2 ^ 32) : dec (n + 1) = n := by
  unfold dec add
  omega

section

variable {s : Slab} {live : List ℕ} {b p : ℕ}

theorem dec_erase {l : List ℕ} (hn : n = l.length) (hb : b ∈ l) (hlt : l.length < 2 ^ 32) :
    dec n = (l.erase b).length := by
  obtain ⟨m, hm⟩ := exists_eq_succ_of_ne_zero (length_pos_of_mem hb).ne'
  rw [length_erase_of_mem hb, hn, hm, Nat.succ_eq_add_one, dec_succ (by omega), Nat.add_sub_cancel]

theorem Ok.kept (hok : Ok s live) (hb : b ∈ s.blocks) : Kept (s.block b) (entriesOf s b) live :=
  ⟨hok.entryNum b hb, hok.entries_nodup b hb, hok.entries b hb⟩

theorem mem_entriesOf : p ∈ entriesOf s b ↔ ∃ i < s.entriesPerBlock, entry s b i = p := by
  simp only [entriesOf, mem_map, mem_range]

theorem entriesOf_nodup (h : Shape s) (b : ℕ) : (entriesOf s b).Nodup := by
  apply List.Nodup.map _ nodup_range
  intro i j hij
  simp only [entry, add_left_cancel_iff] at hij
  exact eq_of_mul_eq_mul_right h.unit hij

theorem entriesOf_length : (entriesOf s b).length = s.entriesPerBlock := by
  simp only [entriesOf, length_map, length_range]

theorem entry_bounds (h : Shape s) (hp : p ∈ entriesOf s b) :
    b + headerSize ≤ p ∧ p + s.unitSize ≤ b + s.blockSize := by
  obtain ⟨i, hi, rfl⟩ := mem_entriesOf.mp hp
  have hle : (i + 1) * s.unitSize ≤ s.entriesPerBlock * s.unitSize := mul_le_mul_right _ hi
  have hfits := h.fits
  rw [add_mul, one_mul] at hle
  simp only [entry, h.offset]
  omega

theorem lt_of_mem_entriesOf (h : Shape s) (hp : p ∈ entriesOf s b) : b ≤ p ∧ p < b + s.blockSize := by
  have hbounds := entry_bounds h hp
  have hunit := h.unit
  omega

theorem entries_disjoint {q : ℕ} (hp : p ∈ entriesOf s b) (hq : q ∈ entriesOf s b) (hne : p ≠ q) :
    p + s.unitSize ≤ q ∨ q + s.unitSize ≤ p := by
  obtain ⟨i, -, rfl⟩ := mem_entriesOf.mp hp
  obtain ⟨j, -, rfl⟩ := mem_entriesOf.mp hq
  have hij : i ≠ j := fun heq => hne (by rw [heq])
  have hstep {m n : ℕ} (hmn : m < n) : entry s b m + s.unitSize ≤ entry s b n := by
    have hle : (m + 1) * s.unitSize ≤ n * s.unitSize := mul_le_mul_right _ hmn
    rw [add_mul, one_mul] at hle
    simp only [entry]
    omega
  rcases lt_or_gt_of_ne hij with hlt | hgt
  · exact .inl (hstep hlt)
  · exact .inr (hstep hgt)

theorem and_mask {k m r : ℕ} (hk : k ≤ 32) (hr : r < 2 ^ k) (hm : 2 ^ k * m + r < 2 ^ 32) :
    (2 ^ k * m + r) &&& (2 ^ 32 - 2 ^ k) = 2 ^ k * m := by
  have hsplit : 2 ^ 32 = 2 ^ k * 2 ^ (32 - k) := by
    rw [← Nat.pow_add, Nat.add_sub_cancel' hk]
  have hmask : 2 ^ 32 - 2 ^ k = 2 ^ k * (2 ^ (32 - k) - 1) + 0 := by
    rw [Nat.mul_sub, ← hsplit, Nat.mul_one, Nat.add_zero]
  have hm' : m < 2 ^ (32 - k) := by
    apply Nat.lt_of_mul_lt_mul_left (a := 2 ^ k)
    rw [← hsplit]
    omega
  apply Nat.eq_of_testBit_eq
  intro i
  rw [Nat.testBit_and, hmask, Nat.testBit_two_pow_mul_add _ hr,
    Nat.testBit_two_pow_mul_add _ (Nat.two_pow_pos k), Nat.testBit_two_pow_sub_one,
    show 2 ^ k * m = 2 ^ k * m + 0 from rfl, Nat.testBit_two_pow_mul_add _ (Nat.two_pow_pos k)]
  split_ifs with hi
  · simp
  by_cases hlt : i - k < 32 - k
  · simp [hlt]
  · have hge : 2 ^ (32 - k) ≤ 2 ^ (i - k) := Nat.pow_le_pow_right (by decide) (by omega)
    rw [Nat.testBit_lt_two_pow (by omega)]
    rfl

theorem and_mask_of_mem (h : Shape s) (hb : b % s.blockSize = 0 ∧ b + s.blockSize ≤ 2 ^ 32)
    (hp : p ∈ entriesOf s b) : p &&& s.mask = b := by
  obtain ⟨k, hk, hsize⟩ := h.size
  obtain ⟨hle, hlt⟩ := lt_of_mem_entriesOf h hp
  rw [h.mask]
  rw [hsize] at hb hlt ⊢
  obtain ⟨m, rfl⟩ := dvd_of_mod_eq_zero hb.1
  obtain ⟨r, rfl⟩ := Nat.exists_eq_add_of_le hle
  exact and_mask hk (by omega) (by omega)

theorem block_unique {c : ℕ} (h : Shape s) (hok : Ok s live) (hb : b ∈ s.blocks)
    (hc : c ∈ s.blocks) (hpb : p ∈ entriesOf s b) (hpc : p ∈ entriesOf s c) : b = c := by
  rw [← and_mask_of_mem h (hok.aligned b hb) hpb, and_mask_of_mem h (hok.aligned c hc) hpc]

theorem entries_length_le (hok : Ok s live) (hb : b ∈ s.blocks) :
    (s.block b).entries.length ≤ s.entriesPerBlock := by
  rw [← entriesOf_length (s := s) (b := b)]
  apply List.Subperm.length_le
  apply subperm_of_subset (hok.entries_nodup b hb)
  intro p hp
  exact ((hok.entries b hb p).mp hp).1

theorem entriesPerBlock_lt (h : Shape s) : s.entriesPerBlock + 1 < 2 ^ 32 := by
  have hle := Nat.le_mul_of_pos_right s.entriesPerBlock h.unit
  have hfits := h.fits
  have hlt := h.blockSize_lt
  unfold headerSize at hfits
  omega

theorem empties_length_le (hok : Ok s live) : s.empties.length ≤ s.blocks.length := by
  apply List.Subperm.length_le
  apply subperm_of_subset hok.empties_nodup
  intro b hb
  exact ((hok.empties b).mp hb).1

theorem not_live_of_fresh (h : Shape s) (hok : Ok s live) (hf : Fresh s b)
    (hp : p ∈ entriesOf s b) : p ∉ live := by
  intro hl
  obtain ⟨c, hc, hpc⟩ := hok.live p hl
  have hbc : b = c := by
    rw [← and_mask_of_mem h ⟨hf.2.1, hf.2.2.1⟩ hp, and_mask_of_mem h (hok.aligned c hc) hpc]
  exact hf.2.2.2 (hok.pages.mem_iff.mpr (hbc ▸ hc))

theorem slabAddBlock_ok {s' : Slab} {a : ℕ} (h : Shape s) (hok : Ok s live)
    (hs : slabAddBlock s a = (some b, s')) : Shape s' ∧ Ok s' live ∧ s'.empties = s.empties ++ [b] := by
  unfold slabAddBlock at hs
  by_cases hmax : s.blockNum ≥ s.maxBlock
  · rw [if_pos hmax] at hs
    cases hs
  by_cases hf : Fresh s a
  swap
  · rw [if_neg hmax, palloc, if_neg hf] at hs
    cases hs
  rw [if_neg hmax, palloc, if_pos hf] at hs
  cases hs
  have hnew : b ∉ s.blocks := fun hb => hf.2.2.2 (hok.pages.mem_iff.mpr hb)
  let new : Block := ⟨entriesOf s b, s.entriesPerBlock⟩
  have hother (c : ℕ) (hc : c ∈ s.blocks) : update s.block b new c = s.block c := by
    apply update_of_ne
    rintro rfl
    exact hnew hc
  have hself : update s.block b new b = new := update_self ..
  have heach (c : ℕ) (hc : c ∈ s.blocks ++ [b]) : Kept (update s.block b new c) (entriesOf s c) live := by
    rcases mem_append.mp hc with hc | hc
    · rw [hother c hc]
      exact hok.kept hc
    · rw [mem_singleton.mp hc, hself]
      refine ⟨entriesOf_length.symm, entriesOf_nodup h b, fun p => ?_⟩
      exact ⟨fun hp => ⟨hp, not_live_of_fresh h hok hf hp⟩, And.left⟩
  have hpos := h.pos
  have hnum := hok.blockNum
  have hempties := empties_length_le hok
  have hlt := h.maxBlock_lt
  refine ⟨{ h with }, ?_, rfl⟩
  constructor
  · exact (hok.pages.cons b).trans (perm_append_singleton b s.blocks).symm
  · exact nodup_append_comm.mp (nodup_cons.mpr ⟨hnew, hok.nodup⟩)
  · exact forall_mem_append.mpr ⟨hok.aligned, forall_mem_singleton.mpr ⟨hf.2.1, hf.2.2.1⟩⟩
  · change inc s.blockNum = (s.blocks ++ [b]).length
    rw [inc_of_lt (by omega), hnum, length_append, length_singleton]
  · change (s.blocks ++ [b]).length ≤ s.maxBlock
    rw [length_append, length_singleton]
    omega
  · have hout : b ∉ s.empties := fun hb => hnew ((hok.empties b).mp hb).1
    exact nodup_append_comm.mp (nodup_cons.mpr ⟨hout, hok.empties_nodup⟩)
  · intro c
    change c ∈ s.empties ++ [b] ↔ c ∈ s.blocks ++ [b] ∧ (update s.block b new c).entries ≠ []
    rw [mem_append, mem_append, mem_singleton]
    by_cases hcb : c = b
    · rw [hcb, hself]
      have hne : entriesOf s b ≠ [] := by
        rw [← length_pos_iff, entriesOf_length]
        exact hpos
      simp only [or_true, true_and, ne_eq, true_iff]
      exact hne
    · rw [update_of_ne hcb]
      simp only [hcb, or_false]
      exact hok.empties c
  · change inc s.emptyNum = (s.empties ++ [b]).length
    rw [hok.emptyNum, inc_of_lt (by omega), length_append, length_singleton]
  · exact fun c hc => (heach c hc).1
  · exact fun c hc => (heach c hc).2.1
  · exact fun c hc => (heach c hc).2.2
  · exact hok.live_nodup
  · intro p hp
    obtain ⟨c, hc, hpc⟩ := hok.live p hp
    exact ⟨c, mem_append_left _ hc, hpc⟩

theorem slabAddBlock_none {s' : Slab} {a : ℕ} (hs : slabAddBlock s a = (none, s')) :
    s' = s ∧ (s.blockNum ≥ s.maxBlock ∨ ¬Fresh s a) := by
  unfold slabAddBlock at hs
  by_cases hmax : s.blockNum ≥ s.maxBlock
  · rw [if_pos hmax] at hs
    cases hs
    exact ⟨rfl, .inl hmax⟩
  by_cases hf : Fresh s a
  · rw [if_neg hmax, palloc, if_pos hf] at hs
    cases hs
  · rw [if_neg hmax, palloc, if_neg hf] at hs
    cases hs
    exact ⟨rfl, .inr hf⟩

theorem Ok.change {empties live' : List ℕ} {emptyNum : ℕ} {new : Block} (h : Shape s)
    (hok : Ok s live) (hb : b ∈ s.blocks) (hnew : Kept new (entriesOf s b) live') (hen : empties.Nodup)
    (hself : b ∈ empties ↔ new.entries ≠ []) (hother : ∀ c ≠ b, c ∈ empties ↔ c ∈ s.empties)
    (hlen : emptyNum = empties.length)
    (hlive : ∀ p, p ∉ entriesOf s b → (p ∈ live' ↔ p ∈ live)) (hln : live'.Nodup) : Ok { s with
      empties := empties
      emptyNum := emptyNum
      block := update s.block b new } live' := by
  have hblock (c : ℕ) (hc : c ≠ b) : update s.block b new c = s.block c := update_of_ne hc _ _
  have hblock' : update s.block b new b = new := update_self ..
  have heach (c : ℕ) (hc : c ∈ s.blocks) : Kept (update s.block b new c) (entriesOf s c) live' := by
    by_cases hcb : c = b
    · rw [hcb, hblock']
      exact hnew
    · rw [hblock c hcb]
      refine ⟨hok.entryNum c hc, hok.entries_nodup c hc, fun p => ?_⟩
      rw [hok.entries c hc p]
      apply and_congr_right
      intro hp
      rw [hlive p fun hpb => hcb (block_unique h hok hc hb hp hpb)]
  refine ⟨hok.pages, hok.nodup, hok.aligned, hok.blockNum, hok.max, hen, ?_, hlen, fun c hc => (heach c hc).1,
    fun c hc => (heach c hc).2.1, fun c hc => (heach c hc).2.2, hln, ?_⟩
  · intro c
    change c ∈ empties ↔ c ∈ s.blocks ∧ (update s.block b new c).entries ≠ []
    by_cases hc : c = b
    · rw [hc, hblock', hself]
      exact ⟨fun hne => ⟨hb, hne⟩, fun hne => hne.2⟩
    · rw [hblock c hc, hother c hc]
      exact hok.empties c
  · intro p hp
    by_cases hpb : p ∈ entriesOf s b
    · exact ⟨b, hb, hpb⟩
    · exact hok.live p ((hlive p hpb).mp hp)

theorem takeEntry_eq {rest : List ℕ} (hpr : (s.block b).entries = p :: rest)
    (hdec : dec (s.block b).entryNum = n) : takeEntry s b = (some p, { s with
      empties := if n = 0 then s.empties.erase b else s.empties
      emptyNum := if n = 0 then dec s.emptyNum else s.emptyNum
      block := update s.block b ⟨rest, n⟩ }) := by
  unfold takeEntry
  rw [hdec, hpr]
  by_cases hn : n = 0
  · simp only [if_pos hn, setBlock, update_self, update_idem]
  · simp only [if_neg hn, setBlock, update_self, update_idem]

theorem takeEntry_ok (h : Shape s) (hok : Ok s live) (hb : b ∈ s.empties) :
    ∃ p s', takeEntry s b = (some p, s') ∧ Shape s' ∧ Ok s' (p :: live) ∧ p ∉ live ∧ s'.pages = s.pages := by
  obtain ⟨hbb, hne⟩ := (hok.empties b).mp hb
  obtain ⟨p, rest, hpr⟩ := exists_cons_of_ne_nil hne
  have hnum := hok.entryNum b hbb
  have hlen := entries_length_le hok hbb
  have hlt := entriesPerBlock_lt h
  have hnd := hok.entries_nodup b hbb
  have hmem := hok.entries b hbb
  rw [hpr] at hnum hlen hnd hmem
  rw [length_cons] at hnum hlen
  have hdec : dec (s.block b).entryNum = rest.length := by
    rw [hnum]
    exact dec_succ (by omega)
  obtain ⟨hp, hpl⟩ := (hmem p).mp mem_cons_self
  obtain ⟨hprest, hrest⟩ := nodup_cons.mp hnd
  -- the entry leaves the list of free ones and becomes live
  have hentries (q : ℕ) : q ∈ rest ↔ q ∈ entriesOf s b ∧ q ∉ p :: live := by
    have hq := hmem q
    rw [mem_cons] at hq ⊢
    constructor
    · intro hqr
      have hqp : q ≠ p := fun heq => hprest (heq ▸ hqr)
      exact ⟨(hq.mp (.inr hqr)).1, fun hor => hor.elim hqp (hq.mp (.inr hqr)).2⟩
    · rintro ⟨hqe, hor⟩
      rw [not_or] at hor
      exact (hq.mpr ⟨hqe, hor.2⟩).resolve_left hor.1
  have hlive (q : ℕ) (hq : q ∉ entriesOf s b) : q ∈ p :: live ↔ q ∈ live := by
    rw [mem_cons]
    exact ⟨fun hor => hor.resolve_left fun heq => hq (heq ▸ hp), .inr⟩
  have hln : (p :: live).Nodup := nodup_cons.mpr ⟨hpl, hok.live_nodup⟩
  have hmax := empties_length_le hok
  have hbmax := hok.max
  have hmaxlt := h.maxBlock_lt
  by_cases hz : rest.length = 0
  · have hnil : rest = [] := length_eq_zero_iff.mp hz
    refine ⟨p, { s with
      empties := s.empties.erase b
      emptyNum := dec s.emptyNum
      block := update s.block b ⟨rest, rest.length⟩ }, ?_, ?_, ?_, hpl, rfl⟩
    · rw [takeEntry_eq hpr hdec, if_pos hz, if_pos hz]
    · exact { h with }
    · refine hok.change h hbb ⟨rfl, hrest, hentries⟩ (hok.empties_nodup.erase b) ?_ ?_ ?_ hlive hln
      · simp [hnil, hok.empties_nodup.not_mem_erase]
      · intro c hc
        exact mem_erase_of_ne hc
      · exact dec_erase hok.emptyNum hb (by omega)
  · refine ⟨p, { s with block := update s.block b ⟨rest, rest.length⟩ }, ?_, ?_, ?_, hpl, rfl⟩
    · rw [takeEntry_eq hpr hdec, if_neg hz, if_neg hz]
    · exact { h with }
    · refine hok.change h hbb ⟨rfl, hrest, hentries⟩ hok.empties_nodup ?_ (fun _ _ => Iff.rfl) hok.emptyNum
        hlive hln
      refine iff_of_true hb ?_
      intro hnil
      exact hz (length_eq_zero_iff.mpr hnil)

theorem not_live_of_length (hok : Ok s live) (hb : b ∈ s.blocks)
    (hlen : (s.block b).entries.length = s.entriesPerBlock) (hp : p ∈ entriesOf s b) : p ∉ live := by
  have hsub : (s.block b).entries ⊆ entriesOf s b := fun q hq => ((hok.entries b hb q).mp hq).1
  have hperm : (s.block b).entries.Perm (entriesOf s b) := by
    apply (subperm_of_subset (hok.entries_nodup b hb) hsub).perm_of_length_le
    rw [entriesOf_length, hlen]
  exact ((hok.entries b hb p).mp (hperm.mem_iff.mpr hp)).2

theorem Ok.release {f : ℕ → Block} (h : Shape s) (hok : Ok s live) (hb : b ∈ s.blocks)
    (hlen : (s.block b).entries.length = s.entriesPerBlock) (hf : ∀ c ≠ b, f c = s.block c) :
    Ok { s with
      empties := s.empties.erase b
      emptyNum := dec s.emptyNum
      blocks := s.blocks.erase b
      blockNum := dec s.blockNum
      block := f
      pages := s.pages.erase b } live := by
  have hmem (c : ℕ) : c ∈ s.blocks.erase b ↔ c ≠ b ∧ c ∈ s.blocks := hok.nodup.mem_erase_iff
  have hbe : b ∈ s.empties := by
    refine (hok.empties b).mpr ⟨hb, ?_⟩
    rw [← length_pos_iff, hlen]
    exact h.pos
  have heach (c : ℕ) (hc : c ∈ s.blocks.erase b) : Kept (f c) (entriesOf s c) live := by
    obtain ⟨hne, hc⟩ := (hmem c).mp hc
    rw [hf c hne]
    exact hok.kept hc
  have hmax := hok.max
  have hlt := h.maxBlock_lt
  have hempties := empties_length_le hok
  refine ⟨hok.pages.erase b, hok.nodup.erase b, ?_, dec_erase hok.blockNum hb (by omega), ?_,
    hok.empties_nodup.erase b, ?_, dec_erase hok.emptyNum hbe (by omega), fun c hc => (heach c hc).1,
    fun c hc => (heach c hc).2.1, fun c hc => (heach c hc).2.2, hok.live_nodup, ?_⟩
  · intro c hc
    exact hok.aligned c ((hmem c).mp hc).2
  · change (s.blocks.erase b).length ≤ s.maxBlock
    rw [length_erase_of_mem hb]
    omega
  · intro c
    change c ∈ s.empties.erase b ↔ c ∈ s.blocks.erase b ∧ (f c).entries ≠ []
    rw [hmem, hok.empties_nodup.mem_erase_iff, hok.empties, and_assoc]
    apply and_congr_right
    intro hc
    rw [hf c hc]
  · intro p hp
    obtain ⟨c, hc, hpc⟩ := hok.live p hp
    refine ⟨c, (hmem c).mpr ⟨?_, hc⟩, hpc⟩
    rintro rfl
    exact not_live_of_length hok hb hlen hpc hp

def pushed (s : Slab) (b p : ℕ) : Slab :=
  { s with
    empties := if (s.block b).entryNum = 0 then s.empties ++ [b] else s.empties
    emptyNum := if (s.block b).entryNum = 0 then inc s.emptyNum else s.emptyNum
    block := Function.update s.block b ⟨p :: (s.block b).entries, inc (s.block b).entryNum⟩ }

theorem entries_length_lt (hok : Ok s live) (hb : b ∈ s.blocks) (hp : p ∈ entriesOf s b)
    (hl : p ∈ live) : (s.block b).entries.length < s.entriesPerBlock := by
  have hnot : p ∉ (s.block b).entries := fun hm => ((hok.entries b hb p).mp hm).2 hl
  have hsub : p :: (s.block b).entries ⊆ entriesOf s b :=
    cons_subset.mpr ⟨hp, fun q hq => ((hok.entries b hb q).mp hq).1⟩
  have hle := (subperm_of_subset (nodup_cons.mpr ⟨hnot, hok.entries_nodup b hb⟩) hsub).length_le
  rw [entriesOf_length, length_cons] at hle
  exact hle

theorem pushed_ok (h : Shape s) (hok : Ok s live) (hb : b ∈ s.blocks) (hp : p ∈ entriesOf s b)
    (hl : p ∈ live) : Ok (pushed s b p) (live.erase p) := by
  have hnum := hok.entryNum b hb
  have hlt := entries_length_lt hok hb hp hl
  have hepb := entriesPerBlock_lt h
  have hnot : p ∉ (s.block b).entries := fun hm => ((hok.entries b hb p).mp hm).2 hl
  have hmax := hok.max
  have hmaxlt := h.maxBlock_lt
  have hlen := hok.emptyNum
  have hbe := hok.empties b
  -- the entry is not live any more and joins the free ones
  have hentries (q : ℕ) : q ∈ p :: (s.block b).entries ↔ q ∈ entriesOf s b ∧ q ∉ live.erase p := by
    rw [mem_cons, hok.live_nodup.mem_erase_iff, hok.entries b hb]
    by_cases hq : q = p
    · simp [hq, hp]
    · simp [hq]
  have hlive (q : ℕ) (hq : q ∉ entriesOf s b) : q ∈ live.erase p ↔ q ∈ live :=
    mem_erase_of_ne fun heq => hq (heq ▸ hp)
  have hcount : inc (s.block b).entryNum = (p :: (s.block b).entries).length := by
    rw [hnum, inc_of_lt (by omega), length_cons]
  have hnd : (p :: (s.block b).entries).Nodup := nodup_cons.mpr ⟨hnot, hok.entries_nodup b hb⟩
  by_cases hz : (s.block b).entryNum = 0
  · have hnil : (s.block b).entries = [] := length_eq_zero_iff.mp (hnum ▸ hz)
    have hbnot : b ∉ s.empties := fun hm => (hbe.mp hm).2 hnil
    have hroom : s.empties.length + 1 ≤ s.blocks.length := by
      have hsub : b :: s.empties ⊆ s.blocks := cons_subset.mpr ⟨hb, fun c hc => ((hok.empties c).mp hc).1⟩
      exact (subperm_of_subset (nodup_cons.mpr ⟨hbnot, hok.empties_nodup⟩) hsub).length_le
    rw [pushed, if_pos hz, if_pos hz]
    refine hok.change h hb ⟨hcount, hnd, hentries⟩ ?_ ?_ ?_ ?_ hlive (hok.live_nodup.erase p)
    · exact nodup_append_comm.mp (nodup_cons.mpr ⟨hbnot, hok.empties_nodup⟩)
    · simp
    · intro c hc
      simp [hc]
    · rw [hlen, inc_of_lt (by omega), length_append, length_singleton]
  · have hne : (s.block b).entries ≠ [] := by
      intro hnil
      rw [hnil] at hnum
      exact hz hnum
    rw [pushed, if_neg hz, if_neg hz]
    refine hok.change h hb ⟨hcount, hnd, hentries⟩ hok.empties_nodup ?_ (fun _ _ => Iff.rfl) hlen hlive
      (hok.live_nodup.erase p)
    exact iff_of_true (hbe.mpr ⟨hb, hne⟩) (by simp)

theorem slabFree_eq (h : Shape s) (hb : b % s.blockSize = 0 ∧ b + s.blockSize ≤ 2 ^ 32)
    (hp : p ∈ entriesOf s b) : slabFree s p =
      if inc (s.block b).entryNum = s.entriesPerBlock ∧ (pushed s b p).emptyNum > 1 ∧
          s.blockNum > s.minBlock then
        { pushed s b p with
          empties := (pushed s b p).empties.erase b
          emptyNum := dec (pushed s b p).emptyNum
          blocks := s.blocks.erase b
          blockNum := dec s.blockNum
          block := update s.block b ⟨(s.block b).entries, inc (s.block b).entryNum⟩
          pages := s.pages.erase b }
      else pushed s b p := by
  unfold slabFree
  rw [and_mask_of_mem h hb hp]
  by_cases hz : (s.block b).entryNum = 0
  · simp only [if_pos hz, setBlock, update_self, update_idem, pushed, pfree]
  · simp only [if_neg hz, setBlock, update_self, update_idem, pushed, pfree]

theorem slabFree_ok (h : Shape s) (hok : Ok s live) (hl : p ∈ live) :
    Shape (slabFree s p) ∧ Ok (slabFree s p) (live.erase p) ∧
      ∀ c ∈ s.pages, c ∉ (slabFree s p).pages → ∀ q ∈ live.erase p, q ∉ entriesOf s c := by
  obtain ⟨b, hb, hp⟩ := hok.live p hl
  have hpush := pushed_ok h hok hb hp hl
  have hshape : Shape (pushed s b p) :=
    { h with }
  have hself : (pushed s b p).block b = ⟨p :: (s.block b).entries, inc (s.block b).entryNum⟩ := update_self ..
  rw [slabFree_eq h (hok.aligned b hb) hp]
  split_ifs with hrel
  · have hlen : ((pushed s b p).block b).entries.length = (pushed s b p).entriesPerBlock := by
      rw [← hpush.entryNum b hb, hself]
      exact hrel.1
    refine ⟨{ h with }, ?_, ?_⟩
    · apply hpush.release hshape hb hlen
      intro c hc
      change update s.block b _ c = update s.block b _ c
      rw [update_of_ne hc, update_of_ne hc]
    · intro c hc hnot q hq hqc
      have hcb : c = b := by
        by_contra hne
        exact hnot ((mem_erase_of_ne hne).mpr hc)
      rw [hcb] at hqc
      exact not_live_of_length hpush hb hlen hqc hq
  · exact ⟨hshape, hpush, fun c hc hnot => absurd hc hnot⟩

theorem slabAlloc_ok (h : Shape s) (hok : Ok s live) (a : ℕ) :
    (∃ p s', slabAlloc s a = (some p, s') ∧ Shape s' ∧ Ok s' (p :: live)) ∨
      slabAlloc s a = (none, s) ∧ s.empties = [] ∧ (s.blockNum ≥ s.maxBlock ∨ ¬Fresh s a) := by
  unfold slabAlloc
  cases hempties : s.empties with
  | cons b rest =>
    have hb : b ∈ s.empties := by simp [hempties]
    obtain ⟨p, s', heq, hs', hok', -, -⟩ := takeEntry_ok h hok hb
    exact .inl ⟨p, s', heq, hs', hok'⟩
  | nil =>
    cases hadd : slabAddBlock s a with
    | mk r s1 =>
      cases r with
      | none =>
        obtain ⟨rfl, hwhy⟩ := slabAddBlock_none hadd
        exact .inr ⟨rfl, rfl, hwhy⟩
      | some b =>
        obtain ⟨hs1, hok1, he1⟩ := slabAddBlock_ok h hok hadd
        rw [hempties, nil_append] at he1
        have hb : b ∈ s1.empties := by simp [he1]
        obtain ⟨p, s', heq, hs', hok', -, -⟩ := takeEntry_ok hs1 hok1 hb
        refine .inl ⟨p, s', ?_, hs', hok'⟩
        simp only [he1]
        exact heq

end

theorem step_ok {s s' : State} {e : Event} (h : Shape s.slab) (hok : Ok s.slab s.live)
    (hs : step s e = some s') : Shape s'.slab ∧ Ok s'.slab s'.live := by
  cases e with
  | alloc a =>
    simp only [step] at hs
    rcases slabAlloc_ok h hok a with ⟨p, slab, heq, hshape, hok'⟩ | ⟨heq, -, -⟩
    · rw [heq] at hs
      cases hs
      exact ⟨hshape, hok'⟩
    · rw [heq] at hs
      cases hs
      exact ⟨h, hok⟩
  | free p =>
    simp only [step] at hs
    by_cases hl : p ∈ s.live
    · rw [if_pos hl] at hs
      cases hs
      obtain ⟨hshape, hok', -⟩ := slabFree_ok h hok hl
      exact ⟨hshape, hok'⟩
    · rw [if_neg hl] at hs
      cases hs

theorem run_ok (es : List Event) {s s' : State} (h : Shape s.slab) (hok : Ok s.slab s.live)
    (hr : run s es = some s') : Shape s'.slab ∧ Ok s'.slab s'.live := by
  induction es generalizing s with
  | nil =>
    cases hr
    exact ⟨h, hok⟩
  | cons e es ih =>
    obtain ⟨s1, hs, hr⟩ := Option.bind_eq_some_iff.mp hr
    obtain ⟨h1, hok1⟩ := step_ok h hok hs
    exact ih h1 hok1 hr

theorem createLoop_ok (answers : ℕ → ℕ) (n i : ℕ) (h : Shape s) (hok : Ok s []) :
    Shape (createLoop answers n i s) ∧ Ok (createLoop answers n i s) [] := by
  induction n generalizing i s with
  | zero => exact ⟨h, hok⟩
  | succ n ih =>
    unfold createLoop
    cases hadd : slabAddBlock s (answers i) with
    | mk r s1 =>
      cases r with
      | none =>
        obtain ⟨rfl, -⟩ := slabAddBlock_none hadd
        exact ⟨h, hok⟩
      | some b =>
        obtain ⟨h1, hok1, -⟩ := slabAddBlock_ok h hok hadd
        exact ih (i + 1) h1 hok1

theorem slabCreate_ok {p : Params} {answers : ℕ → ℕ} {k : ℕ} (hk : p.blockSize = 2 ^ k)
    (hfit : p.unitSize + headerSize < 2 ^ 32) (hc : slabCreate p answers = some s) : Shape s ∧ Ok s [] := by
  have hlt := p.blockSize_lt
  unfold slabCreate at hc
  split_ifs at hc with hbad
  cases hc
  simp only [not_or] at hbad
  obtain ⟨hsize, hunit, hroom, -⟩ := hbad
  rw [add_of_lt (by rw [add_comm]; exact hfit)] at hroom
  have hpos : 0 < p.unitSize := by
    unfold entrySize at hunit
    omega
  have hk32 : k ≤ 32 := by
    rw [hk] at hlt
    exact ((Nat.pow_lt_pow_iff_right (by decide)).mp hlt).le
  have hper : add (2 ^ 32 - headerSize) p.blockSize = p.blockSize - headerSize := by
    unfold add headerSize at *
    omega
  apply createLoop_ok
  · refine ⟨⟨k, hk32, hk⟩, ?_, hpos, rfl, ?_, ?_, hlt, p.maxBlock_lt⟩
    · change 2 ^ 32 - 1 - (p.blockSize - 1) = 2 ^ 32 - p.blockSize
      omega
    · change 0 < add (2 ^ 32 - headerSize) p.blockSize / p.unitSize
      rw [hper]
      apply div_pos _ hpos
      omega
    · change headerSize + add (2 ^ 32 - headerSize) p.blockSize / p.unitSize * p.unitSize ≤ p.blockSize
      rw [hper]
      have hle := div_mul_le_self (p.blockSize - headerSize) p.unitSize
      omega
  · constructor <;> simp

structure Sound (s : State) : Prop where
  nodup : s.live.Nodup
  disjoint : ∀ p ∈ s.live, ∀ q ∈ s.live, p ≠ q →
    p + s.slab.unitSize ≤ q ∨ q + s.slab.unitSize ≤ p
  inside : ∀ p ∈ s.live, ∃ b ∈ s.slab.pages,
    b + headerSize ≤ p ∧ p + s.slab.unitSize ≤ b + s.slab.blockSize
  empties : ∀ b, b ∈ s.slab.empties ↔ b ∈ s.slab.pages ∧ ∃ p ∈ entriesOf s.slab b, p ∉ s.live
  empties_nodup : s.slab.empties.Nodup
  emptyNum : s.slab.emptyNum = s.slab.empties.length
  entryNum : ∀ b ∈ s.slab.pages, (s.slab.block b).entryNum = (s.slab.block b).entries.length
  blocks : s.slab.blocks.Perm s.slab.pages ∧ s.slab.pages.Nodup
  blockNum : s.slab.blockNum = s.slab.pages.length
  max : s.slab.blockNum ≤ s.slab.maxBlock
  pfree : ∀ p ∈ s.live, ∀ b ∈ s.slab.pages, b ∉ (slabFree s.slab p).pages →
    ∀ q ∈ s.live.erase p, q ∉ entriesOf s.slab b
  null : ∀ a, (slabAlloc s.slab a).1 = none →
    (∀ b ∈ s.slab.pages, ∀ p ∈ entriesOf s.slab b, p ∈ s.live) ∧
      (s.slab.blockNum ≥ s.slab.maxBlock ∨ (palloc s.slab a).1 = none)

theorem live_disjoint {live : List ℕ} {p q : ℕ} (h : Shape s) (hok : Ok s live)
    (hp : p ∈ live) (hq : q ∈ live) (hne : p ≠ q) : p + s.unitSize ≤ q ∨ q + s.unitSize ≤ p := by
  obtain ⟨b, hb, hpb⟩ := hok.live p hp
  obtain ⟨c, hc, hqc⟩ := hok.live q hq
  by_cases hbc : b = c
  · rw [← hbc] at hqc
    exact entries_disjoint hpb hqc hne
  have hpb' := entry_bounds h hpb
  have hqc' := entry_bounds h hqc
  obtain ⟨m, rfl⟩ := dvd_of_mod_eq_zero (hok.aligned b hb).1
  obtain ⟨n, rfl⟩ := dvd_of_mod_eq_zero (hok.aligned c hc).1
  have hmn : m ≠ n := fun heq => hbc (by rw [heq])
  rcases lt_or_gt_of_ne hmn with hlt | hgt
  · have hle := mul_le_mul_left s.blockSize hlt
    rw [succ_eq_add_one, mul_add, mul_one] at hle
    omega
  · have hle := mul_le_mul_left s.blockSize hgt
    rw [succ_eq_add_one, mul_add, mul_one] at hle
    omega

theorem Ok.mem_empties {live : List ℕ} (hok : Ok s live) (b : ℕ) :
    b ∈ s.empties ↔ b ∈ s.pages ∧ ∃ p ∈ entriesOf s b, p ∉ live := by
  rw [hok.empties, hok.pages.mem_iff]
  apply and_congr_right
  intro hb
  constructor
  · intro hne
    obtain ⟨p, hp⟩ := exists_mem_of_ne_nil _ hne
    exact ⟨p, (hok.entries b hb p).mp hp⟩
  · rintro ⟨p, hp⟩
    exact ne_nil_of_mem ((hok.entries b hb p).mpr hp)

theorem Ok.sound {s : State} (h : Shape s.slab) (hok : Ok s.slab s.live) : Sound s where
  nodup := hok.live_nodup
  disjoint := fun _ hp _ hq hne => live_disjoint h hok hp hq hne
  inside := by
    intro p hp
    obtain ⟨b, hb, hpb⟩ := hok.live p hp
    exact ⟨b, hok.pages.mem_iff.mpr hb, entry_bounds h hpb⟩
  empties := hok.mem_empties
  empties_nodup := hok.empties_nodup
  emptyNum := hok.emptyNum
  entryNum := fun b hb => hok.entryNum b (hok.pages.mem_iff.mp hb)
  blocks := ⟨hok.pages.symm, hok.pages.nodup_iff.mpr hok.nodup⟩
  blockNum := by rw [hok.blockNum, hok.pages.length_eq]
  max := by
    rw [hok.blockNum]
    exact hok.max
  pfree := fun p hp => (slabFree_ok h hok hp).2.2
  null := by
    intro a hnull
    rcases slabAlloc_ok h hok a with ⟨p, s', heq, -⟩ | ⟨-, hnil, hwhy⟩
    · rw [heq] at hnull
      cases hnull
    constructor
    · intro b hb p hp
      by_contra hpl
      have hbe := (hok.mem_empties b).mpr ⟨hb, p, hp, hpl⟩
      rw [hnil] at hbe
      exact not_mem_nil hbe
    · apply hwhy.imp_right
      intro hf
      rw [palloc, if_neg hf]

theorem slab_run_sound {p : Params} {answers : ℕ → ℕ} {slab : Slab} {es : List Event} {s : State}
    {k : ℕ} (hk : p.blockSize = 2 ^ k) (hfit : p.unitSize + headerSize < 2 ^ 32)
    (hc : slabCreate p answers = some slab) (hr : run ⟨slab, []⟩ es = some s) : Sound s := by
  obtain ⟨h, hok⟩ := slabCreate_ok hk hfit hc
  obtain ⟨h', hok'⟩ := run_ok es (s := ⟨slab, []⟩) h hok hr
  exact hok'.sound h'

def pageParams : Params := ⟨64, 4096, 1, 2, by decide, by decide, by decide, by decide⟩

theorem slab_run_sound_pages : ∃ slab s,
    slabCreate pageParams (fun _ => 4096) = some slab ∧
      run ⟨slab, []⟩ [.alloc 8192, .alloc 8192, .free 4128] = some s ∧ s.live = [4192] ∧
      Sound s := by
  have hrun : ((slabCreate pageParams fun _ => 4096).bind fun slab =>
      run ⟨slab, []⟩ [.alloc 8192, .alloc 8192, .free 4128]).map (·.live) = some [4192] := by
    decide +kernel
  obtain ⟨s, hs, hlive⟩ := Option.map_eq_some_iff.mp hrun
  obtain ⟨slab, hc, hr⟩ := Option.bind_eq_some_iff.mp hs
  exact ⟨slab, s, hc, hr, hlive, slab_run_sound (k := 12) rfl (by decide) hc hr⟩

def hugeParams : Params := ⟨2 ^ 32 - 16, 4096, 0, 1, by decide, by decide, by decide, by decide⟩

theorem slab_run_unsound : ∃ slab s, slabCreate hugeParams (fun _ => 4096) = some slab ∧
    run ⟨slab, []⟩ [.alloc 4096] = some s ∧ s.slab.pages = [4096] ∧
      (s.slab.block 4096).entryNum = 2 ^ 32 - 1 ∧ (s.slab.block 4096).entries = [] ∧
      s.slab.empties = [4096] ∧ ¬Sound s := by
  have hrun : ((slabCreate hugeParams fun _ => 4096).bind fun slab =>
      run ⟨slab, []⟩ [.alloc 4096]).map
        (fun s => (s.slab.pages, (s.slab.block 4096).entryNum, (s.slab.block 4096).entries,
          s.slab.empties)) = some ([4096], 2 ^ 32 - 1, [], [4096]) := by
    decide +kernel
  obtain ⟨s, hs, heq⟩ := Option.map_eq_some_iff.mp hrun
  obtain ⟨slab, hc, hr⟩ := Option.bind_eq_some_iff.mp hs
  simp only [Prod.mk.injEq] at heq
  obtain ⟨hpages, hnum, hentries, hempties⟩ := heq
  refine ⟨slab, s, hc, hr, hpages, hnum, hentries, hempties, ?_⟩
  intro hsound
  have hlen := hsound.entryNum 4096 (by simp [hpages])
  rw [hnum, hentries] at hlen
  exact absurd hlen (by decide)

end Eotan.Slabs
