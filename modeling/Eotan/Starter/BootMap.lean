import Mathlib.Order.Interval.Finset.Nat
import Eotan.Kernel.Palloc
import Eotan.Kernel.State

/-!
The memory map as the starter leaves it to the kernel (`starter/pcat/memory.c`). Sums of numbers of
pages are those of 32 bits.
-/

namespace Eotan.Starter

open Kernel (MemoryMap eOk ePar)
open Mpu (pageSize)
open Function
open List
open Nat

def lowMask (offset : ℕ) : BitVec 32 := (1#32 <<< offset) - 1#32

def mapInitialize (s : MemoryMap) (pages : ℕ) : MemoryMap :=
  let numBlocks := (pages + 31) % 2 ^ 32 / 32
  let map := (List.range numBlocks).foldl (fun m i => Function.update m i 0xffffffff#32) s.map
  let offset := pages % 32
  { s with
    restPages := pages
    clockBlock := 0
    numBlocks := numBlocks
    maxPages := pages
    map := if offset ≠ 0 then
        Function.update map ((numBlocks + (2 ^ 32 - 1)) % 2 ^ 32) (lowMask offset)
      else map }

/-- The part of `map_set_using` behind the first word, which keeps the bits of `mask`. -/
def clearWords (map : ℕ → BitVec 32) (i left : ℕ) (mask : BitVec 32) : ℕ → BitVec 32 :=
  let offset := left % 32
  let left := left / 32 + i
  let map := (List.range' i (left - i)).foldl (fun m i => Function.update m i 0#32) map
  if offset ≠ 0 then Function.update map left (map left &&& (mask ||| ~~~lowMask offset)) else map

def clearBits (map : ℕ → BitVec 32) (i left : ℕ) : ℕ → BitVec 32 :=
  let offset := i % 32
  let i := i / 32
  if offset ≠ 0 then
    let mask := lowMask offset
    if (offset + left) % 2 ^ 32 < 32 then clearWords map i (left + offset) mask
    else clearWords (Function.update map i (map i &&& mask)) (i + 1) (left - (32 - offset)) 0#32
  else clearWords map i left 0#32

def mapSetUsing (s : MemoryMap) (addr pages : ℕ) : ℤ × MemoryMap :=
  if pages = 0 then (ePar, s)
  else
    let i := addr / pageSize
    if i ≥ s.maxPages then (ePar, s)
    else
      let left := if (i + pages) % 2 ^ 32 > s.maxPages then s.maxPages - i else pages
      (eOk, { s with
        restPages := (s.restPages + (2 ^ 32 - left)) % 2 ^ 32
        map := clearBits s.map i left })

def boot (s : MemoryMap) (pages : ℕ) (ranges : List (ℕ × ℕ)) : MemoryMap :=
  ranges.foldl (fun s r => (mapSetUsing s r.1 r.2).2) (mapInitialize s pages)

def Covers (r : ℕ × ℕ) (n : ℕ) : Prop := r.1 / pageSize ≤ n ∧ n < r.1 / pageSize + r.2

section bits

variable {map : ℕ → BitVec 32} {i left lo n : ℕ}

def Bit (map : ℕ → BitVec 32) (n : ℕ) : Prop := (map (n / 32)).getLsbD (n % 32) = true

theorem getLsbD_lowMask : ∀ k < 32, ∀ j < 32, (lowMask k).getLsbD j = decide (j < k) := by
  decide +kernel

theorem foldl_update (l : List ℕ) (v : BitVec 32) (map : ℕ → BitVec 32) (j : ℕ) :
    l.foldl (fun m i => update m i v) map j = if j ∈ l then v else map j := by
  induction l generalizing map with
  | nil => rfl
  | cons i l ih =>
    rw [foldl_cons, ih, update_apply]
    by_cases hl : j ∈ l
    · simp [hl]
    · by_cases hji : j = i <;> simp [hl, hji]

theorem bit_clearWords (hlo : lo < 32) (hone : lo = 0 ∨ left < 32) :
    Bit (clearWords map i left (lowMask lo)) n ↔ Bit map n ∧ ¬(32 * i + lo ≤ n ∧ n < 32 * i + left) := by
  have hn : n % 32 < 32 := mod_lt n (by decide)
  have hleft : left % 32 < 32 := mod_lt left (by decide)
  have hword (j : ℕ) : clearWords map i left (lowMask lo) j =
      if j = left / 32 + i then map j &&& (lowMask lo ||| ~~~lowMask (left % 32))
      else if i ≤ j ∧ j < left / 32 + i then 0#32 else map j := by
    have hzero : map j &&& (lowMask lo ||| ~~~lowMask 0) = map j := by
      rw [show ~~~lowMask 0 = BitVec.allOnes 32 by decide, BitVec.or_allOnes, BitVec.and_allOnes]
    unfold clearWords
    simp only [apply_ite (fun m : ℕ → BitVec 32 => m j), update_apply, foldl_update, mem_range'_1]
    by_cases hlast : j = left / 32 + i
    · subst hlast
      by_cases hoffset : left % 32 = 0 <;> simp [hoffset, hzero, add_comm i]
    · by_cases hoffset : left % 32 = 0 <;> simp [hlast, hoffset, add_comm i]
  unfold Bit
  rw [hword]
  by_cases hlast : n / 32 = left / 32 + i
  · rw [if_pos hlast, BitVec.getLsbD_and, BitVec.getLsbD_or, BitVec.getLsbD_not,
      getLsbD_lowMask _ hlo _ hn, getLsbD_lowMask _ hleft _ hn]
    simp only [hn, decide_true, Bool.true_and, Bool.and_eq_true, Bool.or_eq_true, decide_eq_true_eq,
      Bool.not_eq_true', decide_eq_false_iff_not]
    apply and_congr_right'
    omega
  · rw [if_neg hlast]
    split_ifs with hin
    · rw [BitVec.getLsbD_zero]
      simp only [Bool.false_eq_true, false_iff, not_and]
      omega
    · rw [iff_self_and]
      omega

theorem bit_clearBits (hleft : i + left < 2 ^ 32) :
    Bit (clearBits map i left) n ↔ Bit map n ∧ ¬(i ≤ n ∧ n < i + left) := by
  have hn : n % 32 < 32 := mod_lt n (by decide)
  have hi : i % 32 < 32 := mod_lt i (by decide)
  have hzero : lowMask 0 = 0#32 := by decide
  unfold clearBits
  dsimp only
  by_cases hoffset : i % 32 = 0
  · rw [if_neg (not_not.mpr hoffset), ← hzero, bit_clearWords (by decide) (.inl rfl)]
    apply and_congr_right'
    omega
  rw [if_pos hoffset, mod_eq_of_lt (by omega)]
  split_ifs with hinside
  · rw [bit_clearWords hi (.inr (by omega))]
    apply and_congr_right'
    omega
  rw [← hzero, bit_clearWords (by decide) (.inl rfl)]
  have hfirst : Bit (update map (i / 32) (map (i / 32) &&& lowMask (i % 32))) n ↔
      Bit map n ∧ ¬(i ≤ n ∧ n / 32 = i / 32) := by
    unfold Bit
    by_cases hword : n / 32 = i / 32
    · rw [hword, update_self, BitVec.getLsbD_and, getLsbD_lowMask _ hi _ hn, Bool.and_eq_true, decide_eq_true_eq]
      apply and_congr_right'
      omega
    · rw [update_of_ne hword]
      simp [hword]
  rw [hfirst, and_assoc]
  apply and_congr_right'
  omega

end bits

section boot

variable {s s₀ : MemoryMap} {pages addr n : ℕ} {ranges : List (ℕ × ℕ)}

theorem free_iff : s.Free n ↔ n / 32 < s.numBlocks ∧ Bit s.map n := Iff.rfl

theorem mapInitialize_free (s₀ : MemoryMap) (hpages : pages + 31 < 2 ^ 32) :
    (mapInitialize s₀ pages).numBlocks = (pages + 31) / 32 ∧
      ∀ n, (mapInitialize s₀ pages).Free n ↔ n < pages := by
  have hblocks : (mapInitialize s₀ pages).numBlocks = (pages + 31) / 32 := by
    change (pages + 31) % 2 ^ 32 / 32 = _
    rw [mod_eq_of_lt hpages]
  refine ⟨hblocks, ?_⟩
  intro n
  have hn : n % 32 < 32 := mod_lt n (by decide)
  have hoffset : pages % 32 < 32 := mod_lt pages (by decide)
  have hfull : ∀ j < 32, (0xffffffff#32).getLsbD j = true := by decide
  rw [free_iff, hblocks, Bit]
  have hmap : n / 32 < (pages + 31) / 32 → ((mapInitialize s₀ pages).map (n / 32)).getLsbD (n % 32) =
      decide (n < pages) := by
    intro hin
    unfold mapInitialize
    dsimp only
    rw [mod_eq_of_lt hpages]
    by_cases hzero : pages % 32 = 0
    · rw [if_neg (not_not.mpr hzero), foldl_update, if_pos (mem_range.mpr hin), hfull _ hn,
        decide_eq_true (by omega)]
    have hlast : ((pages + 31) / 32 + (2 ^ 32 - 1)) % 2 ^ 32 = pages / 32 := by omega
    rw [if_pos hzero, hlast, update_apply]
    by_cases heq : n / 32 = pages / 32
    · rw [if_pos heq, getLsbD_lowMask _ hoffset _ hn, decide_eq_decide]
      omega
    · rw [if_neg heq, foldl_update, if_pos (mem_range.mpr hin), hfull _ hn, decide_eq_true (by omega)]
  constructor
  · rintro ⟨hin, hbit⟩
    rw [hmap hin] at hbit
    exact of_decide_eq_true hbit
  · intro hlt
    have hin : n / 32 < (pages + 31) / 32 := by omega
    rw [hmap hin]
    exact ⟨hin, decide_eq_true hlt⟩

structure Booted (pages : ℕ) (s : MemoryMap) : Prop where
  blocks : s.numBlocks = (pages + 31) / 32
  max : s.maxPages = pages
  clock : s.clockBlock = 0
  bound : ∀ n, s.Free n → n < pages

variable {r : ℕ × ℕ}

theorem Booted.setUsing_cases (h : Booted pages s) (hr : r.1 / pageSize + r.2 < 2 ^ 32) :
    ((mapSetUsing s r.1 r.2).2 = s ∧ ∀ n < pages, ¬Covers r n) ∨
      ∃ left, (mapSetUsing s r.1 r.2).2 = { s with
          restPages := (s.restPages + (2 ^ 32 - left)) % 2 ^ 32
          map := clearBits s.map (r.1 / pageSize) left } ∧ r.1 / pageSize + left ≤ pages ∧
        ∀ n < pages, Covers r n ↔ r.1 / pageSize ≤ n ∧ n < r.1 / pageSize + left := by
  unfold mapSetUsing Covers
  dsimp only
  rw [h.max, mod_eq_of_lt hr]
  by_cases hzero : r.2 = 0
  · rw [if_pos hzero]
    exact .inl ⟨rfl, by omega⟩
  rw [if_neg hzero]
  by_cases hout : r.1 / pageSize ≥ pages
  · rw [if_pos hout]
    exact .inl ⟨rfl, by omega⟩
  rw [if_neg hout]
  refine .inr ⟨_, rfl, ?_, ?_⟩
  · split_ifs <;> omega
  · split_ifs <;> omega

section

variable (h : Booted pages s) (hpages : pages < 2 ^ 32) (hr : r.1 / pageSize + r.2 < 2 ^ 32)
include h hpages hr

theorem Booted.setUsing_free : ∀ n, (mapSetUsing s r.1 r.2).2.Free n ↔ s.Free n ∧ ¬Covers r n := by
  intro n
  obtain ⟨heq, hnone⟩ | ⟨left, heq, hleft, hcovers⟩ := h.setUsing_cases hr
  · rw [heq, iff_self_and]
    intro hfree
    exact hnone n (h.bound n hfree)
  have hstep : (mapSetUsing s r.1 r.2).2.Free n ↔
      s.Free n ∧ ¬(r.1 / pageSize ≤ n ∧ n < r.1 / pageSize + left) := by
    rw [heq, free_iff, free_iff, bit_clearBits (by omega), and_assoc]
  rw [hstep]
  apply and_congr_right
  intro hfree
  rw [hcovers n (h.bound n hfree)]

theorem Booted.setUsing : Booted pages (mapSetUsing s r.1 r.2).2 := by
  have hfree := h.setUsing_free hpages hr
  have hbound : ∀ n, (mapSetUsing s r.1 r.2).2.Free n → n < pages := by
    intro n hn
    exact h.bound n ((hfree n).mp hn).1
  obtain ⟨heq, -⟩ | ⟨left, heq, -⟩ := h.setUsing_cases hr
  · rw [heq]
    exact h
  · rw [heq] at hbound ⊢
    exact ⟨h.blocks, h.max, h.clock, hbound⟩

theorem Booted.setUsing_rest (hunused : ∀ n < pages, Covers r n → s.Free n)
    (hrest : s.restPages = ((Finset.range pages).filter s.Free).card) : (mapSetUsing s r.1 r.2).2.restPages =
      ((Finset.range pages).filter (mapSetUsing s r.1 r.2).2.Free).card := by
  have hfree := h.setUsing_free hpages hr
  obtain ⟨heq, -⟩ | ⟨left, heq, hleft, hcovers⟩ := h.setUsing_cases hr
  · rw [heq]
    exact hrest
  have hsub : Finset.Ico (r.1 / pageSize) (r.1 / pageSize + left) ⊆ (Finset.range pages).filter s.Free := by
    intro n hn
    rw [Finset.mem_Ico] at hn
    have hlt : n < pages := by omega
    rw [Finset.mem_filter, Finset.mem_range]
    exact ⟨hlt, hunused n hlt ((hcovers n hlt).mpr hn)⟩
  have hset : (Finset.range pages).filter (mapSetUsing s r.1 r.2).2.Free =
      (Finset.range pages).filter s.Free \ Finset.Ico (r.1 / pageSize) (r.1 / pageSize + left) := by
    ext n
    rw [Finset.mem_sdiff, Finset.mem_filter, Finset.mem_filter, Finset.mem_range, Finset.mem_Ico,
      hfree, and_assoc]
    apply and_congr_right
    intro hn
    rw [hcovers n hn]
  have hle := Finset.card_le_card hsub
  have hall : ((Finset.range pages).filter s.Free).card ≤ pages :=
    (Finset.card_filter_le _ _).trans_eq (Finset.card_range pages)
  rw [hset, Finset.card_sdiff_of_subset hsub, card_Ico, heq]
  rw [card_Ico] at hle
  change (s.restPages + (2 ^ 32 - left)) % 2 ^ 32 = _
  rw [hrest]
  omega

end

theorem boot_booted (s₀ : MemoryMap) (hpages : pages + 31 < 2 ^ 32) (ranges : List (ℕ × ℕ))
    (hranges : ∀ r ∈ ranges, r.1 / pageSize + r.2 < 2 ^ 32) : Booted pages (boot s₀ pages ranges) ∧
      (∀ n, (boot s₀ pages ranges).Free n ↔ n < pages ∧ ∀ r ∈ ranges, ¬Covers r n) ∧
      (ranges.Pairwise (fun r r' => ∀ n < pages, ¬(Covers r n ∧ Covers r' n)) →
        (boot s₀ pages ranges).restPages = ((Finset.range pages).filter (boot s₀ pages ranges).Free).card) := by
  induction ranges using reverseRecOn with
  | nil =>
    obtain ⟨hblocks, hfree⟩ := mapInitialize_free s₀ hpages
    refine ⟨⟨hblocks, rfl, rfl, fun n hn => (hfree n).mp hn⟩, ?_, ?_⟩
    · intro n
      rw [boot, foldl_nil, hfree]
      simp
    · intro _
      have hset : (Finset.range pages).filter (mapInitialize s₀ pages).Free = Finset.range pages := by
        apply Finset.filter_true_of_mem
        intro n hn
        exact (hfree n).mpr (Finset.mem_range.mp hn)
      change pages = ((Finset.range pages).filter (mapInitialize s₀ pages).Free).card
      rw [hset, Finset.card_range]
  | append_singleton ranges r ih =>
    obtain ⟨hbooted, hfree, hrest⟩ := ih fun r' hr' => hranges r' (mem_append_left _ hr')
    have hr : r.1 / pageSize + r.2 < 2 ^ 32 := hranges r (by simp)
    have hlast : boot s₀ pages (ranges ++ [r]) = (mapSetUsing (boot s₀ pages ranges) r.1 r.2).2 := by
      rw [boot, foldl_append]
      rfl
    rw [hlast]
    refine ⟨hbooted.setUsing (by omega) hr, ?_, ?_⟩
    · intro n
      rw [hbooted.setUsing_free (by omega) hr, hfree, and_assoc]
      simp [or_imp, forall_and]
    · intro hapart
      rw [pairwise_append] at hapart
      apply hbooted.setUsing_rest (by omega) hr _ (hrest hapart.1)
      intro n hn hcovers
      rw [hfree]
      refine ⟨hn, ?_⟩
      intro r' hr' hcovers'
      exact hapart.2.2 r' hr' r (mem_singleton.mpr rfl) n hn ⟨hcovers', hcovers⟩

/-- The bits are those of the pages in no range, as many as `rest_pages` says. -/
theorem boot_map (s₀ : MemoryMap) (pages : ℕ) (hpages : pages + 31 < 2 ^ 32)
    (ranges : List (ℕ × ℕ)) (hranges : ∀ r ∈ ranges, r.1 / pageSize + r.2 < 2 ^ 32) :
    (∀ n, (boot s₀ pages ranges).Free n ↔ n < pages ∧ ∀ r ∈ ranges, ¬Covers r n) ∧
      (ranges.Pairwise (fun r r' => ∀ n < pages, ¬(Covers r n ∧ Covers r' n)) →
        (boot s₀ pages ranges).Ok) := by
  obtain ⟨hbooted, hfree, hrest⟩ := boot_booted s₀ hpages ranges hranges
  refine ⟨hfree, ?_⟩
  intro hapart
  refine ⟨?_, ?_, ?_⟩
  · rw [hrest hapart]
    congr 1
    ext n
    rw [Finset.mem_filter, Finset.mem_filter, Finset.mem_range, Finset.mem_range, hbooted.blocks]
    apply and_congr_left
    intro hn
    have := hbooted.bound n hn
    omega
  · rw [hbooted.max]
    exact hbooted.bound
  · rw [hbooted.clock]
    exact fun _ _ => zero_le _

def noPages : MemoryMap := ⟨0, 0, 0, 0, fun _ => 0#32, fun _ => 0⟩

theorem boot_map_apart : (boot noPages 70 [(0, 8), (0x1f000, 40)]).Free 30 ∧
    ¬(boot noPages 70 [(0, 8), (0x1f000, 40)]).Free 69 ∧
    (boot noPages 70 [(0, 8), (0x1f000, 40)]).Ok := by
  obtain ⟨hfree, hok⟩ := boot_map noPages 70 (by decide) [(0, 8), (0x1f000, 40)] (by decide)
  refine ⟨by decide +kernel, by decide +kernel, hok ?_⟩
  simp only [pairwise_cons, mem_singleton, forall_eq, not_mem_nil, IsEmpty.forall_iff,
    implies_true, List.Pairwise.nil, and_true, Covers, pageSize]
  omega

theorem range_counted_twice : (boot noPages 64 [(0, 8), (0, 8)]).restPages = 48 ∧
    ((Finset.range 64).filter (boot noPages 64 [(0, 8), (0, 8)]).Free).card = 56 := by
  decide +kernel

end boot

end Eotan.Starter
