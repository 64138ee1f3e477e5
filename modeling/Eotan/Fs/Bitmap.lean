import Eotan.Fs.CacheFlush
import Eotan.Fs.Frames

/-!
The super block and the bitmap: what `tfs_allocate_block` and `tfs_deallocate_block` do to the set
of free blocks.
-/

namespace Eotan.Fs

open Lib.Bytes (Block word setWord)
open Vfs Sequence
open Finset

structure Geometry where
  dblkno : ℕ
  size : ℕ
  three_le : 3 ≤ dblkno
  size_le : size ≤ (dblkno - 2) * 4096
  size_lt : size < 2 ^ 31

def Vfs.view (s : Vfs) (k : ℕ) : Block := s.cache.view k

def freeBit (d : ℕ → Block) (k : ℕ) : Bool :=
  (d (k / 4096 + 2) (k / 8 % 512)).toNat.testBit (k % 8)

def Free (g : Geometry) (d : ℕ → Block) (k : ℕ) : Prop :=
  k / 4096 + 2 < g.dblkno ∧ freeBit d k = true

instance (g : Geometry) (d : ℕ → Block) (k : ℕ) : Decidable (Free g d k) :=
  inferInstanceAs (Decidable (_ ∧ _))

def freeCount (g : Geometry) (d : ℕ → Block) : ℕ :=
  ((Finset.range g.size).filter (Free g d)).card

theorem freeBit_eq (d : ℕ → Block) (k : ℕ) :
    freeBit d k = (word (d (k / 4096 + 2)) (k / 32 % 128)).testBit (k % 32) := by
  rw [Lib.Bytes.testBit_word _ _ (Nat.mod_lt k (by decide)), freeBit]
  rw [show 4 * (k / 32 % 128) + k % 32 / 8 = k / 8 % 512 by omega, show k % 32 % 8 = k % 8 by omega]

def Vfs.Super (s : Vfs) : Prop := ∃ p, s.tfs = some p ∧ s.cache.At p superBlockNo

/-- The bitmap, the counter and the hand agree. The bits of blocks past the end are set. -/
structure Layout (g : Geometry) (d : ℕ → Block) : Prop where
  sblkno : word (d superBlockNo) 0 = 1
  dblkno : word (d superBlockNo) 1 = g.dblkno
  bsize : word (d superBlockNo) 2 = blockSize
  bshift : word (d superBlockNo) 4 = 9
  sbsize : word (d superBlockNo) 5 = 1
  magic : word (d superBlockNo) 14 = magic
  reserved : ∀ k < g.dblkno, ¬Free g d k
  surplus : ∀ k, g.size ≤ k → k / 4096 + 2 < g.dblkno → Free g d k
  count : word (d superBlockNo) 15 = freeCount g d
  hand : ∀ k < g.size, Free g d k → word (d superBlockNo) 16 ≤ k

structure Base (g : Geometry) (s : Vfs) : Prop extends Layout g s.view where
  ok : s.cache.Ok
  super : s.Super
  quiet : ∀ k, 2 ≤ k → k < g.dblkno → ¬s.cache.Orphan k ∧ s.cache.Saved k

section Primitives

variable {s : Vfs} {p k : ℕ}

theorem get_spec (h : s.cache.Ok) (hk : ¬s.cache.Orphan k) (hroom : Multiset.card s.cache.pins < maxCache) :
    ∃ p s', s.get k = (some p, s') ∧ s.cache.Kept ∅ s'.cache ∧
      s'.cache.pins = k ::ₘ s.cache.pins ∧ s'.cache.At p k := by
  obtain ⟨i, c', hget, hkept, hpins, hat⟩ := Cache.cacheGet_spec h hk hroom
  refine ⟨i, { s with cache := c' }, ?_, hkept, hpins, hat⟩
  unfold Vfs.get
  rw [hget]

section

variable (h : s.cache.Ok) (hat : s.cache.At p k)
include h hat

theorem poke_spec (f : Block → Block) : s.cache.Kept {k} (s.poke (some p) f).cache ∧
      (s.poke (some p) f).cache.pins = s.cache.pins ∧ (s.poke (some p) f).view k = f (s.view k) ∧
      (s.poke (some p) f).cache.stored k = f (s.view k) := Cache.store_spec h hat f

theorem modify_spec : ∃ s', s.modify (some p) = (true, s') ∧ s.cache.Kept ∅ s'.cache ∧
      s'.cache.pins = s.cache.pins ∧ s'.cache.Saved k := by
  obtain ⟨c', hmodify, hkept, hpins, hsaved⟩ := Cache.cacheModify_spec h hat
  refine ⟨{ s with cache := c' }, ?_, hkept, hpins, hsaved⟩
  unfold Vfs.modify
  rw [hmodify]

theorem release_spec {dirty : Bool} (hsaved : dirty = true ∨ s.cache.Saved k) :
    ∃ s', s.release (some p) dirty = (true, s') ∧ s.cache.Kept ∅ s'.cache ∧
      s.cache.pins = k ::ₘ s'.cache.pins ∧ (dirty = true → s'.cache.Saved k) := by
  obtain ⟨c', hrelease, hkept, hpins, hsaved'⟩ := Cache.cacheRelease_spec h hat hsaved
  refine ⟨{ s with cache := c' }, ?_, hkept, hpins, hsaved'⟩
  unfold Vfs.release
  rw [hrelease]

theorem buf_of_at : s.buf (some p) = s.view k := Cache.buf_of_at h hat

end

end Primitives

variable {s : Vfs}

theorem Vfs.Super.of_kept {s' : Vfs} (h : s.Super) {t : Set ℕ} (hc : Cached s s')
    (hk : s.cache.Kept t s'.cache) (hpin : superBlockNo ∈ s'.cache.pins) : s'.Super := by
  obtain ⟨p, hp, hat⟩ := h
  refine ⟨p, ?_, hk.held p _ hat hpin⟩
  rw [hc.eq]
  exact hp

theorem Vfs.Super.pinned (h : s.Super) (hok : s.cache.Ok) : superBlockNo ∈ s.cache.pins := by
  obtain ⟨p, -, hat⟩ := h
  exact (Cache.mem_pins hok).mpr ⟨p, hat⟩

theorem Vfs.Super.buf_tfs (h : s.Super) (hok : s.cache.Ok) : s.buf s.tfs = s.view superBlockNo := by
  obtain ⟨p, hp, hat⟩ := h
  rw [hp, buf_of_at hok hat]

namespace Base

variable {g : Geometry} {s : Vfs}

section

variable (h : Base g s)
include h

theorem buf_tfs : s.buf s.tfs = s.view superBlockNo := h.super.buf_tfs h.ok

theorem bsize_eq : s.bsize = 512 := by
  rw [Vfs.bsize, h.buf_tfs, h.bsize]
  rfl

theorem bshift_eq : s.bshift = 9 := by
  rw [Vfs.bshift, h.buf_tfs, h.bshift]

theorem dblkno_eq : s.dblkno = g.dblkno := by
  rw [Vfs.dblkno, h.buf_tfs, h.dblkno]

theorem freeBlocks_eq : s.freeBlocks = freeCount g s.view := by
  rw [Vfs.freeBlocks, h.buf_tfs, h.count]

theorem blockHand_eq : s.blockHand = word (s.view superBlockNo) 16 := by
  rw [Vfs.blockHand, h.buf_tfs]

theorem bitmapBlocks_eq : s.bitmapBlocks = g.dblkno - 2 := by
  rw [Vfs.bitmapBlocks, h.buf_tfs, h.dblkno, h.sblkno, h.sbsize]
  omega

end

end Base

section FreeSet

variable {g : Geometry} {d d' : ℕ → Block}

theorem free_of_clear {i j r v : ℕ} (hj : j < 128) (hr : r < 32) (hv : v < 2 ^ 32)
    (hbits : ∀ m < 32, v.testBit m = ((word (d (i + 2)) j).testBit m && decide (m ≠ r)))
    (hself : d' (i + 2) = setWord (d (i + 2)) j v)
    (hother : ∀ b, 2 ≤ b → b < g.dblkno → b ≠ i + 2 → d' b = d b) (k : ℕ) :
    Free g d' k ↔ Free g d k ∧ k ≠ i * 4096 + j * 32 + r := by
  unfold Free
  rw [and_assoc]
  apply and_congr_right
  intro hk
  rw [freeBit_eq, freeBit_eq]
  by_cases hblock : k / 4096 = i
  · rw [hblock, hself]
    by_cases hword : k / 32 % 128 = j
    · rw [hword, Lib.Bytes.word_setWord_self _ _ hv, hbits _ (Nat.mod_lt k (by decide)),
        Bool.and_eq_true, decide_eq_true_iff]
      apply and_congr_right
      intro _
      omega
    · rw [Lib.Bytes.word_setWord_ne _ _ hword]
      constructor
      · intro hbit
        exact ⟨hbit, by omega⟩
      · exact And.left
  · rw [hother _ (by omega) hk (by omega)]
    constructor
    · intro hbit
      exact ⟨hbit, by omega⟩
    · exact And.left

theorem testBit_or_shiftLeft (n : UInt8) (m : ℕ) {r : ℕ} (hr : r < 8) :
    (n ||| UInt8.ofNat (1 <<< r)).toNat.testBit m = (n.toNat.testBit m || decide (m = r)) := by
  have hpow : UInt8.toNat (UInt8.ofNat (1 <<< r)) = 2 ^ r := by
    rw [Nat.one_shiftLeft]
    change 2 ^ r % 256 = 2 ^ r
    apply Nat.mod_eq_of_lt
    calc 2 ^ r ≤ 2 ^ 7 := Nat.pow_le_pow_right (by decide) (by omega)
      _ < 256 := by decide
  rw [UInt8.toNat_or, Nat.testBit_or, hpow, Nat.testBit_two_pow]
  simp [eq_comm]

theorem free_of_set {b : ℕ} (hb : b / 4096 + 2 < g.dblkno)
    (hself : d' (b / 4096 + 2) = Function.update (d (b / 4096 + 2)) (b / 8 % 512)
      (d (b / 4096 + 2) (b / 8 % 512) ||| UInt8.ofNat (1 <<< (b % 8))))
    (hother : ∀ k, 2 ≤ k → k < g.dblkno → k ≠ b / 4096 + 2 → d' k = d k) (k : ℕ) :
    Free g d' k ↔ Free g d k ∨ k = b := by
  unfold Free freeBit
  by_cases hblock : k / 4096 = b / 4096
  · rw [hblock, hself]
    by_cases hbyte : k / 8 % 512 = b / 8 % 512
    · rw [hbyte, Function.update_self, testBit_or_shiftLeft _ _ (Nat.mod_lt b (by decide)),
        Bool.or_eq_true, decide_eq_true_iff]
      have hkb : k % 8 = b % 8 ↔ k = b := by omega
      rw [hkb]
      tauto
    · rw [Function.update_of_ne hbyte]
      have hkb : k ≠ b := by
        rintro rfl
        exact hbyte rfl
      simp [hkb]
  · have hkb : k ≠ b := by
      rintro rfl
      exact hblock rfl
    simp only [hkb, or_false]
    apply and_congr_right
    intro hk
    rw [hother _ (by omega) hk (by omega)]

theorem freeCount_of_take {b : ℕ} (hb : Free g d b) (hlt : b < g.size)
    (h : ∀ k, Free g d' k ↔ Free g d k ∧ k ≠ b) : freeCount g d' + 1 = freeCount g d := by
  have hmem : b ∈ (range g.size).filter (Free g d) := mem_filter.mpr ⟨mem_range.mpr hlt, hb⟩
  have herase : (range g.size).filter (Free g d') = ((range g.size).filter (Free g d)).erase b := by
    ext k
    rw [mem_filter, mem_erase, mem_filter, h]
    tauto
  have hpos := card_pos.mpr ⟨b, hmem⟩
  rw [freeCount, freeCount, herase, card_erase_of_mem hmem]
  omega

theorem freeCount_le (g : Geometry) (d : ℕ → Block) : freeCount g d ≤ g.size := by
  have := card_filter_le (range g.size) (Free g d)
  rwa [card_range] at this

end FreeSet

theorem Cache.Kept.next {t u : Set ℕ} {c1 c2 c3 : Cache ℕ} (hok : c1.Ok) (h1 : c1.Kept t c2)
    (h2 : c2.Kept u c3) (hsub : c3.pins ⊆ c2.pins) : c1.Kept (t ∪ u) c3 :=
  (h1.mono Set.subset_union_left).trans (h2.mono Set.subset_union_right) (fun _ _ hk => hsub hk) hok

theorem noteAllocated_kept (h : s.cache.Ok) (b : ℕ) : s.cache.Kept ∅ (s.noteAllocated b).cache where
  ok := { h with }
  held := fun _ _ hat _ => hat
  orphan := fun _ ho => ho
  view := fun _ _ => rfl
  stored := fun _ _ => rfl
  saved := fun _ _ hs => hs

theorem testBit_clear (n r : ℕ) {m : ℕ} (hm : m < 32) :
    (BitVec.ofNat 32 n &&& ~~~(1#32 <<< r)).toNat.testBit m = (n.testBit m && decide (m ≠ r)) := by
  rw [← BitVec.getLsbD, BitVec.getLsbD_and, BitVec.getLsbD_not, getLsbD_one_shiftLeft hm, BitVec.getLsbD_ofNat]
  simp [hm]

structure Stored (s s' : Vfs) (f : Block → Block) : Prop where
  cached : Cached s s'
  kept : s.cache.Kept {superBlockNo} s'.cache
  pins : s'.cache.pins = s.cache.pins
  super : s'.Super
  view : s'.view superBlockNo = f (s.view superBlockNo)

namespace Stored

theorem ok {s' : Vfs} {f : Block → Block} (h : Stored s s' f) : s'.cache.Ok := h.kept.ok

theorem trans {s1 s2 s3 : Vfs} {f1 f2 : Block → Block} (hok : s1.cache.Ok)
    (h1 : Stored s1 s2 f1) (h2 : Stored s2 s3 f2) : Stored s1 s3 fun b => f2 (f1 b) where
  cached := h1.cached.trans h2.cached
  kept := by
    have hnext := h1.kept.next hok h2.kept (by rw [h2.pins]; exact Multiset.Subset.refl _)
    exact hnext.mono (by rw [Set.union_self])
  pins := h2.pins.trans h1.pins
  super := h2.super
  view := by rw [h2.view, h1.view]

theorem poke (hok : s.cache.Ok) (h : s.Super) (f : Block → Block) : Stored s (s.poke s.tfs f) f := by
  obtain ⟨p, hp, hat⟩ := id h
  obtain ⟨hkept, hpins, hview, -⟩ := poke_spec hok hat f
  rw [hp]
  refine ⟨poke_cached s (some p) f, hkept, hpins, ?_, hview⟩
  apply h.of_kept (poke_cached s (some p) f) hkept
  rw [hpins]
  exact h.pinned hok

theorem modify (hok : s.cache.Ok) (h : s.Super) : ∃ s', s.modify s.tfs = (true, s') ∧ Stored s s' id := by
  obtain ⟨p, hp, hat⟩ := id h
  obtain ⟨s', hmodify, hkept, hpins, -⟩ := modify_spec hok hat
  have hc := modify_cached hmodify
  refine ⟨s', by rw [hp, hmodify], hc, hkept.mono (Set.empty_subset _), hpins, ?_, ?_⟩
  · apply h.of_kept hc hkept
    rw [hpins]
    exact h.pinned hok
  · exact hkept.view _ (Set.notMem_empty _)

end Stored

end Eotan.Fs
