import Eotan.Fs.Bitmap

namespace Eotan.Fs

open Lib.Bytes (Block word setWord word_lt)
open Sequence
open Multiset
open Nat

variable {g : Geometry} {s s' : Vfs}

theorem view_of_kept (hk : s.cache.Kept ∅ s'.cache) : s'.view = s.view := by
  funext k
  exact hk.view k (Set.notMem_empty k)

theorem ne_superBlockNo {k : ℕ} (hk : 2 ≤ k) : k ≠ superBlockNo := by
  rw [superBlockNo]
  omega

theorem Base.of_kept (h : Base g s) (hc : Cached s s') (hk : s.cache.Kept ∅ s'.cache)
    (hpin : superBlockNo ∈ s'.cache.pins) : Base g s' := by
  refine ⟨view_of_kept hk ▸ h.toLayout, hk.ok, h.super.of_kept hc hk hpin, ?_⟩
  intro k hlo hhi
  obtain ⟨horphan, hsaved⟩ := h.quiet k hlo hhi
  exact ⟨fun ho => horphan (hk.orphan k ho), hk.saved k (Set.notMem_empty k) hsaved⟩

theorem Base.get (h : Base g s) (hroom : card s.cache.pins < maxCache) {k : ℕ} (hlo : 2 ≤ k)
    (hhi : k < g.dblkno) : ∃ p s', s.get k = (some p, s') ∧ Base g s' ∧ Cached s s' ∧
      s.cache.Kept ∅ s'.cache ∧ s'.cache.pins = k ::ₘ s.cache.pins ∧ s'.cache.At p k := by
  obtain ⟨p, s', hget, hkept, hpins, hat⟩ := get_spec h.ok (h.quiet k hlo hhi).1 hroom
  have hc := get_cached hget
  have hpin : superBlockNo ∈ s'.cache.pins := by
    rw [hpins]
    exact mem_cons_of_mem (h.super.pinned h.ok)
  exact ⟨p, s', hget, h.of_kept hc hkept hpin, hc, hkept, hpins, hat⟩

variable {j n b : ℕ} {s₁ : Vfs}

theorem findWord_none {b : Block} (h : findWord b n j = none) : ∀ i, j ≤ i → i < j + n → word b i = 0 := by
  induction n generalizing j with
  | zero =>
    intro i hlo hhi
    omega
  | succ n ih =>
    intro i hlo hhi
    rw [findWord] at h
    split at h
    · rcases eq_or_lt_of_le hlo with rfl | hlt
      · assumption
      · exact ih h i hlt (by omega)
    · cases h

theorem findWord_some {b : Block} {r : ℕ} (h : findWord b n j = some r) :
    j ≤ r ∧ r < j + n ∧ word b r ≠ 0 ∧ ∀ i, j ≤ i → i < r → word b i = 0 := by
  induction n generalizing j with
  | zero => cases h
  | succ n ih =>
    rw [findWord] at h
    split at h
    · rename_i hzero
      obtain ⟨hlo, hhi, hne, hbefore⟩ := ih h
      refine ⟨by omega, by omega, hne, ?_⟩
      intro i hi hlt
      rcases eq_or_lt_of_le hi with rfl | hi
      · exact hzero
      · exact hbefore i hi hlt
    · rename_i hne
      cases h
      exact ⟨le_refl r, by omega, hne, fun i hi hlt => absurd hi (by omega)⟩

theorem countNtz_word (hn : n < 2 ^ 32) (hne : n ≠ 0) :
    countNtz (BitVec.ofNat 32 n) < 32 ∧ n.testBit (countNtz (BitVec.ofNat 32 n)) = true ∧
      ∀ i < countNtz (BitVec.ofNat 32 n), n.testBit i = false := by
  have hbv : BitVec.ofNat 32 n ≠ 0#32 := by
    intro heq
    have htoNat := congrArg BitVec.toNat heq
    rw [BitVec.toNat_ofNat, mod_eq_of_lt hn] at htoNat
    exact hne htoNat
  obtain ⟨hlt, hbit⟩ := countNtz_spec hbv
  have hget : ∀ i < 32, (BitVec.ofNat 32 n).getLsbD i = n.testBit i := by
    intro i hi
    rw [BitVec.getLsbD_ofNat]
    simp [hi]
  refine ⟨hlt, ?_, ?_⟩
  · rw [← hget _ hlt]
    exact hbit
  · intro i hi
    rw [← hget i (by omega)]
    exact countNtz_min hi

theorem store_release_spec {p k : ℕ} (h : Base g s) (hk : s.cache.Kept ∅ s₁.cache) (hc : Cached s s₁)
    (hpins : s₁.cache.pins = k ::ₘ s.cache.pins) (hat : s₁.cache.At p k) (hlo : 2 ≤ k) (f : Block → Block) :
    ∃ s', (s₁.poke (some p) f).release (some p) true = (true, s') ∧ s'.Super ∧
      s.cache.Kept {k} s'.cache ∧ s'.cache.pins = s.cache.pins ∧ s'.view k = f (s.view k) ∧
      s'.view superBlockNo = s.view superBlockNo ∧ ∀ k, 2 ≤ k → k < g.dblkno → s'.cache.Saved k := by
  obtain ⟨hkept, hpins2, hview, -⟩ := poke_spec hk.ok hat f
  have hpin : k ∈ (s₁.poke (some p) f).cache.pins := by
    rw [hpins2, hpins]
    exact mem_cons_self k _
  have hat2 := hkept.held p k hat hpin
  obtain ⟨s', hrelease, hkept', hpins', hsaved⟩ := release_spec hkept.ok hat2 (.inl rfl)
  have hback : s'.cache.pins = s.cache.pins := by
    rw [hpins2, hpins] at hpins'
    exact ((cons_inj_right k).mp hpins').symm
  have hall : s.cache.Kept {k} s'.cache := by
    have hnext := hk.next h.ok hkept (by rw [hpins2]; exact Multiset.Subset.refl _)
    rw [Set.empty_union] at hnext
    apply hnext.trans (hkept'.mono (Set.empty_subset _)) _ h.ok
    intro k' hmem _
    rw [hpins2, hpins]
    exact mem_cons_of_mem hmem
  have hcached := (hc.trans (poke_cached s₁ (some p) f)).trans (release_cached hrelease)
  refine ⟨s', hrelease, ?_, hall, hback, ?_, hall.view _ (ne_superBlockNo hlo).symm, ?_⟩
  · apply h.super.of_kept hcached hall
    rw [hback]
    exact h.super.pinned h.ok
  · rw [view_of_kept hkept', hview, view_of_kept hk]
  · intro k' hlo' hhi'
    by_cases he : k' = k
    · rw [he]
      exact hsaved rfl
    · exact hall.saved k' he (h.quiet k' hlo' hhi').2

theorem Base.of_stored {t : Set ℕ} (h : Base g s) (hk : s.cache.Kept t s'.cache) (hsuper : s'.Super)
    (hwords : ∀ j, j < 15 → word (s'.view superBlockNo) j = word (s.view superBlockNo) j)
    (hreserved : ∀ k < g.dblkno, ¬Free g s'.view k)
    (hsurplus : ∀ k, g.size ≤ k → k / 4096 + 2 < g.dblkno → Free g s'.view k)
    (hcount : word (s'.view superBlockNo) 15 = freeCount g s'.view)
    (hhand : ∀ k < g.size, Free g s'.view k → word (s'.view superBlockNo) 16 ≤ k)
    (hsaved : ∀ k, 2 ≤ k → k < g.dblkno → s'.cache.Saved k) : Base g s' := by
  refine ⟨⟨?_, ?_, ?_, ?_, ?_, ?_, hreserved, hsurplus, hcount, hhand⟩, hk.ok, hsuper, ?_⟩
  · rw [hwords 0 (by decide), h.sblkno]
  · rw [hwords 1 (by decide), h.dblkno]
  · rw [hwords 2 (by decide), h.bsize]
  · rw [hwords 4 (by decide), h.bshift]
  · rw [hwords 5 (by decide), h.sbsize]
  · rw [hwords 14 (by decide), h.magic]
  · intro k hlo hhi
    exact ⟨fun ho => (h.quiet k hlo hhi).1 (hk.orphan k ho), hsaved k hlo hhi⟩

structure Allocated (g : Geometry) (s s' : Vfs) (b : ℕ) : Prop where
  base : Base g s'
  kept : s.cache.Kept {k | k < g.dblkno} s'.cache
  pins : s'.cache.pins = s.cache.pins
  was : Free g s.view b
  free : ∀ k, Free g s'.view k ↔ Free g s.view k ∧ k ≠ b

theorem takeBit_spec (h : Base g s) {p i : ℕ} (hk : s.cache.Kept ∅ s₁.cache)
    (hc : Cached s s₁) (hpins : s₁.cache.pins = (i + 2) ::ₘ s.cache.pins)
    (hat : s₁.cache.At p (i + 2)) (hi : i + 2 < g.dblkno) (hj : j < 128) (hword : word (s.view (i + 2)) j ≠ 0)
    (hmin : ∀ k, Free g s.view k → i * 4096 + j * 32 ≤ k) (hsome : ∃ k < g.size, Free g s.view k) :
    ∃ b s', takeBit s₁ p i j = (b, s') ∧ b < g.size ∧ (∀ k, Free g s.view k → b ≤ k) ∧ Allocated g s s' b := by
  have hbuf : s₁.buf (some p) = s.view (i + 2) := by
    rw [buf_of_at hk.ok hat, view_of_kept hk]
  obtain ⟨hr, hbit, hbelow⟩ := countNtz_word (word_lt (s.view (i + 2)) j) hword
  simp only [takeBit, hbuf]
  generalize hb : countNtz (BitVec.ofNat 32 (word (s.view (i + 2)) j)) = r at hr hbit hbelow ⊢
  -- the bit found is that of the lowest free block
  have hfree : Free g s.view (i * 4096 + j * 32 + r) := by
    refine ⟨by omega, ?_⟩
    rw [freeBit_eq]
    rw [show (i * 4096 + j * 32 + r) / 4096 = i by omega, show (i * 4096 + j * 32 + r) / 32 % 128 = j by omega,
      show (i * 4096 + j * 32 + r) % 32 = r by omega]
    exact hbit
  have hlowest : ∀ k, Free g s.view k → i * 4096 + j * 32 + r ≤ k := by
    intro k hkfree
    by_contra hlt
    have hge := hmin k hkfree
    have hclear := hbelow (k % 32) (by omega)
    have hset := hkfree.2
    rw [freeBit_eq, show k / 4096 = i by omega, show k / 32 % 128 = j by omega, hclear] at hset
    cases hset
  obtain ⟨k0, hk0, hfree0⟩ := hsome
  have hlt : i * 4096 + j * 32 + r < g.size := lt_of_le_of_lt (hlowest k0 hfree0) hk0
  obtain ⟨s2, hrelease, hsuper2, hkept2, hpins2, hview2, hsview2, hsaved2⟩ :=
    store_release_spec h hk hc hpins hat (by omega) fun b =>
      setWord b j (BitVec.ofNat 32 (word (s.view (i + 2)) j) &&& ~~~(1#32 <<< r)).toNat
  rw [hrelease]
  have hshift : s2.bshift = 9 := by
    rw [Vfs.bshift, hsuper2.buf_tfs hkept2.ok, hsview2, h.bshift]
  have hno : (i <<< 9) * 8 + j * 32 + r = i * 4096 + j * 32 + r := by
    rw [shiftLeft_eq]
    omega
  simp only [hshift, hno]
  obtain ⟨b, hbno⟩ : ∃ b, b = i * 4096 + j * 32 + r := ⟨_, rfl⟩
  rw [← hbno] at hfree hlowest hlt ⊢
  have hnote := noteAllocated_kept hkept2.ok b
  have hsuper3 : (s2.noteAllocated b).Super := hsuper2
  have hst1 := Stored.poke hnote.ok hsuper3 fun w => setWord w 15 ((word w 15 + (2 ^ 32 - 1)) % 2 ^ 32)
  have hst2 := Stored.poke hst1.ok hst1.super fun w => setWord w 16 (b + 1)
  obtain ⟨s', hmodify, hst3⟩ := Stored.modify hst2.ok hst2.super
  rw [hmodify]
  have hst := (hst1.trans hnote.ok hst2).trans hnote.ok hst3
  have hviewSuper : s'.view superBlockNo = setWord (setWord (s.view superBlockNo) 15
      ((word (s.view superBlockNo) 15 + (2 ^ 32 - 1)) % 2 ^ 32)) 16 (b + 1) := by
    have hsame : (s2.noteAllocated b).view superBlockNo = s2.view superBlockNo := rfl
    simp only [hst.view, hsame, hsview2, id]
  have hview : ∀ k, k ≠ superBlockNo → s'.view k = s2.view k := by
    intro k hk
    exact hst.kept.view k hk
  have hfree' : ∀ k, Free g s'.view k ↔ Free g s.view k ∧ k ≠ b := by
    rw [hbno]
    apply free_of_clear hj hr (BitVec.isLt _) (fun m hm => testBit_clear _ r hm)
    · rw [hview _ (ne_superBlockNo (by omega)), hview2]
    · intro k hlo _ hki
      rw [hview k (ne_superBlockNo hlo)]
      exact hkept2.view k hki
  have hkept : s.cache.Kept {k | k < g.dblkno} s'.cache := by
    have hlow : superBlockNo < g.dblkno := lt_of_lt_of_le (by decide) g.three_le
    have hfirst := hkept2.next h.ok hnote (Multiset.Subset.refl _)
    have hall := hfirst.next h.ok hst.kept (by rw [hst.pins]; exact Multiset.Subset.refl _)
    apply hall.mono
    rintro k ((rfl | hk) | rfl)
    · exact hi
    · exact absurd hk (Set.notMem_empty k)
    · exact hlow
  have hcount : freeCount g s'.view + 1 = freeCount g s.view := freeCount_of_take hfree hlt hfree'
  have hle := freeCount_le g s.view
  have hsize := g.size_lt
  refine ⟨b, s', rfl, hlt, hlowest, ?_, hkept, hst.pins.trans hpins2, hfree, hfree'⟩
  apply h.of_stored hkept hst.super
  · intro w hw
    rw [hviewSuper, Lib.Bytes.word_setWord_ne _ _ (by omega), Lib.Bytes.word_setWord_ne _ _ (by omega)]
  · intro k hk hkfree
    exact h.reserved k hk ((hfree' k).mp hkfree).1
  · intro k hk hin
    exact (hfree' k).mpr ⟨h.surplus k hk hin, by omega⟩
  · rw [hviewSuper, Lib.Bytes.word_setWord_ne _ _ (by decide),
      Lib.Bytes.word_setWord_self _ _ (mod_lt _ (by decide)), h.count]
    omega
  · intro k _ hkfree
    obtain ⟨hkfree, hkb⟩ := (hfree' k).mp hkfree
    rw [hviewSuper, Lib.Bytes.word_setWord_self _ _ (by omega)]
    have := hlowest k hkfree
    omega
  · intro k hlo hhi
    exact hst.kept.saved k (ne_superBlockNo hlo) (hsaved2 k hlo hhi)

theorem Free.word_ne {k i : ℕ} (h : Free g s.view k) (hi : k / 4096 = i) :
    word (s.view (i + 2)) (k / 32 % 128) ≠ 0 := by
  intro hzero
  have hbit := h.2
  rw [freeBit_eq, hi, hzero, zero_testBit] at hbit
  cases hbit

theorem Allocated.after (h : Base g s) (hk : s.cache.Kept ∅ s₁.cache)
    (hpins : s₁.cache.pins = s.cache.pins) (ha : Allocated g s₁ s' b) : Allocated g s s' b := by
  have hview := view_of_kept hk
  refine ⟨ha.base, ?_, ha.pins.trans hpins, hview ▸ ha.was, hview ▸ ha.free⟩
  have hnext := hk.next h.ok ha.kept (by rw [ha.pins]; exact Multiset.Subset.refl _)
  exact hnext.mono (by rw [Set.empty_union])

theorem allocateLoop_spec (start n i : ℕ) (h : Base g s)
    (hroom : card s.cache.pins < maxCache) (hn : i + n = g.dblkno - 2) (hi : start ≤ i)
    (hmin : ∀ k, Free g s.view k → i * 4096 + (if i = start then s.blockHand / 32 % 128 else 0) * 32 ≤ k)
    (hsome : ∃ k < g.size, Free g s.view k) :
    ∃ b s', allocateLoop start n i s = (b, s') ∧ b < g.size ∧ (∀ k, Free g s.view k → b ≤ k) ∧
      Allocated g s s' b := by
  induction n generalizing i s with
  | zero =>
    obtain ⟨k, -, hk⟩ := hsome
    have := hmin k hk
    have := hk.1
    omega
  | succ n ih =>
    obtain ⟨p, s₁, hget, hbase, hc, hkept, hpins, hat⟩ := h.get hroom (show 2 ≤ i + 2 by omega) (by omega)
    have hview := view_of_kept hkept
    have hhand : s₁.blockHand = s.blockHand := by
      rw [hbase.blockHand_eq, h.blockHand_eq, hview]
    have hbuf : s₁.buf (some p) = s.view (i + 2) := by
      rw [buf_of_at hbase.ok hat, hview]
    rw [allocateLoop, reservedBlocks, hget]
    simp only [hbase.bsize_eq, hhand, hbuf, reduceDiv]
    generalize (if i = start then s.blockHand / 32 % 128 else 0) = first at hmin ⊢
    cases hfind : findWord (s.view (i + 2)) (128 - first) first with
    | some j =>
      obtain ⟨hlo, hhi, hne, hbefore⟩ := findWord_some hfind
      apply takeBit_spec h hkept hc hpins hat (by omega) (by omega) hne _ hsome
      intro k hk
      have hge := hmin k hk
      by_contra hlt
      have hblock : k / 4096 = i := by omega
      exact hk.word_ne hblock (hbefore (k / 32 % 128) (by omega) (by omega))
    | none =>
      have hzero := findWord_none hfind
      have hsaved := (hbase.quiet (i + 2) (by omega) (by omega)).2
      obtain ⟨s2, hrelease, hkept2, hpins2, -⟩ := release_spec hbase.ok hat (.inr hsaved)
      have hc2 := release_cached hrelease
      have hback : s2.cache.pins = s.cache.pins := by
        rw [hpins] at hpins2
        exact ((cons_inj_right _).mp hpins2).symm
      have hbase2 : Base g s2 := by
        apply hbase.of_kept hc2 hkept2
        rw [hback]
        exact h.super.pinned h.ok
      have hview2 := (view_of_kept hkept2).trans hview
      have hboth : s.cache.Kept ∅ s2.cache := by
        apply hkept.trans hkept2 _ h.ok
        intro k hk _
        rw [hpins]
        exact mem_cons_of_mem hk
      rw [hrelease]
      obtain ⟨b, s', hloop, hlt, hlowest, halloc⟩ := ih (i + 1) hbase2 (by rw [hback]; exact hroom)
        (by omega) (by omega) (by
          rw [hview2, if_neg (by omega)]
          intro k hk
          have hge := hmin k hk
          by_contra hlt
          have hblock : k / 4096 = i := by omega
          exact hk.word_ne hblock (hzero (k / 32 % 128) (by omega) (by omega))) (by
          rw [hview2]
          exact hsome)
      rw [hview2] at hlowest
      exact ⟨b, s', hloop, hlt, hlowest, halloc.after h hboth hback⟩

theorem tfsAllocateBlock_spec (h : Base g s) (hroom : card s.cache.pins < maxCache) :
    ((∀ k < g.size, ¬Free g s.view k) ∧ tfsAllocateBlock s = (0, s)) ∨
      ∃ b s', tfsAllocateBlock s = (b, s') ∧ b < g.size ∧ (∀ k, Free g s.view k → b ≤ k) ∧
        Allocated g s s' b := by
  rw [tfsAllocateBlock, h.freeBlocks_eq]
  by_cases hcount : freeCount g s.view = 0
  · left
    rw [if_pos hcount]
    refine ⟨?_, rfl⟩
    intro k hk hfree
    rw [freeCount, Finset.card_eq_zero] at hcount
    have hmem : k ∈ (Finset.range g.size).filter (Free g s.view) :=
      Finset.mem_filter.mpr ⟨Finset.mem_range.mpr hk, hfree⟩
    rw [hcount] at hmem
    exact Finset.notMem_empty k hmem
  · right
    rw [if_neg hcount]
    obtain ⟨f, hf⟩ := Finset.card_pos.mp (pos_of_ne_zero hcount)
    obtain ⟨hf, hfree⟩ := Finset.mem_filter.mp hf
    rw [Finset.mem_range] at hf
    have hhand := h.hand f hf hfree
    rw [← h.blockHand_eq] at hhand
    have hstart : (s.blockHand / 8) >>> 9 = s.blockHand / 4096 := by
      rw [Nat.shiftRight_eq_div_pow, Nat.div_div_eq_div_mul]
    simp only [h.bshift_eq, hstart, h.bitmapBlocks_eq]
    have hin := hfree.1
    apply allocateLoop_spec _ _ _ h hroom (by omega) (le_refl _) _ ⟨f, hf, hfree⟩
    intro k hk
    rw [if_pos rfl]
    -- no block below the hand is free, and the bits past the end are beyond it
    have hge : s.blockHand ≤ k := by
      by_cases hks : k < g.size
      · rw [h.blockHand_eq]
        exact h.hand k hks hk
      · omega
    omega

theorem invalidate_spec (h : s.cache.Ok) : s.cache.Kept {b} (s.invalidate b).cache ∧
      (s.invalidate b).cache.pins = s.cache.pins.filter (· ≠ b) := by
  rw [Vfs.invalidate, cacheInvalidate]
  cases hhash : s.cache.hash b with
  | none =>
    refine ⟨⟨h, fun _ _ hat _ => hat, fun _ ho => ho, fun _ _ => rfl, fun _ _ => rfl, fun _ _ hs => hs⟩, ?_⟩
    symm
    rw [filter_eq_self]
    rintro k hk rfl
    obtain ⟨i, hi, hkey⟩ := (Cache.mem_pins h).mp hk
    have hlocked := (h.locked i hi).1
    rw [hkey, hhash] at hlocked
    cases hlocked
  | some i =>
    obtain ⟨hkept, hpins, -⟩ := Cache.dispose_spec h hhash
    exact ⟨hkept, hpins⟩

structure Deallocated (g : Geometry) (s s' : Vfs) (b : ℕ) : Prop where
  base : Base g s'
  kept : s.cache.Kept {k | k < g.dblkno ∨ k = b} s'.cache
  pins : s'.cache.pins = s.cache.pins.filter (· ≠ b)
  free : ∀ k, Free g s'.view k ↔ Free g s.view k ∨ k = b

theorem deallocateSuper_spec (hok : s.cache.Ok) (hs : s.Super) (hb : b < 2 ^ 32) :
    let s₁ := s.poke s.tfs fun w => setWord w 15 ((word w 15 + 1) % 2 ^ 32)
    let s2 := if b < s₁.blockHand then s₁.poke s₁.tfs fun w => setWord w 16 b else s₁
    ∃ s' f, s2.modify s2.tfs = (true, s') ∧ Stored s s' f ∧ (∀ w j, j < 15 → word (f w) j = word w j) ∧
      (∀ w, word (f w) 15 = (word w 15 + 1) % 2 ^ 32) ∧
      word (f (s.view superBlockNo)) 16 = min b (word (s.view superBlockNo) 16) := by
  intro s₁ s2
  have hst1 : Stored s s₁ _ := Stored.poke hok hs _
  have hhand : s₁.blockHand = word (s.view superBlockNo) 16 := by
    rw [Vfs.blockHand, hst1.super.buf_tfs hst1.ok, hst1.view, Lib.Bytes.word_setWord_ne _ _ (by decide)]
  have hlt : ∀ w : Block, (word w 15 + 1) % 2 ^ 32 < 2 ^ 32 := fun w => mod_lt _ (by decide)
  by_cases hless : b < s₁.blockHand
  · have hs2 : s2 = s₁.poke s₁.tfs fun w => setWord w 16 b := if_pos hless
    have hst2 : Stored s₁ s2 _ := hs2 ▸ Stored.poke hst1.ok hst1.super _
    obtain ⟨s', hmodify, hst3⟩ := Stored.modify hst2.ok hst2.super
    refine ⟨s', _, hmodify, (hst1.trans hok hst2).trans hok hst3, ?_, ?_, ?_⟩
    · intro w j hj
      rw [id, Lib.Bytes.word_setWord_ne _ _ (by omega), Lib.Bytes.word_setWord_ne _ _ (by omega)]
    · intro w
      rw [id, Lib.Bytes.word_setWord_ne _ _ (by decide), Lib.Bytes.word_setWord_self _ _ (hlt w)]
    · rw [id, Lib.Bytes.word_setWord_self _ _ hb]
      omega
  · have hs2 : s2 = s₁ := if_neg hless
    rw [hs2]
    obtain ⟨s', hmodify, hst3⟩ := Stored.modify hst1.ok hst1.super
    refine ⟨s', _, hmodify, hst1.trans hok hst3, ?_, ?_, ?_⟩
    · intro w j hj
      rw [id, Lib.Bytes.word_setWord_ne _ _ (by omega)]
    · intro w
      rw [id, Lib.Bytes.word_setWord_self _ _ (hlt w)]
    · rw [id, Lib.Bytes.word_setWord_ne _ _ (by decide)]
      omega

theorem tfsDeallocateBlock_spec (h : Base g s)
    (hroom : card s.cache.pins < maxCache) (hlo : g.dblkno ≤ b) (hhi : b < g.size)
    (htaken : ¬Free g s.view b) : ∃ s', tfsDeallocateBlock s b = (none, s') ∧ Deallocated g s s' b := by
  have hin : b / 4096 + 2 < g.dblkno := by
    have := g.size_le
    omega
  have hsize := g.size_lt
  obtain ⟨p, s₁, hget, hbase1, hc1, hkept1, hpins1, hat⟩ :=
    h.get hroom (show 2 ≤ b / 4096 + 2 by omega) hin
  obtain ⟨s2, hrelease, hsuper2, hkept2, hpins2, hview2, hsview2, hsaved2⟩ :=
    store_release_spec h hkept1 hc1 hpins1 hat (by omega) fun w =>
      Function.update w (b / 8 % 512) (w (b / 8 % 512) ||| UInt8.ofNat (1 <<< (b % 8)))
  have hshift : (b / 8) >>> 9 = b / 4096 := by
    rw [Nat.shiftRight_eq_div_pow, Nat.div_div_eq_div_mul]
  have hbshift := hbase1.bshift_eq
  rw [tfsDeallocateBlock, h.dblkno_eq, if_neg (by omega), h.bshift_eq, hshift, reservedBlocks, hget]
  simp only [hbshift]
  have hpow : (2 : ℕ) ^ 9 = 512 := rfl
  rw [hpow, hrelease]
  -- the buffer of the block itself is dropped
  obtain ⟨hkept3, hpins3⟩ := invalidate_spec (b := b) hkept2.ok
  have hne : superBlockNo ≠ b := (ne_superBlockNo (by omega)).symm
  have hsuper3 : (s2.invalidate b).Super := by
    apply hsuper2.of_kept (invalidate_cached s2 b) hkept3
    rw [hpins3, hpins2, mem_filter]
    exact ⟨h.super.pinned h.ok, hne⟩
  obtain ⟨s', f, hmodify, hst, hlow, hfifteen, hsixteen⟩ :=
    deallocateSuper_spec hkept3.ok hsuper3 (show b < 2 ^ 32 by omega)
  simp only [hmodify]
  refine ⟨s', rfl, ?_⟩
  have hview : ∀ k, k ≠ superBlockNo → k ≠ b → s'.view k = s2.view k := by
    intro k hk hkb
    exact (hst.kept.view k hk).trans (hkept3.view k hkb)
  have hviewSuper : (s2.invalidate b).view superBlockNo = s.view superBlockNo :=
    (hkept3.view _ hne).trans hsview2
  have hsub : s'.cache.pins ⊆ (s2.invalidate b).cache.pins := by
    rw [hst.pins]
    exact Multiset.Subset.refl _
  have hkept : s.cache.Kept {k | k < g.dblkno ∨ k = b} s'.cache := by
    have hfirst := hkept2.next h.ok hkept3 (by
      rw [hpins3]
      exact filter_subset _ _)
    apply (hfirst.next h.ok hst.kept hsub).mono
    rintro k ((rfl | rfl) | rfl)
    · exact .inl hin
    · exact .inr rfl
    · left
      rw [superBlockNo]
      omega
  have hfree : ∀ k, Free g s'.view k ↔ Free g s.view k ∨ k = b := by
    apply free_of_set hin
    · rw [hview _ (ne_superBlockNo (by omega)) (by omega), hview2]
    · intro k hk hk' hkb
      rw [hview k (ne_superBlockNo hk) (by omega)]
      exact hkept2.view k hkb
  have hcount : freeCount g s.view + 1 = freeCount g s'.view := by
    apply freeCount_of_take ((hfree b).mpr (.inr rfl)) hhi
    intro k
    rw [hfree]
    constructor
    · intro hk
      refine ⟨.inl hk, ?_⟩
      rintro rfl
      exact htaken hk
    · rintro ⟨hk | hk, hne⟩
      · exact hk
      · exact absurd hk hne
  refine ⟨?_, hkept, ?_, hfree⟩
  · apply h.of_stored hkept hst.super
    · intro j hj
      rw [hst.view, hlow _ j hj, hviewSuper]
    · intro k hk hkfree
      rcases (hfree k).mp hkfree with hkfree | rfl
      · exact h.reserved k hk hkfree
      · omega
    · intro k hk hkin
      exact (hfree k).mpr (.inl (h.surplus k hk hkin))
    · have hle := freeCount_le g s.view
      rw [hst.view, hfifteen, hviewSuper, h.count]
      omega
    · intro k hk hkfree
      rw [hst.view, hsixteen, hviewSuper]
      rcases (hfree k).mp hkfree with hkfree | rfl
      · exact (min_le_right ..).trans (h.hand k hk hkfree)
      · exact min_le_left ..
    · intro k hlo' hhi'
      have hsaved := hkept3.saved k (show k ≠ b by omega) (hsaved2 k hlo' hhi')
      exact hst.kept.saved k (ne_superBlockNo hlo') hsaved
  · rw [hst.pins, hpins3, hpins2]

end Eotan.Fs
