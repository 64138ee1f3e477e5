import Mathlib.Order.Interval.Finset.Nat
import Eotan.Fs.Blocks
import Eotan.Fs.Vfs

namespace Eotan.Fs

open Lib.Bytes (Block word)
open Vfs Sequence
open List

structure Super where
  dblkno : ℕ
  bsize : ℕ
  bshift : ℕ
  size : ℕ

namespace Mkfs

def rootBlockNum : ℕ := 1

def calcSuperBlock (blockSize blockNum : ℕ) : Option Super :=
  let bshift := countNtz (BitVec.ofNat 32 blockSize)
  if 1 <<< bshift ≠ blockSize then none
  else
    let bitsPerBlock := blockSize * 8
    let bitmapBlockNum := (blockNum + bitsPerBlock - 1) / bitsPerBlock
    if blockNum < reservedBlocks + bitmapBlockNum + rootBlockNum then none
    else some ⟨1 + 1 + bitmapBlockNum, blockSize, bshift, blockNum⟩

def superWords (super : Super) : List ℕ :=
  [1, super.dblkno, super.bsize, 1 <<< super.bshift - 1, super.bshift, 1, super.size, 0,
    super.size - super.dblkno, 0, 1 <<< (super.bshift * 3 - 4), 0, 1 <<< super.bshift - 1, 0, magic,
    super.size - super.dblkno - rootBlockNum, super.dblkno + rootBlockNum]

def superBlock (super : Super) : Block := Lib.Bytes.ofWords (superWords super)

def edge (bsize edgeBit : ℕ) : Block := fun i =>
  if i < edgeBit / 8 % bsize then 0
  else if i = edgeBit / 8 % bsize then ~~~(UInt8.ofNat (1 <<< (edgeBit % 8)) - 1)
  else 0xff

def fillBitmap (max : ℕ) (b : Block) : ℕ → ℕ → List Block
  | 0, _ => []
  | n + 1, i => if i + 1 < max then b :: fillBitmap max b n (i + 1) else []

/-- `write_bitmap`. When the first loop is left, `i` is one more than the blocks it has written. -/
def bitmap (super : Super) : List Block :=
  let edgeBit := super.dblkno + rootBlockNum
  let edgeBlock := edgeBit / 8 / super.bsize
  let max := super.dblkno - 1 - 1
  List.replicate edgeBlock Lib.Bytes.zero ++ edge super.bsize edgeBit ::
    fillBitmap max (fun _ => 0xff) max (edgeBlock + 1)

def rootInode (super : Super) (now : ℕ) : Block :=
  Lib.Bytes.ofWords [0o040755, super.dblkno, 0, 0, now, 0, 0, now, 0, 0, now, 0, 0, 0, 0]

def mkfs (blockSize blockNum now : ℕ) : Option (List Block) :=
  if blockSize < 512 ∨ blockNum = 0 then none
  else
    match calcSuperBlock blockSize blockNum with
    | none => none
    | some super =>
      some (Lib.Bytes.zero :: superBlock super :: (bitmap super ++ [rootInode super now]))

end Mkfs

open Mkfs

theorem cacheInitialize_ok (disk : ℕ → Block) : (cacheInitialize disk []).Ok := by
  have hused : ∀ i, ¬(cacheInitialize disk []).Used i := by
    rintro i (hi | hi)
    · exact not_mem_nil hi
    · exact not_mem_nil hi
  refine ⟨?_, ?_, ?_, ?_, ?_, ?_, rfl⟩
  · simp only [cacheInitialize, append_nil]
    exact nodup_range
  · intro i
    simp only [cacheInitialize, append_nil]
    exact mem_range
  · intro i _ hi
    exact absurd hi (hused i)
  · intro k i hk
    cases hk
  · intro i hi
    exact absurd (.inl hi) (hused i)
  · intro i hi
    exact absurd (.inr hi) (hused i)

theorem Base.of_cache {g : Geometry} {s s' : Vfs} (h : Base g s) (hcache : s'.cache = s.cache)
    (htfs : s'.tfs = s.tfs) : Base g s' := by
  have hview : s'.view = s.view := by
    funext k
    rw [Vfs.view, hcache]
    rfl
  refine ⟨hview ▸ h.toLayout, hcache ▸ h.ok, ?_, hcache ▸ h.quiet⟩
  obtain ⟨p, hp, hat⟩ := h.super
  exact ⟨p, htfs.trans hp, hcache ▸ hat⟩

theorem vfsMount_base {g : Geometry} {disk : ℕ → Block} (h : Layout g disk) (clock : Clock) (stack : ℕ → UInt8) :
    ∃ s, vfsMount (fsInitialize disk [] clock stack) = (none, s) ∧ Base g s ∧ s.view = disk ∧
      Multiset.card s.cache.pins = 2 := by
  obtain ⟨v, spare, hspare⟩ : ∃ v spare, range slabVnodes = v :: spare := exists_cons_of_ne_nil (by decide)
  let s0 : Vfs := { fsInitialize disk [] clock stack with
    spare := spare
    vnodes := Function.update (fun _ => none) v (some (newVnode none)) }
  have hcreate : vnodesCreate (fsInitialize disk [] clock stack) none = (some v, s0) := by
    simp only [vnodesCreate, fsInitialize, hspare]
    rfl
  have hok : s0.cache.Ok := cacheInitialize_ok disk
  have hused : ∀ i, ¬s0.cache.Used i := by
    rintro i (hi | hi)
    · exact not_mem_nil hi
    · exact not_mem_nil hi
  have hempty : s0.cache.pins = 0 := rfl
  have hview0 : s0.view = disk := by
    funext k
    change s0.cache.view k = s0.cache.disk k
    exact Cache.view_of_unused fun i hi => absurd hi (hused i)
  have horphan : ∀ k, ¬s0.cache.Orphan k := by
    rintro k ⟨-, i, hi, -⟩
    exact hused i (.inr hi)
  obtain ⟨p, s1, hget1, hkept1, hpins1, hat1⟩ := get_spec hok (horphan superBlockNo) (by rw [hempty]; decide)
  have hview1 : s1.view = disk := (view_of_kept hkept1).trans hview0
  have hbuf1 : s1.buf (some p) = disk superBlockNo := by
    rw [buf_of_at hkept1.ok hat1, hview1]
  let s2 : Vfs := { s1 with tfs := some p }
  have hbase2 : Base g s2 := by
    have hview2 : s2.view = disk := hview1
    refine ⟨hview2 ▸ h, hkept1.ok, ⟨p, rfl, hat1⟩, ?_⟩
    intro k _ _
    refine ⟨fun ho => horphan k (hkept1.orphan k ho), hkept1.saved k (Set.notMem_empty k) ?_⟩
    intro i hi
    exact absurd hi (hused i)
  obtain ⟨q, s3, hget3, hkept3, hpins3, hat3⟩ := get_spec (k := g.dblkno) hbase2.ok
    (fun ho => horphan _ (hkept1.orphan _ ho)) (by
      change Multiset.card s1.cache.pins < maxCache
      rw [hpins1, hempty]
      decide)
  have hc3 := get_cached hget3
  have hbase3 : Base g s3 := by
    apply hbase2.of_kept hc3 hkept3
    rw [hpins3]
    exact Multiset.mem_cons_of_mem (hbase2.super.pinned hbase2.ok)
  have hvnode : s3.vnodes v = some (newVnode none) := by
    have hvnodes3 : s3.vnodes = s1.vnodes := by rw [hc3.eq]
    have hvnodes1 : s1.vnodes = s0.vnodes := by rw [(get_cached hget1).eq]
    rw [hvnodes3, hvnodes1]
    exact Function.update_self v (some (newVnode none)) fun _ => none
  have hmount : ∃ s4 : Vfs, tfsMount s0 v = (none, s4) ∧ s4.cache = s3.cache ∧ s4.tfs = s3.tfs := by
    rw [tfsMount, hget1]
    simp only [hbuf1, h.magic, h.bsize, ne_eq, not_true_eq_false, or_self, if_false]
    rw [show Vfs.dblkno { s1 with tfs := some p } = g.dblkno from hbase2.dblkno_eq, tfsOpen, hget3]
    simp only [hvnode]
    exact ⟨_, rfl, rfl, rfl⟩
  obtain ⟨s4, hmount, hcache4, htfs4⟩ := hmount
  refine ⟨vnodesAppend { s4 with root := some v } v, ?_, hbase3.of_cache hcache4 htfs4, ?_, ?_⟩
  · have hlist : { s0 with list := [] } = s0 := rfl
    rw [vfsMount, hcreate]
    simp only [hlist, hmount]
  · rw [← hview1]
    funext k
    change s4.cache.view k = s1.view k
    rw [hcache4]
    exact hkept3.view k (Set.notMem_empty k)
  · change Multiset.card s4.cache.pins = 2
    rw [hcache4, hpins3]
    change Multiset.card (g.dblkno ::ₘ s1.cache.pins) = 2
    rw [hpins1, hempty]
    rfl

def onDevice (image : List Block) (k : ℕ) : Block := image.getD k Lib.Bytes.zero

def smallGeometry (n : ℕ) (h : n ≤ 4096) : Geometry where
  dblkno := 3
  size := n
  three_le := Nat.le_refl 3
  size_le := h
  size_lt := Nat.lt_of_le_of_lt h (by decide)

theorem testBit_edge {bsize edgeBit : ℕ} (hedge : edgeBit / 8 < bsize) (b : ℕ) :
    (edge bsize edgeBit (b / 8)).toNat.testBit (b % 8) = true ↔ edgeBit ≤ b := by
  have hbyte : ∀ e < 8, ∀ i < 8, (~~~(UInt8.ofNat (1 <<< e) - 1)).toNat.testBit i = true ↔ e ≤ i := by decide
  have hfull : ∀ i < 8, (0xff : UInt8).toNat.testBit i = true := by decide
  rw [edge, Nat.mod_eq_of_lt hedge]
  split
  · simp only [UInt8.toNat_zero, Nat.zero_testBit, Bool.false_eq_true, false_iff]
    omega
  split
  · rw [hbyte _ (Nat.mod_lt _ (by decide)) _ (Nat.mod_lt _ (by decide))]
    omega
  · rw [hfull _ (Nat.mod_lt _ (by decide))]
    simp only [true_iff]
    omega

theorem free_edge {n : ℕ} (hn : n ≤ 4096) {d : ℕ → Block} (hd : d 2 = edge 512 4) (k : ℕ) :
    Free (smallGeometry n hn) d k ↔ 4 ≤ k ∧ k < 4096 := by
  have hblock : k / 4096 + 2 < (smallGeometry n hn).dblkno ↔ k < 4096 := by
    change k / 4096 + 2 < 3 ↔ k < 4096
    omega
  rw [Free, hblock, and_comm]
  apply and_congr_left
  intro hk
  have hzero : k / 4096 = 0 := by omega
  have hbyte : k / 8 < 512 := by omega
  rw [freeBit, hzero, hd, Nat.mod_eq_of_lt hbyte]
  exact testBit_edge (by decide) k

theorem word_superBlock {super : Super} {j v : ℕ} (hv : (superWords super).getD j 0 = v)
    (hlt : v < 2 ^ 32) : word (superBlock super) j = v := by
  rw [superBlock, Lib.Bytes.word_ofWords _ j (hv ▸ hlt), hv]

theorem calcSuperBlock_small {n : ℕ} (hlo : 4 ≤ n) (hhi : n ≤ 4096) :
    calcSuperBlock 512 n = some ⟨3, 512, 9, n⟩ := by
  have hshift : countNtz (BitVec.ofNat 32 512) = 9 := by decide
  have hone : (n + 512 * 8 - 1) / (512 * 8) = 1 := by omega
  simp only [calcSuperBlock, hshift, hone, reservedBlocks, rootBlockNum]
  rw [if_neg (by decide), if_neg (by omega)]

theorem mkfs_layout (n now : ℕ) (hlo : 4 ≤ n) (hhi : n ≤ 4096) :
    ∃ image, mkfs 512 n now = some image ∧ Layout (smallGeometry n hhi) (onDevice image) ∧
      ¬Free (smallGeometry n hhi) (onDevice image) 3 := by
  obtain ⟨super, hsuper⟩ : ∃ super : Super, super = ⟨3, 512, 9, n⟩ := ⟨_, rfl⟩
  have hmap : bitmap super = [edge 512 4] := by
    rw [hsuper]
    simp [bitmap, rootBlockNum, fillBitmap]
  refine ⟨Lib.Bytes.zero :: superBlock super :: (bitmap super ++ [rootInode super now]), ?_, ?_⟩
  · rw [mkfs, if_neg (by omega), calcSuperBlock_small hlo hhi, hsuper]
  · obtain ⟨d, hd⟩ : ∃ d, d = onDevice (Lib.Bytes.zero :: superBlock super ::
        (bitmap super ++ [rootInode super now])) := ⟨_, rfl⟩
    have htwo : d 2 = edge 512 4 := by
      rw [hd, hmap]
      rfl
    have hone : d superBlockNo = superBlock super := by
      rw [hd]
      rfl
    have hfree := free_edge hhi htwo
    have hword : ∀ j v, (superWords super).getD j 0 = v → v < 2 ^ 32 → word (d superBlockNo) j = v := by
      intro j v hv hlt
      rw [hone, word_superBlock hv hlt]
    rw [← hd]
    refine ⟨⟨?_, ?_, ?_, ?_, ?_, ?_, ?_, ?_, ?_, ?_⟩, ?_⟩
    · exact hword 0 1 (by rw [hsuper]; rfl) (by decide)
    · exact hword 1 3 (by rw [hsuper]; rfl) (by decide)
    · exact hword 2 512 (by rw [hsuper]; rfl) (by decide)
    · exact hword 4 9 (by rw [hsuper]; rfl) (by decide)
    · exact hword 5 1 (by rw [hsuper]; rfl) (by decide)
    · exact hword 14 magic (by rw [hsuper]; rfl) (by decide)
    · intro k hk
      rw [hfree]
      change k < 3 at hk
      omega
    · intro k hk hin
      rw [hfree]
      change n ≤ k at hk
      change k / 4096 + 2 < 3 at hin
      omega
    · rw [hword 15 (n - 3 - 1) (by rw [hsuper]; rfl) (by omega), freeCount]
      have hset : (Finset.range n).filter (Free (smallGeometry n hhi) d) = Finset.Ico 4 n := by
        ext k
        rw [Finset.mem_filter, hfree, Finset.mem_range, Finset.mem_Ico]
        omega
      change n - 3 - 1 = ((Finset.range n).filter (Free (smallGeometry n hhi) d)).card
      rw [hset, Nat.card_Ico]
      omega
    · intro k _ hk
      rw [hfree] at hk
      rw [hword 16 4 (by rw [hsuper]; rfl) (by decide)]
      exact hk.1
    · rw [hfree]
      omega

def markedFree (bsize : ℕ) (image : List Block) (b : ℕ) : Bool :=
  (onDevice image (2 + b / (bsize * 8)) (b / 8 % bsize)).toNat.testBit (b % 8)

theorem calcSuperBlock_one {blockSize blockNum : ℕ} {super : Super}
    (h : calcSuperBlock blockSize blockNum = some super) (hpos : 0 < blockNum)
    (hone : blockNum ≤ blockSize * 8) :
    super.dblkno = 3 ∧ super.bsize = blockSize ∧ super.size = blockNum ∧ 4 ≤ blockNum := by
  have hblocks : (blockNum + blockSize * 8 - 1) / (blockSize * 8) = 1 := by
    apply Nat.div_eq_of_lt_le <;> omega
  unfold calcSuperBlock at h
  simp only [hblocks, reservedBlocks, rootBlockNum] at h
  split at h
  · cases h
  split at h
  · cases h
  cases h
  exact ⟨rfl, rfl, rfl, by omega⟩

inductive BlockOp where
  | allocate
  | deallocate (b : ℕ)
  deriving DecidableEq

def blockStep (s : Vfs) : BlockOp → Vfs
  | .allocate => (tfsAllocateBlock s).2
  | .deallocate b => (tfsDeallocateBlock s b).2

def Sensible (g : Geometry) (s : Vfs) : BlockOp → Prop
  | .allocate => True
  | .deallocate b => g.dblkno ≤ b ∧ b < g.size ∧ ¬Free g s.view b

def SensibleRun (g : Geometry) : Vfs → List BlockOp → Prop
  | _, [] => True
  | s, op :: ops => Sensible g s op ∧ SensibleRun g (blockStep s op) ops

instance decidableSensible (g : Geometry) (s : Vfs) : (op : BlockOp) → Decidable (Sensible g s op)
  | .allocate => inferInstanceAs (Decidable True)
  | .deallocate _ => inferInstanceAs (Decidable (_ ∧ _ ∧ ¬Free _ _ _))

instance decidableSensibleRun (g : Geometry) :
    (s : Vfs) → (ops : List BlockOp) → Decidable (SensibleRun g s ops)
  | _, [] => inferInstanceAs (Decidable True)
  | s, op :: ops =>
    have := decidableSensibleRun g (blockStep s op) ops
    inferInstanceAs (Decidable (Sensible g s op ∧ SensibleRun g (blockStep s op) ops))

section runs

variable {g : Geometry} {s : Vfs}

theorem blockStep_base (h : Base g s) (hroom : Multiset.card s.cache.pins < maxCache) (op : BlockOp)
    (hop : Sensible g s op) : Base g (blockStep s op) ∧ Multiset.card (blockStep s op).cache.pins < maxCache ∧
      ∀ k, Free g (blockStep s op).view k → Free g s.view k ∨ op = .deallocate k := by
  cases op with
  | allocate =>
    rcases tfsAllocateBlock_spec h hroom with ⟨-, heq⟩ | ⟨b, s', heq, -, -, halloc⟩
    · rw [blockStep, heq]
      exact ⟨h, hroom, fun k hk => .inl hk⟩
    rw [blockStep, heq]
    refine ⟨halloc.base, ?_, ?_⟩
    · rw [halloc.pins]
      exact hroom
    · intro k hk
      exact .inl ((halloc.free k).mp hk).1
  | deallocate b =>
    obtain ⟨s', heq, hde⟩ := tfsDeallocateBlock_spec h hroom hop.1 hop.2.1 hop.2.2
    rw [blockStep, heq]
    refine ⟨hde.base, ?_, ?_⟩
    · rw [hde.pins]
      exact Nat.lt_of_le_of_lt (Multiset.card_le_card (Multiset.filter_le _ _)) hroom
    · intro k hk
      rcases (hde.free k).mp hk with hk | rfl
      · exact .inl hk
      · exact .inr rfl

theorem blockRun_base (h : Base g s) (hroom : Multiset.card s.cache.pins < maxCache)
    (ops : List BlockOp) (hops : SensibleRun g s ops) :
    Base g (ops.foldl blockStep s) ∧ Multiset.card (ops.foldl blockStep s).cache.pins < maxCache ∧
      ∀ k, Free g (ops.foldl blockStep s).view k → Free g s.view k ∨ .deallocate k ∈ ops := by
  induction ops generalizing s with
  | nil => exact ⟨h, hroom, fun k hk => .inl hk⟩
  | cons op ops ih =>
    obtain ⟨hbase, hroom', hfree⟩ := blockStep_base h hroom op hops.1
    obtain ⟨hend, hroomEnd, hfreeEnd⟩ := ih hbase hroom' hops.2
    refine ⟨hend, hroomEnd, ?_⟩
    intro k hk
    rcases hfreeEnd k hk with hk | hk
    · rcases hfree k hk with hk | rfl
      · exact .inl hk
      · exact .inr mem_cons_self
    · exact .inr (mem_cons_of_mem op hk)

end runs

/-- After any run an allocation takes the lowest free block, which exists and holds data. -/
theorem block_run {g : Geometry} {s : Vfs} (h : Base g s)
    (hroom : Multiset.card s.cache.pins < maxCache) (hroot : ¬Free g s.view g.dblkno)
    (ops : List BlockOp) (hops : SensibleRun g s ops) : let s' := ops.foldl blockStep s
    let b := (tfsAllocateBlock s').1
    Base g s' ∧ (b = 0 ↔ ∀ k < g.size, ¬Free g s'.view k) ∧
      (b ≠ 0 → Free g s'.view b ∧ (∀ k, Free g s'.view k → b ≤ k) ∧ g.dblkno ≤ b ∧ b < g.size ∧
        (.deallocate g.dblkno ∉ ops → g.dblkno < b)) := by
  intro s' b
  obtain ⟨hbase, hroom', hfree⟩ := blockRun_base h hroom ops hops
  refine ⟨hbase, ?_⟩
  rcases tfsAllocateBlock_spec hbase hroom' with ⟨hnone, heq⟩ | ⟨c, s1, heq, hlt, hmin, halloc⟩
  · have hb : b = 0 := congrArg Prod.fst heq
    exact ⟨⟨fun _ => hnone, fun _ => hb⟩, fun hne => absurd hb hne⟩
  have hb : b = c := congrArg Prod.fst heq
  rw [hb]
  have hge : g.dblkno ≤ c := by
    by_contra hlow
    exact hbase.reserved c (by omega) halloc.was
  have hthree := g.three_le
  constructor
  · constructor
    · intro hzero
      omega
    · intro hnone
      exact absurd halloc.was (hnone c hlt)
  · intro _
    refine ⟨halloc.was, hmin, hge, hlt, ?_⟩
    intro hnot
    apply Nat.lt_of_le_of_ne hge
    rintro rfl
    rcases hfree _ halloc.was with hk | hk
    · exact hroot hk
    · exact hnot hk

def tiny : Geometry := smallGeometry 8 (by decide)

def tinyVfs : Vfs :=
  (vfsMount (fsInitialize (onDevice ((mkfs 512 8 0).getD [])) [] ⟨0, 0, 0⟩ fun _ => 0)).2

theorem tinyVfs_base : Base tiny tinyVfs ∧ Multiset.card tinyVfs.cache.pins < maxCache ∧
    ¬Free tiny tinyVfs.view 3 := by
  obtain ⟨image, himage, hlayout, hroot⟩ := mkfs_layout 8 0 (by decide) (by decide)
  obtain ⟨s, hmount, hbase, hview, hpins⟩ := vfsMount_base hlayout ⟨0, 0, 0⟩ fun _ => 0
  have hs : tinyVfs = s := by
    rw [tinyVfs, himage]
    exact congrArg Prod.snd hmount
  rw [hs, hpins, hview]
  exact ⟨hbase, by decide, hroot⟩

theorem block_run_tiny :
    let s := [.allocate, .allocate, .deallocate 4, .allocate, .allocate].foldl blockStep tinyVfs
    Base tiny s ∧ (tfsAllocateBlock s).1 = 7 := by
  obtain ⟨hbase, hroom, hroot⟩ := tinyVfs_base
  have hrun := block_run hbase hroom hroot
    [.allocate, .allocate, .deallocate 4, .allocate, .allocate] (by decide +kernel)
  exact ⟨hrun.1, by decide +kernel⟩

theorem root_block_reallocated :
    Base tiny tinyVfs ∧ SensibleRun tiny tinyVfs [.deallocate tiny.dblkno] ∧
      (tfsAllocateBlock (blockStep tinyVfs (.deallocate tiny.dblkno))).1 = tiny.dblkno :=
  ⟨tinyVfs_base.1, by decide +kernel, by decide +kernel⟩

end Eotan.Fs
