import Eotan.Mpu.PagingRange

namespace Eotan.Kernel

open Lib.Bytes (setWord)
open Mpu (Memory kernP2v kernV2p pageSize)
open Sequence (countNtz countNtz_spec countNtz_min getLsbD_one_shiftLeft)
open Function
open List

def maxPagesLimit : ℕ := 1024 * 1024 / 2

structure MemoryMap where
  restPages : ℕ
  clockBlock : ℕ
  numBlocks : ℕ
  maxPages : ℕ
  map : ℕ → BitVec 32
  mem : Memory

namespace MemoryMap

def pzero (m : Memory) (p : ℕ) : Memory :=
  (List.range (pageSize / 4)).foldl (fun m i => setWord m (p / 4 + i) 0) m

def takePage (s : MemoryMap) (i : ℕ) : ℕ × MemoryMap :=
  let bit := countNtz (s.map i)
  let word := s.map i &&& ~~~(1#32 <<< bit)
  let addr := kernP2v ((i * 32 + bit) * pageSize)
  (addr, { s with
    map := Function.update s.map i word
    clockBlock := if word ≠ 0#32 then i else i + 1
    restPages := s.restPages - 1
    mem := pzero s.mem addr })

def palloc (s : MemoryMap) : Option ℕ × MemoryMap :=
  if s.restPages ≠ 0 then
    match (List.range' s.clockBlock (s.numBlocks - s.clockBlock)).find? (s.map · ≠ 0#32) with
    | none => (none, s)
    | some i =>
      match s.takePage i with
      | (addr, s) => (some addr, s)
  else (none, s)

def pfree (s : MemoryMap) (addr : ℕ) : MemoryMap :=
  let n := kernV2p addr / pageSize
  let i := n / 32
  if i ≥ s.numBlocks then s
  else
    let bit := 1#32 <<< (n % 32)
    if s.map i &&& bit ≠ 0#32 then s
    else { s with
      map := Function.update s.map i (s.map i ||| bit)
      clockBlock := if i < s.clockBlock then i else s.clockBlock
      restPages := s.restPages + 1 }

def Free (s : MemoryMap) (n : ℕ) : Prop :=
  n / 32 < s.numBlocks ∧ (s.map (n / 32)).getLsbD (n % 32) = true

instance (s : MemoryMap) (n : ℕ) : Decidable (s.Free n) := inferInstanceAs (Decidable (_ ∧ _))

structure Sized (s : MemoryMap) : Prop where
  blocks : s.numBlocks = (s.maxPages + 31) / 32
  limit : s.maxPages ≤ maxPagesLimit

structure Ok (s : MemoryMap) : Prop where
  rest : s.restPages = ((Finset.range (32 * s.numBlocks)).filter s.Free).card
  bound : ∀ n, s.Free n → n < s.maxPages
  clock : ∀ n, s.Free n → s.clockBlock ≤ n / 32

variable {s s' : MemoryMap} {n addr : ℕ}

theorem Sized.congr (h : s.Sized) (hb : s'.numBlocks = s.numBlocks) (hp : s'.maxPages = s.maxPages) :
    s'.Sized := by
  constructor
  · rw [hb, hp, h.blocks]
  · rw [hp]
    exact h.limit

theorem free_mem (h : s.Free n) : n ∈ (Finset.range (32 * s.numBlocks)).filter s.Free := by
  have hblock := h.1
  rw [Finset.mem_filter, Finset.mem_range]
  exact ⟨by omega, h⟩

theorem Ok.rest_eq_zero (h : s.Ok) : s.restPages = 0 ↔ ∀ n, ¬s.Free n := by
  rw [h.rest, Finset.card_eq_zero]
  constructor
  · intro hempty n hn
    have hmem := free_mem hn
    rw [hempty] at hmem
    exact absurd hmem (Finset.notMem_empty n)
  · intro hno
    apply Finset.filter_eq_empty_iff.mpr
    intro n _
    exact hno n

theorem setWord_foldl (m : Memory) (j k a : ℕ) : (range k).foldl (fun m i => setWord m (j + i) 0) m a =
      if j ≤ a / 4 ∧ a / 4 < j + k then 0 else m a := by
  induction k with
  | zero =>
    rw [if_neg (by omega)]
    rfl
  | succ k ih =>
    rw [range_succ, foldl_append, foldl_cons, foldl_nil]
    generalize (range k).foldl (fun m i => setWord m (j + i) 0) m = m' at ih ⊢
    by_cases hword : a / 4 = j + k
    · rw [setWord, if_pos hword, if_pos (by omega), Nat.zero_div]
      rfl
    · rw [Lib.Bytes.setWord_of_ne hword, ih]
      by_cases hin : j ≤ a / 4 ∧ a / 4 < j + k
      · rw [if_pos hin, if_pos (by omega)]
      · rw [if_neg hin, if_neg (by omega)]

theorem pzero_apply (m : Memory) {p : ℕ} (hp : p % pageSize = 0) (a : ℕ) :
    pzero m p a = if p ≤ a ∧ a < p + pageSize then 0 else m a := by
  have hiff : p / 4 ≤ a / 4 ∧ a / 4 < p / 4 + pageSize / 4 ↔ p ≤ a ∧ a < p + pageSize := by
    simp only [pageSize] at hp ⊢
    omega
  unfold pzero
  rw [setWord_foldl]
  simp only [hiff]

structure Takes (s s' : MemoryMap) (n addr : ℕ) : Prop where
  free : s.Free n
  least : ∀ m < n, ¬s.Free m
  left : ∀ m, s'.Free m ↔ s.Free m ∧ m ≠ n
  address : addr = kernP2v (n * pageSize)
  mem : s'.mem = pzero s.mem addr
  rest : s'.restPages = s.restPages - 1
  blocks : s'.numBlocks = s.numBlocks
  pages : s'.maxPages = s.maxPages
  clock : ∀ m, s'.Free m → s'.clockBlock ≤ m / 32

theorem takePage_takes {i : ℕ} (hi : i < s.numBlocks) (hword : s.map i ≠ 0#32)
    (hbefore : ∀ n, s.Free n → i ≤ n / 32) (h : s.takePage i = (addr, s')) :
    s.Takes s' (i * 32 + countNtz (s.map i)) addr := by
  obtain ⟨hlt, hbit⟩ := countNtz_spec hword
  have hmin : ∀ j < countNtz (s.map i), (s.map i).getLsbD j = false := fun j hj => countNtz_min hj
  unfold takePage at h
  generalize countNtz (s.map i) = bit at hlt hbit hmin h ⊢
  obtain ⟨rfl, rfl⟩ := Prod.mk.inj h
  have hdiv : (i * 32 + bit) / 32 = i := by omega
  have hmod : (i * 32 + bit) % 32 = bit := by omega
  have hleft : ∀ m, MemoryMap.Free { s with
      map := update s.map i (s.map i &&& ~~~(1#32 <<< bit))
      clockBlock := if s.map i &&& ~~~(1#32 <<< bit) ≠ 0#32 then i else i + 1
      restPages := s.restPages - 1
      mem := pzero s.mem (kernP2v ((i * 32 + bit) * pageSize)) } m ↔
      s.Free m ∧ m ≠ i * 32 + bit := by
    intro m
    have hm : m % 32 < 32 := Nat.mod_lt m (by decide)
    simp only [MemoryMap.Free, update_apply]
    by_cases hblock : m / 32 = i
    · have hiff : m % 32 = bit ↔ m = i * 32 + bit := by omega
      rw [if_pos hblock, BitVec.getLsbD_and, BitVec.getLsbD_not, getLsbD_one_shiftLeft hm,
        decide_eq_true hm, ne_eq, ← hiff, hblock]
      simp [and_assoc]
    · have hne : m ≠ i * 32 + bit := by omega
      simp [hblock, hne]
  refine ⟨⟨by omega, by rw [hdiv, hmod]; exact hbit⟩, ?_, hleft, rfl, by with_reducible rfl, rfl, rfl, rfl, ?_⟩
  · intro m hm hfree
    have hle := hbefore m hfree
    have heq : m / 32 = i := by omega
    have hfalse := hmin (m % 32) (by omega)
    have htrue := hfree.2
    rw [heq, hfalse] at htrue
    cases htrue
  · intro m hm
    have hfree := ((hleft m).mp hm).1
    have hle := hbefore m hfree
    dsimp only
    split_ifs with hrest
    · exact hle
    -- the block has no other free page
    by_contra hlt'
    have heq : m / 32 = i := by omega
    have hbit' := hm.2
    simp only [update_apply, heq, if_true] at hbit'
    rw [not_not.mp hrest] at hbit'
    simp at hbit'

theorem Ok.takes (h : s.Ok) (htakes : s.Takes s' n addr) : s'.Ok := by
  refine ⟨?_, ?_, htakes.clock⟩
  · have hset : (Finset.range (32 * s'.numBlocks)).filter s'.Free =
        ((Finset.range (32 * s.numBlocks)).filter s.Free).erase n := by
      ext m
      simp only [Finset.mem_filter, Finset.mem_erase, htakes.left, htakes.blocks]
      tauto
    rw [htakes.rest, h.rest, hset, Finset.card_erase_of_mem (free_mem htakes.free)]
  · intro m hm
    rw [htakes.pages]
    exact h.bound m ((htakes.left m).mp hm).1

theorem palloc_some (h : s.Ok) (halloc : s.palloc = (some addr, s')) : ∃ n, s.Takes s' n addr := by
  unfold palloc at halloc
  split_ifs at halloc with hrest
  · split at halloc
    · cases halloc
    next i hfind =>
    have hword := find?_some hfind
    have hmem := mem_of_find?_eq_some hfind
    rw [decide_eq_true_eq] at hword
    rw [mem_range'_1] at hmem
    have hbefore : ∀ n, s.Free n → i ≤ n / 32 := by
      intro n hn
      by_contra hlt
      have hclock := h.clock n hn
      have hnone := (find?_eq_some_iff_append.mp hfind).2
      obtain ⟨as, bs, hsplit, hzero⟩ := hnone
      have hin : n / 32 ∈ range' s.clockBlock (s.numBlocks - s.clockBlock) := by
        rw [mem_range'_1]
        omega
      have hpair : (range' s.clockBlock (s.numBlocks - s.clockBlock)).Pairwise (· < ·) := pairwise_lt_range'
      rw [hsplit] at hin hpair
      rcases mem_append.mp hin with has | hbs
      · have hz := hzero _ has
        simp only [ne_eq, decide_not, Bool.not_not, decide_eq_true_eq] at hz
        have hbit := hn.2
        rw [hz] at hbit
        simp at hbit
      · rcases mem_cons.mp hbs with heq | hbs
        · omega
        · have hlt' := (pairwise_cons.mp (pairwise_append.mp hpair).2.1).1 _ hbs
          omega
    rcases htake : s.takePage i with ⟨a, t⟩
    rw [htake] at halloc
    cases halloc
    exact ⟨_, takePage_takes (by omega) hword hbefore htake⟩
  · cases halloc

theorem palloc_none (h : s.Ok) (halloc : s.palloc.1 = none) : (∀ n, ¬s.Free n) ∧ s.palloc.2 = s := by
  unfold palloc at halloc ⊢
  split_ifs at halloc ⊢ with hrest
  · split at halloc
    · next hfind =>
      refine ⟨?_, rfl⟩
      intro n hn
      have hclock := h.clock n hn
      have hblock := hn.1
      have hzero := find?_eq_none.mp hfind (n / 32) (by rw [mem_range'_1]; omega)
      simp only [ne_eq, decide_not, Bool.not_eq_true, Bool.not_eq_false', decide_eq_true_eq] at hzero
      have hbit := hn.2
      rw [hzero] at hbit
      simp at hbit
    · cases halloc
  · exact ⟨h.rest_eq_zero.mp (not_not.mp hrest), rfl⟩

def IsAddress (addr n : ℕ) : Prop := addr = n * pageSize ∨ addr = kernP2v (n * pageSize)

theorem IsAddress.page (h : IsAddress addr n) (hn : n < maxPagesLimit) : kernV2p addr / pageSize = n := by
  have hlt : n * pageSize < 2 ^ 31 := by
    simp only [maxPagesLimit, pageSize] at *
    omega
  have hor : kernP2v (n * pageSize) = n * pageSize + 2 ^ 31 := by
    have h := Nat.two_pow_add_eq_or_of_lt hlt 1
    rw [Nat.or_comm, Nat.mul_one] at h
    rw [kernP2v, Nat.add_comm]
    exact h.symm
  unfold kernV2p
  rcases h with rfl | rfl
  · simp only [Mpu.supervisorStart, pageSize] at *
    omega
  · rw [hor]
    simp only [Mpu.supervisorStart, pageSize] at *
    omega

theorem and_bit (s : MemoryMap) (n : ℕ) :
    s.map (n / 32) &&& 1#32 <<< (n % 32) ≠ 0#32 ↔ (s.map (n / 32)).getLsbD (n % 32) = true := by
  have hlt : n % 32 < 32 := Nat.mod_lt n (by decide)
  constructor
  · intro hne
    by_contra hbit
    apply hne
    apply BitVec.eq_of_getLsbD_eq
    intro j hj
    rw [BitVec.getLsbD_and, getLsbD_one_shiftLeft hj, BitVec.getLsbD_zero]
    by_cases heq : j = n % 32
    · rw [heq, Bool.eq_false_of_not_eq_true hbit, Bool.false_and]
    · rw [decide_eq_false heq, Bool.and_false]
  · intro hbit hzero
    have hj := congrArg (BitVec.getLsbD · (n % 32)) hzero
    simp only [BitVec.getLsbD_and, getLsbD_one_shiftLeft hlt, hbit] at hj
    simp at hj

theorem pfree_size (s : MemoryMap) (addr : ℕ) :
    (s.pfree addr).numBlocks = s.numBlocks ∧ (s.pfree addr).maxPages = s.maxPages := by
  unfold pfree
  dsimp only
  split_ifs <;> exact ⟨rfl, rfl⟩

theorem pfree_of_free (haddr : kernV2p addr / pageSize = n) (hfree : s.Free n) : s.pfree addr = s := by
  obtain ⟨hblock, hbit⟩ := hfree
  unfold pfree
  rw [haddr]
  dsimp only
  rw [if_neg (by omega), if_pos ((and_bit s n).mpr hbit)]

theorem pfree_of_not_free (haddr : kernV2p addr / pageSize = n) (hblock : n / 32 < s.numBlocks)
    (hfree : ¬s.Free n) : s.pfree addr = { s with
      map := update s.map (n / 32) (s.map (n / 32) ||| 1#32 <<< (n % 32))
      clockBlock := if n / 32 < s.clockBlock then n / 32 else s.clockBlock
      restPages := s.restPages + 1 } := by
  have hbit : ¬(s.map (n / 32)).getLsbD (n % 32) = true := fun hbit => hfree ⟨hblock, hbit⟩
  unfold pfree
  rw [haddr]
  dsimp only
  rw [if_neg (by omega), if_neg (mt (and_bit s n).mp hbit)]

theorem Ok.pfree (h : s.Ok) (haddr : kernV2p addr / pageSize = n) (hblock : n / 32 < s.numBlocks)
    (hn : n < s.maxPages) : (s.pfree addr).Ok ∧ ∀ m, (s.pfree addr).Free m ↔ s.Free m ∨ m = n := by
  by_cases hfree : s.Free n
  · rw [pfree_of_free haddr hfree]
    refine ⟨h, ?_⟩
    intro m
    constructor
    · exact .inl
    · rintro (hm | rfl)
      · exact hm
      · exact hfree
  · have hiff : ∀ m, (s.pfree addr).Free m ↔ s.Free m ∨ m = n := by
      intro m
      have hlt : m % 32 < 32 := Nat.mod_lt m (by decide)
      rw [pfree_of_not_free haddr hblock hfree]
      simp only [MemoryMap.Free, update_apply]
      by_cases heq : m / 32 = n / 32
      · have hmod : m % 32 = n % 32 ↔ m = n := by omega
        rw [if_pos heq, BitVec.getLsbD_or, getLsbD_one_shiftLeft hlt, Bool.or_eq_true,
          decide_eq_true_eq, hmod, heq]
        tauto
      · have hne : m ≠ n := by
          rintro rfl
          exact heq rfl
        simp [heq, hne]
    obtain ⟨hblocks, hpages⟩ := pfree_size s addr
    refine ⟨⟨?_, ?_, ?_⟩, hiff⟩
    · have hrest : (s.pfree addr).restPages = s.restPages + 1 := by
        rw [pfree_of_not_free haddr hblock hfree]
      have hset : (Finset.range (32 * (s.pfree addr).numBlocks)).filter (s.pfree addr).Free =
          insert n ((Finset.range (32 * s.numBlocks)).filter s.Free) := by
        ext m
        simp only [Finset.mem_filter, Finset.mem_insert, Finset.mem_range, hiff, hblocks]
        constructor
        · tauto
        · rintro (rfl | hm)
          · exact ⟨by omega, .inr rfl⟩
          · exact ⟨hm.1, .inl hm.2⟩
      have hnew : n ∉ (Finset.range (32 * s.numBlocks)).filter s.Free := by
        rw [Finset.mem_filter]
        exact fun hmem => hfree hmem.2
      rw [hrest, hset, Finset.card_insert_of_notMem hnew, h.rest]
    · intro m hm
      rw [hpages]
      rcases (hiff m).mp hm with hm | rfl
      · exact h.bound m hm
      · exact hn
    · intro m hm
      have hclock : (s.pfree addr).clockBlock = if n / 32 < s.clockBlock then n / 32
          else s.clockBlock := by
        rw [pfree_of_not_free haddr hblock hfree]
      rw [hclock]
      rcases (hiff m).mp hm with hm | rfl
      · have hle := h.clock m hm
        split_ifs <;> omega
      · split_ifs <;> omega

end MemoryMap

inductive PageCall where
  | palloc
  | pfree (addr : ℕ)

structure Pages where
  map : MemoryMap
  out : Finset ℕ

namespace Pages

def step (s : Pages) : PageCall → Pages
  | .palloc =>
    match s.map.palloc with
    | (none, map) => ⟨map, s.out⟩
    | (some addr, map) => ⟨map, insert (kernV2p addr / pageSize) s.out⟩
  | .pfree addr => ⟨s.map.pfree addr, s.out.erase (kernV2p addr / pageSize)⟩

def run (s : Pages) (calls : List PageCall) : Pages := calls.foldl step s

structure Ok (s : Pages) (max : ℕ) : Prop where
  map : s.map.Ok
  sized : s.map.Sized
  pages : s.map.maxPages = max
  out : ∀ n ∈ s.out, ¬s.map.Free n

variable {s : Pages} {max : ℕ}

open MemoryMap (IsAddress)

theorem Ok.palloc (h : s.Ok max) : (s.step .palloc).Ok max := by
  unfold step
  rcases halloc : s.map.palloc with ⟨_ | addr, map⟩
  · have hnone := MemoryMap.palloc_none h.map (by rw [halloc])
    rw [halloc] at hnone
    have hmap : map = s.map := hnone.2
    rw [hmap]
    exact h
  · obtain ⟨n, htakes⟩ := MemoryMap.palloc_some h.map halloc
    have hn : n < maxPagesLimit := lt_of_lt_of_le (h.map.bound n htakes.free) h.sized.limit
    have hpage : kernV2p addr / pageSize = n := IsAddress.page (.inr htakes.address) hn
    refine ⟨h.map.takes htakes, h.sized.congr htakes.blocks htakes.pages, htakes.pages.trans h.pages, ?_⟩
    intro m hm hfree
    have hleft := (htakes.left m).mp hfree
    change m ∈ insert (kernV2p addr / pageSize) s.out at hm
    rw [hpage] at hm
    rcases Finset.mem_insert.mp hm with rfl | hm
    · exact hleft.2 rfl
    · exact h.out m hm hleft.1

theorem Ok.pfree {addr n : ℕ} (h : s.Ok max) (haddr : IsAddress addr n) (hn : n < max) :
    (s.step (.pfree addr)).Ok max := by
  have hlimit : n < maxPagesLimit := lt_of_lt_of_le (h.pages ▸ hn) h.sized.limit
  have hpage := haddr.page hlimit
  have hmax : n < s.map.maxPages := h.pages ▸ hn
  have hblock : n / 32 < s.map.numBlocks := by
    rw [h.sized.blocks]
    omega
  obtain ⟨hok, hfree⟩ := h.map.pfree hpage hblock hmax
  obtain ⟨hblocks, hpages⟩ := MemoryMap.pfree_size s.map addr
  refine ⟨hok, h.sized.congr hblocks hpages, hpages.trans h.pages, ?_⟩
  intro m hm hm'
  change m ∈ s.out.erase (kernV2p addr / pageSize) at hm
  rw [hpage, Finset.mem_erase] at hm
  rcases (hfree m).mp hm' with hm' | heq
  · exact h.out m hm.2 hm'
  · exact hm.1 heq

theorem Ok.run (calls : List PageCall)
    (hcalls : ∀ addr, .pfree addr ∈ calls → ∃ n < max, IsAddress addr n) (h : s.Ok max) :
    (s.run calls).Ok max := by
  induction calls generalizing s with
  | nil => exact h
  | cons call calls ih =>
    apply ih
    · intro addr hmem
      exact hcalls addr (mem_cons_of_mem _ hmem)
    · cases call with
      | palloc => exact h.palloc
      | pfree addr =>
        obtain ⟨n, hn, haddr⟩ := hcalls addr mem_cons_self
        exact h.pfree haddr hn

theorem palloc_run {map : MemoryMap} (hok : map.Ok) (hsized : map.Sized) (calls : List PageCall)
    (hcalls : ∀ addr, .pfree addr ∈ calls → ∃ n < map.maxPages, IsAddress addr n)
    (hs : s = run ⟨map, ∅⟩ calls) : s.map.Ok ∧
      (∀ addr map', s.map.palloc = (some addr, map') → ∃ n, addr = kernP2v (n * pageSize) ∧
        n < map.maxPages ∧ s.map.Free n ∧ (∀ m < n, ¬s.map.Free m) ∧ n ∉ s.out ∧
        ∀ a, map'.mem a = if addr ≤ a ∧ a < addr + pageSize then 0 else s.map.mem a) ∧
      (s.map.palloc.1 = none ↔ ∀ n, ¬s.map.Free n) ∧
      ∀ addr n, n < map.maxPages → IsAddress addr n → s.map.Free n → s.map.pfree addr = s.map := by
  have hstate : s.Ok map.maxPages := by
    rw [hs]
    apply Ok.run calls hcalls
    refine ⟨hok, hsized, rfl, ?_⟩
    intro n hn
    exact absurd hn (Finset.notMem_empty n)
  refine ⟨hstate.map, ?_, ⟨?_, ?_⟩, ?_⟩
  · intro addr map' halloc
    obtain ⟨n, htakes⟩ := MemoryMap.palloc_some hstate.map halloc
    refine ⟨n, htakes.address, ?_, htakes.free, htakes.least, ?_, ?_⟩
    · rw [← hstate.pages]
      exact hstate.map.bound n htakes.free
    · exact fun hn => hstate.out n hn htakes.free
    · intro a
      have haligned : addr % pageSize = 0 := by
        rw [htakes.address, Mpu.Machine.kernP2v_mod]
        exact Nat.mul_mod_left n pageSize
      rw [htakes.mem]
      exact MemoryMap.pzero_apply s.map.mem haligned a
  · intro hnone
    exact (MemoryMap.palloc_none hstate.map hnone).1
  · intro hno
    rcases halloc : s.map.palloc with ⟨_ | addr, map'⟩
    · rfl
    · obtain ⟨n, htakes⟩ := MemoryMap.palloc_some hstate.map halloc
      exact absurd htakes.free (hno n)
  · intro addr n hn haddr hfree
    have hlimit : n < maxPagesLimit := by
      rw [← hstate.pages] at hn
      exact lt_of_lt_of_le hn hstate.sized.limit
    exact MemoryMap.pfree_of_free (haddr.page hlimit) hfree

def fortyPages : MemoryMap where
  restPages := 39
  clockBlock := 0
  numBlocks := 2
  maxPages := 40
  map := fun i => if i = 0 then 0xfffffffe#32 else if i = 1 then 0xff#32 else 0#32
  mem := fun _ => 1

theorem fortyPages_ok : fortyPages.Ok := by
  have hbits : ∀ n < 64, fortyPages.Free n → n < 40 := by decide
  refine ⟨by decide, ?_, fun _ _ => Nat.zero_le _⟩
  intro n hn
  have hblock : n / 32 < 2 := hn.1
  exact hbits n (by omega) hn

theorem palloc_run_forty :
    (run ⟨fortyPages, ∅⟩ [.palloc, .palloc, .pfree 0x1000]).map.palloc.1 = some 0x80001000 ∧
      (run ⟨fortyPages, ∅⟩ [.palloc, .palloc, .pfree 0x1000]).map.Ok := by
  refine ⟨by decide +kernel, (palloc_run fortyPages_ok ⟨rfl, by decide⟩ _ ?_ rfl).1⟩
  intro addr haddr
  obtain rfl : addr = 0x1000 := by simpa using haddr
  exact ⟨1, by decide, .inl rfl⟩

end Pages

end Eotan.Kernel
