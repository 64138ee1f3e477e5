import Eotan.Mpu.FlatCopy
import Eotan.Mpu.PagingRange

namespace Eotan.Mpu

open Lib.Copying
open Option

theorem memrcpyLoop_flat (len : ℕ) (m : Memory) (dest src : ℕ)
    (hapart : ∀ d e, d < e → e < len → dest - 1 - d ≠ src - 1 - e) : Machine.memrcpy.memrcpyLoop m dest src len =
      flat m (fun d => dest - 1 - d) (fun d => src - 1 - d) len := by
  induction len generalizing m dest src with
  | zero => rfl
  | succ len ih =>
    have hnext : ∀ d e, d < e → e < len → dest - 1 - 1 - d ≠ src - 1 - 1 - e := by
      intro d e hde he
      have hne := hapart (1 + d) (1 + e) (by omega) (by omega)
      rwa [← Nat.sub_sub, ← Nat.sub_sub] at hne
    have hfirst := flat_first m (fun d => dest - 1 - d) (fun d => src - 1 - d) len
      fun d hd => (hapart 0 (1 + d) (by omega) (by omega)).symm
    rw [Machine.memrcpy.memrcpyLoop, ih _ _ _ hnext, Nat.add_comm len 1, ← hfirst]
    simp only [← Nat.sub_sub, Nat.sub_zero]

variable {m₀ : Memory} {dir dest src n u i : ℕ}

theorem nth_of_le (hu : u + n ≤ 2 ^ 32) (hi : i < n) : nth u i = u + i := Nat.mod_eq_of_lt (by omega)

variable {left q : ℕ}

theorem getOffset_before (hu : u + n ≤ 2 ^ 32) (hpos : 0 < left) (hleft : left ≤ n) :
    getOffset (nth u (left - 1)) = (u + left - 1) % 4096 := by
  rw [getOffset_eq, nth_of_le hu (by omega), Nat.add_sub_assoc hpos]

theorem physical_sub {page d : ℕ} (hu : u + n ≤ 2 ^ 32) (hi : i < n)
    (hpage : getPageAddress m₀ dir (nth u i) = some page) (hd : d ≤ getOffset (nth u i)) (hdi : d ≤ i) :
    getPageAddress m₀ dir (nth u (i - d)) = some page ∧
      physical m₀ dir u (i - d) = page + (getOffset (nth u i) + 1) - 1 - d := by
  rw [getOffset_eq, nth_of_le hu hi] at hd
  have hsame : nth u (i - d) / 4096 = nth u i / 4096 := by
    rw [nth_of_le hu hi, nth_of_le hu (by omega)]
    omega
  have hpage' : getPageAddress m₀ dir (nth u (i - d)) = some page := by
    rw [getPageAddress_of_page hsame, hpage]
  refine ⟨hpage', ?_⟩
  rw [physical, hpage', getD_some, getOffset_eq, getOffset_eq, nth_of_le hu hi, nth_of_le hu (by omega)]
  omega

def Within (dest src n v : ℕ) : Prop := (dest ≤ v ∧ v < dest + n) ∨ (src ≤ v ∧ v < src + n)

/-- The pages of both ranges are present, in frames of their own and apart from the tables, and a copy
backwards does not overwrite what it still has to read. -/
structure Movable (m₀ : Memory) (dir dest src n : ℕ) : Prop where
  dest_le : dest + n ≤ 2 ^ 32
  src_le : src + n ≤ 2 ^ 32
  present : ∀ v, Within dest src n v → getPageAddress m₀ dir v ≠ none
  frames : ∀ v w, Within dest src n v → Within dest src n w →
    getPageAddress m₀ dir v = getPageAddress m₀ dir w → v / pageSize = w / pageSize
  tables : ∀ i < n, ∀ v, Within dest src n v → ¬TableByte m₀ dir v (physical m₀ dir dest i)
  order : src ≤ dest ∨ dest + n ≤ src

namespace Movable

variable (h : Movable m₀ dir dest src n)

include h

theorem within_dest (hi : i < n) : Within dest src n (nth dest i) := by
  rw [nth_of_le h.dest_le hi]
  exact .inl ⟨by omega, by omega⟩

theorem within_src (hi : i < n) : Within dest src n (nth src i) := by
  rw [nth_of_le h.src_le hi]
  exact .inr ⟨by omega, by omega⟩

theorem eq_of_physical {v w p : ℕ} (hv : Within dest src n v) (hw : Within dest src n w)
    (hp : getPageAddress m₀ dir v = some p) (hq : getPageAddress m₀ dir w = some q)
    (heq : p + getOffset v = q + getOffset w) : v = w := by
  have hpmod := Machine.getPageAddress_mod hp
  have hqmod := Machine.getPageAddress_mod hq
  rw [getOffset_eq, getOffset_eq] at heq
  unfold pageSize at hpmod hqmod
  have hframe : p = q := by omega
  have hpage := h.frames v w hv hw (by rw [hp, hq, hframe])
  unfold pageSize at hpage
  omega

theorem physical_ne {j : ℕ} (hi : i < n) (hj : j < n) (hji : j < i) :
    physical m₀ dir dest i ≠ physical m₀ dir src j := by
  intro heq
  obtain ⟨p, hp⟩ := ne_none_iff_exists'.mp (h.present _ (h.within_dest hi))
  obtain ⟨q, hq⟩ := ne_none_iff_exists'.mp (h.present _ (h.within_src hj))
  rw [physical, physical, hp, hq] at heq
  have hsame := h.eq_of_physical (h.within_dest hi) (h.within_src hj) hp hq heq
  rw [nth_of_le h.dest_le hi, nth_of_le h.src_le hj] at hsame
  have horder := h.order
  omega

theorem physical_injOn : Set.InjOn (fun i => physical m₀ dir dest (n - 1 - i)) {i | i < n} := by
  intro i hi j hj heq
  have hi : i < n := hi
  have hj : j < n := hj
  obtain ⟨p, hp⟩ := ne_none_iff_exists'.mp (h.present _ (h.within_dest (show n - 1 - i < n by omega)))
  obtain ⟨q, hq⟩ := ne_none_iff_exists'.mp (h.present _ (h.within_dest (show n - 1 - j < n by omega)))
  simp only [physical, hp, hq, getD_some] at heq
  have hsame := h.eq_of_physical (h.within_dest (by omega)) (h.within_dest (by omega)) hp hq heq
  rw [nth_of_le h.dest_le (by omega), nth_of_le h.dest_le (by omega)] at hsame
  omega

end Movable

def moved (m₀ : Memory) (dir dest src n left : ℕ) : Memory :=
  flat m₀ (fun i => physical m₀ dir dest (n - 1 - i)) (fun i => physical m₀ dir src (n - 1 - i)) (n - left)

namespace Movable

variable (h : Movable m₀ dir dest src n)

include h

theorem translates (left : ℕ) {v : ℕ} (hv : Within dest src n v) :
    getPageAddress (moved m₀ dir dest src n left) dir v = getPageAddress m₀ dir v := by
  apply getPageAddress_congr
  intro a ha
  apply flat_of_ne
  rintro i hi rfl
  exact h.tables (n - 1 - i) (by omega) v hv ha

theorem piece {len p woffset roffset : ℕ} (hleft : left ≤ n) (hpos : 0 < left) (hlen : len ≤ left)
    (hp : getPageAddress m₀ dir (nth dest (left - 1)) = some p)
    (hq : getPageAddress m₀ dir (nth src (left - 1)) = some q)
    (hw : getOffset (nth dest (left - 1)) + 1 = woffset) (hr : getOffset (nth src (left - 1)) + 1 = roffset)
    (hlw : len ≤ woffset) (hlr : len ≤ roffset) :
    Machine.memrcpy.memrcpyLoop (moved m₀ dir dest src n left) (p + woffset) (q + roffset) len =
      moved m₀ dir dest src n (left - len) := by
  have hdst (d : ℕ) (hd : d < len) : p + woffset - 1 - d = physical m₀ dir dest (n - 1 - (n - left + d)) := by
    have hindex : n - 1 - (n - left + d) = left - 1 - d := by omega
    rw [hindex, (physical_sub h.dest_le (by omega) hp (by omega) (by omega)).2, hw]
  have hsrc (d : ℕ) (hd : d < len) : q + roffset - 1 - d = physical m₀ dir src (n - 1 - (n - left + d)) := by
    have hindex : n - 1 - (n - left + d) = left - 1 - d := by omega
    rw [hindex, (physical_sub h.src_le (by omega) hq (by omega) (by omega)).2, hr]
  have hread (d : ℕ) (hd : d < len) : moved m₀ dir dest src n left
      (physical m₀ dir src (n - 1 - (n - left + d))) = m₀ (physical m₀ dir src (n - 1 - (n - left + d))) := by
    apply flat_of_ne
    intro i hi heq
    exact h.physical_ne (by omega) (by omega) (by omega) heq.symm
  rw [memrcpyLoop_flat]
  · have hsum : n - (left - len) = n - left + len := by omega
    refine (flat_congr hdst hsrc).trans ((flat_add len hread rfl).trans ?_)
    rw [← hsum]
    rfl
  · intro d e hde he
    rw [hdst d (by omega), hsrc e he]
    exact h.physical_ne (by omega) (by omega) (by omega)

theorem moveLoop_moved (roffset : ℕ) (hroffset : roffset < pageSize) (fuel : ℕ)
    {s : Machine} (hfuel : left ≤ fuel) (hleft : left ≤ n) (hmem : s.mem = moved m₀ dir dest src n left)
    (hend : left = 0 ∨ (dest + left) % pageSize = 0) (hread : left = 0 ∨ (src + left) % pageSize = roffset)
    (hq : 0 < left → roffset ≠ 0 → getPageAddress m₀ dir (nth src (left - 1)) = some q) :
    (Machine.moveLoop dir dest src roffset (pageSize - roffset) fuel left q s).1 = eOk ∧
      (Machine.moveLoop dir dest src roffset (pageSize - roffset) fuel left q s).2.mem =
        moved m₀ dir dest src n 0 := by
  induction fuel generalizing left q s with
  | zero =>
    obtain rfl : left = 0 := by omega
    exact ⟨rfl, hmem⟩
  | succ fuel ih =>
    rw [Machine.moveLoop]
    by_cases hzero : left = 0
    · rw [if_pos hzero]
      rw [hzero] at hmem
      exact ⟨rfl, hmem⟩
    have hpos : 0 < left := Nat.pos_of_ne_zero hzero
    have hq := hq hpos
    have hdest : (dest + left - 1) % 2 ^ 32 = nth dest (left - 1) := by
      rw [nth, Nat.add_sub_assoc hpos]
    rw [if_neg hzero, hmem, hdest, h.translates left (h.within_dest (by omega))]
    obtain ⟨p, hp⟩ := ne_none_iff_exists'.mp (h.present _ (h.within_dest (show left - 1 < n by omega)))
    rw [hp]
    dsimp only
    generalize hlen : (if roffset > left then left else roffset) = len
    replace hlen := Machine.piece_len hlen
    have hoffsets : getOffset (nth dest (left - 1)) + 1 = 4096 ∧
        (roffset ≠ 0 → getOffset (nth src (left - 1)) + 1 = roffset) := by
      rw [getOffset_before h.dest_le hpos hleft, getOffset_before h.src_le hpos hleft]
      unfold pageSize at *
      omega
    generalize ht : (if roffset = 0 then s
      else s.memrcpy (dest + left) (p + pageSize) (q + roffset) len) = t
    have htmem : t.mem = moved m₀ dir dest src n (left - len) := by
      rw [← ht]
      split_ifs with hr
      · obtain rfl : len = 0 := by omega
        exact hmem
      · change Machine.memrcpy.memrcpyLoop s.mem _ _ _ = _
        rw [hmem]
        exact h.piece hleft hpos hlen.1 hp (hq hr) hoffsets.1 (hoffsets.2 hr) (by unfold pageSize at *; omega)
          hlen.2.1
    by_cases hdone : left - len = 0
    · rw [if_pos hdone]
      rw [hdone] at htmem
      exact ⟨rfl, htmem⟩
    have hpos' : 0 < left - len := Nat.pos_of_ne_zero hdone
    have hsrc : (src + (left - len) - 1) % 2 ^ 32 = nth src (left - len - 1) := by
      rw [nth, Nat.add_sub_assoc hpos']
    rw [if_neg hdone, htmem, hsrc, h.translates _ (h.within_src (by omega))]
    obtain ⟨q', hq'⟩ := ne_none_iff_exists'.mp (h.present _ (h.within_src (show left - len - 1 < n by omega)))
    rw [hq']
    dsimp only
    generalize hlen' : (if pageSize - roffset > left - len then left - len else pageSize - roffset) = len'
    replace hlen' := Machine.piece_len hlen'
    have hp' : getPageAddress m₀ dir (nth dest (left - len - 1)) = some p := by
      rw [Nat.sub_right_comm]
      exact (physical_sub h.dest_le (by omega) hp (by unfold pageSize at *; omega) (by omega)).1
    have hoffsets' : getOffset (nth dest (left - len - 1)) + 1 = pageSize - roffset ∧
        getOffset (nth src (left - len - 1)) + 1 = pageSize := by
      rw [getOffset_before h.dest_le hpos' (by omega), getOffset_before h.src_le hpos' (by omega)]
      unfold pageSize at *
      omega
    have hmem' := h.piece (by omega) hpos' hlen'.1 hp' hq' hoffsets'.1 hoffsets'.2 hlen'.2.1 (by omega)
    apply ih
    · unfold pageSize at *
      omega
    · omega
    · change Machine.memrcpy.memrcpyLoop t.mem _ _ _ = _
      rw [htmem]
      exact hmem'
    · unfold pageSize at *
      omega
    · unfold pageSize at *
      omega
    · intro hpos'' hr
      -- the piece just read began inside its page
      have hsub := (physical_sub h.src_le (by omega) hq' (show len' ≤ _ by unfold pageSize at *; omega)
        (by omega)).1
      rwa [Nat.sub_right_comm] at hsub

end Movable

/-- The thread with this directory has the pages `0x400000` in frame `0x3000` and `0x401000` in frame
`0x6000`, and sees the kernel's frames `0x4000` and `0x5000` at the kernel's addresses. -/
def stackPages : Memory := fun a =>
  if a = 0x80001004 then 7
  else if a = 0x80001005 then 0x20
  else if a = 0x80002000 then 7
  else if a = 0x80002001 then 0x30
  else if a = 0x80002004 then 7
  else if a = 0x80002005 then 0x60
  else if a = 0x80001800 then 3
  else if a = 0x80001801 then 0x70
  else if a = 0x80007010 then 3
  else if a = 0x80007011 then 0x40
  else if a = 0x80007014 then 3
  else if a = 0x80007015 then 0x50
  else if a = 0x80003fff then 0x42
  else if a = 0x80004fff then 0x43
  else if a = 0x80005000 then 0x41
  else 0

def stackMachine : Machine := ⟨stackPages, [], 0, []⟩

end Eotan.Mpu
