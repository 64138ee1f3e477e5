import Eotan.Mpu.Copy

namespace Eotan.Mpu

open Lib.Bytes (word)
open List
open Nat

def readable : ℕ := pagePresent ||| pageUser
def writable : ℕ := pagePresent ||| pageUser ||| pageWritable

def Permits (m : Memory) (dir addr rights : ℕ) : Prop :=
  pde m dir addr &&& rights = rights ∧ pte m dir addr &&& rights = rights

def TableByte (m : Memory) (dir addr a : ℕ) : Prop :=
  (∃ i < 4, a = dir + 4 * getDirectoryOffset addr + i) ∨
    ∃ i < 4, a = tableOf m dir addr + 4 * getPageOffset addr + i

def nth (u i : ℕ) : ℕ := (u + i) % 2 ^ 32

def InTables (m : Memory) (dir u n a : ℕ) : Prop := ∃ i < n, TableByte m dir (nth u i) a

variable {a i j u dir page k n : ℕ} {m : Memory}

theorem load_congr {m' : Memory} (h : ∀ i < 4, m' (a + i) = m (a + i)) : load m' a = load m a := by
  simp only [load, word, h 0 (by decide), h 1 (by decide), h 2 (by decide), h 3 (by decide)]

section

variable {m m' : Memory} {dir addr : ℕ}

section

variable (h : ∀ a, TableByte m dir addr a → m' a = m a)
include h

theorem pde_congr : pde m' dir addr = pde m dir addr := load_congr fun i hi => h _ (.inl ⟨i, hi, rfl⟩)

theorem pte_congr : pte m' dir addr = pte m dir addr := by
  have htable : tableOf m' dir addr = tableOf m dir addr := by
    rw [tableOf, tableOf, pde_congr h]
  rw [pte, pte, htable]
  exact load_congr fun i hi => h _ (.inr ⟨i, hi, rfl⟩)

theorem getPageAddress_congr : getPageAddress m' dir addr = getPageAddress m dir addr := by
  unfold getPageAddress
  rw [pde_congr h, pte_congr h]

end

theorem getOffset_eq (addr : ℕ) : getOffset addr = addr % 4096 := and_two_pow_sub_one_eq_mod addr 12

theorem offsets_of_page {addr addr' : ℕ} (h : addr / 4096 = addr' / 4096) :
    getDirectoryOffset addr = getDirectoryOffset addr' ∧ getPageOffset addr = getPageOffset addr' := by
  have hshift (x : ℕ) : x >>> 22 = x / 4096 / 1024 := by
    rw [Nat.shiftRight_eq_div_pow, Nat.div_div_eq_div_mul]
  have hshift' (x : ℕ) : x >>> 12 = x / 4096 := shiftRight_eq_div_pow x 12
  simp only [getDirectoryOffset, getPageOffset, hshift, hshift', h, and_self]

theorem getPageAddress_of_page {addr' : ℕ} (h : addr / 4096 = addr' / 4096) :
    getPageAddress m dir addr = getPageAddress m dir addr' := by
  have hpde : pde m dir addr = pde m dir addr' := by rw [pde, pde, (offsets_of_page h).1]
  have hpte : pte m dir addr = pte m dir addr' := by
    rw [pte, pte, tableOf, tableOf, hpde, (offsets_of_page h).2]
  rw [getPageAddress, getPageAddress, hpde, hpte]

end

theorem nth_add (u i len : ℕ) : (nth u i + len) % 2 ^ 32 = nth u (i + len) := by
  rw [nth, nth, mod_add_mod, add_assoc]

theorem nth_lt (u i : ℕ) : nth u i < 2 ^ 32 := mod_lt _ (by decide)

theorem page_add (m : Memory) (dir : ℕ) {d : ℕ} (hd : getOffset (nth u i) + d < pageSize) :
    getPageAddress m dir (nth u (i + d)) = getPageAddress m dir (nth u i) ∧
      getOffset (nth u (i + d)) = getOffset (nth u i) + d := by
  have hlt := nth_lt u i
  rw [← nth_add, getOffset_eq, getOffset_eq]
  rw [getOffset_eq, pageSize] at hd
  generalize nth u i = x at *
  exact ⟨getPageAddress_of_page (by omega), by omega⟩

theorem getOffset_next (u i : ℕ) : getOffset (nth u (i + (4096 - getOffset (nth u i)))) = 0 := by
  rw [← nth_add, getOffset_eq, getOffset_eq]
  generalize nth u i = x
  omega

def InRange (m : Memory) (dir u n : ℕ) (x : Access) : Prop :=
  ∃ j page, j + x.len ≤ n ∧ x.user = nth u j ∧ getPageAddress m dir (nth u j) = some page ∧
    x.page = page + getOffset (nth u j) ∧ getOffset (nth u j) + x.len ≤ pageSize

structure Copied (m : Memory) (dir u n i : ℕ) (r : Result) : Prop where
  code : r.code = eOk ∨ r.code = ePar
  mapped : r.code = eOk → ∀ j, i ≤ j → j < n → getPageAddress m dir (nth u j) ≠ none
  log : ∀ x ∈ r.log, InRange m dir u n x

def Apart (m : Memory) (dir u k n : ℕ) (piece : Memory → ℕ → ℕ → ℕ → Memory) : Prop :=
  ∀ m' i page len, i + len ≤ n → getPageAddress m dir (nth u i) = some page →
    getOffset (nth u i) + len ≤ pageSize →
    ∀ a, InTables m dir u n a → piece m' (page + getOffset (nth u i)) (k + i) len a = m' a

theorem mapped_of_page {len : ℕ} (hp : getPageAddress m dir (nth u i) = some page)
    (hoff : getOffset (nth u i) + len ≤ pageSize) (hij : i ≤ j) (hj : j < i + len) :
    getPageAddress m dir (nth u j) ≠ none := by
  obtain ⟨d, rfl⟩ := Nat.exists_eq_add_of_le hij
  rw [(page_add m dir (by omega)).1, hp]
  exact Option.some_ne_none page

theorem translate_agree {m0 : Memory} (hagree : ∀ a, InTables m0 dir u n a → m a = m0 a) (hj : j < n) :
    getPageAddress m dir (nth u j) = getPageAddress m0 dir (nth u j) := by
  apply getPageAddress_congr
  intro a ha
  exact hagree a ⟨j, hj, ha⟩

/-- The next piece of a copy of `n` bytes is what is left, or ends with the page. -/
theorem piece_bounds {len : ℕ} (hi : i < n ∨ n = 0 ∧ i = 0)
    (hlen : (if n - i < pageSize - getOffset (nth u i) then n - i else pageSize - getOffset (nth u i)) = len) :
    i + len ≤ n ∧ getOffset (nth u i) + len ≤ pageSize ∧ (n ≠ 0 → 0 < len) ∧
      (n - i - len ≠ 0 → getOffset (nth u (i + len)) = 0) := by
  have hoff : getOffset (nth u i) < 4096 := by
    rw [getOffset_eq]
    exact mod_lt _ (by decide)
  have hnext := getOffset_next u i
  subst hlen
  unfold pageSize
  split_ifs
  · exact ⟨by omega, by omega, by omega, fun hmore => absurd (Nat.sub_self _) hmore⟩
  · exact ⟨by omega, by omega, by omega, fun _ => hnext⟩

theorem copyLoop_copied {m0 : Memory} {piece : Memory → ℕ → ℕ → ℕ → Memory}
    (hapart : Apart m0 dir u k n piece) (fuel : ℕ) (hi : i < n ∨ n = 0 ∧ i = 0) (hfuel : n - i < fuel)
    (hagree : ∀ a, InTables m0 dir u n a → m a = m0 a) (hpage : getPageAddress m0 dir (nth u i) = some page) :
    Copied m0 dir u n i (copyLoop piece dir fuel (page + getOffset (nth u i)) (nth u i) (k + i)
      (n - i) (pageSize - getOffset (nth u i)) m) := by
  induction fuel generalizing i page m with
  | zero => omega
  | succ fuel ih =>
    rw [copyLoop]
    generalize hlen : (if n - i < pageSize - getOffset (nth u i) then n - i
      else pageSize - getOffset (nth u i)) = len
    obtain ⟨hin, hoff, hpos, hnext⟩ := piece_bounds hi hlen
    have hhere : InRange m0 dir u n ⟨nth u i, page + getOffset (nth u i), len⟩ :=
      ⟨i, page, hin, rfl, hpage, rfl, hoff⟩
    have hagree' (a : ℕ) (ha : InTables m0 dir u n a) :
        piece m (page + getOffset (nth u i)) (k + i) len a = m0 a := by
      rw [hapart m i page len hin hpage hoff a ha]
      exact hagree a ha
    split_ifs with hend
    · refine ⟨.inl rfl, ?_, forall_mem_singleton.mpr hhere⟩
      intro _ j hij hj
      exact mapped_of_page hpage hoff hij (by omega)
    · rw [nth_add, translate_agree hagree' (by omega)]
      cases hp : getPageAddress m0 dir (nth u (i + len)) with
      | none =>
        refine ⟨.inr rfl, fun hcode => ?_, forall_mem_singleton.mpr hhere⟩
        exact absurd (show ePar = eOk from hcode) (by decide)
      | some page' =>
        have hstep := ih (.inl (by omega)) (by omega) hagree' hp
        rw [hnext hend, Nat.add_zero, Nat.sub_zero, ← Nat.add_assoc, ← Nat.sub_sub] at hstep
        refine ⟨hstep.code, ?_, forall_mem_cons.mpr ⟨hhere, hstep.log⟩⟩
        intro hcode j hij hj
        by_cases hlt : j < i + len
        · exact mapped_of_page hpage hoff hij hlt
        · exact hstep.mapped hcode j (by omega) hj

def UserApart (m : Memory) (dir u n : ℕ) : Prop :=
  ∀ i < n, ∀ page, getPageAddress m dir (nth u i) = some page →
    ¬InTables m dir u n (page + getOffset (nth u i))

def KernelApart (m : Memory) (dir u k n : ℕ) : Prop := ∀ i < n, ¬InTables m dir u n (k + i)

theorem apart_k2u (h : UserApart m dir u n) : Apart m dir u k n fun m p k len => memcpy m p k len := by
  intro m' i page len hlen hpage hoff a ha
  apply if_neg
  rintro ⟨hle, hlt⟩
  obtain ⟨d, rfl⟩ := Nat.exists_eq_add_of_le hle
  have hd : getOffset (nth u i) + d < pageSize := by omega
  obtain ⟨hpage', hoff'⟩ := page_add m dir hd
  apply h (i + d) (by omega) page (hpage'.trans hpage)
  rw [hoff', ← Nat.add_assoc]
  exact ha

theorem apart_u2k (h : KernelApart m dir u k n) : Apart m dir u k n fun m p k len => memcpy m k p len := by
  intro m' i page len hlen _ _ a ha
  apply if_neg
  rintro ⟨hle, hlt⟩
  obtain ⟨d, rfl⟩ := Nat.exists_eq_add_of_le hle
  apply h (i + d) (by omega)
  rw [← add_assoc]
  exact ha

theorem nth_zero (hu : u < 2 ^ 32) : nth u 0 = u := mod_eq_of_lt hu

theorem userCopy_copied {th : Thread} {piece : Memory → ℕ → ℕ → ℕ → Memory} (hu : u < 2 ^ 32)
    (hapart : Apart m (kernP2v th.cr3) u k n piece) :
    Copied m (kernP2v th.cr3) u n 0 (userCopy piece m th u k n) := by
  unfold userCopy
  cases hp : getPageAddress m (kernP2v th.cr3) u with
  | none =>
    refine ⟨.inr rfl, ?_, ?_⟩
    · intro hcode
      exact absurd (show ePar = eOk from hcode) (by decide)
    · intro x hx
      exact absurd hx not_mem_nil
  | some page =>
    have hloop := copyLoop_copied hapart (n + 1) (i := 0) (m := m) (by omega)
      (by omega) (fun _ _ => rfl) (by rw [nth_zero hu, hp])
    rw [nth_zero hu] at hloop
    exact hloop

theorem copyLoop_frame (dir fuel : ℕ) {p rest len : ℕ}
    (h : (copyLoop (fun m p k len => memcpy m p k len) dir fuel p u k rest len m).mem a ≠ m a) :
    ∃ x ∈ (copyLoop (fun m p k len => memcpy m p k len) dir fuel p u k rest len m).log,
      x.page ≤ a ∧ a < x.page + x.len := by
  induction fuel generalizing p u k rest len m with
  | zero => exact absurd rfl h
  | succ fuel ih =>
    rw [copyLoop] at h ⊢
    generalize (if rest < len then rest else len) = l at *
    have hhere (hne : memcpy m p k l a ≠ m a) : p ≤ a ∧ a < p + l := by
      by_contra hno
      exact hne (if_neg hno)
    split_ifs at h ⊢ with hend
    · exact ⟨_, mem_singleton_self _, hhere h⟩
    cases hp : getPageAddress (memcpy m p k l) dir ((u + l) % 2 ^ 32) with
    | none =>
      simp only [hp] at h ⊢
      exact ⟨_, mem_singleton_self _, hhere h⟩
    | some page =>
      simp only [hp] at h ⊢
      by_cases hne : memcpy m p k l a = m a
      · rw [← hne] at h
        obtain ⟨x, hx, hin⟩ := ih h
        exact ⟨x, mem_cons_of_mem _ hx, hin⟩
      · exact ⟨_, mem_cons_self, hhere hne⟩

section

variable (left dest src : ℕ) (m : Memory)

theorem copyString_count : ((copyString left dest src m).1 = true → (copyString left dest src m).2.1 < left) ∧
      ((copyString left dest src m).1 ≠ true → (copyString left dest src m).2.1 = left) := by
  induction left generalizing dest src m with
  | zero => exact ⟨fun h => absurd h (by simp [copyString]), fun _ => rfl⟩
  | succ left ih =>
    obtain ⟨hdone, hmore⟩ := ih (dest + 1) (src + 1) (Function.update m dest (m src))
    unfold copyString
    dsimp only
    split_ifs with hz
    · exact ⟨fun _ => succ_pos left, fun h => absurd rfl h⟩
    · exact ⟨fun h => Nat.add_lt_add_right (hdone h) 1, fun h => by rw [hmore h]⟩

theorem stringRead_le : stringRead (copyString left dest src m) ≤ left := by
  obtain ⟨hdone, hmore⟩ := copyString_count left dest src m
  unfold stringRead
  split_ifs with h
  · exact hdone h
  · exact (hmore h).le

theorem copyString_frame (h : ¬(dest ≤ a ∧ a < dest + left)) : (copyString left dest src m).2.2 a = m a := by
  induction left generalizing dest src m with
  | zero => rfl
  | succ left ih =>
    have hupdate : Function.update m dest (m src) a = m a := Function.update_of_ne (by omega) _ _
    unfold copyString
    dsimp only
    split_ifs with hz
    · exact hupdate
    · rw [← hupdate]
      exact ih (dest + 1) (src + 1) _ (by omega)

end

structure StringCopied (m : Memory) (dir u n i : ℕ) (r : Result) : Prop where
  code : r.code = ePar ∨ ∃ c : ℕ, r.code = c ∧ c ≤ n ∧
    ∀ j, i ≤ j → j < n → j ≤ c → getPageAddress m dir (nth u j) ≠ none
  log : ∀ x ∈ r.log, InRange m dir u n x

theorem stringLoop_copied {m0 : Memory} (hapart : KernelApart m0 dir u k n)
    (fuel : ℕ) (hi : i < n ∨ n = 0 ∧ i = 0) (hfuel : n - i < fuel)
    (hagree : ∀ a, InTables m0 dir u n a → m a = m0 a) (hpage : getPageAddress m0 dir (nth u i) = some page) :
    StringCopied m0 dir u n i (stringLoop dir n fuel (page + getOffset (nth u i)) (nth u i) (k + i)
      (n - i) (pageSize - getOffset (nth u i)) m) := by
  induction fuel generalizing i page m with
  | zero => omega
  | succ fuel ih =>
    rw [stringLoop]
    generalize hlen : (if n - i < pageSize - getOffset (nth u i) then n - i
      else pageSize - getOffset (nth u i)) = len
    obtain ⟨hin, hoff, hpos, hnext⟩ := piece_bounds hi hlen
    obtain ⟨hdone, hmore⟩ := copyString_count len (k + i) (page + getOffset (nth u i)) m
    have hread := stringRead_le len (k + i) (page + getOffset (nth u i)) m
    have hagree' (a : ℕ) (ha : InTables m0 dir u n a) :
        (copyString len (k + i) (page + getOffset (nth u i)) m).2.2 a = m0 a := by
      rw [copyString_frame]
      · exact hagree a ha
      · rintro ⟨hle, hlt⟩
        obtain ⟨d, rfl⟩ := Nat.exists_eq_add_of_le hle
        rw [add_assoc] at ha
        exact hapart (i + d) (by omega) ha
    generalize copyString len (k + i) (page + getOffset (nth u i)) m = x at *
    have hhere : InRange m0 dir u n ⟨nth u i, page + getOffset (nth u i), stringRead x⟩ :=
      ⟨i, page, by dsimp only; omega, rfl, hpage, rfl, by dsimp only; omega⟩
    have hcount : x.2.1 ≤ len := by
      by_cases hx : x.1 = true
      · exact (hdone hx).le
      · exact (hmore hx).le
    split_ifs with hend
    · refine ⟨.inr ⟨n - (n - i - x.2.1), rfl, by omega, ?_⟩, forall_mem_singleton.mpr hhere⟩
      intro j hij hj hjc
      apply mapped_of_page hpage hoff hij
      rcases hend with hx | hz
      · have := hdone hx
        omega
      · omega
    · rw [not_or] at hend
      have hlenx : x.2.1 = len := hmore hend.1
      rw [hlenx] at hend ⊢
      rw [nth_add, translate_agree hagree' (by omega)]
      cases hp : getPageAddress m0 dir (nth u (i + len)) with
      | none => exact ⟨.inl rfl, forall_mem_singleton.mpr hhere⟩
      | some page' =>
        have hstep := ih (.inl (by omega)) (by omega) hagree' hp
        rw [hnext hend.2, Nat.add_zero, Nat.sub_zero, ← Nat.add_assoc, ← Nat.sub_sub] at hstep
        refine ⟨?_, forall_mem_cons.mpr ⟨hhere, hstep.log⟩⟩
        apply hstep.code.imp_right
        rintro ⟨c, hc, hcn, hall⟩
        refine ⟨c, hc, hcn, ?_⟩
        intro j hij hj hjc
        by_cases hlt : j < i + len
        · exact mapped_of_page hpage hoff hij hlt
        · exact hall j (by omega) hj hjc

theorem strncpyU2k_copied {th : Thread} {dest src : ℕ} (hth : isKthread th = false)
    (hs : src < 2 ^ 32) (hapart : KernelApart m (kernP2v th.cr3) src dest n) :
    StringCopied m (kernP2v th.cr3) src n 0 (strncpyU2k m th dest src n) := by
  unfold strncpyU2k
  rw [if_neg (by rw [hth]; decide)]
  cases hp : getPageAddress m (kernP2v th.cr3) src with
  | none =>
    refine ⟨.inl rfl, ?_⟩
    intro x hx
    exact absurd hx not_mem_nil
  | some page =>
    have hloop := stringLoop_copied hapart (n + 1) (i := 0) (m := m) (by omega)
      (by omega) (fun _ _ => rfl) (by rw [nth_zero hs, hp])
    rw [nth_zero hs] at hloop
    exact hloop

def Guarded (m : Memory) (dir u n rights : ℕ) : Prop :=
  ∀ i < n, getPageAddress m dir (nth u i) ≠ none → Permits m dir (nth u i) rights

def Inside (m : Memory) (dir rights : ℕ) (x : Access) : Prop :=
  Permits m dir x.user rights ∧ ∃ page, getPageAddress m dir x.user = some page ∧
    x.page = page + getOffset x.user ∧ getOffset x.user + x.len ≤ pageSize

theorem InRange.inside {rights : ℕ} {x : Access} (h : InRange m dir u n x)
    (hg : Guarded m dir u n rights) (hx : 0 < x.len) : Inside m dir rights x := by
  obtain ⟨j, page, hj, huser, hpage, hx', hoff⟩ := h
  unfold Inside
  rw [huser]
  refine ⟨hg j (by omega) ?_, page, hpage, hx', hoff⟩
  rw [hpage]
  exact Option.some_ne_none page

theorem Copied.permits {rights : ℕ} {r : Result} (h : Copied m dir u n 0 r)
    (hg : Guarded m dir u n rights) (hcode : r.code ≠ ePar) (i : ℕ) (hi : i < n) :
    Permits m dir (nth u i) rights := hg i hi (h.mapped (h.code.resolve_right hcode) i (zero_le i) hi)

def onePage (flags : UInt8) : Memory := fun a =>
  if a = 0x80001804 then flags
  else if a = 0x80001805 then 0x20
  else if a = 0x80002000 then flags
  else if a = 0x80002001 then 0x30
  else if a = 0x80003000 then 0x42
  else if a = 0x80005000 then 0x41
  else 0

def userThread : Thread := ⟨0x7ffff000, 0x1000⟩

end Eotan.Mpu
