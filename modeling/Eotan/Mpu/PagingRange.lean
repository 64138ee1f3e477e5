import Eotan.Mpu.CopySafety
import Eotan.Mpu.Paging

/-!
Which pages the functions on page tables touch: those of their range, and all but `map_user_pages`
check that the range ends below `SUPERVISOR_START`.
-/

namespace Eotan.Mpu

open Fs (Errno)
open Lib.Loop
open Nat

def Touch.Below : Touch → Prop
  | .mapped page => (page + 1) * pageSize ≤ supervisorStart
  | .unmapped page => (page + 1) * pageSize ≤ supervisorStart
  | .copied a => a.user + a.len ≤ supervisorStart ∧ a.page % pageSize = a.user % pageSize ∧
      a.user % pageSize + a.len ≤ pageSize

instance : (t : Touch) → Decidable t.Below
  | .mapped _ => inferInstanceAs (Decidable (_ ≤ _))
  | .unmapped _ => inferInstanceAs (Decidable (_ ≤ _))
  | .copied _ => inferInstanceAs (Decidable (_ ∧ _ ∧ _))

namespace Machine

variable {s s' : Machine}

def Adds (s s' : Machine) : Prop := ∀ t ∈ s'.touched, t ∈ s.touched ∨ t.Below

theorem Adds.of_eq (h : s'.touched = s.touched) : s.Adds s' := by
  intro t ht
  rw [h] at ht
  exact .inl ht

theorem Adds.refl (s : Machine) : s.Adds s := .of_eq rfl

theorem Adds.trans {t : Machine} (h : s.Adds s') (h' : s'.Adds t) : s.Adds t := by
  intro x hx
  rcases h' x hx with hx | hx
  · exact h x hx
  · exact .inr hx

theorem adds_touch (s : Machine) {t : Touch} (h : t.Below) : s.Adds (s.touch t) := by
  intro x hx
  rcases List.mem_cons.mp hx with rfl | hx
  · exact .inr h
  · exact .inl hx

@[simp]
theorem palloc_touched (s : Machine) : s.palloc.2.touched = s.touched := by
  unfold palloc
  split <;> rfl

@[simp]
theorem pfree_touched (s : Machine) (addr : ℕ) : (s.pfree addr).touched = s.touched := by
  unfold pfree
  dsimp only
  split_ifs <;> rfl

theorem tableIn_touched (s : Machine) (taken : ℕ → Bool) (dir i : ℕ) :
    (s.tableIn taken dir i).2.touched = s.touched := by
  have hp := s.palloc_touched
  unfold tableIn
  split_ifs with htaken
  · rfl
  rcases hr : s.palloc with ⟨p, m⟩
  rw [hr] at hp
  dsimp only
  split_ifs with hzero
  · exact hp
  · exact hp

theorem getDirectoryOffset_eq (addr : ℕ) : getDirectoryOffset addr = addr / 2 ^ 22 :=
  shiftRight_eq_div_pow addr 22

theorem getPageOffset_eq (addr : ℕ) : getPageOffset addr = addr / 2 ^ 12 % 2 ^ 10 := by
  unfold getPageOffset
  rw [shiftRight_eq_div_pow]
  exact and_two_pow_sub_one_eq_mod _ 10

variable {addr n i j page dir dest src : ℕ} {body : ℕ → ℕ → ℕ → Machine → Option Errno × Machine}
  {m : Memory}

theorem forPages_ends {I : ℕ → Machine → Prop} {bad : Errno → Machine → Prop}
    (hbody : ∀ i lo hi s, lo < hi → hi ≤ ptePerPage → addr / pageSize ≤ i * ptePerPage + lo →
      i * ptePerPage + hi ≤ addr / pageSize + n → I (i * ptePerPage + lo) s →
      Ends (body i lo hi s) (I (i * ptePerPage + hi)) bad)
    (h : I (addr / pageSize) s) : Ends (forPages body addr n s) (I (addr / pageSize + n)) bad := by
  have hfirst : getDirectoryOffset addr * ptePerPage + getPageOffset addr = addr / pageSize := by
    rw [getDirectoryOffset_eq, getPageOffset_eq]
    simp only [ptePerPage, pageSize]
    omega
  have hoffset : getPageOffset addr < ptePerPage := by
    rw [getPageOffset_eq]
    exact mod_lt _ (by decide)
  unfold forPages
  rw [← hfirst] at hbody h ⊢
  exact forChunks_ends n hbody hoffset le_rfl h

theorem forPages_adds
    (hbody : ∀ i lo hi (s : Machine), lo < hi → (i * ptePerPage + hi) * pageSize ≤ supervisorStart →
      s.Adds (body i lo hi s).2) (hrange : (addr / pageSize + n) * pageSize ≤ supervisorStart) :
    s.Adds (forPages body addr n s).2 := by
  have hends : Ends (forPages body addr n s) (fun t => s.Adds t) fun _ t => s.Adds t := by
    apply forPages_ends (I := fun _ t => s.Adds t)
    · intro i lo hi t hlo _ _ hto ht
      apply ends_always
      apply ht.trans
      apply hbody _ _ _ _ hlo
      exact le_trans (mul_le_mul_right _ hto) hrange
    · exact .refl s
  exact hends.always

theorem forRange_adds {body : ℕ → Machine → Option Errno × Machine} {lo : ℕ}
    (hbody : ∀ j (s : Machine), j < lo + n → s.Adds (body j s).2) : s.Adds (forRange body n lo s).2 := by
  have hends : Ends (forRange body n lo s) (fun t => s.Adds t) fun _ t => s.Adds t := by
    apply forRange_ends (I := fun _ t => s.Adds t)
    · intro j t _ hlt ht
      exact ends_always (ht.trans (hbody j t hlt))
    · exact .refl s
  exact hends.always

theorem entry_below {hi : ℕ} (hj : j < hi) (hhi : (i * ptePerPage + hi) * pageSize ≤ supervisorStart) :
    (i * ptePerPage + j + 1) * pageSize ≤ supervisorStart := le_trans (mul_le_mul_right _ (by omega)) hhi

theorem kernP2v_mod (p : ℕ) : kernP2v p % pageSize = p % pageSize := by
  have h : kernP2v p % 2 ^ 12 = p % 2 ^ 12 ||| supervisorStart % 2 ^ 12 := or_mod_two_pow
  have hzero : supervisorStart % 2 ^ 12 = 0 := by decide
  rw [hzero, or_zero] at h
  exact h

theorem range_of_outside (h : outside addr n = false) : (addr / pageSize + n) * pageSize ≤ supervisorStart := by
  have h := Bool.or_eq_false_iff.mp h
  have hstart := of_decide_eq_false h.1
  have hend := of_decide_eq_false h.2
  simp only [pages, pageSize, supervisorStart] at hstart hend ⊢
  omega

theorem mapEntry_adds {attr : ℕ} (h : (i * ptePerPage + j + 1) * pageSize ≤ supervisorStart) :
    s.Adds (mapEntry attr page i j s).2 := by
  have htouch : s.Adds (s.touch (.mapped (i * ptePerPage + j))) := adds_touch s h
  unfold mapEntry
  dsimp only
  generalize s.touch (.mapped (i * ptePerPage + j)) = t at htouch ⊢
  have hp := t.palloc_touched
  split_ifs with hpresent hzero
  · exact htouch
  · exact htouch.trans (.of_eq hp)
  · exact htouch.trans (.of_eq hp)

theorem mapUserPages_adds (s : Machine) {cnt : ℕ} (writable : Bool)
    (hrange : (addr / pageSize + cnt) * pageSize ≤ supervisorStart) :
    s.Adds (s.mapUserPages dir addr cnt writable).2 := by
  unfold mapUserPages
  apply forPages_adds
  · intro i lo hi t hlo h
    have ht := tableIn_touched t isPresent (kernP2v dir) i
    unfold mapTable
    rcases hr : t.tableIn isPresent (kernP2v dir) i with ⟨page, m⟩
    rw [hr] at ht
    dsimp only
    split_ifs with hzero
    · exact .of_eq ht
    · apply Adds.trans (.of_eq ht)
      apply forRange_adds
      intro j u hj
      exact mapEntry_adds (entry_below (by omega) h)
  · apply le_trans _ hrange
    apply Nat.mul_le_mul_right
    split_ifs <;> omega

theorem unmapEntry_adds (h : (i * ptePerPage + j + 1) * pageSize ≤ supervisorStart) :
    s.Adds (unmapEntry page i j s).2 := by
  have htouch : s.Adds (s.touch (.unmapped (i * ptePerPage + j))) := adds_touch s h
  unfold unmapEntry
  dsimp only
  split_ifs with hpresent
  · exact htouch.trans (.of_eq (pfree_touched _ _))
  · exact htouch

theorem detachEntry_adds (h : (i * ptePerPage + j + 1) * pageSize ≤ supervisorStart) :
    s.Adds (detachEntry page i j s).2 := by
  have htouch : s.Adds (s.touch (.unmapped (i * ptePerPage + j))) := adds_touch s h
  unfold detachEntry
  dsimp only
  split_ifs with hpresent
  · exact htouch
  · exact htouch

theorem clearTable_adds {lo hi : ℕ}
    (hbody : ∀ page j (s : Machine), (i * ptePerPage + j + 1) * pageSize ≤ supervisorStart →
      s.Adds (body page i j s).2) (hlo : lo < hi) (h : (i * ptePerPage + hi) * pageSize ≤ supervisorStart) :
    s.Adds (clearTable body dir i lo hi s).2 := by
  unfold clearTable
  split_ifs with hpresent
  · exact .refl s
  dsimp only
  generalize kernP2v (s.entry dir i &&& pageAddrMask) = page
  have hloop : s.Adds (forRange (body page i) (hi - lo) lo s).2 := by
    apply forRange_adds
    intro j t hj
    exact hbody page j t (entry_below (by omega) h)
  generalize (forRange (body page i) (hi - lo) lo s).2 = t at hloop ⊢
  split_ifs with hexists
  · exact hloop
  · exact hloop.trans (.of_eq (pfree_touched _ _))

theorem unmapUserPages_adds (s : Machine) (dir addr n : ℕ) : s.Adds (s.unmapUserPages dir addr n).2 := by
  unfold unmapUserPages
  cases ho : outside addr n with
  | true => exact .refl s
  | false =>
    apply forPages_adds _ (range_of_outside ho)
    intro i lo hi t hlo h
    apply clearTable_adds _ hlo h
    intro _ _ _ hj
    exact unmapEntry_adds hj

theorem detachUserPages_adds (s : Machine) (dir addr n : ℕ) : s.Adds (s.detachUserPages dir addr n).2 := by
  unfold detachUserPages
  cases ho : outside addr n with
  | true => exact .refl s
  | false =>
    apply forPages_adds _ (range_of_outside ho)
    intro i lo hi t hlo h
    apply clearTable_adds _ hlo h
    intro _ _ _ hj
    exact detachEntry_adds hj

theorem getPageAddress_mod {p : ℕ} (h : getPageAddress m dir addr = some p) : p % pageSize = 0 := by
  unfold getPageAddress at h
  split_ifs at h
  obtain rfl := Option.some.inj h
  rw [kernP2v_mod]
  have hmask : (pte m dir addr &&& pageAddrMask) % 2 ^ 12 =
      pte m dir addr % 2 ^ 12 &&& pageAddrMask % 2 ^ 12 := and_mod_two_pow
  rw [show pageAddrMask % 2 ^ 12 = 0 by decide, and_zero] at hmask
  exact hmask

theorem memrcpy_adds {user : ℕ} (hn : 0 < n) (huser : user ≤ supervisorStart)
    (hle : n ≤ user % pageSize ∨ user % pageSize = 0 ∧ n ≤ pageSize ∧ n ≤ user)
    (hdest : n ≤ dest) (hmod : dest % pageSize = user % pageSize) : s.Adds (s.memrcpy user dest src n) := by
  apply adds_touch { s with mem := memrcpy.memrcpyLoop s.mem dest src n }
  simp only [Touch.Below, pageSize, supervisorStart] at *
  omega

theorem piece_len {left offset len : ℕ} (h : (if offset > left then left else offset) = len) :
    len ≤ left ∧ len ≤ offset ∧ (len = left ∨ len = offset) := by
  rw [← h]
  split_ifs <;> omega

theorem moveLoop_adds {roffset woffset : ℕ} (hread : roffset < pageSize)
    (hwrite : woffset = pageSize - roffset) (fuel : ℕ) {left q : ℕ} {s : Machine}
    (hle : dest + left ≤ supervisorStart) (hend : left = 0 ∨ (dest + left) % pageSize = 0) :
    s.Adds (moveLoop dir dest src roffset woffset fuel left q s).2 := by
  induction fuel generalizing left q s with
  | zero => exact .refl s
  | succ fuel ih =>
    unfold moveLoop
    by_cases hzero : left = 0
    · rw [if_pos hzero]
      exact .refl s
    rw [if_neg hzero]
    split
    · exact .refl s
    next p hp =>
    have hp := getPageAddress_mod hp
    generalize hlen : (if roffset > left then left else roffset) = len
    replace hlen := piece_len hlen
    dsimp only
    generalize ht : (if roffset = 0 then s
      else s.memrcpy (dest + left) (p + pageSize) (q + roffset) len) = t
    have hadds : s.Adds t := by
      rw [← ht]
      split_ifs with hro
      · exact .refl s
      · apply memrcpy_adds <;> simp only [pageSize, supervisorStart] at * <;> omega
    by_cases hdone : left - len = 0
    · rw [if_pos hdone]
      exact hadds
    rw [if_neg hdone]
    generalize hlen' : (if woffset > left - len then left - len else woffset) = len'
    replace hlen' := piece_len hlen'
    split
    · exact hadds
    apply hadds.trans
    apply Adds.trans _ (ih _ _)
    · apply memrcpy_adds <;> simp only [pageSize, supervisorStart] at * <;> omega
    · omega
    · simp only [pageSize, supervisorStart] at *
      omega

theorem moveStack_adds {pageTable bytes : ℕ} (hsrc : src < supervisorStart)
    (hdest : dest + bytes = supervisorStart) : s.Adds (s.moveStack pageTable dest src bytes).2 := by
  have hread : getOffset ((src + bytes) % 2 ^ 32) < pageSize := by
    rw [getOffset_eq]
    exact mod_lt _ (by decide)
  unfold moveStack
  rw [if_neg (by omega)]
  dsimp only
  split
  · exact .refl s
  · apply moveLoop_adds hread rfl
    · omega
    · rw [hdest]
      exact .inr (by decide)

theorem copyLoop_below {piece : Memory → ℕ → ℕ → ℕ → Memory} (fuel : ℕ)
    {p u k rest len : ℕ} (hpage : p % pageSize = u % pageSize)
    (hlen : u % pageSize + len = pageSize) (hrange : u + rest ≤ supervisorStart) :
    ∀ a ∈ (copyLoop piece dir fuel p u k rest len m).log, (Touch.copied a).Below := by
  induction fuel generalizing p u k rest len m with
  | zero =>
    intro a ha
    cases ha
  | succ fuel ih =>
    unfold copyLoop
    generalize hnow : (if rest < len then rest else len) = now
    replace hnow := piece_len hnow
    have hfirst : (Touch.copied ⟨u, p, now⟩).Below := by
      refine ⟨?_, hpage, ?_⟩
      · change u + now ≤ supervisorStart
        omega
      · change u % pageSize + now ≤ pageSize
        omega
    dsimp only
    split_ifs with hdone
    · exact List.forall_mem_singleton.mpr hfirst
    have hnext : (u + now) % 2 ^ 32 = u + now := by
      apply mod_eq_of_lt
      simp only [supervisorStart] at hrange
      omega
    rw [hnext]
    split
    · exact List.forall_mem_singleton.mpr hfirst
    next page hp =>
    have hp := getPageAddress_mod hp
    have hstart : (u + now) % pageSize = 0 := by
      simp only [pageSize] at hlen ⊢
      omega
    refine List.forall_mem_cons.mpr ⟨hfirst, ?_⟩
    apply ih
    · rw [hp, hstart]
    · rw [hstart, zero_add]
    · omega

theorem memcpyK2u_below {th : Thread} {bytes : ℕ} (hrange : dest + bytes ≤ supervisorStart) :
    ∀ a ∈ (memcpyK2u m th dest src bytes).log, (Touch.copied a).Below := by
  unfold memcpyK2u
  split_ifs with hth
  · intro a ha
    cases ha
  unfold userCopy
  split
  · intro a ha
    cases ha
  next page hp =>
  have hp := getPageAddress_mod hp
  rw [getOffset_eq]
  apply copyLoop_below
  · simp only [pageSize] at hp ⊢
    omega
  · simp only [pageSize]
    omega
  · exact hrange

end Machine

end Eotan.Mpu
