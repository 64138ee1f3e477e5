import Eotan.Lib.Copying
import Eotan.Mpu.CopySafety

namespace Eotan.Mpu

open Lib.Copying
open Function
open Nat

theorem memcpy_flat (m : Memory) (dest src n : ℕ) :
    memcpy m dest src n = flat m (fun i => dest + i) (fun i => src + i) n := by
  funext a
  unfold memcpy
  split_ifs with h
  · have hinj : Set.InjOn (fun i => dest + i) {i | i < n} := fun i _ j _ hij => add_left_cancel hij
    have hdst : dest + (a - dest) = a := by omega
    have hflat : flat m (fun i => dest + i) (fun i => src + i) n (dest + (a - dest)) = m (src + (a - dest)) :=
      flat_dst hinj (show a - dest < n by omega)
    rw [hdst] at hflat
    exact hflat.symm
  · symm
    apply flat_of_ne
    intro i hi
    omega

variable {m₀ : Memory} {dir u k n : ℕ}

def Present (m : Memory) (dir u i : ℕ) : Prop := getPageAddress m dir (nth u i) ≠ none

def physical (m : Memory) (dir u i : ℕ) : ℕ := (getPageAddress m dir (nth u i)).getD 0 + getOffset (nth u i)

variable {i page len : ℕ} {dst src : ℕ → ℕ} {piece : Memory → ℕ → ℕ → ℕ → Memory} {th : Thread}

theorem physical_add {d : ℕ} (hpage : getPageAddress m₀ dir (nth u i) = some page)
    (hd : getOffset (nth u i) + d < pageSize) : getPageAddress m₀ dir (nth u (i + d)) = some page ∧
      physical m₀ dir u (i + d) = page + getOffset (nth u i) + d := by
  obtain ⟨hpage', hoff⟩ := page_add m₀ dir hd
  refine ⟨hpage'.trans hpage, ?_⟩
  rw [physical, hpage'.trans hpage, hoff, Option.getD_some, add_assoc]

/-- A direction of the copy: which bytes are read and written, in places apart from each other and from
the tables. -/
structure Route (m₀ : Memory) (dir u k n : ℕ) (dst src : ℕ → ℕ) (piece : Memory → ℕ → ℕ → ℕ → Memory) :
    Prop where
  piece : ∀ m i page len, getPageAddress m₀ dir (nth u i) = some page →
    getOffset (nth u i) + len ≤ pageSize → piece m (page + getOffset (nth u i)) (k + i) len =
      flat m (fun d => dst (i + d)) (fun d => src (i + d)) len
  tables : ∀ i < n, Present m₀ dir u i → ¬InTables m₀ dir u n (dst i)
  apart : ∀ i < n, Present m₀ dir u i → ∀ j < n, Present m₀ dir u j → dst i ≠ src j

theorem route_k2u (htables : UserApart m₀ dir u n)
    (hapart : ∀ i < n, Present m₀ dir u i → ∀ j < n, physical m₀ dir u i ≠ k + j) :
    Route m₀ dir u k n (physical m₀ dir u) (fun i => k + i) fun m p k len => memcpy m p k len := by
  refine ⟨?_, ?_, fun i hi hp j hj _ => hapart i hi hp j hj⟩
  · intro m i page len hpage hlen
    rw [memcpy_flat]
    apply flat_congr
    · intro d hd
      exact (physical_add hpage (by omega)).2.symm
    · intro d _
      exact add_assoc k i d
  · intro i hi hp
    obtain ⟨page, hpage⟩ := Option.ne_none_iff_exists'.mp hp
    have hin := htables i hi page hpage
    rw [physical, hpage]
    exact hin

theorem route_u2k (htables : KernelApart m₀ dir u k n)
    (hapart : ∀ i < n, Present m₀ dir u i → ∀ j < n, physical m₀ dir u i ≠ k + j) :
    Route m₀ dir u k n (fun i => k + i) (physical m₀ dir u) fun m p k len => memcpy m k p len := by
  refine ⟨?_, fun i hi _ => htables i hi, fun i hi _ j hj hp => (hapart j hj hp i hi).symm⟩
  intro m i page len hpage hlen
  rw [memcpy_flat]
  apply flat_congr
  · intro d _
    exact add_assoc k i d
  · intro d hd
    exact (physical_add hpage (by omega)).2.symm

section route

variable {dst src : ℕ → ℕ} {piece : Memory → ℕ → ℕ → ℕ → Memory}

section

variable (h : Route m₀ dir u k n dst src piece) (hin : i ≤ n) (hbefore : ∀ l < i, Present m₀ dir u l)
include h hin hbefore

theorem Route.translates {j : ℕ} (hj : j < n) :
    getPageAddress (flat m₀ dst src i) dir (nth u j) = getPageAddress m₀ dir (nth u j) := by
  apply translate_agree _ hj
  intro a ha
  apply flat_of_ne
  rintro l hl rfl
  exact h.tables l (by omega) (hbefore l hl) ha

theorem Route.reads {j : ℕ} (hj : j < n) (hp : Present m₀ dir u j) : flat m₀ dst src i (src j) = m₀ (src j) := by
  apply flat_of_ne
  intro l hl heq
  exact h.apart l (by omega) (hbefore l hl) j hj hp heq.symm

end

theorem Route.step (h : Route m₀ dir u k n dst src piece) (hin : i + len ≤ n)
    (hbefore : ∀ l < i, Present m₀ dir u l) (hpage : getPageAddress m₀ dir (nth u i) = some page)
    (hlen : getOffset (nth u i) + len ≤ pageSize) : (∀ l < i + len, Present m₀ dir u l) ∧
      piece (flat m₀ dst src i) (page + getOffset (nth u i)) (k + i) len = flat m₀ dst src (i + len) := by
  have hpresent (l : ℕ) (hl : l < i + len) : Present m₀ dir u l := by
    by_cases hlt : l < i
    · exact hbefore l hlt
    · exact mapped_of_page hpage hlen (not_lt.mp hlt) hl
  refine ⟨hpresent, ?_⟩
  rw [h.piece _ i page len hpage hlen]
  apply flat_add len _ rfl
  intro d hd
  exact h.reads (by omega) hbefore (by omega) (hpresent (i + d) (by omega))

end route

/-- The whole range is copied if it is present; otherwise the bytes before the first absent page are. -/
def CopiedFlat (m₀ : Memory) (dir u n : ℕ) (dst src : ℕ → ℕ) (r : Result) : Prop :=
  (r.code = eOk ∧ (∀ j < n, Present m₀ dir u j) ∧ r.mem = flat m₀ dst src n) ∨
    (r.code = ePar ∧ ∃ j < n, ¬Present m₀ dir u j ∧ (∀ l < j, Present m₀ dir u l) ∧
      r.mem = flat m₀ dst src j)

theorem copyLoop_flat (h : Route m₀ dir u k n dst src piece) (fuel : ℕ) (hi : i < n ∨ n = 0 ∧ i = 0)
    (hfuel : n - i < fuel) (hbefore : ∀ l < i, Present m₀ dir u l)
    (hpage : getPageAddress m₀ dir (nth u i) = some page) :
    CopiedFlat m₀ dir u n dst src (copyLoop piece dir fuel (page + getOffset (nth u i)) (nth u i) (k + i)
      (n - i) (pageSize - getOffset (nth u i)) (flat m₀ dst src i)) := by
  induction fuel generalizing i page with
  | zero => exact absurd hfuel (not_lt_zero _)
  | succ fuel ih =>
    rw [copyLoop]
    generalize hlen : (if n - i < pageSize - getOffset (nth u i) then n - i
      else pageSize - getOffset (nth u i)) = len
    obtain ⟨hin, hoff, hpos, hnext⟩ := piece_bounds hi hlen
    obtain ⟨hpresent, hstep⟩ := h.step hin hbefore hpage hoff
    rw [hstep]
    split_ifs with hend
    · have hall : i + len = n := by omega
      rw [hall] at hpresent ⊢
      exact .inl ⟨rfl, hpresent, rfl⟩
    rw [nth_add, h.translates hin hpresent (by omega)]
    cases hp : getPageAddress m₀ dir (nth u (i + len)) with
    | none => exact .inr ⟨rfl, i + len, by omega, not_not.mpr hp, hpresent, rfl⟩
    | some page' =>
      have hrest := ih (.inl (by omega)) (by omega) hpresent hp
      rw [hnext hend, Nat.add_zero, Nat.sub_zero, ← Nat.add_assoc, ← Nat.sub_sub] at hrest
      exact hrest

theorem userCopy_flat (hu : u < 2 ^ 32) (h : Route m₀ (kernP2v th.cr3) u k n dst src piece) :
    (Present m₀ (kernP2v th.cr3) u 0 → CopiedFlat m₀ (kernP2v th.cr3) u n dst src (userCopy piece m₀ th u k n)) ∧
    (¬Present m₀ (kernP2v th.cr3) u 0 → (userCopy piece m₀ th u k n).code = ePar ∧
      (userCopy piece m₀ th u k n).mem = m₀) := by
  unfold Present userCopy
  rw [nth_zero hu]
  cases hp : getPageAddress m₀ (kernP2v th.cr3) u with
  | none => exact ⟨fun hne => absurd rfl hne, fun _ => ⟨rfl, rfl⟩⟩
  | some page =>
    refine ⟨fun _ => ?_, fun hno => absurd (Option.some_ne_none page) hno⟩
    have hloop := copyLoop_flat h (n + 1) (i := 0) (by omega) (by omega)
      (fun l hl => absurd hl (not_lt_zero l)) (by rw [nth_zero hu, hp])
    rw [nth_zero hu] at hloop
    exact hloop

theorem copyString_flat (len w p : ℕ) (m : Memory) (hapart : ∀ i < len, ∀ j < len, w + i ≠ p + j) :
    (∀ d < (copyString len w p m).2.1, m (p + d) ≠ 0) ∧
      ((copyString len w p m).1 = true → m (p + (copyString len w p m).2.1) = 0) ∧ (copyString len w p m).2.2 =
        flat m (fun d => w + d) (fun d => p + d) (stringRead (copyString len w p m)) := by
  induction len generalizing w p m with
  | zero => exact ⟨fun d hd => absurd hd (not_lt_zero d), fun h => Bool.noConfusion h, rfl⟩
  | succ len ih =>
    have hnext : ∀ i < len, ∀ j < len, w + 1 + i ≠ p + 1 + j := by
      intro i hi j hj heq
      exact hapart (i + 1) (by omega) (j + 1) (by omega) (by omega)
    obtain ⟨hbefore, hend, hmem⟩ := ih (w + 1) (p + 1) (update m w (m p)) hnext
    have hcount := copyString_count len (w + 1) (p + 1) (update m w (m p))
    have hread := stringRead_le len (w + 1) (p + 1) (update m w (m p))
    rw [copyString]
    split_ifs with hz
    · exact ⟨fun d hd => absurd hd (not_lt_zero d), fun _ => hz, rfl⟩
    generalize hx : copyString len (w + 1) (p + 1) (update m w (m p)) = x at *
    -- the byte just written is not read again
    have hsame (d : ℕ) (hd : d < len) : update m w (m p) (p + 1 + d) = m (p + (1 + d)) := by
      rw [add_assoc]
      exact update_of_ne (fun heq => hapart 0 (by omega) (1 + d) (by omega) heq.symm) _ _
    have hle : x.2.1 ≤ len := by
      by_cases hdone : x.1 = true
      · exact (hcount.1 hdone).le
      · exact (hcount.2 hdone).le
    refine ⟨?_, ?_, ?_⟩
    · intro d hd
      cases d with
      | zero => exact hz
      | succ d =>
        have hlt : d < x.2.1 := lt_of_succ_lt_succ hd
        rw [add_comm d 1, ← hsame d (by omega)]
        exact hbefore d hlt
    · intro hdone
      change m (p + (x.2.1 + 1)) = 0
      rw [add_comm x.2.1 1, ← hsame x.2.1 (hcount.1 hdone)]
      exact hend hdone
    · have hone : stringRead (x.1, x.2.1 + 1, x.2.2) = 1 + stringRead x := by
        unfold stringRead
        dsimp only
        split_ifs <;> omega
      have hfirst := flat_first m (fun d => w + d) (fun d => p + d) (stringRead x)
        fun d hd heq => hapart 0 (by omega) (1 + d) (by omega) heq.symm
      rw [hone, ← hfirst]
      simp only [← add_assoc]
      exact hmem

/-- The string ends inside the range, or fills it, or an absent page is met first. -/
inductive StringFlat (m₀ : Memory) (dir u n : ℕ) (dst src : ℕ → ℕ) (r : Result) : Prop
  | ends (c : ℕ) (hc : c < n) (code : r.code = c) (present : ∀ j ≤ c, Present m₀ dir u j)
      (before : ∀ j < c, m₀ (src j) ≠ 0) (nul : m₀ (src c) = 0) (mem : r.mem = flat m₀ dst src (c + 1))
  | fills (code : r.code = n) (present : ∀ j < n, Present m₀ dir u j) (before : ∀ j < n, m₀ (src j) ≠ 0)
      (mem : r.mem = flat m₀ dst src n)
  | absent (j : ℕ) (hj : j < n) (code : r.code = ePar) (absent : ¬Present m₀ dir u j)
      (present : ∀ l < j, Present m₀ dir u l) (before : ∀ l < j, m₀ (src l) ≠ 0)
      (mem : r.mem = flat m₀ dst src j)

section string

variable {piece : Memory → ℕ → ℕ → ℕ → Memory}

theorem Route.string (h : Route m₀ dir u k n (fun i => k + i) (physical m₀ dir u) piece)
    (hin : i + len ≤ n) (hbefore : ∀ l < i, Present m₀ dir u l)
    (hpage : getPageAddress m₀ dir (nth u i) = some page) (hlen : getOffset (nth u i) + len ≤ pageSize)
    {x : Bool × ℕ × Memory} (hx : copyString len (k + i) (page + getOffset (nth u i))
      (flat m₀ (fun i => k + i) (physical m₀ dir u) i) = x) : (∀ d < x.2.1, m₀ (physical m₀ dir u (i + d)) ≠ 0) ∧
      (x.1 = true → m₀ (physical m₀ dir u (i + x.2.1)) = 0) ∧
      x.2.2 = flat m₀ (fun i => k + i) (physical m₀ dir u) (i + stringRead x) := by
  have hphys (d : ℕ) (hd : d < len) :
      physical m₀ dir u (i + d) = page + getOffset (nth u i) + d := (physical_add hpage (by omega)).2
  have hpresent := (h.step hin hbefore hpage hlen).1
  have hsame (d : ℕ) (hd : d < len) : flat m₀ (fun i => k + i) (physical m₀ dir u) i
      (page + getOffset (nth u i) + d) = m₀ (physical m₀ dir u (i + d)) := by
    rw [← hphys d hd]
    exact h.reads (by omega) hbefore (by omega) (hpresent (i + d) (by omega))
  have hapart : ∀ a < len, ∀ b < len, k + i + a ≠ page + getOffset (nth u i) + b := by
    intro a ha b hb
    rw [← hphys b hb, add_assoc]
    exact h.apart (i + a) (by omega) (hpresent (i + a) (by omega)) (i + b) (by omega)
      (hpresent (i + b) (by omega))
  have hcount := copyString_count len (k + i) (page + getOffset (nth u i))
    (flat m₀ (fun i => k + i) (physical m₀ dir u) i)
  have hread := stringRead_le len (k + i) (page + getOffset (nth u i))
    (flat m₀ (fun i => k + i) (physical m₀ dir u) i)
  have hflat := copyString_flat len (k + i) (page + getOffset (nth u i))
    (flat m₀ (fun i => k + i) (physical m₀ dir u) i) hapart
  rw [hx] at hcount hread hflat
  obtain ⟨hbefore', hend, hmem⟩ := hflat
  refine ⟨?_, ?_, ?_⟩
  · intro d hd
    have hlt : d < len := by
      by_cases hdone : x.1 = true
      · exact hd.trans (hcount.1 hdone)
      · exact hd.trans_eq (hcount.2 hdone)
    rw [← hsame d hlt]
    exact hbefore' d hd
  · intro hdone
    rw [← hsame _ (hcount.1 hdone)]
    exact hend hdone
  · rw [hmem, ← flat_add (stringRead x) _ rfl]
    · apply flat_congr
      · intro d _
        exact add_assoc k i d
      · intro d hd
        exact (hphys d (by omega)).symm
    · intro d hd
      rw [hphys d (by omega), hsame d (by omega), hphys d (by omega)]

theorem stringLoop_flat (h : Route m₀ dir u k n (fun i => k + i) (physical m₀ dir u) piece) (fuel : ℕ) (hi : i < n ∨ n = 0 ∧ i = 0) (hfuel : n - i < fuel)
    (hpresent : ∀ l < i, Present m₀ dir u l) (hbefore : ∀ l < i, m₀ (physical m₀ dir u l) ≠ 0)
    (hpage : getPageAddress m₀ dir (nth u i) = some page) :
    StringFlat m₀ dir u n (fun i => k + i) (physical m₀ dir u)
      (stringLoop dir n fuel (page + getOffset (nth u i)) (nth u i) (k + i) (n - i)
        (pageSize - getOffset (nth u i)) (flat m₀ (fun i => k + i) (physical m₀ dir u) i)) := by
  induction fuel generalizing i page with
  | zero => exact absurd hfuel (not_lt_zero _)
  | succ fuel ih =>
    rw [stringLoop]
    generalize hlen : (if n - i < pageSize - getOffset (nth u i) then n - i
      else pageSize - getOffset (nth u i)) = len
    obtain ⟨hin, hoff, hpos, hnext⟩ := piece_bounds hi hlen
    have hcount := copyString_count len (k + i) (page + getOffset (nth u i))
      (flat m₀ (fun i => k + i) (physical m₀ dir u) i)
    have hstep := h.string hin hpresent hpage hoff rfl
    have hpresent' := (h.step hin hpresent hpage hoff).1
    generalize copyString len (k + i) (page + getOffset (nth u i))
      (flat m₀ (fun i => k + i) (physical m₀ dir u) i) = x at *
    obtain ⟨hbefore', hnul, hmem⟩ := hstep
    have hnonzero (l : ℕ) (hl : l < i + x.2.1) : m₀ (physical m₀ dir u l) ≠ 0 := by
      by_cases hlt : l < i
      · exact hbefore l hlt
      · have hsplit : i + (l - i) = l := by omega
        rw [← hsplit]
        exact hbefore' (l - i) (by omega)
    by_cases hdone : x.1 = true
    · -- the end of the string is in this page
      have hlt := hcount.1 hdone
      have hread : stringRead x = x.2.1 + 1 := if_pos hdone
      rw [if_pos (.inl hdone)]
      refine .ends (i + x.2.1) (by omega) ?_ (fun j hj => hpresent' j (by omega)) hnonzero (hnul hdone) ?_
      · dsimp only
        congr 1
        omega
      · rw [hmem, hread, add_assoc]
    · have heq : x.2.1 = len := hcount.2 hdone
      have hread : stringRead x = len := (if_neg hdone).trans heq
      rw [heq] at hnonzero ⊢
      rw [hread] at hmem
      by_cases hend : n - i - len = 0
      · have hall : i + len = n := by omega
        rw [if_pos (.inr hend), hend]
        rw [hall] at hnonzero hpresent' hmem
        exact .fills rfl hpresent' hnonzero hmem
      rw [if_neg (not_or.mpr ⟨hdone, hend⟩), nth_add, hmem, h.translates hin hpresent' (by omega)]
      cases hp : getPageAddress m₀ dir (nth u (i + len)) with
      | none => exact .absent (i + len) (by omega) rfl (not_not.mpr hp) hpresent' hnonzero rfl
      | some page' =>
        have hrest := ih (.inl (by omega)) (by omega) hpresent' hnonzero hp
        rw [hnext hend, Nat.add_zero, Nat.sub_zero, ← Nat.add_assoc, ← Nat.sub_sub] at hrest
        rcases hrest with ⟨c, hc, code, present, before, nul, mem⟩ | ⟨code, present, before, mem⟩ |
          ⟨j, hj, code, absent, present, before, mem⟩
        · exact .ends c hc code present before nul mem
        · exact .fills code present before mem
        · exact .absent j hj code absent present before mem

end string

def Complete (m : Memory) (dir u n : ℕ) : Prop := Present m dir u 0 ∧ ∀ i < n, Present m dir u i

structure FlatCopies (m : Memory) (dir u n : ℕ) (dst src : ℕ → ℕ) (r : Result) : Prop where
  ok : Complete m dir u n → r.code = eOk ∧ r.mem = flat m dst src n
  failed : ¬Complete m dir u n → r.code = ePar
  frame : ∀ a, (∀ i < n, Present m dir u i → a ≠ dst i) → r.mem a = m a

structure FlatString (m : Memory) (dir u n : ℕ) (dst src : ℕ → ℕ) (r : Result) : Prop where
  ends : ∀ c < n, (∀ j ≤ c, Present m dir u j) → (∀ j < c, m (src j) ≠ 0) → m (src c) = 0 →
    r.code = c ∧ r.mem = flat m dst src (c + 1)
  fills : Complete m dir u n → (∀ j < n, m (src j) ≠ 0) → r.code = n ∧ r.mem = flat m dst src n
  failed : r.code = ePar ↔
    ¬Present m dir u 0 ∨ ∃ j < n, ¬Present m dir u j ∧ ∀ l < j, Present m dir u l ∧ m (src l) ≠ 0
  frame : ∀ a, (∀ i < n, Present m dir u i → a ≠ dst i) → r.mem a = m a

theorem userCopy_copies (hu : u < 2 ^ 32) (h : Route m₀ (kernP2v th.cr3) u k n dst src piece) :
    FlatCopies m₀ (kernP2v th.cr3) u n dst src (userCopy piece m₀ th u k n) := by
  obtain ⟨hstart, hnostart⟩ := userCopy_flat hu h
  by_cases hp : Present m₀ (kernP2v th.cr3) u 0
  · rcases hstart hp with ⟨hcode, hall, hmem⟩ | ⟨hcode, j, hj, hno, hbefore, hmem⟩
    · refine ⟨fun _ => ⟨hcode, hmem⟩, fun hno => absurd ⟨hp, hall⟩ hno, fun a ha => ?_⟩
      rw [hmem]
      exact flat_of_ne fun i hi => ha i hi (hall i hi)
    · refine ⟨fun hall => absurd (hall.2 j hj) hno, fun _ => hcode, fun a ha => ?_⟩
      rw [hmem]
      exact flat_of_ne fun i hi => ha i (by omega) (hbefore i hi)
  · obtain ⟨hcode, hmem⟩ := hnostart hp
    exact ⟨fun hall => absurd hall.1 hp, fun _ => hcode, fun a _ => congrFun hmem a⟩

theorem code_ne_ePar (c : ℕ) : (c : ℤ) ≠ ePar := by
  unfold ePar
  omega

theorem StringFlat.copies {r : Result} (h : StringFlat m₀ dir u n dst src r)
    (hp : Present m₀ dir u 0) : FlatString m₀ dir u n dst src r := by
  cases h with
  | ends c hc hcode hpresent hbefore hnul hmem =>
    refine ⟨?_, ?_, ?_, ?_⟩
    · intro c' _ _ hbefore' hnul'
      obtain rfl : c' = c := by
        by_contra hne
        rcases lt_or_gt_of_ne hne with hlt | hlt
        · exact hbefore c' hlt hnul'
        · exact hbefore' c hlt hnul
      exact ⟨hcode, hmem⟩
    · intro _ hnonzero
      exact absurd hnul (hnonzero c hc)
    · refine iff_of_false (hcode ▸ code_ne_ePar c) ?_
      rintro (hno | ⟨j, _, hno, hall⟩)
      · exact hno hp
      · by_cases hle : j ≤ c
        · exact hno (hpresent j hle)
        · exact (hall c (by omega)).2 hnul
    · intro a ha
      rw [hmem]
      exact flat_of_ne fun i hi => ha i (by omega) (hpresent i (by omega))
  | fills hcode hpresent hbefore hmem =>
    refine ⟨fun c hc _ _ hnul => absurd hnul (hbefore c hc), fun _ _ => ⟨hcode, hmem⟩, ?_, ?_⟩
    · refine iff_of_false (hcode ▸ code_ne_ePar n) ?_
      rintro (hno | ⟨j, hj, hno, -⟩)
      · exact hno hp
      · exact hno (hpresent j hj)
    · intro a ha
      rw [hmem]
      exact flat_of_ne fun i hi => ha i hi (hpresent i hi)
  | absent j hj hcode hno hpresent hbefore hmem =>
    refine ⟨?_, fun hall => absurd (hall.2 j hj) hno, ?_, ?_⟩
    · intro c _ hpresent' _ hnul
      by_cases hle : j ≤ c
      · exact absurd (hpresent' j hle) hno
      · exact absurd hnul (hbefore c (by omega))
    · exact iff_of_true hcode (.inr ⟨j, hj, hno, fun l hl => ⟨hpresent l hl, hbefore l hl⟩⟩)
    · intro a ha
      rw [hmem]
      exact flat_of_ne fun i hi => ha i (by omega) (hpresent i hi)

theorem strncpyU2k_copies (hth : isKthread th = false) (hu : u < 2 ^ 32)
    (h : Route m₀ (kernP2v th.cr3) u k n (fun i => k + i) (physical m₀ (kernP2v th.cr3) u) piece) :
    FlatString m₀ (kernP2v th.cr3) u n (fun i => k + i) (physical m₀ (kernP2v th.cr3) u)
      (strncpyU2k m₀ th k u n) := by
  rw [strncpyU2k, if_neg (by rw [hth]; decide)]
  cases hp : getPageAddress m₀ (kernP2v th.cr3) u with
  | none =>
    have hno : ¬Present m₀ (kernP2v th.cr3) u 0 := by
      unfold Present
      rw [nth_zero hu]
      exact not_not.mpr hp
    refine ⟨?_, fun hall => absurd hall.1 hno, iff_of_true rfl (.inl hno), fun _ _ => rfl⟩
    intro c _ hpresent
    exact absurd (hpresent 0 (zero_le c)) hno
  | some page =>
    have hpage : getPageAddress m₀ (kernP2v th.cr3) (nth u 0) = some page := by rw [nth_zero hu, hp]
    have hloop := stringLoop_flat h (n + 1) (i := 0) (by omega) (by omega)
      (fun l hl => absurd hl (not_lt_zero l)) (fun l hl => absurd hl (not_lt_zero l)) hpage
    rw [nth_zero hu] at hloop
    apply hloop.copies
    unfold Present
    rw [hpage]
    exact Option.some_ne_none page

def BufferApart (m : Memory) (dir u k n : ℕ) : Prop :=
  ∀ i < n, Present m dir u i → ∀ j < n, physical m dir u i ≠ k + j

theorem user_copies_flat (m : Memory) (th : Thread) (dest src n : ℕ) (hth : isKthread th = false)
    (hd : dest < 2 ^ 32) (hs : src < 2 ^ 32) :
    (UserApart m (kernP2v th.cr3) dest n → BufferApart m (kernP2v th.cr3) dest src n →
      FlatCopies m (kernP2v th.cr3) dest n (physical m (kernP2v th.cr3) dest) (fun i => src + i)
        (memcpyK2u m th dest src n)) ∧
    (KernelApart m (kernP2v th.cr3) src dest n → BufferApart m (kernP2v th.cr3) src dest n →
      FlatCopies m (kernP2v th.cr3) src n (fun i => dest + i) (physical m (kernP2v th.cr3) src)
        (memcpyU2k m th dest src n)) ∧
    (KernelApart m (kernP2v th.cr3) src dest n → BufferApart m (kernP2v th.cr3) src dest n → n < 2 ^ 31 →
      FlatString m (kernP2v th.cr3) src n (fun i => dest + i) (physical m (kernP2v th.cr3) src)
        (strncpyU2k m th dest src n)) := by
  have huser : ¬isKthread th = true := by
    rw [hth]
    decide
  rw [memcpyK2u, memcpyU2k, if_neg huser, if_neg huser]
  refine ⟨?_, ?_, ?_⟩
  · intro htables hbuffer
    exact userCopy_copies hd (route_k2u htables hbuffer)
  · intro htables hbuffer
    exact userCopy_copies hs (route_u2k htables hbuffer)
  · intro htables hbuffer _
    exact strncpyU2k_copies hth hs (route_u2k htables hbuffer)

theorem user_copies_flat_onePage :
    KernelApart (onePage 7) (kernP2v userThread.cr3) 0x80400000 0x80006000 2 ∧
      BufferApart (onePage 7) (kernP2v userThread.cr3) 0x80400000 0x80006000 2 ∧
      FlatString (onePage 7) (kernP2v userThread.cr3) 0x80400000 2 (fun i => 0x80006000 + i)
        (physical (onePage 7) (kernP2v userThread.cr3) 0x80400000)
        (strncpyU2k (onePage 7) userThread 0x80006000 0x80400000 2) := by
  have hdir : ∀ i < 2,
      kernP2v userThread.cr3 + 4 * getDirectoryOffset (nth 0x80400000 i) = 0x80001804 := by decide +kernel
  have htable : ∀ i < 2, tableOf (onePage 7) (kernP2v userThread.cr3) (nth 0x80400000 i) +
      4 * getPageOffset (nth 0x80400000 i) = 0x80002000 := by decide +kernel
  have hphys : ∀ i < 2, physical (onePage 7) (kernP2v userThread.cr3) 0x80400000 i = 0x80003000 + i := by
    decide +kernel
  have htables : KernelApart (onePage 7) (kernP2v userThread.cr3) 0x80400000 0x80006000 2 := by
    rintro i hi ⟨j, hj, ⟨r, hr, heq⟩ | ⟨r, hr, heq⟩⟩
    · rw [hdir j hj] at heq
      omega
    · rw [htable j hj] at heq
      omega
  have hbuffer : BufferApart (onePage 7) (kernP2v userThread.cr3) 0x80400000 0x80006000 2 := by
    intro i hi _ j hj heq
    rw [hphys i hi] at heq
    omega
  exact ⟨htables, hbuffer, (user_copies_flat (onePage 7) userThread 0x80006000 0x80400000 2 rfl (by decide)
    (by decide)).2.2 htables hbuffer (by decide)⟩

theorem strncpy_leaves_out_nul :
    onePage 7 (physical (onePage 7) (kernP2v userThread.cr3) 0x80400000 0) ≠ 0 ∧
      onePage 7 (physical (onePage 7) (kernP2v userThread.cr3) 0x80400000 1) = 0 ∧
      (strncpyU2k (onePage 7) userThread 0x80006000 0x80400000 8).code = 1 ∧
      (memcpyU2k (onePage 7) userThread 0x80006000 0x80800000 0).code = ePar ∧
      (memcpyK2u (onePage 7) userThread 0x80800000 0x80006000 0).code = ePar := by
  decide +kernel

end Eotan.Mpu
