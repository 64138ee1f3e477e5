import Eotan.Mm.Semaphore

namespace Eotan.Mm

open Fs (Errno)
open Function
open List

def Sems.sem (s : Sems) (key : ℕ) : Semaphore := (s.tree key).getD ⟨0, []⟩

def Sems.waitingOf (s : Sems) (key : ℕ) : List ℕ := (s.sem key).threads.map s.tagOf

variable {out : List Effect} {s s' : Sems}

section Ledger

variable (key : ℕ)

def takenOf (out : List Effect) : ℤ :=
  (out.map fun e => match e with
    | .acquired k _ | .granted k _ => if k = key then (1 : ℤ) else 0
    | _ => 0).sum

def amountOf (out : List Effect) : ℤ :=
  (out.map fun e => match e with
    | .released k _ amount _ => if k = key then amount else 0
    | _ => 0).sum

def beganOf (out : List Effect) : List ℕ :=
  out.filterMap fun e => match e with
    | .waiting k tag => if k = key then some tag else none
    | _ => none

def grantedOf (out : List Effect) : List ℕ :=
  out.filterMap fun e => match e with
    | .granted k tag => if k = key then some tag else none
    | _ => none

def diedOf (out : List Effect) : List ℕ :=
  out.filterMap fun e => match e with
    | .died k tag => if k = key then some tag else none
    | _ => none

structure Move (s s' : Sems) (out : List Effect) : Prop where
  balance : (s'.sem key).count + takenOf key out = (s.sem key).count + amountOf key out
  order : (grantedOf key out ++ s'.waitingOf key).Sublist (s.waitingOf key ++ beganOf key out)
  once : (s.waitingOf key ++ beganOf key out).Perm
    (grantedOf key out ++ diedOf key out ++ s'.waitingOf key)

variable {key}

section

variable (l l' : List Effect)

theorem takenOf_append : takenOf key (l ++ l') = takenOf key l + takenOf key l' := by
  simp [takenOf]

theorem amountOf_append : amountOf key (l ++ l') = amountOf key l + amountOf key l' := by
  simp [amountOf]

theorem beganOf_append : beganOf key (l ++ l') = beganOf key l ++ beganOf key l' := filterMap_append

theorem grantedOf_append : grantedOf key (l ++ l') = grantedOf key l ++ grantedOf key l' := filterMap_append

theorem diedOf_append : diedOf key (l ++ l') = diedOf key l ++ diedOf key l' := filterMap_append

end

theorem Move.trans {s1 s2 s3 : Sems} {l l' : List Effect} (h : Move key s1 s2 l)
    (h' : Move key s2 s3 l') : Move key s1 s3 (l ++ l') := by
  refine ⟨?_, ?_, ?_⟩
  · have := h.balance
    have := h'.balance
    rw [takenOf_append, amountOf_append]
    omega
  · rw [grantedOf_append, beganOf_append, append_assoc, ← append_assoc (s1.waitingOf key)]
    refine (h'.order.append_left (grantedOf key l)).trans ?_
    rw [← append_assoc]
    exact h.order.append_right _
  · rw [grantedOf_append, beganOf_append, diedOf_append, ← append_assoc]
    refine (h.once.append_right _).trans ?_
    rw [append_assoc _ (s2.waitingOf key)]
    refine (h'.once.append_left _).trans ?_
    simp only [append_assoc]
    apply List.Perm.append_left
    exact perm_append_comm_assoc _ _ _

theorem Move.still (hsem : s'.sem key = s.sem key)
    (htags : ∀ tid ∈ (s.sem key).threads, s'.tagOf tid = s.tagOf tid)
    (hout : takenOf key out = 0 ∧ amountOf key out = 0 ∧ beganOf key out = [] ∧
      grantedOf key out = [] ∧ diedOf key out = []) : Move key s s' out := by
  obtain ⟨htaken, hamount, hbegan, hgranted, hdied⟩ := hout
  have hwaiting : s'.waitingOf key = s.waitingOf key := by
    rw [Sems.waitingOf, hsem]
    exact map_congr_left htags
  refine ⟨?_, ?_, ?_⟩
  · rw [hsem, htaken, hamount]
  · rw [hgranted, hbegan, hwaiting, append_nil]
    exact List.Sublist.refl _
  · rw [hgranted, hbegan, hdied, hwaiting, append_nil]
    exact List.Perm.refl _

end Ledger

structure Sems.Ok (s : Sems) : Prop where
  waits : ∀ key tid, tid ∈ (s.sem key).threads → ∃ tag, s.threads tid = some (some ⟨key, tag⟩)
  listed : ∀ tid wait, s.threads tid = some (some wait) → tid ∈ (s.sem wait.obj).threads
  nodup : ∀ key, (s.sem key).threads.Nodup
  range : ∀ key, longMin ≤ (s.sem key).count ∧ (s.sem key).count ≤ longMax
  settled : ∀ key, 0 < (s.sem key).count → (s.sem key).threads = []

namespace Sems

variable {k key tid : ℕ}

section Views

variable {s : Sems} {key tid : ℕ}

theorem sem_of_tree {sem : Semaphore} (h : s.tree key = some sem) : s.sem key = sem := by
  rw [Sems.sem, h]
  rfl

theorem sem_setSemaphore_self (s : Sems) (key : ℕ) (sem : Semaphore) :
    (s.setSemaphore key sem).sem key = sem := by
  simp [Sems.sem, setSemaphore]

theorem sem_setSemaphore_ne (s : Sems) (sem : Semaphore) (h : k ≠ key) :
    (s.setSemaphore key sem).sem k = s.sem k := by
  simp [Sems.sem, setSemaphore, h]

theorem threads_setSemaphore (s : Sems) (key : ℕ) (sem : Semaphore) :
    (s.setSemaphore key sem).threads = s.threads := rfl

theorem sem_setWait (s : Sems) (tid : ℕ) (wait : Option Wait) : (s.setWait tid wait).sem = s.sem := rfl

theorem tagOf_congr (h : s'.threads tid = s.threads tid) : s'.tagOf tid = s.tagOf tid := by
  rw [tagOf, tagOf, h]

theorem tagOf_eq {tag obj : ℕ} (h : s.threads tid = some (some ⟨obj, tag⟩)) : s.tagOf tid = tag := by
  rw [tagOf, h]

theorem Ok.key_eq (h : s.Ok) (h1 : tid ∈ (s.sem key).threads) (h2 : tid ∈ (s.sem k).threads) : k = key := by
  obtain ⟨tag1, h1⟩ := h.waits key tid h1
  obtain ⟨tag2, h2⟩ := h.waits k tid h2
  rw [h1] at h2
  cases h2
  rfl

theorem Ok.mem_iff (h : s.Ok) :
    tid ∈ (s.sem k).threads ↔ ∃ tag, s.threads tid = some (some ⟨k, tag⟩) :=
  ⟨h.waits k tid, fun ⟨tag, hwait⟩ => h.listed tid ⟨k, tag⟩ hwait⟩

theorem Ok.not_mem (h : s.Ok) (hfree : s.threads tid = none ∨ s.threads tid = some none) :
    tid ∉ (s.sem key).threads := by
  intro hmem
  obtain ⟨tag, hwait⟩ := h.waits key tid hmem
  rw [hwait] at hfree
  rcases hfree with h | h <;> cases h

end Views

theorem find_spec {found : Except Errno ℕ} {slab : Option Errno}
    {sem : Semaphore} (h : s.find found slab = .ok (key, sem, s')) :
    found = .ok key ∧ s'.sem = s.sem ∧ s'.threads = s.threads ∧ sem = s.sem key := by
  unfold find at h
  cases found with
  | error e => cases h
  | ok k =>
    simp only at h
    cases htree : s.tree k with
    | some sem0 =>
      simp only [htree] at h
      cases h
      exact ⟨rfl, rfl, rfl, (sem_of_tree htree).symm⟩
    | none =>
      simp only [htree] at h
      cases slab with
      | some e => cases h
      | none =>
        cases h
        have hsem : s.sem key = ⟨0, []⟩ := by
          rw [Sems.sem, htree]
          rfl
        refine ⟨rfl, ?_, rfl, hsem.symm⟩
        funext k'
        by_cases hk : k' = key
        · rw [hk, sem_setSemaphore_self, hsem]
        · rw [sem_setSemaphore_ne _ _ hk]

theorem Ok.congr (h : s.Ok) (hsem : s'.sem = s.sem) (hthreads : s'.threads = s.threads) : s'.Ok := by
  refine ⟨?_, ?_, ?_, ?_, ?_⟩
  · rw [hsem, hthreads]
    exact h.waits
  · rw [hsem, hthreads]
    exact h.listed
  · rw [hsem]
    exact h.nodup
  · rw [hsem]
    exact h.range
  · rw [hsem]
    exact h.settled

theorem Move.congr {s1 : Sems} (hsem : s1.sem = s.sem)
    (hthreads : s1.threads = s.threads) (h : Move k s1 s' out) : Move k s s' out := by
  have hwaiting : s1.waitingOf k = s.waitingOf k := by
    rw [waitingOf, hsem]
    exact map_congr_left fun tid _ => tagOf_congr (congrFun hthreads tid)
  have hbalance := h.balance
  rw [hsem] at hbalance
  exact ⟨hbalance, hwaiting ▸ h.order, hwaiting ▸ h.once⟩

/-- Only the semaphore `key` has changed, and no thread that waits for another one. -/
theorem Ok.change {sem : Semaphore} (h : s.Ok) (hself : s'.sem key = sem)
    (hne : ∀ k, k ≠ key → s'.sem k = s.sem k)
    (hmem : ∀ tid, tid ∈ sem.threads ↔ ∃ tag, s'.threads tid = some (some ⟨key, tag⟩))
    (hother : ∀ k tid, k ≠ key → (tid ∈ (s.sem k).threads ↔ ∃ tag, s'.threads tid = some (some ⟨k, tag⟩)))
    (hnodup : sem.threads.Nodup)
    (hrange : longMin ≤ sem.count ∧ sem.count ≤ longMax)
    (hsettled : 0 < sem.count → sem.threads = []) : s'.Ok := by
  subst hself
  have heach (k : ℕ) : (s'.sem k).threads.Nodup ∧ (longMin ≤ (s'.sem k).count ∧ (s'.sem k).count ≤ longMax) ∧
      (0 < (s'.sem k).count → (s'.sem k).threads = []) := by
    by_cases hk : k = key
    · subst hk
      exact ⟨hnodup, hrange, hsettled⟩
    · rw [hne k hk]
      exact ⟨h.nodup k, h.range k, h.settled k⟩
  have hall (k tid : ℕ) : tid ∈ (s'.sem k).threads ↔ ∃ tag, s'.threads tid = some (some ⟨k, tag⟩) := by
    by_cases hk : k = key
    · rw [hk]
      exact hmem tid
    · rw [hne k hk]
      exact hother k tid hk
  refine ⟨?_, ?_, fun k => (heach k).1, fun k => (heach k).2.1, fun k => (heach k).2.2⟩
  · exact fun k tid => (hall k tid).mp
  · exact fun tid wait hwait => (hall wait.obj tid).mpr ⟨wait.tag, hwait⟩

theorem Ok.setCount (h : s.Ok) {count : ℤ}
    (hrange : longMin ≤ count ∧ count ≤ longMax) (hsettled : 0 < count → (s.sem key).threads = []) :
    (s.setSemaphore key ⟨count, (s.sem key).threads⟩).Ok := by
  apply h.change (sem_setSemaphore_self ..) fun k hk => sem_setSemaphore_ne _ _ hk
  · exact fun _ => h.mem_iff
  · exact fun _ _ _ => h.mem_iff
  · exact h.nodup key
  · exact hrange
  · exact hsettled

theorem Ok.enqueue (h : s.Ok) (tag : ℕ) (hfree : s.threads tid = some none)
    (hcount : ¬0 < (s.sem key).count) : ((s.setWait tid (some ⟨key, tag⟩)).setSemaphore key
      { s.sem key with threads := (s.sem key).threads ++ [tid] }).Ok := by
  have hnot (k : ℕ) : tid ∉ (s.sem k).threads := h.not_mem (.inr hfree)
  have hother {tid' : ℕ} (hne : tid' ≠ tid) :
      (s.setWait tid (some ⟨key, tag⟩)).threads tid' = s.threads tid' := by
    simp [setWait, hne]
  have hself : (s.setWait tid (some ⟨key, tag⟩)).threads tid = some (some ⟨key, tag⟩) := by
    simp [setWait]
  apply h.change (sem_setSemaphore_self (s.setWait tid _) key _)
    fun k hk => sem_setSemaphore_ne (s.setWait tid _) _ hk
  · intro tid'
    rw [threads_setSemaphore]
    by_cases htid : tid' = tid
    · rw [htid, hself]
      simp
    · rw [hother htid, ← h.mem_iff]
      simp [htid]
  · intro k tid' hk
    rw [threads_setSemaphore]
    by_cases htid : tid' = tid
    · rw [htid, hself]
      simp [hnot k, Ne.symm hk]
    · rw [hother htid, ← h.mem_iff]
  · rw [nodup_append_comm]
    exact nodup_cons.mpr ⟨hnot key, h.nodup key⟩
  · exact h.range key
  · exact fun hpos => absurd hpos hcount

theorem grants_spec (count : ℤ) (l : List ℕ) :
    ∃ left granted waiting, grants count l = (left, granted, waiting) ∧ l = granted ++ waiting ∧
      left = count - granted.length ∧ (0 < left → waiting = []) ∧ (granted ≠ [] → 0 ≤ left) := by
  induction l generalizing count with
  | nil => exact ⟨count, [], [], rfl, rfl, by simp, fun _ => rfl, by simp⟩
  | cons tid rest ih =>
    by_cases hcount : 0 < count
    · obtain ⟨left, granted, waiting, heq, hl, hleft, hnil, hpos⟩ := ih (count - 1)
      refine ⟨left, tid :: granted, waiting, ?_, ?_, ?_, hnil, ?_⟩
      · rw [grants, if_pos hcount, heq]
      · rw [hl, cons_append]
      · rw [hleft, length_cons]
        push_cast
        omega
      · intro _
        by_cases hg : granted = []
        · rw [hg] at hleft
          simp at hleft
          omega
        · exact hpos hg
    · exact ⟨count, [], tid :: rest, by rw [grants, if_neg hcount], rfl, by simp,
        fun h => absurd h hcount, by simp⟩

theorem foldl_setWait_tree (l : List ℕ) (s : Sems) :
    (l.foldl (fun s tid => s.setWait tid none) s).sem = s.sem := by
  induction l generalizing s with
  | nil => rfl
  | cons tid rest ih => rw [foldl_cons, ih, sem_setWait]

theorem foldl_setWait_threads (l : List ℕ) (s : Sems) (tid : ℕ) :
    (l.foldl (fun s tid => s.setWait tid none) s).threads tid =
      if tid ∈ l then some none else s.threads tid := by
  induction l generalizing s with
  | nil => simp
  | cons tid' rest ih =>
    rw [foldl_cons, ih]
    by_cases hmem : tid ∈ rest
    · simp [hmem]
    · by_cases heq : tid = tid' <;> simp [hmem, heq, setWait]

section

variable (s : Sems) (key k : ℕ) (l : List ℕ)

theorem grantedOf_map : grantedOf k (l.map fun tid => Effect.granted key (s.tagOf tid)) =
      if key = k then l.map s.tagOf else [] := by
  by_cases hk : key = k <;> simp [grantedOf, filterMap_map, hk]

theorem takenOf_map : takenOf k (l.map fun tid => Effect.granted key (s.tagOf tid)) =
      if key = k then (l.length : ℤ) else 0 := by
  by_cases hk : key = k <;> simp [takenOf, hk, comp_def]

theorem others_map : amountOf k (l.map fun tid => Effect.granted key (s.tagOf tid)) = 0 ∧
      beganOf k (l.map fun tid => Effect.granted key (s.tagOf tid)) = [] ∧
      diedOf k (l.map fun tid => Effect.granted key (s.tagOf tid)) = [] := by
  simp [amountOf, beganOf, diedOf, filterMap_map, comp_def]

end

theorem release_spec (h : s.Ok) (key tag : ℕ) {amount : ℤ}
    (hrange : longMin ≤ (s.sem key).count + amount ∧ (s.sem key).count + amount ≤ longMax) :
    let sem : Semaphore := { s.sem key with count := (s.sem key).count + amount }
    (s.release key sem).2.Ok ∧ ∀ k, Move k s (s.release key sem).2
        ((s.release key sem).1 ++ [.released key tag amount sem.count]) := by
  intro sem
  obtain ⟨left, granted, waiting, heq, hl, hleft, hnil, hpos⟩ := grants_spec sem.count sem.threads
  have hl : (s.sem key).threads = granted ++ waiting := hl
  have hnodup := h.nodup key
  rw [hl] at hnodup
  have hdisjoint : ∀ tid ∈ waiting, tid ∉ granted := fun tid hw hg =>
    disjoint_of_nodup_append hnodup hg hw
  have hgranted : ∀ tid ∈ granted, tid ∈ (s.sem key).threads := by
    intro tid htid
    rw [hl]
    exact mem_append_left _ htid
  -- the threads of other semaphores are not granted here
  have hother {k tid : ℕ} (hk : k ≠ key) (hmem : tid ∈ (s.sem k).threads) : tid ∉ granted :=
    fun hg => hk (h.key_eq (hgranted tid hg) hmem)
  have hrelease : s.release key sem = (granted.map fun tid => .granted key (s.tagOf tid),
      granted.foldl (fun s tid => s.setWait tid none) (s.setSemaphore key ⟨left, waiting⟩)) := by
    rw [release, heq]
  rw [hrelease]
  have hthreads (tid : ℕ) := foldl_setWait_threads granted (s.setSemaphore key ⟨left, waiting⟩) tid
  have hself : (granted.foldl (fun s tid => s.setWait tid none)
      (s.setSemaphore key ⟨left, waiting⟩)).sem key = ⟨left, waiting⟩ := by
    rw [foldl_setWait_tree, sem_setSemaphore_self]
  have hne {k : ℕ} (hk : k ≠ key) : (granted.foldl (fun s tid => s.setWait tid none)
      (s.setSemaphore key ⟨left, waiting⟩)).sem k = s.sem k := by
    rw [foldl_setWait_tree, sem_setSemaphore_ne _ _ hk]
  generalize granted.foldl (fun s tid => s.setWait tid none)
    (s.setSemaphore key ⟨left, waiting⟩) = s' at hthreads hself hne ⊢
  have hkept {tid : ℕ} (htid : tid ∉ granted) : s'.threads tid = s.threads tid := by
    rw [hthreads, if_neg htid]
    rfl
  constructor
  · apply h.change hself fun k hk => hne hk
    · intro tid
      by_cases hg : tid ∈ granted
      · rw [hthreads, if_pos hg]
        simp only [Option.some.injEq, reduceCtorEq, exists_false, iff_false]
        exact fun hmem => hdisjoint tid hmem hg
      · rw [hkept hg, ← h.mem_iff, hl]
        simp [hg]
    · intro k tid hk
      by_cases hg : tid ∈ granted
      · rw [hthreads, if_pos hg]
        simp only [Option.some.injEq, reduceCtorEq, exists_false, iff_false]
        exact fun hmem => hother hk hmem hg
      · rw [hkept hg, ← h.mem_iff]
    · exact (nodup_append.mp hnodup).2.1
    · have hcount : sem.count = (s.sem key).count + amount := rfl
      rw [hcount] at hleft
      constructor
      · by_cases hg : granted = []
        · rw [hg] at hleft
          simp only [length_nil, Nat.cast_zero, sub_zero] at hleft
          rw [hleft]
          exact hrange.1
        · exact le_trans (by decide) (hpos hg)
      · change left ≤ longMax
        omega
    · exact hnil
  · intro k
    obtain ⟨hamount, hbegan, hdied⟩ := others_map s key k granted
    by_cases hk : k = key
    · subst hk
      have hwaiting : s'.waitingOf k = waiting.map s.tagOf := by
        rw [waitingOf, hself]
        exact map_congr_left fun tid htid => tagOf_congr (hkept (hdisjoint tid htid))
      have hall : s.waitingOf k = granted.map s.tagOf ++ waiting.map s.tagOf := by
        rw [waitingOf, hl, map_append]
      refine ⟨?_, ?_, ?_⟩
      · rw [takenOf_append, amountOf_append, takenOf_map, hamount, hself, if_pos rfl]
        simp only [takenOf, amountOf, map_cons, map_nil, sum_cons, sum_nil, if_true]
        have hcount : sem.count = (s.sem k).count + amount := rfl
        omega
      · rw [grantedOf_append, beganOf_append, grantedOf_map, if_pos rfl, hbegan, hwaiting, hall]
        simp [grantedOf, beganOf]
      · rw [grantedOf_append, beganOf_append, diedOf_append, grantedOf_map, if_pos rfl, hbegan,
          hdied, hwaiting, hall]
        simp [grantedOf, beganOf, diedOf]
    · refine Move.still (hne hk) (fun tid hmem => tagOf_congr (hkept (hother hk hmem))) ⟨?_, ?_, ?_, ?_, ?_⟩
      · rw [takenOf_append, takenOf_map, if_neg (Ne.symm hk)]
        simp [takenOf]
      · rw [amountOf_append, hamount]
        simp [amountOf, Ne.symm hk]
      · rw [beganOf_append, hbegan]
        rfl
      · rw [grantedOf_append, grantedOf_map, if_neg (Ne.symm hk)]
        rfl
      · rw [diedOf_append, hdied]
        rfl

theorem int32_range (amount : Int32) : longMin ≤ amount.toInt ∧ amount.toInt ≤ longMax :=
  ⟨Int32.le_toInt amount, Int32.toInt_le amount⟩

theorem overflows_iff {count : ℤ} (hcount : longMin ≤ count ∧ count ≤ longMax) (amount : Int32) :
    overflows count amount.toInt = false ↔ longMin ≤ count + amount.toInt ∧ count + amount.toInt ≤ longMax := by
  have hamount := int32_range amount
  unfold overflows
  split_ifs with hpos
  · rw [decide_eq_false_iff_not]
    simp only [longMin, longMax] at *
    omega
  · rw [decide_eq_false_iff_not]
    simp only [longMin, longMax] at *
    omega

/-- What may happen next: a thread that waits sends nothing, and a new thread has a free id. -/
def Possible (s : Sems) : SemStep → Prop
  | .acquire tid _ _ _ _ | .release tid _ _ _ _ => ∀ wait, s.threads tid ≠ some (some wait)
  | .create tid => s.threads tid = none
  | .destroy _ => True

theorem Move.refl_of (hout : takenOf k out = 0 ∧ amountOf k out = 0 ∧ beganOf k out = [] ∧ grantedOf k out = [] ∧
      diedOf k out = []) : Move k s s out := Move.still rfl (fun _ _ => rfl) hout

theorem failed_still (s : Sems) (k tag : ℕ) (e : Errno) : Move k s s [.failed tag e] := by
  apply Move.refl_of
  simp [takenOf, amountOf, beganOf, grantedOf, diedOf]

theorem semacquire_spec (h : s.Ok) (tag : ℕ) (found : Except Errno ℕ)
    (slab : Option Errno) (block : Bool) (hfree : ∀ wait, s.threads tid ≠ some (some wait)) :
    (s.semacquire tid tag found slab block).2.Ok ∧ ∀ k, Move k s (s.semacquire tid tag found slab block).2
        (s.semacquire tid tag found slab block).1 := by
  unfold semacquire
  cases hthread : s.threads tid with
  | none => exact ⟨h, fun k => failed_still s k tag _⟩
  | some wait =>
    obtain rfl : wait = none := by
      cases wait with
      | none => rfl
      | some wait => exact absurd hthread (hfree wait)
    simp only
    cases hfind : s.find found slab with
    | error e => exact ⟨h, fun k => failed_still s k tag _⟩
    | ok r =>
      obtain ⟨key, sem, s1⟩ := r
      obtain ⟨-, hsem, hthreads, rfl⟩ := find_spec hfind
      have h1 := h.congr hsem hthreads
      rw [← hsem]
      simp only
      by_cases hcount : 0 < (s1.sem key).count
      · rw [if_pos hcount]
        have hqueue := h1.settled key hcount
        have hrange := h1.range key
        refine ⟨h1.setCount ⟨?_, ?_⟩ fun _ => hqueue, fun k => Move.congr hsem hthreads ?_⟩
        · simp only [longMin]
          omega
        · omega
        · by_cases hk : k = key
          · subst hk
            have hold : s1.waitingOf k = [] := by
              rw [waitingOf, hqueue]
              rfl
            have hnew : (s1.setSemaphore k
                { s1.sem k with count := (s1.sem k).count - 1 }).waitingOf k = [] := by
              rw [waitingOf, sem_setSemaphore_self, hqueue]
              rfl
            refine ⟨?_, ?_, ?_⟩
            · rw [sem_setSemaphore_self]
              simp [takenOf, amountOf]
            · rw [hold, hnew]
              simp [grantedOf, beganOf]
            · rw [hold, hnew]
              simp [grantedOf, beganOf, diedOf]
          · refine Move.still (sem_setSemaphore_ne _ _ hk) (fun _ _ => rfl) ?_
            simp [takenOf, amountOf, beganOf, grantedOf, diedOf, Ne.symm hk]
      · rw [if_neg hcount]
        cases block with
        | false =>
          refine ⟨h1, fun k => Move.congr hsem hthreads (Move.refl_of ?_)⟩
          simp [takenOf, amountOf, beganOf, grantedOf, diedOf]
        | true =>
          have hnone : s1.threads tid = some none := by rw [hthreads, hthread]
          refine ⟨h1.enqueue tag hnone hcount, fun k => Move.congr hsem hthreads ?_⟩
          have hnot (k : ℕ) : tid ∉ (s1.sem k).threads := h1.not_mem (.inr hnone)
          have htags {k tid' : ℕ} (hmem : tid' ∈ (s1.sem k).threads) (sem : Semaphore) :
              ((s1.setWait tid (some ⟨key, tag⟩)).setSemaphore key sem).tagOf tid' = s1.tagOf tid' := by
            apply tagOf_congr
            simp [setWait, setSemaphore, ne_of_mem_of_not_mem hmem (hnot k)]
          by_cases hk : k = key
          · subst hk
            have hwaiting : ((s1.setWait tid (some ⟨k, tag⟩)).setSemaphore k
                { s1.sem k with threads := (s1.sem k).threads ++ [tid] }).waitingOf k =
                  s1.waitingOf k ++ [tag] := by
              rw [waitingOf, sem_setSemaphore_self, map_append, waitingOf]
              congr 1
              · exact map_congr_left fun tid' hmem => htags hmem _
              · simp [tagOf, setWait, setSemaphore]
            simp only [if_true]
            refine ⟨?_, ?_, ?_⟩
            · rw [sem_setSemaphore_self]
              simp [takenOf, amountOf]
            · rw [hwaiting]
              simp [grantedOf, beganOf]
            · rw [hwaiting]
              simp [grantedOf, beganOf, diedOf]
          · refine Move.still (sem_setSemaphore_ne _ _ hk) (fun tid' hmem => htags hmem _) ?_
            simp [takenOf, amountOf, beganOf, grantedOf, diedOf, Ne.symm hk]

theorem semrelease_spec (h : s.Ok) (tid tag : ℕ) (found : Except Errno ℕ)
    (slab : Option Errno) (amount : Int32) : (s.semrelease tid tag found slab amount).2.Ok ∧
      ∀ k, Move k s (s.semrelease tid tag found slab amount).2 (s.semrelease tid tag found slab amount).1 := by
  unfold semrelease
  cases hthread : s.threads tid with
  | none => exact ⟨h, fun k => failed_still s k tag _⟩
  | some wait =>
    simp only
    cases hfind : s.find found slab with
    | error e => exact ⟨h, fun k => failed_still s k tag _⟩
    | ok r =>
      obtain ⟨key, sem, s1⟩ := r
      obtain ⟨-, hsem, hthreads, rfl⟩ := find_spec hfind
      have h1 := h.congr hsem hthreads
      rw [← hsem]
      simp only
      cases hover : overflows (s1.sem key).count amount.toInt with
      | true => exact ⟨h1, fun k => Move.congr hsem hthreads (failed_still s1 k tag _)⟩
      | false =>
        obtain ⟨hok, hmove⟩ := release_spec h1 key tag ((overflows_iff (h1.range key) amount).mp hover)
        exact ⟨hok, fun k => Move.congr hsem hthreads (hmove k)⟩

theorem Ok.rethread (h : s.Ok) (hsem : s'.sem = s.sem) (hnot : ∀ k, tid ∉ (s.sem k).threads)
    (hother : ∀ tid', tid' ≠ tid → s'.threads tid' = s.threads tid')
    (hself : ∀ wait, s'.threads tid ≠ some (some wait)) : s'.Ok ∧ ∀ k, Move k s s' [] := by
  have hkept {k tid' : ℕ} (hmem : tid' ∈ (s.sem k).threads) : s'.threads tid' = s.threads tid' :=
    hother tid' (ne_of_mem_of_not_mem hmem (hnot k))
  refine ⟨⟨?_, ?_, hsem ▸ h.nodup, hsem ▸ h.range, hsem ▸ h.settled⟩, fun k => ?_⟩
  · intro k tid' hmem
    rw [hsem] at hmem
    rw [hkept hmem]
    exact h.waits k tid' hmem
  · intro tid' wait hwait
    rw [hsem]
    by_cases htid : tid' = tid
    · rw [htid] at hwait
      exact absurd hwait (hself wait)
    · rw [hother tid' htid] at hwait
      exact h.listed tid' wait hwait
  · refine Move.still (congrFun hsem k) (fun tid' hmem => tagOf_congr (hkept hmem)) ?_
    exact ⟨rfl, rfl, rfl, rfl, rfl⟩

theorem createThread_spec (h : s.Ok) (hfree : s.threads tid = none) :
    (s.createThread tid).Ok ∧ ∀ k, Move k s (s.createThread tid) [] := by
  refine h.rethread rfl (fun k => h.not_mem (.inl hfree)) ?_ ?_
  · intro tid' hne
    simp [createThread, setWait, hne]
  · simp [createThread, setWait]

theorem destroyThread_spec (h : s.Ok) (tid : ℕ) : (s.destroyThread tid).2.Ok ∧
      (∀ k, Move k s (s.destroyThread tid).2 (s.destroyThread tid).1) ∧
      (s.destroyThread tid).2.threads tid = none := by
  unfold destroyThread
  have hother {tid' : ℕ} (hne : tid' ≠ tid) : update s.threads tid none tid' = s.threads tid' := by simp [hne]
  cases hthread : s.threads tid with
  | none => exact ⟨h, fun k => Move.refl_of ⟨rfl, rfl, rfl, rfl, rfl⟩, hthread⟩
  | some wait =>
    cases wait with
    | none =>
      rw [← and_assoc]
      exact ⟨h.rethread rfl (fun k => h.not_mem (.inr hthread)) (fun _ => hother) (by simp), by simp⟩
    | some wait =>
      obtain ⟨key, tag⟩ := wait
      have hmem := h.listed tid ⟨key, tag⟩ hthread
      obtain ⟨sem, hsem⟩ : ∃ sem, s.tree key = some sem := by
        cases hsem : s.tree key with
        | some sem => exact ⟨sem, rfl⟩
        | none =>
          simp only [Sems.sem, hsem, Option.getD_none] at hmem
          cases hmem
      simp only [hsem]
      rw [← sem_of_tree hsem]
      have hnodup := h.nodup key
      have hgone : tid ∉ (s.sem key).threads.erase tid := List.Nodup.not_mem_erase hnodup
      have helse {k tid' : ℕ} (hk : k ≠ key) (hmem' : tid' ∈ (s.sem k).threads) : tid' ≠ tid := by
        rintro rfl
        exact hk (h.key_eq hmem hmem')
      have hne {k : ℕ} (hk : k ≠ key) (threads : ℕ → Option (Option Wait)) (sem : Semaphore) :
          ((⟨s.tree, threads⟩ : Sems).setSemaphore key sem).sem k = s.sem k :=
        sem_setSemaphore_ne _ _ hk
      refine ⟨?_, fun k => ?_, by simp [setSemaphore]⟩
      · apply h.change (sem_setSemaphore_self _ key _) fun k hk => hne hk _ _
        · intro tid'
          by_cases htid : tid' = tid
          · simp [htid, setSemaphore, hgone]
          · simp only [threads_setSemaphore, hother htid]
            rw [← h.mem_iff]
            exact mem_erase_of_ne htid
        · intro k tid' hk
          by_cases htid : tid' = tid
          · simp only [htid, threads_setSemaphore, update_self, reduceCtorEq, exists_false, iff_false]
            exact fun hmem' => helse hk hmem' rfl
          · simp only [threads_setSemaphore, hother htid]
            exact h.mem_iff
        · exact hnodup.erase tid
        · exact h.range key
        · intro hpos
          have hnil := h.settled key hpos
          rw [hnil] at hmem
          cases hmem
      · by_cases hk : k = key
        · subst hk
          have hwaiting : ((⟨s.tree, update s.threads tid none⟩ : Sems).setSemaphore k
              { s.sem k with threads := (s.sem k).threads.erase tid }).waitingOf k =
                ((s.sem k).threads.erase tid).map s.tagOf := by
            rw [waitingOf, sem_setSemaphore_self]
            exact map_congr_left fun tid' hmem' =>
              tagOf_congr (hother (ne_of_mem_of_not_mem hmem' hgone))
          refine ⟨?_, ?_, ?_⟩
          · rw [sem_setSemaphore_self]
            simp [takenOf, amountOf]
          · rw [hwaiting]
            simp only [grantedOf, beganOf, filterMap_cons, filterMap_nil, nil_append, append_nil]
            exact erase_sublist.map _
          · rw [hwaiting]
            simp only [grantedOf, beganOf, diedOf, filterMap_cons, filterMap_nil, if_true,
              nil_append, append_nil]
            have hperm := (perm_cons_erase hmem).map s.tagOf
            rw [map_cons, tagOf_eq hthread] at hperm
            exact hperm
        · refine Move.still (hne hk _ _) (fun tid' hmem' => tagOf_congr ?_) ?_
          · exact hother (helse hk hmem')
          · simp [takenOf, amountOf, beganOf, grantedOf, diedOf, Ne.symm hk]

theorem step_spec (h : s.Ok) {step : SemStep} (hpossible : s.Possible step) :
    (s.step step).2.Ok ∧ ∀ k, Move k s (s.step step).2 (s.step step).1 := by
  cases step with
  | acquire tid tag found slab block => exact semacquire_spec h tag found slab block hpossible
  | release tid tag found slab amount => exact semrelease_spec h tid tag found slab amount
  | create tid => exact createThread_spec h hpossible
  | destroy tid => exact ⟨(destroyThread_spec h tid).1, (destroyThread_spec h tid).2.1⟩

def PossibleRun (s : Sems) : List SemStep → Prop
  | [] => True
  | step :: steps => s.Possible step ∧ PossibleRun (s.step step).2 steps

theorem run_spec (h : s.Ok) {steps : List SemStep} (hpossible : s.PossibleRun steps) :
    (s.run steps).2.Ok ∧ ∀ k, Move k s (s.run steps).2 (s.run steps).1 := by
  induction steps generalizing s with
  | nil => exact ⟨h, fun k => Move.refl_of ⟨rfl, rfl, rfl, rfl, rfl⟩⟩
  | cons step steps ih =>
    obtain ⟨hok, hmove⟩ := step_spec h hpossible.1
    obtain ⟨hok', hmove'⟩ := ih hok hpossible.2
    exact ⟨hok', fun k => (hmove k).trans (hmove' k)⟩

theorem start_ok : Sems.start.Ok := by
  refine ⟨?_, ?_, ?_, ?_, ?_⟩
  · intro key tid hmem
    cases hmem
  · intro tid wait hwait
    cases hwait
  · intro key
    exact nodup_nil
  · intro key
    change longMin ≤ 0 ∧ 0 ≤ longMax
    decide
  · intro key _
    rfl

theorem semrelease_fits (h : s.Ok) (key : ℕ) (tag : ℕ) (slab : Option Errno)
    (amount : Int32) (hthread : s.threads tid ≠ none) : let sum := (s.sem key).count + amount.toInt
    (¬(longMin ≤ sum ∧ sum ≤ longMax) →
      s.semrelease tid tag (.ok key) slab amount = ([.failed tag .einval], s)) ∧
    ((longMin ≤ sum ∧ sum ≤ longMax) → (s.tree key).isSome ∨ slab = none →
      .released key tag amount.toInt sum ∈ (s.semrelease tid tag (.ok key) slab amount).1) := by
  intro sum
  have hiff := overflows_iff (h.range key) amount
  obtain ⟨wait, hwait⟩ := Option.ne_none_iff_exists'.mp hthread
  constructor
  · intro hfits
    have hover : overflows (s.sem key).count amount.toInt = true := by
      rw [← Bool.not_eq_false, hiff]
      exact hfits
    cases htree : s.tree key with
    | none =>
      -- a new semaphore takes any amount
      exfalso
      apply hfits
      have hzero : (s.sem key).count = 0 := by
        rw [Sems.sem, htree]
        rfl
      simp only [sum, hzero, zero_add]
      exact int32_range amount
    | some sem =>
      rw [sem_of_tree htree] at hover
      simp only [semrelease, hwait, find, htree, hover, if_true]
  · intro hfits hslab
    have hover : overflows (s.sem key).count amount.toInt = false := hiff.mpr hfits
    cases hfind : s.find (.ok key) slab with
    | error e =>
      exfalso
      simp only [find] at hfind
      cases htree : s.tree key with
      | none =>
        rw [htree] at hslab hfind
        rcases hslab with hslab | hslab
        · cases hslab
        · simp only [hslab] at hfind
          cases hfind
      | some sem =>
        simp only [htree] at hfind
        cases hfind
    | ok r =>
      obtain ⟨key', sem, s1⟩ := r
      obtain ⟨hkey, -, -, rfl⟩ := find_spec hfind
      cases hkey
      simp only [semrelease, hwait, hfind, hover]
      exact mem_append_right _ mem_cons_self

end Sems

/-- Nobody waits on a semaphore with a positive count, the counts add up, and those that began to
wait are granted in order, once each unless they die. -/
theorem semaphore_run (steps : List SemStep) (h : Sems.start.PossibleRun steps) (key : ℕ) :
    let out := (Sems.start.run steps).1
    let s := (Sems.start.run steps).2
    (0 < (s.sem key).count → (s.sem key).threads = []) ∧
    (s.sem key).count + takenOf key out = amountOf key out ∧
    (grantedOf key out ++ s.waitingOf key).Sublist (beganOf key out) ∧
    (beganOf key out).Perm (grantedOf key out ++ diedOf key out ++ s.waitingOf key) ∧
    (∀ tid tag slab (amount : Int32), s.threads tid ≠ none →
      let sum := (s.sem key).count + amount.toInt
      (¬(longMin ≤ sum ∧ sum ≤ longMax) →
        s.semrelease tid tag (.ok key) slab amount = ([.failed tag .einval], s)) ∧
      ((longMin ≤ sum ∧ sum ≤ longMax) → (s.tree key).isSome ∨ slab = none →
        .released key tag amount.toInt sum ∈ (s.semrelease tid tag (.ok key) slab amount).1)) ∧
    ∀ tid, tid ∉ ((s.destroyThread tid).2.sem key).threads := by
  intro out s
  obtain ⟨hok, hmove⟩ := Sems.run_spec Sems.start_ok h
  have hbalance := (hmove key).balance
  refine ⟨hok.settled key, ?_, (hmove key).order, (hmove key).once, ?_, ?_⟩
  · rwa [show (Sems.start.sem key).count = 0 from rfl, zero_add] at hbalance
  · intro tid tag slab amount hthread
    exact Sems.semrelease_fits hok key tag slab amount hthread
  · intro tid
    obtain ⟨hok', -, hnone⟩ := Sems.destroyThread_spec hok tid
    exact hok'.not_mem (.inl hnone)

def twoWaiters : List SemStep :=
  [.create 4, .create 5, .create 6, .acquire 4 41 (.ok 8) none true,
    .acquire 5 51 (.ok 8) none true, .destroy 4, .release 6 61 (.ok 8) none 2]

theorem semaphore_run_sample : let out := (Sems.start.run twoWaiters).1
    let s := (Sems.start.run twoWaiters).2
    (s.sem 8).count + takenOf 8 out = amountOf 8 out ∧ grantedOf 8 out = [51] ∧ beganOf 8 out = [41, 51] := by
  have hpossible : Sems.start.PossibleRun twoWaiters := by
    refine ⟨rfl, rfl, rfl, fun wait h => ?_, fun wait h => ?_, trivial, fun wait h => ?_, trivial⟩
    all_goals cases h
  have h := semaphore_run twoWaiters hpossible 8
  exact ⟨h.2.1, by decide, by decide⟩

end Eotan.Mm
