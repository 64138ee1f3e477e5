import Eotan.Mm.Tree

/-!
What the family of processes is for: who answers for a process, which exit statuses are to be
delivered, and who waits for one. An event that does not fit is not accepted.
-/

namespace Eotan.Mm

open Function

structure Kinship where
  guardian : ℕ → Option ℕ
  pending : ℕ → Option ℤ
  waiting : ℕ → Option ℕ

namespace Kinship

def answer (k : Kinship) (tag : ℕ) : Kinship :=
  { k with waiting := Function.update k.waiting tag none }

def drop (k : Kinship) : Option ℕ → Kinship
  | none => k
  | some tag => k.answer tag

def forget (k : Kinship) (p : ℕ) : Kinship :=
  { k with guardian := Function.update k.guardian p none, pending := Function.update k.pending p none }

def bereave (k : Kinship) (p : ℕ) : Kinship :=
  { k with guardian := fun c => if k.guardian c = some p then some initPid else k.guardian c }

def event (k : Kinship) : TreeEvent → Option Kinship
  | .failed _ _ | .freed _ => some k
  | .forked child parent waited =>
    if k.guardian child = none ∧ k.pending child = none then
      some { k with
        guardian := Function.update k.guardian child (if waited = true then some parent else none) }
    else none
  | .waits pid tag =>
    if k.waiting tag = none then
      some { k with waiting := Function.update k.waiting tag (some pid) }
    else none
  | .died pid status waited =>
    if waited = true then
      if (k.guardian pid).isSome = true ∧ k.pending pid = none then
        some (k.bereave pid |> fun k => { k with pending := Function.update k.pending pid (some status) })
      else none
    else if k.guardian pid = none then some (k.bereave pid)
    else none
  | .reaped parent tag child status =>
    if k.waiting tag = some parent ∧ k.guardian child = some parent ∧
        (k.pending child).map (· % 256) = some status then
      some ((k.answer tag).forget child)
    else none
  | .dropped tag => some (k.answer tag)

def accept (k : Kinship) (events : List TreeEvent) : Option Kinship := events.foldlM event k

section

variable (k : Kinship)

theorem accept_append (l l' : List TreeEvent) : k.accept (l ++ l') = (k.accept l).bind fun k => k.accept l' :=
  List.foldlM_append

theorem accept_cons (e : TreeEvent) (l : List TreeEvent) :
    k.accept (e :: l) = (k.event e).bind fun k => k.accept l := List.foldlM_cons

theorem drop_guardian (o : Option ℕ) : (k.drop o).guardian = k.guardian := by
  cases o <;> rfl

theorem drop_pending (o : Option ℕ) : (k.drop o).pending = k.pending := by
  cases o <;> rfl

theorem drop_waiting {o : Option ℕ} {tag : ℕ} (h : o ≠ some tag) : (k.drop o).waiting tag = k.waiting tag := by
  cases o with
  | none => rfl
  | some tag' =>
    have hne : tag ≠ tag' := fun heq => h (congrArg some heq.symm)
    exact update_of_ne hne _ _

theorem drop_answer (o : Option ℕ) (tag : ℕ) : (k.answer tag).drop o = (k.drop o).answer tag := by
  cases o with
  | none => rfl
  | some tag' =>
    by_cases heq : tag = tag'
    · subst heq
      rfl
    · simp only [drop, answer]
      rw [update_comm heq]

end

theorem forget_of_none {k : Kinship} {p : ℕ} (hguardian : k.guardian p = none)
    (hpending : k.pending p = none) : k.forget p = k := by
  unfold forget
  rw [← hguardian, update_eq_self, ← hpending, update_eq_self]

theorem accept_freed (k : Kinship) (l : List ℕ) : k.accept (l.map .freed) = some k := by
  induction l with
  | nil => rfl
  | cons p l ih =>
    rw [List.map_cons, accept_cons]
    exact ih

theorem accept_dropped (k : Kinship) (o : Option ℕ) (l : List ℕ) :
    k.accept (o.toList.map .dropped ++ l.map .freed) = some (k.drop o) := by
  cases o with
  | none => exact accept_freed k l
  | some tag => exact accept_freed (k.answer tag) l

def start : Kinship := ⟨fun _ => none, fun _ => none, fun _ => none⟩

end Kinship

end Eotan.Mm
