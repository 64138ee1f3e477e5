import Mathlib.Data.List.Pairwise
import Mathlib.Order.Basic
import Mathlib.Tactic.Linarith

/-!
Binary trees with a level in every node, balanced in the manner of Andersson:
a left child lies exactly one level below its parent, a right child at most one,
and two right children in a row always go down. The empty tree is on level 0 and
counts as its own child, as a sentinel node in memory would.
-/

namespace Eotan.Lib

inductive LevelTree (α : Type) where
  | nil
  | node (a : α) (lv : ℤ) (l r : LevelTree α)

namespace LevelTree

variable {α κ : Type}

def level : LevelTree α → ℤ
  | nil => 0
  | node _ lv _ _ => lv

def right : LevelTree α → LevelTree α
  | nil => nil
  | node _ _ _ r => r

def setLevel (n : ℤ) : LevelTree α → LevelTree α
  | nil => nil
  | node a _ l r => node a n l r

def mapRight (f : LevelTree α → LevelTree α) : LevelTree α → LevelTree α
  | nil => nil
  | node a lv l r => node a lv l (f r)

def toList : LevelTree α → List α
  | nil => []
  | node a _ l r => l.toList ++ a :: r.toList

def skew : LevelTree α → LevelTree α
  | node a lv (node b m ll lr) r =>
    if m = lv then node b m ll (node a lv lr r) else node a lv (node b m ll lr) r
  | t => t

def split : LevelTree α → LevelTree α
  | node a lv l (node b m rl (node c n x y)) =>
    if n = lv then node b (m + 1) (node a lv l rl) (node c n x y)
    else node a lv l (node b m rl (node c n x y))
  | t => t

def rebalance : LevelTree α → LevelTree α
  | nil => nil
  | node a lv l r =>
    if l.level < lv - 1 ∨ r.level < lv - 1 then
      mapRight split (split (mapRight (mapRight skew) (mapRight skew (skew
        (node a (lv - 1) l (if r.level > lv - 1 then r.setLevel (lv - 1) else r))))))
    else node a lv l r

def put [LinearOrder κ] (key : α → κ) (a : α) : LevelTree α → Option (LevelTree α)
  | nil => some (node a 1 nil nil)
  | node b lv l r =>
    if key a = key b then none
    else if key a < key b then (put key a l).map fun l' => split (skew (node b lv l' r))
    else (put key a r).map fun r' => split (skew (node b lv l r'))

def removeMin : LevelTree α → Option (α × LevelTree α)
  | nil => none
  | node a _ nil r => some (a, r)
  | node a lv (node b m ll lr) r =>
    (removeMin (node b m ll lr)).map fun x => (x.1, rebalance (node a lv x.2 r))

def remove [LinearOrder κ] (key : α → κ) (k : κ) : LevelTree α → Option α × LevelTree α
  | nil => (none, nil)
  | node b lv l r =>
    if k = key b then
      match l, r with
      | nil, r => (some b, r)
      | l, nil => (some b, l)
      | l, r => (some b, ((removeMin r).map fun x => rebalance (node x.1 lv l x.2)).getD nil)
    else if k < key b then ((remove key k l).1, rebalance (node b lv (remove key k l).2 r))
    else ((remove key k r).1, rebalance (node b lv l (remove key k r).2))

def get [LinearOrder κ] (key : α → κ) (k : κ) : LevelTree α → Option α
  | nil => none
  | node b _ l r => if k = key b then some b else if k < key b then get key k l else get key k r

def first : LevelTree α → Option α
  | nil => none
  | node a _ nil _ => some a
  | node _ _ (node b m ll lr) _ => first (node b m ll lr)

def Balanced : LevelTree α → Prop
  | nil => True
  | node _ lv l r =>
    1 ≤ lv ∧ l.level = lv - 1 ∧ (r.level = lv ∨ r.level = lv - 1) ∧ r.right.level < lv ∧
      Balanced l ∧ Balanced r

@[simp] theorem level_nil : (nil : LevelTree α).level = 0 := rfl

@[simp] theorem level_node (a : α) (lv : ℤ) (l r : LevelTree α) : (node a lv l r).level = lv := rfl

@[simp] theorem right_nil : (nil : LevelTree α).right = nil := rfl

@[simp] theorem right_node (a : α) (lv : ℤ) (l r : LevelTree α) : (node a lv l r).right = r := rfl

@[simp] theorem mapRight_node (f : LevelTree α → LevelTree α) (a : α) (lv : ℤ) (l r : LevelTree α) :
    mapRight f (node a lv l r) = node a lv l (f r) := rfl

@[simp] theorem balanced_nil : Balanced (nil : LevelTree α) := trivial

variable {t l r t' : LevelTree α} {lv : ℤ} {a b : α}

theorem Balanced.level_pos_iff (h : Balanced t) : 0 < t.level ↔ t ≠ nil := by
  cases t with
  | nil => simp
  | node a lv l r => have := h.1; simp only [level_node]; constructor <;> intro _ <;> first | simp | omega

theorem Balanced.right_level_le (h : Balanced t) : t.right.level ≤ t.level := by
  cases t with
  | nil => simp
  | node a lv l r => have := h.2.2.1; simp only [right_node, level_node]; omega

theorem exists_node {n : ℤ} (h : t.level = n) (hn : 0 < n) : ∃ a l r, t = node a n l r := by
  cases t with
  | nil => simp at h; omega
  | node a lv l r => exact ⟨a, l, r, by rw [← h]; rfl⟩

theorem skew_of_ne (h : l.level ≠ lv) : skew (node a lv l r) = node a lv l r := by
  cases l with
  | nil => rfl
  | node b m ll lr => simp only [level_node] at h; simp [skew, h]

theorem skew_of_eq (a b : α) (lv : ℤ) (ll lr r : LevelTree α) :
    skew (node a lv (node b lv ll lr) r) = node b lv ll (node a lv lr r) := by
  simp [skew]

theorem split_of_ne (h : r.right.level ≠ lv) : split (node a lv l r) = node a lv l r := by
  cases r with
  | nil => rfl
  | node b m rl rr =>
    cases rr with
    | nil => rfl
    | node c n x y => simp only [right_node, level_node] at h; simp [split, h]

theorem split_of_eq (a b c : α) (lv m : ℤ) (l rl x y : LevelTree α) :
    split (node a lv l (node b m rl (node c lv x y))) = node b (m + 1) (node a lv l rl) (node c lv x y) := by
  simp [split]

theorem Balanced.skew_eq (h : Balanced t) : skew t = t := by
  cases t with
  | nil => rfl
  | node a lv l r => exact skew_of_ne (by have := h.2.1; omega)

theorem Balanced.split_eq (h : Balanced t) : split t = t := by
  cases t with
  | nil => rfl
  | node a lv l r => exact split_of_ne (by have := h.2.2.2.1; omega)

/-! Insertion. -/

/-- The level rises only where the root was horizontally linked, and then the new root is not. -/
def Grown (t t' : LevelTree α) : Prop :=
  Balanced t' ∧ (t'.level = t.level ∨
    t'.level = t.level + 1 ∧ t.right.level = t.level ∧ t'.right.level = t.level)

theorem grown_left {l' : LevelTree α} (h : Balanced (node b lv l r))
    (hl : Grown l l') : Grown (node b lv l r) (split (skew (node b lv l' r))) := by
  obtain ⟨h1, hll, hr, hrr, hbl, hbr⟩ := h
  obtain ⟨hb', hsame | ⟨hup, -, hblack⟩⟩ := hl
  · rw [skew_of_ne (by omega), split_of_ne (by omega)]
    exact ⟨⟨h1, by omega, hr, hrr, hb', hbr⟩, .inl rfl⟩
  obtain ⟨c, x, y, rfl⟩ := exists_node (show l'.level = lv by omega) (by omega)
  obtain ⟨-, hx, -, -, hbx, hby⟩ := hb'
  simp only [right_node] at hblack
  have hyy := hby.right_level_le
  rw [skew_of_eq]
  rcases hr with hr | hr
  · obtain ⟨d, u, v, rfl⟩ := exists_node hr (by omega)
    rw [split_of_eq]
    refine ⟨⟨by omega, by simp, .inr (by simp), ?_, ?_, hbr⟩, .inr ⟨rfl, rfl, rfl⟩⟩
    · simp only [right_node] at hrr ⊢; omega
    · exact ⟨h1, hx, .inr (by omega), by omega, hbx, hby⟩
  · rw [split_of_ne (by simp only [right_node]; omega)]
    exact ⟨⟨h1, hx, .inl rfl, by simp only [right_node]; omega, hbx,
      h1, by omega, .inr hr, hrr, hby, hbr⟩, .inl rfl⟩

theorem grown_right {r' : LevelTree α} (h : Balanced (node b lv l r))
    (hr' : Grown r r') : Grown (node b lv l r) (split (skew (node b lv l r'))) := by
  obtain ⟨h1, hll, hr, hrr, hbl, hbr⟩ := h
  obtain ⟨hb', hlev⟩ := hr'
  have hle := hb'.right_level_le
  rw [skew_of_ne (by omega)]
  by_cases hs : r'.right.level = lv
  · have hrlv : r.level = lv := by omega
    obtain ⟨c, x, y, rfl⟩ := exists_node (show r'.level = lv by omega) (by omega)
    obtain ⟨-, hx, -, hyy, hbx, hby⟩ := hb'
    obtain ⟨d, u, v, rfl⟩ := exists_node (show y.level = lv from hs) (by omega)
    have hxx := hbx.right_level_le
    rw [split_of_eq]
    refine ⟨⟨by omega, by simp, .inr (by simp), by omega, ?_, hby⟩, .inr ⟨rfl, hrlv, rfl⟩⟩
    exact ⟨h1, hll, .inr hx, by omega, hbl, hbx⟩
  · rw [split_of_ne hs]
    exact ⟨⟨h1, hll, by omega, by omega, hbl, hb'⟩, .inl rfl⟩

theorem put_grown [LinearOrder κ] (key : α → κ) (a : α) (h : Balanced t)
    (hp : put key a t = some t') : Grown t t' := by
  induction t generalizing t' with
  | nil =>
    obtain rfl : node a 1 nil nil = t' := by simpa [put] using hp
    simp [Grown, Balanced]
  | node b lv l r ihl ihr =>
    simp only [put] at hp
    split_ifs at hp with he hlt
    · obtain ⟨l', hl', rfl⟩ := Option.map_eq_some_iff.mp hp
      exact grown_left h (ihl h.2.2.2.2.1 hl')
    · obtain ⟨r', hr', rfl⟩ := Option.map_eq_some_iff.mp hp
      exact grown_right h (ihr h.2.2.2.2.2 hr')

theorem put_balanced [LinearOrder κ] (key : α → κ) (a : α) (h : Balanced t)
    (hp : put key a t = some t') : Balanced t' := (put_grown key a h hp).1

/-! Removal. -/

/-- The level falls by at most one, and a root that keeps its level gains no horizontal link. -/
def Shrunk (t t' : LevelTree α) : Prop :=
  Balanced t' ∧ (t'.level = t.level - 1 ∨
    t'.level = t.level ∧ (t.right.level < t.level → t'.right.level < t'.level))

theorem Shrunk.refl (h : Balanced t) : Shrunk t t := ⟨h, .inr ⟨rfl, id⟩⟩

theorem rebalance_of_balanced (h : Balanced t) : rebalance t = t := by
  cases t with
  | nil => rfl
  | node a lv l r =>
    obtain ⟨-, hl, hr, -⟩ := h
    simp only [rebalance]
    rw [if_neg (by omega)]

theorem Balanced.mapRight_skew_eq (h : Balanced t) : mapRight skew t = t := by
  cases t with
  | nil => rfl
  | node a lv l r => rw [mapRight_node, h.2.2.2.2.2.skew_eq]

theorem rebalance_left_black (h1 : 1 < lv)
    (hl : l.level = lv - 2) (hr : r.level = lv - 1) (hbl : Balanced l) (hbr : Balanced r) :
    Balanced (rebalance (node b lv l r)) ∧ 0 < (rebalance (node b lv l r)).right.level ∧
      ((rebalance (node b lv l r)).level = lv - 1 ∨
        (rebalance (node b lv l r)).level = lv ∧ (rebalance (node b lv l r)).right.level < lv) := by
  obtain ⟨c, x, y, rfl⟩ := exists_node hr (by omega)
  simp only [rebalance]
  rw [if_pos (by omega), if_neg (by omega), skew_of_ne (by omega), mapRight_node, hbr.skew_eq,
    mapRight_node, hbr.mapRight_skew_eq]
  obtain ⟨h1', hx, hy, hyy, hbx, hby⟩ := id hbr
  have hxx := hbx.right_level_le
  by_cases hs : y.level = lv - 1
  · obtain ⟨d, u, v, rfl⟩ := exists_node hs (by omega)
    rw [split_of_eq, mapRight_node, hby.split_eq]
    refine ⟨⟨by omega, by simp, .inr (by simp), by omega, ?_, hby⟩, h1', .inr ⟨by simp, by simp⟩⟩
    exact ⟨h1', by omega, .inr (by omega), by omega, hbl, hbx⟩
  · rw [split_of_ne (r := node c (lv - 1) x y) hs, mapRight_node, hbr.split_eq]
    exact ⟨⟨h1', by omega, .inl rfl, by simp only [right_node]; omega, hbl, hbr⟩, h1', .inl rfl⟩

theorem rebalance_left_red (h1 : 1 < lv)
    (hl : l.level = lv - 2) (hr : r.level = lv) (hrr : r.right.level < lv) (hbl : Balanced l)
    (hbr : Balanced r) : Balanced (rebalance (node b lv l r)) ∧ 0 < (rebalance (node b lv l r)).right.level ∧
      (rebalance (node b lv l r)).level = lv := by
  obtain ⟨c, x, y, rfl⟩ := exists_node hr (by omega)
  obtain ⟨-, hx, hy, hyy, hbx, hby⟩ := hbr
  simp only [right_node] at hrr
  obtain ⟨d, u, v, rfl⟩ := exists_node hx (by omega)
  obtain ⟨f, g, h, rfl⟩ := exists_node (show y.level = lv - 1 by omega) (by omega)
  obtain ⟨-, hu, hv, hvv, hbu, hbv⟩ := hbx
  obtain ⟨-, hg, hh, hhh, hbg, hbh⟩ := id hby
  have huu := hbu.right_level_le
  have hgg := hbg.right_level_le
  simp only [rebalance]
  rw [if_pos (by omega), if_pos (by simp), skew_of_ne (by omega), mapRight_node, setLevel,
    skew_of_eq, mapRight_node, mapRight_node]
  have hleft : Balanced (node b (lv - 1) l u) := ⟨by omega, by omega, .inr (by omega), by omega, hbl, hbu⟩
  by_cases hs : v.level = lv - 1
  · -- the middle tree leans right: its nodes line up and two splits are needed
    obtain ⟨e, p, q, rfl⟩ := exists_node hs (by omega)
    obtain ⟨-, hp, hq, hqq, hbp, hbq⟩ := hbv
    simp only [right_node] at hvv
    rw [skew_of_eq, split_of_eq, mapRight_node, split_of_eq]
    have hmid : Balanced (node e (lv - 1) p q) := ⟨by omega, hp, .inr (by omega), hqq, hbp, hbq⟩
    exact ⟨⟨by omega, by simp, .inl rfl, by simp, hleft, by omega, by simp, .inr (by simp),
      by simp only [right_node]; omega, hmid, hby⟩, by simp; omega, by simp⟩
  · have hvl : v.level = lv - 1 - 1 := by omega
    rw [skew_of_ne (by omega), split_of_eq, mapRight_node]
    by_cases ht : h.level = lv - 1
    · obtain ⟨i, j, k, rfl⟩ := exists_node ht (by omega)
      rw [split_of_eq]
      have hmid : Balanced (node c (lv - 1) v g) := ⟨by omega, hvl, .inr hg, by omega, hbv, hbg⟩
      exact ⟨⟨by omega, by simp, .inl rfl, by simp, hleft, by omega, by simp, .inr (by simp),
        by omega, hmid, hbh⟩, by simp; omega, by simp⟩
    · rw [split_of_ne (r := node f (lv - 1) g h) ht]
      exact ⟨⟨by omega, by simp, .inr (by simp), by simp, hleft, by omega, hvl, .inl rfl,
        by simp only [right_node]; omega, hbv, hby⟩, by simp; omega, by simp⟩

theorem rebalance_right (h1 : 1 < lv)
    (hl : l.level = lv - 1) (hr : r.level = lv - 2) (hbl : Balanced l) (hbr : Balanced r) :
    Balanced (rebalance (node b lv l r)) ∧ 0 < (rebalance (node b lv l r)).right.level ∧
      ((rebalance (node b lv l r)).level = lv - 1 ∨
        (rebalance (node b lv l r)).level = lv ∧ (rebalance (node b lv l r)).right.level < lv) := by
  obtain ⟨c, x, y, rfl⟩ := exists_node hl (by omega)
  obtain ⟨h1', hx, hy, hyy, hbx, hby⟩ := hbl
  have hrr := hbr.right_level_le
  simp only [rebalance]
  rw [if_pos (by omega), if_neg (by omega), skew_of_eq, mapRight_node]
  by_cases hs : y.level = lv - 1
  · obtain ⟨d, u, v, rfl⟩ := exists_node hs (by omega)
    obtain ⟨-, hu, hv, hvv, hbu, hbv⟩ := hby
    simp only [right_node] at hyy
    have huu := hbu.right_level_le
    have hold : Balanced (node b (lv - 1) v r) := ⟨by omega, by omega, .inr (by omega), by omega, hbv, hbr⟩
    rw [skew_of_eq, mapRight_node, mapRight_node, hold.skew_eq, split_of_eq, mapRight_node, hold.split_eq]
    refine ⟨⟨by omega, by simp, .inr (by simp), ?_, ?_, hold⟩, h1', .inr ⟨by simp, by simp⟩⟩
    · simp only [right_node]; omega
    · exact ⟨h1', hx, .inr hu, by omega, hbx, hbu⟩
  · have hold : Balanced (node b (lv - 1) y r) := ⟨by omega, by omega, .inr (by omega), by omega, hby, hbr⟩
    rw [hold.skew_eq, mapRight_node, hold.mapRight_skew_eq,
      split_of_ne (by simp only [right_node]; omega), mapRight_node, hold.split_eq]
    exact ⟨⟨h1', hx, .inl rfl, by simp only [right_node]; omega, hbx, hold⟩, h1', .inl rfl⟩

/-- What `rebalance` is applied to: a balanced tree, or one it repairs with a right child left. -/
def Mendable (t : LevelTree α) : Prop := Balanced t ∨ 0 < (rebalance t).right.level

theorem shrunk_left {l' : LevelTree α} (h : Balanced (node b lv l r)) (hl : Shrunk l l') (hn : l ≠ nil) :
    Shrunk (node b lv l r) (rebalance (node b lv l' r)) ∧ Mendable (node b lv l' r) := by
  obtain ⟨h1, hll, hr, hrr, hbl, hbr⟩ := h
  have hpos := hbl.level_pos_iff.mpr hn
  obtain ⟨hb', hdown | ⟨hsame, -⟩⟩ := hl
  · rcases hr with hr | hr
    · obtain ⟨hb, hp, hlv⟩ := rebalance_left_red (b := b) (by omega) (by omega) hr hrr hb' hbr
      refine ⟨⟨hb, .inr ⟨hlv, fun hlt => ?_⟩⟩, .inr hp⟩
      simp only [right_node, level_node] at hlt
      omega
    · obtain ⟨hb, hp, hlv⟩ := rebalance_left_black (b := b) (by omega) (by omega) hr hb' hbr
      refine ⟨⟨hb, hlv.imp id fun hlv => ⟨hlv.1, fun _ => ?_⟩⟩, .inr hp⟩
      rw [hlv.1]
      exact hlv.2
  · have hnew : Balanced (node b lv l' r) := ⟨h1, by omega, hr, hrr, hb', hbr⟩
    rw [rebalance_of_balanced hnew]
    exact ⟨⟨hnew, .inr ⟨rfl, id⟩⟩, .inl hnew⟩

theorem shrunk_right {r' : LevelTree α} (h : Balanced (node a lv l r)) (hr' : Shrunk r r') (hn : r ≠ nil) :
    Shrunk (node a lv l r) (rebalance (node b lv l r')) ∧ Mendable (node b lv l r') := by
  obtain ⟨h1, hll, hr, hrr, hbl, hbr⟩ := h
  have hpos := hbr.level_pos_iff.mpr hn
  obtain ⟨hb', hlev⟩ := hr'
  have hle := hb'.right_level_le
  by_cases hdown : r'.level = lv - 2
  · obtain ⟨hb, hp, hlv⟩ := rebalance_right (b := b) (by omega) hll hdown hbl hb'
    refine ⟨⟨hb, hlv.imp id fun hlv => ⟨hlv.1, fun _ => ?_⟩⟩, .inr hp⟩
    rw [hlv.1]
    exact hlv.2
  have hnew : Balanced (node b lv l r') := by
    refine ⟨h1, hll, by omega, ?_, hbl, hb'⟩
    rcases hlev with hlev | ⟨hlev, himp⟩
    · omega
    · rcases hr with hr | hr
      · have := himp (by omega); omega
      · omega
  rw [rebalance_of_balanced hnew]
  refine ⟨⟨hnew, .inr ⟨rfl, fun hlt => ?_⟩⟩, .inl hnew⟩
  simp only [right_node, level_node] at hlt ⊢
  omega

theorem removeMin_shrunk (h : Balanced t) (hm : removeMin t = some (a, t')) : Shrunk t t' := by
  induction t generalizing t' with
  | nil => simp [removeMin] at hm
  | node b lv l r ihl ihr =>
    cases l with
    | nil =>
      obtain ⟨rfl, rfl⟩ : b = a ∧ r = t' := by simpa [removeMin] using hm
      obtain ⟨h1, hl, hr, hrr, -, hbr⟩ := h
      refine ⟨hbr, ?_⟩
      simp only [level_nil, level_node, right_node] at *
      have := hbr.right_level_le
      omega
    | node c m ll lr =>
      simp only [removeMin] at hm
      obtain ⟨⟨x, l'⟩, hl', he⟩ := Option.map_eq_some_iff.mp hm
      obtain ⟨rfl, rfl⟩ : x = a ∧ _ = t' := by simpa using he
      exact (shrunk_left h (ihl h.2.2.2.2.1 hl') (by simp)).1

theorem removeMin_isSome (h : t ≠ nil) : ∃ a t', removeMin t = some (a, t') := by
  induction t with
  | nil => exact absurd rfl h
  | node b lv l r ihl ihr =>
    cases l with
    | nil => exact ⟨b, r, rfl⟩
    | node c m ll lr =>
      obtain ⟨a, t', ht⟩ := ihl (by simp)
      exact ⟨a, _, by simp only [removeMin, ht, Option.map_some]; rfl⟩

theorem remove_shrunk [LinearOrder κ] (key : α → κ) (k : κ) (h : Balanced t) : Shrunk t (remove key k t).2 := by
  induction t with
  | nil => exact .refl h
  | node b lv l r ihl ihr =>
    obtain ⟨h1, hll, hr, hrr, hbl, hbr⟩ := id h
    simp only [remove]
    split_ifs with he hlt
    · match l, r with
      | nil, r =>
        refine ⟨hbr, ?_⟩
        simp only [level_nil, level_node, right_node] at *
        omega
      | node c m x y, nil =>
        refine ⟨hbl, .inl ?_⟩
        simpa using hll
      | node c m x y, node d n u v =>
        obtain ⟨a, t', ht⟩ := removeMin_isSome (t := node d n u v) (by simp)
        simp only [ht, Option.map_some, Option.getD_some]
        exact (shrunk_right h (removeMin_shrunk hbr ht) (by simp)).1
    · by_cases hn : l = nil
      · subst hn
        simp only [remove]
        rw [rebalance_of_balanced h]
        exact .refl h
      · exact (shrunk_left h (ihl hbl) hn).1
    · by_cases hn : r = nil
      · subst hn
        simp only [remove]
        rw [rebalance_of_balanced h]
        exact .refl h
      · exact (shrunk_right h (ihr hbr) hn).1

theorem remove_balanced [LinearOrder κ] (key : α → κ) (k : κ) (h : Balanced t) :
    Balanced (remove key k t).2 := (remove_shrunk key k h).1

theorem Balanced.two_pow_level_le (h : Balanced t) : 2 ^ t.level.toNat ≤ t.toList.length + 1 := by
  induction t with
  | nil => exact Nat.le_refl 1
  | node a lv l r ihl ihr =>
    obtain ⟨hpos, hl, hr, -, hbl, hbr⟩ := h
    have hleft := ihl hbl
    have hright := ihr hbr
    have hle : 2 ^ (lv - 1).toNat ≤ 2 ^ r.level.toNat := Nat.pow_le_pow_right (by decide) (by omega)
    have hlv : lv.toNat = (lv - 1).toNat + 1 := by omega
    rw [hl] at hleft
    rw [level_node, hlv, Nat.pow_succ, toList, List.length_append, List.length_cons]
    omega

end LevelTree

end Eotan.Lib
