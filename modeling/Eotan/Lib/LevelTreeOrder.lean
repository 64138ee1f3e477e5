import Eotan.Lib.LevelTree

/-!
The search order of level trees. Rotations leave the in-order list of labels as it is, so
insertion and removal change that list in one place, and search reads it by key.
-/

namespace Eotan.Lib.LevelTree

open List

variable {α κ : Type}

@[simp] theorem toList_nil : (nil : LevelTree α).toList = [] := rfl

@[simp] theorem toList_node (a : α) (lv : ℤ) (l r : LevelTree α) :
    (node a lv l r).toList = l.toList ++ a :: r.toList := rfl

@[simp] theorem toList_skew (t : LevelTree α) : (skew t).toList = t.toList := by
  unfold skew
  split
  · split_ifs <;> simp
  · rfl

@[simp] theorem toList_split (t : LevelTree α) : (split t).toList = t.toList := by
  unfold split
  split
  · split_ifs <;> simp
  · rfl

@[simp] theorem toList_setLevel (n : ℤ) (t : LevelTree α) : (t.setLevel n).toList = t.toList := by
  cases t <;> rfl

theorem toList_mapRight {f : LevelTree α → LevelTree α} (hf : ∀ t, (f t).toList = t.toList)
    (t : LevelTree α) : (mapRight f t).toList = t.toList := by
  cases t with
  | nil => rfl
  | node a lv l r => simp [hf]

@[simp] theorem toList_rebalance (t : LevelTree α) : (rebalance t).toList = t.toList := by
  cases t with
  | nil => rfl
  | node a lv l r =>
    simp only [rebalance]
    split_ifs <;> simp [toList_mapRight, toList_mapRight toList_skew]

variable {t t' : LevelTree α} {a : α}

theorem toList_eq_nil_iff : t.toList = [] ↔ t = nil := by
  cases t <;> simp

theorem removeMin_toList (h : removeMin t = some (a, t')) : t.toList = a :: t'.toList := by
  induction t generalizing t' with
  | nil => simp [removeMin] at h
  | node b lv l r ihl ihr =>
    cases l with
    | nil =>
      obtain ⟨rfl, rfl⟩ : b = a ∧ r = t' := by simpa [removeMin] using h
      rfl
    | node c m ll lr =>
      simp only [removeMin] at h
      obtain ⟨⟨x, l'⟩, hl', he⟩ := Option.map_eq_some_iff.mp h
      obtain ⟨rfl, rfl⟩ : x = a ∧ rebalance (node b lv l' r) = t' := by simpa using he
      rw [toList_node, ihl hl', toList_rebalance]
      rfl

theorem first_eq_head? (t : LevelTree α) : first t = t.toList.head? := by
  induction t with
  | nil => rfl
  | node b lv l r ihl ihr =>
    cases l with
    | nil => rfl
    | node c m ll lr => rw [first, ihl, toList_node, toList_node]; simp

section Keys

variable [LinearOrder κ] (key : α → κ)

def Sorted (t : LevelTree α) : Prop := t.toList.Pairwise fun a b => key a < key b

variable {key}

theorem sorted_node {lv : ℤ} {l r : LevelTree α} (h : Sorted key (node a lv l r)) :
    Sorted key l ∧ Sorted key r ∧ (∀ x ∈ l.toList, key x < key a) ∧ (∀ y ∈ r.toList, key a < key y) := by
  simp only [Sorted, toList_node, pairwise_append, pairwise_cons, mem_cons] at h
  exact ⟨h.1, h.2.1.2, fun x hx => h.2.2 x hx a (.inl rfl), h.2.1.1⟩

section

variable (h : Sorted key t)
include h

theorem get_eq_some_iff (k : κ) (a : α) : get key k t = some a ↔ a ∈ t.toList ∧ key a = k := by
  induction t with
  | nil => simp [get]
  | node b lv l r ihl ihr =>
    obtain ⟨hl, hr, hlb, hbr⟩ := sorted_node h
    simp only [get, toList_node, mem_append, mem_cons]
    split_ifs with he hlt
    · constructor
      · rintro ⟨⟩
        exact ⟨.inr (.inl rfl), he.symm⟩
      · rintro ⟨hx | rfl | hy, hk⟩
        · exact absurd (hk.trans he) (hlb a hx).ne
        · rfl
        · exact absurd (hk.trans he) (hbr a hy).ne'
    · rw [ihl hl]
      refine ⟨fun hx => ⟨.inl hx.1, hx.2⟩, ?_⟩
      rintro ⟨hx | rfl | hy, hk⟩
      · exact ⟨hx, hk⟩
      · exact absurd hk.symm he
      · exact absurd (hk ▸ hlt) (hbr a hy).not_gt
    · rw [ihr hr]
      refine ⟨fun hy => ⟨.inr (.inr hy.1), hy.2⟩, ?_⟩
      rintro ⟨hx | rfl | hy, hk⟩
      · exact absurd (hk ▸ hlb a hx) hlt
      · exact absurd hk.symm he
      · exact ⟨hy, hk⟩

theorem put_eq_none_iff (a : α) : put key a t = none ↔ ∃ b ∈ t.toList, key b = key a := by
  induction t with
  | nil => simp [put]
  | node b lv l r ihl ihr =>
    obtain ⟨hl, hr, hlb, hbr⟩ := sorted_node h
    simp only [put, toList_node, mem_append, mem_cons]
    split_ifs with he hlt
    · exact ⟨fun _ => ⟨b, .inr (.inl rfl), he.symm⟩, fun _ => rfl⟩
    · rw [Option.map_eq_none_iff, ihl hl]
      constructor
      · rintro ⟨c, hc, hk⟩
        exact ⟨c, .inl hc, hk⟩
      rintro ⟨c, hc | rfl | hc, hk⟩
      · exact ⟨c, hc, hk⟩
      · exact absurd hk.symm he
      · exact absurd (hk ▸ hbr c hc) hlt.not_gt
    · rw [Option.map_eq_none_iff, ihr hr]
      constructor
      · rintro ⟨c, hc, hk⟩
        exact ⟨c, .inr (.inr hc), hk⟩
      rintro ⟨c, hc | rfl | hc, hk⟩
      · exact absurd (hk ▸ hlb c hc) hlt
      · exact absurd hk.symm he
      · exact ⟨c, hc, hk⟩

theorem put_toList (hp : put key a t = some t') : ∃ xs ys, t.toList = xs ++ ys ∧ t'.toList = xs ++ a :: ys ∧
      (∀ x ∈ xs, key x < key a) ∧ (∀ y ∈ ys, key a < key y) := by
  induction t generalizing t' with
  | nil =>
    obtain rfl : node a 1 nil nil = t' := by simpa [put] using hp
    exact ⟨[], [], rfl, rfl, by simp, by simp⟩
  | node b lv l r ihl ihr =>
    obtain ⟨hl, hr, hlb, hbr⟩ := sorted_node h
    simp only [put] at hp
    split_ifs at hp with he hlt
    · obtain ⟨l', hl', rfl⟩ := Option.map_eq_some_iff.mp hp
      obtain ⟨xs, ys, hxy, hxay, hx, hy⟩ := ihl hl hl'
      refine ⟨xs, ys ++ b :: r.toList, by simp [hxy], by simp [hxay], hx, ?_⟩
      simp only [mem_append, mem_cons]
      rintro y (hy' | rfl | hy')
      · exact hy y hy'
      · exact hlt
      · exact hlt.trans (hbr y hy')
    · have hgt : key b < key a := lt_of_le_of_ne (not_lt.mp hlt) (Ne.symm he)
      obtain ⟨r', hr', rfl⟩ := Option.map_eq_some_iff.mp hp
      obtain ⟨xs, ys, hxy, hxay, hx, hy⟩ := ihr hr hr'
      refine ⟨l.toList ++ b :: xs, ys, by simp [hxy], by simp [hxay], ?_, hy⟩
      simp only [mem_append, mem_cons]
      rintro x (hx' | rfl | hx')
      · exact (hlb x hx').trans hgt
      · exact hgt
      · exact hx x hx'

theorem put_sorted (hp : put key a t = some t') : Sorted key t' := by
  obtain ⟨xs, ys, hxy, hxay, hx, hy⟩ := put_toList h hp
  simp only [Sorted, hxy, hxay, pairwise_append, pairwise_cons, mem_cons] at h ⊢
  refine ⟨h.1, ⟨hy, h.2.1⟩, ?_⟩
  rintro x hx' y (rfl | hy')
  · exact hx x hx'
  · exact h.2.2 x hx' y hy'

theorem remove_toList (k : κ) : ((remove key k t).1 = none ∧ (remove key k t).2.toList = t.toList ∧
        ∀ b ∈ t.toList, key b ≠ k) ∨
      ∃ b xs ys, (remove key k t).1 = some b ∧ key b = k ∧ t.toList = xs ++ b :: ys ∧
        (remove key k t).2.toList = xs ++ ys := by
  induction t with
  | nil => simp [remove]
  | node b lv l r ihl ihr =>
    obtain ⟨hl, hr, hlb, hbr⟩ := sorted_node h
    simp only [remove]
    split_ifs with he hlt
    · refine .inr ⟨b, l.toList, r.toList, ?_⟩
      rcases l with _ | ⟨c, m, x, y⟩
      · exact ⟨rfl, he.symm, rfl, rfl⟩
      rcases r with _ | ⟨d, n, u, v⟩
      · exact ⟨rfl, he.symm, rfl, by simp⟩
      · obtain ⟨a, t', ht⟩ := removeMin_isSome (t := node d n u v) (by simp)
        refine ⟨rfl, he.symm, rfl, ?_⟩
        simp only [ht, Option.map_some, Option.getD_some]
        rw [toList_rebalance, removeMin_toList ht, toList_node]
    · obtain ⟨hn, heq, hne⟩ | ⟨c, xs, ys, hc, hk, hxy, heq⟩ := ihl hl
      · refine .inl ⟨hn, by simp [heq], ?_⟩
        simp only [toList_node, mem_append, mem_cons]
        rintro x (hx | rfl | hx)
        · exact hne x hx
        · exact Ne.symm he
        · exact (hlt.trans (hbr x hx)).ne'
      · exact .inr ⟨c, xs, ys ++ b :: r.toList, hc, hk, by simp [hxy], by simp [heq]⟩
    · have hgt : key b < k := lt_of_le_of_ne (not_lt.mp hlt) (Ne.symm he)
      obtain ⟨hn, heq, hne⟩ | ⟨c, xs, ys, hc, hk, hxy, heq⟩ := ihr hr
      · refine .inl ⟨hn, by simp [heq], ?_⟩
        simp only [toList_node, mem_append, mem_cons]
        rintro x (hx | rfl | hx)
        · exact ((hlb x hx).trans hgt).ne
        · exact Ne.symm he
        · exact hne x hx
      · exact .inr ⟨c, l.toList ++ b :: xs, ys, hc, hk, by simp [hxy], by simp [heq]⟩

theorem remove_sorted (k : κ) : Sorted key (remove key k t).2 := by
  obtain ⟨-, heq, -⟩ | ⟨b, xs, ys, -, -, hxy, heq⟩ := remove_toList h k
  · rwa [Sorted, heq]
  · rw [Sorted, heq]
    rw [Sorted, hxy] at h
    exact h.sublist (List.Sublist.append_left (sublist_cons_self _ _) _)

end

end Keys

end Eotan.Lib.LevelTree
