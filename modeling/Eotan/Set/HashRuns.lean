import Mathlib.Data.Finset.Card
import Eotan.Set.Hash

namespace Eotan.Hash

open Intrusive
open Lib (Links)
open Lib.Links
open Function
open List
open Option

structure BoundedMap (N V : Type) where
  keys : Finset N
  get : N → Option V
  outside : ∀ n, n ∉ keys → get n = none

namespace BoundedMap

variable {N V : Type} [DecidableEq N]

def empty : BoundedMap N V := ⟨∅, fun _ => none, fun _ _ => rfl⟩

def put (m : BoundedMap N V) (n : N) (v : Option V) : BoundedMap N V where
  keys := insert n m.keys
  get := Function.update m.get n v
  outside := by
    intro n' hn'
    rw [Finset.mem_insert, not_or] at hn'
    rw [Function.update_of_ne hn'.1]
    exact m.outside n' hn'.2

def remove (m : BoundedMap N V) (n : N) : BoundedMap N V where
  keys := m.keys.erase n
  get := Function.update m.get n none
  outside := by
    intro n' hn'
    by_cases hn : n' = n
    · rw [hn, Function.update_self]
    · rw [Function.update_of_ne hn]
      apply m.outside
      intro hmem
      exact hn' (Finset.mem_erase.mpr ⟨hn, hmem⟩)

variable {K : Type} (name : K → N) (max : ℕ)

def step (m : BoundedMap N V) : Op K V → Reply V × BoundedMap N V
  | .get k => (.value (m.get (name k)), m)
  | .put k v =>
    if name k ∈ m.keys ∨ m.keys.card < max then (.code true, m.put (name k) v)
    else (.code false, m)
  | .remove k =>
    if name k ∈ m.keys then (.code true, m.remove (name k)) else (.code false, m)

def run (m : BoundedMap N V) : List (Op K V) → List (Reply V) × BoundedMap N V
  | [] => ([], m)
  | op :: ops =>
    let r := step name max m op
    let r' := run r.2 ops
    (r.1 :: r'.1, r'.2)

end BoundedMap

structure Hashing {K N : Type} (name : K → N) (calcHash : K → ℕ → ℕ) (cmp : K → K → ℤ) : Prop where
  cmp_iff : ∀ a b, cmp a b = 0 ↔ name a = name b
  calc_congr : ∀ a b size, name a = name b → calcHash a size = calcHash b size
  calc_lt : ∀ k size, 0 < size → calcHash k size < size

structure Linked (m : Links Slot) (size : ℕ) (chains : ℕ → List Slot) (spares : List Slot) :
    Prop where
  table : ∀ i < size, m.Ring (.chain i) (chains i)
  free : m.Ring .spares spares
  entries : ∀ i < size, ∀ p ∈ chains i, ∃ j, p = .entry j
  unused : ∀ p ∈ spares, ∃ j, p = .entry j
  apart : ∀ i < size, ∀ j < size, i ≠ j → List.Disjoint (chains i) (chains j)
  aside : ∀ i < size, List.Disjoint (chains i) spares

section linked

variable {m m' : Links Slot} {size i : ℕ} {chains : ℕ → List Slot} {spares l' spares' : List Slot}

def others (size : ℕ) (chains : ℕ → List Slot) (i : ℕ) : List (Slot × List Slot) :=
  ((range size).filter (· ≠ i)).map fun j => (.chain j, chains j)

theorem mem_others {r : Slot × List Slot} :
    r ∈ others size chains i ↔ ∃ j, (j < size ∧ j ≠ i) ∧ (.chain j, chains j) = r := by
  simp [others]

theorem Linked.rings (h : Linked m size chains spares) (hi : i < size) :
    m.Rings ((.chain i, chains i) :: (.spares, spares) :: others size chains i) := by
  have hentry (j : ℕ) (hj : j < size) : (∀ k, Slot.chain k ∉ chains j) ∧ Slot.spares ∉ chains j :=
    ⟨fun k hmem => by simpa using h.entries j hj _ hmem, fun hmem => by simpa using h.entries j hj _ hmem⟩
  have hchains (j k : ℕ) (hj : j < size) (hk : k < size) (hjk : j ≠ k) :
      Disjoint (Slot.chain j :: chains j) (Slot.chain k :: chains k) := by
    simp [disjoint_cons_left, disjoint_cons_right, hentry, hj, hk, Ne.symm hjk, h.apart j hj k hk hjk]
  have hspares (j : ℕ) (hj : j < size) : Disjoint (Slot.chain j :: chains j) (Slot.spares :: spares) := by
    have hnot : Slot.chain j ∉ spares := fun hmem => by simpa using h.unused _ hmem
    simp [disjoint_cons_left, disjoint_cons_right, hentry, hj, hnot, h.aside j hj]
  constructor
  · intro r hr
    rcases mem_cons.mp hr with rfl | hr
    · exact h.table i hi
    rcases mem_cons.mp hr with rfl | hr
    · exact h.free
    · obtain ⟨j, hj, rfl⟩ := mem_others.mp hr
      exact h.table j hj.1
  · have hring (r : Slot × List Slot) (hr : r ∈ others size chains i) : (r.1 :: r.2).Nodup := by
      obtain ⟨j, hj, rfl⟩ := mem_others.mp hr
      exact (h.table j hj.1).nodup
    have hothers (l : List Slot) (hl : ∀ j < size, j ≠ i → Disjoint l (Slot.chain j :: chains j)) :
        Disjoint l (nodes (others size chains i)) := by
      intro x hx hmem
      obtain ⟨r, hr, hxr⟩ := mem_flatMap.mp hmem
      obtain ⟨j, hj, rfl⟩ := mem_others.mp hr
      exact hl j hj.1 hj.2 hx hxr
    rw [nodes_cons, nodes_cons, nodup_append', nodup_append', disjoint_append_right, nodes, nodup_flatMap]
    refine ⟨(h.table i hi).nodup, ⟨h.free.nodup, ⟨hring, ?_⟩, ?_⟩, hspares i hi, ?_⟩
    · rw [others, pairwise_map]
      apply (nodup_range.filter _).imp_of_mem
      intro j k hj hk hjk
      simp only [mem_filter, mem_range] at hj hk
      exact hchains j k hj.1 hk.1 hjk
    · exact hothers _ fun j hj _ => (hspares j hj).symm
    · exact hothers _ fun j hj hji => hchains i j hi hj hji.symm

theorem Linked.of_rings (h : Linked m size chains spares)
    (hr : m'.Rings ((.chain i, l') :: (.spares, spares') :: others size chains i))
    (hperm : (l' ++ spares').Perm (chains i ++ spares)) (hi : i < size) :
    Linked m' size (update chains i l') spares' := by
  have hentry : ∀ p, p ∈ l' ∨ p ∈ spares' → ∃ j, p = .entry j := by
    intro p hp
    rw [← mem_append, hperm.mem_iff, mem_append] at hp
    exact hp.elim (h.entries i hi p) (h.unused p)
  have hother (j : ℕ) (hj : j < size) (hji : j ≠ i) : (Slot.chain j, chains j) ∈ others size chains i :=
    mem_others.mpr ⟨j, ⟨hj, hji⟩, rfl⟩
  have hnode (j : ℕ) (hj : j < size) (hji : j ≠ i) (p : Slot) (hp : p ∈ chains j) :
      p ∈ nodes (others size chains i) := mem_flatMap.mpr ⟨_, hother j hj hji, mem_cons_of_mem _ hp⟩
  have hfirst (j : ℕ) (hj : j < size) (hji : j ≠ i) : Disjoint l' (chains j) := by
    intro p hp hp'
    apply hr.apart (mem_cons_of_mem _ hp)
    rw [nodes_cons]
    exact mem_append_right _ (hnode j hj hji p hp')
  constructor
  · intro j hj
    by_cases hji : j = i
    · rw [hji, update_self]
      exact hr.head
    · rw [update_of_ne hji]
      exact hr.tail.tail.ring _ (hother j hj hji)
  · exact hr.tail.head
  · intro j hj p hp
    by_cases hji : j = i
    · rw [hji, update_self] at hp
      exact hentry p (.inl hp)
    · rw [update_of_ne hji] at hp
      exact h.entries j hj p hp
  · exact fun p hp => hentry p (.inr hp)
  · intro j hj j' hj' hne
    by_cases hji : j = i
    · rw [hji, update_self, update_of_ne (hji ▸ Ne.symm hne)]
      exact hfirst j' hj' (hji ▸ Ne.symm hne)
    rw [update_of_ne hji]
    by_cases hji' : j' = i
    · rw [hji', update_self]
      exact (hfirst j hj hji).symm
    · rw [update_of_ne hji']
      exact h.apart j hj j' hj' hne
  · intro j hj
    by_cases hji : j = i
    · rw [hji, update_self]
      intro p hp hp'
      apply hr.apart (mem_cons_of_mem _ hp)
      rw [nodes_cons]
      exact mem_append_left _ (mem_cons_of_mem _ hp')
    · rw [update_of_ne hji]
      exact fun p hp hp' => hr.tail.apart (mem_cons_of_mem _ hp') (hnode j hj hji p hp)

variable {p : Slot} {l₁ l₂ : List Slot}

theorem Linked.front (h : Linked m size chains spares) (hi : i < size)
    (hl : chains i = l₁ ++ p :: l₂) : Linked (listInsert (listRemove m p) (.chain i) p) size
      (update chains i (p :: (l₁ ++ l₂))) spares := by
  have hrings := h.rings hi
  rw [hl] at hrings
  apply h.of_rings (rings_insert (rings_take hrings) hrings.not_mem) _ hi
  rw [hl]
  exact perm_middle.symm.append_right spares

theorem Linked.take (h : Linked m size chains (p :: spares)) (hi : i < size) :
    Linked (listInsert (listRemove m p) (.chain i) p) size (update chains i (p :: chains i)) spares := by
  have hrings : m.Rings ((.spares, [] ++ p :: spares) :: (.chain i, chains i) :: others size chains i) :=
    (h.rings hi).perm (.swap ..)
  apply h.of_rings (rings_insert ((rings_take hrings).perm (.swap ..)) _) perm_middle.symm hi
  exact fun hmem => hrings.not_mem (((List.Perm.swap ..).flatMap_right _).mem_iff.mp hmem)

theorem Linked.release (h : Linked m size chains spares) (hi : i < size)
    (hl : chains i = l₁ ++ p :: l₂) : Linked (listInsert (listRemove m p) .spares p) size
      (update chains i (l₁ ++ l₂)) (p :: spares) := by
  have hrings := h.rings hi
  rw [hl] at hrings
  apply h.of_rings ((rings_insert ((rings_take hrings).perm (.swap ..)) _).perm (.swap ..)) _ hi
  · exact fun hmem => hrings.not_mem (((List.Perm.swap ..).flatMap_right _).mem_iff.mp hmem)
  · rw [hl, append_assoc, append_assoc, cons_append]
    exact perm_middle.append_left l₁

end linked

structure Means {K N V : Type} (name : K → N) (calcHash : K → ℕ → ℕ) (h : Table K V)
    (chains : ℕ → List Slot) (m : BoundedMap N V) : Prop where
  keyed : ∀ i < h.size, ∀ p ∈ chains i, ∃ k, h.key p = some k ∧ calcHash k h.size = i ∧
    name k ∈ m.keys ∧ m.get (name k) = h.value p
  found : ∀ n ∈ m.keys, ∃ i < h.size, ∃ p ∈ chains i, ∃ k, h.key p = some k ∧ name k = n
  unique : ∀ i < h.size, ∀ p ∈ chains i, ∀ q ∈ chains i, ∀ a b, h.key p = some a →
    h.key q = some b → name a = name b → p = q

variable {K N V : Type} {name : K → N} {calcHash : K → ℕ → ℕ} {cmp : K → K → ℤ} {h : Table K V}
  {chains chains' : ℕ → List Slot} {spares : List Slot} {m : BoundedMap N V} {k : K} {i num : ℕ}
  {p g : Slot} {links : Links Slot}

section means

theorem Means.congr (hm : Means name calcHash h chains m)
    (hmem : ∀ j < h.size, ∀ q, q ∈ chains' j ↔ q ∈ chains j) :
    Means name calcHash { h with links := links } chains' m := by
  constructor
  · intro j hj q hq
    exact hm.keyed j hj q ((hmem j hj q).mp hq)
  · intro n hn
    obtain ⟨j, hj, q, hq, hk⟩ := hm.found n hn
    exact ⟨j, hj, q, (hmem j hj q).mpr hq, hk⟩
  · intro j hj q hq q' hq'
    exact hm.unique j hj q ((hmem j hj q).mp hq) q' ((hmem j hj q').mp hq')

theorem Means.length_le (hm : Means name calcHash h chains m) (hi : i < h.size)
    (hnodup : (chains i).Nodup) : (chains i).length ≤ m.keys.card := by
  classical
  calc (chains i).length = (chains i).toFinset.card := (toFinset_card_of_nodup hnodup).symm
    _ ≤ (m.keys.image some).card := by
      apply Finset.card_le_card_of_injOn (fun p => (h.key p).map name)
      · intro p hp
        obtain ⟨k, hk, -, hkeys, -⟩ := hm.keyed i hi p (mem_toFinset.mp hp)
        rw [Finset.mem_coe, Finset.mem_image]
        refine ⟨name k, hkeys, ?_⟩
        change some (name k) = (h.key p).map name
        rw [hk]
        rfl
      · intro p hp q hq hpq
        obtain ⟨a, ha, -⟩ := hm.keyed i hi p (mem_toFinset.mp hp)
        obtain ⟨b, hb, -⟩ := hm.keyed i hi q (mem_toFinset.mp hq)
        apply hm.unique i hi p (mem_toFinset.mp hp) q (mem_toFinset.mp hq) a b ha hb
        have hab : (some a).map name = (some b).map name := by rwa [← ha, ← hb]
        exact some.inj hab
    _ ≤ m.keys.card := Finset.card_image_le

variable (hf : Hashing name calcHash cmp)
include hf

theorem Means.same (hm : Means name calcHash h chains m) {j : ℕ} {q : Slot} {a b : K}
    (hi : i < h.size) (hp : p ∈ chains i) (hj : j < h.size) (hq : q ∈ chains j)
    (ha : h.key p = some a) (hb : h.key q = some b) (hab : name a = name b) : i = j ∧ p = q := by
  obtain ⟨a', ha', hai, -⟩ := hm.keyed i hi p hp
  obtain ⟨b', hb', hbj, -⟩ := hm.keyed j hj q hq
  obtain rfl : a = a' := some.inj (ha.symm.trans ha')
  obtain rfl : b = b' := some.inj (hb.symm.trans hb')
  have hij : i = j := by rw [← hai, ← hbj, hf.calc_congr a b h.size hab]
  subst hij
  exact ⟨rfl, hm.unique i hi p hp q hq a b ha hb hab⟩

theorem hits_iff (k : K) (hp : h.key p = some k) (k' : K) : hits cmp h k' p = true ↔ name k' = name k := by
  simp [hits, hp, hf.cmp_iff]

variable [DecidableEq N]

theorem Means.put (hm : Means name calcHash h chains m) (v : Option V)
    (hi : i < h.size) (hk : calcHash k h.size = i)
    (hmem : ∀ j < h.size, ∀ q, q ∈ chains' j ↔ q ∈ chains j ∨ j = i ∧ q = p)
    (hp : ∀ j < h.size, p ∈ chains j → ∀ a, h.key p = some a → name a = name k)
    (hother : ∀ j < h.size, ∀ q ∈ chains j, q ≠ p → ∀ a, h.key q = some a → name a ≠ name k) :
    Means name calcHash (setEntry { h with links := links, num := num } p (some k) v) chains'
      (m.put (name k) v) := by
  have hchain : ∀ j < h.size, ∀ q ∈ chains' j, (j = i ∧ q = p) ∨ q ∈ chains j ∧ q ≠ p := by
    intro j hj q hq
    rcases (hmem j hj q).mp hq with hq | hq
    · by_cases hqp : q = p
      · subst hqp
        obtain ⟨a, ha, haj, -⟩ := hm.keyed j hj q hq
        refine .inl ⟨?_, rfl⟩
        rw [← haj, ← hk]
        exact hf.calc_congr a k h.size (hp j hj hq a ha)
      · exact .inr ⟨hq, hqp⟩
    · exact .inl hq
  have hself : update h.key p (some k) p = some k := update_self ..
  have hrest : ∀ q, q ≠ p → update h.key p (some k) q = h.key q := by
    intro q hqp
    exact update_of_ne hqp _ _
  constructor
  · intro j hj q hq
    rcases hchain j hj q hq with ⟨rfl, rfl⟩ | ⟨hq, hqp⟩
    · refine ⟨k, hself, hk, Finset.mem_insert_self .., ?_⟩
      simp [setEntry, BoundedMap.put]
    · obtain ⟨a, ha, haj, hak, hav⟩ := hm.keyed j hj q hq
      refine ⟨a, (hrest q hqp).trans ha, haj, Finset.mem_insert_of_mem hak, ?_⟩
      have hne := hother j hj q hq hqp a ha
      simp [setEntry, BoundedMap.put, hne, hqp, hav]
  · intro n hn
    by_cases hnk : n = name k
    · exact ⟨i, hi, p, (hmem i hi p).mpr (.inr ⟨rfl, rfl⟩), k, hself, hnk.symm⟩
    obtain ⟨j, hj, q, hq, a, ha, han⟩ := hm.found n (Finset.mem_of_mem_insert_of_ne hn hnk)
    have hqp : q ≠ p := by
      rintro rfl
      exact hnk (han.symm.trans (hp j hj hq a ha))
    exact ⟨j, hj, q, (hmem j hj q).mpr (.inl hq), a, (hrest q hqp).trans ha, han⟩
  · intro j hj q hq q' hq' a b ha hb hab
    change update h.key p (some k) q = some a at ha
    change update h.key p (some k) q' = some b at hb
    rcases hchain j hj q hq with ⟨-, rfl⟩ | ⟨hq, hqp⟩
    · rcases hchain j hj q' hq' with ⟨-, rfl⟩ | ⟨hq', hqp'⟩
      · rfl
      · rw [hself] at ha
        rw [hrest q' hqp'] at hb
        cases ha
        exact absurd hab.symm (hother j hj q' hq' hqp' b hb)
    · rw [hrest q hqp] at ha
      rcases hchain j hj q' hq' with ⟨-, rfl⟩ | ⟨hq', hqp'⟩
      · rw [hself] at hb
        cases hb
        exact absurd hab (hother j hj q hq hqp a ha)
      · rw [hrest q' hqp'] at hb
        exact hm.unique j hj q hq q' hq' a b ha hb hab

theorem Means.remove (hm : Means name calcHash h chains m)
    (hi : i < h.size) (hin : p ∈ chains i) (hp : h.key p = some k)
    (hmem : ∀ j < h.size, ∀ q, q ∈ chains' j ↔ q ∈ chains j ∧ q ≠ p) :
    Means name calcHash (setEntry { h with links := links, num := num } p none none) chains'
      (m.remove (name k)) := by
  have hrest : ∀ q, q ≠ p → update h.key p none q = h.key q := by
    intro q hqp
    exact update_of_ne hqp _ _
  constructor
  · intro j hj q hq
    obtain ⟨hq, hqp⟩ := (hmem j hj q).mp hq
    obtain ⟨a, ha, haj, hak, hav⟩ := hm.keyed j hj q hq
    have hne : name a ≠ name k := by
      intro hab
      exact hqp (hm.same hf hj hq hi hin ha hp hab).2
    refine ⟨a, (hrest q hqp).trans ha, haj, Finset.mem_erase.mpr ⟨hne, hak⟩, ?_⟩
    simp [setEntry, BoundedMap.remove, hne, hqp, hav]
  · intro n hn
    obtain ⟨hnk, hn⟩ := Finset.mem_erase.mp hn
    obtain ⟨j, hj, q, hq, a, ha, han⟩ := hm.found n hn
    have hqp : q ≠ p := by
      rintro rfl
      apply hnk
      rw [← han, some.inj (ha.symm.trans hp)]
    exact ⟨j, hj, q, (hmem j hj q).mpr ⟨hq, hqp⟩, a, (hrest q hqp).trans ha, han⟩
  · intro j hj q hq q' hq' a b ha hb hab
    obtain ⟨hq, hqp⟩ := (hmem j hj q).mp hq
    obtain ⟨hq', hqp'⟩ := (hmem j hj q').mp hq'
    exact hm.unique j hj q hq q' hq' a b ((hrest q hqp).symm.trans ha) ((hrest q' hqp').symm.trans hb) hab

end means

theorem findEntryFrom_eq (l₁ l₂ : List Slot) (hring : h.links.Ring g (l₁ ++ l₂)) (fuel : ℕ)
    (hfuel : l₂.length < fuel) : findEntryFrom cmp h g k fuel (l₂.headD g) = l₂.find? (hits cmp h k) := by
  induction l₂ generalizing l₁ fuel with
  | nil =>
    obtain _ | fuel := fuel
    · omega
    simp [findEntryFrom]
  | cons p l₂ ih =>
    obtain _ | fuel := fuel
    · omega
    have hne : g ≠ p := by
      rintro rfl
      exact hring.not_mem mem_cons_self
    have hnext : h.links.next p = l₂.headD g := by
      rw [hring.next_mem]
      cases l₂ <;> rfl
    rw [headD_cons, findEntryFrom, if_neg hne, find?_cons]
    cases hits cmp h k p with
    | true => simp
    | false =>
      rw [append_cons] at hring
      simp only [Bool.false_eq_true, if_false]
      rw [hnext]
      exact ih (l₁ ++ [p]) hring fuel (Nat.lt_of_succ_lt_succ hfuel)

theorem findEntry_eq {l : List Slot} (hring : h.links.Ring g l) (hl : l.length ≤ h.max) :
    findEntry cmp h g k = l.find? (hits cmp h k) := by
  rw [findEntry, hring.next_eq]
  exact findEntryFrom_eq [] l hring _ (Nat.lt_succ_of_le hl)

def Stored {K V : Type} (h : Table K V) (chains : ℕ → List Slot) (k : K) (v : Option V) : Prop :=
  ∃ i < h.size, ∃ p ∈ chains i, h.key p = some k ∧ h.value p = v

structure Holds {K N V : Type} (name : K → N) (calcHash : K → ℕ → ℕ) (h : Table K V)
    (chains : ℕ → List Slot) (spares : List Slot) (m : BoundedMap N V) : Prop where
  size_pos : 0 < h.size
  linked : Linked h.links h.size chains spares
  means : Means name calcHash h chains m
  num_eq : h.num = m.keys.card
  full : h.num + spares.length = h.max

theorem Holds.rename {K N V : Type} {name name' : K → N} {calcHash calcHash' : K → ℕ → ℕ}
    {h : Table K V} {chains : ℕ → List Slot} {spares : List Slot} {m : BoundedMap N V}
    (hh : Holds name calcHash h chains spares m)
    (hsame : ∀ k v, Stored h chains k v → name' k = name k ∧ calcHash' k h.size = calcHash k h.size) :
    Holds name' calcHash' h chains spares m := by
  have hkeyed : ∀ i < h.size, ∀ p ∈ chains i, ∀ k, h.key p = some k →
      name' k = name k ∧ calcHash' k h.size = calcHash k h.size := by
    intro i hi p hp k hk
    exact hsame k (h.value p) ⟨i, hi, p, hp, hk, rfl⟩
  refine ⟨hh.size_pos, hh.linked, ?_, hh.num_eq, hh.full⟩
  constructor
  · intro i hi p hp
    obtain ⟨k, hk, hki, hkeys, hvalue⟩ := hh.means.keyed i hi p hp
    obtain ⟨hname, hcalc⟩ := hkeyed i hi p hp k hk
    refine ⟨k, hk, ?_, ?_, ?_⟩
    · rw [hcalc, hki]
    · rw [hname]
      exact hkeys
    · rw [hname, hvalue]
  · intro n hn
    obtain ⟨i, hi, p, hp, k, hk, hkn⟩ := hh.means.found n hn
    refine ⟨i, hi, p, hp, k, hk, ?_⟩
    rw [(hkeyed i hi p hp k hk).1, hkn]
  · intro i hi p hp q hq a b ha hb hab
    rw [(hkeyed i hi p hp a ha).1, (hkeyed i hi q hq b hb).1] at hab
    exact hh.means.unique i hi p hp q hq a b ha hb hab

section steps

theorem step_max (op : Op K V) : (step calcHash cmp h op).2.max = h.max := by
  cases op with
  | get k =>
    change (hashGet calcHash cmp h k).2.max = h.max
    simp only [hashGet]
    split
    · rfl
    · split <;> rfl
  | put k v =>
    change (hashPut calcHash cmp h k v).2.max = h.max
    simp only [hashPut]
    split
    · rfl
    · split <;> rfl
  | remove k =>
    change (hashRemove calcHash cmp h k).2.max = h.max
    simp only [hashRemove]
    split <;> rfl

variable (hf : Hashing name calcHash cmp)
include hf

theorem Holds.find (hh : Holds name calcHash h chains spares m) (k : K) :
    (findEntry cmp h (getHead calcHash h k) k = none ∧ name k ∉ m.keys) ∨
      ∃ l₁ p l₂ a, findEntry cmp h (getHead calcHash h k) k = some p ∧
        chains (calcHash k h.size) = l₁ ++ p :: l₂ ∧ p ∈ chains (calcHash k h.size) ∧
        h.key p = some a ∧ name a = name k ∧ name k ∈ m.keys ∧ m.get (name k) = h.value p := by
  have hi : calcHash k h.size < h.size := hf.calc_lt k h.size hh.size_pos
  have hring := hh.linked.table _ hi
  have hlength : (chains (calcHash k h.size)).length ≤ h.max := by
    have hle := hh.means.length_le hi hring.nodup.of_cons
    rw [← hh.num_eq] at hle
    exact hle.trans (hh.full ▸ Nat.le_add_right ..)
  rw [getHead, findEntry_eq hring hlength]
  cases hfind : (chains (calcHash k h.size)).find? (hits cmp h k) with
  | none =>
    refine .inl ⟨rfl, ?_⟩
    intro hn
    obtain ⟨j, hj, q, hq, a, ha, hak⟩ := hh.means.found _ hn
    obtain ⟨a', ha', haj, -⟩ := hh.means.keyed j hj q hq
    obtain rfl : a = a' := some.inj (ha.symm.trans ha')
    rw [← haj, hf.calc_congr a k h.size hak] at hq
    exact find?_eq_none.mp hfind q hq ((hits_iff hf a ha k).mpr hak.symm)
  | some p =>
    obtain ⟨hhit, l₁, l₂, hl, -⟩ := find?_eq_some_iff_append.mp hfind
    have hp : p ∈ chains (calcHash k h.size) := mem_of_find?_eq_some hfind
    obtain ⟨a, ha, -, hkeys, hvalue⟩ := hh.means.keyed _ hi p hp
    have hak := (hits_iff hf a ha k).mp hhit
    rw [← hak] at hkeys hvalue
    exact .inr ⟨l₁, p, l₂, a, rfl, hl, hp, ha, hak.symm, hkeys, hvalue⟩

theorem hashGet_holds (hh : Holds name calcHash h chains spares m) (k : K) :
    (hashGet calcHash cmp h k).1 = m.get (name k) ∧
      ∃ chains', Holds name calcHash (hashGet calcHash cmp h k).2 chains' spares m ∧
        ∀ a b, Stored (hashGet calcHash cmp h k).2 chains' a b → Stored h chains a b := by
  have hi : calcHash k h.size < h.size := hf.calc_lt k h.size hh.size_pos
  rcases hh.find hf k with ⟨hfind, hn⟩ | ⟨l₁, p, l₂, a, hfind, hl, hp, ha, hak, hkeys, hvalue⟩
  · simp only [hashGet, hfind]
    exact ⟨(m.outside _ hn).symm, chains, hh, fun _ _ => id⟩
  simp only [hashGet, hfind]
  split
  · have hmem : ∀ j < h.size, ∀ q, q ∈ update chains (calcHash k h.size) (p :: (l₁ ++ l₂)) j ↔ q ∈ chains j := by
      intro j hj q
      by_cases hji : j = calcHash k h.size
      · rw [hji, update_self, hl]
        exact perm_middle.symm.mem_iff
      · rw [update_of_ne hji]
    refine ⟨hvalue.symm, update chains (calcHash k h.size) (p :: (l₁ ++ l₂)), ?_, ?_⟩
    · constructor
      · exact hh.size_pos
      · exact hh.linked.front hi hl
      · exact hh.means.congr hmem
      · exact hh.num_eq
      · exact hh.full
    · rintro a b ⟨j, hj, q, hq, hkey⟩
      exact ⟨j, hj, q, (hmem j hj q).mp hq, hkey⟩
  · exact ⟨hvalue.symm, chains, hh, fun _ _ => id⟩

variable [DecidableEq N]

omit hf in
theorem setEntry_stored {chains' : ℕ → List Slot} {i : ℕ} {p : Slot} {v : Option V}
    (hmem : ∀ j < h.size, ∀ q, q ∈ chains' j ↔ q ∈ chains j ∨ j = i ∧ q = p) (a : K) (b : Option V)
    (hs : Stored (setEntry { h with links := links, num := num } p (some k) v) chains' a b) :
    Stored h chains a b ∨ a = k ∧ b = v := by
  obtain ⟨j, hj, q, hq, hkey, hvalue⟩ := hs
  change update h.key p (some k) q = some a at hkey
  change update h.value p v q = b at hvalue
  by_cases hqp : q = p
  · rw [hqp, update_self] at hkey hvalue
    exact .inr ⟨(some.inj hkey).symm, hvalue.symm⟩
  · rw [update_of_ne hqp] at hkey hvalue
    have hin : q ∈ chains j := ((hmem j hj q).mp hq).resolve_right fun h => hqp h.2
    exact .inl ⟨j, hj, q, hin, hkey, hvalue⟩

section

variable (hh : Holds name calcHash h chains spares m)
include hh

theorem hashPut_holds (k : K) (v : Option V) : let r := BoundedMap.step name h.max m (.put k v)
    Reply.code (hashPut calcHash cmp h k v).1 = r.1 ∧
      ∃ chains' spares', Holds name calcHash (hashPut calcHash cmp h k v).2 chains' spares' r.2 ∧
        ∀ a b, Stored (hashPut calcHash cmp h k v).2 chains' a b → Stored h chains a b ∨ a = k ∧ b = v := by
  have hi : calcHash k h.size < h.size := hf.calc_lt k h.size hh.size_pos
  rcases hh.find hf k with ⟨hfind, hn⟩ | ⟨l₁, p, l₂, a, hfind, hl, hp, ha, hak, hkeys, hvalue⟩
  · have hfree := hh.linked.free
    cases spares with
    | nil =>
      have hcard : ¬(name k ∈ m.keys ∨ m.keys.card < h.max) := by
        have hfull : h.num = h.max := hh.full
        rw [← hh.num_eq, hfull]
        simp [hn]
      simp only [hashPut, hfind, listPick_nil hfree, BoundedMap.step, if_neg hcard]
      exact ⟨trivial, chains, [], hh, fun _ _ => .inl⟩
    | cons p spares =>
      have hfull : h.num + (spares.length + 1) = h.max := hh.full
      have hcard : name k ∈ m.keys ∨ m.keys.card < h.max := by
        right
        rw [← hh.num_eq]
        omega
      simp only [hashPut, hfind, listPick_cons hfree, BoundedMap.step, if_pos hcard]
      have hmem : ∀ j < h.size, ∀ q, q ∈ update chains (calcHash k h.size) (p :: chains (calcHash k h.size)) j ↔
            q ∈ chains j ∨ j = calcHash k h.size ∧ q = p := by
        intro j hj q
        by_cases hji : j = calcHash k h.size
        · rw [hji, update_self, mem_cons]
          simp [or_comm]
        · rw [update_of_ne hji]
          simp [hji]
      refine ⟨trivial, update chains (calcHash k h.size) (p :: chains (calcHash k h.size)),
        spares, ?_, setEntry_stored hmem⟩
      constructor
      · exact hh.size_pos
      · exact hh.linked.take hi
      · apply hh.means.put hf v hi rfl hmem
        · intro j hj hin
          exact absurd mem_cons_self (hh.linked.aside j hj hin)
        · intro j hj q hq _ a ha hak
          obtain ⟨a', ha', -, hkeys, -⟩ := hh.means.keyed j hj q hq
          obtain rfl : a = a' := some.inj (ha.symm.trans ha')
          exact hn (hak ▸ hkeys)
      · change h.num + 1 = (insert (name k) m.keys).card
        rw [Finset.card_insert_of_notMem hn, hh.num_eq]
      · change h.num + 1 + spares.length = h.max
        omega
  · simp only [hashPut, hfind, BoundedMap.step, if_pos (Or.inl hkeys)]
    have hmem : ∀ j < h.size, ∀ q, q ∈ chains j ↔ q ∈ chains j ∨ j = calcHash k h.size ∧ q = p := by
      intro j hj q
      constructor
      · exact .inl
      · rintro (hq | ⟨rfl, rfl⟩)
        · exact hq
        · exact hp
    refine ⟨trivial, chains, spares, ?_, setEntry_stored hmem⟩
    constructor
    · exact hh.size_pos
    · exact hh.linked
    · apply hh.means.put hf v hi rfl hmem
      · intro j hj hin b hb
        rw [← hak, some.inj (hb.symm.trans ha)]
      · intro j hj q hq hqp b hb hbk
        exact hqp (hh.means.same hf hj hq hi hp hb ha (hbk.trans hak.symm)).2
    · change h.num = (insert (name k) m.keys).card
      rw [Finset.insert_eq_of_mem hkeys, hh.num_eq]
    · exact hh.full

theorem hashRemove_holds (k : K) : let r := BoundedMap.step (V := V) name h.max m (.remove k)
    Reply.code (hashRemove calcHash cmp h k).1 = r.1 ∧
      ∃ chains' spares', Holds name calcHash (hashRemove calcHash cmp h k).2 chains' spares' r.2 ∧
        ∀ a b, Stored (hashRemove calcHash cmp h k).2 chains' a b → Stored h chains a b := by
  have hi : calcHash k h.size < h.size := hf.calc_lt k h.size hh.size_pos
  rcases hh.find hf k with ⟨hfind, hn⟩ | ⟨l₁, p, l₂, a, hfind, hl, hp, ha, hak, hkeys, hvalue⟩
  · simp only [hashRemove, hfind, BoundedMap.step, if_neg hn]
    exact ⟨trivial, chains, spares, hh, fun _ _ => id⟩
  have hpos : 0 < m.keys.card := Finset.card_pos.mpr ⟨_, hkeys⟩
  simp only [hashRemove, hfind, BoundedMap.step, if_pos hkeys]
  have hmem : ∀ j < h.size, ∀ q, q ∈ update chains (calcHash k h.size) (l₁ ++ l₂) j ↔ q ∈ chains j ∧ q ≠ p := by
    intro j hj q
    by_cases hji : j = calcHash k h.size
    · have hring := hh.linked.table _ hi
      rw [hl] at hring
      have hpl : p ∉ l₁ ++ l₂ := fun hmem => hring.not_mem (mem_cons_of_mem _ hmem)
      rw [hji, update_self, hl, perm_middle.mem_iff, mem_cons]
      constructor
      · intro hq
        exact ⟨.inr hq, fun hqp => hpl (hqp ▸ hq)⟩
      · rintro ⟨hq | hq, hqp⟩
        · exact absurd hq hqp
        · exact hq
    · rw [update_of_ne hji]
      constructor
      · intro hq
        refine ⟨hq, ?_⟩
        rintro rfl
        exact hh.linked.apart j hj _ hi hji hq hp
      · exact And.left
  refine ⟨trivial, update chains (calcHash k h.size) (l₁ ++ l₂), p :: spares, ?_, ?_⟩
  rotate_left
  · rintro a' b ⟨j, hj, q, hq, hkey, hvalue⟩
    obtain ⟨hq, hqp⟩ := (hmem j hj q).mp hq
    change update h.key p none q = some a' at hkey
    change update h.value p none q = b at hvalue
    rw [update_of_ne hqp] at hkey hvalue
    exact ⟨j, hj, q, hq, hkey, hvalue⟩
  constructor
  · exact hh.size_pos
  · exact hh.linked.release hi hl
  · rw [← hak]
    exact hh.means.remove hf hi hp ha hmem
  · change h.num - 1 = (m.keys.erase (name k)).card
    rw [Finset.card_erase_of_mem hkeys, hh.num_eq]
  · have hfull := hh.full
    have hnum := hh.num_eq
    change h.num - 1 + (spares.length + 1) = h.max
    omega

theorem step_holds (op : Op K V) : (step calcHash cmp h op).1 = (m.step name h.max op).1 ∧
      ∃ chains' spares', Holds name calcHash (step calcHash cmp h op).2 chains' spares'
        (m.step name h.max op).2 := by
  cases op with
  | get k =>
    obtain ⟨hvalue, chains', hh', -⟩ := hashGet_holds hf hh k
    exact ⟨congrArg Reply.value hvalue, chains', spares, hh'⟩
  | put k v =>
    obtain ⟨hcode, chains', spares', hh', -⟩ := hashPut_holds hf hh k v
    exact ⟨hcode, chains', spares', hh'⟩
  | remove k =>
    obtain ⟨hcode, chains', spares', hh', -⟩ := hashRemove_holds hf hh k
    exact ⟨hcode, chains', spares', hh'⟩

theorem run_holds (ops : List (Op K V)) : (run calcHash cmp h ops).1 = (m.run name h.max ops).1 ∧
      ∃ chains' spares', Holds name calcHash (run calcHash cmp h ops).2 chains' spares'
        (m.run name h.max ops).2 := by
  induction ops generalizing h chains spares m with
  | nil => exact ⟨rfl, chains, spares, hh⟩
  | cons op ops ih =>
    obtain ⟨hreply, chains', spares', hh'⟩ := step_holds hf hh op
    obtain ⟨hreplies, hend⟩ := ih hh'
    rw [step_max] at hreplies hend
    exact ⟨congrArg₂ cons hreply hreplies, hend⟩

end

end steps

theorem primes_getD_pos : ∀ n < 16, 0 < primes.getD n 0 := by decide

theorem foldl_append_ring (m : Links Slot) (l l' : List Slot) (hring : m.Ring .spares l)
    (hnodup : (Slot.spares :: (l ++ l')).Nodup) :
    (l'.foldl (fun m p => listAppend m .spares p) m).Ring .spares (l ++ l') := by
  induction l' generalizing m l with
  | nil =>
    rw [append_nil]
    exact hring
  | cons p l' ih =>
    rw [append_cons] at hnodup ⊢
    apply ih _ _ _ hnodup
    apply listAppend_ring hring
    rw [← cons_append, ← cons_append] at hnodup
    have hpart := hnodup.of_append_left
    rw [nodup_append'] at hpart
    exact fun hmem => hpart.2.2 hmem (mem_singleton_self p)

theorem initList_ring (m : Links Slot) (n : ℕ) : (initList m n).Ring .spares ((range n).map .entry) := by
  rw [initList, ← foldl_map (f := Slot.entry) (g := fun m p => listAppend m .spares p)]
  apply foldl_append_ring _ [] _ (listInitialize_ring m .spares)
  rw [nil_append, nodup_cons]
  constructor
  · simp
  · exact nodup_range.map (fun a b hab => Slot.entry.inj hab)

theorem initTbl_spec (m : Links Slot) (n : ℕ) : (∀ i < n, (initTbl m n).Ring (.chain i) []) ∧
      ∀ x, (∀ i, x ≠ .chain i) → (initTbl m n).next x = m.next x ∧ (initTbl m n).prev x = m.prev x := by
  induction n with
  | zero => exact ⟨fun i hi => absurd hi (Nat.not_lt_zero i), fun x _ => ⟨rfl, rfl⟩⟩
  | succ n ih =>
    have hsucc : initTbl m (n + 1) = listInitialize (initTbl m n) (.chain n) := by
      rw [initTbl, range_succ, foldl_append]
      rfl
    rw [hsucc]
    constructor
    · intro i hi
      by_cases hin : i = n
      · rw [hin]
        exact listInitialize_ring _ _
      apply (ih.1 i (by omega)).congr
      intro x hx
      rw [mem_singleton] at hx
      apply listInitialize_other
      rw [hx]
      exact fun heq => hin (Slot.chain.inj heq)
    · intro x hx
      rw [(listInitialize_other (hx n)).1, (listInitialize_other (hx n)).2]
      exact ih.2 x hx

theorem hashCreate_holds (max : ℕ) (fresh h : Table K V)
    (hcreate : hashCreate max (some fresh) = some h) : h.max = max ∧
      Holds name calcHash h (fun _ => []) ((range max).map .entry) (BoundedMap.empty : BoundedMap N V) := by
  simp only [hashCreate, some.injEq] at hcreate
  subst hcreate
  refine ⟨rfl, ?_, ?_, ?_, rfl, ?_⟩
  · apply primes_getD_pos
    have hbits : ∀ bits : ℕ, (if bits < hashMinBits then hashMinBits
        else if bits > hashMaxBits then hashMaxBits else bits) - hashMinBits < 16 := by
      intro bits
      unfold hashMinBits hashMaxBits
      split_ifs <;> omega
    exact hbits _
  · obtain ⟨htable, hother⟩ := initTbl_spec (initList fresh.links max) _
    refine ⟨htable, ?_, ?_, ?_, ?_, ?_⟩
    · apply (initList_ring fresh.links max).congr
      intro x hx
      apply hother
      rintro i rfl
      simp at hx
    · intro i _ p hp
      exact absurd hp not_mem_nil
    · intro p hp
      obtain ⟨j, -, hj⟩ := mem_map.mp hp
      exact ⟨j, hj.symm⟩
    · intro i _ j _ _
      exact disjoint_nil_left _
    · intro i _
      exact disjoint_nil_left _
  · constructor
    · intro i _ p hp
      exact absurd hp not_mem_nil
    · intro n hn
      exact absurd hn (Finset.notMem_empty n)
    · intro i _ p hp
      exact absurd hp not_mem_nil
  · simp

theorem hash_run {K N V : Type} [DecidableEq N] {name : K → N} {calcHash : K → ℕ → ℕ}
    {cmp : K → K → ℤ} (hf : Hashing name calcHash cmp) (max : ℕ) (fresh h : Table K V)
    (hcreate : hashCreate max (some fresh) = some h) (ops : List (Op K V)) :
    (run calcHash cmp h ops).1 = (BoundedMap.empty.run name max ops).1 ∧
      ∃ chains spares, Holds name calcHash (run calcHash cmp h ops).2 chains spares
        (BoundedMap.empty.run name max ops).2 := by
  obtain ⟨rfl, hholds⟩ := hashCreate_holds max fresh h hcreate
  exact run_holds hf hholds ops

def pairTable : Table ℕ ℕ where
  links := initTbl (initList ⟨fun _ => .spares, fun _ => .spares⟩ 2) 31
  key := fun _ => none
  value := fun _ => none
  size := 31
  num := 0
  max := 2

def pairOps : List (Op ℕ ℕ) :=
  [.put 1 (some 10), .put 32 (some 20), .get 1, .put 5 (some 30), .remove 32, .put 5 none, .get 32]

theorem hashing_mod : Hashing (id : ℕ → ℕ) (fun k size => k % size) (fun a b => (a : ℤ) - b) where
  cmp_iff a b := by
    simp only [id_eq]
    omega
  calc_congr a b size hab := by rw [show a = b from hab]
  calc_lt k _ hsize := Nat.mod_lt k hsize

theorem hash_run_pair : (∃ fresh, hashCreate 2 (some fresh) = some pairTable) ∧
      (run (fun k size => k % size) (fun a b => (a : ℤ) - b) pairTable pairOps).1 =
        [.code true, .code true, .value (some 10), .code false, .code true, .code true, .value none] := by
  have hcreate : hashCreate 2 (some { pairTable with
      links := ⟨fun _ => .spares, fun _ => .spares⟩ }) = some pairTable := rfl
  refine ⟨⟨_, hcreate⟩, ?_⟩
  rw [(hash_run hashing_mod 2 _ pairTable hcreate pairOps).1]
  decide +kernel

end Eotan.Hash
