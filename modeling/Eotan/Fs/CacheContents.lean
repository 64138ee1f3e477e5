import Eotan.Fs.CachePlaces

namespace Eotan.Fs.Cache

open Lib.Bytes (Block)
open Function

variable {κ : Type}

/-- `value` is what was last marked. A block in `unmarked` has a buffer that has been changed since; it
is still locked. -/
structure Faithful (c : Cache κ) (value : κ → Block) (unmarked : Set κ) : Prop where
  cached : ∀ k i, c.hash k = some i → k ∉ unmarked →
    (c.cache i).buf = value k ∧ ((c.cache i).dirty = true ∨ c.disk k = value k)
  uncached : ∀ k, c.hash k = none → c.disk k = value k
  held : ∀ k ∈ unmarked, ∃ i, c.hash k = some i ∧ 0 < (c.cache i).lockCount

variable {c c' c₁ c₂ : Cache κ} {i : ℕ} {k : κ} {value : κ → Block} {unmarked : Set κ}

structure FaithfulAt (c : Cache κ) (value : κ → Block) (unmarked : Set κ) (k : κ) : Prop where
  cached : ∀ i, c.hash k = some i → k ∉ unmarked →
    (c.cache i).buf = value k ∧ ((c.cache i).dirty = true ∨ c.disk k = value k)
  uncached : c.hash k = none → c.disk k = value k
  held : k ∈ unmarked → ∃ i, c.hash k = some i ∧ 0 < (c.cache i).lockCount

theorem faithful_of_at (h : ∀ k, c.FaithfulAt value unmarked k) : c.Faithful value unmarked :=
  ⟨fun k => (h k).cached, fun k => (h k).uncached, fun k => (h k).held⟩

theorem faithfulAt_of_some (hk : c.hash k = some i) (hmarked : k ∉ unmarked →
      (c.cache i).buf = value k ∧ ((c.cache i).dirty = true ∨ c.disk k = value k))
    (hheld : k ∈ unmarked → 0 < (c.cache i).lockCount) : c.FaithfulAt value unmarked k := by
  refine ⟨?_, ?_, fun hin => ⟨i, hk, hheld hin⟩⟩
  · intro j hj
    rw [hk] at hj
    cases hj
    exact hmarked
  · intro hnone
    rw [hk] at hnone
    cases hnone

theorem Faithful.keep (h : c.Faithful value unmarked) {value' : κ → Block} {unmarked' : Set κ}
    (hhash : c'.hash k = c.hash k) (hdisk : c'.disk k = c.disk k)
    (hentry : ∀ j, c.hash k = some j → c'.cache j = c.cache j) (hvalue : value' k = value k)
    (hin : k ∈ unmarked' ↔ k ∈ unmarked) : c'.FaithfulAt value' unmarked' k := by
  refine ⟨?_, ?_, ?_⟩
  · intro j hj hk
    rw [hhash] at hj
    rw [hin] at hk
    rw [hentry j hj, hdisk, hvalue]
    exact h.cached k j hj hk
  · rw [hhash, hdisk, hvalue]
    exact h.uncached k
  · rw [hin, hhash]
    intro hk
    obtain ⟨j, hj, hpos⟩ := h.held k hk
    refine ⟨j, hj, ?_⟩
    rw [hentry j hj]
    exact hpos

theorem Faithful.of_unlocked (h : c.Faithful value unmarked) (hk : c.hash k = some i)
    (hzero : (c.cache i).lockCount = 0) : k ∉ unmarked := by
  intro hin
  obtain ⟨j, hj, hpos⟩ := h.held k hin
  rw [hk] at hj
  cases hj
  omega

theorem Faithful.change (h : c.Faithful value unmarked) (hhash : c'.hash = c.hash)
    (hdisk : c'.disk = c.disk) {e : Entry κ} (hcache : c'.cache = update c.cache i e)
    (hentry : ∀ k, c.hash k = some i → e.buf = (c.cache i).buf ∧
      ((c.cache i).dirty = true → e.dirty = true) ∧
      (k ∈ unmarked → 0 < (c.cache i).lockCount → 0 < e.lockCount)) : c'.Faithful value unmarked := by
  have hat (k : κ) (j : ℕ) (hj : c.hash k = some j) : (c'.cache j).buf = (c.cache j).buf ∧
      ((c.cache j).dirty = true → (c'.cache j).dirty = true) ∧
      (k ∈ unmarked → 0 < (c.cache j).lockCount → 0 < (c'.cache j).lockCount) := by
    rw [hcache]
    by_cases hji : j = i
    · subst hji
      rw [update_self]
      exact hentry k hj
    · rw [update_of_ne hji]
      exact ⟨rfl, id, fun _ => id⟩
  refine ⟨?_, ?_, ?_⟩
  · intro k j hj hk
    rw [hhash] at hj
    rw [(hat k j hj).1, hdisk]
    exact (h.cached k j hj hk).imp_right fun hd => hd.imp_left (hat k j hj).2.1
  · intro k hk
    rw [hhash] at hk
    rw [hdisk]
    exact h.uncached k hk
  · intro k hk
    obtain ⟨j, hj, hpos⟩ := h.held k hk
    refine ⟨j, ?_, (hat k j hj).2.2 hk hpos⟩
    rw [hhash]
    exact hj

theorem lock_faithful (h : c.Faithful value unmarked) (i : ℕ) : (lock c i).Faithful value unmarked := by
  have hhash : (lock c i).hash = c.hash := rfl
  exact h.change hhash rfl rfl fun _ _ => ⟨rfl, id, fun _ _ => Nat.succ_pos _⟩

theorem Claimed.hash_eq (hc : Claimed c i c₁) (hk : c.hash k ≠ some i) : c₁.hash k = c.hash k := by
  ext j
  rw [hc.hash, and_iff_right_iff_imp]
  rintro hj rfl
  exact hk hj

theorem Claimed.none (hc : Claimed c i c₁) (hk : c.hash k = none) : c₁.hash k = none := by
  rw [hc.hash_eq, hk]
  rw [hk]
  exact nofun

theorem Claimed.faithful (hp : c.Placed) (h : c.Faithful value unmarked) (hc : Claimed c i c₁) :
    c₁.Faithful value unmarked := by
  apply faithful_of_at
  intro k
  by_cases hself : c.hash k = some i
  · have hout := h.of_unlocked hself (hp.unlocked i hc.place)
    obtain ⟨hbuf, hdirty⟩ := h.cached k i hself hout
    refine ⟨?_, fun _ => ?_, fun hin => absurd hin hout⟩
    · intro j hj
      obtain ⟨hne, hj⟩ := (hc.hash k j).mp hj
      exact absurd (Option.some.inj (hj.symm.trans hself)) hne
    · rcases hc.swept k hself with hswept | ⟨hclean, hdisk⟩
      · rw [hswept, hbuf]
      · rw [hdisk]
        apply hdirty.resolve_left
        rw [hclean]
        decide
  · exact h.keep (hc.hash_eq hself) (hc.disk k hself) (fun j _ => by rw [hc.cache]) rfl Iff.rfl

theorem modify_faithful [DecidableEq κ] (hp : c.Placed) (h : c.Faithful value unmarked)
    (hk : c.hash k = some i) {e : Entry κ} (hcache : c'.cache = update c.cache i e) (hhash : c'.hash = c.hash)
    (hdisk : c'.disk = c.disk) (hbuf : e.buf = (c.cache i).buf) (hdirty : e.dirty = true) :
    c'.Faithful (update value k (c.cache i).buf) (unmarked \ {k}) := by
  apply faithful_of_at
  intro k'
  by_cases heq : k' = k
  · subst heq
    refine faithfulAt_of_some (by rw [hhash, hk]) ?_ ?_
    · intro _
      rw [hcache, update_self, update_self]
      exact ⟨hbuf, .inl hdirty⟩
    · exact fun hin => absurd rfl hin.2
  · refine h.keep (by rw [hhash]) (by rw [hdisk]) ?_ (update_of_ne heq _ _) (and_iff_left heq)
    intro j hj
    have hne : j ≠ i := by
      rintro rfl
      exact heq (hp.key_inj hk hj)
    rw [hcache, update_of_ne hne]

variable [DecidableEq κ]

theorem store_faithful (h : c.Faithful value unmarked) (hp : c.Placed) (hk : c.hash k = some i)
    (hpos : 0 < (c.cache i).lockCount) (f : Block → Block) :
    (store c i f).Faithful value (insert k unmarked) := by
  apply faithful_of_at
  intro k'
  by_cases heq : k' = k
  · subst heq
    refine faithfulAt_of_some hk ?_ ?_
    · exact fun hout => absurd (Set.mem_insert _ _) hout
    · intro _
      change 0 < (update c.cache i _ i).lockCount
      rw [update_self]
      exact hpos
  · refine h.keep rfl rfl ?_ rfl (Set.mem_insert_iff.trans (or_iff_right heq))
    intro j hj
    apply update_of_ne
    rintro rfl
    exact heq (hp.key_inj hk hj)

theorem install_faithful (h : c₁.Faithful value unmarked) (hk : c₁.hash k = none)
    (hi : ∀ k', c₁.hash k' ≠ some i) {b : Block}
    (hcache : c₂.cache = update c₁.cache i ⟨k, false, 0, b⟩) (hhash : c₂.hash = c₁.hash)
    (hdisk : c₂.disk = c₁.disk) {unmarked' : Set κ} (hsame : ∀ k' ≠ k, k' ∈ unmarked' ↔ k' ∈ unmarked)
    (hb : k ∉ unmarked' → b = value k) : (lock (hashPut c₂ i) i).Faithful value unmarked' := by
  obtain ⟨hself, hput⟩ := install_eq hcache hhash
  apply faithful_of_at
  intro k'
  by_cases heq : k' = k
  · subst heq
    refine faithfulAt_of_some (i := i) (by rw [hput, update_self]) ?_ ?_
    · intro hout
      rw [hself]
      exact ⟨hb hout, .inr ((congrFun hdisk k').trans (h.uncached k' hk))⟩
    · intro _
      rw [hself]
      exact Nat.one_pos
  · refine h.keep (by rw [hput, update_of_ne heq]) (congrFun hdisk k') ?_ rfl (hsame k' heq)
    intro j hj
    have hne : j ≠ i := by
      rintro rfl
      exact hi k' hj
    simp [lock, hashPut, listRemove, setEntry, hcache, hne]

theorem Got.faithful (hp : c.Placed) (h : c.Faithful value unmarked) {r : Option ℕ}
    (hg : Got k c r c') : c'.Faithful value unmarked := by
  cases hg with
  | hit cached => exact lock_faithful h _
  | full => exact h
  | unswept => exact { h with }
  | @unread i c₁ c₂ uncached claimed failed disk cache freeList lruList lockedList hash =>
    have h1 := claimed.faithful hp h
    have h2 : c₂.Faithful value unmarked :=
      h1.change hash disk cache fun k' hk' => absurd rfl ((claimed.hash k' i).mp hk').1
    exact { h2 with }
  | taken uncached claimed read disk cache freeList lruList lockedList hash =>
    have h1 := claimed.faithful hp h
    apply install_faithful h1 (claimed.none uncached) _ cache hash disk (fun _ _ => Iff.rfl)
    · intro _
      rw [read]
      exact h1.uncached k (claimed.none uncached)
    · intro k' hk'
      exact ((claimed.hash k' _).mp hk').1 rfl

theorem Created.faithful (hp : c.Placed) (h : c.Faithful value unmarked) {r : Option ℕ}
    (hg : Created k c r c') : c'.Faithful value (if r.isSome then insert k unmarked else unmarked) := by
  have hsame (k' : κ) (hk' : k' ≠ k) : k' ∈ insert k unmarked ↔ k' ∈ unmarked :=
    ⟨fun hin => Set.mem_of_mem_insert_of_ne hin hk', Set.mem_insert_of_mem k⟩
  cases hg with
  | hit cached =>
    refine store_faithful (lock_faithful h _) (lock_placed hp cached) cached ?_ _
    change 0 < (update c.cache _ _ _).lockCount
    rw [update_self]
    exact Nat.succ_pos _
  | full => exact h
  | unswept => exact { h with }
  | @taken i c₁ c₂ uncached claimed disk cache freeList lruList lockedList hash =>
    have h1 := claimed.faithful hp h
    have hi (k' : κ) : c₁.hash k' ≠ some i := fun hk' => ((claimed.hash k' i).mp hk').1 rfl
    have hinstall : (lock (hashPut c₂ i) i).Faithful value (insert k unmarked) :=
      install_faithful h1 (claimed.none uncached) hi cache hash disk hsame
        fun hk => absurd (Set.mem_insert k unmarked) hk
    have hplaced := install_placed hp claimed uncached _ cache freeList lruList lockedList hash
    obtain ⟨hself, hput⟩ := install_eq cache hash
    have hstore := store_faithful hinstall hplaced (by rw [hput, update_self]) (by rw [hself]; exact Nat.one_pos)
      fun _ => Lib.Bytes.zero
    rw [Set.insert_idem] at hstore
    exact hstore

omit [DecidableEq κ] in
theorem Released.entry {dirty : Bool} (hr : Released c i dirty c') : c'.cache = update c.cache i
      { c.cache i with
        lockCount := (c.cache i).lockCount - 1, dirty := (c.cache i).dirty || dirty } ∧
      c'.hash = c.hash ∧ c'.disk = c.disk := by
  cases hr with
  | last count moved cache hash disk =>
    rw [count]
    exact ⟨cache, hash, disk⟩
  | shared count freeList lruList lockedList cache hash disk => exact ⟨cache, hash, disk⟩

omit [DecidableEq κ] in
theorem Released.clean (hp : c.Placed) (h : c.Faithful value unmarked) (hr : Released c i false c')
    (hlast : (c.cache i).lockCount = 1 → (c.cache i).key ∉ unmarked) : c'.Faithful value unmarked := by
  obtain ⟨cache, hash, disk⟩ := hr.entry
  apply h.change hash disk cache
  intro k' hk'
  refine ⟨rfl, fun hd => by simp [hd], fun hin hpos => ?_⟩
  have hkey : (c.cache i).key = k' := ((hp.hash k' i).mp hk').2
  have hmore : (c.cache i).lockCount ≠ 1 := fun hone => hlast hone (hkey ▸ hin)
  simp only
  omega

section

variable (hp : c.Placed) (h : c.Faithful value unmarked) (hk : c.hash k = some i)
include hp h hk

theorem Released.dirty (hr : Released c i true c') :
    c'.Faithful (update value k (c.cache i).buf) (unmarked \ {k}) := by
  obtain ⟨cache, hash, disk⟩ := hr.entry
  exact modify_faithful hp h hk cache hash disk rfl (Bool.or_true _)

theorem dispose_faithful (hzero : (c.cache i).lockCount = 0) :
    (dispose c i).Faithful (update value k (c.disk k)) unmarked := by
  have hkey : (c.cache i).key = k := ((hp.hash k i).mp hk).2
  have hhash : (dispose c i).hash = update c.hash k none := by
    rw [← hkey]
    rfl
  apply faithful_of_at
  intro k'
  by_cases heq : k' = k
  · subst heq
    refine ⟨?_, fun _ => ?_, fun hin => absurd hin (h.of_unlocked hk hzero)⟩
    · intro j hj
      rw [hhash, update_self] at hj
      cases hj
    · rw [update_self]
      rfl
  · exact h.keep (by rw [hhash, update_of_ne heq]) rfl (fun _ _ => rfl) (update_of_ne heq _ _) Iff.rfl

theorem Cleaned.faithful {failed : Bool} (hc : Cleaned c i failed c') : c'.Faithful value unmarked := by
  cases hc with
  | clean => exact h
  | unswept => exact { h with }
  | swept dirty =>
    have hkey : (c.cache i).key = k := ((hp.hash k i).mp hk).2
    apply faithful_of_at
    intro k'
    by_cases heq : k' = k
    · subst heq
      refine faithfulAt_of_some hk ?_ ?_
      · intro hout
        simp only [update_self, hkey]
        have hbuf := (h.cached k' i hk hout).1
        exact ⟨hbuf, .inr hbuf⟩
      · intro hin
        obtain ⟨j, hj, hpos⟩ := h.held k' hin
        rw [hk] at hj
        cases hj
        simp only [update_self]
        exact hpos
    · refine h.keep rfl (update_of_ne (by rwa [hkey]) _ _) ?_ rfl Iff.rfl
      intro j hj
      apply update_of_ne
      rintro rfl
      exact heq (hp.key_inj hk hj)

theorem dispose_swept (hzero : (c.cache i).lockCount = 0) (hclean : (c.cache i).dirty = false) :
    (dispose c i).Faithful value unmarked := by
  have hdisk : c.disk k = value k := by
    apply (h.cached k i hk (h.of_unlocked hk hzero)).2.resolve_left
    rw [hclean]
    decide
  have hdispose := dispose_faithful hp h hk hzero
  rwa [hdisk, update_eq_self] at hdispose

end

end Eotan.Fs.Cache
