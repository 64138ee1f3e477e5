import Eotan.Kernel.Rendezvous
import Eotan.Set.AaTreeRuns
import Eotan.Set.SlabRuns

/-!
The rendezvous as `ipc.c` keeps them, in `reply_tree` with entries from `reply_slab`, beside the
kernel: what the sections do to the tree and the slab on each of their exits.
-/

namespace Eotan.Kernel

open Eotan.Sequence
open Eotan.AaTree (treeCreate treeGet treePut treeRemove nilNode)
open Eotan.Lib.LevelTree (remove_toList get_eq_some_iff)
open Eotan.Slabs (slabCreate slabAlloc slabFree)
open Function
open List

structure Book where
  tree : AaTree.World
  slab : Slabs.State

def replySize : ℕ := 28

def pageSize : ℕ := 4096

def slabMaxBlock (maxUnit pageSize unitSize : ℕ) : ℕ :=
  let maxBlock := maxUnit / ((pageSize - Slabs.headerSize) / unitSize)
  if maxBlock ≠ 0 then maxBlock else 1

theorem minBlock_lt : 1 < 2 ^ 32 := by
  decide

def replyParams : Slabs.Params :=
  ⟨replySize, pageSize, 1, slabMaxBlock 32768 pageSize replySize, by decide, by decide, minBlock_lt,
    by decide⟩

def ipcInitialize (mem : AaTree.Mem) (answers : ℕ → ℕ) : Option Book :=
  (slabCreate replyParams answers).map fun slab => ⟨⟨treeCreate none, mem⟩, ⟨slab, []⟩⟩

def Book.releaseRendezvous (b : Book) (key : ℕ) : Option Book := do
  let (tree, mem, node) ← treeRemove b.tree.tree b.tree.mem key
  match node with
  | some node => some ⟨⟨tree, mem⟩, ⟨slabFree b.slab.slab node, b.slab.live.erase node⟩⟩
  | none => some ⟨⟨tree, mem⟩, b.slab⟩

def Book.ipcCall (b : Book) (s : State) (portId size a : ℕ) (copyOk : Bool) :
    Option (Bool × Book) :=
  match s.threads portId with
  | none => some (true, b)
  | some th =>
    if th.port.opened = false then some (true, b)
    else if size > th.port.maxCall then some (true, b)
    else
      match (sequenceGet s.replySequence).1 with
      | none => some (true, b)
      | some key =>
        match slabAlloc b.slab.slab a with
        | (none, slab) => some (false, ⟨b.tree, ⟨slab, b.slab.live⟩⟩)
        | (some node, slab) => do
          let (tree, mem, put) ← treePut b.tree.tree b.tree.mem key node
          match put with
          | none => some (true, ⟨⟨tree, mem⟩, ⟨slabFree slab node, b.slab.live⟩⟩)
          | some _ =>
            let b : Book := ⟨⟨tree, mem⟩, ⟨slab, node :: b.slab.live⟩⟩
            if copyOk = false ∧ s.queues (.receiver portId) ≠ [] then
              (b.releaseRendezvous key).map fun b => (true, b)
            else some (true, b)

def Book.finish (b : Book) (s : State) : Option Book :=
  match s.threads s.running with
  | none => some b
  | some th =>
    match th.cont with
    | .call key => if th.wait.result ≠ 0 then b.releaseRendezvous key else some b
    | _ => some b

/-- What a step does to the tree and the slab; `_reply` takes the key out on every exit. The event
comes back with the answer of `slab_alloc` in it. -/
def Book.step (b : Book) (s : State) (a : ℕ) : Event → Option (Event × Book)
  | .op (.ipcCall portId message size _ copyOk) =>
    (b.ipcCall s portId size a copyOk).map fun x =>
      (.op (.ipcCall portId message size x.1 copyOk), x.2)
  | .op (.ipcSend tag message size copyOk) =>
    if keyOfIpc tag ≠ 0 then
      (b.releaseRendezvous (keyOfIpc tag)).map fun b => (.op (.ipcSend tag message size copyOk), b)
    else some (.op (.ipcSend tag message size copyOk), b)
  | .finish => (b.finish s).map fun b => (.finish, b)
  | e => some (e, b)

structure Kept (replies : ℕ → Option ℕ) (b : Book) (t : AaTree.Shape) : Prop where
  tree : AaTree.Valid b.tree t
  keys : ∀ k : ℤ, (∃ a, (k, a) ∈ t.toList) ↔ ∃ n : ℕ, (n : ℤ) = k ∧ (replies n).isSome
  live : ∀ p, p ∈ b.slab.live ↔ p ∈ AaTree.addrs t
  shape : Slabs.Shape b.slab.slab
  ok : Slabs.Ok b.slab.slab b.slab.live

variable {a : ℕ} {b : Book}

section

variable {replies : ℕ → Option ℕ} {b : Book} {t : AaTree.Shape} {key : ℕ}

theorem Kept.release (h : Kept replies b t) (key : ℕ) : ∃ b' t',
    b.releaseRendezvous key = some b' ∧ Kept (update replies key none) b' t' := by
  obtain ⟨w, hrem, hv⟩ := h.tree.remove (key : ℤ)
  simp only [Book.releaseRendezvous, hrem, Option.bind_eq_bind, Option.bind_some]
  -- the keys that are left, whichever node goes
  have hkeys : ∀ {t' : AaTree.Shape}, (∀ k, (∃ a, (k, a) ∈ t'.toList) ↔
      k ≠ (key : ℤ) ∧ ∃ a, (k, a) ∈ t.toList) → ∀ k : ℤ, (∃ a, (k, a) ∈ t'.toList) ↔
        ∃ n : ℕ, (n : ℤ) = k ∧ (update replies key none n).isSome := by
    intro t' ht' k
    rw [ht', h.keys]
    constructor
    · rintro ⟨hne, n, rfl, hn⟩
      refine ⟨n, rfl, ?_⟩
      rw [update_of_ne (by simpa using hne)]
      exact hn
    · rintro ⟨n, rfl, hn⟩
      rw [update_apply] at hn
      split_ifs at hn with he
      · simp at hn
      · exact ⟨by simpa using he, n, rfl, hn⟩
  obtain ⟨hnone, heq, hne⟩ | ⟨x, xs, ys, hsome, hx, hxy, heq⟩ := remove_toList h.tree.sorted (key : ℤ)
  · rw [hnone]
    refine ⟨_, _, rfl, hv, hkeys ?_, ?_, h.shape, h.ok⟩
    · intro k
      rw [heq]
      refine ⟨fun ⟨a, ha⟩ => ⟨hne _ ha, a, ha⟩, fun ⟨_, ha⟩ => ha⟩
    · intro p
      rw [h.live, AaTree.addrs_congr heq]
  · rw [hsome]
    have hmem : x.2 ∈ b.slab.live := by
      rw [h.live, AaTree.addrs, hxy]
      simp
    obtain ⟨hshape, hok, -⟩ := Slabs.slabFree_ok h.shape h.ok hmem
    have hnd := h.tree.repr.nodup
    rw [AaTree.addrs, hxy, map_append, map_cons, nodup_middle, nodup_cons] at hnd
    refine ⟨_, _, rfl, hv, hkeys ?_, ?_, hshape, hok⟩
    · intro k
      obtain ⟨hlt, hgt⟩ := AaTree.Sorted.middle h.tree.sorted xs ys hxy
      rw [heq, hxy]
      constructor
      · rintro ⟨a, ha⟩
        rcases mem_append.mp ha with hm | hm
        · exact ⟨((hlt _ hm).trans_eq hx).ne, a, mem_append_left _ hm⟩
        · exact ⟨(hx.symm.trans_lt (hgt _ hm)).ne', a, mem_append_right _ (mem_cons_of_mem _ hm)⟩
      · rintro ⟨hne, a, ha⟩
        rcases mem_append.mp ha with hm | hm
        · exact ⟨a, mem_append_left _ hm⟩
        · rcases mem_cons.mp hm with rfl | hm
          · exact absurd hx hne
          · exact ⟨a, mem_append_right _ hm⟩
    · intro p
      rw [h.ok.live_nodup.mem_erase_iff, h.live, AaTree.addrs, AaTree.addrs, heq, hxy]
      simp only [map_append, map_cons, mem_append, mem_cons]
      constructor
      · rintro ⟨hne, hm | hm | hm⟩
        · exact .inl hm
        · exact absurd hm hne
        · exact .inr hm
      · intro hm
        refine ⟨?_, hm.imp id .inr⟩
        rintro rfl
        exact hnd.1 (mem_append.mpr hm)

theorem Kept.alloc {node : ℕ} {slab : Slabs.Slab} (h : Kept replies b t)
    (ha : slabAlloc b.slab.slab a = (some node, slab)) : node ∉ AaTree.addrs t ∧ node ≠ nilNode ∧
      Slabs.Shape slab ∧ Slabs.Ok slab (node :: b.slab.live) := by
  rcases Slabs.slabAlloc_ok h.shape h.ok a with ⟨p, s', heq, hshape, hok⟩ | ⟨heq, -, -⟩
  · rw [heq] at ha
    cases ha
    have hfresh := (nodup_cons.mp hok.live_nodup).1
    rw [h.live] at hfresh
    obtain ⟨c, -, hc⟩ := hok.live node mem_cons_self
    have hbounds := (Slabs.entry_bounds hshape hc).1
    refine ⟨hfresh, ?_, hshape, hok⟩
    intro hz
    rw [hz] at hbounds
    simp [nilNode, Slabs.headerSize] at hbounds
  · rw [heq] at ha
    cases ha

theorem Kept.put {node : ℕ} {slab : Slabs.Slab} (h : Kept replies b t) (max : ℕ)
    (hkey : replies key = none) (ha : slabAlloc b.slab.slab a = (some node, slab)) :
    ∃ tree mem p t', treePut b.tree.tree b.tree.mem key node = some (tree, mem, some p) ∧
      Kept (update replies key (some max)) ⟨⟨tree, mem⟩, ⟨slab, node :: b.slab.live⟩⟩ t' := by
  obtain ⟨hfresh, hnil, hshape, hok⟩ := h.alloc ha
  have habsent : ¬∃ a, ((key : ℤ), a) ∈ t.toList := by
    rw [h.keys]
    rintro ⟨n, hn, hs⟩
    rw [Nat.cast_inj.mp hn, hkey] at hs
    cases hs
  obtain ⟨w, p, t', hput, hv, ht'⟩ := h.tree.put_absent hnil hfresh habsent
  refine ⟨w.tree, w.mem, p, t', hput, hv, ?_, ?_, hshape, hok⟩
  · intro k
    constructor
    · rintro ⟨c, hc⟩
      rcases (ht' _).mp hc with he | hc
      · cases he
        exact ⟨key, rfl, by simp⟩
      obtain ⟨n, rfl, hn⟩ := (h.keys k).mp ⟨c, hc⟩
      refine ⟨n, rfl, ?_⟩
      rw [update_of_ne]
      · exact hn
      · rintro rfl
        simp [hkey] at hn
    · rintro ⟨n, rfl, hn⟩
      by_cases he : n = key
      · exact ⟨node, (ht' _).mpr (.inl (by rw [he]))⟩
      · rw [update_of_ne he] at hn
        obtain ⟨c, hc⟩ := (h.keys n).mpr ⟨n, rfl, hn⟩
        exact ⟨c, (ht' _).mpr (.inr hc)⟩
  · intro q
    rw [mem_cons, h.live, AaTree.addrs, AaTree.addrs, mem_map, mem_map]
    constructor
    · rintro (rfl | ⟨x, hx, rfl⟩)
      · exact ⟨_, (ht' _).mpr (.inl rfl), rfl⟩
      · exact ⟨x, (ht' x).mpr (.inr hx), rfl⟩
    · rintro ⟨x, hx, rfl⟩
      rcases (ht' x).mp hx with rfl | hx
      · exact .inl rfl
      · exact .inr ⟨x, hx, rfl⟩

end

section

variable {s : State} {b : Book} {t : AaTree.Shape} {o : Outcome}

variable {th : Thread}

section

variable (h : Base s)
include h

theorem block_replies {s' : State} {g : Guard} {f : Wait → Wait} {c : Cont}
    (ht : s.threads s.running = some th) (hty : th.wait.type = .none)
    (hf : ∀ w, (f w).waiting = w.waiting) (hok : ThreadOk (blocked th g f c))
    (hb : block s g f c = some s') : s'.replies = s.replies :=
  ((Leaves.dispatch (block_waiting ht hb)).still (h.waiting ht hty hf hok)).keeps.replies

theorem ipcCallRendezvous_replies {q : Seq} {portId message size key max : ℕ} {copyOk : Bool} (ha : Active s) (ht : s.threads s.running = some th)
    (hg : sequenceGet s.replySequence = (some key, q))
    (ho : ipcCallRendezvous (openRendezvous s q key max) portId message size key copyOk = some o) :
    o.state.replies = if copyOk = false ∧ s.queues (.receiver portId) ≠ [] then s.replies
      else update s.replies key (some max) := by
  obtain ⟨hnone, hkey, h1⟩ := openRendezvous_base max h hg
  have hty := ha th ht
  have hq1 : (openRendezvous s q key max).queues (.receiver portId) = s.queues (.receiver portId) := by
    simp [openRendezvous]
  unfold ipcCallRendezvous at ho
  rw [hq1] at ho
  cases hq : s.queues (.receiver portId) with
  | cons tp rest =>
    simp only [hq] at ho
    split_ifs at ho with hcopy
    · rw [((leave_leaves ho).still (releaseRendezvous_base h1 key)).keeps.replies, releaseRendezvous_replies]
      simp only [hcopy, openRendezvous, update_idem]
      rw [← hnone, update_eq_self]
      simp
    · simp only [Option.bind_eq_bind, Option.bind_eq_some_iff, Option.some.injEq] at ho
      obtain ⟨s2, hw, s3, hb, rfl⟩ := ho
      have hm : tp ∈ (openRendezvous s q key max).queues (.receiver portId) := by
        rw [hq1, hq]
        exact mem_cons_self
      have hb2 : Base s2 := by
        refine wake_base h1 ?_ hw
        exact fun _ => rfl
      obtain ⟨tht, -, -, rfl⟩ := wake_eq h1 hw
      have hne : s.running ≠ tp := (h1.not_running_receiver ha hm).symm
      rw [if_neg (by simp [hcopy])]
      refine (block_replies hb2 ?_ hty ?_ ?_ hb).trans (roused_replies ..)
      · rw [roused_running, roused_threads]
        exact (update_of_ne hne ..).trans ht
      · exact fun _ => rfl
      · exact ⟨.inl rfl, rfl, key, rfl, rfl⟩
  | nil =>
    simp only [hq, Option.bind_eq_bind, Option.bind_eq_some_iff, Option.some.injEq] at ho
    obtain ⟨s2, hb, rfl⟩ := ho
    have hid : s.running < 2 ^ 16 := h.id s.running (by simp [ht])
    rw [if_neg (by simp)]
    refine block_replies h1 ht hty ?_ ?_ hb
    · exact fun _ => rfl
    · exact ⟨.inl rfl, rfl, portId, key, rfl, rfl, keyOfIpc_createIpcTag hid hkey⟩

theorem Kept.ipcCall (ha : Active s) (hk : Kept s.replies b t)
    (portId message size a : ℕ) (copyOk : Bool) : ∃ ok b', b.ipcCall s portId size a copyOk = some (ok, b') ∧
      ∀ th o, s.threads s.running = some th → th.cont = .user →
        Kernel.ipcCall s portId message size ok copyOk = some o → ∃ t', Kept o.state.replies b' t' := by
  have hsame : ∀ {s1 : State} {code : ℤ} {o : Outcome}, Keeps s s1 →
      leave s1 code = some o → ∃ t', Kept o.state.replies b t' := by
    intro s1 code o hs1 hl
    rw [((leave_leaves hl).still hs1.base).keeps.replies, hs1.replies]
    exact ⟨t, hk⟩
  unfold Book.ipcCall Kernel.ipcCall
  cases s.threads portId with
  | none => exact ⟨true, b, rfl, fun _ _ _ _ ho => hsame (Keeps.refl h) ho⟩
  | some port =>
    by_cases hop : port.port.opened = false
    · simp only [if_pos hop]
      exact ⟨true, b, rfl, fun _ _ _ _ ho => hsame (Keeps.refl h) ho⟩
    by_cases hsize : size > port.port.maxCall
    · simp only [if_neg hop, if_pos hsize]
      exact ⟨true, b, rfl, fun _ _ _ _ ho => hsame (Keeps.refl h) ho⟩
    simp only [if_neg hop, if_neg hsize]
    cases hg : sequenceGet s.replySequence with
    | mk key q =>
      cases key with
      | none => exact ⟨true, b, rfl, fun _ _ _ _ ho => hsame (keeps_sequence_none h hg) ho⟩
      | some key =>
        dsimp only
        have hnone := (openRendezvous_base 0 h hg).1
        cases halloc : slabAlloc b.slab.slab a with
        | mk node slab =>
          cases node with
          | none =>
            -- without memory the slab is as it was
            rcases Slabs.slabAlloc_ok hk.shape hk.ok a with ⟨p, s', heq, -⟩ | ⟨heq, -⟩
            · rw [heq] at halloc
              cases halloc
            rw [heq] at halloc
            cases halloc
            refine ⟨false, b, rfl, ?_⟩
            intro _ o _ _ ho
            simp only [if_pos] at ho
            exact hsame (keeps_sequence_undo h hg) ho
          | some node =>
            obtain ⟨tree, mem, p, t1, hput, hk1⟩ := hk.put port.port.maxReply hnone halloc
            simp only [hput, Option.bind_eq_bind, Option.bind_some]
            by_cases hcopy : copyOk = false ∧ s.queues (.receiver portId) ≠ []
            · obtain ⟨b2, t2, hrel, hk2⟩ := hk1.release key
              rw [update_idem, ← hnone, update_eq_self] at hk2
              refine ⟨true, b2, by rw [if_pos hcopy, hrel]; rfl, ?_⟩
              intro th o ht hu ho
              simp only [Bool.true_eq_false, if_false, hnone, Option.isSome_none] at ho
              rw [ipcCallRendezvous_replies h ha ht hg ho, if_pos hcopy]
              exact ⟨t2, hk2⟩
            · refine ⟨true, _, by rw [if_neg hcopy], ?_⟩
              intro th o ht hu ho
              simp only [Bool.true_eq_false, if_false, hnone, Option.isSome_none] at ho
              rw [ipcCallRendezvous_replies h ha ht hg ho, if_neg hcopy]
              exact ⟨t1, hk1⟩

theorem reply_replies {key size : ℕ} {copyOk : Bool} (ho : reply s key size copyOk = some o) :
    o.state.replies = update s.replies key none := by
  cases (reply_replied h ho).2 with
  | refused _ hl =>
    rw [(hl.still (releaseRendezvous_base h key)).keeps.replies, releaseRendezvous_replies]
  | answered t th ht hm hw hp hl =>
    rw [(hl.still (releaseRendezvous_base (h.answered ht) key)).keeps.replies,
      releaseRendezvous_replies, roused_replies]

theorem finish_replies (ha : Active s) (ht : s.threads s.running = some th) (ho : finish s = some o) :
    o.state.replies = match th.cont with
      | .call key => if th.wait.result ≠ 0 then update s.replies key none else s.replies | _ => s.replies := by
  obtain ⟨th', ht', hf⟩ := finish_finished ho
  rw [ht] at ht'
  cases ht'
  have hb := h.done ha ht
  cases hf with
  | failed key s' hc hres hl =>
    rw [((Leaves.serialize hl).still (releaseRendezvous_base hb key)).keeps.replies, releaseRendezvous_replies]
    simp [hc, hres]
  | received s' hc hres hl =>
    rw [((Leaves.serialize hl).still hb).keeps.replies]
    simp [hc]
  | passed s' ret hres hl =>
    rw [(hl.still hb).keeps.replies]
    split
    · rename_i key hc
      simp [hres key hc]
    · rfl

theorem Kept.finish (ha : Active s) (hk : Kept s.replies b t) :
    ∃ b' t', b.finish s = some b' ∧ ∀ o, Kernel.finish s = some o → Kept o.state.replies b' t' := by
  cases ht : s.threads s.running with
  | none =>
    refine ⟨b, t, by rw [Book.finish, ht], ?_⟩
    intro o ho
    simp [Kernel.finish, ht] at ho
  | some th =>
    have hplain : b.finish s = some b → (∀ o, Kernel.finish s = some o →
        o.state.replies = s.replies) → ∃ b' t', b.finish s = some b' ∧
          ∀ o, Kernel.finish s = some o → Kept o.state.replies b' t' := by
      intro hb hr
      refine ⟨b, t, hb, ?_⟩
      intro o ho
      rw [hr o ho]
      exact hk
    cases hc : th.cont with
    | call key =>
      by_cases hres : th.wait.result ≠ 0
      · obtain ⟨b', t', hrel, hk'⟩ := hk.release key
        refine ⟨b', t', ?_, ?_⟩
        · simp only [Book.finish, ht, hc, if_pos hres]
          exact hrel
        · intro o ho
          have hr := finish_replies h ha ht ho
          simp only [hc, if_pos hres] at hr
          rw [hr]
          exact hk'
      · apply hplain
        · simp only [Book.finish, ht, hc, if_neg hres]
        · intro o ho
          have hr := finish_replies h ha ht ho
          simpa only [hc, if_neg hres] using hr
    | _ =>
      apply hplain
      · simp only [Book.finish, ht, hc]
      · intro o ho
        have hr := finish_replies h ha ht ho
        simpa only [hc] using hr

theorem other_replies {e : Event} (ha : Active s) (hs : step s e = some o)
    (hc : ¬e.Calls) (hr : ∀ tag message size copyOk, e = .op (.ipcSend tag message size copyOk) →
      keyOfIpc tag = 0) (hf : e ≠ .finish) : o.state.replies = s.replies := by
  have hchange := (step_stepped h ha hs).change
  generalize hy : table o.state = y at hchange
  generalize o.handed = handed at hchange
  have hrep : o.state.replies = y.entries := congrArg Table.entries hy
  cases hchange with
  | keep _ => exact hrep
  | clear _ _ => exact hrep
  | call _ _ he => exact absurd he hc
  | wait _ _ he => exact absurd he hc
  | receive => exact hrep
  | deliver t key he ht hm =>
    have hzero : key = 0 := by
      unfold Event.Replies at he
      split at he
      · rw [← he]
        exact hr _ _ _ _ rfl
      · exact he.elim
    have hnone : s.replies key = none := by
      by_contra hn
      exact (h.key key (Option.isSome_iff_ne_none.mpr hn)).1 hzero
    rw [hrep]
    simp only
    rw [← hnone, update_eq_self]
  | refuse tag message size copyOk he hkey => exact absurd (hr _ _ _ _ he) hkey
  | fail _ _ he => exact absurd he hf
  | terminate => exact hrep

theorem Kept.step (ha : Active s) (hk : Kept s.replies b t) (a : ℕ) (e : Event) :
    ∃ e' b', b.step s a e = some (e', b') ∧
      ∀ o, Kernel.step s e' = some o → ∃ t', Kept o.state.replies b' t' := by
  have hsame : b.step s a e = some (e, b) → ¬e.Calls →
      (∀ tag message size copyOk, e = .op (.ipcSend tag message size copyOk) → keyOfIpc tag = 0) →
      e ≠ .finish → ∃ e' b', b.step s a e = some (e', b') ∧
        ∀ o, Kernel.step s e' = some o → ∃ t', Kept o.state.replies b' t' := by
    intro hb hc hr hf
    refine ⟨e, b, hb, ?_⟩
    intro o hs
    rw [other_replies h ha hs hc hr hf]
    exact ⟨t, hk⟩
  cases e with
  | op op =>
    cases op with
    | ipcCall portId message size allocOk copyOk =>
      obtain ⟨ok, b', hb', hnext⟩ := hk.ipcCall h ha portId message size a copyOk
      refine ⟨_, b', by rw [Book.step, hb']; rfl, ?_⟩
      intro o hs
      obtain ⟨th, ht, hu, ho⟩ := step_op hs
      exact hnext th o ht hu ho
    | ipcSend tag message size copyOk =>
      by_cases hkey : keyOfIpc tag ≠ 0
      · obtain ⟨b', t', hrel, hk'⟩ := hk.release (keyOfIpc tag)
        refine ⟨_, b', by rw [Book.step, if_pos hkey, hrel]; rfl, ?_⟩
        intro o hs
        obtain ⟨-, -, -, ho⟩ := step_op hs
        simp only [Kernel.apply, ipcSend, if_pos hkey] at ho
        rw [reply_replies h ho]
        exact ⟨t', hk'⟩
      · refine hsame (by rw [Book.step, if_neg hkey]) (by simp [Event.Calls]) ?_ (by simp)
        rintro _ _ _ _ ⟨⟩
        exact not_not.mp hkey
    | _ => exact hsame rfl (by simp [Event.Calls]) (by simp) (by simp)
  | finish =>
    obtain ⟨b', t', hb', hk'⟩ := hk.finish h ha
    exact ⟨.finish, b', by rw [Book.step, hb']; rfl, fun o ho => ⟨t', hk' o ho⟩⟩
  | _ => exact hsame rfl (by simp [Event.Calls]) (by simp) (by simp)

end

end

inductive Booked (b₀ : Book) : State → Book → Prop
  | boot : Booked b₀ boot b₀
  | step {s : State} {b b' : Book} {a : ℕ} {e e' : Event} {o : Outcome} : Booked b₀ s b →
    b.step s a e = some (e', b') → Kernel.step s e' = some o → Booked b₀ o.state b'

theorem ipcInitialize_kept {mem : AaTree.Mem} {answers : ℕ → ℕ}
    (hm : mem nilNode = AaTree.nilRecord) (hi : ipcInitialize mem answers = some b) :
    Kept boot.replies b .nil := by
  simp only [ipcInitialize, Option.map_eq_some_iff] at hi
  obtain ⟨slab, hc, rfl⟩ := hi
  obtain ⟨hshape, hok⟩ := Slabs.slabCreate_ok (k := 12) rfl (by decide) hc
  refine ⟨AaTree.create_valid hm rfl, ?_, ?_, hshape, hok⟩
  · simp [boot]
  · simp

theorem Booked.kept {b₀ : Book} {s : State} (h : Booked b₀ s b)
    (hk : Kept Kernel.boot.replies b₀ .nil) : Base s ∧ Active s ∧ ∃ t, Kept s.replies b t := by
  induction h with
  | boot => exact ⟨boot_base, boot_active, .nil, hk⟩
  | @step s b b' a e e' o _ hb hs ih =>
    obtain ⟨hbase, hact, t, hk⟩ := ih
    have hst := step_stepped hbase hact hs
    obtain ⟨e1, b1, hb1, hnext⟩ := hk.step hbase hact a e
    rw [hb] at hb1
    cases hb1
    exact ⟨hst.base, hst.active, hnext o hs⟩

theorem Kept.get_iff {replies : ℕ → Option ℕ} {t : AaTree.Shape} (h : Kept replies b t) (k : ℤ) (node : ℕ) :
    treeGet b.tree.tree b.tree.mem k = some (some node) ↔ (k, node) ∈ t.toList := by
  rw [treeGet, AaTree.treeGetLoop_eq (AaTree.compares_int h.tree.compare t k) h.tree.repr
    (by rw [AaTree.depthFuel, h.tree.nodeNum]; omega), Option.some.injEq, Option.map_eq_some_iff]
  constructor
  · rintro ⟨⟨k', a⟩, hg, rfl⟩
    obtain ⟨hm, rfl⟩ := (get_eq_some_iff h.tree.sorted k _).mp hg
    exact hm
  · intro hm
    exact ⟨(k, node), (get_eq_some_iff h.tree.sorted k _).mpr ⟨hm, rfl⟩, rfl⟩

theorem Kept.linked_iff {replies : ℕ → Option ℕ} {t : AaTree.Shape} (h : Kept replies b t) (p : ℕ) :
    p ∈ b.slab.live ↔ p ≠ nilNode ∧ AaTree.Linked b.tree.mem b.tree.tree.root p := by
  rw [h.live]
  constructor
  · intro hp
    refine ⟨?_, h.tree.repr.linked_of_mem hp⟩
    rintro rfl
    exact h.tree.repr.nilNode_notMem hp
  · rintro ⟨hne, hl⟩
    exact (h.tree.repr.linked_mem hl).resolve_left hne

theorem rendezvous_booked {mem : AaTree.Mem} {answers : ℕ → ℕ} {b₀ b : Book} {s : State}
    (hm : mem nilNode = AaTree.nilRecord) (hi : ipcInitialize mem answers = some b₀)
    (h : Booked b₀ s b) : (∀ n < maxThread, ¬Free s.replySequence n ↔
      n = 0 ∨ ∃ node, treeGet b.tree.tree b.tree.mem n = some (some node)) ∧
    (∀ k node, treeGet b.tree.tree b.tree.mem k = some (some node) →
      1 ≤ k ∧ k ≤ maxThread - 1 ∧ node ∈ b.slab.live) ∧
    b.slab.live.Nodup ∧
    (∀ p, p ∈ b.slab.live ↔ p ≠ nilNode ∧ AaTree.Linked b.tree.mem b.tree.tree.root p) ∧
    ∀ a e, (b.step s a e).isSome := by
  obtain ⟨hbase, hact, t, hk⟩ := h.kept (ipcInitialize_kept hm hi)
  have hkeys : ∀ n : ℕ, (∃ node, treeGet b.tree.tree b.tree.mem n = some (some node)) ↔
      (s.replies n).isSome := by
    intro n
    simp only [hk.get_iff]
    rw [hk.keys]
    constructor
    · rintro ⟨m, hmn, hs⟩
      rwa [← Nat.cast_inj.mp hmn]
    · exact fun hs => ⟨n, rfl, hs⟩
  refine ⟨?_, ?_, hk.ok.live_nodup, hk.linked_iff, ?_⟩
  · intro n hn
    rw [hbase.free, hkeys, Option.isSome_iff_ne_none]
    tauto
  · intro k node hget
    have hmem := (hk.get_iff k node).mp hget
    obtain ⟨n, rfl, hs⟩ := (hk.keys k).mp ⟨node, hmem⟩
    have hn := hbase.key n hs
    refine ⟨by omega, by omega, ?_⟩
    rw [hk.live]
    exact mem_map.mpr ⟨_, hmem, rfl⟩
  · intro a e
    obtain ⟨e', b', hb', -⟩ := hk.step hbase hact a e
    rw [hb']
    rfl

def bookRun (a : ℕ) (s : State) (b : Book) : List Event → Option (State × Book)
  | [] => some (s, b)
  | e :: es => do
    let (e, b) ← b.step s a e
    let o ← step s e
    bookRun a o.state b es

theorem Booked.run {b₀ b' : Book} {s s' : State} {es : List Event} (h : Booked b₀ s b)
    (hr : bookRun a s b es = some (s', b')) : Booked b₀ s' b' := by
  induction es generalizing s b with
  | nil =>
    cases hr
    exact h
  | cons e es ih =>
    simp only [bookRun, Option.bind_eq_bind, Option.bind_eq_some_iff] at hr
    obtain ⟨⟨e1, b1⟩, hb, o, hs, hr⟩ := hr
    exact ih (h.step hb hs) hr

theorem rendezvous_booked_sample : ∃ b₀ s b,
    ipcInitialize AaTree.blankMem (fun _ => pageSize) = some b₀ ∧
    bookRun 0 boot b₀ callRun = some (s, b) ∧
    (∃ node, treeGet b.tree.tree b.tree.mem 1 = some (some node)) ∧ ¬Free s.replySequence 1 := by
  have hrun : ((ipcInitialize AaTree.blankMem fun _ => pageSize).bind fun b₀ =>
      (bookRun 0 boot b₀ callRun).map fun x => treeGet x.2.tree.tree x.2.tree.mem 1) =
      some (some (some (pageSize + 32))) := by
    decide +kernel
  simp only [Option.bind_eq_some_iff, Option.map_eq_some_iff, Prod.exists] at hrun
  obtain ⟨b₀, hi, s, b, hr, hget⟩ := hrun
  have hmem : AaTree.blankMem nilNode = AaTree.nilRecord := rfl
  obtain ⟨htaken, -⟩ := rendezvous_booked hmem hi (Booked.boot.run hr)
  exact ⟨b₀, s, b, hi, hr, ⟨_, hget⟩, (htaken 1 (by decide)).mpr (.inr ⟨_, hget⟩)⟩

end Eotan.Kernel
