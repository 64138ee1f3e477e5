import Eotan.Fs.Directory
import Eotan.Lib.RefCount

/-!
What the functions of `libtfs` leave alone: those on blocks change nothing but the cache, and those
on files keep the reference counts.
-/

namespace Eotan.Fs


section Reused

variable (c : Cache ℕ)

theorem sweep_reused (i : ℕ) : (sweep c i).2.reused = c.reused := by
  fun_cases sweep
  all_goals rfl

theorem fill_reused (i : ℕ) : (fill c i).2.reused = c.reused := by
  fun_cases fill
  all_goals rfl

theorem claim_reused : (claim c).2.reused = c.reused := by
  fun_cases claim
  all_goals grind [sweep_reused, Cache.hashRemove]

theorem cacheGet_reused (k : ℕ) : (cacheGet k c).2.reused = c.reused := by
  fun_cases cacheGet
  all_goals grind [claim_reused, fill_reused, lock, Cache.hashPut, Cache.setEntry, Cache.listRemove]

theorem cacheCreate_reused (k : ℕ) : (cacheCreate k c).2.reused = c.reused := by
  fun_cases cacheCreate
  all_goals grind [claim_reused, lock, Cache.hashPut, Cache.setEntry, Cache.listRemove, Cache.store]

theorem cacheModify_reused (p : Option ℕ) : (cacheModify p c).2.reused = c.reused := by
  cases p <;> rfl

theorem cacheRelease_reused (p : Option ℕ) (dirty : Bool) : (cacheRelease p dirty c).2.reused = c.reused := by
  fun_cases cacheRelease
  all_goals rfl

theorem cacheInvalidate_reused (k : ℕ) : (cacheInvalidate k c).2.reused = c.reused := by
  fun_cases cacheInvalidate
  all_goals rfl

theorem flushEntry_reused (i : ℕ) : (flushEntry c i).2.reused = c.reused := by
  fun_cases flushEntry
  all_goals grind [sweep_reused, Cache.setEntry]

theorem flushLru_reused (mine : ℕ → Bool) (unmount : Bool) (l : List ℕ) :
    (flushLru mine unmount l c).2.reused = c.reused := by
  fun_induction flushLru mine unmount l c
  all_goals grind [flushEntry_reused, dispose, Cache.hashRemove, Cache.listRemove]

theorem flushLocked_reused (l : List ℕ) : (flushLocked l c).2.reused = c.reused := by
  fun_induction flushLocked l c
  all_goals grind [flushEntry_reused]

theorem cacheFlush_reused (mine : ℕ → Bool) (unmount : Bool) :
    (cacheFlush mine unmount c).2.reused = c.reused := by
  fun_cases cacheFlush
  all_goals grind [flushLru_reused, flushLocked_reused]

end Reused

structure Cached (s s' : Vfs) : Prop where
  eq : s' = { s with cache := s'.cache }
  reused : s.cache.reused = true → s'.cache.reused = true

@[grind .]
theorem Cached.refl (s : Vfs) : Cached s s := ⟨rfl, id⟩

@[grind →]
theorem Cached.trans {s1 s2 s3 : Vfs} (h1 : Cached s1 s2) (h2 : Cached s2 s3) : Cached s1 s3 where
  eq := by
    rw [h2.eq, h1.eq]
  reused := fun h => h2.reused (h1.reused h)

section Primitives

variable {s s' : Vfs} {b : ℕ} {p r : Option ℕ} {dirty ok : Bool}

@[grind →]
theorem get_cached (h : s.get b = (r, s')) : Cached s s' := by
  cases h
  exact ⟨rfl, fun h => (cacheGet_reused s.cache b).trans h⟩

@[grind →]
theorem create_cached (h : s.create b = (r, s')) : Cached s s' := by
  cases h
  exact ⟨rfl, fun h => (cacheCreate_reused s.cache b).trans h⟩

@[grind →]
theorem modify_cached (h : s.modify p = (ok, s')) : Cached s s' := by
  cases h
  exact ⟨rfl, fun h => (cacheModify_reused s.cache p).trans h⟩

@[grind →]
theorem release_cached (h : s.release p dirty = (ok, s')) : Cached s s' := by
  cases h
  exact ⟨rfl, fun h => (cacheRelease_reused s.cache p dirty).trans h⟩

@[grind! .]
theorem invalidate_cached (s : Vfs) (b : ℕ) : Cached s (s.invalidate b) :=
  ⟨rfl, fun h => (cacheInvalidate_reused s.cache b).trans h⟩

@[grind! .]
theorem noteAllocated_cached (s : Vfs) (b : ℕ) : Cached s (s.noteAllocated b) :=
  ⟨rfl, fun h => by rw [Vfs.noteAllocated, h]; rfl⟩

@[grind! .]
theorem poke_cached (s : Vfs) (p : Option ℕ) (f : Lib.Bytes.Block → Lib.Bytes.Block) :
    Cached s (s.poke p f) := by
  cases p <;> exact ⟨rfl, id⟩

end Primitives

@[grind! .]
theorem takeBit_cached (s : Vfs) (p i j : ℕ) : Cached s (takeBit s p i j).2 := by
  fun_cases takeBit
  all_goals grind

theorem allocateLoop_cached (start n i : ℕ) (s : Vfs) : Cached s (allocateLoop start n i s).2 := by
  fun_induction allocateLoop start n i s
  all_goals grind

variable {b : ℕ} {s s' : Vfs} {e : Option Errno} {p : Option ℕ}

@[grind →]
theorem tfsAllocateBlock_cached (h : tfsAllocateBlock s = (b, s')) : Cached s s' := by
  obtain rfl : s' = (tfsAllocateBlock s).2 := by rw [h]
  unfold tfsAllocateBlock
  split
  · exact Cached.refl s
  · exact allocateLoop_cached _ _ _ s

@[grind →]
theorem tfsDeallocateBlock_cached (h : tfsDeallocateBlock s b = (e, s')) : Cached s s' := by
  obtain rfl : s' = (tfsDeallocateBlock s b).2 := by rw [h]
  fun_cases tfsDeallocateBlock
  all_goals grind

@[grind →]
theorem deallocateLoop_cached {p n i : ℕ} (h : deallocateLoop p n i s = (e, s')) : Cached s s' := by
  obtain rfl : s' = (deallocateLoop p n i s).2 := by rw [h]
  clear h
  fun_induction deallocateLoop p n i s
  all_goals grind

@[grind →]
theorem deallocate2nd_cached {base index offset : ℕ}
    (h : deallocate2nd s base index offset = (e, s')) : Cached s s' := by
  obtain rfl : s' = (deallocate2nd s base index offset).2 := by rw [h]
  fun_cases deallocate2nd
  all_goals grind

@[grind! .]
theorem shortenLoop_cached (p : Option ℕ) (n index : ℕ) (s : Vfs) : Cached s (shortenLoop p n index s).2 := by
  fun_induction shortenLoop p n index s
  all_goals grind

@[grind →]
theorem shortenBlocks_cached {blocks : ℕ} (h : shortenBlocks s p blocks = (e, s')) : Cached s s' := by
  obtain rfl : s' = (shortenBlocks s p blocks).2 := by rw [h]
  fun_cases shortenBlocks
  all_goals grind

@[grind →]
theorem tfsGetBlockNo_cached {nth : ℕ} (h : tfsGetBlockNo s p nth = (b, s')) : Cached s s' := by
  obtain rfl : s' = (tfsGetBlockNo s p nth).2 := by rw [h]
  fun_cases tfsGetBlockNo
  all_goals grind

@[grind! .]
theorem setEntryNo_cached (s : Vfs) (q : Option ℕ) (nth b : ℕ) : Cached s (setEntryNo s q nth b).2 := by
  fun_cases setEntryNo
  all_goals grind

@[grind! .]
theorem tfsSetBlockNo_cached (s : Vfs) (p : Option ℕ) (nth b : ℕ) : Cached s (tfsSetBlockNo s p nth b).2 := by
  fun_cases tfsSetBlockNo
  all_goals grind

@[grind →]
theorem writeBlockNo_cached {index : ℕ} (h : writeBlockNo s p index = (b, s')) : Cached s s' := by
  obtain rfl : s' = (writeBlockNo s p index).2 := by rw [h]
  fun_cases writeBlockNo
  all_goals grind

theorem readLoop_cached (p : Option ℕ) (n index skip rest : ℕ) (dest : Sink) (s : Vfs) :
    Cached s (readLoop p n index skip rest dest s).state := by
  fun_induction readLoop p n index skip rest dest s
  all_goals grind

theorem writeLoop_cached (p : Option ℕ) (n index skip rest : ℕ) (src : Source) (s : Vfs) :
    Cached s (writeLoop p n index skip rest src s).state := by
  fun_induction writeLoop p n index skip rest src s
  all_goals grind

def Vnode.node (n : Vnode) : Lib.RefCount.Node ℕ := ⟨n.referCount, n.parent⟩

structure Steady (s s' : Vfs) : Prop where
  node : ∀ v, (s'.vnodes v).map Vnode.node = (s.vnodes v).map Vnode.node
  list : s'.list = s.list
  spare : s'.spare = s.spare
  root : s'.root = s.root
  stale : s'.stale = s.stale
  reused : s.cache.reused = true → s'.cache.reused = true

@[grind .]
theorem Steady.refl (s : Vfs) : Steady s s := ⟨fun _ => rfl, rfl, rfl, rfl, rfl, id⟩

@[grind →]
theorem Steady.trans {s1 s2 s3 : Vfs} (h1 : Steady s1 s2) (h2 : Steady s2 s3) : Steady s1 s3 where
  node := fun v => (h2.node v).trans (h1.node v)
  list := h2.list.trans h1.list
  spare := h2.spare.trans h1.spare
  root := h2.root.trans h1.root
  stale := h2.stale.trans h1.stale
  reused := fun h => h2.reused (h1.reused h)

@[grind →]
theorem Steady.map_node (h : Steady s s') {v : ℕ} {n : Vnode}
    (hv : s.vnodes v = some n) : (s'.vnodes v).map Vnode.node = some n.node := by
  rw [h.node, hv, Option.map_some]

@[grind →]
theorem Cached.steady (h : Cached s s') : Steady s s' := by
  rw [h.eq]
  exact ⟨fun _ => rfl, rfl, rfl, rfl, rfl, h.reused⟩

@[grind →]
theorem Cached.vnodes (h : Cached s s') : s'.vnodes = s.vnodes := by
  rw [h.eq]

@[grind =]
theorem setVnode_self (s : Vfs) (v : ℕ) (n : Vnode) : (s.setVnode v n).vnodes v = some n :=
  Function.update_self ..

@[grind! .]
theorem setVnode_steady (s : Vfs) (v : ℕ) (n : Vnode) (h : (s.vnodes v).map Vnode.node = some n.node) :
    Steady s (s.setVnode v n) where
  node := by
    intro w
    by_cases hw : w = v
    · rw [hw, h, setVnode_self, Option.map_some]
    · change (Function.update s.vnodes v (some n) w).map Vnode.node = _
      rw [Function.update_of_ne hw]
  list := rfl
  spare := rfl
  root := rfl
  stale := rfl
  reused := id

attribute [local grind =] Vnode.node

@[grind! .]
theorem tfsShorten_steady (s : Vfs) (v size : ℕ) : Steady s (tfsShorten s v size).2 := by
  fun_cases tfsShorten
  all_goals grind

section

variable (s : Vfs) (v : ℕ)

@[grind! .] theorem tfsAllocateInode_steady : Steady s (tfsAllocateInode s v).2 := by
  fun_cases tfsAllocateInode
  all_goals grind

@[grind! .] theorem tfsDeallocateInode_steady : Steady s (tfsDeallocateInode s v).2 := by
  fun_cases tfsDeallocateInode
  all_goals grind

@[grind! .] theorem synchronizeVnode_steady : Steady s (synchronizeVnode s v).2 := by
  fun_cases synchronizeVnode
  all_goals grind

@[grind! .] theorem tfsClose_steady : Steady s (tfsClose s v).2 := by
  fun_cases tfsClose
  all_goals grind

@[grind! .] theorem tfsSynchronize_steady : Steady s (tfsSynchronize s v).2 := by
  fun_cases tfsSynchronize
  all_goals grind

@[grind! .]
theorem tfsRead_steady (dest : Sink) (offset nbytes : ℕ) : Steady s (tfsRead s v dest offset nbytes).2.2.2 := by
  fun_cases tfsRead
  all_goals grind [readLoop_cached]

@[grind! .]
theorem vfsRead_steady (dest : Sink) (offset nbytes : ℕ) : Steady s (vfsRead s v dest offset nbytes).2.2.2 := by
  fun_cases vfsRead
  all_goals grind

end

@[grind! .]
theorem wroteTo_steady (s : Vfs) (v offset wrote : ℕ) (clock : Clock) :
    Steady s (wroteTo s v offset wrote clock) := by
  fun_cases wroteTo
  all_goals grind

@[grind! .]
theorem tfsWrite_steady (s : Vfs) (v : ℕ) (src : Source) (offset nbytes : ℕ) :
    Steady s (tfsWrite s v src offset nbytes).2.2 := by
  fun_cases tfsWrite
  all_goals grind [writeLoop_cached]

@[grind! .]
theorem tfsWstat_steady (s : Vfs) (v : ℕ) (st : Stat) : Steady s (tfsWstat s v st).2 := by
  fun_cases tfsWstat
  all_goals grind [Stat.apply]

@[grind! .]
theorem readEntry_steady (s : Vfs) (parent offset : ℕ) : Steady s (readEntry s parent offset).2 := by
  fun_cases readEntry
  all_goals grind

@[grind! .]
theorem skipLoop_steady (parent n delta : ℕ) (s : Vfs) : Steady s (skipLoop parent n delta s).2 := by
  fun_induction skipLoop parent n delta s
  all_goals grind

@[grind! .]
theorem getdentsLoop_steady (parent n delta length : ℕ) (dest : Sink) (s : Vfs) :
    Steady s (getdentsLoop parent n delta length dest s).2.2.2 := by
  fun_induction getdentsLoop parent n delta length dest s
  all_goals grind

@[grind! .]
theorem tfsGetdents_steady (s : Vfs) (parent : ℕ) (dest : Sink) (offset max : ℕ) :
    Steady s (tfsGetdents s parent dest offset max).2.2.2 := by
  fun_cases tfsGetdents
  all_goals grind

@[grind! .]
theorem walkLoop_steady (parent : ℕ) (name : List UInt8) (n offset : ℕ) (s : Vfs) :
    Steady s (walkLoop parent name n offset s).2 := by
  fun_induction walkLoop parent name n offset s
  all_goals grind

@[grind! .]
theorem tfsAppendEntry_steady (s : Vfs) (parent : ℕ) (name : List UInt8) (ino : ℕ) :
    Steady s (tfsAppendEntry s parent name ino).2 := by
  fun_cases tfsAppendEntry
  all_goals grind

@[grind! .]
theorem stampNew_steady (s : Vfs) (v : ℕ) : Steady s (stampNew s v) := by
  fun_cases stampNew
  all_goals grind

@[grind! .]
theorem findLoop_steady (parent ino n offset : ℕ) (s : Vfs) : Steady s (findLoop parent ino n offset s).2 := by
  fun_induction findLoop parent ino n offset s
  all_goals grind

@[grind! .]
theorem shiftLoop_steady (parent delta n offset : ℕ) (s : Vfs) :
    Steady s (shiftLoop parent delta n offset s).2 := by
  fun_induction shiftLoop parent delta n offset s
  all_goals grind

@[grind! .]
theorem tfsRemoveEntry_steady (s : Vfs) (parent ino : ℕ) : Steady s (tfsRemoveEntry s parent ino).2 := by
  fun_cases tfsRemoveEntry
  all_goals grind

@[grind! .]
theorem stampParent_steady (s : Vfs) (parent : ℕ) : Steady s (stampParent s parent) := by
  fun_cases stampParent
  all_goals grind

@[grind! .]
theorem tfsRemove_steady (s : Vfs) (parent v : ℕ) : Steady s (tfsRemove s parent v).2 := by
  fun_cases tfsRemove
  all_goals grind

end Eotan.Fs
