import Eotan.Mm.Exec
import Eotan.Mpu.PagingRange

namespace Eotan.Mm.Spaces

open Mpu

variable {s s' : Spaces}

def Adds (s s' : Spaces) : Prop := s.machine.Adds s'.machine

theorem Adds.of_eq (h : s'.machine.touched = s.machine.touched) : s.Adds s' := Machine.Adds.of_eq h

theorem Adds.refl (s : Spaces) : s.Adds s := .of_eq rfl

theorem Adds.trans {t : Spaces} (h : s.Adds s') (h' : s'.Adds t) : s.Adds t := Machine.Adds.trans h h'

theorem slabAlloc_adds (s : Spaces) : s.Adds s.slabAlloc.2 := by
  unfold slabAlloc
  split
  · exact .refl s
  · exact .of_eq rfl
  · exact .of_eq rfl
  · have hp := s.machine.palloc_touched
    dsimp only
    split_ifs with hnull
    · exact .of_eq hp
    · exact .of_eq hp

theorem slabFree_adds (s : Spaces) : s.Adds s.slabFree := by
  unfold slabFree
  split
  · exact .refl s
  · split
    · exact .of_eq rfl
    · exact .of_eq (Machine.pfree_touched _ _)
  · exact .of_eq rfl

theorem allocSegment_adds (s : Spaces) : s.Adds s.allocSegment.2 := by
  have h := s.slabAlloc_adds
  unfold allocSegment
  generalize s.slabAlloc = r at h ⊢
  rcases r with ⟨_ | _, t⟩
  · exact h
  · dsimp only
    split
    · exact h
    · exact h

theorem freeSegment_adds (s : Spaces) (id : ℕ) : s.Adds (s.freeSegment id) :=
  slabFree_adds { s with
    segments := Function.update s.segments id none
    spareSegments := id :: s.spareSegments }

theorem sub32_of_le {a b : ℕ} (hle : b ≤ a) (ha : a < 2 ^ 32) : sub32 a b = a - b := by
  unfold sub32
  rw [show a + (2 ^ 32 - b) = a - b + 2 ^ 32 by omega, Nat.add_mod_right]
  exact Nat.mod_eq_of_lt (by omega)

theorem pages_le {n k : ℕ} (hn : n ≤ k * pageSize) (hk : k * pageSize ≤ supervisorStart) : pages n ≤ k := by
  have hlt : n + (pageSize - 1) < 2 ^ 32 := by
    simp only [pageSize, supervisorStart] at *
    omega
  unfold pages
  rw [Nat.mod_eq_of_lt hlt]
  simp only [pageSize] at *
  omega

theorem range_of_segment {start stop : ℕ} (hstart : start % pageSize = 0)
    (hstop : stop % pageSize = 0) (hle : start ≤ stop) (hrange : stop ≤ supervisorStart) :
    (start / pageSize + pages (sub32 stop start)) * pageSize ≤ supervisorStart := by
  have hlt : stop < 2 ^ 32 := lt_of_le_of_lt hrange (by decide)
  rw [sub32_of_le hle hlt]
  have hpages : pages (stop - start) ≤ stop / pageSize - start / pageSize := by
    apply pages_le <;> simp only [pageSize, supervisorStart] at * <;> omega
  simp only [pageSize, supervisorStart] at *
  omega

theorem segmentAllocate_adds {directory start stop type : ℕ} {writable : Bool}
    (hstart : start % pageSize = 0) (hstop : stop % pageSize = 0) (hle : start ≤ stop)
    (hrange : stop ≤ supervisorStart) : s.Adds (s.segmentAllocate directory start stop writable type).2 := by
  have halloc := s.allocSegment_adds
  unfold segmentAllocate
  generalize s.allocSegment = r at halloc ⊢
  rcases r with ⟨_ | new, t⟩
  · exact halloc
  have hlen := range_of_segment hstart hstop hle hrange
  have hmap : t.machine.Adds (t.machine.mapUserPages directory start (pages (sub32 stop start)) writable).2 :=
    t.machine.mapUserPages_adds writable hlen
  dsimp only
  generalize sub32 stop start = len at hmap ⊢
  generalize t.machine.mapUserPages directory start (pages len) writable = r at hmap ⊢
  rcases r with ⟨_ | e, m⟩
  · exact halloc.trans hmap
  · apply halloc.trans
    apply Adds.trans _ (freeSegment_adds _ _)
    exact Machine.Adds.trans hmap (m.unmapUserPages_adds directory start (pages len))

theorem semaphoreDestroy_adds (s : Spaces) (key : ℕ) : s.Adds (s.semaphoreDestroy key) :=
  slabFree_adds { s with sems := { s.sems with tree := Function.update s.sems.tree key none } }

theorem foldl_adds {α : Type} {f : Spaces → α → Spaces} (hf : ∀ (s : Spaces) x, s.Adds (f s x))
    (l : List α) (s : Spaces) : s.Adds (l.foldl f s) := by
  induction l generalizing s with
  | nil => exact .refl s
  | cons x l ih => exact (hf s x).trans (ih (f s x))

section

variable (s : Spaces)

theorem segmentDeallocate_adds (directory id : ℕ) : s.Adds (s.segmentDeallocate directory id) := by
  unfold segmentDeallocate
  split
  · exact .refl s
  dsimp only
  split_ifs with hshared
  · exact Machine.detachUserPages_adds _ _ _ _
  · apply Adds.trans _ (freeSegment_adds _ _)
    apply Adds.trans _ (foldl_adds semaphoreDestroy_adds _ _)
    exact Machine.unmapUserPages_adds _ _ _ _

theorem releaseSegment_adds (directory : ℕ) (id : Option ℕ) : s.Adds (s.releaseSegment directory id) := by
  cases id with
  | none => exact .refl s
  | some id => exact s.segmentDeallocate_adds directory id

theorem releaseSegments_adds (pid : ℕ) : s.Adds (s.releaseSegments pid) := by
  unfold releaseSegments
  split
  · exact .refl s
  · exact ((s.releaseSegment_adds _ _).trans (releaseSegment_adds _ _ _)).trans (releaseSegment_adds _ _ _)

theorem kernelCreate_adds (tid : ℕ) : s.Adds (s.kernelCreate tid).2 := by
  have halloc := s.slabAlloc_adds
  unfold kernelCreate
  generalize s.slabAlloc = r at halloc ⊢
  rcases r with ⟨_ | _, t⟩
  · exact halloc
  have hp : t.Adds (t.setMachine t.machine.palloc.2) := .of_eq t.machine.palloc_touched
  dsimp only
  split_ifs with hthere hnull
  · exact halloc.trans t.slabFree_adds
  · exact halloc.trans (hp.trans (slabFree_adds _))
  · exact halloc.trans hp

theorem kernelDestroy_adds (tid : ℕ) : s.Adds (s.kernelDestroy tid) := by
  unfold kernelDestroy
  split
  · exact .refl s
  · next p _ =>
    apply Adds.trans _ (slabFree_adds _)
    exact .of_eq (s.machine.pfree_touched p)

theorem createThread_adds (tid pid ustackTop : ℕ) : s.Adds (s.createThread tid pid ustackTop).2 := by
  unfold createThread
  split
  · exact .refl s
  have halloc := s.slabAlloc_adds
  generalize s.slabAlloc = r at halloc ⊢
  rcases r with ⟨_ | _, t⟩
  · exact halloc
  have hcreate := t.kernelCreate_adds tid
  dsimp only at halloc ⊢
  generalize t.kernelCreate tid = r at hcreate ⊢
  rcases r with ⟨_ | _, u⟩
  · exact halloc.trans (hcreate.trans u.slabFree_adds)
  dsimp only at hcreate ⊢
  apply halloc.trans
  apply hcreate.trans
  split_ifs with hthere
  · exact (u.kernelDestroy_adds tid).trans (slabFree_adds _)
  · exact .of_eq rfl
  · exact .of_eq rfl

theorem unmapStack_adds (directory : ℕ) (stack : Segment) : s.Adds (s.unmapStack directory stack) := by
  unfold unmapStack
  split_ifs with hstack
  · exact Machine.unmapUserPages_adds _ _ _ _
  · exact .refl s

end

theorem destroyThread_adds (directory keep : ℕ) (s : Spaces) (tid : ℕ) :
    s.Adds (destroyThread directory keep s tid) := by
  unfold destroyThread
  split
  · exact .refl s
  · apply (s.kernelDestroy_adds tid).trans
    apply Adds.trans _ (slabFree_adds _)
    exact unmapStack_adds _ directory _

theorem destroyThreads_adds (s : Spaces) (pid keep : ℕ) : s.Adds (s.destroyThreads pid keep) := by
  unfold destroyThreads
  split
  · exact .refl s
  · next p _ =>
    exact foldl_adds (destroyThread_adds p.directory keep) p.threads (s.setProcess pid { p with threads := [] })

theorem copyUserStack_adds (s : Spaces) (directory : ℕ) {dest src size : ℕ} (hsrc : src < supervisorStart)
    (hdest : dest + size = supervisorStart) : s.Adds (s.copyUserStack directory dest src size).2 := by
  have hmap : s.machine.Adds (s.machine.mapUserPages directory
      (pageRoundDown (userStackEndAddr - userStackInitialSize))
      (pages (pageRoundUp userStackInitialSize)) true).2 :=
    s.machine.mapUserPages_adds true (by decide)
  unfold copyUserStack
  dsimp only
  generalize s.machine.mapUserPages directory (pageRoundDown (userStackEndAddr - userStackInitialSize))
    (pages (pageRoundUp userStackInitialSize)) true = r at hmap ⊢
  rcases r with ⟨_ | e, m⟩
  · have hmove : m.Adds (m.moveStack directory dest src size).2 := Machine.moveStack_adds hsrc hdest
    dsimp only
    split_ifs with hcode
    · exact Machine.Adds.trans hmap (hmove.trans (Machine.unmapUserPages_adds _ _ _ _))
    · exact Machine.Adds.trans hmap hmove
  · exact hmap

theorem destroyMemory_adds (s : Spaces) (pid : ℕ) : s.Adds (s.destroyMemory pid) := by
  have hfirst : s.Adds ((s.destroyThreads pid 0).releaseSegments pid) :=
    (s.destroyThreads_adds pid 0).trans (releaseSegments_adds _ _)
  unfold destroyMemory
  dsimp only
  generalize (s.destroyThreads pid 0).releaseSegments pid = t at hfirst ⊢
  split
  · exact hfirst
  apply hfirst.trans
  apply Machine.Adds.trans _ (.of_eq (Machine.pfree_touched _ _))
  split_ifs with hlocal
  · exact Machine.unmapUserPages_adds _ _ _ _
  · exact .refl _

end Eotan.Mm.Spaces

namespace Eotan.Mm

open Mpu

def Phdr.Fits (h : Phdr) : Prop :=
  h.vaddr + h.memsz ≤ supervisorStart ∧ h.vaddr + h.filesz ≤ supervisorStart

instance (h : Phdr) : Decidable h.Fits := inferInstanceAs (Decidable (_ ∧ _))

namespace Spaces

variable {s : Spaces}

theorem segmentFor_adds (s : Spaces) (directory : ℕ) {h : Phdr} (writable : Bool) (type : ℕ)
    (hfits : h.Fits) : s.Adds (s.segmentFor directory h writable type).2 := by
  have hsum := hfits.1
  apply segmentAllocate_adds <;> simp only [pageRoundUp, pageRoundDown, pageSize, supervisorStart] at * <;> omega

variable {code data : Phdr}

theorem replaceSegments_adds (s : Spaces) (pid : ℕ) (hcode : code.Fits) (hdata : data.Fits) :
    s.Adds (s.replaceSegments pid code data).2 := by
  unfold replaceSegments
  split
  · exact .refl s
  next p _ =>
  have hfirst := s.segmentFor_adds p.directory false typeCode hcode
  generalize s.segmentFor p.directory code false typeCode = r at hfirst ⊢
  rcases r with ⟨e | id, t⟩
  · exact hfirst
  dsimp only at hfirst ⊢
  split_ifs with hempty
  · exact hfirst
  have hsecond := segmentFor_adds (t.setProcess pid { p with code := some id }) p.directory true typeData hdata
  generalize (t.setProcess pid { p with code := some id }).segmentFor p.directory data true
    typeData = r at hsecond ⊢
  rcases r with ⟨e | id', u⟩
  · exact hfirst.trans hsecond
  · exact hfirst.trans hsecond

theorem processReplace_adds (s : Spaces) (tid pid : ℕ) {args size : ℕ}
    (hcode : code.Fits) (hdata : data.Fits) (hargs : args < supervisorStart) (hsize : size ≤ supervisorStart) :
    s.Adds (s.processReplace tid pid code data args size).2 := by
  have hthreads := s.destroyThreads_adds pid tid
  unfold processReplace
  dsimp only
  generalize s.destroyThreads pid tid = t at hthreads ⊢
  split
  · exact hthreads
  next p _ =>
  have hstack : t.Adds (t.copyUserStack p.directory (pageRoundDown userStackEndAddr - size) args size).2 :=
    t.copyUserStack_adds p.directory hargs (Nat.sub_add_cancel hsize)
  generalize t.copyUserStack p.directory (pageRoundDown userStackEndAddr - size) args size = r at hstack ⊢
  rcases r with ⟨_ | e, u⟩
  · have hsegments := replaceSegments_adds (u.releaseSegments pid) pid hcode hdata
    have hfirst := (hthreads.trans hstack).trans ((u.releaseSegments_adds pid).trans hsegments)
    dsimp only
    generalize (u.releaseSegments pid).replaceSegments pid code data = r at hfirst ⊢
    rcases r with ⟨_ | e, v⟩
    · exact hfirst.trans (v.createThread_adds _ _ _)
    · exact hfirst
  · exact hthreads.trans hstack

theorem putPieces_adds (th : Mpu.Thread) (pieces : List (ℕ × ℕ)) (user left : ℕ) (m : Machine)
    (hrange : user + left ≤ supervisorStart) : m.Adds (putPieces th user left pieces m).2 := by
  induction pieces generalizing user left m with
  | nil => exact .refl m
  | cons piece pieces ih =>
    obtain ⟨src, len⟩ := piece
    unfold putPieces
    have hbelow : ∀ a ∈ (memcpyK2u m.mem th user src (min len left)).log, (Touch.copied a).Below :=
      Machine.memcpyK2u_below (by omega)
    dsimp only
    generalize memcpyK2u m.mem th user src (min len left) = r at hbelow ⊢
    have hadds : m.Adds { m with mem := r.mem, touched := r.log.map Touch.copied ++ m.touched } := by
      intro t ht
      rcases List.mem_append.mp ht with ht | ht
      · obtain ⟨a, ha, rfl⟩ := List.mem_map.mp ht
        exact .inr (hbelow a ha)
      · exact .inl ht
    split_ifs with hcode
    · exact hadds
    have hnext : (user + min len left) % 2 ^ 32 = user + min len left := by
      apply Nat.mod_eq_of_lt
      simp only [supervisorStart] at hrange
      omega
    rw [hnext]
    have hrest := ih (user + min len left) (left - min len left)
      { m with mem := r.mem, touched := r.log.map Touch.copied ++ m.touched } (by omega)
    generalize putPieces th (user + min len left) (left - min len left) pieces
      { m with mem := r.mem, touched := r.log.map Touch.copied ++ m.touched } = r' at hrest ⊢
    rcases r' with ⟨e | n, m'⟩
    · exact hadds.trans hrest
    · exact hadds.trans hrest

theorem loadPart_adds (s : Spaces) (th : Mpu.Thread) (file : Image) {h : Phdr} (hfits : h.Fits) :
    s.Adds (s.loadPart th file h).2 := by
  unfold loadPart
  split
  · exact .refl s
  have hput := putPieces_adds th (file.pieces h.offset h.filesz) h.vaddr h.filesz s.machine hfits.2
  generalize putPieces th h.vaddr h.filesz (file.pieces h.offset h.filesz) s.machine = r at hput ⊢
  rcases r with ⟨e | n, m⟩
  · exact hput
  · exact hput

theorem loadParts_adds (s : Spaces) (th : Mpu.Thread) (file : Image) (hcode : code.Fits)
    (hdata : data.Fits) : s.Adds (s.loadParts th file code data).2 := by
  have hfirst := s.loadPart_adds th file hcode
  unfold loadParts
  generalize s.loadPart th file code = r at hfirst ⊢
  rcases r with ⟨_ | e, t⟩
  · dsimp only
    split_ifs with hempty
    · exact hfirst
    · exact hfirst.trans (loadPart_adds _ th file hdata)
  · exact hfirst

def onePage (vaddr : List UInt8) : Image where
  bytes := [0x7f, 0x45, 0x4c, 0x46, 1, 1, 1, 0, 0, 0, 0, 0, 0, 0, 0, 0, 2, 0, 3, 0, 1, 0, 0, 0,
    0, 0, 0, 0, 52, 0, 0, 0, 0, 0, 0, 0, 0, 0, 0, 0, 52, 0, 32, 0, 1, 0, 0, 0, 0, 0, 0, 0] ++
    [1, 0, 0, 0, 0, 0, 0, 0] ++ vaddr ++ [0, 0, 0, 0, 0, 0, 0, 0, 1, 0, 0, 0, 5, 0, 0, 0, 0, 0, 0, 0]
  errors := fun _ _ => none
  pieces := fun _ _ => []

def bare : Spaces where
  machine := ⟨fun _ => 0, List.range' 16 24, 2, []⟩
  answers := []
  blocks := []
  segments := fun _ => none
  spareSegments := [1, 2, 3]
  processes := Function.update (fun _ => none) 2 (some ⟨0x8000, none, none, none, [], 0⟩)
  threads := fun _ => none
  threadSequence := createIdStore
  kstacks := fun _ => none
  sems := .start
  sent := []

end Spaces

end Eotan.Mm
