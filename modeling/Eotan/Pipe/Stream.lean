import Eotan.Pipe.Rounds

namespace Eotan.Pipe

open List

def readsOf (out : List Event) : List Request :=
  out.filterMap fun e => match e with
    | .rread req => some req
    | _ => none

def writesOf (out : List Event) : List Request :=
  out.filterMap fun e => match e with
    | .rwrite req => some req
    | _ => none

theorem readsOf_append (l1 l2 : List Event) : readsOf (l1 ++ l2) = readsOf l1 ++ readsOf l2 := filterMap_append

theorem writesOf_append (l1 l2 : List Event) : writesOf (l1 ++ l2) = writesOf l1 ++ writesOf l2 :=
  filterMap_append

theorem readsOf_map_rread (l : List Request) : readsOf (l.map .rread) = l := by
  simp [readsOf, filterMap_map]

theorem readsOf_map_rwrite (l : List Request) : readsOf (l.map .rwrite) = [] := by
  simp [readsOf, filterMap_map]

theorem writesOf_map_rwrite (l : List Request) : writesOf (l.map .rwrite) = l := by
  simp [writesOf, filterMap_map]

theorem writesOf_map_rread (l : List Request) : writesOf (l.map .rread) = [] := by
  simp [writesOf, filterMap_map]

namespace Conn

def allReaders (c : Conn) : List Request := readsOf c.out ++ c.channel.readers

def allWriters (c : Conn) : List Request := writesOf c.out ++ c.channel.writers

def stream (c : Conn) : List UInt8 :=
  c.allReaders.flatMap Request.delivered ++ c.channel.contents ++
    c.channel.writers.flatMap Request.pending

end Conn

structure Conserved (c c' : Conn) : Prop where
  readers : c'.allReaders.map Request.ident = c.allReaders.map Request.ident
  writers : c'.allWriters.map Request.sent = c.allWriters.map Request.sent
  stream : c'.stream = c.stream
  referCount : c'.channel.referCount = c.channel.referCount

theorem Conserved.trans {c1 c2 c3 : Conn} (h1 : Conserved c1 c2) (h2 : Conserved c2 c3) : Conserved c1 c3 :=
  ⟨h2.readers.trans h1.readers, h2.writers.trans h1.writers, h2.stream.trans h1.stream,
    h2.referCount.trans h1.referCount⟩

structure Settled (p : Channel) : Prop where
  good : p.Good
  reading : ∀ r ∈ p.readers, r.position < r.count
  writing : ∀ r ∈ p.writers, r.position < r.count
  full : p.writers ≠ [] → p.Full
  empty : p.readers ≠ [] → p.contents = []
  fresh : ∀ r ∈ p.readers, r.position = 0

variable {p : Channel} {c : Conn} {req : Request}

theorem Settled.not_both (h : Settled p) : p.readers = [] ∨ p.writers = [] := by
  by_cases hr : p.readers = []
  · exact .inl hr
  · right
    by_contra hw
    exact (h.full hw).contents_ne_nil (h.empty hr)

structure BeforeRead (c : Conn) : Prop where
  faults : c.faults = []
  good : c.channel.Good
  reading : ∀ r ∈ c.channel.readers, r.position < r.count
  writing : ∀ r ∈ c.channel.writers, r.position < r.count
  tail : ∀ r ∈ c.channel.readers.tail, r.position = 0
  full : c.channel.writers ≠ [] → c.channel.Full
  more : ∀ r ∈ c.channel.readers, r.position ≠ 0 → c.channel.contents ≠ []

structure BeforeWrite (c : Conn) : Prop where
  faults : c.faults = []
  good : c.channel.Good
  reading : ∀ r ∈ c.channel.readers, r.position < r.count
  writing : ∀ r ∈ c.channel.writers, r.position < r.count
  tail : ∀ r ∈ c.channel.readers.tail, r.position = 0
  empty : c.channel.readers ≠ [] → c.channel.contents = []
  more : ∀ r ∈ c.channel.readers, r.position ≠ 0 → c.channel.writers ≠ []

theorem read_spec (h : BeforeRead c) : ∃ moved c', c.read false = (moved, c') ∧ Conserved c c' ∧
      (moved = false → Settled c'.channel) ∧
      (moved = true → BeforeWrite c' ∧ unread c'.channel < unread c.channel) := by
  obtain ⟨done, bytes, moved, l', c', hloop, hd⟩ :=
    readLoop_spec c.channel.readers h.faults h.good h.reading h.tail
  have hwriters : c'.channel.writers = c.channel.writers := by rw [hd.channel]
  refine ⟨moved, { c' with channel := { c'.channel with readers := l' } }, ?_, ?_, ?_, ?_⟩
  · unfold Conn.read
    rw [hloop]
  · refine ⟨?_, ?_, ?_, ?_⟩
    · simp only [Conn.allReaders]
      rw [hd.out, readsOf_append, readsOf_map_rread, append_assoc, map_append, hd.ident, ← map_append]
    · simp only [Conn.allWriters]
      rw [hd.out, writesOf_append, writesOf_map_rread, append_nil, hwriters]
    · simp only [Conn.stream, Conn.allReaders]
      rw [hd.out, readsOf_append, readsOf_map_rread, append_assoc _ done, flatMap_append,
        hd.delivered, flatMap_append, hwriters, hd.contents]
      simp only [append_assoc]
      rfl
    · simp only
      rw [hd.channel]
  · intro hmoved
    obtain ⟨hl, hc⟩ := hd.unmoved hmoved
    have hempty : c.channel.readers ≠ [] → c.channel.contents = [] := by
      rw [hl, hc] at hd
      exact hd.empty
    subst hl hc
    refine ⟨h.good, h.reading, h.writing, h.full, hempty, ?_⟩
    intro r hr
    by_contra hposition
    exact h.more r hr hposition (hempty (ne_nil_of_mem hr))
  · intro hmoved
    refine ⟨⟨hd.faults, ⟨hd.good.read, hd.good.write⟩, hd.waiting, ?_, hd.tail, hd.empty, ?_⟩, ?_⟩
    · simp only
      rw [hwriters]
      exact h.writing
    · intro r hr hposition hnil
      simp only at hnil
      rw [hwriters] at hnil
      exact hposition (hd.fresh hnil hmoved r hr)
    · have hbound := hd.bound
      have hpos : 0 < bytes.length := length_pos_iff.mpr (hd.progress.mp hmoved)
      simp only [rests, unread] at hbound ⊢
      omega

theorem pending_ne_nil (h : req.position < req.count) : req.pending ≠ [] := by
  rw [← length_pos_iff, Request.pending, length_map, length_range]
  omega

theorem write_spec (h : BeforeWrite c) : ∃ moved c', c.write = (moved, c') ∧ Conserved c c' ∧
      (moved = false → Settled c'.channel) ∧
      BeforeRead c' ∧ unread c'.channel = unread c.channel := by
  obtain ⟨done, bytes, moved, l', c', hloop, hf⟩ := writeLoop_spec c.channel.writers h.faults h.good h.writing
  have hreaders : c'.channel.readers = c.channel.readers := by rw [hf.channel]
  refine ⟨moved, { c' with channel := { c'.channel with writers := l' } }, ?_, ?_, ?_, ?_, ?_⟩
  · unfold Conn.write
    rw [hloop]
  · refine ⟨?_, ?_, ?_, ?_⟩
    · simp only [Conn.allReaders]
      rw [hf.out, readsOf_append, readsOf_map_rwrite, append_nil, hreaders]
    · simp only [Conn.allWriters]
      rw [hf.out, writesOf_append, writesOf_map_rwrite, append_assoc, map_append, hf.sent, ← map_append]
    · change (readsOf c'.out ++ c'.channel.readers).flatMap Request.delivered ++
        c'.channel.contents ++ l'.flatMap Request.pending = _
      rw [hf.out, readsOf_append, readsOf_map_rwrite, append_nil, hreaders, hf.contents, Conn.stream, hf.pending]
      simp only [append_assoc]
      rfl
    · simp only
      rw [hf.channel]
  · intro hmoved
    obtain ⟨hl, hc⟩ := hf.unmoved hmoved
    have hfull : c.channel.writers ≠ [] → c.channel.Full := by
      rw [hl, hc] at hf
      exact hf.full
    subst hl hc
    refine ⟨h.good, h.reading, h.writing, hfull, h.empty, ?_⟩
    intro r hr
    by_contra hposition
    exact (hfull (h.more r hr hposition)).contents_ne_nil (h.empty (ne_nil_of_mem hr))
  · refine ⟨hf.faults, ⟨hf.good.read, hf.good.write⟩, ?_, hf.waiting, ?_, hf.full, ?_⟩
    · simp only
      rw [hreaders]
      exact h.reading
    · simp only
      rw [hreaders]
      exact h.tail
    · intro r hr hposition hnil
      change c'.channel.contents = [] at hnil
      simp only [hreaders] at hr
      -- the buffer was empty and there is a writer, so something has been written
      have hwriters := h.more r hr hposition
      have hl : l' = [] := by
        by_contra hne
        exact (hf.full hne).contents_ne_nil hnil
      have hbytes : bytes = [] := by
        have := hf.contents.symm.trans hnil
        exact (append_eq_nil_iff.mp this).2
      have hpending := hf.pending
      rw [hl, hbytes, flatMap_nil, append_nil, flatMap_eq_nil_iff] at hpending
      obtain ⟨w, hw⟩ := exists_mem_of_ne_nil _ hwriters
      exact pending_ne_nil (h.writing w hw) (hpending w hw)
  · simp only [unread]
    rw [hreaders]

theorem rounds_spec (c0 : Conn) : (∀ n c, Conserved c0 c ∧ BeforeRead c → unread c.channel < n →
      ∃ c', readRounds false n c = some c' ∧ Conserved c0 c' ∧ Settled c'.channel) ∧
    ∀ n c, Conserved c0 c ∧ BeforeWrite c → unread c.channel < n →
      ∃ c', writeRounds false n c = some c' ∧ Conserved c0 c' ∧ Settled c'.channel := by
  apply rounds_rule
  · rintro c ⟨hcons, hc⟩
    obtain ⟨moved, c', hread, hcons', hend, hgo⟩ := read_spec hc
    exact ⟨moved, c', hread, fun hmoved => ⟨hcons.trans hcons', hend hmoved⟩,
      fun hmoved => ⟨⟨hcons.trans hcons', (hgo hmoved).1⟩, (hgo hmoved).2⟩⟩
  · rintro c ⟨hcons, hc⟩
    obtain ⟨moved, c', hwrite, hcons', hend, hnext, hsame⟩ := write_spec hc
    exact ⟨moved, c', hwrite, fun hmoved => ⟨hcons.trans hcons', hend hmoved⟩, ⟨hcons.trans hcons', hnext⟩, hsame⟩

theorem Settled.beforeRead (h : Settled p) (hnew : req.position = 0) (hcount : req.count ≠ 0) :
    BeforeRead ⟨{ p with readers := p.readers ++ [req] }, [], []⟩ := by
  have hall : ∀ r ∈ p.readers ++ [req], r.position = 0 :=
    forall_mem_append.mpr ⟨h.fresh, forall_mem_singleton.mpr hnew⟩
  refine ⟨rfl, ⟨h.good.read, h.good.write⟩, ?_, h.writing, fun r hr => hall r (mem_of_mem_tail hr), h.full, ?_⟩
  · refine forall_mem_append.mpr ⟨h.reading, forall_mem_singleton.mpr ?_⟩
    omega
  · intro r hr hposition
    exact absurd (hall r hr) hposition

theorem Settled.beforeWrite (h : Settled p) (hnew : req.position = 0) (hcount : req.count ≠ 0) :
    BeforeWrite ⟨{ p with writers := p.writers ++ [req] }, [], []⟩ := by
  refine ⟨rfl, ⟨h.good.read, h.good.write⟩, h.reading, ?_,
    fun r hr => h.fresh r (mem_of_mem_tail hr), h.empty, ?_⟩
  · refine forall_mem_append.mpr ⟨h.writing, forall_mem_singleton.mpr ?_⟩
    omega
  · intro r hr hposition
    exact absurd (h.fresh r hr) hposition

end Eotan.Pipe
