import Coursework.Malloc.Heap
import Coursework.Malloc.InBandList
import Coursework.Malloc.Mm

/-! How a heap lies in memory: every chunk at the address that `mem_map` gave
it, every block with its boundary tags, and both lists in band. -/

namespace Malloc

open Tiling Bytes DoublyLinked

/-- The address of the payload of the block at `l`. -/
def Loc.payload (π : Nat → Nat) (l : Loc) : Nat := π l.chunk + l.off + 16

/-- The payload of a block starts after its header. -/
theorem Loc.payload_mk (π : Nat → Nat) (chunk off : Nat) :
    Loc.payload π ⟨chunk, off⟩ = π chunk + off + 16 := rfl

/-- The chunks lie in mapped, pairwise disjoint regions at the addresses `π`. -/
structure Layout (π : Nat → Nat) (os : OS) (cs : List Chunk) : Prop where
  shaped : ∀ c ∈ cs, c.Shaped
  ids : (cs.map Chunk.id).Nodup
  aligned : ∀ c ∈ cs, π c.id % apageSize = 0
  nonzero : ∀ c ∈ cs, 0 < π c.id
  inside : ∀ c ∈ cs, π c.id + c.size < 2 ^ 64
  apart : ∀ c ∈ cs, ∀ d ∈ cs, c ≠ d → Apart (π c.id) c.size (π d.id) d.size
  mapped : ∀ c ∈ cs, ∀ x, π c.id ≤ x → x < π c.id + c.size → os.mapped (x / apageSize) = true

/-- The header and the footer of the block at `h`. -/
structure Tags (m : Bytes) (h : Nat) (b : Block) : Prop where
  size : m.read h 8 = b.size
  alloc : m.read (h + 8) 4 = if b.free then 0 else 1
  footer : m.read (h + b.size - 16) 8 = b.size

/-- The page headers, with the page list through them. -/
structure PageRep (π : Nat → Nat) (s : Process) (cs : List Chunk) : Prop where
  layout : Layout π s.os cs
  pageSize : ∀ c ∈ cs, s.mem.read (π c.id + 16) 8 = c.size
  pageEnd : ∀ c ∈ cs, s.mem.read (π c.id + 24) 8 = π c.id + c.size
  pageList : ListRep s.mem s.pageListHead (cs.map fun c => π c.id)

/-- The pages that `pagemap.c` should know for the chunks `cs`. -/
def PagesOf (π : Nat → Nat) (cs : List Chunk) (page : PagePtr) : Prop :=
  ∃ c ∈ cs, ∃ x, π c.id ≤ x ∧ x < π c.id + c.size ∧ page = pageOf x

/-- The page list and a free list `fr` of some of the free blocks. -/
structure ListsRep (π : Nat → Nat) (s : Process) (cs : List Chunk) (fr : List Loc) : Prop
    extends PageRep π s cs where
  freeList : ListRep s.mem s.freeListHead (fr.map (Loc.payload π))
  freeLocs : ∀ l ∈ fr, FreeIn cs l

/-- The process holds the chunks `cs`, in the order of the page list, with the
tags of all blocks, and `pagemap.c` knows their pages. -/
structure Rep (π : Nat → Nat) (s : Process) (cs : List Chunk) (fr : List Loc) : Prop
    extends ListsRep π s cs fr where
  tags : ∀ c ∈ cs, ∀ b ∈ c.blocks, Tags s.mem (π c.id + b.off) b
  lib : ∃ pages, MemLibRep s pages ∧ ∀ page, page ∈ pages ↔ PagesOf π cs page

section Geometry

variable {π : Nat → Nat} {os : OS} {cs : List Chunk} {c d : Chunk} {b e : Block}

theorem Layout.eq_of_id (h : Layout π os cs) (hc : c ∈ cs) (hd : d ∈ cs) (hId : c.id = d.id) :
    c = d := List.inj_on_of_nodup_map h.ids hc hd hId

/-- Different chunks have different addresses. Each has bytes of its own, and no byte is in two
of them. -/
theorem Layout.base_inj (h : Layout π os cs) (hc : c ∈ cs) (hd : d ∈ cs)
    (hBase : π c.id = π d.id) : c = d := by
  by_contra hNe
  have hApart := h.apart c hc d hd hNe
  have := (h.shaped c hc).size_bounds
  have := (h.shaped d hd).size_bounds
  unfold Apart at hApart
  omega

/-- Different blocks do not overlap, whether or not they share a chunk. Within one chunk the
tiling says so, and across chunks the layout. -/
theorem Layout.blocks_apart (h : Layout π os cs) (hc : c ∈ cs) (hd : d ∈ cs) (hb : b ∈ c.blocks)
    (he : e ∈ d.blocks) (hNe : ¬(c = d ∧ b = e)) :
    Apart (π c.id + b.off) b.size (π d.id + e.off) e.size := by
  by_cases hcd : c = d
  · subst hcd
    have hbe : b ≠ e := fun hEq => hNe ⟨rfl, hEq⟩
    have hOff := (h.shaped c hc).tiled.apart hb he hbe
    unfold Segment.stop at hOff
    unfold Apart
    omega
  · have hChunks := h.apart c hc d hd hcd
    have hbBounds := (h.shaped c hc).bounds hb
    have heBounds := (h.shaped d hd).bounds he
    unfold Apart at hChunks ⊢
    omega

/-- No block overlaps a page header, neither that of its own chunk nor that of another. -/
theorem Layout.header_apart (h : Layout π os cs) (hc : c ∈ cs) (hd : d ∈ cs) (hb : b ∈ c.blocks) :
    Apart (π c.id + b.off) b.size (π d.id) 32 := by
  have hbBounds := (h.shaped c hc).bounds hb
  have hSize := (h.shaped d hd).size_bounds
  by_cases hcd : c = d
  · subst hcd
    unfold Apart
    omega
  · have hChunks := h.apart c hc d hd hcd
    unfold Apart at hChunks ⊢
    omega

/-- Any bytes of a chunk may be accessed, the whole of it being mapped. Loads and stores
through a block thus never stop the program. -/
theorem Layout.accessible (h : Layout π os cs) (hc : c ∈ cs) {x n : Nat} (hLow : π c.id ≤ x)
    (hPos : 0 < n) (hHigh : x + n ≤ π c.id + c.size) : os.accessible x n = true :=
  OS.accessible_of_mapped (h.mapped c hc) hLow hPos hHigh

/-- Page headers are nodes whose link words do not overlap, which is what the lists in memory
ask of their nodes. -/
theorem Layout.spaced_chunks (h : Layout π os cs) : Spaced (cs.map fun c => π c.id) := by
  constructor
  · intro x hx
    obtain ⟨c, hc, rfl⟩ := List.mem_map.mp hx
    have := h.inside c hc
    have := (h.shaped c hc).size_bounds
    omega
  · intro x hx y hy hNe
    obtain ⟨c, hc, rfl⟩ := List.mem_map.mp hx
    obtain ⟨d, hd, rfl⟩ := List.mem_map.mp hy
    have hcd : c ≠ d := by
      rintro rfl
      exact hNe rfl
    have hChunks := h.apart c hc d hd hcd
    have hcSize := (h.shaped c hc).size_bounds
    have hdSize := (h.shaped d hd).size_bounds
    unfold Apart at hChunks ⊢
    omega

/-- The payload of the block at a place of the free list. -/
theorem Layout.payload (h : Layout π os cs) {l : Loc} (hl : FreeIn cs l) :
    ∃ c ∈ cs, ∃ b ∈ c.blocks, c.id = l.chunk ∧ b.off = l.off ∧ b.free = true ∧
      l.payload π = π c.id + b.off + 16 ∧ π c.id + 32 ≤ π c.id + b.off ∧ 48 ≤ b.size ∧
      π c.id + b.off + b.size ≤ π c.id + c.size := by
  obtain ⟨c, hc, hId, b, hb, hOff, hFree⟩ := hl
  have hBounds := (h.shaped c hc).bounds hb
  exact ⟨c, hc, b, hb, hId, hOff, hFree, by rw [Loc.payload, hId, hOff], by omega, by omega,
    by omega⟩

/-- Free blocks are nodes whose link words do not overlap. Their links take up the first words
of the payload, and every block has room for them. -/
theorem Layout.spaced_free (h : Layout π os cs) {fr : List Loc} (hFree : ∀ l ∈ fr, FreeIn cs l) :
    Spaced (fr.map (Loc.payload π)) := by
  constructor
  · intro x hx
    obtain ⟨l, hl, rfl⟩ := List.mem_map.mp hx
    obtain ⟨c, hc, b, hb, -, -, -, hAddr, hLow, hSize, hHigh⟩ := h.payload (hFree l hl)
    have := h.inside c hc
    omega
  · intro x hx y hy hNe
    obtain ⟨l, hl, rfl⟩ := List.mem_map.mp hx
    obtain ⟨k, hk, rfl⟩ := List.mem_map.mp hy
    obtain ⟨c, hc, b, hb, -, -, -, hAddr, -, hbSize, -⟩ := h.payload (hFree l hl)
    obtain ⟨d, hd, e, he, -, -, -, hAddr', -, heSize, -⟩ := h.payload (hFree k hk)
    have hApart := h.blocks_apart hc hd hb he (by
      rintro ⟨rfl, rfl⟩
      exact hNe (hAddr.trans hAddr'.symm))
    unfold Apart at hApart ⊢
    omega

/-- Different places have different payload addresses, so a pointer tells which block it is
of. -/
theorem Layout.payload_inj (h : Layout π os cs) {l k : Loc} (hl : FreeIn cs l) (hk : FreeIn cs k)
    (hEq : l.payload π = k.payload π) : l = k := by
  obtain ⟨c, hc, b, hb, hId, hOff, -, hAddr, -, hbSize, -⟩ := h.payload hl
  obtain ⟨d, hd, e, he, hId', hOff', -, hAddr', -, heSize, -⟩ := h.payload hk
  have hSame : c = d ∧ b = e := by
    by_contra hNe
    have hApart := h.blocks_apart hc hd hb he hNe
    unfold Apart at hApart
    omega
  obtain ⟨rfl, rfl⟩ := hSame
  obtain ⟨lc, lo⟩ := l
  obtain ⟨kc, ko⟩ := k
  simp_all

end Geometry

section Frames

variable {π : Nat → Nat} {s t : Process} {cs : List Chunk} {c : Chunk} {b : Block}

/-- The bytes of the page headers. -/
def headerBytes (π : Nat → Nat) (cs : List Chunk) : Set Nat :=
  {a | ∃ c ∈ cs, a ∈ span (π c.id) 32}

/-- The page list is in memory as long as the page headers and the head pointer are what they
were. -/
theorem PageRep.congr (h : PageRep π s cs) (hOs : t.os = s.os)
    (hHead : t.pageListHead = s.pageListHead)
    (hAgree : ∀ a ∈ headerBytes π cs, t.mem a = s.mem a) : PageRep π t cs := by
  have hRead : ∀ c ∈ cs, ∀ a, π c.id ≤ a → a + 8 ≤ π c.id + 32 →
      t.mem.read a 8 = s.mem.read a 8 := by
    intro c hc a hLow hHigh
    exact read_congr fun x hx hx' => hAgree x ⟨c, hc, by omega, by omega⟩
  refine ⟨hOs ▸ h.layout, ?_, ?_, ?_⟩
  · intro c hc
    rw [hRead c hc _ (by omega) (by omega), h.pageSize c hc]
  · intro c hc
    rw [hRead c hc _ (by omega) (by omega), h.pageEnd c hc]
  · rw [hHead]
    apply h.pageList.congr
    rintro a ⟨x, hx, ha⟩
    obtain ⟨c, hc, rfl⟩ := List.mem_map.mp hx
    rw [mem_span] at ha
    exact hAgree a ⟨c, hc, by omega, by omega⟩

/-- The tags of a block depend only on its header and its footer. Writes to payloads do not
change them. -/
theorem Tags.congr {m m' : Bytes} {a : Nat} (h : Tags m a b)
    (hAgree : ∀ x, x ∈ span a 16 ∪ span (a + b.size - 16) 16 → m' x = m x) : Tags m' a b := by
  refine ⟨Eq.trans ?_ h.size, Eq.trans ?_ h.alloc, Eq.trans ?_ h.footer⟩
  · exact read_congr fun x hx hx' => hAgree x (Or.inl ⟨by omega, by omega⟩)
  · exact read_congr fun x hx hx' => hAgree x (Or.inl ⟨by omega, by omega⟩)
  · exact read_congr fun x hx hx' => hAgree x (Or.inr ⟨by omega, by omega⟩)

end Frames

section Update

variable {π : Nat → Nat} {os : OS} {s : Process} {cs cs' : List Chunk} {c : Chunk} {b : Block}

/-- The layout of the chunks depends only on their extents, so cutting a chunk anew leaves
it. -/
theorem Layout.of_extent (h : Layout π os cs) (hSame : cs'.map Chunk.extent = cs.map Chunk.extent)
    (hShaped : ∀ c ∈ cs', c.Shaped) : Layout π os cs' where
  shaped := hShaped
  ids := ids_of_extent hSame ▸ h.ids
  aligned c hc := by
    obtain ⟨d, hd, hId, -⟩ := exists_of_extent hSame hc
    exact hId ▸ h.aligned d hd
  nonzero c hc := by
    obtain ⟨d, hd, hId, -⟩ := exists_of_extent hSame hc
    exact hId ▸ h.nonzero d hd
  inside c hc := by
    obtain ⟨d, hd, hId, hSize⟩ := exists_of_extent hSame hc
    exact hId ▸ hSize ▸ h.inside d hd
  apart c hc d hd hNe := by
    obtain ⟨c', hc', hcId, hcSize⟩ := exists_of_extent hSame hc
    obtain ⟨d', hd', hdId, hdSize⟩ := exists_of_extent hSame hd
    have hNodup : (cs'.map Chunk.id).Nodup := ids_of_extent hSame ▸ h.ids
    have hNe' : c' ≠ d' := by
      rintro rfl
      exact hNe (List.inj_on_of_nodup_map hNodup hc hd (hcId.symm.trans hdId))
    rw [← hcId, ← hcSize, ← hdId, ← hdSize]
    exact h.apart c' hc' d' hd' hNe'
  mapped c hc x hLow hHigh := by
    obtain ⟨d, hd, hId, hSize⟩ := exists_of_extent hSame hc
    rw [← hId] at hLow hHigh
    rw [← hSize] at hHigh
    exact h.mapped d hd x hLow hHigh

/-- The page headers do not tell how a chunk is cut, so another cut of the same chunks has the
same headers. -/
theorem PageRep.of_extent (h : PageRep π s cs) (hSame : cs'.map Chunk.extent = cs.map Chunk.extent)
    (hShaped : ∀ c ∈ cs', c.Shaped) : PageRep π s cs' where
  layout := h.layout.of_extent hSame hShaped
  pageSize c hc := by
    obtain ⟨d, hd, hId, hSize⟩ := exists_of_extent hSame hc
    exact hId ▸ hSize ▸ h.pageSize d hd
  pageEnd c hc := by
    obtain ⟨d, hd, hId, hSize⟩ := exists_of_extent hSame hc
    exact hId ▸ hSize ▸ h.pageEnd d hd
  pageList := by
    have hMap : (cs'.map fun c => π c.id) = cs.map fun c => π c.id :=
      map_eq_of_extent (fun e => π e.1) hSame
    rw [hMap]
    exact h.pageList

/-- Nor do the pages that a chunk takes up depend on how it is cut. -/
theorem PagesOf.of_extent {page : PagePtr} (h : PagesOf π cs page)
    (hSame : cs'.map Chunk.extent = cs.map Chunk.extent) : PagesOf π cs' page := by
  obtain ⟨c, hc, x, hLow, hHigh, hPage⟩ := h
  obtain ⟨d, hd, hId, hSize⟩ := exists_of_extent hSame.symm hc
  rw [← hId] at hLow hHigh
  rw [← hSize] at hHigh
  exact ⟨d, hd, x, hLow, hHigh, hPage⟩

/-- The header and the footer of a block lie outside the link words of every
free block, its own included. -/
theorem Layout.tags_outside_links (h : Layout π os cs) {fr : List Loc}
    (hFree : ∀ l ∈ fr, FreeIn cs l) (hc : c ∈ cs) (hb : b ∈ c.blocks) {x : Nat}
    (hx : x ∈ span (π c.id + b.off) 16 ∪ span (π c.id + b.off + b.size - 16) 16) :
    x ∉ linkWords (fr.map (Loc.payload π)) := by
  rintro ⟨y, hy, hxy⟩
  obtain ⟨l, hl, rfl⟩ := List.mem_map.mp hy
  obtain ⟨d, hd, e, he, -, -, -, hAddr, -, heSize, -⟩ := h.payload (hFree l hl)
  have hbSize := (h.shaped c hc).bounds hb
  simp only [Set.mem_union, mem_span] at hx hxy
  by_cases hSame : c = d ∧ b = e
  · obtain ⟨rfl, rfl⟩ := hSame
    omega
  · have hApart := h.blocks_apart hc hd hb he hSame
    unfold Apart at hApart
    omega

theorem pageLinks_subset (π : Nat → Nat) {cs ds : List Chunk} (h : ds ⊆ cs) :
    linkWords (ds.map fun d => π d.id) ⊆ headerBytes π cs := by
  rintro a ⟨y, hy, ha⟩
  obtain ⟨d, hd, rfl⟩ := List.mem_map.mp hy
  rw [mem_span] at ha
  exact ⟨d, h hd, by omega, by omega⟩

/-- The size and the end in a page header are no page links. Relinking the page list does not
change them. -/
theorem Layout.fields_outside_links (h : Layout π os cs) {ds : List Chunk} (hSub : ds ⊆ cs)
    (hc : c ∈ cs) {x : Nat} (hLow : π c.id + 16 ≤ x) (hHigh : x < π c.id + 32) :
    x ∉ linkWords (ds.map fun d => π d.id) := by
  rintro ⟨y, hy, hxy⟩
  obtain ⟨d, hd, rfl⟩ := List.mem_map.mp hy
  rw [mem_span] at hxy
  by_cases hcd : c = d
  · subst hcd
    omega
  · have hApart := h.apart c hc d (hSub hd) hcd
    have := (h.shaped c hc).size_bounds
    have := (h.shaped d (hSub hd)).size_bounds
    unfold Apart at hApart
    omega

/-- Page headers lie outside the link words of every free block, so the two lists do not get
into each other's way. -/
theorem Layout.headers_outside_links (h : Layout π os cs) {fr : List Loc}
    (hFree : ∀ l ∈ fr, FreeIn cs l) {x : Nat} (hx : x ∈ headerBytes π cs) :
    x ∉ linkWords (fr.map (Loc.payload π)) := by
  rintro ⟨y, hy, hxy⟩
  obtain ⟨l, hl, rfl⟩ := List.mem_map.mp hy
  obtain ⟨d, hd, e, he, -, -, -, hAddr, -, heSize, -⟩ := h.payload (hFree l hl)
  obtain ⟨c, hc, hxc⟩ := hx
  have hApart := h.header_apart hd hc he
  unfold Apart at hApart
  rw [mem_span] at hxy hxc
  omega

/-- Page headers lie outside every part of a chunk that is cut into blocks, so tags may be
written there. -/
theorem Layout.headers_outside_run (h : Layout π os cs) (hc : c ∈ cs) {a n : Nat}
    (hLow : π c.id + 32 ≤ a) (hHigh : a + n ≤ π c.id + c.size) {x : Nat}
    (hx : x ∈ headerBytes π cs) : x ∉ span a n := by
  obtain ⟨d, hd, hxd⟩ := hx
  have hSize := (h.shaped d hd).size_bounds
  rw [mem_span] at hxd ⊢
  by_cases hcd : c = d
  · subst hcd
    omega
  · have hApart := h.apart c hc d hd hcd
    unfold Apart at hApart
    omega

/-- The links of the other free blocks lie outside a block. What is written to it leaves them
alone. -/
theorem Layout.links_outside_block (h : Layout π os cs) {fr : List Loc}
    (hFree : ∀ l ∈ fr, FreeIn cs l) (hc : c ∈ cs) (hb : b ∈ c.blocks) (hNot : ⟨c.id, b.off⟩ ∉ fr)
    {x : Nat} (hx : x ∈ linkWords (fr.map (Loc.payload π))) :
    x ∉ span (π c.id + b.off) b.size := by
  obtain ⟨y, hy, hxy⟩ := hx
  obtain ⟨l, hl, rfl⟩ := List.mem_map.mp hy
  obtain ⟨d, hd, e, he, hId, hOff, -, hAddr, -, heSize, -⟩ := h.payload (hFree l hl)
  have hNe : ¬(c = d ∧ b = e) := by
    rintro ⟨rfl, rfl⟩
    rw [hId, hOff] at hNot
    exact hNot hl
  have hApart := h.blocks_apart hc hd hb he hNe
  unfold Apart at hApart
  rw [mem_span] at hxy ⊢
  omega

/-- Writes among the blocks of a chunk keep the page headers, and with them the page list and
the ends of the chunks. -/
theorem PageRep.write_run (h : PageRep π s cs) (hc : c ∈ cs) {a n : Nat} {m : Bytes}
    (hLow : π c.id + 32 ≤ a) (hHigh : a + n ≤ π c.id + c.size)
    (hAgree : AgreeOff (span a n) s.mem m) : PageRep π { s with mem := m } cs :=
  h.congr rfl rfl fun x hx => hAgree x (h.layout.headers_outside_run hc hLow hHigh hx)

/-- Link words may be written when the free list comes out as a list of free
blocks again. -/
theorem ListsRep.relink {fr fr' gr : List Loc} {m : Bytes} {head : Nat} (h : ListsRep π s cs fr)
    (hWritten : ∀ l ∈ gr, FreeIn cs l)
    (hAgree : AgreeOff (linkWords (gr.map (Loc.payload π))) s.mem m)
    (hList : ListRep m head (fr'.map (Loc.payload π))) (hLocs : ∀ l ∈ fr', FreeIn cs l) :
    ListsRep π { s with mem := m, freeListHead := head } cs fr' := by
  have hHeaders : ∀ a ∈ headerBytes π cs, m a = s.mem a := fun a ha =>
    hAgree a (h.layout.headers_outside_links hWritten ha)
  exact ⟨h.toPageRep.congr rfl rfl hHeaders, hList, hLocs⟩

/-- The free list may be linked anew through blocks that are free: their payloads are nobody's,
so that all else in memory stays as it is. -/
theorem Rep.relink {fr fr' gr : List Loc} {m : Bytes} {head : Nat} (h : Rep π s cs fr)
    (hWritten : ∀ l ∈ gr, FreeIn cs l)
    (hAgree : AgreeOff (linkWords (gr.map (Loc.payload π))) s.mem m)
    (hList : ListRep m head (fr'.map (Loc.payload π))) (hLocs : ∀ l ∈ fr', FreeIn cs l) :
    Rep π { s with mem := m, freeListHead := head } cs fr' := by
  obtain ⟨pages, hLib, hPages⟩ := h.lib
  refine ⟨h.toListsRep.relink hWritten hAgree hList hLocs, ?_, pages,
    ⟨hLib.table, hLib.count, hLib.backed⟩, hPages⟩
  intro c hc b hb
  exact (h.tags c hc b hb).congr fun x hx =>
    hAgree x (h.layout.tags_outside_links hWritten hc hb hx)

variable {left mid mid' right : List Block} {start stop head : Nat} {m : Bytes} {fr fr' : List Loc}
  {f : List Block → List Block}

/-- The blocks outside a part of a chunk keep their tags when only that part and
link words were written. -/
theorem Rep.tags_outside_run (h : Rep π s cs fr) (hc : c ∈ cs)
    (hAgree : AgreeOff (linkWords (fr.map (Loc.payload π)) ∪
      span (π c.id + start) (stop - start)) s.mem m) (hMid : start ≤ stop) (hStop : stop ≤ c.size)
    {d : Chunk} (hd : d ∈ cs) {b : Block} (hb : b ∈ d.blocks)
    (hOut : d = c → b.stop ≤ start ∨ stop ≤ b.off) : Tags m (π d.id + b.off) b := by
  have hBounds := (h.layout.shaped d hd).bounds hb
  refine (h.tags d hd b hb).congr fun x hx => hAgree x ?_
  rintro (hLink | hRun)
  · exact h.layout.tags_outside_links h.freeLocs hd hb hx hLink
  · simp only [Set.mem_union, mem_span] at hx hRun
    by_cases hdc : d = c
    · have := hOut hdc
      subst hdc
      unfold Segment.stop at this
      omega
    · have hApart := h.layout.apart d hd c hc hdc
      unfold Apart at hApart
      omega

/-- The part of a chunk between `start` and `stop` may be cut anew: the other
blocks keep their tags when only that part and link words were written. -/
theorem Rep.recut (h : Rep π s cs fr) (hc : c ∈ cs) (hBlocks : c.blocks = left ++ mid ++ right)
    (hf : f c.blocks = left ++ mid' ++ right) (hLeft : Tiles firstOff start left)
    (hMid' : Tiles start stop mid') (hRight : Tiles stop c.size right)
    (hSizes : ∀ b ∈ mid', b.size % 16 = 0 ∧ 48 ≤ b.size) (hNonempty : mid' ≠ [])
    (hAgree : AgreeOff (linkWords (fr.map (Loc.payload π)) ∪
      span (π c.id + start) (stop - start)) s.mem m)
    (hTags : ∀ b ∈ mid', Tags m (π c.id + b.off) b)
    (hList : ListRep m head (fr'.map (Loc.payload π)))
    (hLocs : ∀ l ∈ fr', FreeIn (updateChunk cs c.id f) l) :
    Rep π { s with mem := m, freeListHead := head } (updateChunk cs c.id f) fr' := by
  have hSame := map_extent_updateChunk cs c.id f
  have hIds := h.layout.ids
  have hStart := hLeft.le
  have hMidLe := hMid'.le
  have hStop := hRight.le
  rw [firstOff] at hStart
  have hShaped : ∀ d ∈ updateChunk cs c.id f, d.Shaped := by
    intro d hd
    rcases (mem_updateChunk hIds hc).mp hd with rfl | ⟨hd, -⟩
    · refine (h.layout.shaped c hc).recut hBlocks hf ?_ hSizes hNonempty
      rw [hf]
      exact Tiles.append.mpr ⟨stop, Tiles.append.mpr ⟨start, hLeft, hMid'⟩, hRight⟩
    · exact h.layout.shaped d hd
  have hHeaders : ∀ a ∈ headerBytes π cs, m a = s.mem a := by
    intro a ha
    apply hAgree a
    rintro (hLink | hRun)
    · exact h.layout.headers_outside_links h.freeLocs ha hLink
    · exact h.layout.headers_outside_run hc (by omega) (by omega) ha hRun
  -- The tags outside the run are outside everything that was written.
  have hKeep : ∀ d ∈ cs, ∀ b ∈ d.blocks, (d = c → b.stop ≤ start ∨ stop ≤ b.off) →
      Tags m (π d.id + b.off) b := fun d hd b hb hOut =>
    h.tags_outside_run hc hAgree hMidLe hStop hd hb hOut
  have hNewTags : ∀ d ∈ updateChunk cs c.id f, ∀ b ∈ d.blocks, Tags m (π d.id + b.off) b := by
    intro d hd b hb
    rcases (mem_updateChunk hIds hc).mp hd with rfl | ⟨hd, hNe⟩
    · replace hb : b ∈ left ++ mid' ++ right := hf ▸ hb
      simp only [List.append_assoc, List.mem_append] at hb
      rcases hb with hIn | hIn | hIn
      · exact hKeep c hc b (by simp [hBlocks, hIn]) fun _ => Or.inl (hLeft.bounds hIn).2.2
      · exact hTags b hIn
      · exact hKeep c hc b (by simp [hBlocks, hIn]) fun _ => Or.inr (hRight.bounds hIn).1
    · exact hKeep d hd b hb fun hEq => absurd (congrArg Chunk.id hEq) hNe
  obtain ⟨pages, hLib, hPages⟩ := h.lib
  have hPage := h.toPageRep.congr (t := { s with mem := m, freeListHead := head }) rfl rfl hHeaders
  refine ⟨⟨hPage.of_extent hSame hShaped, hList, hLocs⟩, hNewTags, pages,
    ⟨hLib.table, hLib.count, hLib.backed⟩, fun page => (hPages page).trans ?_⟩
  exact ⟨fun hIn => hIn.of_extent hSame, fun hIn => hIn.of_extent hSame.symm⟩

end Update

section Payload

variable {π : Nat → Nat} {os : OS} {cs : List Chunk} {c d : Chunk} {b : Block} {fr : List Loc}
  {k : Loc} {x : Nat}

/-- From `s` to `t` the payloads of the used blocks keep their contents, that
of the block at `l` excepted. -/
def KeepsPayloads (π : Nat → Nat) (cs : List Chunk) (l : Option Loc) (s t : Process) : Prop :=
  ∀ k b, UsedAt cs k b → some k ≠ l →
    ∀ x ∈ span (k.payload π) (b.size - 32), t.mem x = s.mem x

/-- The payload of a used block lies in the block, past its header. The bytes that were asked
for come before the footer. -/
theorem Layout.payload_bounds (h : Layout π os cs) (hUsed : UsedAt cs k b) :
    ∃ d ∈ cs, b ∈ d.blocks ∧ k = ⟨d.id, b.off⟩ ∧ k.payload π = π d.id + b.off + 16 ∧
      32 ≤ b.off ∧ 48 ≤ b.size ∧ b.off + b.size ≤ d.size := by
  obtain ⟨-, hOff, d, hd, hId, hb⟩ := hUsed
  obtain rfl : k = ⟨d.id, b.off⟩ := by rw [hId, hOff]
  exact ⟨d, hd, hb, rfl, rfl, (h.shaped d hd).bounds hb⟩

/-- No free block lies where a used one does. The free list therefore holds no payload of a
client. -/
theorem UsedAt.not_freeIn (h : Layout π os cs) (hUsed : UsedAt cs k b) : ¬FreeIn cs k := by
  obtain ⟨hbUsed, hOff, d, hd, hId, hb⟩ := hUsed
  rintro ⟨e, he, heId, a, ha, haOff, haFree⟩
  obtain rfl := h.eq_of_id he hd (heId.trans hId.symm)
  obtain rfl := (h.shaped e he).tiled.eq_of_off ha hb (haOff.trans hOff.symm)
  rw [hbUsed] at haFree
  cases haFree

/-- The payload of a used block lies outside the links of the free blocks and
outside the page headers. -/
theorem Layout.payload_outside (h : Layout π os cs) (hFree : ∀ l ∈ fr, FreeIn cs l)
    (hUsed : UsedAt cs k b) (hx : x ∈ span (k.payload π) (b.size - 32)) :
    x ∉ linkWords (fr.map (Loc.payload π)) ∪ headerBytes π cs := by
  have hNot := hUsed.not_freeIn h
  obtain ⟨d, hd, hb, rfl, hAddr, hBounds⟩ := h.payload_bounds hUsed
  rw [hAddr, mem_span] at hx
  rintro (hLink | ⟨e, he, hxe⟩)
  · refine h.links_outside_block hFree hd hb (fun hIn => hNot (hFree _ hIn)) hLink ?_
    rw [mem_span]
    omega
  · have hApart := h.header_apart hd he hb
    rw [mem_span] at hxe
    unfold Apart at hApart
    omega

/-- The payload of a used block lies outside every run without that block, whichever chunk the
run is in. -/
theorem Layout.payload_outside_run {left mid right : List Block} {start stop : Nat}
    (h : Layout π os cs) (hUsed : UsedAt cs k b) (hc : c ∈ cs)
    (hBlocks : c.blocks = left ++ mid ++ right) (hLeft : Tiles firstOff start left)
    (hRight : Tiles stop c.size right) (hOut : k.chunk = c.id → b ∉ mid)
    (hx : x ∈ span (k.payload π) (b.size - 32)) :
    x ∉ span (π c.id + start) (stop - start) := by
  obtain ⟨d, hd, hb, rfl, hAddr, hBounds⟩ := h.payload_bounds hUsed
  have hStopLe := hRight.le
  rw [hAddr, mem_span] at hx
  rw [mem_span]
  by_cases hdc : d = c
  · subst hdc
    rw [hBlocks] at hb
    have hNot := hOut rfl
    simp only [List.append_assoc, List.mem_append] at hb
    rcases hb with hIn | hIn | hIn
    · have := (hLeft.bounds hIn).2.2
      unfold Segment.stop at this
      omega
    · exact absurd hIn hNot
    · have := (hRight.bounds hIn).1
      omega
  · have hApart := h.apart d hd c hc hdc
    unfold Apart at hApart
    omega

/-- A byte of the payload of a used block may be written. It is no part of a tag, of a page
header or of a link of a free block. -/
theorem Rep.store {s : Process} {cs : List Chunk} {fr : List Loc} (h : Rep π s cs fr)
    (hUsed : UsedAt cs k b) (hx : x ∈ span (k.payload π) (b.size - 32)) (v : UInt8) :
    Rep π { s with mem := Function.update s.mem x v } cs fr := by
  have hOut := h.layout.payload_outside h.freeLocs hUsed hx
  have hAgree : ∀ a, a ≠ x → Function.update s.mem x v a = s.mem a := fun a ha =>
    Function.update_of_ne ha v s.mem
  obtain ⟨d, hd, hb, rfl, hAddr, hBounds⟩ := h.layout.payload_bounds hUsed
  rw [hAddr, mem_span] at hx
  obtain ⟨pages, hLib, hPages⟩ := h.lib
  refine ⟨⟨h.toPageRep.congr rfl rfl ?_, h.freeList.congr ?_, h.freeLocs⟩, ?_, pages,
    ⟨hLib.table, hLib.count, hLib.backed⟩, hPages⟩
  · rintro a ha
    exact hAgree a (by rintro rfl; exact hOut (Or.inr ha))
  · rintro a ha
    exact hAgree a (by rintro rfl; exact hOut (Or.inl ha))
  · intro c hc e he
    refine (h.tags c hc e he).congr fun a ha => hAgree a ?_
    rintro rfl
    have heBounds := (h.layout.shaped c hc).bounds he
    simp only [Set.mem_union, mem_span] at ha
    by_cases hSame : c = d ∧ e = b
    · obtain ⟨rfl, rfl⟩ := hSame
      omega
    · have hApart := h.layout.blocks_apart hc hd he hb hSame
      unfold Apart at hApart
      omega

end Payload

end Malloc
