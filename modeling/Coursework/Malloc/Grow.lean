import Coursework.Malloc.Split

/-! A new chunk: the region that `mem_map` returned gets a page header and one
free block. -/

namespace Malloc

open Tiling Bytes DoublyLinked

section Extend

variable {π π' : Nat → Nat} {s t : Process} {os os' : OS} {cs : List Chunk} {c : Chunk}
  {fr : List Loc}

/-- The layout depends on the addresses of the chunks that it has, and more may
be mapped. -/
theorem Layout.extend (h : Layout π os cs) (hπ : ∀ c ∈ cs, π' c.id = π c.id)
    (hOs : ∀ q, os.mapped q = true → os'.mapped q = true) : Layout π' os' cs where
  shaped := h.shaped
  ids := h.ids
  aligned c hc := hπ c hc ▸ h.aligned c hc
  nonzero c hc := hπ c hc ▸ h.nonzero c hc
  inside c hc := hπ c hc ▸ h.inside c hc
  apart c hc d hd hNe := by
    rw [hπ c hc, hπ d hd]
    exact h.apart c hc d hd hNe
  mapped c hc x hLow hHigh := by
    rw [hπ c hc] at hLow hHigh
    exact hOs _ (h.mapped c hc x hLow hHigh)

/-- A new region has a base of its own and leaves the others', so the free list names the same
addresses. -/
theorem map_payload (hFree : ∀ l ∈ fr, FreeIn cs l)
    (hπ : ∀ c ∈ cs, π' c.id = π c.id) :
    fr.map (Loc.payload π') = fr.map (Loc.payload π) := by
  refine List.map_congr_left fun l hl => ?_
  obtain ⟨c, hc, hId, -⟩ := hFree l hl
  rw [Loc.payload, Loc.payload, ← hId, hπ c hc]

/-- What a process holds stays when only memory outside the chunks changes, as it does when a
region is mapped. -/
theorem Rep.extend (h : Rep π s cs fr) (hπ : ∀ c ∈ cs, π' c.id = π c.id)
    (hMem : ∀ c ∈ cs, ∀ x, π c.id ≤ x → x < π c.id + c.size → t.mem x = s.mem x)
    (hOs : ∀ q, s.os.mapped q = true → t.os.mapped q = true)
    (hPages : t.pageListHead = s.pageListHead) (hHead : t.freeListHead = s.freeListHead) :
    ListsRep π' t cs fr ∧ ∀ c ∈ cs, ∀ b ∈ c.blocks, Tags t.mem (π' c.id + b.off) b := by
  have hRead : ∀ c ∈ cs, ∀ a n, π c.id ≤ a → a + n ≤ π c.id + c.size →
      t.mem.read a n = s.mem.read a n := fun c hc a n hLow hHigh =>
    read_congr fun x hx hx' => hMem c hc x (by omega) (by omega)
  refine ⟨⟨⟨h.layout.extend hπ hOs, ?_, ?_, ?_⟩, ?_, h.freeLocs⟩, ?_⟩
  · intro c hc
    have := (h.layout.shaped c hc).size_bounds
    rw [hπ c hc, hRead c hc _ _ (by omega) (by omega), h.pageSize c hc]
  · intro c hc
    have := (h.layout.shaped c hc).size_bounds
    rw [hπ c hc, hRead c hc _ _ (by omega) (by omega), h.pageEnd c hc]
  · have hBases : (cs.map fun c => π' c.id) = cs.map fun c => π c.id :=
      List.map_congr_left hπ
    rw [hBases, hPages]
    apply h.pageList.congr
    rintro a ⟨x, hx, ha⟩
    obtain ⟨c, hc, rfl⟩ := List.mem_map.mp hx
    have := (h.layout.shaped c hc).size_bounds
    rw [mem_span] at ha
    exact hMem c hc a (by omega) (by omega)
  · rw [map_payload h.freeLocs hπ, hHead]
    apply h.freeList.congr
    rintro a ⟨x, hx, ha⟩
    obtain ⟨l, hl, rfl⟩ := List.mem_map.mp hx
    obtain ⟨c, hc, b, hb, -, -, -, hAddr, hLow, hSize, hHigh⟩ := h.layout.payload (h.freeLocs l hl)
    rw [mem_span] at ha
    exact hMem c hc a (by omega) (by omega)
  · intro c hc b hb
    have hBounds := (h.layout.shaped c hc).bounds hb
    rw [hπ c hc]
    refine (h.tags c hc b hb).congr fun x hx => ?_
    simp only [Set.mem_union, mem_span] at hx
    exact hMem c hc x (by omega) (by omega)

end Extend

section Insert

variable {s : Process} {xs : List Nat} {region mapsize : Nat}

/-- The memory after `insertPageChunk`. -/
def pageChunkMem (m : Bytes) (head region mapsize : Nat) : Bytes :=
  storeUnlessNull ((((m.write region 8 0).write (region + 8) 8 head).write (region + 16) 8
    mapsize).write (region + 24) 8 (region + mapsize)) head head region

/-- The header of a new region is written and linked in front of the page list, with no access
outside of the region and of the old head. -/
theorem insertPageChunk_ok (hList : ListRep s.mem s.pageListHead xs)
    (hMapped : NodesMapped s.os xs)
    (hRegion : ∀ a, region ≤ a → a + 8 ≤ region + mapsize → s.os.accessible a 8 = true)
    (hRoom : 32 ≤ mapsize) (hInside : region + mapsize < 2 ^ 64) :
    insertPageChunk region mapsize s = .ok ((), { s with
      mem := pageChunkMem s.mem s.pageListHead region mapsize, pageListHead := region }) := by
  have hHeadIn : s.pageListHead ≠ 0 → s.pageListHead ∈ xs :=
    (List.mem_cons.mp hList.head_mem).resolve_left
  have h₀ := hRegion region (by omega) (by omega)
  have h₁ := hRegion (region + 8) (by omega) (by omega)
  have h₂ := hRegion (region + 16) (by omega) (by omega)
  have h₃ := hRegion (region + 24) (by omega) (by omega)
  rw [insertPageChunk, prevChunk_eq, nextChunk, pageSizeField, pageEndField,
    add64_eq (by omega : region + 8 < 2 ^ 64), add64_eq (by omega : region + 16 < 2 ^ 64),
    add64_eq (by omega : region + 24 < 2 ^ 64), add64_eq hInside]
  unfold pageChunkMem storeUnlessNull
  by_cases hHead : s.pageListHead = 0
  · simp only [hHead, ne_eq, not_true_eq_false, if_false, Program.bind_apply, Program.read_apply,
      Program.modify_apply, store64_at h₀, store64_at h₁, store64_at h₂, store64_at h₃]
  · have hh := (hMapped _ (hHeadIn hHead)).1
    simp only [hHead, ne_eq, not_false_eq_true, if_true, Program.bind_apply, Program.read_apply,
      Program.modify_apply, prevChunk_eq, store64_at h₀, store64_at h₁, store64_at h₂,
      store64_at h₃, store64_at hh]

/-- Of the page header only the two links belong to the list. The size and the end are written
besides them. -/
theorem pageChunkMem_agreeOff (m : Bytes) (head region mapsize : Nat) :
    AgreeOff (span (region + 16) 16) (linkMem m head region)
      (pageChunkMem m head region mapsize) := by
  have hInner : AgreeOff (span (region + 16) 16) ((m.write region 8 0).write (region + 8) 8 head)
      ((((m.write region 8 0).write (region + 8) 8 head).write (region + 16) 8 mapsize).write
        (region + 24) 8 (region + mapsize)) := by
    refine ((AgreeOff.refl _ _).write (span_subset ?_ ?_)).write (span_subset ?_ ?_) <;> omega
  unfold pageChunkMem linkMem storeUnlessNull
  split
  · intro x hx
    simp only [write]
    split
    · rfl
    · exact hInner x hx
  · exact hInner

/-- The size field that was written is read back, since the link to the old head is
elsewhere. -/
theorem pageChunkMem_pageSize {m : Bytes} {head : Nat} (hApart : head ≠ 0 → Apart region 32 head 16)
    (hSize : mapsize < 2 ^ 64) :
    (pageChunkMem m head region mapsize).read (region + 16) 8 = mapsize := by
  rw [pageChunkMem, read_storeUnlessNull fun hHead => ?_, read_write_apart (Or.inl (by omega)),
    read_write_word _ hSize]
  have := hApart hHead
  unfold Apart at this ⊢
  omega

theorem pageChunkMem_pageEnd {m : Bytes} {head : Nat} (hApart : head ≠ 0 → Apart region 32 head 16)
    (hEnd : region + mapsize < 2 ^ 64) :
    (pageChunkMem m head region mapsize).read (region + 24) 8 = region + mapsize := by
  rw [pageChunkMem, read_storeUnlessNull fun hHead => ?_, read_write_word _ hEnd]
  have := hApart hHead
  unfold Apart at this ⊢
  omega

end Insert

section Chunk

variable {π : Nat → Nat} {s : Process} {os : OS} {cs : List Chunk} {fr : List Loc} {id sz : Nat}

/-- A chunk with one free block. -/
def freshChunk (id sz : Nat) : Chunk := ⟨id, sz, [wholeBlock sz]⟩

theorem freshChunk_shaped (hPaged : sz % 4096 = 0) (hPos : 0 < sz) : (freshChunk id sz).Shaped := by
  have hWhole : (wholeBlock sz).size = sz - 32 := rfl
  refine ⟨⟨rfl, by omega, ?_⟩, ?_, hPaged, by simp [freshChunk]⟩
  · show 32 + (sz - 32) = sz
    omega
  · intro b hb
    rw [List.mem_singleton.mp hb]
    omega

/-- A mapped region apart from the chunks `cs` that is to become the chunk `id`. -/
structure NewRegion (π : Nat → Nat) (os : OS) (cs : List Chunk) (id sz : Nat) : Prop where
  aligned : π id % apageSize = 0
  nonzero : 0 < π id
  inside : π id + sz < 2 ^ 64
  paged : sz % 4096 = 0
  nonempty : 0 < sz
  mapped : ∀ x, π id ≤ x → x < π id + sz → os.mapped (x / apageSize) = true
  apart : ∀ c ∈ cs, Apart (π c.id) c.size (π id) sz
  fresh : id ∉ cs.map Chunk.id

/-- What `mmap` returned lies apart from every chunk: a common address would have
been mapped before. -/
theorem MapsRegion.newRegion {π' : Nat → Nat} {t : Process} {p : Nat} (h : MapsRegion s p sz t)
    (hLayout : Layout π s.os cs) (hPaged : sz % 4096 = 0) (hFresh : id ∉ cs.map Chunk.id)
    (hNew : π' id = p) (hOld : ∀ c ∈ cs, π' c.id = π c.id) : NewRegion π' t.os cs id sz := by
  subst hNew
  refine ⟨h.aligned, h.nonzero, h.inside, hPaged, h.nonempty, h.mapped, fun c hc => ?_, hFresh⟩
  by_contra hOverlap
  have hSize := (hLayout.shaped c hc).size_bounds
  have hNonempty := h.nonempty
  rw [hOld c hc] at hOverlap
  unfold Apart at hOverlap
  have hBoth := h.fresh (max (π c.id) (π' id)) (by omega) (by omega)
  rw [hLayout.mapped c hc _ (by omega) (by omega)] at hBoth
  cases hBoth

/-- The pages of the chunks after a region was added: those of the others, and its own. -/
theorem pagesOf_cons {p : Nat} {page : PagePtr} (hNew : π' id = p)
    (hOld : ∀ c ∈ cs, π' c.id = π c.id) : PagesOf π' (freshChunk id sz :: cs) page ↔
      PagesOf π cs page ∨ ∃ x, p ≤ x ∧ x < p + sz ∧ page = pageOf x := by
  subst hNew
  constructor
  · rintro ⟨c, hc, x, hLow, hHigh, rfl⟩
    rcases List.mem_cons.mp hc with rfl | hc
    · exact Or.inr ⟨x, hLow, hHigh, rfl⟩
    · rw [hOld c hc] at hLow hHigh
      exact Or.inl ⟨c, hc, x, hLow, hHigh, rfl⟩
  · rintro (⟨c, hc, x, hLow, hHigh, rfl⟩ | ⟨x, hLow, hHigh, rfl⟩)
    · rw [← hOld c hc] at hLow hHigh
      exact ⟨c, List.mem_cons_of_mem _ hc, x, hLow, hHigh, rfl⟩
    · exact ⟨_, List.mem_cons_self, x, hLow, hHigh, rfl⟩

/-- A region that the kernel has found free joins the chunks, apart from all of them. -/
theorem Layout.cons (h : Layout π os cs) (hRegion : NewRegion π os cs id sz) :
    Layout π os (freshChunk id sz :: cs) where
  shaped := List.forall_mem_cons.mpr ⟨freshChunk_shaped hRegion.paged hRegion.nonempty, h.shaped⟩
  ids := List.nodup_cons.mpr ⟨hRegion.fresh, h.ids⟩
  aligned := List.forall_mem_cons.mpr ⟨hRegion.aligned, h.aligned⟩
  nonzero := List.forall_mem_cons.mpr ⟨hRegion.nonzero, h.nonzero⟩
  inside := List.forall_mem_cons.mpr ⟨hRegion.inside, h.inside⟩
  apart c hc d hd hNe := by
    rcases List.mem_cons.mp hc with rfl | hc <;> rcases List.mem_cons.mp hd with rfl | hd
    · exact absurd rfl hNe
    · exact (hRegion.apart d hd).symm
    · exact hRegion.apart c hc
    · exact h.apart c hc d hd hNe
  mapped := List.forall_mem_cons.mpr ⟨hRegion.mapped, h.mapped⟩

/-- The new region overlaps no page header, since it was not mapped before and they were. -/
theorem NewRegion.base_apart (h : NewRegion π os cs id sz) (hLayout : Layout π os cs) {x : Nat}
    (hx : x ∈ cs.map fun c => π c.id) : Apart (π id) sz x 32 := by
  obtain ⟨c, hc, rfl⟩ := List.mem_map.mp hx
  have hApart := h.apart c hc
  have := (hLayout.shaped c hc).size_bounds
  unfold Apart at hApart ⊢
  omega

/-- The page header is written and the page list extended, with the new chunk in front. -/
theorem insertPageChunk_rep (h : ListsRep π s cs fr) (hRegion : NewRegion π s.os cs id sz) :
    ∃ m, insertPageChunk (π id) sz s =
        .ok ((), { s with mem := m, pageListHead := π id }) ∧
      PageRep π { s with mem := m, pageListHead := π id } (freshChunk id sz :: cs) ∧
      AgreeOff (linkWords (cs.map fun c => π c.id) ∪ span (π id) 32) s.mem m := by
  have hInside := hRegion.inside
  have hPaged := hRegion.paged
  have hPos := hRegion.nonempty
  have hLayout := h.layout.cons hRegion
  have hSpaced : Spaced (π id :: cs.map fun c => π c.id) := hLayout.spaced_chunks
  have hAccess : ∀ a, π id ≤ a → a + 8 ≤ π id + sz → s.os.accessible a 8 = true :=
    fun a hLow hHigh => hLayout.accessible List.mem_cons_self hLow (by omega) hHigh
  have hApart : ∀ x ∈ cs.map fun c => π c.id, Apart (π id) sz x 32 := fun _ hx =>
    hRegion.base_apart h.layout hx
  have hBaseNew : π id ∉ cs.map fun c => π c.id := by
    intro hIn
    have := hApart _ hIn
    unfold Apart at this
    omega
  have hHeadApart : s.pageListHead ≠ 0 → Apart (π id) 32 s.pageListHead 16 := by
    intro hHead
    have := hApart _ ((List.mem_cons.mp h.pageList.head_mem).resolve_left hHead)
    unfold Apart at this ⊢
    omega
  have hRun := insertPageChunk_ok h.pageList h.layout.nodesMapped_chunks hAccess (by omega) hInside
  have hFields := pageChunkMem_agreeOff s.mem s.pageListHead (π id) sz
  have hList : ListRep (pageChunkMem s.mem s.pageListHead (π id) sz) (π id)
      (π id :: cs.map fun c => π c.id) := by
    apply (h.pageList.link hSpaced (Nat.ne_of_gt hRegion.nonzero) hBaseNew).agreeOff hFields
    rintro a ⟨x, hx, ha⟩ hIn
    rw [mem_span] at ha hIn
    rcases List.mem_cons.mp hx with rfl | hx
    · omega
    · have := hApart x hx
      unfold Apart at this
      omega
  have hAgree : AgreeOff (linkWords (cs.map fun c => π c.id) ∪ span (π id) 32) s.mem
      (pageChunkMem s.mem s.pageListHead (π id) sz) := by
    refine ((h.pageList.link_agreeOff (π id)).mono ?_).trans (hFields.mono fun a ha => ?_)
    · exact linkWords_cons_subset (List.Subset.refl _) (Nat.le_refl _) (by omega)
    · rw [mem_span] at ha
      exact Or.inr ⟨by omega, by omega⟩
  have hSizeField := pageChunkMem_pageSize (m := s.mem) hHeadApart (by omega : sz < 2 ^ 64)
  have hEndField := pageChunkMem_pageEnd (m := s.mem) hHeadApart hInside
  generalize pageChunkMem s.mem s.pageListHead (π id) sz = m at *
  -- The other page headers keep their size and end: only links are written there.
  have hField : ∀ c ∈ cs, ∀ a, π c.id + 16 ≤ a → a + 8 ≤ π c.id + 32 →
      m.read a 8 = s.mem.read a 8 := by
    intro c hc a hLow hHigh
    refine hAgree.read fun x hxLow hxHigh => ?_
    rintro (hLink | hSpan)
    · exact h.layout.fields_outside_links (List.Subset.refl cs) hc (by omega) (by omega) hLink
    · have := hApart _ (List.mem_map_of_mem hc)
      rw [mem_span] at hSpan
      unfold Apart at this
      omega
  refine ⟨m, hRun, ⟨hLayout, ?_, ?_, hList⟩, hAgree⟩
  · refine List.forall_mem_cons.mpr ⟨hSizeField, fun c hc => ?_⟩
    rw [hField c hc _ (by omega) (by omega), h.pageSize c hc]
  · refine List.forall_mem_cons.mpr ⟨hEndField, fun c hc => ?_⟩
    rw [hField c hc _ (by omega) (by omega), h.pageEnd c hc]

/-- The bytes of the chunks but for the page headers stay, and so do the tags
and the free blocks. -/
theorem ListsRep.tags_cons (h : ListsRep π s cs fr)
    (hTags : ∀ c ∈ cs, ∀ b ∈ c.blocks, Tags s.mem (π c.id + b.off) b)
    (hRegion : NewRegion π s.os cs id sz) {m : Bytes}
    (hAgree : AgreeOff (headerBytes π cs ∪ span (π id) sz) s.mem m) :
    ListRep m s.freeListHead (fr.map (Loc.payload π)) ∧
      ∀ c ∈ cs, ∀ b ∈ c.blocks, Tags m (π c.id + b.off) b := by
  constructor
  · apply h.freeList.agreeOff hAgree
    rintro a ha (hHeader | hSpan)
    · exact h.layout.headers_outside_links h.freeLocs hHeader ha
    · obtain ⟨x, hx, hax⟩ := ha
      obtain ⟨l, hl, rfl⟩ := List.mem_map.mp hx
      obtain ⟨c, hc, b, hb, -, -, -, hAddr, hLow, hSize, hHigh⟩ :=
        h.layout.payload (h.freeLocs l hl)
      have hApart := hRegion.apart c hc
      rw [mem_span] at hax hSpan
      unfold Apart at hApart
      omega
  · intro c hc b hb
    have hBounds := (h.layout.shaped c hc).bounds hb
    refine (hTags c hc b hb).congr fun x hx => hAgree x ?_
    simp only [Set.mem_union, mem_span] at hx
    rintro (⟨d, hd, hxd⟩ | hSpan)
    · have hApart := h.layout.header_apart hc hd hb
      rw [mem_span] at hxd
      unfold Apart at hApart
      omega
    · have hApart := hRegion.apart c hc
      rw [mem_span] at hSpan
      unfold Apart at hApart
      omega

/-- The new region becomes a chunk with one free block, which is in no list. The split that
follows makes its first part the answer. -/
theorem freshChunk_ok {w : Nat} (hw : Covers w (cs.length + 1)) (h : ListsRep π s cs fr)
    (hTags : ∀ c ∈ cs, ∀ b ∈ c.blocks, Tags s.mem (π c.id + b.off) b)
    (hRegion : NewRegion π s.os cs id sz)
    (hLib : ∃ pages, MemLibRep s pages ∧
      ∀ page, page ∈ pages ↔ PagesOf π (freshChunk id sz :: cs) page) :
    ∃ u₁ u₂ u₃ m, insertPageChunk (π id) sz s = .ok ((), u₁) ∧
      store64 (headerSizeField (π id + 32)) (sz - 32) u₁ = .ok ((), u₂) ∧
      setFree (π id + 32) u₂ = .ok ((), u₃) ∧
      writeFooterWithin w (π id + 32) u₃ = .ok ((), { s with mem := m, pageListHead := π id }) ∧
      Rep π { s with mem := m, pageListHead := π id } (freshChunk id sz :: cs) fr ∧
      AgreeOff (headerBytes π cs ∪ span (π id) sz) s.mem m := by
  have hInside := hRegion.inside
  have hPaged := hRegion.paged
  have hPos := hRegion.nonempty
  have hWhole : (wholeBlock sz).size = sz - 32 := rfl
  have hNew : freshChunk id sz ∈ freshChunk id sz :: cs := List.mem_cons_self
  obtain ⟨m₁, hInsert, hPage, hAgree₁⟩ := insertPageChunk_rep h hRegion
  have hSizeId : π (freshChunk id sz).id + (freshChunk id sz).size = π id + sz := rfl
  have hBase : π (freshChunk id sz).id = π id := rfl
  obtain ⟨hSize, hFlag, hFooter⟩ := hPage.tag hw hNew 0 (a := π id + 32) (n := sz - 32)
    (by omega) (by omega) (by omega)
  have hTagAgree := tagMem_agreeOff m₁ (π id + 32) 0 (by omega : 32 ≤ sz - 32)
  have hNewTags : Tags (tagMem m₁ (π id + 32) (sz - 32) 0) (π id + 32) (wholeBlock sz) :=
    tags_tagMem (b := wholeBlock sz) (by omega) (by omega)
  generalize tagMem m₁ (π id + 32) (sz - 32) 0 = m at hFooter hTagAgree hNewTags
  have hAgree : AgreeOff (headerBytes π cs ∪ span (π id) sz) s.mem m := by
    have hHeader : span (π id) 32 ⊆ span (π id) sz := span_subset (Nat.le_refl _) (by omega)
    have hBlock : span (π id + 32) (sz - 32) ⊆ span (π id) sz :=
      span_subset (by omega) (by omega)
    exact AgreeOff.trans
      (hAgree₁.mono (Set.union_subset_union (pageLinks_subset π (List.Subset.refl cs)) hHeader))
      (hTagAgree.mono fun x hx => Or.inr (hBlock hx))
  obtain ⟨hFreeList, hOldTags⟩ := h.tags_cons hTags hRegion hAgree
  have hFinal := hPage.write_run hNew (by omega) (by omega) hTagAgree
  obtain ⟨pages, hMemLib, hPages⟩ := hLib
  refine ⟨_, _, _, m, hInsert, hSize, hFlag, hFooter, ⟨⟨hFinal, hFreeList, fun l hl => ?_⟩, ?_,
    pages, ⟨hMemLib.table, hMemLib.count, hMemLib.backed⟩, hPages⟩, hAgree⟩
  · obtain ⟨c, hc, hRest⟩ := h.freeLocs l hl
    exact ⟨c, List.mem_cons_of_mem _ hc, hRest⟩
  · refine List.forall_mem_cons.mpr ⟨fun b hb => ?_, hOldTags⟩
    obtain rfl := List.mem_singleton.mp hb
    exact hNewTags

end Chunk

end Malloc
