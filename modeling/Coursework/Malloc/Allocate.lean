import Coursework.Malloc.Grow

/-! `mm_malloc` refines serving a request from the abstract heap. -/

namespace Malloc

open Tiling Bytes DoublyLinked

variable {π : Nat → Nat} {s : Process} {H : Heap} {K : Kernel} {l : Loc} {req w : Nat}

/-- What the bound on a request leaves room for: neither the size of its block nor the rounding
of it wraps. -/
theorem need_lt (hBound : req + 4174 < 2 ^ 64) : need req + 4127 < 2 ^ 64 ∧ req + 15 < 2 ^ 64 := by
  unfold need alignUp
  omega

/-- `total_size` of `mm_malloc`, which `find_fit` and `split_block` compute again. -/
def totalSize (size : Nat) : Nat := add64 (add64 hdrSize (align size)) fdrSize

/-- The size that `mm_malloc` asks `mem_map` for. -/
def mapsize (size : Nat) : Nat :=
  sub64 (add64 (add64 (totalSize size) pageHdrSize) memPagesize) 1 / memPagesize * memPagesize

/-- The code computes the size of the block that the ideal allocator asks for. -/
theorem totalSize_need (hBound : req + 4174 < 2 ^ 64) : totalSize req = need req := by
  have hNeed := need_lt hBound
  rw [totalSize, align_eq_alignUp hNeed.2, totalSize_eq (by omega)]

/-- Without wrapping, the search is for a block that the request needs. The code compares with
the size that it has computed, which is the same one. -/
theorem find_fit_eq (H : Heap) (hBound : req + 4174 < 2 ^ 64) :
    (H.free.find? fun l => totalSize req ≤ sizeAt H.chunks l) = H.fit req := by
  rw [totalSize_need hBound, Heap.fit]

/-- The search over the free list in memory finds the block that the ideal allocator finds, or
`NULL`. -/
theorem findFit_eq (hw : Covers w (H.free.length + 1)) (h : Rep π s H.chunks H.free)
    {found : Option Loc}
    (hFind : (H.free.find? fun l => totalSize req ≤ sizeAt H.chunks l) = found) :
    findFitWithin w (align req) s = .ok ((found.map (Loc.payload π)).getD 0, s) := by
  rw [← hFind]
  exact findFit_ok hw h (align req)

/-- Walks that are cut off after `w` nodes get to the end of both lists, also when the
heap has grown by a chunk. -/
structure Heap.Covered (w : Nat) (H : Heap) : Prop where
  chunks : Covers w (H.chunks.length + 1)
  free : Covers w (H.free.length + 1)

/-- The walks of the source cover the lists of every heap, as these have fewer nodes than there
are addresses. -/
theorem Heap.covered_walkBound (H : Heap) : H.Covered walkBound := ⟨.walkBound _, .walkBound _⟩

/-- A free block that is found is taken from the list and split. The two functions that do it
know nothing of how it was found. -/
theorem mmMallocWithin_fit (hw : H.Covered w) (h : Rep π s H.chunks H.free) (hTidy : H.Tidy)
    (hReq : 0 < req) (hFind : (H.free.find? fun l => totalSize req ≤ sizeAt H.chunks l) = some l) :
    ∃ m head, mmMallocWithin w K req s =
        (splitBlockWithin w (π l.chunk + l.off) (align req) >>= fun _ => pure (l.payload π))
          { s with mem := m, freeListHead := head } ∧
      Rep π { s with mem := m, freeListHead := head } H.chunks (H.free.erase l) ∧
      AgreeOff (linkWords (H.free.map (Loc.payload π))) s.mem m := by
  have hl := List.mem_of_find?_eq_some hFind
  obtain ⟨c, hc, left, b, right, rfl, hBlocks, -, -⟩ := hTidy.free_split hl
  obtain ⟨m, head, hRemove, hRep, hAgree⟩ := h.remove_ok hl
  have hInside := h.layout.inside c hc
  have hBounds := (hTidy.shaped c hc).bounds (b := b) (by simp [hBlocks])
  refine ⟨m, head, ?_, hRep, hAgree⟩
  rw [mmMallocWithin, if_neg (by omega)]
  simp only
  rw [Program.bind_ok (findFit_eq hw.free h hFind), Option.map_some, Option.getD_some]
  rw [Loc.payload_mk] at hRemove ⊢
  rw [if_pos (by omega), Program.bind_ok hRemove, hdrSize_eq,
    sub64_eq (by omega : 16 ≤ π c.id + b.off + 16) (by omega), Nat.add_sub_cancel,
    add64_eq (by omega : π c.id + b.off + 16 < 2 ^ 64)]

/-- A request that a free block can serve is served from the first such block, and no region is
mapped for it. -/
theorem mmMallocWithin_reuse (hw : H.Covered w) (h : Rep π s H.chunks H.free) (hTidy : H.Tidy)
    (hReq : 0 < req) (hBound : req + 4174 < 2 ^ 64) (hFit : H.fit req = some l) :
    ∃ m head, mmMallocWithin w K req s =
        .ok (l.payload π, { s with mem := m, freeListHead := head }) ∧
      Rep π { s with mem := m, freeListHead := head } (H.reuse req l).chunks (H.reuse req l).free ∧
      KeepsPayloads π H.chunks none s { s with mem := m, freeListHead := head } := by
  have hFits := List.find?_some hFit
  rw [decide_eq_true_eq] at hFits
  obtain ⟨m₁, head₁, hCall, hRep₁, hAgree₁⟩ :=
    mmMallocWithin_fit (K := K) hw h hTidy hReq ((find_fit_eq H hBound).trans hFit)
  obtain ⟨c, hc, left, b, right, rfl, hBlocks, hFree, hSizeAt⟩ :=
    hTidy.free_split (List.mem_of_find?_eq_some hFit)
  obtain ⟨m₂, head₂, hSplit, hRep₂, hAgree₂⟩ := splitBlock_ok
    (hw.chunks.mono (Nat.le_succ _)) hRep₁ hc hBlocks (hTidy.freeNodup.not_mem_erase) hReq
    (hSizeAt ▸ hFits)
  refine ⟨m₂, head₂, ?_, ?_, ?_⟩
  · rw [hCall, align_eq_alignUp (need_lt hBound).2, Program.bind_ok hSplit]
    rfl
  · show Rep π _ (updateChunk H.chunks c.id _)
      (leftover ⟨c.id, b.off⟩ (sizeAt H.chunks ⟨c.id, b.off⟩) req ++ _)
    rw [hSizeAt]
    exact hRep₂
  · intro k e hk _ x hx
    have hOut := h.layout.payload_outside h.freeLocs hk hx
    have hOut₁ := hRep₁.layout.payload_outside hRep₁.freeLocs hk hx
    refine (hAgree₂ x ?_).trans (hAgree₁ x fun hIn => hOut (Or.inl hIn))
    rintro (hLink | hSpan)
    · exact hOut₁ (Or.inl hLink)
    · obtain ⟨d, hd, he, rfl, hAddr, heBounds⟩ := h.layout.payload_bounds hk
      have hApart := h.layout.blocks_apart hd hc he (e := b) (by simp [hBlocks]) (by
        rintro ⟨-, rfl⟩
        rw [hk.1] at hFree
        cases hFree)
      rw [hAddr, mem_span] at hx
      rw [mem_span] at hSpan
      unfold Apart at hApart
      omega

/-- The sum may wrap, and the difference then wraps back. So the size of the region is right
for every request below the bound. -/
theorem mapsize_eq (hBound : req + 4174 < 2 ^ 64) : mapsize req = regionSize req := by
  have hNeed := need_lt hBound
  have hSum : sub64 (add64 (need req + 32) 4096) 1 = need req + 32 + 4095 := by
    unfold sub64 add64
    omega
  rw [mapsize, totalSize_need hBound, pageHdrSize_eq,
    add64_eq (by omega : need req + 32 < 2 ^ 64), memPagesize, apageSize_eq, hSum]
  rfl

theorem updateChunk_freshChunk {cs : List Chunk} {id sz : Nat} (hFresh : id ∉ cs.map Chunk.id)
    (f : List Block → List Block) :
    updateChunk (freshChunk id sz :: cs) id f = ⟨id, sz, f [wholeBlock sz]⟩ :: cs := by
  have hKeep : ∀ c ∈ cs, (if c.id = id then { c with blocks := f c.blocks } else c) = c := by
    intro c hc
    rw [if_neg]
    rintro rfl
    exact hFresh (List.mem_map_of_mem hc)
  rw [updateChunk, List.map_cons, List.map_congr_left hKeep, List.map_id', freshChunk, if_pos rfl]

/-- The chunks of the heap keep their addresses when the next region gets one, as its number is
not among theirs. -/
theorem Heap.Tidy.update_old (h : H.Tidy) (p : Nat) :
    ∀ c ∈ H.chunks, Function.update π H.regions p c.id = π c.id := fun c hc =>
  Function.update_of_ne (Nat.ne_of_lt (h.old c hc)) _ _

/-- A new region becomes a chunk with one free block, which is in no list, unless
`mmap` fails. -/
theorem memMap_fresh (hw : H.Covered w) (h : Rep π s H.chunks H.free) (hTidy : H.Tidy) {sz : Nat}
    (hPaged : sz % 4096 = 0) :
    (memMap K sz).Meets s (fun p t => regionPlace K s sz = some p ∧ 0 < p ∧ 0 < sz ∧
        p % apageSize = 0 ∧ p + sz < 2 ^ 64 ∧
        ∃ u₁ u₂ u₃ v, insertPageChunk p sz t = .ok ((), u₁) ∧
          store64 (headerSizeField (p + 32)) (sz - 32) u₁ = .ok ((), u₂) ∧
          setFree (p + 32) u₂ = .ok ((), u₃) ∧ writeFooterWithin w (p + 32) u₃ = .ok ((), v) ∧
          Rep (Function.update π H.regions p) v (freshChunk H.regions sz :: H.chunks) H.free ∧
          KeepsPayloads π H.chunks none s v ∧ v.calls = s.calls ++ [.map p sz])
      (fun e => e = .mmapFailed ∧ regionPlace K s sz = none) := by
  obtain ⟨pages, hLib, hPages⟩ := h.lib
  refine (memMap_meets hLib (by rw [apageSize_eq]; exact hPaged)).mono ?_ fun e he => he
  rintro p t ⟨hPlace, u, maps, mapsHead, count, pages', hMaps, rfl, hLib', hPages'⟩
  have hOld := hTidy.update_old (π := π) p
  have hNewBase : Function.update π H.regions p H.regions = p := Function.update_self _ _ _
  generalize Function.update π H.regions p = π' at hOld hNewBase
  have hMem : ∀ c ∈ H.chunks, ∀ x, π c.id ≤ x → x < π c.id + c.size → u.mem x = s.mem x :=
    fun c hc x hLow hHigh => hMaps.frame x (h.layout.mapped c hc x hLow hHigh)
  obtain ⟨hLists, hTags⟩ := h.extend (t := { u with
    pageMaps1 := maps, allMappedPages := mapsHead, pageCount := count
    calls := s.calls ++ [.map p sz] }) hOld hMem hMaps.keeps hMaps.heads.1 hMaps.heads.2
  have hRegion := hMaps.newRegion h.layout hPaged hTidy.regions_fresh hNewBase hOld
  have hKnown : ∀ page, page ∈ pages' ↔ PagesOf π' (freshChunk H.regions sz :: H.chunks) page := by
    intro page
    rw [hPages', hPages, pagesOf_cons hNewBase hOld]
  obtain ⟨u₁, u₂, u₃, m, hInsert, hSize, hFlag, hFooter, hRep, hAgree⟩ :=
    freshChunk_ok hw.chunks hLists hTags hRegion ⟨pages', hLib', hKnown⟩
  rw [hNewBase] at hInsert hSize hFlag hFooter hAgree hRep
  refine ⟨hPlace, hMaps.nonzero, hMaps.nonempty, hMaps.aligned, hMaps.inside, u₁, u₂, u₃, _,
    hInsert, hSize, hFlag, hFooter, hRep, ?_, rfl⟩
  intro k e hk _ x hx
  have hOut := h.layout.payload_outside h.freeLocs hk hx
  obtain ⟨d, hd, he, rfl, hAddr, heBounds⟩ := h.layout.payload_bounds hk
  rw [hAddr, mem_span] at hx
  refine (hAgree x ?_).trans (hMem d hd x (by omega) (by omega))
  rintro (⟨c, hc, ha⟩ | hIn)
  · exact hOut (Or.inr ⟨c, hc, hOld c hc ▸ ha⟩)
  · have hApart := hRegion.apart d hd
    rw [hOld d hd, hNewBase] at hApart
    rw [mem_span] at hIn
    unfold Apart at hApart
    omega

/-- Where no free block is found, a new chunk is mapped and split. Its only block is large
enough for the request that it was mapped for. -/
theorem mmMallocWithin_map {Q : Nat → Process → Prop} {E : Abort → Prop} (hw : H.Covered w)
    (h : Rep π s H.chunks H.free) (hTidy : H.Tidy) (hReq : 0 < req)
    (hFind : (H.free.find? fun l => totalSize req ≤ sizeAt H.chunks l) = none)
    (hFail : regionPlace K s (mapsize req) = none → E .mmapFailed)
    (hThen : ∀ p v, regionPlace K s (mapsize req) = some p → 0 < p → p % apageSize = 0 →
      p + mapsize req < 2 ^ 64 →
      Rep (Function.update π H.regions p) v (freshChunk H.regions (mapsize req) :: H.chunks)
        H.free →
      KeepsPayloads π H.chunks none s v → v.calls = s.calls ++ [.map p (mapsize req)] →
      (splitBlockWithin w (p + 32) (align req) >>= fun _ => pure (p + 48)).Meets v Q E) :
    (mmMallocWithin w K req).Meets s Q E := by
  have hPaged : mapsize req % 4096 = 0 := Nat.mul_mod_left _ _
  have hMapsize : sub64 (add64 (add64 (add64 (add64 hdrSize (align req)) fdrSize) pageHdrSize)
      memPagesize) 1 / memPagesize * memPagesize = mapsize req := rfl
  rw [mmMallocWithin, if_neg (by omega)]
  simp only [hMapsize]
  generalize mapsize req = sz at *
  rw [Program.meets_bind, Program.meets_of_ok (findFit_eq hw.free h hFind), Option.map_none,
    Option.getD_none, if_neg (by simp), Program.meets_bind]
  refine (memMap_fresh hw h hTidy hPaged).mono ?_ fun e he => he.1 ▸ hFail he.2
  rintro p t ⟨hPlace, hZero, hNonempty, hAligned, hInside, u₁, u₂, u₃, v, hInsert, hWrite, hFlag,
    hFooter, hRep, hKeeps, hCalls⟩
  have hCut := hThen p v hPlace hZero hAligned hInside hRep hKeeps hCalls
  rw [if_neg (by omega), Program.meets_bind, Program.meets_of_ok hInsert]
  simp only [pageHdrSize_eq, hdrSize_eq, add64_eq (by omega : p + 32 < 2 ^ 64),
    add64_eq (by omega : p + 32 + 16 < 2 ^ 64),
    sub64_eq (by omega : 32 ≤ sz) (by omega : sz < 2 ^ 64)]
  rw [Program.meets_bind, Program.meets_of_ok hWrite, Program.meets_bind, Program.meets_of_ok hFlag,
    Program.meets_bind, Program.meets_of_ok hFooter]
  exact hCut

/-- A request that no free block can serve is served from a new chunk, unless
`mmap` fails. -/
theorem mmMallocWithin_grow (hw : H.Covered w) (h : Rep π s H.chunks H.free) (hTidy : H.Tidy)
    (hReq : 0 < req) (hBound : req + 4174 < 2 ^ 64) (hFit : H.fit req = none) :
    (mmMallocWithin w K req).Meets s (fun q t => ∃ p, regionPlace K s (regionSize req) = some p ∧
        q = p + 48 ∧ Rep (Function.update π H.regions p) t (H.grow req).chunks (H.grow req).free ∧
        KeepsPayloads π H.chunks none s t ∧ t.calls = s.calls ++ [.map p (regionSize req)])
      (fun e => e = .mmapFailed ∧ regionPlace K s (regionSize req) = none) := by
  have hNeed := need_lt hBound
  have hNeedLow := need_bounds hReq
  obtain ⟨hPaged, hRoom, hRoomHigh⟩ := regionSize_bounds req
  have hFirst : firstOff = 32 := rfl
  refine mmMallocWithin_map hw h hTidy hReq ((find_fit_eq H hBound).trans hFit) ?_ ?_
  · rw [mapsize_eq hBound]
    exact fun hNone => ⟨rfl, hNone⟩
  rw [mapsize_eq hBound]
  intro p v hPlace hZero hAligned hInside hRep₁ hKeeps hCalls
  have hOld := hTidy.update_old (π := π) p
  have hNewBase : Function.update π H.regions p H.regions = p := Function.update_self _ _ _
  generalize hπ : Function.update π H.regions p = π' at hRep₁ hOld hNewBase
  have hNotFree : (⟨(freshChunk H.regions (regionSize req)).id,
      (wholeBlock (regionSize req)).off⟩ : Loc) ∉ H.free := by
    intro hIn
    obtain ⟨d, hd, hId, -⟩ := (hTidy.freeExact _).mp hIn
    exact Nat.ne_of_lt (hTidy.old d hd) hId
  have hWhole : (wholeBlock (regionSize req)).size = regionSize req - 32 := rfl
  have hBlocks : (freshChunk H.regions (regionSize req)).blocks =
      [] ++ wholeBlock (regionSize req) :: [] := rfl
  obtain ⟨m₂, head₂, hSplit, hRep₂, hAgree₂⟩ :=
    splitBlock_ok hw.chunks hRep₁ List.mem_cons_self hBlocks hNotFree hReq (by omega)
  have hBase : π' (freshChunk H.regions (regionSize req)).id + (wholeBlock (regionSize req)).off =
      p + 32 := congrArg (· + 32) hNewBase
  rw [hBase] at hSplit hAgree₂
  have hId : (freshChunk H.regions (regionSize req)).id = H.regions := rfl
  have hFresh : H.regions ∉ H.chunks.map Chunk.id := (List.nodup_cons.mp hRep₁.layout.ids).1
  rw [hId, updateChunk_freshChunk hFresh] at hRep₂
  have hCarved : carve (wholeBlock (regionSize req)).off (need req) splitLeast req
      [wholeBlock (regionSize req)] = (newChunk H.regions req).blocks := by
    rw [carve, List.flatMap_singleton, if_pos rfl]
    rfl
  rw [hCarved] at hRep₂
  rw [align_eq_alignUp hNeed.2, Program.meets_bind, Program.meets_of_ok hSplit, Program.meets_pure]
  subst hπ
  refine ⟨p, hPlace, rfl, hRep₂, ?_, hCalls⟩
  intro k e hk hNone x hx
  have hOut := h.layout.payload_outside h.freeLocs hk hx
  refine (hAgree₂ x ?_).trans (hKeeps k e hk hNone x hx)
  obtain ⟨d, hd, he, rfl, hAddr, heBounds⟩ := h.layout.payload_bounds hk
  rintro (hLink | hIn)
  · rw [map_payload h.freeLocs hOld] at hLink
    exact hOut (Or.inl hLink)
  · have hApart := hRep₁.layout.apart d (List.mem_cons_of_mem _ hd) _ List.mem_cons_self (by
      rintro rfl
      exact hFresh (List.mem_map_of_mem hd))
    rw [hOld d hd, hId, hNewBase] at hApart
    rw [hAddr, mem_span] at hx
    rw [mem_span] at hIn
    have hSizeId : (freshChunk H.regions (regionSize req)).size = regionSize req := rfl
    unfold Apart at hApart
    omega

/-- What `mm_malloc` does: the abstract heap serves the request, the payloads of
the other blocks stay, and a region is mapped only if no free block fits. -/
structure Served (π π' : Nat → Nat) (s t : Process) (H : Heap) (req q : Nat) : Prop where
  bases : ∀ i < H.regions, π' i = π i
  result : q = (H.malloc req).1.payload π'
  rep : Rep π' t (H.malloc req).2.chunks (H.malloc req).2.free
  keeps : KeepsPayloads π H.chunks none s t
  calls : t.calls = s.calls ++
    if (H.fit req).isNone then [.map (π' H.regions) (regionSize req)] else []

theorem Served.ne_zero {π' : Nat → Nat} {t : Process} {q : Nat} (h : Served π π' s t H req q) :
    q ≠ 0 := by
  rw [h.result, Loc.payload]
  omega

/-- `mm_malloc` of a positive size, with walks that cover the lists: it serves the request as
the ideal allocator does, or stops because no block fits and `mmap` refuses the region. -/
theorem mmMallocWithin_meets (hw : H.Covered w) (h : Rep π s H.chunks H.free) (hTidy : H.Tidy)
    (hReq : 0 < req) (hBound : req + 4174 < 2 ^ 64) :
    (mmMallocWithin w K req).Meets s (fun q t => ∃ π', Served π π' s t H req q)
      (fun e => e = .mmapFailed ∧ H.fit req = none ∧ regionPlace K s (regionSize req) = none) := by
  cases hFit : H.fit req with
  | some l =>
      obtain ⟨m, head, hRun, hRep, hKeeps⟩ := mmMallocWithin_reuse hw h hTidy hReq hBound hFit
      have hMalloc : H.malloc req = (l, H.reuse req l) := by rw [Heap.malloc, hFit]
      refine (Program.meets_of_ok hRun).mpr ⟨π, fun _ _ => rfl, ?_, ?_, hKeeps, ?_⟩
      · rw [hMalloc]
      · rw [hMalloc]
        exact hRep
      · rw [hFit]
        exact (List.append_nil _).symm
  | none =>
      have hMalloc : H.malloc req = (⟨H.regions, firstOff⟩, H.grow req) := by rw [Heap.malloc, hFit]
      refine (mmMallocWithin_grow hw h hTidy hReq hBound hFit).mono ?_ fun e he => ⟨he.1, rfl, he.2⟩
      rintro q t ⟨p, -, rfl, hRep, hKeeps, hCalls⟩
      refine ⟨Function.update π H.regions p, fun i hi => ?_, ?_, ?_, hKeeps, ?_⟩
      · rw [Function.update_of_ne (Nat.ne_of_lt hi)]
      · rw [hMalloc, Loc.payload_mk, Function.update_self]
        rfl
      · rw [hMalloc]
        exact hRep
      · rw [hFit, hCalls, Function.update_self]
        rfl

/-- The function of the source, whose walks cover every list. -/
theorem mmMalloc_meets (h : Rep π s H.chunks H.free) (hTidy : H.Tidy) (hReq : 0 < req)
    (hBound : req + 4174 < 2 ^ 64) :
    (mmMalloc K req).Meets s (fun q t => ∃ π', Served π π' s t H req q)
      (fun e => e = .mmapFailed ∧ H.fit req = none ∧ regionPlace K s (regionSize req) = none) :=
  mmMallocWithin_meets H.covered_walkBound h hTidy hReq hBound

end Malloc
