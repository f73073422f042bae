import Coursework.Malloc.Heap

/-! The invariant of the heap: every chunk is cut completely and in use, no
two neighbours are free, and the free list holds every free block once. -/

namespace Malloc

open Tiling

/-- What holds of the heap throughout a call. -/
structure Heap.Tidy (H : Heap) : Prop where
  shaped : ∀ c ∈ H.chunks, c.Shaped
  coalesced : ∀ c ∈ H.chunks, Coalesced c.blocks
  ids : (H.chunks.map Chunk.id).Nodup
  old : ∀ c ∈ H.chunks, c.id < H.regions
  /-- A block fits its request, and what it has too much was not worth keeping. -/
  fits : ∀ c ∈ H.chunks, ∀ b ∈ c.blocks, ∀ req ∈ b.owner,
    0 < req ∧ need req ≤ b.size ∧ b.size < need req + splitLeast
  freeNodup : H.free.Nodup
  freeExact : ∀ l, l ∈ H.free ↔ FreeIn H.chunks l

/-- What holds of the heap between calls. -/
structure Heap.WF (H : Heap) : Prop extends Heap.Tidy H where
  inUse : ∀ c ∈ H.chunks, vacant c = false

theorem Heap.Tidy.regions_fresh {H : Heap} (h : H.Tidy) : H.regions ∉ H.chunks.map Chunk.id := by
  intro hIn
  obtain ⟨d, hd, hId⟩ := List.mem_map.mp hIn
  exact Nat.ne_of_lt (h.old d hd) hId

/-- The members of the free list are determined by the chunks. Only their order depends on how
the heap came about. -/
theorem Heap.Tidy.free_perm {H H' : Heap} (h : H.Tidy) (h' : H'.Tidy)
    (hChunks : H.chunks = H'.chunks) : H.free.Perm H'.free := by
  refine (List.perm_ext_iff_of_nodup h.freeNodup h'.freeNodup).mpr fun l => ?_
  rw [h.freeExact, h'.freeExact, hChunks]

/-- The block for a request is aligned and has room for its tags and its links. -/
theorem need_bounds {req : Nat} (hReq : 0 < req) : need req % 16 = 0 ∧ 48 ≤ need req := by
  unfold need alignUp
  omega

theorem vacant_eq_false {c : Chunk} : vacant c = false ↔ ∃ b ∈ c.blocks, b.free = false := by
  unfold vacant
  rw [List.isEmpty_eq_false_iff_exists_mem]
  exact exists_congr fun b => mem_used

section Lookup

variable {cs : List Chunk} {c : Chunk} {b : Block} {l : Loc}

/-- A free place has a block in some chunk, which splits the chunk in two. Proofs about one
block start from here. -/
theorem FreeIn.split (h : FreeIn cs l) : ∃ c ∈ cs, ∃ left b right, c.id = l.chunk ∧
    c.blocks = left ++ b :: right ∧ b.off = l.off ∧ b.free = true := by
  obtain ⟨c, hc, hId, b, hb, hOff, hFree⟩ := h
  obtain ⟨left, right, hBlocks⟩ := List.append_of_mem hb
  exact ⟨c, hc, left, b, right, hId, hBlocks, hOff, hFree⟩

/-- The free blocks after the part `mid` of a chunk was cut anew: those elsewhere, and the free
ones among the new blocks. -/
theorem freeIn_updateChunk {left mid mid' right : List Block} {f : List Block → List Block}
    (hIds : (cs.map Chunk.id).Nodup) (hc : c ∈ cs) (hTiled : Tiles firstOff c.size c.blocks)
    (hBlocks : c.blocks = left ++ mid ++ right) (hf : f c.blocks = left ++ mid' ++ right) :
    FreeIn (updateChunk cs c.id f) l ↔
      (FreeIn cs l ∧ (l.chunk = c.id → ∀ b ∈ mid, b.off ≠ l.off)) ∨
        ∃ b ∈ mid', b.free = true ∧ l = ⟨c.id, b.off⟩ := by
  constructor
  · rintro ⟨d, hd, hId, b, hb, hOff, hFree⟩
    rcases (mem_updateChunk hIds hc).mp hd with rfl | ⟨hd, hNe⟩
    · replace hb : b ∈ left ++ mid' ++ right := hf ▸ hb
      replace hId : c.id = l.chunk := hId
      by_cases hMid : b ∈ mid'
      · exact Or.inr ⟨b, hMid, hFree, by rw [hId, hOff]⟩
      · refine Or.inl ⟨⟨c, hc, hId, b, ?_, hOff, hFree⟩, fun _ a ha hEq => ?_⟩
        · simp only [hBlocks, List.append_assoc, List.mem_append] at hb ⊢
          tauto
        · -- A block outside `mid` does not start where one of `mid` starts.
          have haIn : a ∈ c.blocks := by simp [hBlocks, ha]
          have hbOut : b ∈ left ++ right := by
            simp only [List.append_assoc, List.mem_append] at hb ⊢
            tauto
          have hbIn : b ∈ c.blocks := by
            simp only [hBlocks, List.append_assoc, List.mem_append] at hbOut ⊢
            tauto
          have hSame : a = b := hTiled.eq_of_off haIn hbIn (hEq.trans hOff.symm)
          subst hSame
          have hNodup := hTiled.nodup
          rw [hBlocks] at hNodup
          have hPerm : (left ++ mid ++ right).Perm (mid ++ (left ++ right)) := by
            rw [← List.append_assoc]
            exact List.perm_append_comm.append_right right
          exact (List.nodup_append.mp (hPerm.nodup_iff.mp hNodup)).2.2 a ha a hbOut rfl
    · exact Or.inl ⟨⟨d, hd, hId, b, hb, hOff, hFree⟩,
        fun hEq => absurd (hId.trans hEq) hNe⟩
  · rintro (⟨hOld, hOut⟩ | ⟨b, hb, hFree, rfl⟩)
    · exact hOld.update hIds hc hBlocks hf hOut
    · exact FreeIn.updated hIds hc (by simp [hf, hb]) hFree

end Lookup

section Malloc

variable {H : Heap} {req : Nat} {l : Loc}

/-- The block at a free place, where it lies. A place of the free list is never stale, so a
block is there. -/
theorem Heap.Tidy.free_split (h : H.Tidy) (hl : l ∈ H.free) : ∃ c ∈ H.chunks, ∃ left b right,
    l = ⟨c.id, b.off⟩ ∧ c.blocks = left ++ b :: right ∧ b.free = true ∧
      sizeAt H.chunks l = b.size := by
  obtain ⟨c, hc, left, b, right, hId, hBlocks, hOff, hFree⟩ := ((h.freeExact l).mp hl).split
  have hl : l = ⟨c.id, b.off⟩ := by rw [hId, hOff]
  refine ⟨c, hc, left, b, right, hl, hBlocks, hFree, ?_⟩
  rw [hl]
  exact sizeAt_eq h.ids hc (h.shaped c hc).tiled (by simp [hBlocks])

/-- Cutting the part `mid` of one chunk anew keeps the invariant, when the new
blocks are well formed and the free list follows. -/
theorem Heap.Tidy.recut (h : H.Tidy) {c : Chunk} (hc : c ∈ H.chunks)
    {left mid mid' right : List Block} {f : List Block → List Block} {fr : List Loc}
    (hBlocks : c.blocks = left ++ mid ++ right) (hf : f c.blocks = left ++ mid' ++ right)
    (hTiles : Tiles firstOff c.size (f c.blocks)) (hNonempty : mid' ≠ [])
    (hCoalesced : Coalesced (f c.blocks))
    (hMid : ∀ d ∈ mid', (d.size % 16 = 0 ∧ 48 ≤ d.size) ∧
      ∀ n ∈ d.owner, 0 < n ∧ need n ≤ d.size ∧ d.size < need n + splitLeast)
    (hNodup : fr.Nodup) (hFree : ∀ k, k ∈ fr ↔
      (k ∈ H.free ∧ (k.chunk = c.id → ∀ b ∈ mid, b.off ≠ k.off)) ∨
        ∃ b ∈ mid', b.free = true ∧ k = ⟨c.id, b.off⟩) :
    Heap.Tidy { H with chunks := updateChunk H.chunks c.id f, free := fr } := by
  have hShaped := h.shaped c hc
  have hChunks : ∀ d ∈ updateChunk H.chunks c.id f,
      d = { c with blocks := f c.blocks } ∨ d ∈ H.chunks := fun d hd =>
    ((mem_updateChunk h.ids hc).mp hd).imp_right And.left
  have hSub : ∀ a ∈ f c.blocks, a ∈ c.blocks ∨ a ∈ mid' := by
    intro a ha
    rw [hf] at ha
    simp only [hBlocks, List.append_assoc, List.mem_append] at ha ⊢
    tauto
  refine ⟨?shaped, ?coalesced, ?ids, ?old, ?fits, hNodup, ?freeExact⟩
  case shaped =>
    intro d hd
    rcases hChunks d hd with rfl | hOld
    · exact hShaped.recut hBlocks hf hTiles (fun a ha => (hMid a ha).1) hNonempty
    · exact h.shaped d hOld
  case coalesced =>
    intro d hd
    rcases hChunks d hd with rfl | hOld
    · exact hCoalesced
    · exact h.coalesced d hOld
  case ids => exact (ids_of_extent (map_extent_updateChunk H.chunks _ _)).symm ▸ h.ids
  case old =>
    intro d hd
    rcases hChunks d hd with rfl | hOld
    · exact h.old c hc
    · exact h.old d hOld
  case fits =>
    intro d hd a ha
    rcases hChunks d hd with rfl | hOld
    · exact (hSub a ha).elim (h.fits c hc a) fun hIn => (hMid a hIn).2
    · exact h.fits d hOld a ha
  case freeExact =>
    intro k
    rw [hFree, h.freeExact]
    exact (freeIn_updateChunk h.ids hc hShaped.tiled hBlocks hf).symm

/-- What is carved for a request is blocks of a legal size. The used one wastes less than what
would be worth a block of its own. -/
theorem carve_fits {b : Block} (hReq : 0 < req) (hFits : need req ≤ b.size)
    (hSize : b.size % 16 = 0) :
    ∀ d ∈ b.carve (need req) splitLeast req, (d.size % 16 = 0 ∧ 48 ≤ d.size) ∧
      ∀ n ∈ d.owner, 0 < n ∧ need n ≤ d.size ∧ d.size < need n + splitLeast := by
  have hNeed := need_bounds hReq
  intro d hd
  unfold Segment.carve at hd
  split at hd
  · next hLarge =>
      have hLeast : 64 ≤ b.size - need req := hLarge
      simp only [List.mem_cons, List.not_mem_nil, or_false] at hd
      rcases hd with rfl | rfl
      · refine ⟨hNeed, fun n hn => ?_⟩
        cases hn
        exact ⟨hReq, Nat.le_refl _, Nat.lt_add_of_pos_right (by decide)⟩
      · exact ⟨by simp only; omega, fun n hn => by cases hn⟩
  · next hSmall =>
      rw [List.mem_singleton] at hd
      subst hd
      refine ⟨by simp only; omega, fun n hn => ?_⟩
      cases hn
      exact ⟨hReq, hFits, by simp only; omega⟩

/-- The free blocks that a carved block leaves are its leftover, of which there is one or
none. -/
theorem mem_leftover {b : Block} {id : Nat} : l ∈ leftover ⟨id, b.off⟩ b.size req ↔
    ∃ d ∈ b.carve (need req) splitLeast req, d.free = true ∧ l = ⟨id, d.off⟩ := by
  unfold leftover Segment.carve
  split <;> simp [Segment.free]

theorem nodup_leftover (l : Loc) (size req : Nat) : (leftover l size req).Nodup := by
  unfold leftover
  split <;> simp

/-- The leftover starts inside the carved block, and no other block does. So it was not in the
free list before. -/
theorem Heap.Tidy.leftover_new (h : H.Tidy) {c : Chunk} {b : Block} (hc : c ∈ H.chunks)
    (hb : b ∈ c.blocks) (hReq : 0 < req) {k : Loc} (hk : k ∈ leftover ⟨c.id, b.off⟩ b.size req) :
    k ∉ H.free := by
  intro hIn
  have hNeed := need_bounds hReq
  obtain ⟨d, hd, hId, e, he, hOff, -⟩ := (h.freeExact k).mp hIn
  unfold leftover at hk
  split at hk
  · next hLarge =>
      have hLeast : 64 ≤ b.size - need req := hLarge
      rw [List.mem_singleton] at hk
      subst hk
      obtain rfl := List.inj_on_of_nodup_map h.ids hd hc hId
      replace hOff : e.off = b.off + need req := hOff
      have hSame := (h.shaped d hd).tiled.eq_of_within hb he (by omega)
        (by unfold Segment.stop; omega)
      subst hSame
      omega
  · simp at hk

/-- A free block given to a request leaves a well-formed heap. The rest of it has a used
neighbour in front, so nothing has to be coalesced. -/
theorem Heap.WF.reuse (h : H.WF) (hReq : 0 < req) (hl : l ∈ H.free)
    (hFits : need req ≤ sizeAt H.chunks l) : (H.reuse req l).WF := by
  obtain ⟨c, hc, left, b, right, rfl, hBlocks, hFree, hSizeAt⟩ := h.free_split hl
  rw [hSizeAt] at hFits
  have hbIn : b ∈ c.blocks := by simp [hBlocks]
  have hNeed := need_bounds hReq
  have hTiled := (h.shaped c hc).tiled
  have hMid : c.blocks = left ++ [b] ++ right := by simp [hBlocks]
  have hf : carve b.off (need req) splitLeast req c.blocks =
      left ++ b.carve (need req) splitLeast req ++ right := by
    rw [hBlocks] at hTiled ⊢
    exact carve_eq hTiled
  have hCarve := carve_fits hReq hFits ((h.shaped c hc).sizes b hbIn).1
  obtain ⟨size, hUsed⟩ := b.used_carve (need req) splitLeast req
  have hNew : (⟨b.off, size, some req⟩ : Block) ∈ b.carve (need req) splitLeast req :=
    (mem_used.mp (hUsed ▸ List.mem_singleton_self _)).1
  have hTidy : (H.reuse req ⟨c.id, b.off⟩).Tidy := by
    refine h.toTidy.recut hc hMid hf ?tiles (List.ne_nil_of_mem hNew) ?coalesced hCarve ?nodup ?free
    case tiles =>
      rw [hf]
      rw [hBlocks] at hTiled
      exact tiles_carve hTiled (by omega) hFits (by decide)
    case coalesced =>
      rw [hf]
      exact coalesced_carve (hBlocks ▸ h.coalesced c hc) hFree
    case nodup =>
      rw [hSizeAt]
      refine List.nodup_append.mpr ⟨nodup_leftover _ _ _, h.freeNodup.erase _, ?_⟩
      rintro k hk k' hk' rfl
      exact h.toTidy.leftover_new hc hbIn hReq hk (List.mem_of_mem_erase hk')
    case free =>
      intro k
      rw [hSizeAt, List.mem_append, mem_leftover, h.freeNodup.mem_erase_iff, or_comm, and_comm]
      refine or_congr (and_congr_right fun _ => ?_) Iff.rfl
      simp only [List.mem_singleton, forall_eq]
      constructor
      · rintro hNe hId hOff
        exact hNe (by rw [hOff, ← hId])
      · rintro hNe rfl
        exact hNe rfl rfl
  refine ⟨hTidy, fun d hd => ?_⟩
  rcases (mem_updateChunk h.ids hc).mp hd with rfl | ⟨hd, -⟩
  · exact vacant_eq_false.mpr ⟨⟨b.off, size, some req⟩, by simp [hf, hNew], rfl⟩
  · exact h.inUse d hd

/-- A new region has whole pages, room for the request, and no page to spare. -/
theorem regionSize_bounds (req : Nat) : regionSize req % 4096 = 0 ∧
    need req + firstOff ≤ regionSize req ∧ regionSize req < need req + firstOff + 4096 := by
  unfold regionSize
  omega

/-- A new chunk leaves a well-formed heap. Its first block is in use, so the chunk is not empty
when the request has been served. -/
theorem Heap.WF.grow (h : H.WF) (hReq : 0 < req) : (H.grow req).WF := by
  have hNeed := need_bounds hReq
  obtain ⟨hPaged, hRoom, -⟩ := regionSize_bounds req
  have hFirst : firstOff = 32 := rfl
  have hSize : (wholeBlock (regionSize req)).size = regionSize req - 32 := rfl
  have hStop : (wholeBlock (regionSize req)).stop = regionSize req := by
    show 32 + (regionSize req - 32) = regionSize req
    omega
  have hCarve := carve_fits (b := wholeBlock (regionSize req)) hReq (by omega) (by omega)
  have hTiles : Tiles firstOff (wholeBlock (regionSize req)).stop
      (newChunk H.regions req).blocks :=
    Segment.tiles_carve (s := wholeBlock (regionSize req)) req (by omega) (by omega) (by decide)
  rw [hStop] at hTiles
  obtain ⟨size, hUsed⟩ := (wholeBlock (regionSize req)).used_carve (need req) splitLeast req
  have hNew := (mem_used.mp (hUsed ▸ List.mem_singleton_self _)).1
  refine ⟨⟨?shaped, ?coalesced, ?ids, ?old, ?fits, ?freeNodup, ?freeExact⟩, ?inUse⟩
  case shaped =>
    refine List.forall_mem_cons.mpr ⟨⟨hTiles, fun a ha => (hCarve a ha).1, hPaged, ?_⟩, h.shaped⟩
    exact List.ne_nil_of_mem hNew
  case coalesced =>
    refine List.forall_mem_cons.mpr ⟨?_, h.coalesced⟩
    have hOne : Coalesced ([] ++ [wholeBlock (regionSize req)]) :=
      List.isChain_singleton _
    have hCut : Coalesced ([] ++ (newChunk H.regions req).blocks ++ []) := coalesced_carve hOne rfl
    rwa [List.nil_append, List.append_nil] at hCut
  case inUse => exact List.forall_mem_cons.mpr ⟨vacant_eq_false.mpr ⟨_, hNew, rfl⟩, h.inUse⟩
  case ids => exact List.nodup_cons.mpr ⟨h.regions_fresh, h.ids⟩
  case old =>
    exact List.forall_mem_cons.mpr ⟨Nat.lt_succ_self _, fun d hd => Nat.lt_succ_of_lt (h.old d hd)⟩
  case fits =>
    exact List.forall_mem_cons.mpr ⟨fun a ha => (hCarve a ha).2, h.fits⟩
  case freeExact =>
    intro k
    have hLeft : k ∈ leftover ⟨H.regions, firstOff⟩ (regionSize req - firstOff) req ↔
        ∃ d ∈ (newChunk H.regions req).blocks, d.free = true ∧ k = ⟨H.regions, d.off⟩ :=
      mem_leftover (b := wholeBlock (regionSize req))
    show k ∈ leftover ⟨H.regions, firstOff⟩ (regionSize req - firstOff) req ++ H.free ↔ _
    rw [List.mem_append, h.freeExact, hLeft]
    constructor
    · rintro (⟨d, hd, hFree, rfl⟩ | ⟨d, hd, hRest⟩)
      · exact ⟨newChunk H.regions req, List.mem_cons_self, rfl, d, hd, rfl, hFree⟩
      · exact ⟨d, List.mem_cons_of_mem _ hd, hRest⟩
    · rintro ⟨d, hd, hId, b, hb, hOff, hFree⟩
      rcases List.mem_cons.mp hd with rfl | hd
      · exact Or.inl ⟨b, hb, hFree, by rw [hOff]; exact congrArg (Loc.mk · k.off) hId.symm⟩
      · exact Or.inr ⟨d, hd, hId, b, hb, hOff, hFree⟩
  case freeNodup =>
    refine List.nodup_append.mpr ⟨nodup_leftover _ _ _, h.freeNodup, ?_⟩
    rintro k hk k' hk' rfl
    obtain ⟨d, hd, hId, -⟩ := (h.freeExact k).mp hk'
    unfold leftover at hk
    split at hk
    · rw [List.mem_singleton] at hk
      subst hk
      exact h.regions_fresh (List.mem_map.mpr ⟨d, hd, hId⟩)
    · simp at hk

/-- `malloc` keeps the invariant, in both of its cases. -/
theorem Heap.WF.malloc (h : H.WF) (hReq : 0 < req) : (H.malloc req).2.WF := by
  unfold Heap.malloc
  split
  · next l hFit =>
      have hFits := List.find?_some hFit
      rw [decide_eq_true_eq] at hFits
      exact h.reuse hReq (List.mem_of_find?_eq_some hFit) hFits
  · exact h.grow hReq

/-- Carving a free block adds one block in use, which starts where it did. The leftover is free
and does not count. -/
theorem mem_carve_used {b : Block} (hReq : 0 < req) (hFits : need req ≤ b.size)
    (hSize : b.size % 16 = 0) : ∃ size, (need req ≤ size ∧ size < need req + splitLeast) ∧
      ∀ a : Block, a.free = false →
        (a ∈ b.carve (need req) splitLeast req ↔ a = ⟨b.off, size, some req⟩) := by
  obtain ⟨size, hUsed⟩ := b.used_carve (need req) splitLeast req
  have hNew := (mem_used.mp (hUsed ▸ List.mem_singleton_self _)).1
  obtain ⟨-, hLow, hHigh⟩ := (carve_fits hReq hFits hSize _ hNew).2 req rfl
  refine ⟨size, ⟨hLow, hHigh⟩, fun a ha => ?_⟩
  have hMem : a ∈ used (b.carve (need req) splitLeast req) ↔ a = ⟨b.off, size, some req⟩ := by
    rw [hUsed, List.mem_singleton]
  rw [mem_used] at hMem
  rw [← hMem]
  exact ⟨fun hIn => ⟨hIn, ha⟩, And.left⟩

/-- Serving a request from a free block makes one more block used and touches no other. Its
size is that of the request, or a little more when there is no split. -/
theorem usedAt_reuse (h : H.Tidy) (hReq : 0 < req) (hl : l ∈ H.free)
    (hFits : need req ≤ sizeAt H.chunks l) :
    ∃ size, (need req ≤ size ∧ size < need req + splitLeast) ∧
      ∀ k a, UsedAt (H.reuse req l).chunks k a ↔ UsedAt H.chunks k a ∨
        (k = l ∧ a = ⟨l.off, size, some req⟩) := by
  obtain ⟨c, hc, left, b, right, rfl, hBlocks, hFree, hSizeAt⟩ := h.free_split hl
  rw [hSizeAt] at hFits
  have hTiled := (h.shaped c hc).tiled
  have hf : carve b.off (need req) splitLeast req c.blocks =
      left ++ b.carve (need req) splitLeast req ++ right := by
    rw [hBlocks] at hTiled ⊢
    exact carve_eq hTiled
  obtain ⟨size, hBounds, hCarve⟩ := mem_carve_used hReq hFits
    ((h.shaped c hc).sizes b (by simp [hBlocks])).1
  have hBlock : ∀ a : Block, a.free = false →
      (a ∈ carve b.off (need req) splitLeast req c.blocks ↔
        a ∈ c.blocks ∨ a = ⟨b.off, size, some req⟩) := by
    intro a ha
    have hNe : a ≠ b := by
      rintro rfl
      rw [ha] at hFree
      cases hFree
    rw [hf, hBlocks, ← hCarve a ha]
    simp only [List.append_assoc, List.mem_append, List.mem_cons, hNe, false_or]
    tauto
  refine ⟨size, hBounds, fun k a => ?_⟩
  constructor
  · rintro ⟨ha, haOff, d, hd, hdId, haIn⟩
    rcases (mem_updateChunk h.ids hc).mp hd with rfl | ⟨hd, -⟩
    · rcases (hBlock a ha).mp haIn with hOld | rfl
      · exact Or.inl ⟨ha, haOff, c, hc, hdId, hOld⟩
      · exact Or.inr ⟨congrArg₂ Loc.mk hdId.symm haOff.symm, rfl⟩
    · exact Or.inl ⟨ha, haOff, d, hd, hdId, haIn⟩
  · rintro (⟨ha, haOff, d, hd, hdId, haIn⟩ | ⟨rfl, rfl⟩)
    · refine ⟨ha, haOff, ?_⟩
      by_cases hdc : d.id = c.id
      · obtain rfl := List.inj_on_of_nodup_map h.ids hd hc hdc
        exact ⟨_, (mem_updateChunk h.ids hd).mpr (Or.inl rfl), hdId,
          (hBlock a ha).mpr (Or.inl haIn)⟩
      · exact ⟨d, (mem_updateChunk h.ids hc).mpr (Or.inr ⟨hd, hdc⟩), hdId, haIn⟩
    · exact ⟨rfl, rfl, _, (mem_updateChunk h.ids hc).mpr (Or.inl rfl), rfl,
        (hBlock _ rfl).mpr (Or.inr rfl)⟩

/-- Serving a request from a new chunk makes one more block used as well. -/
theorem usedAt_grow (H : Heap) (hReq : 0 < req) :
    ∃ size, (need req ≤ size ∧ size < need req + splitLeast) ∧
      ∀ k a, UsedAt (H.grow req).chunks k a ↔ UsedAt H.chunks k a ∨
        (k = ⟨H.regions, firstOff⟩ ∧ a = ⟨firstOff, size, some req⟩) := by
  have hNeed := need_bounds hReq
  obtain ⟨hPaged, hRoom, -⟩ := regionSize_bounds req
  have hFirst : firstOff = 32 := rfl
  have hWhole : (wholeBlock (regionSize req)).size = regionSize req - 32 := rfl
  obtain ⟨size, hBounds, hCarve⟩ := mem_carve_used (b := wholeBlock (regionSize req)) hReq
    (by omega) (by omega)
  refine ⟨size, hBounds, fun k a => ?_⟩
  constructor
  · rintro ⟨ha, haOff, d, hd, hdId, haIn⟩
    rcases List.mem_cons.mp hd with rfl | hd
    · obtain rfl := (hCarve a ha).mp haIn
      exact Or.inr ⟨congrArg₂ Loc.mk hdId.symm haOff.symm, rfl⟩
    · exact Or.inl ⟨ha, haOff, d, hd, hdId, haIn⟩
  · rintro (⟨ha, haOff, d, hd, hRest⟩ | ⟨rfl, rfl⟩)
    · exact ⟨ha, haOff, d, List.mem_cons_of_mem _ hd, hRest⟩
    · exact ⟨rfl, rfl, newChunk H.regions req, List.mem_cons_self, rfl, (hCarve _ rfl).mpr rfl⟩

/-- The blocks in use after a request are those before it and the new one. No block moves, and
none changes its size. -/
theorem usedAt_malloc (h : H.Tidy) (hReq : 0 < req) :
    ∃ size, (need req ≤ size ∧ size < need req + splitLeast) ∧
      ∀ k a, UsedAt (H.malloc req).2.chunks k a ↔ UsedAt H.chunks k a ∨
        (k = (H.malloc req).1 ∧ a = ⟨(H.malloc req).1.off, size, some req⟩) := by
  unfold Heap.malloc
  split
  · next l hFit =>
      have hFits := List.find?_some hFit
      rw [decide_eq_true_eq] at hFits
      exact usedAt_reuse h hReq (List.mem_of_find?_eq_some hFit) hFits
  · exact usedAt_grow H hReq

/-- The place that a request gets was not in use, so no client has it already. -/
theorem not_usedAt_malloc (h : H.Tidy) (a : Block) : ¬UsedAt H.chunks (H.malloc req).1 a := by
  unfold Heap.malloc
  split
  · next l hFit =>
      rintro ⟨ha, haOff, d, hd, hdId, haIn⟩
      obtain ⟨c, hc, hId, b, hb, hOff, hFree⟩ :=
        (h.freeExact l).mp (List.mem_of_find?_eq_some hFit)
      obtain rfl := List.inj_on_of_nodup_map h.ids hd hc (hdId.trans hId.symm)
      obtain rfl := (h.shaped d hd).tiled.eq_of_off haIn hb (haOff.trans hOff.symm)
      rw [ha] at hFree
      cases hFree
  · rintro ⟨-, -, d, hd, hdId, -⟩
    exact Nat.ne_of_lt (h.old d hd) hdId

end Malloc

section Free

variable {H : Heap} {c : Chunk} {b : Block} {left pre post right : List Block} {start stop : Nat}

/-- The block that a release joins is the run around the released one. -/
theorem joined_eq {lo hi : Nat} {blocks : List Block} (h : Run blocks b left pre post right)
    (hb : b.free = false) (hCoalesced : Coalesced blocks) (hLeft : Tiles lo start left)
    (hMid : Tiles start stop (pre ++ b :: post)) (hRight : Tiles stop hi right) :
    joined b.off blocks = some ⟨start, stop - start, none⟩ := by
  obtain ⟨hLow, hPos, hHigh⟩ := hMid.bounds (s := b) (by simp)
  have hStop : b.stop = b.off + b.size := rfl
  rw [joined, h.release_eq hb hCoalesced hLeft hMid hRight, List.find?_append,
    List.find?_eq_none.mpr, Option.none_or, List.find?_cons_of_pos]
  · have hIn : start ≤ b.off ∧ b.off < start + (stop - start) := by omega
    exact decide_eq_true hIn
  · intro a ha
    have := (hLeft.bounds ha).2.2
    simp only [decide_eq_true_eq, not_and, not_lt]
    omega

/-- What the release of a used block does to the heap: the run around it becomes one free block
at the front of the free list, and the free blocks of the run leave the list. -/
theorem Heap.Tidy.giveBack_eq (h : H.Tidy) (hc : c ∈ H.chunks)
    (hRun : Run c.blocks b left pre post right) (hb : b.free = false)
    (hLeft : Tiles firstOff start left) (hMid : Tiles start stop (pre ++ b :: post))
    (hRight : Tiles stop c.size right) :
    H.giveBack ⟨c.id, b.off⟩ =
      { H with
        chunks := updateChunk H.chunks c.id (release b.off)
        free := ⟨c.id, start⟩ :: H.free.filter fun x =>
          ¬(x.chunk = c.id ∧ start ≤ x.off ∧ x.off < stop) } := by
  have hStop : start + (stop - start) = stop := Nat.add_sub_of_le hMid.le
  unfold Heap.giveBack
  simp only [find_chunk h.ids hc, joined_eq hRun hb (h.coalesced c hc) hLeft hMid hRight,
    Segment.stop, hStop]

/-- Releasing a used block keeps everything but that every chunk is in use. The chunk of the
block may be empty now. -/
theorem Heap.Tidy.giveBack (h : H.Tidy) {l : Loc} (hUsed : UsedAt H.chunks l b) :
    (H.giveBack l).Tidy := by
  obtain ⟨hb, hOff, c, hc, hId, hbIn⟩ := hUsed
  obtain rfl : l = ⟨c.id, b.off⟩ := by rw [hId, hOff]
  have hCoalesced := h.coalesced c hc
  have hShaped := h.shaped c hc
  obtain ⟨left, pre, post, right, hRun⟩ := exists_run hCoalesced hbIn
  obtain ⟨start, stop, hLeft, hMid, hRight⟩ := hRun.tiles hShaped.tiled
  obtain ⟨hLow, hPos, hHigh⟩ := hMid.bounds (s := b) (by simp)
  have hbStop : b.stop = b.off + b.size := rfl
  have hf : release b.off c.blocks = left ++ [⟨start, stop - start, none⟩] ++ right := by
    rw [hRun.release_eq hb hCoalesced hLeft hMid hRight]
    simp
  rw [h.giveBack_eq hc hRun hb hLeft hMid hRight]
  refine h.recut hc hRun.eq hf (tiles_release hShaped.tiled _) (by simp) (coalesced_release _ _)
    ?mid ?nodup ?free
  case mid =>
    simp only [List.mem_singleton, forall_eq]
    have hAt : ∀ a ∈ pre ++ b :: post, a.size % 16 = 0 := by
      intro a ha
      refine (hShaped.sizes a ?_).1
      rw [hRun.eq]
      exact List.mem_append_left _ (List.mem_append_right _ ha)
    have := (hShaped.sizes b hbIn).2
    exact ⟨⟨hMid.size_mod hAt, by omega⟩, nofun⟩
  case nodup =>
    refine List.nodup_cons.mpr ⟨fun hIn => ?_, h.freeNodup.filter _⟩
    have hOut := (List.mem_filter.mp hIn).2
    rw [decide_eq_true_eq] at hOut
    exact hOut ⟨rfl, Nat.le_refl start, (by omega : start < stop)⟩
  case free =>
    intro k
    rw [List.mem_cons, List.mem_filter, or_comm]
    refine or_congr (and_congr_right fun hFree => ?_) (by simp [Segment.free])
    -- A free block lies in the run exactly when it starts there.
    obtain ⟨d, hd, hdId, e, he, heOff, -⟩ := (h.freeExact k).mp hFree
    rw [decide_eq_true_eq, not_and]
    refine forall_congr' fun hChunk => ?_
    obtain rfl := List.inj_on_of_nodup_map h.ids hd hc (hdId.trans hChunk)
    have heRun := he
    rw [hRun.eq] at heRun
    rw [← heOff, ← hLeft.mem_middle hMid hRight heRun]
    constructor
    · intro hNot a ha hEq
      have haIn : a ∈ d.blocks := by
        rw [hRun.eq]
        exact List.mem_append_left _ (List.mem_append_right _ ha)
      exact hNot (hShaped.tiled.eq_of_off haIn he hEq ▸ ha)
    · intro hNot hIn
      exact hNot e hIn rfl

/-- A chunk with no block in use is one free block, since it is coalesced. The code looks at
its first block only, and this is why that is enough. -/
theorem blocks_of_vacant (hShaped : c.Shaped) (hCoalesced : Coalesced c.blocks)
    (hVacant : vacant c = true) : c.blocks = [wholeBlock c.size] := by
  have hSize := hShaped.size_bounds
  have hWhole : Tiles firstOff c.size [wholeBlock c.size] := by
    refine ⟨rfl, ?_, ?_⟩
    · show 0 < c.size - 32
      omega
    · show 32 + (c.size - 32) = c.size
      omega
  apply hCoalesced.eq_of_used_eq (List.isChain_singleton _) hShaped.tiled hWhole
  rw [used_cons_free [] rfl, used_nil]
  exact List.isEmpty_iff.mp hVacant

/-- Dropping the vacant chunks restores the invariant. Their free blocks leave the free list
with them. -/
theorem Heap.Tidy.sweep (h : H.Tidy) : H.sweep.WF where
  shaped c hc := h.shaped c (List.mem_of_mem_filter hc)
  coalesced c hc := h.coalesced c (List.mem_of_mem_filter hc)
  ids := h.ids.sublist (List.filter_sublist.map _)
  old c hc := h.old c (List.mem_of_mem_filter hc)
  fits c hc := h.fits c (List.mem_of_mem_filter hc)
  freeNodup := h.freeNodup.filter _
  freeExact l := by
    show l ∈ H.free.filter (fun l => H.swept.all fun c => c.id ≠ l.chunk) ↔
      FreeIn (H.chunks.filter fun c => !vacant c) l
    rw [List.mem_filter, h.freeExact, List.all_eq_true]
    constructor
    · rintro ⟨⟨c, hc, hId, hRest⟩, hKept⟩
      refine ⟨c, List.mem_filter.mpr ⟨hc, ?_⟩, hId, hRest⟩
      cases hVacant : vacant c with
      | false => rfl
      | true =>
          have := hKept c (List.mem_filter.mpr ⟨hc, hVacant⟩)
          simp [hId] at this
    · rintro ⟨c, hc, hId, hRest⟩
      obtain ⟨hc, hVacant⟩ := List.mem_filter.mp hc
      refine ⟨⟨c, hc, hId, hRest⟩, fun d hd => ?_⟩
      obtain ⟨hd, hdVacant⟩ := List.mem_filter.mp hd
      rw [decide_eq_true_eq]
      intro hEq
      obtain rfl := List.inj_on_of_nodup_map h.ids hd hc (hEq.trans hId.symm)
      simp [hdVacant] at hVacant
  inUse c hc := by simpa using (List.mem_filter.mp hc).2

/-- `freeAt` keeps the invariant: what the release breaks, the sweep mends. -/
theorem Heap.WF.freeAt (h : H.WF) {l : Loc} (hUsed : UsedAt H.chunks l b) : (H.freeAt l).WF :=
  (h.toTidy.giveBack hUsed).sweep

/-- A release changes the chunk of the block alone. -/
theorem Heap.Tidy.giveBack_chunks (h : H.Tidy) {l : Loc} (hUsed : UsedAt H.chunks l b) :
    (H.giveBack l).chunks = updateChunk H.chunks l.chunk (release l.off) := by
  obtain ⟨hb, hOff, c, hc, hId, hbIn⟩ := hUsed
  obtain rfl : l = ⟨c.id, b.off⟩ := by rw [hId, hOff]
  obtain ⟨left, pre, post, right, hRun⟩ := exists_run (h.coalesced c hc) hbIn
  obtain ⟨start, stop, hLeft, hMid, hRight⟩ := hRun.tiles (h.shaped c hc).tiled
  rw [h.giveBack_eq hc hRun hb hLeft hMid hRight]

/-- A release keeps the chunks: none appears, goes or changes its size. -/
theorem Heap.giveBack_extent (H : Heap) (l : Loc) :
    (H.giveBack l).chunks.map Chunk.extent = H.chunks.map Chunk.extent := by
  unfold Heap.giveBack
  split
  · rfl
  · split
    · rfl
    · exact map_extent_updateChunk _ _ _

theorem Heap.giveBack_regions (H : Heap) (l : Loc) : (H.giveBack l).regions = H.regions := by
  unfold Heap.giveBack
  split
  · rfl
  · split <;> rfl

/-- After a release all used blocks but the released one are used as before, also those that
stood next to it. -/
theorem usedAt_giveBack (h : H.Tidy) {l k : Loc} {a : Block} (hUsed : UsedAt H.chunks l b) :
    UsedAt (H.giveBack l).chunks k a ↔ UsedAt H.chunks k a ∧ k ≠ l := by
  rw [h.giveBack_chunks hUsed]
  obtain ⟨hb, hOff, c, hc, hId, hbIn⟩ := hUsed
  obtain rfl : l = ⟨c.id, b.off⟩ := by rw [hId, hOff]
  have hRelease : ∀ a : Block, a.free = false →
      (a ∈ release b.off c.blocks ↔ a ∈ c.blocks ∧ a.off ≠ b.off) := by
    intro a ha
    have hBoth : a ∈ used (release b.off c.blocks) ↔ a ∈ used c.blocks ∧ a.off ≠ b.off := by
      rw [used_release, List.mem_filter, decide_eq_true_eq]
    rw [mem_used, mem_used] at hBoth
    tauto
  constructor
  · rintro ⟨ha, haOff, d, hd, hdId, haIn⟩
    rcases (mem_updateChunk h.ids hc).mp hd with rfl | ⟨hd, hNe⟩
    · obtain ⟨haIn, haNe⟩ := (hRelease a ha).mp haIn
      exact ⟨⟨ha, haOff, c, hc, hdId, haIn⟩, by rintro rfl; exact haNe haOff⟩
    · exact ⟨⟨ha, haOff, d, hd, hdId, haIn⟩, by rintro rfl; exact hNe hdId⟩
  · rintro ⟨⟨ha, haOff, d, hd, hdId, haIn⟩, hNe⟩
    refine ⟨ha, haOff, ?_⟩
    by_cases hdc : d.id = c.id
    · obtain rfl := List.inj_on_of_nodup_map h.ids hd hc hdc
      refine ⟨_, (mem_updateChunk h.ids hd).mpr (Or.inl rfl), hdId, (hRelease a ha).mpr ⟨haIn, ?_⟩⟩
      intro hEq
      exact hNe (by rw [hdId, ← hEq, haOff])
    · exact ⟨d, (mem_updateChunk h.ids hc).mpr (Or.inr ⟨hd, hdc⟩), hdId, haIn⟩

/-- Dropping the vacant chunks drops no block in use, as there is none in them. -/
theorem usedAt_sweep {k : Loc} {a : Block} :
    UsedAt H.sweep.chunks k a ↔ UsedAt H.chunks k a := by
  constructor
  · rintro ⟨ha, haOff, d, hd, hRest⟩
    exact ⟨ha, haOff, d, List.mem_of_mem_filter hd, hRest⟩
  · rintro ⟨ha, haOff, d, hd, hId, haIn⟩
    refine ⟨ha, haOff, d, List.mem_filter.mpr ⟨hd, ?_⟩, hId, haIn⟩
    rw [vacant_eq_false.mpr ⟨a, haIn, ha⟩]
    rfl

/-- Dropping the empty chunks drops no used block, so the same holds of the whole of
`mm_free`. -/
theorem usedAt_freeAt (h : H.Tidy) {l k : Loc} {a : Block} (hUsed : UsedAt H.chunks l b) :
    UsedAt (H.freeAt l).chunks k a ↔ UsedAt H.chunks k a ∧ k ≠ l :=
  usedAt_sweep.trans (usedAt_giveBack h hUsed)

/-- Giving a block back leaves its chunk vacant when it was the only one in use,
and leaves no other chunk vacant. -/
theorem Heap.WF.swept_giveBack (h : H.WF) {c : Chunk} (hc : c ∈ H.chunks) (hb : b ∈ c.blocks)
    (hUsed : b.free = false) : (H.giveBack ⟨c.id, b.off⟩).swept =
      if used c.blocks = [b] then [{ c with blocks := release b.off c.blocks }] else [] := by
  have hAt : UsedAt H.chunks ⟨c.id, b.off⟩ b := ⟨hUsed, rfl, c, hc, rfl, hb⟩
  have hTiled := (h.shaped c hc).tiled
  have hbUsed : b ∈ used c.blocks := mem_used.mpr ⟨hb, hUsed⟩
  have hVacant :
      vacant { c with blocks := release b.off c.blocks } = true ↔ used c.blocks = [b] := by
    show (used (release b.off c.blocks)).isEmpty = true ↔ _
    rw [used_release, List.isEmpty_iff, List.filter_eq_nil_iff]
    constructor
    · intro hOnly
      refine List.eq_singleton_of_nodup (hTiled.nodup.filter _) hbUsed fun a ha => ?_
      exact hTiled.eq_of_off (mem_used.mp ha).1 hb (by simpa using hOnly a ha)
    · intro hOnly a ha
      rw [hOnly, List.mem_singleton] at ha
      simp [ha]
  have hSwept : ∀ d ∈ (H.giveBack ⟨c.id, b.off⟩).swept,
      d = { c with blocks := release b.off c.blocks } ∧ vacant d = true := by
    intro d hd
    obtain ⟨hd, hdVacant⟩ := List.mem_filter.mp hd
    rw [h.giveBack_chunks hAt] at hd
    rcases (mem_updateChunk h.ids hc).mp hd with hEq | ⟨hOld, -⟩
    · exact ⟨hEq, hdVacant⟩
    · rw [h.inUse d hOld] at hdVacant
      cases hdVacant
  split
  · next hOnly =>
      refine List.eq_singleton_of_nodup ((h.giveBack hAt).ids.of_map.filter _) ?_ fun d hd =>
        (hSwept d hd).1
      refine List.mem_filter.mpr ⟨?_, hVacant.mpr hOnly⟩
      rw [h.giveBack_chunks hAt]
      exact (mem_updateChunk h.ids hc).mpr (Or.inl rfl)
  · next hOthers =>
      refine List.eq_nil_iff_forall_not_mem.mpr fun d hd => ?_
      obtain ⟨rfl, hdVacant⟩ := hSwept d hd
      exact hOthers (hVacant.mp hdVacant)

/-- A request keeps the chunks, up to a new one. So the addresses of all blocks stay what they
were. -/
theorem Heap.extent_of_malloc {d : Chunk} {req : Nat} (hd : d ∈ (H.malloc req).2.chunks) :
    d.id = H.regions ∨ ∃ c ∈ H.chunks, c.id = d.id ∧ c.size = d.size := by
  unfold Heap.malloc at hd
  split at hd
  · exact Or.inr (exists_of_extent (map_extent_updateChunk _ _ _) hd)
  · cases hd with
    | head => exact Or.inl rfl
    | tail _ hd => exact Or.inr ⟨d, hd, rfl, rfl⟩

/-- What is left after `mm_free` are chunks that were there, of the sizes that they had. -/
theorem Heap.extent_of_freeAt {l : Loc} {d : Chunk} (hd : d ∈ (H.freeAt l).chunks) :
    ∃ c ∈ H.chunks, c.id = d.id ∧ c.size = d.size :=
  exists_of_extent (H.giveBack_extent l) (List.mem_of_mem_filter hd)

end Free

end Malloc
