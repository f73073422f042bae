import Coursework.Malloc.Runs
import Coursework.Malloc.View

/-! Freeing what was just allocated restores the heap. -/

namespace Malloc

open Tiling Bytes

section Undo

variable {H : Heap} {req : Nat} {l : Loc}

/-- A change that leaves the blocks of its chunk alone changes nothing. -/
theorem updateChunk_eq_self {cs : List Chunk} {id : Nat} {f : List Block → List Block}
    (h : ∀ c ∈ cs, c.id = id → f c.blocks = c.blocks) : updateChunk cs id f = cs := by
  refine (List.map_congr_left fun c hc => ?_).trans (List.map_id cs)
  split
  · next hId => rw [h c hc hId]; rfl
  · rfl

/-- The chunks after a free block was given to a request and given back. Coalescing joins the
parts again, also where the block was split. -/
theorem Heap.WF.giveBack_reuse (h : H.WF) (hReq : 0 < req) (hl : l ∈ H.free)
    (hFits : need req ≤ sizeAt H.chunks l) : ((H.reuse req l).giveBack l).chunks = H.chunks := by
  obtain ⟨_, -, hUsed⟩ := usedAt_reuse h.toTidy hReq hl hFits
  rw [(h.reuse hReq hl hFits).toTidy.giveBack_chunks ((hUsed l _).mpr (Or.inr ⟨rfl, rfl⟩))]
  show updateChunk (updateChunk _ _ _) _ _ = _
  rw [updateChunk_updateChunk]
  obtain ⟨c, hc, left, b, right, rfl, hBlocks, hFree, hSizeAt⟩ := h.toTidy.free_split hl
  have hTiled := (h.shaped c hc).tiled
  have hCoalesced := h.coalesced c hc
  have hNeed := need_bounds hReq
  refine updateChunk_eq_self fun d hd hId => ?_
  obtain rfl := List.inj_on_of_nodup_map h.ids hd hc hId
  rw [hBlocks] at hTiled hCoalesced
  rw [Function.comp_apply, hBlocks, carve_eq hTiled]
  exact release_carve hTiled hCoalesced hFree (by omega) (hSizeAt ▸ hFits) (by decide) req

/-- The chunks after a new chunk was created for a request and its first block
given back. -/
theorem Heap.WF.giveBack_grow (h : H.WF) (hReq : 0 < req) :
    ((H.grow req).giveBack ⟨H.regions, firstOff⟩).chunks =
      freshChunk H.regions (regionSize req) :: H.chunks := by
  obtain ⟨_, -, hUsed⟩ := usedAt_grow H hReq
  rw [(h.grow hReq).toTidy.giveBack_chunks ((hUsed _ _).mpr (Or.inr ⟨rfl, rfl⟩))]
  have hNeed := need_bounds hReq
  obtain ⟨-, hRoom, -⟩ := regionSize_bounds req
  have hFirst : firstOff = 32 := rfl
  have hWhole : (wholeBlock (regionSize req)).size = regionSize req - 32 := rfl
  have hTiled : Tiles firstOff (wholeBlock (regionSize req)).stop
      ([] ++ wholeBlock (regionSize req) :: []) := ⟨rfl, by omega, rfl⟩
  have hRelease :
      release firstOff (newChunk H.regions req).blocks = [wholeBlock (regionSize req)] := by
    have hUndo := release_carve hTiled (List.isChain_singleton _) rfl (by omega : 0 < need req)
      (by omega) (by decide : 0 < splitLeast) req
    rwa [List.nil_append, List.nil_append, List.append_nil] at hUndo
  show updateChunk (newChunk H.regions req :: H.chunks) H.regions _ = _
  rw [updateChunk, List.map_cons, if_pos (by rfl), hRelease]
  refine congrArg (_ :: ·) (updateChunk_eq_self fun c hc hId => ?_)
  exact absurd hId (Nat.ne_of_lt (h.old c hc))

/-- A new chunk has no block in use before the request is served from it. -/
theorem vacant_freshChunk (id sz : Nat) : vacant (freshChunk id sz) = true := rfl

/-- The chunks with no block in use after a request was served and undone: the new chunk if
there was one, and no other. -/
theorem Heap.WF.swept_undo (h : H.WF) (hReq : 0 < req) :
    ((H.malloc req).2.giveBack (H.malloc req).1).swept =
      if (H.fit req).isNone then [freshChunk H.regions (regionSize req)] else [] := by
  have hNone : H.chunks.filter vacant = [] :=
    List.filter_eq_nil_iff.mpr fun c hc => by simp [h.inUse c hc]
  unfold Heap.malloc Heap.swept
  cases hFit : H.fit req with
  | some l =>
      have hFits := List.find?_some hFit
      rw [decide_eq_true_eq] at hFits
      exact (congrArg _ (h.giveBack_reuse hReq (List.mem_of_find?_eq_some hFit) hFits)).trans hNone
  | none =>
      apply (congrArg _ (h.giveBack_grow hReq)).trans
      rw [List.filter_cons_of_pos (vacant_freshChunk _ _), hNone]
      rfl

/-- Giving back what a request got restores the chunks. The free list may have another order,
and that is all. -/
theorem Heap.WF.freeAt_malloc (h : H.WF) (hReq : 0 < req) :
    ((H.malloc req).2.freeAt (H.malloc req).1).chunks = H.chunks := by
  have hKept : (H.chunks.filter fun c => !vacant c) = H.chunks :=
    List.filter_eq_self.mpr fun c hc => by simp [h.inUse c hc]
  unfold Heap.malloc Heap.freeAt Heap.sweep
  cases hFit : H.fit req with
  | some l =>
      have hFits := List.find?_some hFit
      rw [decide_eq_true_eq] at hFits
      exact (congrArg _ (h.giveBack_reuse hReq (List.mem_of_find?_eq_some hFit) hFits)).trans hKept
  | none =>
      apply (congrArg _ (h.giveBack_grow hReq)).trans
      rw [List.filter_cons_of_neg (by rw [vacant_freshChunk]; decide), hKept]

end Undo

section Reached

variable {π : Nat → Nat} {K : Kernel} {requests : List Request} {c : Config}

/-- `mm_free` of what `mm_malloc` just returned brings back every block of every
chunk and the members of the free list. A chunk that was mapped for the request is
unmapped, and no other chunk is. -/
theorem free_undoes_malloc {size p : Nat} {t : Process} (h : Reachable K requests c)
    (hPos : 0 < size) (hBound : size + 4174 < 2 ^ 64)
    (hMalloc : mmMalloc K size c.process = .ok (p, t)) :
    ∃ u v w, mmFree p t = .ok ((), u) ∧ Shows c.process v ∧ Shows u w ∧
      w.chunks = v.chunks ∧ w.free.Perm v.free ∧
      ((t.calls = c.process.calls ∧ u.calls = t.calls) ∨
        ∃ base sz, t.calls = c.process.calls ++ [.map base sz] ∧
          u.calls = t.calls ++ [.unmap base sz] ∧
          ∀ x ∈ span base sz, u.os.mapped (x / apageSize) = false) := by
  obtain ⟨π, hSim⟩ := h.simulates
  have hWF := hSim.inv.wf
  have hTidy := hWF.toTidy
  obtain ⟨π', hServed⟩ := (mmMalloc_meets hSim.rep hTidy hPos hBound).of_ok hMalloc
  obtain ⟨_, -, hUsed⟩ := usedAt_malloc hTidy hPos
  have hAt := (hUsed _ _).mpr (Or.inr ⟨rfl, rfl⟩)
  have hServedTidy := (hWF.malloc hPos).toTidy
  obtain ⟨_, u, hFree, hFreed⟩ :=
    Program.returns_iff.mp (mmFree_returns hServed.rep hServedTidy hAt)
  rw [← hServed.result] at hFree
  have hChunks := hWF.freeAt_malloc hPos
  have hPerm := ((hWF.malloc hPos).freeAt hAt).toTidy.free_perm hTidy hChunks
  have hOld : ∀ d ∈ (Ideal.run requests).heap.chunks, π' d.id = π d.id := fun d hd =>
    hServed.bases _ (hTidy.old d hd)
  refine ⟨u, _, _, hFree, hSim.rep.shows, hFreed.rep.shows, ?_, ?_, ?_⟩
  · rw [hChunks]
    exact List.map_congr_left fun d hd => by rw [Chunk.view, Chunk.view, hOld d hd]
  · show (List.map _ _).Perm (List.map _ _)
    rw [← map_payload hSim.rep.freeLocs hOld]
    exact hPerm.map _
  · have hSwept := hWF.swept_undo hPos
    have hCalls := hServed.calls
    have hFreedCalls := hFreed.calls
    rw [hSwept] at hFreedCalls
    split at hCalls
    · next hNone =>
        rw [if_pos hNone] at hFreedCalls hSwept
        refine Or.inr ⟨_, _, hCalls, hFreedCalls, fun x hx => ?_⟩
        rw [hFreed.mapped, hSwept]
        simp [freshChunk, hx.1, hx.2]
    · next hSome =>
        rw [if_neg hSome] at hFreedCalls
        rw [List.append_nil] at hCalls
        exact Or.inl ⟨hCalls, by rw [hFreedCalls, List.map_nil, List.append_nil]⟩

theorem free_undoes_malloc_sample : ∃ (c : Config) (t u : Process) (v w : View),
    c.live = [⟨0, 8589934640, 24⟩] ∧
    mmMalloc (Kernel.firstFit 0) 100 c.process = .ok (8589934704, t) ∧
    mmFree 8589934704 t = .ok ((), u) ∧ Shows c.process v ∧ Shows u w ∧ w.chunks = v.chunks := by
  obtain ⟨c, t, hReached, hLive, -, hServed⟩ := exists_served 0
  obtain ⟨u, v, w, hFree, hBefore, hAfter, hChunks, -⟩ :=
    free_undoes_malloc hReached (by decide) (by decide) hServed
  exact ⟨c, t, u, v, w, hLive, hServed, hFree, hBefore, hAfter, hChunks⟩

end Reached

end Malloc
