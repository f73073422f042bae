import Coursework.Malloc.Runs
import Coursework.Malloc.View

/-! When memory goes back to the operating system. -/

namespace Malloc

open Tiling Bytes

section Walk

variable {π : Nat → Nat} {s : Process} {H : Heap} {c : Chunk}

/-- With one vacant chunk on the page list, `check_and_unmap_full_pages` comes
down to one call of `mem_unmap`, after which the walk only reads. -/
theorem checkAndUnmapFullPages_one (h : Rep π s H.chunks H.free) (hTidy : H.Tidy)
    (hOne : H.swept = [c]) : ∃ u t steps next,
      checkAndUnmapFullPages s = (memUnmap (π c.id) c.size >>= fun _ =>
        checkAndUnmapFullPagesLoop steps next) u ∧
      memUnmap (π c.id) c.size u = .ok ((), t) ∧
      checkAndUnmapFullPagesLoop steps next t = .ok ((), t) ∧
      ∀ x ∈ span (π c.id) c.size, t.os.mapped (x / apageSize) = false := by
  obtain ⟨pre, post, hChunks, hPre, hVacant, hPost⟩ := List.filter_eq_cons_iff.mp hOne
  have hc : c ∈ H.chunks := by simp [hChunks]
  have hCoalesced : ∀ d ∈ pre ++ c :: post, Coalesced d.blocks := fun d hd =>
    hTidy.coalesced d (hChunks ▸ hd)
  have hWhole := blocks_of_vacant (hTidy.shaped c hc) (hTidy.coalesced c hc) hVacant
  have hFree : ⟨c.id, firstOff⟩ ∈ H.free :=
    (hTidy.freeExact _).mpr ⟨c, hc, rfl, wholeBlock c.size, by simp [hWhole], rfl, rfl⟩
  have hLength := h.pageList.length_lt h.layout.spaced_chunks
  rw [hChunks, List.length_map, List.length_append, List.length_cons] at hLength
  have hAligned := h.layout.aligned c hc
  obtain ⟨u, hUnmap, hReturns⟩ := unmapFullPage_eq h hTidy.freeNodup hc hWhole hFree
  obtain ⟨_, t, hRun, hRep, -, hOs, -⟩ := Program.returns_iff.mp hReturns
  have hErase : H.chunks.erase c = pre ++ post := by
    have hNot := (List.nodup_append.mp (hChunks ▸ h.layout.nodup)).2.2
    rw [hChunks, List.erase_append_right _ fun hIn => hNot c hIn c (by simp) rfl,
      List.erase_cons_head]
  obtain ⟨rest, hRest⟩ : ∃ n, walkBound = pre.length + (post.length + (n + 1) + 1) :=
    ⟨walkBound - pre.length - post.length - 2, by omega⟩
  have hHead : s.pageListHead = ((pre ++ c :: post).map fun c => π c.id).headD 0 := by
    rw [← hChunks]
    exact h.pageList.head_eq
  have hStart : checkAndUnmapFullPages s =
      checkAndUnmapFullPagesLoop walkBound s.pageListHead s := rfl
  refine ⟨u, t, post.length + (rest + 1), (post.map fun c => π c.id).headD 0, ?_, hRun, ?_, ?_⟩
  · rw [hChunks] at h
    rw [hStart, hHead, hRest, checkAndUnmapFullPagesLoop_skip [] pre h
        (fun d hd => hCoalesced d (by simp [hd])) (fun d hd => by simpa using hPre d hd),
      List.map_cons, List.headD_cons,
      checkAndUnmapFullPagesLoop_cons h (hCoalesced c (by simp)), if_pos hVacant]
    exact Program.bind_congr hUnmap
  · rw [hErase] at hRep
    rw [← List.append_nil (pre ++ post)] at hRep
    have hSkip := checkAndUnmapFullPagesLoop_skip pre post hRep
      (fun d hd => hCoalesced d (by simp [hd]))
      (fun d hd => by simpa using List.filter_eq_nil_iff.mp hPost d hd) (rest + 1)
    rw [List.append_nil] at hSkip
    rw [hSkip]
    rfl
  · intro x hx
    rw [hOs, OS.mapped_setRange hAligned (h.layout.shaped c hc).paged]
    exact if_pos hx

end Walk

/-- The payload addresses of the allocated blocks of a chunk. -/
def ChunkView.allocated (d : ChunkView) : List Nat :=
  (d.blocks.filter fun b => b.allocated ≠ 0).map fun b => b.addr + 16

/-- `mm_free` of `ptr` calls `mem_unmap` once, with what `mem_map` returned and
was given for the chunk `d`. The call of `mem_unmap` leaves the final state `t`,
in which every access to the chunk would be to an unmapped page, and the walk
over the page list goes on from there without an error. -/
structure Unmaps (s t : Process) (ptr : Nat) (d : ChunkView) : Prop where
  once : t.calls = s.calls ++ [.unmap d.base d.size]
  mapped : ∃ pre post, s.calls = pre ++ .map d.base d.size :: post ∧ ∀ n, .unmap d.base n ∉ post
  last : ∃ u steps next,
    mmFree ptr s = (memUnmap d.base d.size >>= fun _ => checkAndUnmapFullPagesLoop steps next) u ∧
    memUnmap d.base d.size u = .ok ((), t) ∧ checkAndUnmapFullPagesLoop steps next t = .ok ((), t)
  unmapped : ∀ x ∈ span d.base d.size, t.os.mapped (x / apageSize) = false

section Reached

variable {π : Nat → Nat} {K : Kernel} {requests : List Request} {c : Config} {a : Ideal}
  {t : Process}

/-- The only block of a chunk: `mm_free` unmaps the chunk, once, with the address and the size
that `mem_map` gave for it. -/
theorem Simulates.unmaps (h : Simulates π c a) {d : Chunk} {b : Block} (hd : d ∈ a.heap.chunks)
    (hb : b ∈ d.blocks) (hUsed : b.free = false) (hOnly : used d.blocks = [b])
    (hRun : mmFree (Loc.payload π ⟨d.id, b.off⟩) c.process = .ok ((), t)) :
    Unmaps c.process t (Loc.payload π ⟨d.id, b.off⟩) (d.view π) := by
  have hTidy := h.inv.wf.toTidy
  have hAt : UsedAt a.heap.chunks ⟨d.id, b.off⟩ b := ⟨hUsed, rfl, d, hd, rfl, hb⟩
  have hFreed := (mmFree_returns h.rep hTidy hAt).of_ok hRun
  have hSwept := h.inv.wf.swept_giveBack hd hb hUsed
  rw [if_pos hOnly] at hSwept
  obtain ⟨m, head, hCall, hRep, -⟩ := mmFree_eq h.rep hTidy hAt
  obtain ⟨u, t', steps, next, hLast, hUnmap, hRest, hUnmapped⟩ :=
    checkAndUnmapFullPages_one hRep (hTidy.giveBack hAt) hSwept
  have hSame : t' = t := by
    have hWhole := hRun
    rw [hCall, hLast, Program.bind_ok hUnmap, hRest] at hWhole
    exact (Prod.mk.inj (Except.ok.inj hWhole)).2
  subst hSame
  refine ⟨?_, ?_, ⟨u, steps, next, hCall.trans hLast, hUnmap, hRest⟩, hUnmapped⟩
  · rw [hFreed.calls, hSwept]
    rfl
  · apply Ledger.exists_map c.process.calls (d.mapping π)
    rw [h.record]
    exact List.mem_map_of_mem hd

/-- A block with others in its chunk: `mm_free` makes no call to `memlib.c`. -/
theorem Simulates.keeps_mapped (h : Simulates π c a) {d : Chunk} {b : Block}
    (hd : d ∈ a.heap.chunks) (hb : b ∈ d.blocks) (hUsed : b.free = false)
    (hOthers : used d.blocks ≠ [b])
    (hRun : mmFree (Loc.payload π ⟨d.id, b.off⟩) c.process = .ok ((), t)) :
    t.calls = c.process.calls := by
  have hTidy := h.inv.wf.toTidy
  have hAt : UsedAt a.heap.chunks ⟨d.id, b.off⟩ b := ⟨hUsed, rfl, d, hd, rfl, hb⟩
  have hFreed := (mmFree_returns h.rep hTidy hAt).of_ok hRun
  have hSwept := h.inv.wf.swept_giveBack hd hb hUsed
  rw [if_neg hOthers] at hSwept
  rw [hFreed.calls, hSwept, List.map_nil, List.append_nil]

/-- What memory shows as the allocated blocks of a chunk are the payloads of its used
blocks. -/
theorem Chunk.allocated_view (π : Nat → Nat) (d : Chunk) :
    (d.view π).allocated = (used d.blocks).map fun b => π d.id + b.off + 16 := by
  have hFlag : ∀ b ∈ d.blocks, decide ((Block.view (π d.id) b).allocated ≠ 0) = !b.free := by
    intro b _
    cases hFree : b.free <;> simp [Block.view, hFree]
  rw [ChunkView.allocated, Chunk.view, List.filter_map, List.map_map, used,
    List.filter_congr (q := fun b => !b.free) hFlag]
  rfl

/-- With nothing held there is no chunk and no free block, and every region that
was mapped has been unmapped. -/
theorem Simulates.all_returned (h : Simulates π c a) (hBalanced : a.Balanced)
    (hLive : c.live = []) :
    c.process.pageListHead = 0 ∧ c.process.freeListHead = 0 ∧
      (a.calls.filterMap RegionCall.unmapped).Perm (a.calls.filterMap RegionCall.mapped) ∧
      ((a.calls.filterMap RegionCall.unmapped).map Prod.fst).Nodup := by
  have hNone : a.live = [] := List.map_eq_nil_iff.mp (h.live.symm.trans hLive)
  have hChunks : a.heap.chunks = [] := by
    refine List.eq_nil_iff_forall_not_mem.mpr fun d hd => ?_
    obtain ⟨b, hb, hUsed⟩ := vacant_eq_false.mp (h.inv.wf.inUse d hd)
    obtain ⟨e, he, -⟩ := h.inv.owned ⟨d.id, b.off⟩ b ⟨hUsed, rfl, d, hd, rfl, hb⟩
    rw [hNone] at he
    cases he
  have hFree : a.heap.free = [] := by
    refine List.eq_nil_iff_forall_not_mem.mpr fun l hl => ?_
    obtain ⟨d, hd, -⟩ := (h.inv.wf.freeExact l).mp hl
    rw [hChunks] at hd
    cases hd
  have hCalls := hBalanced.calls
  rw [hChunks, List.map_nil, List.append_nil] at hCalls
  refine ⟨?_, ?_, hCalls.symm, ?_⟩
  · have hHead := h.rep.pageList.head_eq
    rwa [hChunks] at hHead
  · have hHead := h.rep.freeList.head_eq
    rwa [hFree] at hHead
  · have hRegions : ((a.calls.filterMap RegionCall.mapped).map Prod.fst).Nodup := by
      rw [hBalanced.regions]
      exact List.nodup_range.map fun _ _ hEq => Option.some.inj hEq
    exact (hCalls.symm.map Prod.fst).nodup_iff.mpr hRegions

/-- Every chunk has a block in use. A call of `mm_free` unmaps the chunk of its
argument exactly when that was the last one, and once everything is freed both
lists are empty and every region was unmapped once. -/
theorem memory_returned (h : Reachable K requests c) : ∃ v, Shows c.process v ∧
    (∀ d ∈ v.chunks, ∃ b ∈ d.blocks, b.allocated ≠ 0) ∧
    (∀ e ∈ c.live, ∃ d ∈ v.chunks, e.ptr ∈ d.allocated ∧
      ∃ t, mmFree e.ptr c.process = .ok ((), t) ∧
        if d.allocated = [e.ptr] then Unmaps c.process t e.ptr d else t.calls = c.process.calls) ∧
    (c.live = [] → c.process.pageListHead = 0 ∧ c.process.freeListHead = 0 ∧
      let calls := (ledger c.process.calls).calls
      (calls.filterMap RegionCall.unmapped).Perm (calls.filterMap RegionCall.mapped) ∧
        ((calls.filterMap RegionCall.unmapped).map Prod.fst).Nodup) := by
  obtain ⟨π, hSim⟩ := h.simulates
  have hTidy := hSim.inv.wf.toTidy
  refine ⟨_, hSim.rep.shows, ?_, ?_, ?_⟩
  · intro _ hx
    obtain ⟨d, hd, rfl⟩ := List.mem_map.mp hx
    obtain ⟨b, hb, hUsed⟩ := vacant_eq_false.mp (hSim.inv.wf.inUse d hd)
    exact ⟨_, List.mem_map_of_mem hb, by simp [Block.view, hUsed]⟩
  · intro e he
    obtain ⟨l, hl, rfl⟩ := hSim.mem_live.mp he
    obtain ⟨b, hAt, -⟩ := hSim.inv.held l hl
    obtain ⟨d, hd, hb, hLoc, -, -⟩ := hSim.rep.layout.payload_bounds hAt
    have hbUsed : b ∈ used d.blocks := mem_used.mpr ⟨hb, hAt.1⟩
    have hPtr : (l.at π).ptr = Loc.payload π ⟨d.id, b.off⟩ := congrArg (Loc.payload π) hLoc
    obtain ⟨_, t, hRun, -⟩ := Program.returns_iff.mp (mmFree_returns hSim.rep hTidy hAt)
    rw [hLoc] at hRun
    rw [hPtr]
    refine ⟨d.view π, List.mem_map_of_mem hd, ?_, t, hRun, ?_⟩
    · rw [Chunk.allocated_view]
      exact List.mem_map_of_mem hbUsed
    · rw [Chunk.allocated_view]
      split
      · next hOnly =>
          obtain ⟨f, hf⟩ := List.length_eq_one_iff.mp (by
            rw [← List.length_map, hOnly]
            rfl : (used d.blocks).length = 1)
          obtain rfl : b = f := by simpa [hf] using hbUsed
          exact hSim.unmaps hd hb hAt.1 hf hRun
      · next hOthers =>
          refine hSim.keeps_mapped hd hb hAt.1 (fun hOnly => hOthers ?_) hRun
          rw [hOnly]
          rfl
  · intro hLive
    have hRecord : (ledger c.process.calls).calls = (Ideal.run requests).calls := by
      rw [hSim.record]
    rw [hRecord]
    exact hSim.all_returned (Ideal.balanced_run requests) hLive

theorem memory_returned_sample : ∃ (c : Config) (v : View), c.live = [⟨1, 8589934704, 100⟩] ∧
    Shows c.process v ∧ ∃ d ∈ v.chunks, ∃ t, mmFree 8589934704 c.process = .ok ((), t) ∧
      if d.allocated = [8589934704] then Unmaps c.process t 8589934704 d
      else t.calls = c.process.calls := by
  obtain ⟨c, hReached, hLive⟩ := exists_sample 0
  have hHeld : (⟨1, 8589934704, 100⟩ : Live) ∈ c.live := hLive ▸ List.mem_cons_self
  obtain ⟨v, hView, -, hFree, -⟩ := memory_returned hReached
  obtain ⟨d, hd, -, hCall⟩ := hFree _ hHeld
  exact ⟨c, v, hLive, hView, d, hd, hCall⟩

end Reached

end Malloc
