import Coursework.Malloc.Safety
import Mathlib.Algebra.Order.BigOperators.Group.List
import Mathlib.Algebra.Order.Ring.Nat

/-! How long the lists of the allocator get, and how far its walks go. -/

namespace Malloc

open Tiling Bytes

/-- The lists are as short as the number of held blocks allows. -/
structure View.Short (live : List Live) (v : View) : Prop where
  chunks : v.chunks.length ≤ live.length
  vacancies : ∀ d ∈ v.chunks, d.blocks.countP (fun b => b.allocated = 0) ≤
    live.countP (fun e => d.base ≤ e.ptr ∧ e.ptr < d.stop) + 1
  free : v.free.length ≤ 2 * live.length

section Count

variable {π : Nat → Nat} {os : OS} {a : Ideal} {c : Chunk} {b : Block}

theorem Block.view_allocated (base : Nat) (b : Block) :
    (b.view base).allocated = 0 ↔ b.free = true := by
  cases hFree : b.free <;> simp [Block.view, hFree]

/-- The used blocks of a chunk are those that the client holds in it, each for one lease. -/
theorem Ideal.Inv.leases_perm (h : a.Inv) (hc : c ∈ a.heap.chunks) :
    ((a.live.filter fun e => e.loc.chunk = c.id).map Lease.loc).Perm
      (c.places (used c.blocks)) := by
  have hShaped := h.wf.shaped c hc
  have hPlaces : (c.places (used c.blocks)).Nodup := by
    refine (hShaped.tiled.nodup.filter _).map_on fun x hx y hy hEq => ?_
    exact hShaped.tiled.eq_of_off (List.mem_of_mem_filter hx) (List.mem_of_mem_filter hy)
      (congrArg Loc.off hEq)
  apply (List.perm_ext_iff_of_nodup (h.locs.sublist (List.filter_sublist.map _)) hPlaces).mpr
  intro l
  simp only [Chunk.places, List.mem_map, List.mem_filter, decide_eq_true_eq]
  constructor
  · rintro ⟨e, ⟨he, hChunk⟩, rfl⟩
    obtain ⟨b, ⟨hUsed, hOff, d, hd, hId, hb⟩, -⟩ := h.held e he
    obtain rfl := List.inj_on_of_nodup_map h.wf.ids hd hc (hId.trans hChunk)
    exact ⟨b, mem_used.mpr ⟨hb, hUsed⟩, by rw [hId, hOff]⟩
  · rintro ⟨b, hb, rfl⟩
    obtain ⟨hb, hUsed⟩ := mem_used.mp hb
    obtain ⟨e, he, hLoc⟩ := h.owned ⟨c.id, b.off⟩ b ⟨hUsed, rfl, c, hc, rfl, hb⟩
    exact ⟨e, ⟨he, by rw [hLoc]⟩, hLoc⟩

/-- A held payload lies in the chunk of its place and in no other, so that it is counted
once. -/
theorem Ideal.Inv.payload_in_chunk (h : a.Inv) (hLayout : Layout π os a.heap.chunks) {e : Lease}
    (he : e ∈ a.live) (hc : c ∈ a.heap.chunks) :
    (π c.id ≤ e.loc.payload π ∧ e.loc.payload π < π c.id + c.size) ↔ e.loc.chunk = c.id := by
  obtain ⟨b, hUsed, -⟩ := h.held e he
  obtain ⟨d, hd, hb, hLoc, hAddr, hLow, hSize, hHigh⟩ := hLayout.payload_bounds hUsed
  rw [hAddr, hLoc]
  constructor
  · rintro ⟨hAbove, hBelow⟩
    by_contra hNe
    have hApart := hLayout.apart d hd c hc (fun hEq => hNe (by rw [hEq]))
    unfold Apart at hApart
    omega
  · intro hId
    have hId : d.id = c.id := hId
    obtain rfl := hLayout.eq_of_id hd hc hId
    omega

/-- The live pointers into a chunk are as many as its used blocks. -/
theorem Ideal.Inv.countP_used (h : a.Inv) (hLayout : Layout π os a.heap.chunks)
    (hc : c ∈ a.heap.chunks) : (a.live.map (Lease.at π)).countP
      (fun e => π c.id ≤ e.ptr ∧ e.ptr < π c.id + c.size) = (used c.blocks).length := by
  have hLength := (h.leases_perm hc).length_eq
  rw [List.length_map, Chunk.places, List.length_map] at hLength
  rw [← hLength, List.countP_map, List.countP_eq_length_filter]
  refine congrArg _ (List.filter_congr fun e he => ?_)
  exact decide_eq_decide.mpr (h.payload_in_chunk hLayout he hc)

/-- The held blocks are counted chunk by chunk. -/
theorem Ideal.Inv.sum_used (h : a.Inv) (hLayout : Layout π os a.heap.chunks) :
    (a.heap.chunks.map fun c => (used c.blocks).length).sum = a.live.length := by
  have hLength := (h.allocated_perm hLayout).length_eq
  rw [List.length_map, View.allocated, List.length_map, ← List.countP_eq_length_filter, View.blocks,
    List.countP_flatMap, view, List.map_map] at hLength
  rw [← hLength]
  refine congrArg _ (List.map_congr_left fun c hc => ?_)
  rw [Function.comp_apply, Function.comp_apply, Chunk.view, List.countP_map, used,
    ← List.countP_eq_length_filter]
  refine List.countP_congr fun b hb => ?_
  cases hFree : b.free <;> simp [Block.view, hFree]

/-- The free list is as long as there are free blocks, chunk by chunk. -/
theorem Heap.Tidy.length_free {H : Heap} (hTidy : H.Tidy) (h : Layout π os H.chunks) :
    H.free.length = (H.chunks.map fun c => c.blocks.countP Segment.free).sum := by
  have hLength := (hTidy.vacancies_perm h).length_eq
  rw [view, List.length_map, View.vacancies, List.length_map, ← List.countP_eq_length_filter,
    View.blocks, List.countP_flatMap, List.map_map] at hLength
  rw [hLength]
  refine congrArg _ (List.map_congr_left fun c hc => ?_)
  rw [Function.comp_apply, Function.comp_apply, Chunk.view, List.countP_map]
  refine List.countP_congr fun b hb => ?_
  simp [Block.view_allocated]

/-- Every chunk holds a block that is in use. So there are no more chunks than there are held
blocks. -/
theorem Heap.WF.length_chunks_le {H : Heap} (h : H.WF) :
    H.chunks.length ≤ (H.chunks.map fun c => (used c.blocks).length).sum := by
  have hOne : ∀ c ∈ H.chunks, 1 ≤ (used c.blocks).length := by
    intro c hc
    obtain ⟨b, hb, hUsed⟩ := vacant_eq_false.mp (h.inUse c hc)
    exact List.length_pos_of_mem (mem_used.mpr ⟨hb, hUsed⟩)
  have hSum := List.sum_le_sum hOne
  rwa [List.map_const', List.sum_replicate_nat, Nat.mul_one] at hSum

/-- No chunk has more than one free block to spare, since between two free blocks there is a
used one. -/
theorem Heap.WF.sum_free_le {H : Heap} (h : H.WF) :
    (H.chunks.map fun c => c.blocks.countP Segment.free).sum ≤
      (H.chunks.map fun c => (used c.blocks).length).sum + H.chunks.length := by
  have hSum := List.sum_le_sum fun c hc => (h.coalesced c hc).countP_free_le
  rwa [List.sum_map_add, List.map_const', List.sum_replicate_nat, Nat.mul_one] at hSum

end Count

section Reached

variable {π : Nat → Nat} {K : Kernel} {requests : List Request} {c : Config} {a : Ideal}

/-- Both lists are short: a chunk has a used block, and between two used blocks there is one
free block at most. -/
theorem Simulates.short (h : Simulates π c a) :
    (view π a.heap.chunks a.heap.free).Short c.live := by
  have hLayout := h.rep.layout
  have hSum := h.inv.sum_used hLayout
  have hChunks := h.inv.wf.length_chunks_le
  have hFree := h.inv.wf.sum_free_le
  have hLive : c.live.length = a.live.length := by rw [h.live, List.length_map]
  refine ⟨?_, ?_, ?_⟩
  · rw [view, List.length_map]
    omega
  · intro v hv
    obtain ⟨d, hd, rfl⟩ := List.mem_map.mp hv
    have hCount := (h.inv.wf.coalesced d hd).countP_free_le
    rw [← h.inv.countP_used hLayout hd, ← h.live] at hCount
    refine Nat.le_trans (Nat.le_of_eq ?_) hCount
    rw [Chunk.view, List.countP_map]
    refine List.countP_congr fun b hb => ?_
    simp [Block.view_allocated]
  · rw [view, List.length_map, h.inv.wf.toTidy.length_free hLayout]
    omega

/-- Walks that are cut off after `2 * L + 1` nodes get to the end of both lists. Both bounds
above are used for it. -/
theorem Simulates.covered (h : Simulates π c a) : a.heap.Covered (2 * c.live.length + 1) := by
  obtain ⟨hChunks, -, hFree⟩ := h.short
  rw [view, List.length_map] at hChunks hFree
  exact ⟨Or.inr (by omega), Or.inr (by omega)⟩

/-- With `L` held blocks there are at most `L` chunks, each with at most one free
block more than it has held ones, and `2 * L` free blocks, and every walk of
`mm_malloc` and `mm_free` visits at most `2 * L + 1` nodes. -/
theorem lists_bounded (h : Reachable K requests c) :
    (∃ v, Shows c.process v ∧ v.Short c.live) ∧
    (∀ size, size + 4174 < 2 ^ 64 →
      mmMallocWithin (2 * c.live.length + 1) K size c.process = mmMalloc K size c.process) ∧
    (∀ e ∈ c.live,
      mmFreeWithin (2 * c.live.length + 1) e.ptr c.process = mmFree e.ptr c.process) ∧
    mmFreeWithin (2 * c.live.length + 1) 0 c.process = mmFree 0 c.process := by
  obtain ⟨π, hSim⟩ := h.simulates
  have hTidy := hSim.inv.wf.toTidy
  refine ⟨⟨_, hSim.rep.shows, hSim.short⟩, fun size hBound => ?_, fun e he => ?_, ?_⟩
  · by_cases hZero : size = 0
    · rw [mmMalloc, mmMallocWithin, mmMallocWithin, if_pos hZero, if_pos hZero]
    · have hReq := Nat.pos_of_ne_zero hZero
      exact mmMallocWithin_agrees
        ((mmMallocWithin_meets hSim.covered hSim.rep hTidy hReq hBound).mono
          (fun _ _ _ => trivial) fun e he => by rw [he.1]; decide)
        ((mmMalloc_meets hSim.rep hTidy hReq hBound).mono
          (fun _ _ _ => trivial) fun e he => by rw [he.1]; decide)
  · obtain ⟨d, hd, rfl⟩ := hSim.mem_live.mp he
    obtain ⟨b, hb, -⟩ := hSim.inv.held d hd
    exact mmFreeWithin_agrees
      ((mmFreeWithin_returns hSim.covered.chunks hSim.rep hTidy hb).meets fun _ _ _ => trivial)
      ((mmFree_returns hSim.rep hTidy hb).meets fun _ _ _ => trivial)
  · rw [mmFree, mmFreeWithin, mmFreeWithin, if_pos rfl, if_pos rfl]

theorem lists_bounded_sample : ∃ (c : Config) (v : View),
    c.live = [⟨1, 8589934704, 100⟩] ∧ Shows c.process v ∧ v.Short c.live ∧
    mmFreeWithin 3 8589934704 c.process = mmFree 8589934704 c.process := by
  obtain ⟨c, hReached, hLive⟩ := exists_sample 0
  obtain ⟨⟨v, hView, hShort⟩, -, hFree, -⟩ := lists_bounded hReached
  have hHeld := hFree ⟨1, 8589934704, 100⟩ (by simp [hLive])
  rw [hLive] at hHeld
  exact ⟨c, v, hLive, hView, hShort, hHeld⟩

end Reached

end Malloc
