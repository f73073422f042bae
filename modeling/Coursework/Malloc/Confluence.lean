import Coursework.Malloc.Runs
import Coursework.Malloc.View

/-! Freeing several blocks in any order. A chunk ends up cut in the only way in
which the blocks that stay in use leave no two free neighbours. -/

namespace Malloc

open Tiling Bytes

/-- Give up the blocks of a chunk at the places `ls`. -/
def prune (ls : List Loc) (c : Chunk) : Chunk :=
  { c with blocks := coalesced (vacateIf (fun b => ⟨c.id, b.off⟩ ∈ ls) c.blocks) }

/-- Free the blocks at the places `ls`, one after the other. -/
def Heap.freeAll (H : Heap) (ls : List Loc) : Heap := ls.foldl Heap.freeAt H

/-- `mm_free` of several pointers, one after the other. -/
def freeAll : List Nat → Code Unit
  | [] => pure ()
  | p :: ps => do
      mmFree p
      freeAll ps

section Prune

variable {ls ls' : List Loc} {l : Loc} {c : Chunk} {H : Heap}

/-- After the frees the used blocks are those that were not freed. -/
theorem used_prune (ls : List Loc) (c : Chunk) :
    used (prune ls c).blocks = (used c.blocks).filter fun b => (⟨c.id, b.off⟩ : Loc) ∉ ls := by
  rw [prune, used_coalesced, used_vacateIf]
  exact List.filter_congr fun b _ => (decide_not ..).symm

theorem vacant_prune (ls : List Loc) (h : vacant c = true) : vacant (prune ls c) = true := by
  unfold vacant at h ⊢
  rw [List.isEmpty_iff] at h ⊢
  rw [used_prune, h]
  rfl

/-- The order of the frees is not seen in the chunk, which is why they commute. -/
theorem prune_perm (h : ls.Perm ls') : prune ls c = prune ls' c := by
  simp only [prune, h.mem_iff]

/-- Two ways to cut a chunk are the same when no two free blocks are neighbours
and the used blocks are the same. -/
theorem Chunk.eq_of_used {d : Chunk} (hId : c.id = d.id) (hSize : c.size = d.size)
    (hc : Coalesced c.blocks) (hd : Coalesced d.blocks) (hcTiled : Tiles firstOff c.size c.blocks)
    (hdTiled : Tiles firstOff d.size d.blocks) (hUsed : used c.blocks = used d.blocks) : c = d := by
  obtain ⟨id, size, blocks⟩ := c
  obtain ⟨id', size', blocks'⟩ := d
  obtain rfl : id = id' := hId
  obtain rfl : size = size' := hSize
  obtain rfl : blocks = blocks' := hc.eq_of_used_eq hd hcTiled hdTiled hUsed
  rfl

theorem tiles_prune (ls : List Loc) (h : Tiles firstOff c.size c.blocks) :
    Tiles firstOff c.size (prune ls c).blocks := tiles_coalesced (tiles_vacateIf h _)

theorem coalesced_prune (ls : List Loc) (c : Chunk) : Coalesced (prune ls c).blocks :=
  coalesced_coalesced _

/-- Without a free nothing changes, the chunk being coalesced already. -/
theorem prune_nil (h : Coalesced c.blocks) (hTiled : Tiles firstOff c.size c.blocks) :
    prune [] c = c := by
  refine Chunk.eq_of_used rfl rfl (coalesced_prune [] c) h (tiles_prune [] hTiled) hTiled ?_
  rw [used_prune]
  exact List.filter_eq_self.mpr fun b _ => by simp

/-- Giving one block back and then others is giving all of them back. Coalescing once in the
end does what coalescing after each did. -/
theorem prune_release (hTiled : Tiles firstOff c.size c.blocks) :
    prune ls (if c.id = l.chunk then { c with blocks := release l.off c.blocks } else c) =
      prune (l :: ls) c := by
  have hLoc : ∀ b : Block, (⟨c.id, b.off⟩ : Loc) = l ↔ c.id = l.chunk ∧ b.off = l.off := by
    intro b
    obtain ⟨chunk, off⟩ := l
    simp
  split
  · next hId =>
      refine Chunk.eq_of_used rfl rfl (coalesced_prune _ _) (coalesced_prune _ _)
        (tiles_prune ls (c := { c with blocks := release l.off c.blocks })
          (tiles_release hTiled l.off))
        (tiles_prune _ hTiled) ?_
      rw [used_prune, used_prune, used_release, List.filter_filter]
      refine List.filter_congr fun b _ => ?_
      have hAt := hLoc b
      rw [hId] at hAt
      simpa [hId, hAt] using Bool.and_comm _ _
  · next hId =>
      refine Chunk.eq_of_used rfl rfl (coalesced_prune _ _) (coalesced_prune _ _)
        (tiles_prune ls hTiled) (tiles_prune _ hTiled) ?_
      rw [used_prune, used_prune]
      refine List.filter_congr fun b _ => ?_
      simp [hLoc, hId]

/-- One free changes the blocks of one chunk, and the chunks without a used block go. -/
theorem Heap.Tidy.freeAt_chunks (h : H.Tidy) {b : Block} (hUsed : UsedAt H.chunks l b) :
    (H.freeAt l).chunks =
      (updateChunk H.chunks l.chunk (release l.off)).filter fun c => !vacant c := by
  rw [← h.giveBack_chunks hUsed]
  rfl

/-- Giving one block back and then others prunes every chunk at all of them, as the release
changes one chunk only. -/
theorem map_prune_updateChunk {cs : List Chunk}
    (hTiled : ∀ c ∈ cs, Tiles firstOff c.size c.blocks) :
    (updateChunk cs l.chunk (release l.off)).map (prune ls) = cs.map (prune (l :: ls)) := by
  rw [updateChunk, List.map_map]
  exact List.map_congr_left fun c hc => prune_release (hTiled c hc)

/-- The other blocks are still in use after one was freed, so the loop can go on with them. -/
theorem usedAt_rest {b : Block} (h : H.WF) (hUsed : ∀ k ∈ l :: ls, ∃ a, UsedAt H.chunks k a)
    (hNew : l ∉ ls) (hb : UsedAt H.chunks l b) : ∀ k ∈ ls, ∃ a, UsedAt (H.freeAt l).chunks k a := by
  intro k hk
  obtain ⟨a, ha⟩ := hUsed k (List.mem_cons_of_mem l hk)
  refine ⟨a, (usedAt_freeAt h.toTidy hb).mpr ⟨ha, ?_⟩⟩
  rintro rfl
  exact hNew hk

/-- The chunks after several blocks were freed do not depend on the order, being what is left
of each chunk without these blocks. -/
theorem Heap.WF.freeAll (h : H.WF) (hUsed : ∀ l ∈ ls, ∃ b, UsedAt H.chunks l b)
    (hNodup : ls.Nodup) :
    (H.freeAll ls).WF ∧
      (H.freeAll ls).chunks = (H.chunks.map (prune ls)).filter fun c => !vacant c := by
  induction ls generalizing H with
  | nil =>
      refine ⟨h, ?_⟩
      have hSame : H.chunks.map (prune []) = H.chunks :=
        (List.map_congr_left fun c hc => prune_nil (h.coalesced c hc) (h.shaped c hc).tiled).trans
          (List.map_id _)
      rw [hSame]
      exact (List.filter_eq_self.mpr fun c hc => by simp [h.inUse c hc]).symm
  | cons l ls ih =>
      obtain ⟨hNew, hNodup⟩ := List.nodup_cons.mp hNodup
      obtain ⟨b, hb⟩ := hUsed l List.mem_cons_self
      obtain ⟨hWF, hChunks⟩ := ih (h.freeAt hb) (usedAt_rest h hUsed hNew hb) hNodup
      refine ⟨hWF, hChunks.trans ?_⟩
      rw [h.freeAt_chunks hb, ← map_prune_updateChunk fun c hc => (h.shaped c hc).tiled,
        List.filter_map, List.filter_map, List.filter_filter]
      refine congrArg _ (List.filter_congr fun c _ => ?_)
      cases hVacant : vacant c with
      | true => simp [vacant_prune ls hVacant]
      | false => simp

/-- The chunks that are unmapped on the way do not depend on the order either. A chunk goes
with the last of its used blocks. -/
theorem Heap.WF.swept_perm (h : H.WF) {b : Block} (hUsed : UsedAt H.chunks l b) (ls : List Loc)
    {β : Type} (f : Nat × Nat → β) :
    (((H.giveBack l).swept ++ (H.freeAt l).chunks.filter fun c => vacant (prune ls c)).map
        fun c => f c.extent).Perm
      ((H.chunks.filter fun c => vacant (prune (l :: ls) c)).map fun c => f c.extent) := by
  rw [h.freeAt_chunks hUsed, Heap.swept, h.giveBack_chunks hUsed]
  have hFirst : (updateChunk H.chunks l.chunk (release l.off)).filter vacant =
      ((updateChunk H.chunks l.chunk (release l.off)).filter fun c => vacant (prune ls c)).filter
        vacant := by
    rw [List.filter_filter]
    refine List.filter_congr fun c _ => ?_
    cases hVacant : vacant c with
    | true => simp [vacant_prune ls hVacant]
    | false => simp
  have hLater : ((updateChunk H.chunks l.chunk (release l.off)).filter fun c => !vacant c).filter
      (fun c => vacant (prune ls c)) =
      ((updateChunk H.chunks l.chunk (release l.off)).filter fun c => vacant (prune ls c)).filter
        fun c => !vacant c := by
    rw [List.filter_filter, List.filter_filter]
    exact List.filter_congr fun c _ => Bool.and_comm _ _
  rw [hFirst, hLater]
  apply ((List.filter_append_perm vacant _).map _).trans
  have hAll : ((updateChunk H.chunks l.chunk (release l.off)).filter fun c =>
      vacant (prune ls c)).map (fun c => f c.extent) =
      (H.chunks.filter fun c => vacant (prune (l :: ls) c)).map fun c => f c.extent := by
    rw [updateChunk, List.filter_map, List.map_map]
    have hTest : H.chunks.filter ((fun c => vacant (prune ls c)) ∘ fun c =>
        if c.id = l.chunk then { c with blocks := release l.off c.blocks } else c) =
        H.chunks.filter fun c => vacant (prune (l :: ls) c) := by
      refine List.filter_congr fun c hc => ?_
      rw [← prune_release (h.shaped c hc).tiled]
      rfl
    rw [hTest]
    refine List.map_congr_left fun c _ => ?_
    rw [Function.comp_apply]
    split <;> rfl
  rw [hAll]

end Prune

section Calls

variable {π : Nat → Nat} {s : Process} {H : Heap} {ls : List Loc}

/-- The loop of `mm_free` over different used blocks returns. It leaves what the ideal frees
leave, and unmaps each chunk once whose last used block is among them. -/
theorem freeAll_returns (h : Rep π s H.chunks H.free) (hWF : H.WF)
    (hUsed : ∀ l ∈ ls, ∃ b, UsedAt H.chunks l b) (hNodup : ls.Nodup) :
    (freeAll (ls.map (Loc.payload π))).Returns s fun _ t =>
      Rep π t (H.freeAll ls).chunks (H.freeAll ls).free ∧
      ∃ calls, t.calls = s.calls ++ calls ∧
        calls.Perm ((H.chunks.filter fun c => vacant (prune ls c)).map fun c =>
          .unmap (π c.id) c.size) := by
  induction ls generalizing s H with
  | nil =>
      refine ⟨h, [], (List.append_nil _).symm, ?_⟩
      have hNone : (H.chunks.filter fun c => vacant (prune [] c)) = [] := by
        refine List.filter_eq_nil_iff.mpr fun c hc => ?_
        rw [prune_nil (hWF.coalesced c hc) (hWF.shaped c hc).tiled, hWF.inUse c hc]
        exact Bool.false_ne_true
      rw [hNone]
      exact List.Perm.refl _
  | cons l ls ih =>
      obtain ⟨hNew, hNodup⟩ := List.nodup_cons.mp hNodup
      obtain ⟨b, hb⟩ := hUsed l List.mem_cons_self
      have hRest := usedAt_rest hWF hUsed hNew hb
      rw [List.map_cons, freeAll, Program.Returns, Program.meets_bind]
      apply (mmFree_returns h hWF.toTidy hb).meets
      rintro - u hFreed
      apply (ih hFreed.rep (hWF.freeAt hb) hRest hNodup).meets
      rintro - t ⟨hRep, calls, hCalls, hPerm⟩
      refine ⟨hRep, _, by rw [hCalls, hFreed.calls, List.append_assoc], ?_⟩
      have hSwept := hWF.swept_perm hb ls fun e => MemCall.unmap (π e.1) e.2
      rw [List.map_append] at hSwept
      exact (hPerm.append_left _).trans hSwept

/-- Every live pointer is the payload of a used block at some place, so what a client frees is
known to the ideal allocator. -/
theorem Simulates.exists_place {c : Config} {a : Ideal} {ps : List Nat} (h : Simulates π c a)
    (hLive : ∀ p ∈ ps, p ∈ c.live.map Live.ptr) : ∃ place : Nat → Loc, ∀ p ∈ ps,
      (place p).payload π = p ∧ ∃ b, UsedAt a.heap.chunks (place p) b := by
  have hPlaces : ∀ p ∈ ps, ∃ l : Loc, l.payload π = p ∧ ∃ b, UsedAt a.heap.chunks l b := by
    intro p hp
    obtain ⟨e, he, rfl⟩ := List.mem_map.mp (hLive p hp)
    obtain ⟨d, hd, rfl⟩ := h.mem_live.mp he
    obtain ⟨b, hb, -⟩ := h.inv.held d hd
    exact ⟨d.loc, rfl, b, hb⟩
  have : Nonempty Loc := ⟨⟨0, 0⟩⟩
  choose! place hPlace using hPlaces
  exact ⟨place, hPlace⟩

/-- What freeing several pointers does, with the heap as a function of their places. Addresses
enter only where the calls to `memlib.c` are recorded. -/
theorem freeAll_at {ps : List Nat} {place : Nat → Loc} (h : Rep π s H.chunks H.free) (hWF : H.WF)
    (hPlace : ∀ p ∈ ps, (place p).payload π = p ∧ ∃ b, UsedAt H.chunks (place p) b)
    (hNodup : ps.Nodup) : ∃ (t : Process) (H' : Heap) (calls : List MemCall),
      freeAll ps s = .ok ((), t) ∧
      Rep π t H'.chunks H'.free ∧ H'.Tidy ∧
      H'.chunks = (H.chunks.map (prune (ps.map place))).filter (fun c => !vacant c) ∧
      t.calls = s.calls ++ calls ∧
      calls.Perm ((H.chunks.filter fun c => vacant (prune (ps.map place) c)).map fun c =>
        .unmap (π c.id) c.size) := by
  have hMap : (ps.map place).map (Loc.payload π) = ps := by
    rw [List.map_map]
    exact (List.map_congr_left fun p hp => (hPlace p hp).1).trans (List.map_id _)
  have hNew : (ps.map place).Nodup := by
    rw [← hMap] at hNodup
    exact hNodup.of_map
  have hAll : ∀ l ∈ ps.map place, ∃ b, UsedAt H.chunks l b := by
    intro l hl
    obtain ⟨p, hp, rfl⟩ := List.mem_map.mp hl
    exact (hPlace p hp).2
  have hCall := freeAll_returns h hWF hAll hNew
  rw [hMap] at hCall
  obtain ⟨_, t, hRun, hRep, calls, hCalls, hGone⟩ := Program.returns_iff.mp hCall
  obtain ⟨hAfter, hChunks⟩ := hWF.freeAll hAll hNew
  exact ⟨t, _, calls, hRun, hRep, hAfter.toTidy, hChunks, hCalls, hGone⟩

/-- Freeing the same blocks in two orders leaves the same page list, the same
blocks in every chunk and the same members of the free list, and unmaps the
same chunks. -/
theorem frees_commute {K : Kernel} {requests : List Request} {c : Config} {ps qs : List Nat}
    (h : Reachable K requests c) (hLive : ∀ p ∈ ps, p ∈ c.live.map Live.ptr) (hNodup : ps.Nodup)
    (hPerm : ps.Perm qs) : ∃ t u v w callsT callsU,
      freeAll ps c.process = .ok ((), t) ∧ freeAll qs c.process = .ok ((), u) ∧
      Shows t v ∧ Shows u w ∧ v.chunks = w.chunks ∧ v.free.Perm w.free ∧
      t.calls = c.process.calls ++ callsT ∧ u.calls = c.process.calls ++ callsU ∧
      callsT.Perm callsU ∧ ∀ call ∈ callsT, ∃ p sz, call = .unmap p sz := by
  obtain ⟨π, hSim⟩ := h.simulates
  have hWF := hSim.inv.wf
  obtain ⟨place, hPlace⟩ := hSim.exists_place hLive
  obtain ⟨t, T, callsT, hRunT, hRepT, hTidyT, hChunksT, hCallsT, hGoneT⟩ :=
    freeAll_at hSim.rep hWF hPlace hNodup
  obtain ⟨u, U, callsU, hRunU, hRepU, hTidyU, hChunksU, hCallsU, hGoneU⟩ :=
    freeAll_at hSim.rep hWF (fun p hp => hPlace p (hPerm.mem_iff.mpr hp))
      (hPerm.nodup_iff.mp hNodup)
  have hPrune : prune (ps.map place) = prune (qs.map place) :=
    funext fun c => prune_perm (hPerm.map place)
  have hChunks : T.chunks = U.chunks := by rw [hChunksT, hChunksU, hPrune]
  rw [← hPrune] at hGoneU
  refine ⟨t, u, _, _, callsT, callsU, hRunT, hRunU, hRepT.shows, hRepU.shows, ?_, ?_, hCallsT,
    hCallsU, hGoneT.trans hGoneU.symm, fun call hCall => ?_⟩
  · exact congrArg (List.map (Chunk.view π)) hChunks
  · exact (hTidyT.free_perm hTidyU hChunks).map _
  · obtain ⟨d, -, rfl⟩ := List.mem_map.mp (hGoneT.subset hCall)
    exact ⟨_, _, rfl⟩

theorem frees_commute_sample : ∃ (c : Config) (t u : Process) (v w : View), c.live.length = 2 ∧
    freeAll [8589934640, 8589934704] c.process = .ok ((), t) ∧
    freeAll [8589934704, 8589934640] c.process = .ok ((), u) ∧
    Shows t v ∧ Shows u w ∧ v.chunks = w.chunks ∧ v.free.Perm w.free := by
  obtain ⟨c, hReached, hLive⟩ := exists_pair 0
  obtain ⟨t, u, v, w, -, -, hT, hU, hV, hW, hChunks, hFree, -⟩ :=
    frees_commute hReached (by simp [hLive] : ∀ p ∈ [8589934640, 8589934704], _) (by decide)
      (List.Perm.swap 8589934704 8589934640 [])
  exact ⟨c, t, u, v, w, by rw [hLive]; rfl, hT, hU, hV, hW, hChunks, hFree⟩

end Calls

end Malloc
