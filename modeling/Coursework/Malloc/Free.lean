import Coursework.Malloc.Sweep

/-! `mm_free` refines giving a block back to the abstract heap. -/

namespace Malloc

open Tiling Bytes DoublyLinked

variable {π : Nat → Nat} {s t : Process} {H : Heap} {l : Loc} {b : Block} {w : Nat}

/-- The first half of `mm_free`: the block is marked as free but in no list. This is the state
from which the neighbours are looked up. -/
theorem markFree_ok {cs : List Chunk} {fr : List Loc} {c : Chunk} {b : Block}
    {left right : List Block} (hw : Covers w cs.length) (h : Rep π s cs fr) (hc : c ∈ cs)
    (hBlocks : c.blocks = left ++ b :: right) (hNew : ⟨c.id, b.off⟩ ∉ fr) :
    ∃ u m, setFree (π c.id + b.off) s = .ok ((), u) ∧
      writeFooterWithin w (π c.id + b.off) u = .ok ((), { s with mem := m }) ∧
      Rep π { s with mem := m } (updateChunk cs c.id (vacateAt b.off)) fr ∧
      AgreeOff (span (π c.id + b.off) b.size) s.mem m := by
  have hTiled := (h.layout.shaped c hc).tiled
  apply h.remark hw hc hBlocks hNew none
  rw [hBlocks] at hTiled ⊢
  rw [vacateAt_eq hTiled]
  simp [Segment.vacate]

/-- `mm_free` of a used block gives it back, and then looks for chunks to unmap. Payloads of
other blocks are not written meanwhile. -/
theorem mmFreeWithin_eq (hw : Covers w H.chunks.length) (h : Rep π s H.chunks H.free)
    (hTidy : H.Tidy) (hUsed : UsedAt H.chunks l b) :
    ∃ m head, mmFreeWithin w (l.payload π) s =
        checkAndUnmapFullPagesWithin w { s with mem := m, freeListHead := head } ∧
      Rep π { s with mem := m, freeListHead := head } (H.giveBack l).chunks (H.giveBack l).free ∧
      KeepsPayloads π H.chunks (some l) s { s with mem := m, freeListHead := head } := by
  have hNew : l ∉ H.free := fun hIn => hUsed.not_freeIn h.layout ((hTidy.freeExact l).mp hIn)
  obtain ⟨hb, hOff, c, hc, hId, hbIn⟩ := hUsed
  obtain rfl : l = ⟨c.id, b.off⟩ := by rw [hId, hOff]
  have hInside := h.layout.inside c hc
  have hShaped := hTidy.shaped c hc
  have hBounds := hShaped.bounds hbIn
  obtain ⟨left, pre, post, right, hRun⟩ := exists_run (hTidy.coalesced c hc) hbIn
  obtain ⟨start, stop, hLeft, hMid, hRight⟩ := hRun.tiles hShaped.tiled
  have hBlocks : c.blocks = (left ++ pre) ++ b :: (post ++ right) := by rw [hRun.eq]; simp
  have hListed : ∀ a ∈ c.blocks, a.free = true → (⟨c.id, a.off⟩ : Loc) ∈ H.free :=
    fun a ha haFree => (hTidy.freeExact _).mpr ⟨c, hc, rfl, a, ha, rfl, haFree⟩
  obtain ⟨u, m₁, hFlag, hFooter, hRep₁, hAgree₁⟩ := markFree_ok hw h hc hBlocks hNew
  -- In the marked chunk the run is free as a whole.
  have hRun₁ := hRun.vacate hShaped.tiled
  have hMid₁ := tiles_vacate hMid
  have hc₁ : { c with blocks := vacateAt b.off c.blocks } ∈
      updateChunk H.chunks c.id (vacateAt b.off) :=
    (mem_updateChunk hTidy.ids hc).mpr (Or.inl rfl)
  have hJoined : coalesced (vacateAt b.off c.blocks) =
      left ++ [⟨start, stop - start, none⟩] ++ right := by
    have hRelease := hRun.release_eq hb (hTidy.coalesced c hc) hLeft hMid hRight
    rw [release] at hRelease
    rw [hRelease]
    simp
  have hw₁ : Covers w (updateChunk H.chunks c.id (vacateAt b.off)).length := by
    rwa [updateChunk, List.length_map]
  obtain ⟨m₂, head, hCoalesce, hRep₂, hAgree₂⟩ := coalesce_eq hw₁ hRep₁ hTidy.freeNodup hc₁ hRun₁
    (Segment.vacate_free b) hNew hLeft hMid₁ hRight
    (fun a ha => hListed a (by rw [hRun.eq]; simp [ha]) (hRun.pre_free a ha))
    (fun a ha => hListed a (by rw [hRun.eq]; simp [ha]) (hRun.post_free a ha)) hJoined
  rw [updateChunk_updateChunk] at hRep₂
  refine ⟨m₂, head, ?_, ?_, ?_⟩
  · rw [Loc.payload_mk, mmFreeWithin, if_neg (by omega), hdrSize_eq,
      sub64_eq (by omega : 16 ≤ π c.id + b.off + 16) (by omega), Nat.add_sub_cancel,
      Program.bind_ok hFlag, Program.bind_ok hFooter]
    exact hCoalesce
  · rw [hTidy.giveBack_eq hc hRun hb hLeft hMid hRight]
    exact hRep₂
  · intro k e hk hNe x hx
    have hOut : k.chunk = c.id → e ∉ pre ++ b :: post := by
      intro hChunk hIn
      obtain rfl := hRun.eq_of_owned hb hIn hk.1
      exact hNe (by rw [← hChunk, hk.2.1])
    have hLinks := h.layout.payload_outside h.freeLocs hk hx
    have hSpan := h.layout.payload_outside_run hk hc hRun.eq hLeft hRight hOut hx
    have hBlock : x ∉ span (π c.id + b.off) b.size := by
      intro hIn
      obtain ⟨hLow, -, hHigh⟩ := hMid.bounds (s := b) (by simp)
      unfold Segment.stop at hHigh
      rw [mem_span] at hIn hSpan
      omega
    exact (hAgree₂ x fun hIn => hIn.elim (fun hLink => hLinks (Or.inl hLink)) hSpan).trans
      (hAgree₁ x hBlock)

/-- What `mm_free` of the block at `l` does: the abstract heap gives the block
back, the chunks that became vacant are unmapped, and nothing else changes. -/
structure Freed (π : Nat → Nat) (s t : Process) (H : Heap) (l : Loc) : Prop where
  rep : Rep π t (H.freeAt l).chunks (H.freeAt l).free
  keeps : KeepsPayloads π H.chunks (some l) s t
  calls : t.calls = s.calls ++ (H.giveBack l).swept.map fun c => .unmap (π c.id) c.size
  mapped : ∀ x, t.os.mapped (x / apageSize) = (s.os.mapped (x / apageSize) &&
    !(H.giveBack l).swept.any fun c => π c.id ≤ x && x < π c.id + c.size)
  mmaps : t.os.mmaps = s.os.mmaps

/-- `mm_free` of a used block, with walks that cover the lists: it returns, and leaves the heap
without the block, coalesced and without empty chunks. -/
theorem mmFreeWithin_returns (hw : Covers w (H.chunks.length + 1)) (h : Rep π s H.chunks H.free)
    (hTidy : H.Tidy) (hUsed : UsedAt H.chunks l b) :
    (mmFreeWithin w (l.payload π)).Returns s fun _ t => Freed π s t H l := by
  obtain ⟨m, head, hRun, hRep, hKeeps⟩ :=
    mmFreeWithin_eq (hw.mono (Nat.le_succ _)) h hTidy hUsed
  have hGiven := hTidy.giveBack hUsed
  have hLength : (H.giveBack l).chunks.length = H.chunks.length := by
    simpa using congrArg List.length (H.giveBack_extent l)
  have hSweep := checkAndUnmapFullPages_returns (by rwa [hLength]) hRep hGiven
  obtain ⟨_, t, hReturn, hFinal, hSwept⟩ := Program.returns_iff.mp hSweep
  refine Program.returns_iff.mpr ⟨(), t, hRun.trans hReturn, hFinal, ?_, hSwept.calls,
    hSwept.mapped, hSwept.mmaps⟩
  intro k e hk hNe x hx
  have hStill : UsedAt (H.giveBack l).chunks k e :=
    (usedAt_giveBack hTidy hUsed).mpr ⟨hk, fun hEq => hNe (by rw [hEq])⟩
  exact (hSwept.frame x (hRep.layout.payload_outside hRep.freeLocs hStill hx)).trans
    (hKeeps k e hk hNe x hx)

/-- After the coalescing the rest of `mm_free` is the walk that unmaps empty chunks, so what it
unmaps is known from that walk alone. -/
theorem mmFree_eq (h : Rep π s H.chunks H.free) (hTidy : H.Tidy) (hUsed : UsedAt H.chunks l b) :
    ∃ m head, mmFree (l.payload π) s =
        checkAndUnmapFullPages { s with mem := m, freeListHead := head } ∧
      Rep π { s with mem := m, freeListHead := head } (H.giveBack l).chunks (H.giveBack l).free ∧
      KeepsPayloads π H.chunks (some l) s { s with mem := m, freeListHead := head } :=
  mmFreeWithin_eq (.walkBound _) h hTidy hUsed

/-- The function of the source, whose walks cover every list. -/
theorem mmFree_returns (h : Rep π s H.chunks H.free) (hTidy : H.Tidy)
    (hUsed : UsedAt H.chunks l b) :
    (mmFree (l.payload π)).Returns s fun _ t => Freed π s t H l :=
  mmFreeWithin_returns (.walkBound _) h hTidy hUsed

end Malloc
