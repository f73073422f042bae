import Coursework.Malloc.FreeList
import Coursework.Malloc.HeapInvariant

/-! Writing the tags of a block, and splitting a block. -/

namespace Malloc

open Tiling Bytes DoublyLinked

/-- The mask `~(ALIGNMENT - 1)` rounds down. -/
theorem land_alignMask {x : Nat} (hx : x < 2 ^ 64) : x &&& (2 ^ 64 - alignment) = x / 16 * 16 := by
  have hMask : (2 ^ 64 - alignment : Nat) = (2 ^ 60 - 1) <<< 4 := by decide
  have hRound : x / 16 * 16 = x >>> 4 <<< 4 := by
    rw [Nat.shiftRight_eq_div_pow, Nat.shiftLeft_eq]
  rw [hMask, hRound]
  refine Nat.eq_of_testBit_eq fun i => ?_
  simp only [Nat.testBit_and, Nat.testBit_shiftLeft, Nat.testBit_two_pow_sub_one,
    Nat.testBit_shiftRight]
  by_cases hLow : 4 ≤ i
  · by_cases hHigh : i < 64
    · simp [hLow, show i - 4 < 60 by omega, show 4 + (i - 4) = i by omega]
    · have hZero : x.testBit i = false :=
        Nat.testBit_lt_two_pow (Nat.lt_of_lt_of_le hx (Nat.pow_le_pow_right (by omega) (by omega)))
      simp [hLow, hZero, show 4 + (i - 4) = i by omega]
  · simp [hLow]

/-- `ALIGN` as the machine computes it, for every `size_t`. The sum wraps for the last fifteen
of them. -/
theorem align_eq (sz : Nat) : align sz = (sz + 15) % 2 ^ 64 / 16 * 16 := by
  rw [align, add64, land_alignMask (Nat.mod_lt _ (by decide))]
  rfl

/-- Without a wrap the mask of `ALIGN` rounds up to a multiple of 16. -/
theorem align_eq_alignUp {sz : Nat} (h : sz + 15 < 2 ^ 64) : align sz = alignUp sz := by
  rw [align_eq, alignUp, Nat.mod_eq_of_lt h]

/-- The sum that the code computes is the size of the block, as long as it fits. -/
theorem totalSize_eq {req : Nat} (h : need req < 2 ^ 64) :
    add64 (add64 hdrSize (alignUp req)) fdrSize = need req := by
  unfold need at *
  rw [hdrSize_eq, fdrSize_eq, add64_eq (by omega : 16 + alignUp req < 2 ^ 64),
    add64_eq (by omega : 16 + alignUp req + 16 < 2 ^ 64)]
  omega

theorem leastRest_eq : add64 (add64 hdrSize minBlockSize) fdrSize = splitLeast := by decide

/-- The memory after the flag and the footer of a block of `n` bytes at `a`
were written. -/
def markMem (m : Bytes) (a n flag : Nat) : Bytes := (m.write (a + 8) 4 flag).write (a + n - 16) 8 n

/-- The flag of a block. -/
def Block.flag (b : Block) : Nat := if b.free then 0 else 1

section Mark

variable {m : Bytes} {a n flag : Nat}

/-- Setting the flag of a block writes to the block alone. -/
theorem markMem_agreeOff (m : Bytes) (a flag : Nat) {n : Nat} (h : 32 ≤ n) :
    AgreeOff (span a n) m (markMem m a n flag) := by
  refine ((AgreeOff.refl _ m).write (span_subset ?_ ?_)).write (span_subset ?_ ?_) <;> omega

theorem read_size_markMem (h : 32 ≤ n) : (markMem m a n flag).read a 8 = m.read a 8 := by
  rw [markMem, read_write_apart (Or.inl (by omega)), read_write_apart (Or.inl (by omega))]

/-- Afterwards header and footer say the same size, and the header has the flag. -/
theorem tags_markMem {b : Block} (hSize : m.read a 8 = b.size) (hLeast : 32 ≤ b.size)
    (hBound : b.size < 2 ^ 64) : Tags (markMem m a b.size b.flag) a b := by
  refine ⟨?_, ?_, ?_⟩
  · rw [read_size_markMem hLeast, hSize]
  · rw [markMem, read_write_apart (Or.inl (by omega)), read_write_same, Block.flag]
    split <;> rfl
  · rw [markMem, read_write_word _ hBound]

/-- The memory after a block of `n` bytes at `a` was given all its tags. -/
def tagMem (m : Bytes) (a n flag : Nat) : Bytes := markMem (m.write a 8 n) a n flag

theorem tagMem_agreeOff (m : Bytes) (a flag : Nat) {n : Nat} (h : 32 ≤ n) :
    AgreeOff (span a n) m (tagMem m a n flag) := by
  refine AgreeOff.trans ((AgreeOff.refl _ m).write ?_) (markMem_agreeOff _ a flag h)
  exact span_subset (Nat.le_refl _) (by omega)

/-- Afterwards the block is tagged with its size and its flag. -/
theorem tags_tagMem {b : Block} (hLeast : 32 ≤ b.size) (hBound : b.size < 2 ^ 64) :
    Tags (tagMem m a b.size b.flag) a b :=
  tags_markMem (read_write_word m hBound) hLeast hBound

end Mark

section Blocks

variable {π : Nat → Nat} {s : Process} {cs : List Chunk} {c : Chunk} {fr : List Loc} {w : Nat}

/-- Setting the flag of a block and writing its footer. The chunk of the block is looked up for
the check against its end. -/
theorem PageRep.mark (hw : Covers w cs.length) (h : PageRep π s cs) (hc : c ∈ cs) (flag : Nat)
    {a n : Nat} (hLow : π c.id + 32 ≤ a) (hSize : s.mem.read a 8 = n) (hLeast : 32 ≤ n)
    (hHigh : a + n ≤ π c.id + c.size) :
    store32 (headerAllocated a) flag s =
        .ok ((), { s with mem := s.mem.write (a + 8) 4 flag }) ∧
      writeFooterWithin w a { s with mem := s.mem.write (a + 8) 4 flag } =
        .ok ((), { s with mem := markMem s.mem a n flag }) := by
  have hInside := h.layout.inside c hc
  constructor
  · rw [headerAllocated, add64_eq (by omega)]
    exact store32_ok (h.layout.accessible hc (by omega) (by omega) (by omega))
  · have hFlag : AgreeOff (span a n) s.mem (s.mem.write (a + 8) 4 flag) :=
      (AgreeOff.refl _ _).write (span_subset (by omega) (by omega))
    have hPage := h.write_run hc hLow hHigh hFlag
    exact writeFooter_ok hw hPage hc hLow
      (by rw [read_write_apart (Or.inl (by omega)), hSize]) (by omega) hHigh

/-- Writing all tags of a block, which is what makes a block of a piece of memory. -/
theorem PageRep.tag (hw : Covers w cs.length) (h : PageRep π s cs) (hc : c ∈ cs) (flag : Nat)
    {a n : Nat} (hLow : π c.id + 32 ≤ a) (hLeast : 32 ≤ n) (hHigh : a + n ≤ π c.id + c.size) :
    store64 (headerSizeField a) n s = .ok ((), { s with mem := s.mem.write a 8 n }) ∧
      store32 (headerAllocated a) flag { s with mem := s.mem.write a 8 n } =
        .ok ((), { s with mem := (s.mem.write a 8 n).write (a + 8) 4 flag }) ∧
      writeFooterWithin w a { s with mem := (s.mem.write a 8 n).write (a + 8) 4 flag } =
        .ok ((), { s with mem := tagMem s.mem a n flag }) := by
  have hInside := h.layout.inside c hc
  have hSize : AgreeOff (span a n) s.mem (s.mem.write a 8 n) :=
    (AgreeOff.refl _ _).write (span_subset (Nat.le_refl _) (by omega))
  rw [headerSizeField_eq]
  refine ⟨store64_ok (h.layout.accessible hc (by omega) (by omega) (by omega)), ?_⟩
  have hPage := h.write_run hc hLow hHigh hSize
  exact hPage.mark hw hc flag hLow (read_write_word _ (by omega)) hLeast hHigh

variable {b : Block} {left right : List Block} {req : Nat}

/-- A block that is in no list may be cut anew when only its own bytes were written. All else
in memory is read as before. -/
theorem Rep.recut_block (h : Rep π s cs fr) (hc : c ∈ cs) (hBlocks : c.blocks = left ++ b :: right)
    (hNew : ⟨c.id, b.off⟩ ∉ fr) {f : List Block → List Block} {mid' : List Block} {m : Bytes}
    (hf : f c.blocks = left ++ mid' ++ right) (hTiles : Tiles b.off b.stop mid')
    (hSizes : ∀ d ∈ mid', d.size % 16 = 0 ∧ 48 ≤ d.size) (hNonempty : mid' ≠ [])
    (hAgree : AgreeOff (span (π c.id + b.off) b.size) s.mem m)
    (hTags : ∀ d ∈ mid', Tags m (π c.id + d.off) d) :
    Rep π { s with mem := m } (updateChunk cs c.id f) fr := by
  have hbIn : b ∈ c.blocks := by simp [hBlocks]
  have hTiled := (h.layout.shaped c hc).tiled
  rw [hBlocks] at hTiled
  obtain ⟨hLeft, -, hRight⟩ := hTiled.around
  have hMid : c.blocks = left ++ [b] ++ right := by simp [hBlocks]
  refine h.recut hc hMid hf hLeft hTiles hRight hSizes hNonempty ?_ hTags ?_ ?_
  · refine hAgree.mono fun x hx => Or.inr ?_
    rwa [Segment.stop, Nat.add_sub_cancel_left]
  · exact h.freeList.agreeOff hAgree fun x hx =>
      h.layout.links_outside_block h.freeLocs hc hbIn hNew hx
  · intro l hl
    apply (h.freeLocs l hl).update h.layout.ids hc hMid hf
    rintro hId d hd hOff
    rw [List.mem_singleton] at hd
    subst hd
    exact hNew (by rw [← hId, hOff]; exact hl)

/-- A block that is in no list changes its owner. Its place and its size stay. -/
theorem Rep.remark (hw : Covers w cs.length) (h : Rep π s cs fr) (hc : c ∈ cs)
    (hBlocks : c.blocks = left ++ b :: right) (hNew : ⟨c.id, b.off⟩ ∉ fr) (owner : Option Nat)
    {f : List Block → List Block}
    (hf : f c.blocks = left ++ [⟨b.off, b.size, owner⟩] ++ right) :
    ∃ u m,
      store32 (headerAllocated (π c.id + b.off)) (if owner.isNone then 0 else 1) s = .ok ((), u) ∧
      writeFooterWithin w (π c.id + b.off) u = .ok ((), { s with mem := m }) ∧
      Rep π { s with mem := m } (updateChunk cs c.id f) fr ∧
      AgreeOff (span (π c.id + b.off) b.size) s.mem m := by
  have hInside := h.layout.inside c hc
  have hShaped := h.layout.shaped c hc
  have hbIn : b ∈ c.blocks := by simp [hBlocks]
  have hBounds := hShaped.bounds hbIn
  have hTags := h.tags c hc b hbIn
  obtain ⟨hFlag, hFooter⟩ := h.mark hw hc (if owner.isNone then 0 else 1) (by omega) hTags.size
    (by omega) (by omega)
  have hNewTags := tags_markMem (b := ⟨b.off, b.size, owner⟩) hTags.size (by simp only; omega)
    (by simp only; omega)
  have hAgree := markMem_agreeOff s.mem (π c.id + b.off) (if owner.isNone then 0 else 1)
    (by omega : 32 ≤ b.size)
  replace hNewTags : Tags (markMem s.mem (π c.id + b.off) b.size (if owner.isNone then 0 else 1))
    (π c.id + b.off) ⟨b.off, b.size, owner⟩ := hNewTags
  generalize markMem s.mem (π c.id + b.off) b.size (if owner.isNone then 0 else 1) = m
    at hFooter hNewTags hAgree
  refine ⟨_, m, hFlag, hFooter, ?_, hAgree⟩
  refine h.recut_block hc hBlocks hNew hf ⟨rfl, by simp only; omega, rfl⟩ ?_ (by simp) hAgree ?_
  · simp only [List.mem_singleton, forall_eq]
    exact hShaped.sizes b hbIn
  · simp only [List.mem_singleton, forall_eq]
    exact hNewTags

/-- The whole block is given away, as the rest of it would be too small for a block. Its size
field keeps the larger size. -/
theorem splitBlock_whole (hw : Covers w cs.length) (h : Rep π s cs fr) (hc : c ∈ cs)
    (hBlocks : c.blocks = left ++ b :: right) (hNew : ⟨c.id, b.off⟩ ∉ fr)
    (hFits : need req ≤ b.size) (hSmall : ¬splitLeast ≤ b.size - need req) :
    ∃ m, splitBlockWithin w (π c.id + b.off) (alignUp req) s = .ok ((), { s with mem := m }) ∧
      Rep π { s with mem := m } (updateChunk cs c.id (carve b.off (need req) splitLeast req)) fr ∧
      AgreeOff (span (π c.id + b.off) b.size) s.mem m := by
  have hbIn : b ∈ c.blocks := by simp [hBlocks]
  have hShaped := h.layout.shaped c hc
  have hBounds := hShaped.bounds hbIn
  have hInside := h.layout.inside c hc
  have hTiled := hShaped.tiled
  rw [hBlocks] at hTiled
  have hCarve : b.carve (need req) splitLeast req = [⟨b.off, b.size, some req⟩] := if_neg hSmall
  have hf : carve b.off (need req) splitLeast req c.blocks =
      left ++ [⟨b.off, b.size, some req⟩] ++ right := by
    rw [hBlocks, carve_eq hTiled, hCarve]
  obtain ⟨u, m, hFlag, hFooter, hRep, hAgree⟩ := h.remark hw hc hBlocks hNew (some req) hf
  refine ⟨m, ?_, hRep, hAgree⟩
  have hLoad : blockSize (π c.id + b.off) s = .ok (b.size, s) := by
    rw [h.blockSize_ok hc (by omega) (by omega), (h.tags c hc b hbIn).size]
  rw [splitBlockWithin, Program.bind_ok hLoad]
  simp only [totalSize_eq (by omega : need req < 2 ^ 64), leastRest_eq]
  rw [sub64_eq hFits (by omega), if_neg hSmall, setAlloc]
  exact (Program.bind_ok hFlag).trans hFooter

/-- The block is shortened and marked as allocated, and the rest of it becomes a
free block that is in no list. -/
theorem Rep.cut (hw : Covers w cs.length) (h : Rep π s cs fr) (hc : c ∈ cs)
    (hBlocks : c.blocks = left ++ b :: right) (hNew : ⟨c.id, b.off⟩ ∉ fr) (hReq : 0 < req)
    (hFits : need req ≤ b.size) (hLarge : splitLeast ≤ b.size - need req)
    {f : List Block → List Block}
    (hf : f c.blocks = left ++
      [⟨b.off, need req, some req⟩, ⟨b.off + need req, b.size - need req, none⟩] ++ right) :
    ∃ u₁ u₂ v w₁ w₂ m,
      store64 (headerSizeField (π c.id + b.off)) (need req) s = .ok ((), u₁) ∧
      setAlloc (π c.id + b.off) u₁ = .ok ((), u₂) ∧
      writeFooterWithin w (π c.id + b.off) u₂ = .ok ((), v) ∧
      store64 (headerSizeField (π c.id + b.off + need req)) (b.size - need req) v = .ok ((), w₁) ∧
      setFree (π c.id + b.off + need req) w₁ = .ok ((), w₂) ∧
      writeFooterWithin w (π c.id + b.off + need req) w₂ = .ok ((), { s with mem := m }) ∧
      Rep π { s with mem := m } (updateChunk cs c.id f) fr ∧
      AgreeOff (span (π c.id + b.off) b.size) s.mem m := by
  have hbIn : b ∈ c.blocks := by simp [hBlocks]
  have hShaped := h.layout.shaped c hc
  have hBounds := hShaped.bounds hbIn
  have hSizes := hShaped.sizes b hbIn
  have hInside := h.layout.inside c hc
  have hNeed := need_bounds hReq
  have hRest : 64 ≤ b.size - need req := hLarge
  have hTag := tagMem_agreeOff s.mem (π c.id + b.off) 1 (by omega : 32 ≤ need req)
  have hTag' := tagMem_agreeOff (tagMem s.mem (π c.id + b.off) (need req) 1)
    (π c.id + b.off + need req) 0 (by omega : 32 ≤ b.size - need req)
  obtain ⟨hSize, hFlag, hFooter⟩ := h.tag hw hc 1 (a := π c.id + b.off) (n := need req)
    (by omega) (by omega) (by omega)
  have hPage := h.toPageRep.write_run hc (by omega) (by omega) hTag
  obtain ⟨hSize', hFlag', hFooter'⟩ := hPage.tag hw hc 0
    (a := π c.id + b.off + need req) (n := b.size - need req) (by omega) (by omega) (by omega)
  have hAgree : AgreeOff (span (π c.id + b.off) b.size) s.mem
      (tagMem (tagMem s.mem (π c.id + b.off) (need req) 1) (π c.id + b.off + need req)
        (b.size - need req) 0) := by
    refine (hTag.mono (span_subset ?_ ?_)).trans (hTag'.mono (span_subset ?_ ?_)) <;> omega
  refine ⟨_, _, _, _, _, _, hSize, hFlag, hFooter, hSize', hFlag', hFooter', ?_, hAgree⟩
  refine h.recut_block hc hBlocks hNew hf ⟨rfl, by simp only; omega, ?_⟩ ?_ (by simp) hAgree ?_
  · show b.off + need req = b.off + need req ∧ 0 < b.size - need req ∧
      b.off + need req + (b.size - need req) = b.off + b.size
    omega
  · simp only [List.mem_cons, List.not_mem_nil, or_false, forall_eq_or_imp, forall_eq]
    omega
  · intro d hd
    simp only [List.mem_cons, List.not_mem_nil, or_false] at hd
    rcases hd with rfl | rfl
    · refine (tags_tagMem (m := s.mem) (b := ⟨b.off, need req, some req⟩) (by simp only; omega)
        (by simp only; omega)).congr fun x hx => hTag' x ?_
      simp only [Set.mem_union, mem_span] at hx ⊢
      omega
    · rw [← Nat.add_assoc]
      exact tags_tagMem (b := ⟨b.off + need req, b.size - need req, none⟩) (by simp only; omega)
        (by simp only; omega)

/-- The rest of the block becomes a free block in front of the free list, and the first part
has exactly the size of the request. -/
theorem splitBlock_rest (hw : Covers w cs.length) (h : Rep π s cs fr) (hc : c ∈ cs)
    (hBlocks : c.blocks = left ++ b :: right) (hNew : ⟨c.id, b.off⟩ ∉ fr) (hReq : 0 < req)
    (hFits : need req ≤ b.size) (hLarge : splitLeast ≤ b.size - need req) :
    ∃ m, splitBlockWithin w (π c.id + b.off) (alignUp req) s =
        .ok ((), { s with mem := m, freeListHead := Loc.payload π ⟨c.id, b.off + need req⟩ }) ∧
      Rep π { s with mem := m, freeListHead := Loc.payload π ⟨c.id, b.off + need req⟩ }
        (updateChunk cs c.id (carve b.off (need req) splitLeast req))
        (⟨c.id, b.off + need req⟩ :: fr) ∧
      AgreeOff (linkWords (fr.map (Loc.payload π)) ∪ span (π c.id + b.off) b.size) s.mem m := by
  have hbIn : b ∈ c.blocks := by simp [hBlocks]
  have hShaped := h.layout.shaped c hc
  have hBounds := hShaped.bounds hbIn
  have hInside := h.layout.inside c hc
  have hNeed := need_bounds hReq
  have hRest : 64 ≤ b.size - need req := hLarge
  have hf : carve b.off (need req) splitLeast req c.blocks = left ++
      [⟨b.off, need req, some req⟩, ⟨b.off + need req, b.size - need req, none⟩] ++ right := by
    have hTiled := hShaped.tiled
    rw [hBlocks] at hTiled ⊢
    rw [carve_eq hTiled, Segment.carve, if_pos hLarge]
  obtain ⟨u₁, u₂, v, w₁, w₂, m₁, hSize, hFlag, hFooter, hSize', hFlag', hFooter', hCut, hAgree⟩ :=
    h.cut hw hc hBlocks hNew hReq hFits hLarge hf
  have hRestIn : FreeIn (updateChunk cs c.id (carve b.off (need req) splitLeast req))
      ⟨c.id, b.off + need req⟩ :=
    FreeIn.updated (b := ⟨b.off + need req, b.size - need req, none⟩) h.layout.ids hc
      (by simp [hf]) rfl
  have hRestNew : (⟨c.id, b.off + need req⟩ : Loc) ∉ fr := by
    intro hIn
    obtain ⟨d, hd, e, he, hId, hOff, -⟩ := h.layout.payload (h.freeLocs _ hIn)
    obtain rfl := h.layout.eq_of_id hd hc hId
    have hOff : e.off = b.off + need req := hOff
    have hApart := hShaped.tiled.apart he hbIn (by rintro rfl; omega)
    have := (hShaped.bounds he).2.1
    unfold Segment.stop at hApart
    omega
  obtain ⟨m, hInsert, hRep, hLinks⟩ := hCut.insert_ok hRestIn hRestNew
  rw [Loc.payload_mk, ← Nat.add_assoc] at hInsert hRep ⊢
  refine ⟨m, ?_, hRep, (hAgree.mono fun x hx => Or.inr hx).trans (hLinks.mono ?_)⟩
  · have hLoad : blockSize (π c.id + b.off) s = .ok (b.size, s) := by
      rw [h.blockSize_ok hc (by omega) (by omega), (h.tags c hc b hbIn).size]
    rw [splitBlockWithin, Program.bind_ok hLoad]
    simp only [totalSize_eq (by omega : need req < 2 ^ 64), leastRest_eq]
    rw [sub64_eq hFits (by omega), if_pos hLarge, Program.bind_ok hSize, Program.bind_ok hFlag,
      Program.bind_ok hFooter, add64_eq (by omega : π c.id + b.off + need req < 2 ^ 64),
      Program.bind_ok hSize', Program.bind_ok hFlag', Program.bind_ok hFooter', hdrSize_eq,
      add64_eq (by omega : π c.id + b.off + need req + 16 < 2 ^ 64)]
    exact hInsert
  · rw [List.map_cons, Loc.payload_mk]
    exact linkWords_cons_subset (List.Subset.refl _) (by omega) (by omega)

/-- `split_block` carves the block for the request, and what is worth keeping
of it goes to the free list. -/
theorem splitBlock_ok (hw : Covers w cs.length) (h : Rep π s cs fr) (hc : c ∈ cs)
    (hBlocks : c.blocks = left ++ b :: right) (hNew : ⟨c.id, b.off⟩ ∉ fr) (hReq : 0 < req)
    (hFits : need req ≤ b.size) :
    ∃ m head, splitBlockWithin w (π c.id + b.off) (alignUp req) s =
        .ok ((), { s with mem := m, freeListHead := head }) ∧
      Rep π { s with mem := m, freeListHead := head }
        (updateChunk cs c.id (carve b.off (need req) splitLeast req))
        (leftover ⟨c.id, b.off⟩ b.size req ++ fr) ∧
      AgreeOff (linkWords (fr.map (Loc.payload π)) ∪ span (π c.id + b.off) b.size) s.mem m := by
  unfold leftover
  by_cases hLarge : splitLeast ≤ b.size - need req
  · obtain ⟨m, hRun, hRep, hAgree⟩ := splitBlock_rest hw h hc hBlocks hNew hReq hFits hLarge
    rw [if_pos hLarge]
    exact ⟨m, _, hRun, hRep, hAgree⟩
  · obtain ⟨m, hRun, hRep, hAgree⟩ := splitBlock_whole hw h hc hBlocks hNew hFits hLarge
    rw [if_neg hLarge]
    exact ⟨m, s.freeListHead, hRun, hRep, hAgree.mono fun x hx => Or.inr hx⟩

end Blocks

end Malloc
