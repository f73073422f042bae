import Coursework.Malloc.View
import Coursework.Malloc.Walks

/-! Finding the chunk of an address, and from a block its neighbours. -/

namespace Malloc

open Tiling Bytes DoublyLinked

/-- The page list leads through `chunks`, which are apart from each other and
mapped, and whose headers say where they end. -/
structure Paged (s : Process) (chunks : List ChunkView) : Prop where
  pageList : Follows s.mem s.pageListHead (chunks.map ChunkView.base)
  ends : ∀ c ∈ chunks, s.mem.read (c.base + 24) 8 = c.stop
  stop : ∀ c ∈ chunks, c.stop = c.base + c.size
  room : ∀ c ∈ chunks, 32 ≤ c.size
  mapped : ∀ c ∈ chunks, ∀ x ∈ span c.base c.size, s.os.mapped (x / apageSize) = true
  apart : chunks.Pairwise fun c d => Apart c.base c.size d.base d.size

/-- The end of the chunk can be read from its header. -/
structure Bounded (s : Process) (c : ChunkView) : Prop where
  nonzero : c.base ≠ 0
  room : c.base + 32 ≤ c.stop
  inside : c.stop < 2 ^ 64
  readable : s.os.accessible (c.base + 24) 8 = true
  stop : s.mem.read (c.base + 24) 8 = c.stop

/-- The page list leads to the chunk `c` through the chunks in `before`. -/
structure Leads (s : Process) (before : List ChunkView) (c : ChunkView) : Prop where
  walk : Trail c.base (fun x => s.mem.read (x + 8) 8) s.pageListHead (before.map ChunkView.base)
  here : Bounded s c
  passed : ∀ d ∈ before, Bounded s d ∧ s.os.accessible (d.base + 8) 8 = true
  apart : ∀ d ∈ before, d.stop ≤ c.base ∨ c.stop ≤ d.base

/-- The chunk is cut into blocks with a header and a footer that agree. -/
structure Cut (s : Process) (c : ChunkView) : Prop where
  tiled : BlocksFrom s.mem c.stop (c.base + 32) c.blocks
  sizes : ∀ b ∈ c.blocks, b.size % 16 = 0 ∧ 48 ≤ b.size
  footers : ∀ b ∈ c.blocks, b.footer = b.size

/-- The header of a block, or `NULL`. -/
def headerOf (b : Option BlockView) : Nat := (b.map BlockView.addr).getD 0

@[simp] theorem headerOf_none : headerOf none = 0 := rfl

@[simp] theorem headerOf_some (b : BlockView) : headerOf (some b) = b.addr := rfl

section Leads

variable {s : Process} {before : List ChunkView} {c d : ChunkView} {w a n : Nat}

theorem Bounded.load_pageEnd (h : Bounded s c) :
    load64 (pageEndField c.base) s = .ok (c.stop, s) := by
  have hRoom := h.room
  have hInside := h.inside
  rw [pageEndField, add64_eq (by omega), load64_ok h.readable, h.stop]

/-- The walk over the page list passes the chunks that do not hold `a`. The induction is on
these, and each of them takes a step of the bound. -/
theorem findPageChunkForAddrLoop_ok {p steps : Nat} (hHere : Bounded s c) (hLow : c.base + 32 ≤ a)
    (hHigh : a < c.stop) (hSteps : before.length < steps)
    (hWalk : Trail c.base (fun x => s.mem.read (x + 8) 8) p (before.map ChunkView.base))
    (hPassed : ∀ d ∈ before, (Bounded s d ∧ s.os.accessible (d.base + 8) 8 = true) ∧
      (d.stop ≤ c.base ∨ c.stop ≤ d.base)) :
    findPageChunkForAddrLoop a steps p s = .ok (c.base, s) := by
  obtain ⟨steps, rfl⟩ : ∃ n, steps = n + 1 := ⟨steps - 1, by omega⟩
  induction before generalizing p steps with
  | nil =>
      -- All chunks before `c` are passed, so the walk is at `c`.
      obtain rfl : p = c.base := hWalk
      have hRoom := hHere.room
      have hInside := hHere.inside
      rw [findPageChunkForAddrLoop, if_neg hHere.nonzero, Program.bind_ok hHere.load_pageEnd,
        pageHdrSize_eq, add64_eq (by omega), if_pos ⟨hLow, hHigh⟩]
      rfl
  | cons d before ih =>
      rw [List.length_cons] at hSteps
      obtain ⟨steps, rfl⟩ : ∃ n, steps = n + 1 := ⟨steps - 1, by omega⟩
      rw [List.map_cons] at hWalk
      obtain ⟨rfl, -, hRest⟩ := hWalk
      obtain ⟨⟨⟨hd, hNext⟩, hApart⟩, hOthers⟩ := List.forall_mem_cons.mp hPassed
      have hRoom := hd.room
      have hInside := hd.inside
      have hOut : ¬(d.base + 32 ≤ a ∧ a < d.stop) := by omega
      have hLoad : load64 (nextChunk d.base) s = .ok (s.mem.read (d.base + 8) 8, s) := by
        rw [nextChunk, add64_eq (by omega), load64_ok hNext]
      rw [findPageChunkForAddrLoop, if_neg hd.nonzero, Program.bind_ok hd.load_pageEnd,
        pageHdrSize_eq, add64_eq (by omega), if_neg hOut, Program.bind_ok hLoad]
      exact ih hRest hOthers steps (by omega)

/-- The search goes through the chunks before the one that it looks for, and ends there with
the base of it. -/
theorem Leads.findPageChunkForAddr_ok (h : Leads s before c) (hw : before.length < w)
    (hLow : c.base + 32 ≤ a) (hHigh : a < c.stop) :
    findPageChunkForAddrWithin w a s = .ok (c.base, s) := by
  rw [findPageChunkForAddrWithin, Program.bind_ok (Program.read_apply s)]
  exact findPageChunkForAddrLoop_ok h.here hLow hHigh hw h.walk fun d hd =>
    ⟨h.passed d hd, h.apart d hd⟩

/-- The first block of a chunk has none before it. The code compares with the end of the page
header before it reads a footer. -/
theorem Leads.getPrevBlock_first (h : Leads s before c) (hw : before.length < w)
    (hHigh : c.base + 32 < c.stop) : getPrevBlockWithin w (c.base + 32) s = .ok (0, s) := by
  have hInside := h.here.inside
  rw [getPrevBlockWithin, Program.bind_ok (h.findPageChunkForAddr_ok hw (Nat.le_refl _) hHigh),
    if_neg h.here.nonzero, Program.bind_ok h.here.load_pageEnd]
  simp only [pageHdrSize_eq, fdrSize_eq]
  -- A footer before the first block would lie in the page header.
  rw [add64_eq (by omega : c.base + 32 < 2 ^ 64),
    sub64_eq (by omega : 16 ≤ c.base + 32) (by omega), if_pos (by omega)]
  rfl

/-- The block of `n` bytes at `a` is found from its end through its footer, which lies in the
same chunk. -/
theorem Leads.getPrevBlock_ok (h : Leads s before c) (hw : before.length < w)
    (hLow : c.base + 32 ≤ a) (hMin : 32 ≤ n) (hHigh : a + n < c.stop)
    (hReadable : s.os.accessible (a + n - 16) 8 = true)
    (hFooter : s.mem.read (a + n - 16) 8 = n) :
    getPrevBlockWithin w (a + n) s = .ok (a, s) := by
  have hInside := h.here.inside
  have hLoad : load64 (footerSizeField (a + n - 16)) s = .ok (n, s) := by
    rw [footerSizeField_eq, load64_ok hReadable, hFooter]
  rw [getPrevBlockWithin, Program.bind_ok (h.findPageChunkForAddr_ok hw (by omega) hHigh),
    if_neg h.here.nonzero, Program.bind_ok h.here.load_pageEnd]
  simp only [pageHdrSize_eq, fdrSize_eq, hdrSize_eq]
  -- The footer is in the chunk, its size is plausible, and the header is in the chunk.
  rw [add64_eq (by omega : c.base + 32 < 2 ^ 64), sub64_eq (by omega : 16 ≤ a + n) (by omega),
    add64_eq (by omega : a + n - 16 + 16 < 2 ^ 64), if_neg (by omega), Program.bind_ok hLoad,
    add64_eq (by omega : 16 + 16 < 2 ^ 64), sub64_eq (by omega : c.base + 32 ≤ c.stop) (by omega),
    if_neg (by omega), sub64_eq (by omega : n ≤ a + n) (by omega), Nat.add_sub_cancel,
    add64_eq (by omega : a + 16 < 2 ^ 64), if_neg (by omega)]
  rfl

/-- The end of the block at `a` is the next block, unless the chunk ends there. A block of the
next chunk is never taken for it, even where the chunks touch. -/
theorem Leads.getNextBlock_ok (h : Leads s before c) (hw : before.length < w)
    (hLow : c.base + 32 ≤ a) (hMin : 16 ≤ n) (hHigh : a + n = c.stop ∨ a + n + 16 ≤ c.stop)
    (hReadable : s.os.accessible a 8 = true) (hSize : s.mem.read a 8 = n) :
    getNextBlockWithin w a s = .ok (if a + n = c.stop then 0 else a + n, s) := by
  have hInside := h.here.inside
  have hLoad : blockSize a s = .ok (n, s) := by
    rw [blockSize, headerSizeField_eq, load64_ok hReadable, hSize]
  rw [getNextBlockWithin, Program.bind_ok (h.findPageChunkForAddr_ok hw hLow (by omega)),
    if_neg h.here.nonzero, Program.bind_ok h.here.load_pageEnd]
  simp only [pageHdrSize_eq, fdrSize_eq, hdrSize_eq]
  rw [Program.bind_ok hLoad, add64_eq (by omega : c.base + 32 < 2 ^ 64),
    add64_eq (by omega : a + n < 2 ^ 64), sub64_eq (by omega : 16 ≤ a + n) (by omega),
    add64_eq (by omega : a + n - 16 + 16 < 2 ^ 64), if_neg (by omega), Program.bind_ok hLoad,
    add64_eq (by omega : a + n < 2 ^ 64)]
  by_cases hLast : a + n = c.stop
  · rw [if_pos (by omega), if_pos hLast]
    rfl
  · rw [if_neg (by omega), add64_eq (by omega : a + n + 16 < 2 ^ 64), if_neg (by omega),
      if_neg hLast]
    rfl

end Leads

section Cut

variable {s : Process} {before : List ChunkView} {c : ChunkView} {left right : List BlockView}
  {b : BlockView} {w : Nat}

/-- What memory shows of a chunk is a cutting of it into blocks. -/
theorem Cut.tiles (h : Cut s c) : Tiles (c.base + 32) c.stop (c.blocks.map BlockView.segment) :=
  h.tiled.tiles fun b hb => Nat.lt_of_lt_of_le (by decide) (h.sizes b hb).2

/-- The blocks that memory shows lie within the chunk and after its header. -/
theorem Cut.bounds (h : Cut s c) (hb : b ∈ c.blocks) :
    c.base + 32 ≤ b.addr ∧ 48 ≤ b.size ∧ b.addr + b.size ≤ c.stop := by
  obtain ⟨hLow, -, hHigh⟩ := h.tiles.bounds (List.mem_map_of_mem hb)
  exact ⟨hLow, (h.sizes b hb).2, hHigh⟩

/-- The tags of a block in the chunk: header and footer say the same size. -/
theorem Cut.tags (h : Cut s c) (hb : b ∈ c.blocks) :
    s.mem.read b.addr 8 = b.size ∧ s.mem.read (b.addr + b.size - 16) 8 = b.size := by
  have hView := h.tiled.eq_blockView b hb
  have hSize := congrArg BlockView.size hView
  have hFooter := congrArg BlockView.footer hView
  simp only [blockView] at hSize hFooter
  rw [← hSize, h.footers b hb] at hFooter
  exact ⟨hSize.symm, hFooter.symm⟩

/-- The blocks before a given one end where it starts, and those after it start
where it ends. -/
theorem Cut.around (h : Cut s c) (hBlocks : c.blocks = left ++ b :: right) :
    Tiles (c.base + 32) b.addr (left.map BlockView.segment) ∧
      Tiles (b.addr + b.size) c.stop (right.map BlockView.segment) := by
  have hTiles := h.tiles
  rw [hBlocks, List.map_append, List.map_cons] at hTiles
  obtain ⟨hLeft, -, hRight⟩ := hTiles.around
  exact ⟨hLeft, hRight⟩

/-- The last block ends where the chunk does, and so has no next block. -/
theorem Cut.stop_of_last (h : Cut s c) (hBlocks : c.blocks = left ++ [b]) :
    b.addr + b.size = c.stop := (h.around hBlocks).2

/-- The first block begins after the page header, and so has no block before it. -/
theorem Cut.start_of_first (h : Cut s c) (hBlocks : c.blocks = b :: right) :
    c.base + 32 = b.addr := by
  have hSplit : c.blocks = [] ++ b :: right := hBlocks
  exact (h.around hSplit).1

/-- Between two blocks that follow each other there is nothing. -/
theorem Cut.adjacent {a : BlockView} (h : Cut s c) (hBlocks : c.blocks = left ++ a :: b :: right) :
    a.addr + a.size = b.addr := (h.around hBlocks).2.1.symm

/-- The block before `b` is found through its footer, and the first block of a
chunk has none. -/
theorem Cut.getPrevBlock_ok (h : Cut s c) (hLeads : Leads s before c) (hw : before.length < w)
    (hMapped : ∀ x, c.base ≤ x → x < c.stop → s.os.mapped (x / apageSize) = true)
    (hBlocks : c.blocks = left ++ b :: right) :
    getPrevBlockWithin w b.addr s = .ok (headerOf left.getLast?, s) := by
  have hb := h.bounds (b := b) (by simp [hBlocks])
  rcases List.eq_nil_or_concat left with rfl | ⟨rest, a, rfl⟩
  · rw [← h.start_of_first hBlocks]
    exact hLeads.getPrevBlock_first hw (by omega)
  · rw [List.concat_eq_append, List.append_assoc] at hBlocks
    have haIn : a ∈ c.blocks := by simp [hBlocks]
    have ha := h.bounds haIn
    have hStop : a.addr + a.size = b.addr := h.adjacent hBlocks
    have hReadable : s.os.accessible (a.addr + a.size - 16) 8 = true :=
      OS.accessible_of_mapped hMapped (by omega) (by omega) (by omega)
    rw [List.concat_eq_append, List.getLast?_concat, headerOf_some, ← hStop]
    exact hLeads.getPrevBlock_ok hw ha.1 (by omega) (by omega) hReadable (h.tags haIn).2

/-- The block after `b` is found through its size, and the last block of a
chunk has none. -/
theorem Cut.getNextBlock_ok (h : Cut s c) (hLeads : Leads s before c) (hw : before.length < w)
    (hMapped : ∀ x, c.base ≤ x → x < c.stop → s.os.mapped (x / apageSize) = true)
    (hBlocks : c.blocks = left ++ b :: right) :
    getNextBlockWithin w b.addr s = .ok (headerOf right.head?, s) := by
  have hbIn : b ∈ c.blocks := by simp [hBlocks]
  have hb := h.bounds hbIn
  have hReadable : s.os.accessible b.addr 8 = true :=
    OS.accessible_of_mapped hMapped (by omega) (by omega) (by omega)
  have hCall := fun hHigh => hLeads.getNextBlock_ok hw hb.1 (by omega : 16 ≤ b.size) hHigh
    hReadable (h.tags hbIn).1
  cases right with
  | nil =>
      have hLast := h.stop_of_last hBlocks
      rw [hCall (Or.inl hLast), if_pos hLast]
      rfl
  | cons a after =>
      have ha := h.bounds (b := a) (by simp [hBlocks])
      have hStart : b.addr + b.size = a.addr := h.adjacent hBlocks
      rw [hCall (Or.inr (by omega)), if_neg (by omega), hStart]
      rfl

end Cut

section Paged

variable {s : Process} {chunks before after : List ChunkView} {c d : ChunkView}

theorem Paged.accessible (h : Paged s chunks) (hc : c ∈ chunks) {x n : Nat} (hLow : c.base ≤ x)
    (hPos : 0 < n) (hHigh : x + n ≤ c.stop) : s.os.accessible x n = true := by
  rw [h.stop c hc] at hHigh
  exact OS.accessible_of_mapped (fun y hy hy' => h.mapped c hc y ⟨hy, hy'⟩) hLow hPos hHigh

/-- A chunk in the page list has a field with its end, which can be read. -/
theorem Paged.bounded (h : Paged s chunks) (hc : c ∈ chunks) : Bounded s c where
  nonzero := h.pageList.ne_null _ (List.mem_map_of_mem hc)
  room := by
    have := h.stop c hc
    have := h.room c hc
    omega
  inside := h.ends c hc ▸ read_lt s.mem _ 8
  readable := by
    have := h.stop c hc
    have := h.room c hc
    exact h.accessible hc (by omega) (by omega) (by omega)
  stop := h.ends c hc

theorem Paged.apart_of_ne (h : Paged s chunks) (hc : c ∈ chunks) (hd : d ∈ chunks) (hNe : c ≠ d) :
    Apart c.base c.size d.base d.size := by
  have hSymm : Std.Symm fun c d : ChunkView => Apart c.base c.size d.base d.size :=
    ⟨fun _ _ => Or.symm⟩
  exact h.apart.forall hc hd hNe

/-- No two chunks start at the same address, so the page list does not come back to one. -/
theorem Paged.nodup (h : Paged s chunks) : (chunks.map ChunkView.base).Nodup := by
  refine List.Pairwise.map _ (fun a b hab => hab) (h.apart.imp_of_mem fun {a b} ha hb hApart => ?_)
  have := h.room a ha
  have := h.room b hb
  unfold Apart at hApart
  omega

/-- There are no more chunks than addresses. The bound on the walk is larger than that. -/
theorem Paged.length_le (h : Paged s chunks) : chunks.length ≤ walkBound := by
  have hLength := h.nodup.length_le_of_lt (n := 2 ^ 64) fun x hx => by
    obtain ⟨c, hc, rfl⟩ := List.mem_map.mp hx
    have hRoom := (h.bounded hc).room
    have hInside := (h.bounded hc).inside
    omega
  rwa [List.length_map] at hLength

/-- The page list leads to each of its chunks, past others that do not hold its addresses. -/
theorem Paged.leads (h : Paged s (before ++ c :: after)) : Leads s before c := by
  have hHere : c ∈ before ++ c :: after := by simp
  have hBefore : ∀ d ∈ before, d ∈ before ++ c :: after := fun d hd => by simp [hd]
  refine ⟨?_, h.bounded hHere, fun d hd => ⟨h.bounded (hBefore d hd), ?_⟩, fun d hd => ?_⟩
  · have hWalk := h.pageList
    have hNodup := h.nodup
    rw [List.map_append, List.map_cons] at hWalk hNodup
    exact hWalk.to_node fun hIn => (List.nodup_append.mp hNodup).2.2 _ hIn _ List.mem_cons_self rfl
  · have := (h.bounded (hBefore d hd)).room
    exact h.accessible (hBefore d hd) (by omega) (by omega) (by omega)
  · have hApart := (List.pairwise_append.mp h.apart).2.2 d hd c List.mem_cons_self
    have := h.stop c hHere
    have := h.stop d (hBefore d hd)
    unfold Apart at hApart
    omega

end Paged

variable {π : Nat → Nat} {s : Process} {cs : List Chunk} {c : Chunk} {b : Block} {w : Nat}

/-- The chunks of a heap in memory are on its page list, each once and with its size. -/
theorem PageRep.paged (h : PageRep π s cs) : Paged s (cs.map (Chunk.view π)) where
  pageList := by
    rw [List.map_map]
    exact h.pageList.follows
  ends := by
    intro c hc
    obtain ⟨d, hd, rfl⟩ := List.mem_map.mp hc
    exact h.pageEnd d hd
  stop := by
    intro c hc
    obtain ⟨d, hd, rfl⟩ := List.mem_map.mp hc
    rfl
  room := by
    intro c hc
    obtain ⟨d, hd, rfl⟩ := List.mem_map.mp hc
    exact Nat.le_trans (by decide) (h.layout.shaped d hd).size_bounds
  mapped := by
    intro c hc x ⟨hLow, hHigh⟩
    obtain ⟨d, hd, rfl⟩ := List.mem_map.mp hc
    exact h.layout.mapped d hd x hLow hHigh
  apart := by
    rw [List.pairwise_map]
    exact h.layout.ids.of_map.pairwise_of_forall_ne h.layout.apart

/-- The page list leads to the chunks of a heap in memory. -/
theorem PageRep.leads (hw : Covers w cs.length) (h : PageRep π s cs) (hc : c ∈ cs) :
    ∃ before, before.length < w ∧ Leads s before (c.view π) := by
  have hPaged := h.paged
  have hLength := hPaged.length_le
  rw [List.length_map] at hLength
  have hSteps := hw.le hLength
  obtain ⟨left, right, rfl⟩ := List.append_of_mem hc
  rw [List.map_append, List.map_cons] at hPaged
  refine ⟨_, ?_, hPaged.leads⟩
  rw [List.length_append, List.length_cons] at hSteps
  rw [List.length_map]
  omega

theorem PageRep.load_pageEnd (h : PageRep π s cs) (hc : c ∈ cs) :
    load64 (pageEndField (π c.id)) s = .ok (π c.id + c.size, s) :=
  (h.paged.bounded (List.mem_map_of_mem hc)).load_pageEnd

theorem PageRep.load_next (h : PageRep π s cs) (hc : c ∈ cs) :
    load64 (nextChunk (π c.id)) s = .ok (memNext s.mem s.pageListHead (π c.id), s) := by
  have hSize := (h.layout.shaped c hc).size_bounds
  have hInside := h.layout.inside c hc
  have hPos := h.layout.nonzero c hc
  rw [nextChunk, add64_eq (by omega),
    load64_ok (h.layout.accessible hc (by omega) (by omega) (by omega)), memNext,
    if_neg (Nat.ne_of_gt hPos)]

theorem PageRep.blockSize_ok (h : PageRep π s cs) (hc : c ∈ cs) {a : Nat} (hLow : π c.id ≤ a)
    (hHigh : a + 8 ≤ π c.id + c.size) : blockSize a s = .ok (s.mem.read a 8, s) := by
  rw [blockSize, headerSizeField_eq,
    load64_ok (h.layout.accessible hc hLow (by omega) hHigh)]

theorem PageRep.getAlloc_ok (h : PageRep π s cs) (hc : c ∈ cs) {a : Nat} (hLow : π c.id ≤ a)
    (hHigh : a + 12 ≤ π c.id + c.size) : getAlloc a s = .ok (s.mem.read (a + 8) 4, s) := by
  have hInside := h.layout.inside c hc
  rw [getAlloc, headerAllocated, add64_eq (by omega),
    load32_ok (h.layout.accessible hc (by omega) (by omega) (by omega))]

/-- The chunk of an address between a page header and its page end is found. There is one such
chunk, as they do not overlap. -/
theorem findPageChunkForAddr_ok (hw : Covers w cs.length) (h : PageRep π s cs) (hc : c ∈ cs)
    {a : Nat} (hLow : π c.id + 32 ≤ a) (hHigh : a < π c.id + c.size) :
    findPageChunkForAddrWithin w a s = .ok (π c.id, s) := by
  obtain ⟨before, hSteps, hLeads⟩ := PageRep.leads hw h hc
  exact hLeads.findPageChunkForAddr_ok hSteps hLow hHigh

/-- A footer inside the chunk is written without complaint. The check against the end of the
chunk passes. -/
theorem writeFooter_ok (hw : Covers w cs.length) (h : PageRep π s cs) (hc : c ∈ cs) {a n : Nat}
    (hLow : π c.id + 32 ≤ a) (hSize : s.mem.read a 8 = n) (hMin : 16 ≤ n)
    (hHigh : a + n ≤ π c.id + c.size) :
    writeFooterWithin w a s = .ok ((), { s with mem := s.mem.write (a + n - 16) 8 n }) := by
  have hInside := h.layout.inside c hc
  have hLoad : blockSize a s = .ok (n, s) := by
    rw [h.blockSize_ok hc (by omega) (by omega), hSize]
  have hEnd := h.load_pageEnd hc
  have hPos : π c.id ≠ 0 := Nat.ne_of_gt (h.layout.nonzero c hc)
  have hFooter : sub64 (add64 a n) fdrSize = a + n - 16 := by
    rw [fdrSize_eq, add64_eq (by omega), sub64_eq (by omega) (by omega)]
  have hIn : ¬(a + n - 16 < add64 (π c.id) pageHdrSize ∨
      π c.id + c.size < add64 (a + n - 16) fdrSize) := by
    rw [pageHdrSize_eq, fdrSize_eq, add64_eq (by omega), add64_eq (by omega)]
    omega
  rw [writeFooterWithin, Program.bind_ok hLoad,
    Program.bind_ok (findPageChunkForAddr_ok hw h hc hLow (by omega))]
  simp only [hFooter, hPos, ne_eq, not_false_eq_true, if_true, Program.bind_ok hEnd, if_neg hIn]
  rw [Program.bind_ok hLoad, footerSizeField_eq]
  exact store64_ok (h.layout.accessible hc (by omega) (by omega) (by omega))

section Neighbours

variable {left right : List Block}

/-- The header of a block in a chunk, or `NULL`. -/
def headerAt (π : Nat → Nat) (c : Chunk) (b : Option Block) : Nat :=
  (b.map fun b => π c.id + b.off).getD 0

@[simp] theorem headerAt_some (π : Nat → Nat) (c : Chunk) (b : Block) :
    headerAt π c (some b) = π c.id + b.off := rfl

/-- A chunk of a heap in memory is cut as its view shows, from its page header to its end. -/
theorem PageRep.cut (h : PageRep π s cs) (hc : c ∈ cs)
    (hTags : ∀ a ∈ c.blocks, Tags s.mem (π c.id + a.off) a) : Cut s (c.view π) where
  tiled := blocksFrom_view (h.layout.shaped c hc).tiled hTags
  sizes := by
    intro b hb
    obtain ⟨a, ha, rfl⟩ := List.mem_map.mp hb
    exact (h.layout.shaped c hc).sizes a ha
  footers := by
    intro b hb
    obtain ⟨a, ha, rfl⟩ := List.mem_map.mp hb
    rfl

/-- Every chunk of a heap in memory is cut. So the navigation functions may be used on any of
its blocks. -/
theorem Rep.cut_view {fr : List Loc} (h : Rep π s cs fr) :
    ∀ d ∈ cs.map (Chunk.view π), Cut s d := by
  intro d hd
  obtain ⟨c, hc, rfl⟩ := List.mem_map.mp hd
  exact h.toPageRep.cut hc (h.tags c hc)

/-- The header of a block is at its place, whether it is seen in memory or in the layout. -/
theorem headerOf_view (b : Option Block) :
    headerOf (b.map (Block.view (π c.id))) = headerAt π c b := by
  cases b <;> rfl

/-- `get_prev_block` finds the block before, through its footer, or `NULL` for the first block
of a chunk. -/
theorem getPrevBlock_ok (hw : Covers w cs.length) (h : PageRep π s cs) (hc : c ∈ cs)
    (hTags : ∀ a ∈ c.blocks, Tags s.mem (π c.id + a.off) a)
    (hBlocks : c.blocks = left ++ b :: right) :
    getPrevBlockWithin w (π c.id + b.off) s = .ok (headerAt π c left.getLast?, s) := by
  obtain ⟨before, hSteps, hLeads⟩ := PageRep.leads hw h hc
  have hView : (c.view π).blocks = left.map (Block.view (π c.id)) ++
      b.view (π c.id) :: right.map (Block.view (π c.id)) := by simp [Chunk.view, hBlocks]
  have hRun := (h.cut hc hTags).getPrevBlock_ok hLeads hSteps (h.layout.mapped c hc) hView
  rwa [List.getLast?_map, headerOf_view] at hRun

/-- `get_next_block` finds the block behind, or `NULL` for the last block of a chunk. -/
theorem getNextBlock_ok (hw : Covers w cs.length) (h : PageRep π s cs) (hc : c ∈ cs)
    (hTags : ∀ a ∈ c.blocks, Tags s.mem (π c.id + a.off) a)
    (hBlocks : c.blocks = left ++ b :: right) :
    getNextBlockWithin w (π c.id + b.off) s = .ok (headerAt π c right.head?, s) := by
  obtain ⟨before, hSteps, hLeads⟩ := PageRep.leads hw h hc
  have hView : (c.view π).blocks = left.map (Block.view (π c.id)) ++
      b.view (π c.id) :: right.map (Block.view (π c.id)) := by simp [Chunk.view, hBlocks]
  have hRun := (h.cut hc hTags).getNextBlock_ok hLeads hSteps (h.layout.mapped c hc) hView
  rwa [List.head?_map, headerOf_view] at hRun

end Neighbours

end Malloc
