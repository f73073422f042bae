import Coursework.Library.Lists
import Coursework.Library.Tiling

/-! The heap as the allocator's clients see it: chunks cut into blocks, with
the order of the free list. A chunk is named by the number of the `mem_map`
call that created it and a block by its offset in the chunk, so nothing here
depends on where the operating system puts a chunk or on what is in memory. -/

namespace Malloc

open Tiling

/-- A block with its header and footer. Its owner is the size that the client
asked for. -/
abbrev Block : Type := Segment Nat

structure Chunk where
  id : Nat
  size : Nat
  blocks : List Block
deriving DecidableEq, Repr

/-- The place of a block. -/
structure Loc where
  chunk : Nat
  off : Nat
deriving DecidableEq, Repr

structure Heap where
  /-- In the order of the page list. -/
  chunks : List Chunk
  /-- The free blocks in the order of the free list. -/
  free : List Loc
  /-- How many chunks have been created so far. -/
  regions : Nat
deriving DecidableEq, Repr

def alignUp (n : Nat) : Nat := (n + 15) / 16 * 16

/-- The size of the smallest block for a request. -/
def need (req : Nat) : Nat := alignUp req + 32

/-- The least rest that becomes a block of its own. -/
def splitLeast : Nat := 64

/-- The first offset after the page header. -/
def firstOff : Nat := 32

/-- The size of a new chunk for a request: whole pages that hold the page
header and the block. -/
def regionSize (req : Nat) : Nat := (need req + firstOff + 4095) / 4096 * 4096

/-- The free block that fills a chunk of `size` bytes. -/
def wholeBlock (size : Nat) : Block := ⟨firstOff, size - firstOff, none⟩

/-- The chunk that is created for a request. -/
def newChunk (id req : Nat) : Chunk :=
  ⟨id, regionSize req, (wholeBlock (regionSize req)).carve (need req) splitLeast req⟩

/-- What is left of a block of `size` bytes at `l`, when it is worth keeping. -/
def leftover (l : Loc) (size req : Nat) : List Loc :=
  if splitLeast ≤ size - need req then [⟨l.chunk, l.off + need req⟩] else []

/-- A chunk is cut into blocks that are aligned and large enough for their
tags and links, and consists of whole pages. -/
structure Chunk.Shaped (c : Chunk) : Prop where
  tiled : Tiles firstOff c.size c.blocks
  sizes : ∀ b ∈ c.blocks, b.size % 16 = 0 ∧ 48 ≤ b.size
  paged : c.size % 4096 = 0
  nonempty : c.blocks ≠ []

/-- A piece of a chunk may be cut anew, as long as the new blocks fill it and have the size of
a block. -/
theorem Chunk.Shaped.recut {c : Chunk} (h : c.Shaped) {left mid mid' right bs : List Block}
    (hBlocks : c.blocks = left ++ mid ++ right) (hCut : bs = left ++ mid' ++ right)
    (hTiles : Tiles firstOff c.size bs) (hSizes : ∀ b ∈ mid', b.size % 16 = 0 ∧ 48 ≤ b.size)
    (hNonempty : mid' ≠ []) : Chunk.Shaped { c with blocks := bs } := by
  refine ⟨hTiles, fun b hb => ?_, h.paged, by simp [hCut, hNonempty]⟩
  replace hb : b ∈ left ++ mid' ++ right := hCut ▸ hb
  rw [List.append_assoc, List.mem_append, List.mem_append] at hb
  rcases hb with hIn | hIn | hIn
  · exact h.sizes b (by simp [hBlocks, hIn])
  · exact hSizes b hIn
  · exact h.sizes b (by simp [hBlocks, hIn])

/-- The block at `l` is one of the free blocks. -/
def FreeIn (cs : List Chunk) (l : Loc) : Prop :=
  ∃ c ∈ cs, c.id = l.chunk ∧ ∃ b ∈ c.blocks, b.off = l.off ∧ b.free = true

/-- The block at `l` is `b`, and it is in use. -/
def UsedAt (cs : List Chunk) (l : Loc) (b : Block) : Prop :=
  b.free = false ∧ b.off = l.off ∧ ∃ c ∈ cs, c.id = l.chunk ∧ b ∈ c.blocks

/-- The number and the size of a chunk, which stay the same while it exists. -/
def Chunk.extent (c : Chunk) : Nat × Nat := (c.id, c.size)

/-- Change the blocks of one chunk. -/
def updateChunk (cs : List Chunk) (id : Nat) (f : List Block → List Block) : List Chunk :=
  cs.map fun c => if c.id = id then { c with blocks := f c.blocks } else c

/-- The block at `l`, if there is one. -/
def blockAt (cs : List Chunk) (l : Loc) : Option Block :=
  (cs.find? fun c => c.id = l.chunk).bind fun c => c.blocks.find? fun b => b.off = l.off

def sizeAt (cs : List Chunk) (l : Loc) : Nat := ((blockAt cs l).map Segment.size).getD 0

/-- The part of a chunk that is joined when the block at `off` is released. -/
def joined (off : Nat) (blocks : List Block) : Option Block :=
  (release off blocks).find? fun b => b.off ≤ off ∧ off < b.stop

/-- A chunk with no block in use. -/
def vacant (c : Chunk) : Bool := (used c.blocks).isEmpty

namespace Heap

/-- The first free block that is large enough, in the order of the free list. -/
def fit (H : Heap) (req : Nat) : Option Loc := H.free.find? fun l => need req ≤ sizeAt H.chunks l

/-- Give the free block at `l` to a request. -/
def reuse (H : Heap) (req : Nat) (l : Loc) : Heap :=
  { H with
    chunks := updateChunk H.chunks l.chunk (carve l.off (need req) splitLeast req)
    free := leftover l (sizeAt H.chunks l) req ++ H.free.erase l }

/-- Serve a request from a new chunk. -/
def grow (H : Heap) (req : Nat) : Heap where
  chunks := newChunk H.regions req :: H.chunks
  free := leftover ⟨H.regions, firstOff⟩ (regionSize req - firstOff) req ++ H.free
  regions := H.regions + 1

def malloc (H : Heap) (req : Nat) : Loc × Heap :=
  match H.fit req with
  | some l => (l, H.reuse req l)
  | none => (⟨H.regions, firstOff⟩, H.grow req)

/-- Release the block at `l` and put the joined block in front of the free list. -/
def giveBack (H : Heap) (l : Loc) : Heap :=
  match H.chunks.find? fun c => c.id = l.chunk with
  | none => H
  | some c =>
      match joined l.off c.blocks with
      | none => H
      | some b =>
          { H with
            chunks := updateChunk H.chunks l.chunk (release l.off)
            free := ⟨l.chunk, b.off⟩ :: H.free.filter fun x =>
              ¬(x.chunk = l.chunk ∧ b.off ≤ x.off ∧ x.off < b.stop) }

/-- The chunks with no block in use. -/
def swept (H : Heap) : List Chunk := H.chunks.filter vacant

/-- Drop the chunks with no block in use, and the free blocks in them. -/
def sweep (H : Heap) : Heap :=
  { H with
    chunks := H.chunks.filter fun c => !vacant c
    free := H.free.filter fun l => H.swept.all fun c => c.id ≠ l.chunk }

def freeAt (H : Heap) (l : Loc) : Heap := (H.giveBack l).sweep

end Heap

section Shape

variable {c : Chunk} {b : Block}

/-- A block starts after the page header, has room for its tags and links, and ends within its
chunk. -/
theorem Chunk.Shaped.bounds (h : c.Shaped) (hb : b ∈ c.blocks) :
    32 ≤ b.off ∧ 48 ≤ b.size ∧ b.off + b.size ≤ c.size := by
  obtain ⟨hLow, -, hHigh⟩ := h.tiled.bounds hb
  exact ⟨hLow, (h.sizes b hb).2, hHigh⟩

theorem Chunk.Shaped.size_bounds (h : c.Shaped) : 80 ≤ c.size := by
  obtain ⟨b, rest, hBlocks⟩ := List.exists_cons_of_ne_nil h.nonempty
  have := h.bounds (b := b) (by simp [hBlocks])
  omega

end Shape

section Lookup

variable {cs : List Chunk} {c d : Chunk} {b : Block} {id lo hi : Nat}
  {f : List Block → List Block}

theorem find_chunk (hIds : (cs.map Chunk.id).Nodup) (hc : c ∈ cs) :
    (cs.find? fun d => d.id = c.id) = some c :=
  List.find?_eq_some_of_unique hc (decide_eq_true rfl) fun _ hd hId =>
    List.inj_on_of_nodup_map hIds hd hc (of_decide_eq_true hId)

/-- A block is found by its offset, since blocks do not overlap. -/
theorem find_block {blocks : List Block} (hTiles : Tiles lo hi blocks) (hb : b ∈ blocks) :
    (blocks.find? fun a => a.off = b.off) = some b :=
  List.find?_eq_some_of_unique hb (decide_eq_true rfl) fun _ ha hOff =>
    hTiles.eq_of_off ha hb (of_decide_eq_true hOff)

theorem blockAt_eq (hIds : (cs.map Chunk.id).Nodup) (hc : c ∈ cs) (hTiles : Tiles lo hi c.blocks)
    (hb : b ∈ c.blocks) : blockAt cs ⟨c.id, b.off⟩ = some b := by
  rw [blockAt, find_chunk hIds hc, Option.bind_some, find_block hTiles hb]

theorem sizeAt_eq (hIds : (cs.map Chunk.id).Nodup) (hc : c ∈ cs) (hTiles : Tiles lo hi c.blocks)
    (hb : b ∈ c.blocks) : sizeAt cs ⟨c.id, b.off⟩ = b.size := by
  rw [sizeAt, blockAt_eq hIds hc hTiles hb]
  rfl

/-- The chunks after a change are the changed one and the others. Its number is its own, so no
other is meant. -/
theorem mem_updateChunk (hIds : (cs.map Chunk.id).Nodup) (hc : c ∈ cs) :
    d ∈ updateChunk cs c.id f ↔ d = { c with blocks := f c.blocks } ∨ (d ∈ cs ∧ d.id ≠ c.id) := by
  rw [updateChunk, List.mem_map]
  constructor
  · rintro ⟨a, ha, rfl⟩
    split
    · next hId => exact Or.inl (by rw [List.inj_on_of_nodup_map hIds ha hc hId])
    · next hId => exact Or.inr ⟨ha, hId⟩
  · rintro (rfl | ⟨hd, hId⟩)
    · exact ⟨c, hc, by rw [if_pos rfl]⟩
    · exact ⟨d, hd, by rw [if_neg hId]⟩

/-- A free block outlives a change of the blocks of a chunk, unless it is in the piece that is
cut anew. -/
theorem FreeIn.update {l : Loc} {left mid mid' right : List Block} (h : FreeIn cs l)
    (hIds : (cs.map Chunk.id).Nodup) (hc : c ∈ cs) (hBlocks : c.blocks = left ++ mid ++ right)
    (hf : f c.blocks = left ++ mid' ++ right) (hOut : l.chunk = c.id → ∀ b ∈ mid, b.off ≠ l.off) :
    FreeIn (updateChunk cs c.id f) l := by
  obtain ⟨d, hd, hId, b, hb, hOff, hFree⟩ := h
  by_cases hdc : d.id = c.id
  · obtain rfl : d = c := List.inj_on_of_nodup_map hIds hd hc hdc
    refine ⟨_, (mem_updateChunk hIds hd).mpr (Or.inl rfl), hId, b, ?_, hOff, hFree⟩
    have hMid := hOut hId.symm b
    show b ∈ f d.blocks
    rw [hf]
    simp only [hBlocks, List.append_assoc, List.mem_append] at hb ⊢
    tauto
  · exact ⟨d, (mem_updateChunk hIds hc).mpr (Or.inr ⟨hd, hdc⟩), hId, b, hb, hOff, hFree⟩

/-- A free block that a change of a chunk makes is a free block of the heap. -/
theorem FreeIn.updated (hIds : (cs.map Chunk.id).Nodup) (hc : c ∈ cs) (hb : b ∈ f c.blocks)
    (hFree : b.free = true) : FreeIn (updateChunk cs c.id f) ⟨c.id, b.off⟩ :=
  ⟨_, (mem_updateChunk hIds hc).mpr (Or.inl rfl), rfl, b, hb, rfl, hFree⟩

/-- A change of blocks keeps all numbers and sizes, and their order. So the page list stays
what it is. -/
theorem map_extent_updateChunk (cs : List Chunk) (id : Nat) (f : List Block → List Block) :
    (updateChunk cs id f).map Chunk.extent = cs.map Chunk.extent := by
  rw [updateChunk, List.map_map]
  refine List.map_congr_left fun c _ => ?_
  simp only [Function.comp_apply]
  split <;> rfl

/-- Two changes of the same chunk, one after the other, are one change. -/
theorem updateChunk_updateChunk (cs : List Chunk) (id : Nat) (f g : List Block → List Block) :
    updateChunk (updateChunk cs id f) id g = updateChunk cs id (g ∘ f) := by
  rw [updateChunk, updateChunk, updateChunk, List.map_map]
  refine List.map_congr_left fun c _ => ?_
  by_cases hId : c.id = id <;> simp [hId]

/-- What is computed from the numbers and the sizes of the chunks is the same when these
are. -/
theorem map_eq_of_extent {cs cs' : List Chunk} {β : Type} (g : Nat × Nat → β)
    (h : cs'.map Chunk.extent = cs.map Chunk.extent) :
    (cs'.map fun c => g c.extent) = cs.map fun c => g c.extent := by
  have hMap := congrArg (List.map g) h
  rw [List.map_map, List.map_map] at hMap
  exact hMap

/-- Each chunk of a heap with the same extents comes from one of the other heap. -/
theorem exists_of_extent {cs cs' : List Chunk} (h : cs'.map Chunk.extent = cs.map Chunk.extent)
    (hd : d ∈ cs') : ∃ c ∈ cs, c.id = d.id ∧ c.size = d.size := by
  have hIn : d.extent ∈ cs.map Chunk.extent := h ▸ List.mem_map_of_mem hd
  obtain ⟨c, hc, hEq⟩ := List.mem_map.mp hIn
  exact ⟨c, hc, congrArg Prod.fst hEq, congrArg Prod.snd hEq⟩

/-- The numbers of the chunks are the same when their extents are. -/
theorem ids_of_extent {cs cs' : List Chunk} (h : cs'.map Chunk.extent = cs.map Chunk.extent) :
    cs'.map Chunk.id = cs.map Chunk.id := map_eq_of_extent Prod.fst h

end Lookup

end Malloc
