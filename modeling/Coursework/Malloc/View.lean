import Coursework.Malloc.Layout

/-! What a process shows of its heap: the chunks that its page list leads to,
the blocks that the headers in each chunk lead to, and its free list. -/

namespace Malloc

open Tiling Bytes DoublyLinked

structure BlockView where
  addr : Nat
  size : Nat
  allocated : Nat
  footer : Nat
deriving DecidableEq, Repr

structure ChunkView where
  base : Nat
  size : Nat
  stop : Nat
  blocks : List BlockView
deriving DecidableEq, Repr

structure View where
  /-- In the order of the page list. -/
  chunks : List ChunkView
  /-- The nodes of the free list. -/
  free : List Nat
deriving DecidableEq, Repr

/-- The block whose header is at `h`. -/
def blockView (m : Bytes) (h : Nat) : BlockView where
  addr := h
  size := m.read h 8
  allocated := m.read (h + 8) 4
  footer := m.read (h + m.read h 8 - 16) 8

/-- Walking from the header at `h` by the size field of each header visits the
blocks in the list and ends exactly at `stop`. -/
def BlocksFrom (m : Bytes) (stop : Nat) : Nat → List BlockView → Prop
  | h, [] => h = stop
  | h, b :: rest => h < stop ∧ b = blockView m h ∧ BlocksFrom m stop (h + b.size) rest

/-- Following the second words of the nodes from `head` visits `xs` and then
reaches `NULL`. -/
def Follows (m : Bytes) (head : Nat) (xs : List Nat) : Prop :=
  Trail 0 (fun x => m.read (x + 8) 8) head xs

/-- The first word of every node is the node before it, and `NULL` at the head. -/
def Mirrored (m : Bytes) (xs : List Nat) : Prop := Back (fun x => m.read x 8) 0 xs

/-- The chunk at `c.base` has the fields and the blocks of `c`. -/
structure ChunkView.In (m : Bytes) (c : ChunkView) : Prop where
  size : c.size = m.read (c.base + 16) 8
  stop : c.stop = m.read (c.base + 24) 8
  blocks : BlocksFrom m c.stop (c.base + 32) c.blocks

structure Shows (s : Process) (v : View) : Prop where
  pageList : Follows s.mem s.pageListHead (v.chunks.map ChunkView.base)
  chunks : ∀ c ∈ v.chunks, c.In s.mem
  freeList : Follows s.mem s.freeListHead v.free

section Blocks

variable {m m' : Bytes} {lo stop : Nat} {xs : List BlockView}

/-- The bytes that a block takes up. -/
def BlockView.segment (b : BlockView) : Segment Unit := ⟨b.addr, b.size, none⟩

/-- A walk by size fields visits blocks without a gap, from where it begins to where it
ends. -/
theorem BlocksFrom.tiles (h : BlocksFrom m stop lo xs) (hPos : ∀ b ∈ xs, 0 < b.size) :
    Tiles lo stop (xs.map BlockView.segment) := by
  induction xs generalizing lo with
  | nil => exact h
  | cons b xs ih =>
      obtain ⟨hb, hRest⟩ := List.forall_mem_cons.mp hPos
      obtain ⟨-, rfl, hNext⟩ := h
      exact ⟨rfl, hb, ih hNext hRest⟩

/-- The blocks are what memory shows at their headers, and nothing is made up for them. -/
theorem BlocksFrom.eq_blockView (h : BlocksFrom m stop lo xs) :
    ∀ b ∈ xs, b = blockView m b.addr := by
  induction xs generalizing lo with
  | nil => nofun
  | cons b xs ih =>
      obtain ⟨-, rfl, hNext⟩ := h
      exact List.forall_mem_cons.mpr ⟨rfl, ih hNext⟩

/-- The walk over the blocks of a chunk sees the same in memory that shows the same tags. -/
theorem BlocksFrom.congr (h : BlocksFrom m stop lo xs)
    (hSame : ∀ b ∈ xs, b = blockView m' b.addr) : BlocksFrom m' stop lo xs := by
  induction xs generalizing lo with
  | nil => exact h
  | cons b xs ih =>
      obtain ⟨hb, hRest⟩ := List.forall_mem_cons.mp hSame
      obtain ⟨hLow, rfl, hNext⟩ := h
      exact ⟨hLow, hb, ih hNext hRest⟩

end Blocks

section Unique

variable {m : Bytes} {s : Process} {v w : View}

/-- The tags leave no choice: a walk from one address to one end sees one list of blocks. -/
theorem BlocksFrom.unique {stop h : Nat} {xs ys : List BlockView} (hx : BlocksFrom m stop h xs)
    (hy : BlocksFrom m stop h ys) : xs = ys := by
  induction xs generalizing h ys with
  | nil =>
      cases ys with
      | nil => rfl
      | cons b ys => exact absurd hx (Nat.ne_of_lt hy.1)
  | cons a xs ih =>
      cases ys with
      | nil => exact absurd hy (Nat.ne_of_lt hx.1)
      | cons b ys =>
          obtain ⟨-, rfl, hRest⟩ := hx
          obtain ⟨-, rfl, hRest'⟩ := hy
          rw [ih hRest hRest']

/-- What memory shows of the chunk at an address is determined by memory. -/
theorem ChunkView.In.unique {c d : ChunkView} (hc : c.In m) (hd : d.In m)
    (hBase : c.base = d.base) : c = d := by
  obtain ⟨base, size, stop, blocks⟩ := c
  obtain ⟨base', size', stop', blocks'⟩ := d
  obtain rfl : base = base' := hBase
  obtain rfl : size = size' := hc.size.trans hd.size.symm
  obtain rfl : stop = stop' := hc.stop.trans hd.stop.symm
  rw [show blocks = blocks' from hc.blocks.unique hd.blocks]

/-- A process shows one view only. What is said of some view that it shows is thus said of the
one there is. -/
theorem Shows.unique (hv : Shows s v) (hw : Shows s w) : v = w := by
  have hFree := hv.freeList.unique hw.freeList
  have hBases := hv.pageList.unique hw.pageList
  have hChunks : ∀ xs ys : List ChunkView, (∀ c ∈ xs, c.In s.mem) → (∀ c ∈ ys, c.In s.mem) →
      xs.map ChunkView.base = ys.map ChunkView.base → xs = ys := by
    intro xs
    induction xs with
    | nil => exact fun ys _ _ hMap => (List.map_eq_nil_iff.mp hMap.symm).symm
    | cons c xs ih =>
        intro ys hxs hys hMap
        obtain ⟨d, ys, rfl, hBase, hRest⟩ := List.map_eq_cons_iff.mp hMap.symm
        rw [(hxs c (by simp)).unique (hys d (by simp)) hBase.symm,
          ih ys (fun e he => hxs e (by simp [he])) (fun e he => hys e (by simp [he])) hRest.symm]
  obtain ⟨chunks, free⟩ := v
  obtain ⟨chunks', free'⟩ := w
  rw [hChunks chunks chunks' hv.chunks hw.chunks hBases, show free = free' from hFree]

end Unique

section Representation

variable {π : Nat → Nat} {s : Process} {cs : List Chunk} {fr : List Loc}

/-- A block of a chunk at `base`, as memory shows it. -/
def Block.view (base : Nat) (b : Block) : BlockView :=
  ⟨base + b.off, b.size, if b.free then 0 else 1, b.size⟩

def Chunk.view (π : Nat → Nat) (c : Chunk) : ChunkView :=
  ⟨π c.id, c.size, π c.id + c.size, c.blocks.map (Block.view (π c.id))⟩

def view (π : Nat → Nat) (cs : List Chunk) (fr : List Loc) : View :=
  ⟨cs.map (Chunk.view π), fr.map (Loc.payload π)⟩

theorem Tags.blockView {m : Bytes} {base : Nat} {b : Block} (h : Tags m (base + b.off) b) :
    blockView m (base + b.off) = Block.view base b := by
  rw [Malloc.blockView, Block.view, h.size, h.alloc, h.footer]

/-- Blocks that tile a part of a chunk are found by their headers, when their tags are in
memory. -/
theorem blocksFrom_view {m : Bytes} {base lo hi : Nat} {xs : List Block} (h : Tiles lo hi xs)
    (hTags : ∀ b ∈ xs, Tags m (base + b.off) b) :
    BlocksFrom m (base + hi) (base + lo) (xs.map (Block.view base)) := by
  induction xs generalizing lo with
  | nil => exact congrArg (base + ·) h
  | cons b xs ih =>
      have hb := hTags b (by simp)
      have hStop := (h.bounds (s := b) (by simp)).2.2
      obtain ⟨rfl, hPos, hRest⟩ := h
      refine ⟨?_, hb.blockView.symm, ?_⟩
      · unfold Segment.stop at hStop
        omega
      · have hNext := ih hRest fun a ha => hTags a (by simp [ha])
        rwa [Segment.stop, ← Nat.add_assoc] at hNext

/-- The links of a list that is in memory can be followed from the head to `NULL`. -/
theorem ListRep.follows {m : Bytes} {head : Nat} {xs : List Nat} (h : ListRep m head xs) :
    Follows m head xs := by
  have hNe : ∀ x ∈ xs, x ≠ 0 := fun x hx => h.ne_zero hx
  obtain ⟨last, hRing⟩ := h
  refine hRing.trail.congr fun x hx => ?_
  rw [memNext, if_neg (hNe x hx)]

/-- Each node of a list that is in memory is linked back by its successor. -/
theorem ListRep.mirrored {m : Bytes} {head : Nat} {xs : List Nat} (h : ListRep m head xs) :
    Mirrored m xs := by
  have hNe : ∀ x ∈ xs, x ≠ 0 := fun x hx => h.ne_zero hx
  obtain ⟨last, hRing⟩ := h
  refine hRing.back.congr fun x hx => ?_
  rw [memPrev, if_neg (hNe x hx)]

/-- Different nodes that memory links in both directions are a list. Nothing is asked about
where they lie. -/
theorem ListRep.of_follows {m : Bytes} {head : Nat} {xs : List Nat} (h : Follows m head xs)
    (hBack : Mirrored m xs) (hNodup : xs.Nodup) : ListRep m head xs := by
  have hNe := h.ne_null
  have hTrail : Trail 0 (memNext m head) head xs := h.congr fun x hx => by
    rw [memNext, if_neg (hNe x hx)]
  refine ⟨xs.getLastD 0, .of_trail hTrail (hBack.congr fun x hx => ?_) ?_ hNodup⟩
  · rw [memPrev, if_neg (hNe x hx)]
  · rw [memPrev, if_pos rfl]

/-- A process that holds a heap shows it: page list, chunks, blocks and free list are found in
its memory. -/
theorem Rep.shows (h : Rep π s cs fr) : Shows s (view π cs fr) where
  pageList := by
    have hList := h.pageList.follows
    rw [view, List.map_map]
    exact hList
  chunks := by
    intro c hc
    obtain ⟨d, hd, rfl⟩ := List.mem_map.mp hc
    refine ⟨(h.pageSize d hd).symm, (h.pageEnd d hd).symm, ?_⟩
    exact blocksFrom_view (h.layout.shaped d hd).tiled (h.tags d hd)
  freeList := h.freeList.follows

end Representation

end Malloc
