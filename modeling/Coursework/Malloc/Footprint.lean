import Coursework.Library.Packing
import Coursework.Malloc.HeapSize
import Coursework.Malloc.ListBounds
import Coursework.Malloc.Lockstep

/-! How many bytes the allocator keeps mapped for what its client holds. -/

namespace Malloc

open Tiling Bytes Packing

section Geometry

variable {π : Nat → Nat} {os : OS} {cs : List Chunk} {s : Process} {fr : List Loc} {a : Ideal}

/-- The addresses of all chunks. -/
def chunkBytes (π : Nat → Nat) (cs : List Chunk) : Finset Nat :=
  cover cs (fun c => π c.id) Chunk.size

/-- The chunks do not overlap, so they take up the sum of their sizes. -/
theorem Layout.card_chunkBytes (h : Layout π os cs) :
    (chunkBytes π cs).card = (cs.map Chunk.size).sum :=
  card_cover h.ids.of_map h.apart

/-- A heap never holds less than its client asked for, since each lease has a block of its
own. -/
theorem Layout.sum_leases_le (h : Layout π os a.heap.chunks) (hInv : a.Inv) :
    (a.live.map Lease.size).sum ≤ (a.heap.chunks.map Chunk.size).sum := by
  have hSubset : cover a.live (fun e => e.loc.payload π) Lease.size ⊆
      chunkBytes π a.heap.chunks := by
    refine cover_subset fun e he => ?_
    obtain ⟨d, hd, b, -, -, -, hAddr, -, hFits, hOff, hEnd⟩ := h.lease_block hInv he
    exact ⟨d, hd, by omega, by omega⟩
  have hCard := Finset.card_le_card hSubset
  rwa [h.card_chunkBytes, card_cover hInv.locs.of_map
    fun d hd e he hNe => h.leases_apart hInv hd he hNe] at hCard

theorem Layout.sum_chunks_lt (h : Layout π os cs) : (cs.map Chunk.size).sum < 2 ^ 64 := by
  have hSum := sum_le_of_inside h.ids.of_map h.apart fun c hc =>
    ⟨h.nonzero c hc, Nat.le_of_lt (h.inside c hc)⟩
  omega

/-- The table of `pagemap.c` accounts for the chunks. -/
theorem Rep.pages_iff (h : Rep π s cs fr) (x : Nat) :
    PagesOf π cs (pageOf x) ↔ x ∈ chunkBytes π cs := by
  rw [chunkBytes, mem_cover]
  refine exists_congr fun c => and_congr_right fun hc => ?_
  rw [← Finset.mem_Ico, ← pageOf_in_region (h.layout.aligned c hc) (h.layout.shaped c hc).paged]

/-- The known pages take up what the chunks do, byte for byte. -/
theorem Rep.card_pages (h : Rep π s cs fr) {pages : List PagePtr} (hLib : MemLibRep s pages)
    (hPages : ∀ page, page ∈ pages ↔ PagesOf π cs page) :
    apageSize * pages.length = (cs.map Chunk.size).sum := by
  have hApart : ∀ p ∈ pages, ∀ q ∈ pages, p ≠ q →
      Apart (entryOf s.pageMaps1 p).addr apageSize (entryOf s.pageMaps1 q).addr apageSize := by
    intro p hp q hq hNe
    obtain ⟨-, hAligned, -, hPage⟩ := hLib.table.present p hp
    obtain ⟨-, hAligned', -, hPage'⟩ := hLib.table.present q hq
    have hAddr : (entryOf s.pageMaps1 p).addr ≠ (entryOf s.pageMaps1 q).addr := fun hEq =>
      hNe (hPage.symm.trans (hEq ▸ hPage'))
    rw [apageSize_eq] at *
    unfold Apart
    omega
  have hSame : cover pages (fun p => (entryOf s.pageMaps1 p).addr) (fun _ => apageSize) =
      chunkBytes π cs := by
    ext x
    rw [← h.pages_iff, ← hPages, mem_cover]
    constructor
    · rintro ⟨p, hp, hIn⟩
      rwa [(hLib.table.pageOf_eq_iff hp x).mpr hIn]
    · exact fun hx => ⟨_, hx, (hLib.table.pageOf_eq_iff hx x).mp rfl⟩
  have hCard := card_cover hLib.table.nodup hApart
  rw [hSame, h.layout.card_chunkBytes, List.map_const', List.sum_replicate_nat] at hCard
  rw [hCard, Nat.mul_comm]

/-- The pages in the table of `pagemap.c` are exactly those of the chunks, and `page_count` is
their number. -/
theorem Rep.accounts (h : Rep π s cs fr) : Accounts s (chunkBytes π cs) := by
  obtain ⟨pages, hLib, hPages⟩ := h.lib
  refine ⟨pages, hLib, fun x => ?_⟩
  rw [hPages, h.pages_iff]

/-- `mem_heapsize` answers the bytes of all chunks, below two GiB. From there on its product
overflows. -/
theorem Rep.memHeapsize (h : Rep π s cs fr) (hSmall : (cs.map Chunk.size).sum < 2 ^ 31) :
    memHeapsize s = .ok ((cs.map Chunk.size).sum, s) := by
  obtain ⟨n, hCard, hCount⟩ := h.accounts.count
  rw [h.layout.card_chunkBytes] at hCard
  rw [hCard]
  exact (memHeapsize_iff hCount (by omega)).mpr (by omega)

end Geometry

section Growth

variable {a : Ideal} {requests : List Request}

/-- The largest request so far. -/
def largest : List Request → Nat
  | [] => 0
  | .malloc size :: rest => max size (largest rest)
  | .free _ :: rest => largest rest
  | .freeNull :: rest => largest rest

/-- The header of the page, the tags, the alignment and the rest of the last page are less than
a page and some words. -/
theorem regionSize_le (req : Nat) : regionSize req ≤ req + 4174 := by
  unfold regionSize need alignUp firstOff
  omega

theorem largest_append (requests : List Request) (r : Request) :
    largest (requests ++ [r]) = max (largest requests) (largest [r]) := by
  induction requests with
  | nil => exact (Nat.zero_max _).symm
  | cons q requests ih =>
      cases q with
      | malloc size => rw [List.cons_append, largest, largest, ih, Nat.max_assoc]
      | free ticket => exact ih
      | freeNull => exact ih

/-- A chunk after `mm_malloc` has the size of a region for this request, or was there
before. -/
theorem Heap.size_of_malloc {H : Heap} {d : Chunk} {req : Nat}
    (hd : d ∈ (H.malloc req).2.chunks) :
    d.size = regionSize req ∨ ∃ c ∈ H.chunks, c.size = d.size := by
  unfold Heap.malloc at hd
  split at hd
  · obtain ⟨c, hc, -, hSize⟩ := exists_of_extent (map_extent_updateChunk _ _ _) hd
    exact Or.inr ⟨c, hc, hSize⟩
  · cases hd with
    | head => exact Or.inl rfl
    | tail _ hd => exact Or.inr ⟨d, hd, rfl⟩

theorem sum_size_of_extent {cs cs' : List Chunk}
    (h : cs'.map Chunk.extent = cs.map Chunk.extent) :
    (cs'.map Chunk.size).sum = (cs.map Chunk.size).sum :=
  congrArg List.sum (map_eq_of_extent Prod.snd h)

/-- A request adds a region at most, and nothing when a free block is reused. -/
theorem Heap.bytes_malloc (H : Heap) (req : Nat) :
    ((H.malloc req).2.chunks.map Chunk.size).sum ≤
      (H.chunks.map Chunk.size).sum + (req + 4174) := by
  unfold Heap.malloc
  split
  · exact Nat.le_add_right_of_le (sum_size_of_extent (map_extent_updateChunk _ _ _)).le
  · have hRegion := regionSize_le req
    show regionSize req + (H.chunks.map Chunk.size).sum ≤ _
    omega

theorem Heap.bytes_freeAt (H : Heap) (l : Loc) :
    ((H.freeAt l).chunks.map Chunk.size).sum ≤ (H.chunks.map Chunk.size).sum := by
  rw [← sum_size_of_extent (H.giveBack_extent l)]
  exact List.Sublist.sum_le_sum (List.filter_sublist.map _) fun _ _ => Nat.zero_le _

/-- Where the chunks come from in one step. -/
theorem Ideal.size_of_step {r : Request} {d : Chunk} (hd : d ∈ (a.step r).heap.chunks) :
    d.size ≤ largest [r] + 4174 ∨ ∃ c ∈ a.heap.chunks, c.size = d.size := by
  cases r with
  | malloc size =>
      by_cases hZero : size = 0
      · rw [Ideal.step, Ideal.malloc, if_pos hZero] at hd
        exact Or.inr ⟨d, hd, rfl⟩
      · rw [Ideal.step, Ideal.malloc, if_neg hZero] at hd
        rcases Heap.size_of_malloc hd with hNew | hOld
        · have hRegion := regionSize_le size
          have hLargest : largest [.malloc size] = size := Nat.max_zero size
          exact Or.inl (by omega)
        · exact Or.inr hOld
  | free ticket =>
      rw [Ideal.step] at hd
      cases hLease : a.lease ticket with
      | none =>
          rw [hLease] at hd
          exact Or.inr ⟨d, hd, rfl⟩
      | some e =>
          rw [hLease] at hd
          obtain ⟨c, hc, -, hSize⟩ := Heap.extent_of_freeAt hd
          exact Or.inr ⟨c, hc, hSize⟩
  | freeNull => exact Or.inr ⟨d, hd, rfl⟩

/-- A chunk is not much larger than the largest request so far. The induction is on the run. -/
theorem Ideal.chunk_le (requests : List Request) :
    ∀ c ∈ (Ideal.run requests).heap.chunks, c.size ≤ largest requests + 4174 := by
  induction requests using List.reverseRecOn with
  | nil => exact fun c hc => by cases hc
  | append_singleton requests r ih =>
      rw [Ideal.run_append, largest_append]
      intro c hc
      rcases Ideal.size_of_step hc with hNew | ⟨d, hd, hSize⟩
      · omega
      · have hOld := ih d hd
        omega

end Growth

section Runs

variable {K : Kernel} {requests : List Request} {c : Config}

/-- At every point of a round what is mapped for the allocator holds what its client
asked for, and is less than a page and some words more for each held block than the
largest request so far. -/
theorem footprint_bounded (h : Reachable K requests c) : ∃ addrs, MappedPages c.process addrs ∧
    addrs.Nodup ∧ (c.live.map Live.size).sum ≤ apageSize * addrs.length ∧
    apageSize * addrs.length ≤ c.live.length * (largest requests + 4174) := by
  obtain ⟨π, hSim⟩ := h.simulates
  obtain ⟨pages, hLib, hPages⟩ := hSim.rep.lib
  have hLayout := hSim.rep.layout
  have hBytes := hSim.rep.card_pages hLib hPages
  refine ⟨_, hLib.table.mappedPages, nodup_addrs hLib.table, ?_, ?_⟩
  · rw [List.length_map, hBytes, hSim.live, List.map_map]
    exact hLayout.sum_leases_le hSim.inv
  · rw [List.length_map, hBytes, hSim.live, List.length_map]
    have hEach := Ideal.chunk_le requests
    have hChunks := hSim.inv.wf.length_chunks_le
    rw [hSim.inv.sum_used hLayout] at hChunks
    calc ((Ideal.run requests).heap.chunks.map Chunk.size).sum
        ≤ (Ideal.run requests).heap.chunks.length * (largest requests + 4174) := by
          have hSum := List.sum_le_sum hEach
          rwa [List.map_const', List.sum_replicate_nat] at hSum
      _ ≤ (Ideal.run requests).live.length * (largest requests + 4174) :=
          Nat.mul_le_mul_right _ hChunks

theorem footprint_bounded_sample : ∃ (c : Config) (addrs : List Nat),
    c.live = [⟨1, 8589934704, 100⟩] ∧ MappedPages c.process addrs ∧ addrs.Nodup ∧
    100 ≤ apageSize * addrs.length ∧ apageSize * addrs.length ≤ 4274 := by
  obtain ⟨c, hReached, hLive⟩ := exists_sample 0
  obtain ⟨addrs, hList, hNodup, hHeld, hBound⟩ := footprint_bounded hReached
  rw [hLive] at hHeld hBound
  exact ⟨c, addrs, hLive, hList, hNodup, hHeld, hBound⟩

end Runs

end Malloc
