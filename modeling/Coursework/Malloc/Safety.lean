import Coursework.Malloc.Runs
import Coursework.Malloc.View

/-! What memory shows in every configuration that is reached: blocks that tile
their chunks, an exact free list, complete coalescing, and payloads that
overlap nothing. -/

namespace Malloc

open Tiling Bytes

namespace View

def blocks (v : View) : List BlockView := v.chunks.flatMap ChunkView.blocks

/-- The payload addresses of the allocated blocks. -/
def allocated (v : View) : List Nat :=
  (v.blocks.filter fun b => b.allocated ≠ 0).map fun b => b.addr + 16

/-- The payload addresses of the blocks that are not allocated. -/
def vacancies (v : View) : List Nat :=
  (v.blocks.filter fun b => b.allocated = 0).map fun b => b.addr + 16

/-- The blocks tile their chunks, every block has a header and a footer that
agree, and the page list is doubly linked through disjoint chunks. -/
structure Tagged (m : Bytes) (v : View) : Prop where
  stop : ∀ c ∈ v.chunks, c.stop = c.base + c.size
  sizes : ∀ b ∈ v.blocks, b.size % 16 = 0 ∧ 48 ≤ b.size
  footers : ∀ b ∈ v.blocks, b.footer = b.size
  mirrored : Mirrored m (v.chunks.map ChunkView.base)
  distinct : (v.chunks.map ChunkView.base).Nodup
  apart : v.chunks.Pairwise fun c d => Apart c.base c.size d.base d.size

end View

/-- The bytes that the client asked for lie in one mapped chunk and overlap
nothing that the allocator uses. -/
structure Live.Safe (s : Process) (v : View) (e : Live) : Prop where
  aligned : e.ptr % 16 = 0
  inside : ∃ c ∈ v.chunks, c.base + 32 ≤ e.ptr ∧ e.ptr + e.size ≤ c.stop ∧
    ∀ x, c.base ≤ x → x < c.stop → s.os.mapped (x / apageSize) = true
  headers : ∀ b ∈ v.blocks, Apart e.ptr e.size b.addr 16
  footers : ∀ b ∈ v.blocks, Apart e.ptr e.size (b.addr + b.size - 16) 16
  pageHeaders : ∀ c ∈ v.chunks, Apart e.ptr e.size c.base 32
  links : ∀ p ∈ v.free, Apart e.ptr e.size p 16

/-- From `s` to `t` the bytes that the client asked for stay as they are, and
their chunk stays mapped. -/
structure Live.Kept (s t : Process) (e : Live) : Prop where
  bytes : ∀ x ∈ span e.ptr e.size, t.mem x = s.mem x
  chunk : ∃ v w, Shows s v ∧ Shows t w ∧ ∃ c ∈ v.chunks, ∃ d ∈ w.chunks, d.base = c.base ∧
    d.size = c.size ∧ c.base + 32 ≤ e.ptr ∧ e.ptr + e.size ≤ c.stop ∧
    ∀ x ∈ span d.base d.size, t.os.mapped (x / apageSize) = true

section Blocks

variable {π : Nat → Nat} {os : OS} {cs : List Chunk} {fr : List Loc}

/-- The blocks that memory shows are those of the chunks, each at its address. -/
theorem mem_blocks_view {b : BlockView} : b ∈ (view π cs fr).blocks ↔
    ∃ c ∈ cs, ∃ a ∈ c.blocks, Block.view (π c.id) a = b := by
  simp [View.blocks, view, Chunk.view]

/-- Blocks at the same address are the same, and so are their chunks. -/
theorem Layout.eq_of_addr (h : Layout π os cs) {c d : Chunk} {a b : Block} (hc : c ∈ cs)
    (hd : d ∈ cs) (ha : a ∈ c.blocks) (hb : b ∈ d.blocks)
    (hAddr : π c.id + a.off = π d.id + b.off) : c = d ∧ a = b := by
  by_contra hNe
  have hApart := h.blocks_apart hc hd ha hb hNe
  have := (h.shaped c hc).bounds ha
  have := (h.shaped d hd).bounds hb
  unfold Apart at hApart
  omega

/-- Different blocks have different payload addresses. A view of memory may therefore name
blocks by them. -/
theorem Layout.nodup_blocks (h : Layout π os cs) (fr : List Loc) :
    ((view π cs fr).blocks.map fun b => b.addr + 16).Nodup := by
  have hList : ((view π cs fr).blocks.map fun b => b.addr + 16) =
      cs.flatMap fun c => c.blocks.map fun b => π c.id + b.off + 16 := by
    simp [View.blocks, view, Chunk.view, Block.view, List.flatMap_map, List.map_flatMap,
      Function.comp_def]
  rw [hList, List.nodup_flatMap]
  constructor
  · intro c hc
    refine (h.shaped c hc).tiled.nodup.map_on fun a ha b hb hEq => ?_
    exact (h.eq_of_addr hc hc ha hb (by omega)).2
  · refine h.ids.of_map.pairwise_of_forall_ne fun c hc d hd hNe => ?_
    intro x hx hx'
    obtain ⟨a, ha, rfl⟩ := List.mem_map.mp hx
    obtain ⟨b, hb, hEq⟩ := List.mem_map.mp hx'
    exact hNe (h.eq_of_addr hc hd ha hb (by omega)).1

theorem Layout.nodup_live {a : Ideal} (h : Layout π os a.heap.chunks) (hInv : a.Inv) :
    (a.live.map fun e => e.loc.payload π).Nodup := by
  refine hInv.locs.of_map.map_on fun d hd e he hEq => ?_
  obtain ⟨b, hb, -⟩ := hInv.held d hd
  obtain ⟨b', hb', -⟩ := hInv.held e he
  obtain ⟨c, hc, hbc, hLoc, hAddr, -⟩ := h.payload_bounds hb
  obtain ⟨c', hc', hbc', hLoc', hAddr', -⟩ := h.payload_bounds hb'
  obtain ⟨rfl, rfl⟩ := h.eq_of_addr hc hc' hbc hbc' (by omega)
  exact List.inj_on_of_nodup_map hInv.locs hd he (hLoc.trans hLoc'.symm)

/-- The block that holds a lease: it is in the view, allocated, and large enough. -/
theorem Layout.lease_block {a : Ideal} (h : Layout π os a.heap.chunks) (hInv : a.Inv) {e : Lease}
    (he : e ∈ a.live) : ∃ d ∈ a.heap.chunks, ∃ b ∈ d.blocks, b.free = false ∧
      e.loc = ⟨d.id, b.off⟩ ∧ e.loc.payload π = π d.id + b.off + 16 ∧ 0 < e.size ∧
      e.size + 32 ≤ b.size ∧ 32 ≤ b.off ∧ b.off + b.size ≤ d.size := by
  obtain ⟨b, hUsed, -, hPos, hFits⟩ := hInv.block he
  obtain ⟨d, hd, hb, hLoc, hAddr, hOff, hSize, hEnd⟩ := h.payload_bounds hUsed
  have hRoom : e.size + 32 ≤ b.size := by omega
  exact ⟨d, hd, b, hb, hUsed.1, hLoc, hAddr, hPos, hRoom, hOff, hEnd⟩

/-- The requested bytes of two leases do not overlap. -/
theorem Layout.leases_apart {a : Ideal} (h : Layout π os a.heap.chunks) (hInv : a.Inv)
    {d e : Lease} (hd : d ∈ a.live) (he : e ∈ a.live) (hNe : d ≠ e) :
    Apart (d.loc.payload π) d.size (e.loc.payload π) e.size := by
  obtain ⟨x, hx, b, hb, -, hLoc, hAddr, -, hBounds⟩ := h.lease_block hInv hd
  obtain ⟨y, hy, f, hf, -, hLoc', hAddr', -, hBounds'⟩ := h.lease_block hInv he
  have hBlocks := h.blocks_apart hx hy hb hf (by
    rintro ⟨rfl, rfl⟩
    exact hNe (List.inj_on_of_nodup_map hInv.locs hd he (hLoc.trans hLoc'.symm)))
  unfold Apart at hBlocks ⊢
  omega

/-- Payloads are aligned. Regions start at pages, and headers and sizes are multiples of 16. -/
theorem Layout.payload_mod (h : Layout π os cs) {c : Chunk} {b : Block} (hc : c ∈ cs)
    (hb : b ∈ c.blocks) : (π c.id + b.off + 16) % 16 = 0 := by
  have hBase := h.aligned c hc
  have hOff := (h.shaped c hc).tiled.off_mod (k := 16) hb fun f hf =>
    ((h.shaped c hc).sizes f hf).1
  have hBounds := (h.shaped c hc).bounds hb
  rw [firstOff] at hOff
  rw [apageSize_eq] at hBase
  omega

/-- The allocated blocks are those that the client holds. Neither is a block lost nor is one
held that is free. -/
theorem Ideal.Inv.allocated_perm {a : Ideal} (hInv : a.Inv) (h : Layout π os a.heap.chunks) :
    (view π a.heap.chunks a.heap.free).allocated.Perm (a.live.map fun e => e.loc.payload π) := by
  refine (List.perm_ext_iff_of_nodup ?_ (h.nodup_live hInv)).mpr fun x => ?_
  · exact (h.nodup_blocks a.heap.free).sublist (List.filter_sublist.map _)
  · simp only [View.allocated, List.mem_map, List.mem_filter, mem_blocks_view]
    constructor
    · rintro ⟨_, ⟨⟨c, hc, b, hb, rfl⟩, hAllocated⟩, rfl⟩
      have hUsed : UsedAt a.heap.chunks ⟨c.id, b.off⟩ b := by
        refine ⟨?_, rfl, c, hc, rfl, hb⟩
        by_contra hFree
        simp [Block.view, hFree] at hAllocated
      obtain ⟨e, he, hLoc⟩ := hInv.owned _ _ hUsed
      exact ⟨e, he, by rw [hLoc]; rfl⟩
    · rintro ⟨e, he, rfl⟩
      obtain ⟨b, hUsed, -⟩ := hInv.held e he
      obtain ⟨c, hc, hb, hLoc, hAddr, -⟩ := h.payload_bounds hUsed
      refine ⟨_, ⟨⟨c, hc, b, hb, rfl⟩, ?_⟩, hAddr.symm⟩
      simp [Block.view, hUsed.1]

/-- The free list holds the blocks that are not allocated, each once. -/
theorem Heap.Tidy.vacancies_perm {H : Heap} (hTidy : H.Tidy) (h : Layout π os H.chunks) :
    (view π H.chunks H.free).free.Perm (view π H.chunks H.free).vacancies := by
  have hFree : ∀ l ∈ H.free, FreeIn H.chunks l := fun l hl => (hTidy.freeExact l).mp hl
  have hNodup : (H.free.map (Loc.payload π)).Nodup :=
    hTidy.freeNodup.map_on fun l hl k hk hEq => h.payload_inj (hFree l hl) (hFree k hk) hEq
  refine (List.perm_ext_iff_of_nodup hNodup ?_).mpr fun x => ?_
  · exact (h.nodup_blocks H.free).sublist (List.filter_sublist.map _)
  · simp only [View.vacancies, List.mem_map, List.mem_filter, mem_blocks_view]
    constructor
    · rintro ⟨l, hl, rfl⟩
      obtain ⟨c, hc, b, hb, hId, hOff, hbFree, hAddr, -⟩ := h.payload (hFree l hl)
      refine ⟨_, ⟨⟨c, hc, b, hb, rfl⟩, ?_⟩, hAddr.symm⟩
      simp [Block.view, hbFree]
    · rintro ⟨_, ⟨⟨c, hc, b, hb, rfl⟩, hVacant⟩, rfl⟩
      have hbFree : b.free = true := by
        by_contra hUsed
        simp [Block.view, hUsed] at hVacant
      exact ⟨⟨c.id, b.off⟩, (hTidy.freeExact _).mpr ⟨c, hc, rfl, b, hb, rfl, hbFree⟩, rfl⟩

/-- A heap in memory is tiled and tagged as its view shows, from the page header of each chunk
to its end. -/
theorem Rep.tagged {s : Process} (h : Rep π s cs fr) : (view π cs fr).Tagged s.mem where
  stop := h.paged.stop
  sizes := by
    intro b hb
    obtain ⟨c, hc, hbIn⟩ := List.mem_flatMap.mp hb
    exact (h.cut_view c hc).sizes b hbIn
  footers := by
    intro b hb
    obtain ⟨c, hc, hbIn⟩ := List.mem_flatMap.mp hb
    exact (h.cut_view c hc).footers b hbIn
  mirrored := by
    have hList := h.pageList.mirrored
    rw [view, List.map_map]
    exact hList
  distinct := h.paged.nodup
  apart := h.paged.apart

end Blocks

section Reached

variable {π : Nat → Nat} {K : Kernel} {requests : List Request} {c : Config} {a : Ideal}

/-- The block that holds a live payload, as it is seen in memory. -/
theorem Simulates.block (h : Simulates π c a) {e : Live} (he : e ∈ c.live) :
    ∃ d ∈ a.heap.chunks, ∃ b ∈ d.blocks, b.free = false ∧ e.ptr = π d.id + b.off + 16 ∧ 0 < e.size ∧
      e.size + 32 ≤ b.size ∧ 32 ≤ b.off ∧ b.off + b.size ≤ d.size := by
  obtain ⟨l, hl, rfl⟩ := h.mem_live.mp he
  obtain ⟨d, hd, b, hb, hUsed, -, hBounds⟩ := h.rep.layout.lease_block h.inv hl
  exact ⟨d, hd, b, hb, hUsed, hBounds⟩

/-- A pointer that is held is aligned, and its bytes lie in one mapped chunk, apart from the
tags, the page headers and the links. -/
theorem Simulates.safe (h : Simulates π c a) {e : Live} (he : e ∈ c.live) :
    e.Safe c.process (view π a.heap.chunks a.heap.free) := by
  have hLayout := h.rep.layout
  obtain ⟨d, hd, b, hb, hUsed, hPtr, hPos, hFits, hLow, hHigh⟩ := h.block he
  have hApart : ∀ x ∈ (view π a.heap.chunks a.heap.free).blocks,
      x = Block.view (π d.id) b ∨ Apart (π d.id + b.off) b.size x.addr x.size := by
    intro x hx
    obtain ⟨c, hc, f, hf, rfl⟩ := mem_blocks_view.mp hx
    by_cases hSame : d = c ∧ b = f
    · obtain ⟨rfl, rfl⟩ := hSame
      exact Or.inl rfl
    · exact Or.inr (hLayout.blocks_apart hd hc hb hf hSame)
  have hSizes := h.rep.tagged.sizes
  refine ⟨?_, ⟨d.view π, List.mem_map_of_mem hd, ?_, ?_, hLayout.mapped d hd⟩, ?_, ?_, ?_, ?_⟩
  · rw [hPtr]
    exact hLayout.payload_mod hd hb
  · show π d.id + 32 ≤ e.ptr
    omega
  · show e.ptr + e.size ≤ π d.id + d.size
    omega
  · intro x hx
    have hSize := hSizes x hx
    rcases hApart x hx with rfl | hApart
    · show Apart e.ptr e.size (π d.id + b.off) 16
      unfold Apart
      omega
    · unfold Apart at hApart ⊢
      omega
  · intro x hx
    have hSize := hSizes x hx
    rcases hApart x hx with rfl | hApart
    · show Apart e.ptr e.size (π d.id + b.off + b.size - 16) 16
      unfold Apart
      omega
    · unfold Apart at hApart ⊢
      omega
  · intro x hx
    obtain ⟨c, hc, rfl⟩ := List.mem_map.mp hx
    have hHeader := hLayout.header_apart hd hc hb
    show Apart e.ptr e.size (π c.id) 32
    unfold Apart at hHeader ⊢
    omega
  · intro x hx
    obtain ⟨l, hl, rfl⟩ := List.mem_map.mp hx
    obtain ⟨c, hc, f, hf, -, -, hFree, hAddr, -, hSize, -⟩ := hLayout.payload (h.rep.freeLocs l hl)
    have hBlocks := hLayout.blocks_apart hd hc hb hf (by
      rintro ⟨rfl, rfl⟩
      rw [hUsed] at hFree
      cases hFree)
    unfold Apart at hBlocks ⊢
    omega

/-- The bytes of two held pointers do not overlap. -/
theorem Simulates.live_apart (h : Simulates π c a) :
    c.live.Pairwise fun d e => Apart d.ptr d.size e.ptr e.size := by
  rw [h.live, List.pairwise_map]
  exact h.inv.locs.of_map.pairwise_of_forall_ne fun d hd e he hNe =>
    h.rep.layout.leases_apart h.inv hd he hNe

/-- Payload safety: what the client holds lies in mapped chunks and overlaps
neither the allocator's data nor anything else that the client holds. -/
theorem live_blocks_safe (h : Reachable K requests c) : ∃ v, Shows c.process v ∧
    (∀ e ∈ c.live, e.Safe c.process v) ∧
    c.live.Pairwise fun d e => Apart d.ptr d.size e.ptr e.size := by
  obtain ⟨π, hSim⟩ := h.simulates
  exact ⟨_, hSim.rep.shows, fun e he => hSim.safe he, hSim.live_apart⟩

theorem live_blocks_safe_sample : ∃ (c : Config) (v : View),
    c.live = [⟨1, 8589934704, 100⟩] ∧ Shows c.process v ∧
    (∀ e ∈ c.live, e.Safe c.process v) ∧
    c.live.Pairwise fun d e => Apart d.ptr d.size e.ptr e.size := by
  obtain ⟨c, hReached, hLive⟩ := exists_sample 0
  obtain ⟨v, hView⟩ := live_blocks_safe hReached
  exact ⟨c, v, hLive, hView⟩

/-- The blocks tile the chunks on the page list with agreeing tags, and the
live pointers are the payloads of the allocated blocks. -/
theorem heap_tagged (h : Reachable K requests c) : ∃ v, Shows c.process v ∧
    v.Tagged c.process.mem ∧ v.allocated.Perm (c.live.map Live.ptr) ∧
    (c.live.map Live.ptr).Nodup := by
  obtain ⟨π, hSim⟩ := h.simulates
  have hPtrs : c.live.map Live.ptr = (Ideal.run requests).live.map fun e => e.loc.payload π := by
    rw [hSim.live, List.map_map]
    rfl
  refine ⟨_, hSim.rep.shows, hSim.rep.tagged, ?_, ?_⟩
  · rw [hPtrs]
    exact hSim.inv.allocated_perm hSim.rep.layout
  · rw [hPtrs]
    exact hSim.rep.layout.nodup_live hSim.inv

theorem heap_tagged_sample : ∃ (c : Config) (v : View),
    c.live = [⟨1, 8589934704, 100⟩] ∧ Shows c.process v ∧
    v.Tagged c.process.mem ∧ v.allocated.Perm (c.live.map Live.ptr) ∧
    (c.live.map Live.ptr).Nodup := by
  obtain ⟨c, hReached, hLive⟩ := exists_sample 0
  obtain ⟨v, hView⟩ := heap_tagged hReached
  exact ⟨c, v, hLive, hView⟩

/-- The free list is a doubly linked list of exactly the blocks that are not
allocated, all of them mapped, and no loop of the allocator runs forever. -/
theorem free_list_exact (h : Reachable K requests c) : (∃ v, Shows c.process v ∧
      v.free.Nodup ∧ Mirrored c.process.mem v.free ∧ v.free.Perm v.vacancies ∧
      ∀ p ∈ v.free, ∀ x ∈ span p 16, c.process.os.mapped (x / apageSize) = true) ∧
    (∀ size, size + 4174 < 2 ^ 64 → mmMalloc K size c.process ≠ .error .diverges) ∧
    (∀ e ∈ c.live, mmFree e.ptr c.process ≠ .error .diverges) ∧
    mmFree 0 c.process ≠ .error .diverges := by
  obtain ⟨π, hSim⟩ := h.simulates
  have hTidy := hSim.inv.wf.toTidy
  refine ⟨⟨_, hSim.rep.shows, hSim.rep.freeList.nodup, hSim.rep.freeList.mirrored,
    hTidy.vacancies_perm hSim.rep.layout, ?_⟩, ?_, ?_, nofun⟩
  · intro p hp x hx
    obtain ⟨l, hl, rfl⟩ := List.mem_map.mp hp
    obtain ⟨d, hd, b, hb, -, -, -, hAddr, hLow, hSize, hHigh⟩ :=
      hSim.rep.layout.payload (hSim.rep.freeLocs l hl)
    rw [mem_span] at hx
    exact hSim.rep.layout.mapped d hd x (by omega) (by omega)
  · intro size hBound hRun
    by_cases hZero : size = 0
    · subst hZero
      cases hRun
    · have hError := (mmMalloc_meets hSim.rep hTidy (Nat.pos_of_ne_zero hZero) hBound).of_error hRun
      cases hError.1
  · intro e he hRun
    obtain ⟨l, hl, rfl⟩ := hSim.mem_live.mp he
    obtain ⟨b, hb, -⟩ := hSim.inv.held l hl
    exact (mmFree_returns hSim.rep hTidy hb).of_error hRun

theorem free_list_exact_sample : ∃ (c : Config) (v : View),
    c.live = [⟨1, 8589934704, 100⟩] ∧ Shows c.process v ∧
    v.free.Perm v.vacancies ∧ mmMalloc (Kernel.firstFit 0) 24 c.process ≠ .error .diverges := by
  obtain ⟨c, hReached, hLive⟩ := exists_sample 0
  obtain ⟨⟨v, hView, -, -, hPerm, -⟩, hMalloc, -⟩ := free_list_exact hReached
  exact ⟨c, v, hLive, hView, hPerm, hMalloc 24 (by decide)⟩

/-- No two neighbouring blocks of a chunk are both free, and every block lies in
its own chunk only. -/
theorem coalescing_complete (h : Reachable K requests c) : ∃ v, Shows c.process v ∧
    ∀ d ∈ v.chunks,
      (∀ a ∈ d.blocks, ∀ b ∈ d.blocks, a.addr + a.size = b.addr →
        a.allocated ≠ 0 ∨ b.allocated ≠ 0) ∧
      ∀ b ∈ d.blocks, d.base + 32 ≤ b.addr ∧ b.addr + b.size ≤ d.stop ∧
        ∀ f ∈ v.chunks, f ≠ d → Apart b.addr b.size f.base f.size := by
  obtain ⟨π, hSim⟩ := h.simulates
  refine ⟨_, hSim.rep.shows, fun _ hd => ?_⟩
  obtain ⟨c, hc, rfl⟩ := List.mem_map.mp hd
  have hShaped := hSim.rep.layout.shaped c hc
  constructor
  · intro _ hx _ hy hAdjacent
    obtain ⟨a, ha, rfl⟩ := List.mem_map.mp hx
    obtain ⟨b, hb, rfl⟩ := List.mem_map.mp hy
    replace hAdjacent : π c.id + a.off + a.size = π c.id + b.off := hAdjacent
    have hStop : a.stop = b.off := by
      unfold Segment.stop
      omega
    rcases (hSim.inv.wf.coalesced c hc).free_of_stop hShaped.tiled ha hb hStop with hUsed | hUsed
    · exact Or.inl (by simp [Block.view, hUsed])
    · exact Or.inr (by simp [Block.view, hUsed])
  · intro _ hx
    obtain ⟨b, hb, rfl⟩ := List.mem_map.mp hx
    have hBounds := hShaped.bounds hb
    refine ⟨?_, ?_, fun _ hy hNe => ?_⟩
    · show π c.id + 32 ≤ π c.id + b.off
      omega
    · show π c.id + b.off + b.size ≤ π c.id + c.size
      omega
    · obtain ⟨d, hd, rfl⟩ := List.mem_map.mp hy
      have hApart := hSim.rep.layout.apart c hc d hd (by
        rintro rfl
        exact hNe rfl)
      show Apart (π c.id + b.off) b.size (π d.id) d.size
      unfold Apart at hApart ⊢
      omega

theorem coalescing_complete_sample : ∃ (c : Config) (v : View),
    c.live = [⟨1, 8589934704, 100⟩] ∧ Shows c.process v ∧
    ∀ d ∈ v.chunks, ∀ a ∈ d.blocks, ∀ b ∈ d.blocks, a.addr + a.size = b.addr →
      a.allocated ≠ 0 ∨ b.allocated ≠ 0 := by
  obtain ⟨c, hReached, hLive⟩ := exists_sample 0
  obtain ⟨v, hView, hBlocks⟩ := coalescing_complete hReached
  exact ⟨c, v, hLive, hView, fun d hd => (hBlocks d hd).1⟩

/-- A lease whose block is used before and after a call that keeps payloads keeps its bytes,
and they stay mapped. -/
theorem Live.Kept.of_used {π' : Nat → Nat} {s t : Process} {cs cs' : List Chunk} {fr fr' : List Loc}
    {l : Option Loc} {e : Lease} {b : Block} (h : Rep π s cs fr) (h' : Rep π' t cs' fr')
    (hKeeps : KeepsPayloads π cs l s t) (hUsed : UsedAt cs e.loc b) (hUsed' : UsedAt cs' e.loc b)
    (hSizes : ∀ d ∈ cs', d.id = e.loc.chunk →
      π' d.id = π d.id ∧ ∃ c ∈ cs, c.id = d.id ∧ c.size = d.size)
    (hFits : e.size ≤ b.size - 32) (hNe : some e.loc ≠ l) : (e.at π).Kept s t := by
  obtain ⟨c, hc, hb, hLoc, hAddr, hBounds⟩ := h.layout.payload_bounds hUsed
  obtain ⟨d, hd, -, hLoc', -, -⟩ := h'.layout.payload_bounds hUsed'
  have hId : d.id = c.id := congrArg Loc.chunk (hLoc'.symm.trans hLoc)
  obtain ⟨hBase, f, hf, hfId, hfSize⟩ := hSizes d hd (congrArg Loc.chunk hLoc').symm
  obtain rfl : f = c := h.layout.eq_of_id hf hc (hfId.trans hId)
  rw [hId] at hBase
  have hPtr : (e.at π).ptr = π f.id + b.off + 16 := hAddr
  have hSize : (e.at π).size = e.size := rfl
  refine ⟨fun x hx => hKeeps _ b hUsed hNe x ⟨hx.1, ?_⟩, _, _, h.shows, h'.shows, f.view π,
    List.mem_map_of_mem hc, d.view π', List.mem_map_of_mem hd, ?_, hfSize.symm, ?_, ?_, ?_⟩
  · have hHigh : x < e.loc.payload π + e.size := hx.2
    omega
  · show π' d.id = π f.id
    rw [hId, hBase]
  · show π f.id + 32 ≤ (e.at π).ptr
    omega
  · show (e.at π).ptr + (e.at π).size ≤ π f.id + f.size
    omega
  · exact fun x hx => h'.layout.mapped d hd x hx.1 hx.2

/-- A call of `mm_malloc` leaves the bytes of every held pointer as they are, and mapped. -/
theorem Simulates.kept_malloc {size p : Nat} {t : Process} (h : Simulates π c a)
    (hBound : size + 4174 < 2 ^ 64) (hRun : mmMalloc K size c.process = .ok (p, t)) :
    ∀ e ∈ c.live, e.Kept c.process t := by
  intro e he
  obtain ⟨d, hd, rfl⟩ := h.mem_live.mp he
  obtain ⟨b, hUsed, -, -, hFits⟩ := h.inv.block hd
  have hTidy := h.inv.wf.toTidy
  by_cases hZero : size = 0
  · subst hZero
    obtain ⟨-, rfl⟩ := Prod.mk.inj (Except.ok.inj hRun)
    exact .of_used h.rep h.rep (l := none) (fun _ _ _ _ _ _ => rfl) hUsed hUsed
      (fun f hf _ => ⟨rfl, f, hf, rfl, rfl⟩) hFits nofun
  · have hReq := Nat.pos_of_ne_zero hZero
    obtain ⟨π', hServed⟩ := (mmMalloc_meets h.rep hTidy hReq hBound).of_ok hRun
    obtain ⟨_, -, hAfter⟩ := usedAt_malloc hTidy hReq
    have hOld := h.inv.chunk_lt hd
    refine .of_used h.rep hServed.rep hServed.keeps hUsed ((hAfter _ _).mpr (Or.inl hUsed))
      (fun f hf hId => ⟨hServed.bases _ (hId ▸ hOld), ?_⟩) hFits nofun
    rcases Heap.extent_of_malloc hf with hNew | hSame
    · omega
    · exact hSame

/-- So does a call of `mm_free` for all pointers but its own. -/
theorem Simulates.kept_free {t : Process} {d : Live} (h : Simulates π c a) (hd : d ∈ c.live)
    (hRun : mmFree d.ptr c.process = .ok ((), t)) : ∀ e ∈ c.live, e ≠ d → e.Kept c.process t := by
  intro e he hNe
  obtain ⟨x, hx, rfl⟩ := h.mem_live.mp hd
  obtain ⟨y, hy, rfl⟩ := h.mem_live.mp he
  obtain ⟨b, hb, -⟩ := h.inv.held x hx
  obtain ⟨f, hUsed, -, -, hFits⟩ := h.inv.block hy
  have hTidy := h.inv.wf.toTidy
  have hFreed := (mmFree_returns h.rep hTidy hb).of_ok hRun
  have hLocs : y.loc ≠ x.loc := fun hEq =>
    hNe (congrArg (Lease.at π) (List.inj_on_of_nodup_map h.inv.locs hy hx hEq))
  exact .of_used h.rep hFreed.rep hFreed.keeps hUsed ((usedAt_freeAt hTidy hb).mpr ⟨hUsed, hLocs⟩)
    (fun g hg _ => ⟨rfl, Heap.extent_of_freeAt hg⟩) hFits fun hEq => hLocs (Option.some.inj hEq)

/-- One more call keeps what is live before and after it, so that over any run
the client reads back what it last wrote. -/
theorem live_data_kept (h : Reachable K requests c) :
    (∀ size p t, size + 4174 < 2 ^ 64 → mmMalloc K size c.process = .ok (p, t) →
      ∀ e ∈ c.live, e.Kept c.process t) ∧
    (∀ d ∈ c.live, ∀ t, mmFree d.ptr c.process = .ok ((), t) →
      ∀ e ∈ c.live, e ≠ d → e.Kept c.process t) ∧
    ∀ e ∈ c.live, ∀ x ∈ span e.ptr e.size, ∀ v ∈ c.written x, c.process.mem x = v := by
  obtain ⟨π, hSim⟩ := h.simulates
  exact ⟨fun size p t hBound hRun => hSim.kept_malloc hBound hRun,
    fun d hd t hRun => hSim.kept_free hd hRun, hSim.written⟩

theorem live_data_kept_sample : ∃ (c : Config) (x : Nat), c.live = [⟨1, 8589934704, 100⟩] ∧
    c.written x = some 7 ∧ c.process.mem x = 7 := by
  obtain ⟨c, hReached, hLive⟩ := exists_sample 0
  have hHeld : (⟨1, 8589934704, 100⟩ : Live) ∈ c.live := hLive ▸ List.mem_cons_self
  have hStored := hReached.write (x := 8589934710) (v := 7) hHeld (by decide) (by decide)
  have hWritten := c.written_stored 8589934710 7
  exact ⟨c.stored 8589934710 7, _, hLive, hWritten,
    (live_data_kept hStored).2.2 _ hHeld _ ⟨by decide, by decide⟩ 7 hWritten⟩

end Reached

end Malloc
