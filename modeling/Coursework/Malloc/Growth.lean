import Coursework.Malloc.Safety
import Mathlib.Data.List.Find
import Mathlib.Order.Bounds.Basic

/-! When the heap grows, and which block a request gets otherwise. -/

namespace Malloc

open Tiling Bytes

/-- `mm_malloc` reaches `mem_map`: the record shows a new region, or the process
stops there. -/
def CallsMemMap (K : Kernel) (size : Nat) (s : Process) : Prop :=
  (mmMalloc K size).Meets s (fun _ t => ∃ p sz, .map p sz ∈ t.calls.drop s.calls.length)
    fun e => e = .memMapSize ∨ e = .mmapFailed

/-- `sz` bytes were mapped at `base` for a request, in one call, and its block `p`
is the first one of the new chunk. -/
structure GrewTo (s t : Process) (p base sz : Nat) : Prop where
  once : t.calls = s.calls ++ [.map base sz]
  first : ∃ w d b, Shows t w ∧ w.chunks.head? = some d ∧ d.base = base ∧ d.size = sz ∧
    d.blocks.head? = some b ∧ b.addr = base + 32 ∧ b.allocated = 1 ∧ p = b.addr + 16

/-- No region was mapped for a request, and its block `p` is the first one on the
free list `v.free` whose size field is at least `n`. -/
structure ReusedFirst (v : View) (s t : Process) (n p : Nat) : Prop where
  calls : t.calls = s.calls
  first : v.free.find? (fun q => n ≤ s.mem.read (q - 16) 8) = some p
  free : ∃ a ∈ v.blocks, a.addr + 16 = p ∧ a.allocated = 0
  taken : ∃ w, Shows t w ∧ ∃ b ∈ w.blocks, b.addr + 16 = p ∧ b.allocated = 1

section Fit

variable {H : Heap} {req : Nat}

/-- The free list misses no free block, so the search fails exactly when no free block of any
chunk is large enough. -/
theorem Heap.Tidy.fit_eq_none_iff (h : H.Tidy) : H.fit req = none ↔
    ∀ c ∈ H.chunks, ∀ b ∈ c.blocks, b.free = true → b.size < need req := by
  simp only [Heap.fit, List.find?_eq_none, decide_eq_true_eq, not_le]
  constructor
  · intro hSmall c hc b hb hFree
    rw [← sizeAt_eq h.ids hc (h.shaped c hc).tiled hb]
    exact hSmall _ ((h.freeExact _).mpr ⟨c, hc, rfl, b, hb, rfl, hFree⟩)
  · intro hSmall l hl
    obtain ⟨c, hc, left, b, right, rfl, hBlocks, hFree, hSize⟩ := h.free_split hl
    rw [hSize]
    exact hSmall c hc b (by simp [hBlocks]) hFree

/-- The code asks for the least multiple of a page that holds the page header, the tags and the
aligned request. -/
theorem regionSize_isLeast (req : Nat) :
    IsLeast {n | apageSize ∣ n ∧ 64 + alignUp req ≤ n} (regionSize req) := by
  have hFirst : firstOff = 32 := rfl
  constructor
  · refine ⟨Nat.dvd_of_mod_eq_zero (regionSize_bounds req).1, ?_⟩
    have := (regionSize_bounds req).2.1
    unfold need at this
    omega
  · rintro n ⟨hPaged, hRoom⟩
    have := Nat.mod_eq_zero_of_dvd hPaged
    rw [apageSize_eq] at this
    unfold regionSize need
    omega

end Fit

section Reached

variable {π : Nat → Nat} {K : Kernel} {requests : List Request} {c : Config} {a : Ideal}
  {size p : Nat} {t : Process}

/-- Every free block in sight is too small exactly when no free block fits. The sizes in memory
are those of the ideal heap. -/
theorem Simulates.all_small_iff (h : Simulates π c a) :
    (∀ b ∈ (view π a.heap.chunks a.heap.free).blocks, b.allocated = 0 → b.size < need size) ↔
      a.heap.fit size = none := by
  rw [h.inv.wf.toTidy.fit_eq_none_iff]
  constructor
  · intro hSmall d hd b hb hFree
    exact hSmall _ (mem_blocks_view.mpr ⟨d, hd, b, hb, rfl⟩) (by simp [Block.view, hFree])
  · intro hSmall x hx hVacant
    obtain ⟨d, hd, b, hb, rfl⟩ := mem_blocks_view.mp hx
    apply hSmall d hd b hb
    by_contra hUsed
    simp [Block.view, hUsed] at hVacant

/-- The search for a place is the search for the payload of a block by its header, in the order
of the free list. -/
theorem Simulates.find_free (h : Simulates π c a) :
    (view π a.heap.chunks a.heap.free).free.find?
        (fun q => need size ≤ c.process.mem.read (q - 16) 8) =
      (a.heap.fit size).map (Loc.payload π) := by
  rw [view, List.find?_map, Heap.fit]
  refine congrArg _ (List.find?_congr fun l hl => ?_)
  obtain ⟨d, hd, left, b, right, rfl, hBlocks, -, hSize⟩ := h.inv.wf.toTidy.free_split hl
  have hTags := h.rep.tags d hd b (by simp [hBlocks])
  rw [Function.comp_apply, hSize, Loc.payload_mk, Nat.add_sub_cancel, hTags.size]

/-- When a block fits, the first that fits in the order of the free list is taken, at its
address, and `mem_map` is not called. -/
theorem Simulates.reused_first (h : Simulates π c a) (hPos : 0 < size)
    (hBound : size + 4174 < 2 ^ 64) {l : Loc} (hFit : a.heap.fit size = some l) :
    ∃ p t, mmMalloc K size c.process = .ok (p, t) ∧
      ReusedFirst (view π a.heap.chunks a.heap.free) c.process t (need size) p := by
  have hTidy := h.inv.wf.toTidy
  have hl := List.mem_of_find?_eq_some hFit
  obtain ⟨m, head, hRun, hRep, -⟩ := mmMallocWithin_reuse (K := K) a.heap.covered_walkBound h.rep
    hTidy hPos hBound hFit
  refine ⟨_, _, hRun, rfl, ?_, ?_, _, hRep.shows, ?_⟩
  · rw [h.find_free, hFit]
    rfl
  · obtain ⟨d, hd, left, b, right, rfl, hBlocks, hFree, -⟩ := hTidy.free_split hl
    have hb : b ∈ d.blocks := by simp [hBlocks]
    exact ⟨_, mem_blocks_view.mpr ⟨d, hd, b, hb, rfl⟩, rfl, by simp [Block.view, hFree]⟩
  · have hFits := List.find?_some hFit
    rw [decide_eq_true_eq] at hFits
    obtain ⟨_, -, hUsed⟩ := usedAt_reuse hTidy hPos hl hFits
    obtain ⟨d, hd, hb, -, hAddr, -⟩ :=
      hRep.layout.payload_bounds ((hUsed l _).mpr (Or.inr ⟨rfl, rfl⟩))
    exact ⟨_, mem_blocks_view.mpr ⟨d, hd, _, hb, rfl⟩, hAddr.symm, rfl⟩

/-- When none fits, the answer is the first block of a region that was just mapped. -/
theorem Served.grew {π' : Nat → Nat} {s : Process} {H : Heap} (h : Served π π' s t H size p)
    (hFit : H.fit size = none) : GrewTo s t p (π' H.regions) (regionSize size) := by
  have hCalls := h.calls
  have hResult := h.result
  have hShows := h.rep.shows
  rw [hFit] at hCalls
  rw [Heap.malloc, hFit] at hResult hShows
  obtain ⟨n, rest, hCarve⟩ := (wholeBlock (regionSize size)).carve_head (need size) splitLeast size
  have hBlocks : (newChunk H.regions size).blocks = ⟨firstOff, n, some size⟩ :: rest := hCarve
  refine ⟨hCalls, _, (newChunk H.regions size).view π', ⟨π' H.regions + firstOff, n, 1, n⟩, hShows,
    rfl, rfl, rfl, ?_, rfl, rfl, hResult⟩
  rw [Chunk.view, hBlocks]
  rfl

/-- `mm_malloc` maps a region exactly when every free block is too small, and then
one of the least size that will do. Else it takes the first block on the free list
that is large enough, where it lies. -/
theorem heap_grows_when_needed (h : Reachable K requests c) (hPos : 0 < size)
    (hBound : size + 4174 < 2 ^ 64) : ∃ v, Shows c.process v ∧
      (CallsMemMap K size c.process ↔
        ∀ b ∈ v.blocks, b.allocated = 0 → b.size < 32 + align size) ∧
      (CallsMemMap K size c.process →
        ∃ sz, IsLeast {n | apageSize ∣ n ∧ 64 + align size ≤ n} sz ∧
          (mmMalloc K size).Meets c.process (fun p t => ∃ base, GrewTo c.process t p base sz)
            fun e => e = .mmapFailed ∧ regionPlace K c.process sz = none) ∧
      (¬CallsMemMap K size c.process → ∃ p t, mmMalloc K size c.process = .ok (p, t) ∧
        ReusedFirst v c.process t (32 + align size) p) := by
  obtain ⟨π, hSim⟩ := h.simulates
  have hTidy := hSim.inv.wf.toTidy
  have hAlign : align size = alignUp size := align_eq_alignUp (by omega)
  have hNeed : 32 + align size = need size := by rw [hAlign, need, Nat.add_comm]
  refine ⟨_, hSim.rep.shows, ?_⟩
  rw [hNeed, hSim.all_small_iff, hAlign]
  cases hFit : (Ideal.run requests).heap.fit size with
  | some l =>
      obtain ⟨p, t, hRun, hReused⟩ := hSim.reused_first (K := K) hPos hBound hFit
      have hNot : ¬CallsMemMap K size c.process := by
        unfold CallsMemMap
        rw [Program.meets_of_ok hRun, hReused.calls, List.drop_length]
        rintro ⟨_, _, hIn⟩
        cases hIn
      exact ⟨⟨fun hCalls => absurd hCalls hNot, nofun⟩, fun hCalls => absurd hCalls hNot,
        fun _ => ⟨p, t, hRun, hReused⟩⟩
  | none =>
      have hGrew : (mmMalloc K size).Meets c.process
          (fun p t => ∃ base, GrewTo c.process t p base (regionSize size))
          fun e => e = .mmapFailed ∧ regionPlace K c.process (regionSize size) = none :=
        (mmMalloc_meets hSim.rep hTidy hPos hBound).mono
          (fun p t ⟨π', hServed⟩ => ⟨_, hServed.grew hFit⟩) fun e he => ⟨he.1, he.2.2⟩
      have hCalls : CallsMemMap K size c.process := by
        refine hGrew.mono (fun p t ⟨base, hOne⟩ => ?_) fun e he => Or.inr he.1
        refine ⟨base, regionSize size, ?_⟩
        rw [hOne.once, List.drop_left]
        exact List.mem_singleton_self _
      exact ⟨⟨fun _ => rfl, fun _ => hCalls⟩, fun _ => ⟨_, regionSize_isLeast size, hGrew⟩,
        fun hNot => absurd hCalls hNot⟩

theorem heap_grows_when_needed_sample : ∃ (c : Config) (v : View),
    c.live = [⟨1, 8589934704, 100⟩] ∧ Shows c.process v ∧
    (CallsMemMap (Kernel.firstFit 0) 5000 c.process ↔
      ∀ b ∈ v.blocks, b.allocated = 0 → b.size < 32 + align 5000) := by
  obtain ⟨c, hReached, hLive⟩ := exists_sample 0
  obtain ⟨v, hView, hCalls, -⟩ :=
    heap_grows_when_needed (K := Kernel.firstFit 0) hReached (by decide : 0 < 5000) (by decide)
  exact ⟨c, v, hLive, hView, hCalls⟩

end Reached

end Malloc
