import Coursework.Malloc.Safety

/-! Requests near `2 ^ 64`, for which the sizes that `mm_malloc` computes wrap. -/

namespace Malloc

open Tiling Bytes Program

/-- `mem_map` aborts. -/
def Abort.inMemMap : Abort → Bool
  | .memMapSize | .mmapFailed | .pageAlreadyMapped | .pageIsListHead => true
  | _ => false

/-- The answer `p` is `NULL` or the payload of a block with room for the request
and its tags, and the heap is tiled and tagged. -/
def Answers (size p : Nat) (t : Process) : Prop :=
  ∃ v, Shows t v ∧ v.Tagged t.mem ∧
    (p ≠ 0 → ∃ b ∈ v.blocks, b.addr + 16 = p ∧ size + 32 ≤ b.size)

/-- What is asked of `mm_malloc` for every size. -/
def Serves (K : Kernel) (size : Nat) (s : Process) : Prop :=
  (mmMalloc K size).Meets s (Answers size) fun e => e.inMemMap

/-- No computed size is below the request; or one is, but no free block is there
that could be taken for large enough, and the kernel refuses the page that is
asked for instead. -/
def Unwrapped (K : Kernel) (size : Nat) (s : Process) : Prop :=
  size + 64 ≤ 2 ^ 64 ∨
    (size + 48 ≤ 2 ^ 64 ∨ s.freeListHead = 0) ∧ regionPlace K s apageSize = none

section Failures

/-- The code that never gets to `mem_map`. -/
abbrev Offline {α : Type} (x : Code α) : Prop := x.FailsWith fun e => ¬ e.inMemMap

theorem load_offline (a n : Nat) : Offline (load a n) :=
  .bind .of_read fun _ => .ite .of_pure (.of_stop nofun)

theorem store_offline (a n v : Nat) : Offline (store a n v) :=
  .bind .of_read fun _ => .ite .of_modify (.of_stop nofun)

theorem findPageChunkForAddrLoop_offline (h steps pc : Nat) :
    Offline (findPageChunkForAddrLoop h steps pc) := by
  induction steps generalizing pc with
  | zero => exact .of_stop nofun
  | succ steps ih =>
      refine .ite .of_pure (.bind (load_offline _ _) fun stop => ?_)
      exact .ite .of_pure (.bind (load_offline _ _) fun next => ih next)

theorem writeFooter_offline (h : Nat) : Offline (writeFooter h) := by
  have hStore : ∀ f, Offline (blockSize h >>= fun size => store64 (footerSizeField f) size) :=
    fun f => .bind (load_offline _ _) fun _ => store_offline _ _ _
  refine .bind (load_offline _ _) fun size => .bind ?_ fun pc => ?_
  · exact .bind .of_read fun s => findPageChunkForAddrLoop_offline h _ _
  · exact .ite (.bind (load_offline _ _) fun pageEnd => .ite (.of_stop nofun) (hStore _)) (hStore _)

theorem insertFreeBlock_offline (bp : Nat) : Offline (insertFreeBlock bp) := by
  refine .bind (store_offline _ _ _) fun _ => .bind .of_read fun s => ?_
  refine .bind (store_offline _ _ _) fun _ => ?_
  exact .ite (.bind (store_offline _ _ _) fun _ => .of_modify) .of_modify

/-- Splitting a block may stop, but not in `mem_map`. So what stops there has asked for a
region. -/
theorem splitBlock_offline (h asize : Nat) : Offline (splitBlock h asize) := by
  have hMark : Offline (do setAlloc h; writeFooter h) :=
    .bind (store_offline _ _ _) fun _ => writeFooter_offline h
  refine .bind (load_offline _ _) fun size => .ite (.bind (store_offline _ _ _) fun _ => ?_) hMark
  refine .bind (store_offline _ _ _) fun _ => .bind (writeFooter_offline h) fun _ => ?_
  refine .bind (store_offline _ _ _) fun _ => .bind (store_offline _ _ _) fun _ => ?_
  exact .bind (writeFooter_offline _) fun _ => insertFreeBlock_offline _

end Failures

section Bands

variable {π : Nat → Nat} {s t : Process} {H : Heap} {K : Kernel} {c : Config} {a : Ideal}
  {size p : Nat}

theorem BlocksFrom.le {m : Bytes} {stop h : Nat} {xs : List BlockView}
    (hx : BlocksFrom m stop h xs) : h ≤ stop := by
  cases xs with
  | nil => exact Nat.le_of_eq hx
  | cons b xs => exact Nat.le_of_lt hx.1

theorem BlocksFrom.size_le {m : Bytes} {stop h : Nat} {xs : List BlockView} {b : BlockView}
    (hx : BlocksFrom m stop h xs) (hb : b ∈ xs) : h + b.size ≤ stop := by
  induction xs generalizing h with
  | nil => cases hb
  | cons d xs ih =>
      rcases List.mem_cons.mp hb with rfl | hb
      · exact hx.2.2.le
      · have := ih hx.2.2 hb
        omega

/-- No chunk has a block with room for the request and its tags, so a sound answer to it can
only be `NULL`. -/
theorem Answers.eq_zero (h : Answers size p t) (hWrap : 2 ^ 64 < size + 64) : p = 0 := by
  obtain ⟨v, hShows, -, hBlock⟩ := h
  by_contra hNonzero
  obtain ⟨b, hb, -, hRoom⟩ := hBlock hNonzero
  obtain ⟨c, hc, hb⟩ := List.mem_flatMap.mp hb
  have hEnd := (hShows.chunks c hc).blocks.size_le hb
  have hStop := t.mem.read_lt (c.base + 24) 8
  rw [← (hShows.chunks c hc).stop] at hStop
  omega

/-- Free blocks are smaller than the address space without its first and its
last page. -/
theorem Rep.sizeAt_lt (h : Rep π s H.chunks H.free) (hTidy : H.Tidy) {l : Loc} (hl : l ∈ H.free) :
    48 ≤ sizeAt H.chunks l ∧ sizeAt H.chunks l + 8224 ≤ 2 ^ 64 := by
  obtain ⟨c, hc, left, b, right, rfl, hBlocks, -, hSize⟩ := hTidy.free_split hl
  have hShaped := hTidy.shaped c hc
  have hBounds := hShaped.bounds (b := b) (by simp [hBlocks])
  have hInside := h.layout.inside c hc
  have hNonzero := h.layout.nonzero c hc
  have hAligned := h.layout.aligned c hc
  have hPaged := hShaped.paged
  rw [apageSize_eq] at *
  omega

/-- The size of a block as the code computes it for any request, with both sums wrapped. -/
theorem totalSize_mod (size : Nat) :
    totalSize size = ((size + 15) % 2 ^ 64 / 16 * 16 + 32) % 2 ^ 64 := by
  rw [totalSize, align_eq, hdrSize_eq, fdrSize_eq]
  unfold add64
  omega

/-- For requests just below the wrap, the size of the region wraps to zero or is more than
there is to map. -/
theorem mapsize_huge (hLarge : 2 ^ 64 ≤ size + 4174) (hFits : size + 64 ≤ 2 ^ 64) :
    mapsize size = 0 ∨ 2 ^ 64 ≤ mapsize size + 4096 := by
  rw [mapsize, totalSize_mod, pageHdrSize_eq, memPagesize, apageSize_eq]
  unfold sub64 add64
  omega

/-- For requests beyond it the size of the region is a single page. -/
theorem mapsize_wrapped (hSize : size < 2 ^ 64) (hWrap : 2 ^ 64 < size + 64) :
    mapsize size = apageSize := by
  rw [mapsize, totalSize_mod, pageHdrSize_eq, memPagesize, apageSize_eq]
  unfold sub64 add64
  omega

/-- The request is too large for any region, and no computed size is below it. The region is
larger than what there is to map, or its size has wrapped to zero. -/
theorem mmMalloc_huge (h : Rep π s H.chunks H.free) (hTidy : H.Tidy)
    (hLarge : 2 ^ 64 ≤ size + 4174) (hFits : size + 64 ≤ 2 ^ 64) :
    (mmMalloc K size).Meets s (fun _ _ => False) fun e => e = .mmapFailed := by
  rw [mmMalloc]
  refine mmMallocWithin_map H.covered_walkBound h hTidy (by omega) ?_ (fun _ => rfl) ?_
  · refine List.find?_eq_none.mpr fun l hl => ?_
    have hSize := h.sizeAt_lt hTidy hl
    rw [totalSize_mod, decide_eq_true_eq]
    omega
  · intro p v hPlace hZero hAligned hInside hRep hKeeps hCalls
    have hSize : 80 ≤ mapsize size := (hRep.layout.shaped _ List.mem_cons_self).size_bounds
    have hMapsize := mapsize_huge hLarge hFits
    rw [apageSize_eq] at hAligned
    omega

/-- The search with a wrapped size ends without a block if the size is still huge,
and if there is no block. -/
theorem find_wrapped_eq_none (h : Rep π s H.chunks H.free) (hTidy : H.Tidy) (hSize : size < 2 ^ 64)
    (hWrap : 2 ^ 64 < size + 64) :
    (H.free.find? fun l => totalSize size ≤ sizeAt H.chunks l) = none ↔
      size + 48 ≤ 2 ^ 64 ∨ s.freeListHead = 0 := by
  rw [h.freeList.head_eq_zero, List.map_eq_nil_iff, List.find?_eq_none]
  constructor
  · intro hNone
    by_contra hTaken
    obtain ⟨hBelow, hNonempty⟩ := not_or.mp hTaken
    obtain ⟨l, hl⟩ := List.exists_mem_of_ne_nil _ hNonempty
    have hBlock := h.sizeAt_lt hTidy hl
    have hSmall := hNone l hl
    rw [totalSize_mod, decide_eq_true_eq] at hSmall
    omega
  · rintro (hHuge | hEmpty) l hl
    · have hBlock := h.sizeAt_lt hTidy hl
      rw [totalSize_mod, decide_eq_true_eq]
      omega
    · rw [hEmpty] at hl
      cases hl

/-- A wrapped request that finds no block asks for one page. When the kernel refuses the page,
the program stops and no block is given. -/
theorem mmMalloc_refused (h : Rep π s H.chunks H.free) (hTidy : H.Tidy) (hSize : size < 2 ^ 64)
    (hWrap : 2 ^ 64 < size + 64) (hSearch : size + 48 ≤ 2 ^ 64 ∨ s.freeListHead = 0)
    (hPlace : regionPlace K s apageSize = none) :
    (mmMalloc K size).Meets s (fun _ _ => False) fun e => e = .mmapFailed := by
  have hFind := (find_wrapped_eq_none h hTidy hSize hWrap).mpr hSearch
  rw [mmMalloc]
  refine mmMallocWithin_map H.covered_walkBound h hTidy (by omega) hFind (fun _ => rfl) ?_
  intro p v hPlaced
  rw [mapsize_wrapped hSize hWrap, hPlace] at hPlaced
  cases hPlaced

/-- Otherwise a block or a page is taken that is too small, unless the footer is
refused. -/
theorem mmMalloc_wrapped (h : Rep π s H.chunks H.free) (hTidy : H.Tidy) (hSize : size < 2 ^ 64)
    (hWrap : 2 ^ 64 < size + 64) (hTaken : ¬((size + 48 ≤ 2 ^ 64 ∨ s.freeListHead = 0) ∧
      regionPlace K s apageSize = none)) :
    (mmMalloc K size).Meets s (fun p _ => p ≠ 0) fun e => ¬ e.inMemMap := by
  rw [mmMalloc]
  have hReq : 0 < size := by omega
  have hSplit : ∀ (u : Process) (b p : Nat), p ≠ 0 →
      (splitBlock b (align size) >>= fun _ => pure p).Meets u (fun p _ => p ≠ 0)
        fun e => ¬ e.inMemMap := by
    intro u b p hNonzero
    rw [Program.meets_bind]
    exact (splitBlock_offline b (align size) u).mono (fun _ _ _ => hNonzero) fun _ he => he
  cases hFind : H.free.find? fun l => totalSize size ≤ sizeAt H.chunks l with
  | some l =>
      obtain ⟨m, head, hRun, -⟩ :=
        mmMallocWithin_fit (K := K) H.covered_walkBound h hTidy hReq hFind
      rw [Program.meets_congr hRun]
      apply hSplit _ _ _
      rw [Loc.payload]
      omega
  | none =>
      have hSearch := (find_wrapped_eq_none h hTidy hSize hWrap).mp hFind
      refine mmMallocWithin_map H.covered_walkBound h hTidy hReq hFind (fun hNone => ?_) ?_
      · rw [mapsize_wrapped hSize hWrap] at hNone
        exact absurd ⟨hSearch, hNone⟩ hTaken
      · intro p v _ hZero _ _ _ _ _
        exact hSplit _ _ _ (by omega)

/-- A pointer that no block has room for is not a sound answer, whatever else the call has
done. -/
theorem not_serves (hWrap : 2 ^ 64 < size + 64)
    (h : (mmMalloc K size).Meets s (fun p _ => p ≠ 0) fun e => ¬ e.inMemMap) :
    ¬ Serves K size s := by
  intro hServes
  cases hRun : mmMalloc K size s with
  | error e => exact h.of_error hRun (hServes.of_error hRun)
  | ok r =>
      obtain ⟨p, t⟩ := r
      exact h.of_ok hRun ((hServes.of_ok hRun).eq_zero hWrap)

/-- Requests that meet the condition and do not fit in memory are refused by the kernel, and
the program stops in `mem_map`. -/
theorem Unwrapped.refused (hCond : Unwrapped K size s) (h : Rep π s H.chunks H.free)
    (hTidy : H.Tidy) (hSize : size < 2 ^ 64) (hLarge : 2 ^ 64 ≤ size + 4174) :
    (mmMalloc K size).Meets s (fun _ _ => False) fun e => e = .mmapFailed := by
  by_cases hFits : size + 64 ≤ 2 ^ 64
  · exact mmMalloc_huge h hTidy hLarge hFits
  · obtain ⟨hSearch, hPlace⟩ := hCond.resolve_left hFits
    exact mmMalloc_refused h hTidy hSize (by omega) hSearch hPlace

/-- Below the bound every request is served, or `mmap` refuses the region. -/
theorem serves_small (h : Simulates π c a) (hReq : 0 < size) (hBound : size + 4174 < 2 ^ 64) :
    Serves K size c.process := by
  cases hRun : mmMalloc K size c.process with
  | error e =>
      have hFailed := (mmMalloc_meets h.rep h.inv.wf.toTidy hReq hBound).of_error hRun
      exact (Program.meets_of_error hRun).mpr (hFailed.1 ▸ rfl)
  | ok r =>
      obtain ⟨p, t⟩ := r
      apply (Program.meets_of_ok hRun).mpr
      obtain ⟨π', hSim⟩ := simulates_malloc h hBound hRun
      refine ⟨_, hSim.rep.shows, hSim.rep.tagged, fun hNonzero => ?_⟩
      have hLive : (⟨c.answers.length, p, size⟩ : Live) ∈ (c.served size p t).live := by
        simp [Config.served, hNonzero]
      obtain ⟨d, hd, b, hb, -, hPtr, -, hRoom, -, -⟩ := hSim.block hLive
      exact ⟨_, mem_blocks_view.mpr ⟨d, hd, b, hb, rfl⟩, hPtr.symm, hRoom⟩

/-- A call serves the request exactly under the condition, in any state that the ideal
allocator simulates. -/
theorem Simulates.serves_iff (h : Simulates π c a) (hReq : 0 < size) (hSize : size < 2 ^ 64) :
    Serves K size c.process ↔ Unwrapped K size c.process := by
  have hTidy := h.inv.wf.toTidy
  constructor
  · intro hServes
    by_contra hCond
    obtain ⟨hFits, hTaken⟩ := not_or.mp hCond
    have hWrap : 2 ^ 64 < size + 64 := by omega
    exact not_serves hWrap (mmMalloc_wrapped h.rep hTidy hSize hWrap hTaken) hServes
  · intro hCond
    by_cases hBound : size + 4174 < 2 ^ 64
    · exact serves_small h hReq hBound
    · exact (hCond.refused h.rep hTidy hSize (by omega)).mono (fun _ _ => False.elim)
        fun e he => he ▸ rfl

end Bands

section WrapRuns

variable {K : Kernel} {admits admits' : Nat → Process → Prop} {requests : List Request} {c : Config}

/-- A run whose requests are admitted by one condition is one for every weaker condition. -/
theorem Runs.mono (h : Runs K admits requests c)
    (hAdmits : ∀ size s, admits size s → admits' size s) :
    Runs K admits' requests c := by
  induction h with
  | boot hBooted hInit => exact .boot hBooted hInit
  | reset _ hReset hInit ih => exact .reset ih hReset hInit
  | malloc _ hAdmitted hRun ih => exact .malloc ih (hAdmits _ _ hAdmitted) hRun
  | free _ he hRun ih => exact .free ih he hRun
  | freeNull _ hRun ih => exact .freeNull ih hRun
  | write _ he hLow hHigh ih => exact .write ih he hLow hHigh

/-- Runs in which every request meets the condition are runs without wrapping: what would wrap
is refused and ends the run. -/
theorem Runs.reachable
    (h : Runs K (fun size s => size < 2 ^ 64 ∧ Unwrapped K size s) requests c) :
    Reachable K requests c := by
  induction h with
  | boot hBooted hInit => exact .boot hBooted hInit
  | reset _ hReset hInit ih => exact .reset ih hReset hInit
  | malloc _ hAdmitted hRun ih =>
      obtain ⟨π, hSim⟩ := ih.simulates
      refine .malloc ih ?_ hRun
      -- A call that was refused did not return.
      by_contra hBound
      exact (hAdmitted.2.refused hSim.rep hSim.inv.wf.toTidy hAdmitted.1 (by omega)).of_ok hRun
  | free _ he hRun ih => exact .free ih he hRun
  | freeNull _ hRun ih => exact .freeNull ih hRun
  | write _ he hLow hHigh ih => exact .write ih he hLow hHigh

/-- In every run whose requests meet the condition, a call of `mm_malloc` answers
with `NULL`, aborts in `mem_map` or returns a block with room for the request, in
a heap that stays tiled and tagged, exactly if it meets the condition too. -/
theorem request_served_iff {size : Nat}
    (h : Runs K (fun size s => size < 2 ^ 64 ∧ Unwrapped K size s) requests c)
    (hReq : 0 < size) (hSize : size < 2 ^ 64) :
    Serves K size c.process ↔ Unwrapped K size c.process := by
  obtain ⟨π, hSim⟩ := h.reachable.simulates
  exact hSim.serves_iff hReq hSize

theorem request_served_iff_sample : ∃ c : Config,
    c.live = [⟨1, 8589934704, 100⟩] ∧ Serves (Kernel.firstFit 0) 40 c.process ∧
      (Serves (Kernel.firstFit 0) (2 ^ 64 - 1) c.process ↔
        Unwrapped (Kernel.firstFit 0) (2 ^ 64 - 1) c.process) := by
  obtain ⟨c, hReached, hLive⟩ := exists_sample 0
  have hRuns : Runs (Kernel.firstFit 0)
      (fun size s => size < 2 ^ 64 ∧ Unwrapped (Kernel.firstFit 0) size s) _ c :=
    hReached.mono fun size s hBound => ⟨by omega, Or.inl (by omega)⟩
  refine ⟨c, hLive, ?_, request_served_iff hRuns (by decide) (by decide)⟩
  exact (request_served_iff hRuns (by decide) (by decide)).mpr (Or.inl (by decide))

theorem negative_run : (mmMalloc (Kernel.firstFit 0) (2 ^ 64 - 1) Process.fresh).map
    (fun r => (r.1, r.2.mem.read (r.1 - 16) 8)) = .ok (8589934640, 32) := by
  decide +kernel

/-- The request for `-1` bytes gets a block of 32 bytes, which are all tags. Its size was
rounded up beyond the last address and wrapped to zero. -/
theorem negative_request : ∃ t, Reachable (Kernel.firstFit 0) [] (.start Process.fresh) ∧
    mmMalloc (Kernel.firstFit 0) (2 ^ 64 - 1) Process.fresh = .ok (8589934640, t) ∧
    t.mem.read (8589934640 - 16) 8 = 32 ∧
    ¬ Serves (Kernel.firstFit 0) (2 ^ 64 - 1) (Config.start Process.fresh).process := by
  have hResult := negative_run
  cases hRun : mmMalloc (Kernel.firstFit 0) (2 ^ 64 - 1) Process.fresh with
  | error e =>
      rw [hRun] at hResult
      cases hResult
  | ok r =>
      obtain ⟨p, t⟩ := r
      rw [hRun] at hResult
      obtain ⟨hPtr, hHeader⟩ := Prod.mk.inj (Except.ok.inj hResult)
      obtain rfl : p = 8589934640 := hPtr
      refine ⟨t, .boot (s := Process.fresh) ⟨rfl, rfl, rfl, rfl, rfl⟩ rfl, rfl, hHeader, ?_⟩
      intro hServes
      have hZero := (hServes.of_ok hRun).eq_zero (by decide)
      cases hZero

end WrapRuns

end Malloc
