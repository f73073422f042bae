import Coursework.Malloc.Runs
import Coursework.Malloc.View

/-! The allocator and `pagemap.c` agree on what is mapped, and no call aborts
as long as `mmap` succeeds. -/

namespace Malloc

open Tiling Bytes DoublyLinked

/-- The list from `all_mapped_pages` is doubly linked, and its entries hold the
addresses `addrs`. -/
def MappedPages (s : Process) (addrs : List Nat) : Prop :=
  ∃ pages : List PagePtr,
    Trail none (fun x => x.bind fun page => (entryOf s.pageMaps1 page).next)
      s.allMappedPages (pages.map some) ∧
    Back (fun x => x.bind fun page => (entryOf s.pageMaps1 page).prev) none (pages.map some) ∧
    addrs = pages.map fun page => (entryOf s.pageMaps1 page).addr

section Pages

variable {π : Nat → Nat} {K : Kernel} {s : Process} {cs : List Chunk} {fr : List Loc}
  {pages : List PagePtr} {requests : List Request} {c : Config}

/-- The linked list of `pagemap.c` is found in its table: linked both ways, with the addresses
of the entries. -/
theorem PageMapRep.mappedPages (h : PageMapRep s.pageMaps1 s.allMappedPages pages) :
    MappedPages s (pages.map fun page => (entryOf s.pageMaps1 page).addr) := by
  obtain ⟨last, hRing⟩ := h.ring
  refine ⟨pages, hRing.trail.congr fun x hx => ?_, hRing.back.congr fun x hx => ?_, rfl⟩
  · obtain ⟨page, -, rfl⟩ := List.mem_map.mp hx
    rfl
  · obtain ⟨page, -, rfl⟩ := List.mem_map.mp hx
    rfl

/-- The pages of the chunks are the pages of the addresses in them, chunks being whole
pages. -/
theorem Layout.pagesOf_iff {os : OS} (h : Layout π os cs) (p : Nat) :
    PagesOf π cs (pageOf p) ↔ ∃ d ∈ (view π cs fr).chunks, p ∈ span d.base d.size := by
  constructor
  · rintro ⟨c, hc, x, hLow, hHigh, hPage⟩
    refine ⟨c.view π, List.mem_map_of_mem hc, ?_⟩
    have hBase := h.aligned c hc
    have hSize := (h.shaped c hc).paged
    rw [pageOf_eq_iff] at hPage
    rw [apageSize_eq] at hPage hBase
    constructor
    · show π c.id ≤ p
      omega
    · show p < π c.id + c.size
      omega
  · rintro ⟨d, hd, hIn⟩
    obtain ⟨c, hc, rfl⟩ := List.mem_map.mp hd
    exact ⟨c, hc, p, hIn.1, hIn.2, rfl⟩

/-- The addresses in the list of mapped pages are the page addresses in chunks: none is
missing, and none is left over. -/
theorem mem_addrs_iff (h : Rep π s cs fr) (hTable : PageMapRep s.pageMaps1 s.allMappedPages pages)
    (hPages : ∀ page, page ∈ pages ↔ PagesOf π cs page) (p : Nat) :
    p ∈ pages.map (fun page => (entryOf s.pageMaps1 page).addr) ↔
      p % apageSize = 0 ∧ ∃ d ∈ (view π cs fr).chunks, p ∈ span d.base d.size := by
  rw [List.mem_map, ← h.layout.pagesOf_iff, ← hPages]
  constructor
  · rintro ⟨page, hIn, rfl⟩
    obtain ⟨-, hAligned, -, hPage⟩ := hTable.present page hIn
    refine ⟨hAligned, ?_⟩
    rwa [hPage]
  · rintro ⟨hAligned, hIn⟩
    obtain ⟨-, hAligned', -, hPage⟩ := hTable.present _ hIn
    refine ⟨_, hIn, ?_⟩
    rw [pageOf_eq_iff, apageSize_eq] at hPage
    rw [apageSize_eq] at hAligned hAligned'
    omega

/-- No page is on the list twice. -/
theorem nodup_addrs (h : PageMapRep s.pageMaps1 s.allMappedPages pages) :
    (pages.map fun page => (entryOf s.pageMaps1 page).addr).Nodup := by
  refine h.nodup.map_on fun a ha b hb hEq => ?_
  rw [← (h.present a ha).2.2.2, hEq, (h.present b hb).2.2.2]

/-- At every point of a round `pagemap.c` knows exactly the pages of the chunks
on the page list, each once; `mem_reset` leaves it empty; and no call aborts,
except that `mem_map` does when `mmap` fails. -/
theorem pagemap_in_step (h : Reachable K requests c) :
    (∃ v addrs, Shows c.process v ∧
      (∀ p, ∃ known, pagemapIsMapped p c.process = .ok (known, c.process) ∧
        (known = true ↔ ∃ d ∈ v.chunks, p ∈ span d.base d.size)) ∧
      MappedPages c.process addrs ∧ addrs.Nodup ∧
      ∀ p, p ∈ addrs ↔ p % apageSize = 0 ∧ ∃ d ∈ v.chunks, p ∈ span d.base d.size) ∧
    (∃ t, memReset c.process = .ok ((), t) ∧ t.allMappedPages = none ∧
      ∀ p, pagemapIsMapped p t = .ok (false, t)) ∧
    (∀ size, size + 4174 < 2 ^ 64 → (∃ p t, mmMalloc K size c.process = .ok (p, t)) ∨
      (mmMalloc K size c.process = .error .mmapFailed ∧
        regionPlace K c.process (regionSize size) = none)) ∧
    (∀ e ∈ c.live, ∃ t, mmFree e.ptr c.process = .ok ((), t)) ∧
    (∃ t, mmFree 0 c.process = .ok ((), t)) ∧ ∃ t, mmInit c.process = .ok (0, t) := by
  obtain ⟨π, hSim⟩ := h.simulates
  obtain ⟨pages, hLib, hPages⟩ := hSim.rep.lib
  have hTidy := hSim.inv.wf.toTidy
  refine ⟨⟨_, _, hSim.rep.shows, fun p => ?_, hLib.table.mappedPages, nodup_addrs hLib.table,
    mem_addrs_iff hSim.rep hLib.table hPages⟩, ?_, fun size hBound => ?_, fun e he => ?_,
    ⟨_, rfl⟩, _, rfl⟩
  · refine ⟨_, pagemapIsMapped_ok hLib.table p, ?_⟩
    rw [decide_eq_true_eq, hPages, hSim.rep.layout.pagesOf_iff]
  · obtain ⟨maps, os, hRun, hEmpty, -⟩ := memReset_ok hLib.table
    refine ⟨_, hRun, rfl, fun p => ?_⟩
    rw [pagemapIsMapped_ok hEmpty p]
    rfl
  · cases hRun : mmMalloc K size c.process with
    | ok r => exact Or.inl ⟨r.1, r.2, rfl⟩
    | error e =>
        have hPos : 0 < size := by
          apply Nat.pos_of_ne_zero
          rintro rfl
          cases hRun
        obtain ⟨rfl, -, hPlace⟩ := (mmMalloc_meets hSim.rep hTidy hPos hBound).of_error hRun
        exact Or.inr ⟨rfl, hPlace⟩
  · obtain ⟨l, hl, rfl⟩ := hSim.mem_live.mp he
    obtain ⟨b, hb, -⟩ := hSim.inv.held l hl
    obtain ⟨_, t, hRun, -⟩ := Program.returns_iff.mp (mmFree_returns hSim.rep hTidy hb)
    exact ⟨t, hRun⟩

theorem pagemap_in_step_sample : ∃ (c : Config) (v : View) (addrs : List Nat),
    c.live = [⟨1, 8589934704, 100⟩] ∧ Shows c.process v ∧ MappedPages c.process addrs ∧
    ∀ p, p ∈ addrs ↔ p % apageSize = 0 ∧ ∃ d ∈ v.chunks, p ∈ span d.base d.size := by
  obtain ⟨c, hReached, hLive⟩ := exists_sample 0
  obtain ⟨⟨v, addrs, hView, -, hList, -, hMem⟩, -⟩ := pagemap_in_step hReached
  exact ⟨c, v, addrs, hLive, hView, hList, hMem⟩

end Pages

end Malloc
