import Coursework.Malloc.Navigation

/-! The operations on the free list. -/

namespace Malloc

open Tiling Bytes DoublyLinked

/-- The link words of the nodes can be read and written. -/
def NodesMapped (os : OS) (xs : List Nat) : Prop :=
  ∀ x ∈ xs, os.accessible x 8 = true ∧ os.accessible (x + 8) 8 = true

section Lists

variable {s : Process} {xs : List Nat} {x : Nat}

/-- The memory after `removeFreeBlock`, which also clears the links of the
removed node. -/
def removeMem (m : Bytes) (x : Nat) : Bytes := ((unlinkMem m x).write x 8 0).write (x + 8) 8 0

/-- `remove_free_block` on a list in memory runs through, and the memory after it is
`removeMem` of the memory before. -/
theorem removeFreeBlock_ok (hList : ListRep s.mem s.freeListHead xs) (hSpaced : Spaced xs)
    (hMapped : NodesMapped s.os xs) (hx : x ∈ xs) :
    removeFreeBlock x s = .ok ((), { s with
      mem := removeMem s.mem x, freeListHead := unlinkHead s.mem s.freeListHead x }) := by
  have hBound : ∀ y ∈ xs, freeNextPtr y = y + 8 := by
    intro y hy
    have := hSpaced.bound y hy
    rw [freeNextPtr, add64_eq (by omega)]
  have hPrev := hList.prev_mem hx
  have hNext := hList.next_mem hx
  have hPrevIn := (List.mem_cons.mp hPrev).resolve_left
  have hNextIn := (List.mem_cons.mp hNext).resolve_left
  rw [removeFreeBlock, freePrevPtr_eq, hBound x hx, Program.bind_ok (load64_ok (hMapped x hx).1),
    Program.bind_ok (load64_ok (hMapped x hx).2)]
  unfold removeMem unlinkMem unlinkHead storeUnlessNull
  by_cases hp : s.mem.read x 8 = 0 <;> by_cases hn : s.mem.read (x + 8) 8 = 0
  · simp only [hp, hn, ne_eq, not_true_eq_false, if_false, Program.bind_apply,
      Program.modify_apply, store64_at (hMapped x hx).1, store64_at (hMapped x hx).2]
  · simp only [hp, hn, ne_eq, not_true_eq_false, not_false_eq_true, if_false, if_true,
      Program.bind_apply, Program.modify_apply, freePrevPtr_eq, store64_at (hMapped x hx).1,
      store64_at (hMapped x hx).2, store64_at (hMapped _ (hNextIn hn)).1]
  · simp only [hp, hn, ne_eq, not_true_eq_false, not_false_eq_true, if_false, if_true,
      Program.bind_apply, hBound _ (hPrevIn hp), store64_at (hMapped x hx).1,
      store64_at (hMapped x hx).2, store64_at (hMapped _ (hPrevIn hp)).2]
  · simp only [hp, hn, ne_eq, not_false_eq_true, if_true, Program.bind_apply, freePrevPtr_eq,
      hBound _ (hPrevIn hp), store64_at (hMapped x hx).1, store64_at (hMapped x hx).2,
      store64_at (hMapped _ (hPrevIn hp)).2, store64_at (hMapped _ (hNextIn hn)).1]

/-- Removal changes link words of the list only. -/
theorem removeMem_agreeOff (hList : ListRep s.mem s.freeListHead xs) (hx : x ∈ xs) :
    AgreeOff (linkWords xs) s.mem (removeMem s.mem x) := by
  have hUnlink := (hList.unlink_agreeOff hx).mono (linkWords_mono List.erase_subset)
  exact (hUnlink.write (span_subset_linkWords hx (Nat.le_refl _) (by omega))).write
    (span_subset_linkWords hx (by omega) (by omega))

/-- What is left of the list after a removal. The head pointer changes when the first node was
removed, and only then. -/
theorem ListRep.remove (hList : ListRep s.mem s.freeListHead xs) (hSpaced : Spaced xs)
    (hx : x ∈ xs) :
    ListRep (removeMem s.mem x) (unlinkHead s.mem s.freeListHead x) (xs.erase x) := by
  have hOut : ∀ y ∈ xs.erase x, Apart x 16 y 16 := by
    intro y hy
    obtain ⟨hNe, hy⟩ := hList.nodup.mem_erase_iff.mp hy
    exact hSpaced.apart x hx y hy (Ne.symm hNe)
  apply (hList.unlink hSpaced hx).congr
  rintro a ⟨y, hy, ha⟩
  have hApart := hOut y hy
  unfold Apart at hApart
  rw [mem_span] at ha
  rw [removeMem, write_outside (by omega), write_outside (by omega)]

/-- `insert_free_block` on a list in memory runs through, when the new block has room for the
links and lies apart from the nodes. -/
theorem insertFreeBlock_ok (hList : ListRep s.mem s.freeListHead xs)
    (hSpaced : Spaced (x :: xs)) (hMapped : NodesMapped s.os (x :: xs)) :
    insertFreeBlock x s = .ok ((), { s with
      mem := linkMem s.mem s.freeListHead x, freeListHead := x }) := by
  have hBound := hSpaced.bound x (by simp)
  have hHeadIn : s.freeListHead ≠ 0 → s.freeListHead ∈ xs :=
    (List.mem_cons.mp hList.head_mem).resolve_left
  have hx := hMapped x (by simp)
  rw [insertFreeBlock, freePrevPtr_eq, freeNextPtr, add64_eq (by omega)]
  unfold linkMem storeUnlessNull
  by_cases hHead : s.freeListHead = 0
  · simp only [hHead, ne_eq, not_true_eq_false, if_false, Program.bind_apply, Program.read_apply,
      Program.modify_apply, store64_at hx.1, store64_at hx.2]
  · have hh := hMapped s.freeListHead (List.mem_cons_of_mem x (hHeadIn hHead))
    simp only [hHead, ne_eq, not_false_eq_true, if_true, Program.bind_apply, Program.read_apply,
      Program.modify_apply, freePrevPtr_eq, store64_at hx.1, store64_at hx.2, store64_at hh.1]

end Lists

section Blocks

variable {π : Nat → Nat} {s : Process} {cs : List Chunk} {fr : List Loc} {l : Loc}

/-- The link words of the free blocks are mapped, as whole chunks are. -/
theorem Layout.nodesMapped {os : OS} (h : Layout π os cs) (hFree : ∀ l ∈ fr, FreeIn cs l) :
    NodesMapped os (fr.map (Loc.payload π)) := by
  intro x hx
  obtain ⟨l, hl, rfl⟩ := List.mem_map.mp hx
  obtain ⟨c, hc, b, hb, -, -, -, hAddr, hLow, hSize, hHigh⟩ := h.payload (hFree l hl)
  exact ⟨h.accessible hc (by omega) (by omega) (by omega),
    h.accessible hc (by omega) (by omega) (by omega)⟩

/-- The link words of the page headers are mapped. -/
theorem Layout.nodesMapped_chunks {os : OS} (h : Layout π os cs) :
    NodesMapped os (cs.map fun c => π c.id) := by
  intro x hx
  obtain ⟨c, hc, rfl⟩ := List.mem_map.mp hx
  have := (h.shaped c hc).size_bounds
  exact ⟨h.accessible hc (by omega) (by omega) (by omega),
    h.accessible hc (by omega) (by omega) (by omega)⟩

/-- The payload addresses after a place was taken from the list. -/
theorem Layout.map_erase {os : OS} (h : Layout π os cs) (hFree : ∀ l ∈ fr, FreeIn cs l)
    (hl : l ∈ fr) :
    (fr.erase l).map (Loc.payload π) = (fr.map (Loc.payload π)).erase (l.payload π) :=
  List.map_erase_of_unique fun k hk hEq => h.payload_inj (hFree k hk) (hFree l hl) hEq

/-- A free block is taken from the list, and the rest of the list keeps its order. -/
theorem ListsRep.remove_ok (h : ListsRep π s cs fr) (hl : l ∈ fr) :
    ∃ m head, removeFreeBlock (l.payload π) s =
        .ok ((), { s with mem := m, freeListHead := head }) ∧
      ListsRep π { s with mem := m, freeListHead := head } cs (fr.erase l) ∧
      AgreeOff (linkWords (fr.map (Loc.payload π))) s.mem m := by
  have hSpaced := h.layout.spaced_free h.freeLocs
  have hIn : l.payload π ∈ fr.map (Loc.payload π) := List.mem_map_of_mem hl
  have hAgree := removeMem_agreeOff h.freeList hIn
  have hList := h.freeList.remove hSpaced hIn
  rw [← h.layout.map_erase h.freeLocs hl] at hList
  have hLocs : ∀ k ∈ fr.erase l, FreeIn cs k := fun k hk => h.freeLocs k (List.mem_of_mem_erase hk)
  have hRun := removeFreeBlock_ok h.freeList hSpaced (h.layout.nodesMapped h.freeLocs) hIn
  exact ⟨_, _, hRun, h.relink h.freeLocs hAgree hList hLocs, hAgree⟩

/-- The block that was taken from the list keeps its tags. It is still marked as free, until
its owner is written. -/
theorem Rep.remove_ok (h : Rep π s cs fr) (hl : l ∈ fr) :
    ∃ m head, removeFreeBlock (l.payload π) s =
        .ok ((), { s with mem := m, freeListHead := head }) ∧
      Rep π { s with mem := m, freeListHead := head } cs (fr.erase l) ∧
      AgreeOff (linkWords (fr.map (Loc.payload π))) s.mem m := by
  obtain ⟨m, head, hRun, hLists, hAgree⟩ := h.toListsRep.remove_ok hl
  exact ⟨m, head, hRun, h.relink h.freeLocs hAgree hLists.freeList hLists.freeLocs, hAgree⟩

/-- A free block that is not in the list becomes its first one. The tags say already that it is
free. -/
theorem Rep.insert_ok (h : Rep π s cs fr) (hl : FreeIn cs l) (hNew : l ∉ fr) :
    ∃ m, insertFreeBlock (l.payload π) s =
        .ok ((), { s with mem := m, freeListHead := l.payload π }) ∧
      Rep π { s with mem := m, freeListHead := l.payload π } cs (l :: fr) ∧
      AgreeOff (linkWords ((l :: fr).map (Loc.payload π))) s.mem m := by
  have hLocs : ∀ k ∈ l :: fr, FreeIn cs k := List.forall_mem_cons.mpr ⟨hl, h.freeLocs⟩
  have hSpaced := h.layout.spaced_free hLocs
  have hMapped := h.layout.nodesMapped hLocs
  have hFresh : l.payload π ∉ fr.map (Loc.payload π) := by
    intro hIn
    obtain ⟨k, hk, hEq⟩ := List.mem_map.mp hIn
    exact hNew (h.layout.payload_inj (h.freeLocs k hk) hl hEq ▸ hk)
  have hZero : l.payload π ≠ 0 := by
    rw [Loc.payload]
    omega
  have hAgree := h.freeList.link_agreeOff (l.payload π)
  exact ⟨_, insertFreeBlock_ok h.freeList hSpaced hMapped,
    h.relink hLocs hAgree (h.freeList.link hSpaced hZero hFresh) hLocs, hAgree⟩

/-- The walk over the free list stops at the first block that is large enough, or at the end.
The induction is on the nodes that are left. -/
theorem findFitLoop_ok (h : Rep π s cs fr) (asize : Nat) (ls : List Loc) (hSub : ls ⊆ fr) {p : Nat}
    (hTrail : Trail 0 (memNext s.mem s.freeListHead) p (ls.map (Loc.payload π))) {steps : Nat}
    (hSteps : ls.length < steps) :
    findFitLoop asize steps p s =
      .ok (((ls.find? fun l => add64 (add64 hdrSize asize) fdrSize ≤ sizeAt cs l).map
        (Loc.payload π)).getD 0, s) := by
  induction ls generalizing p steps with
  | nil =>
      obtain ⟨steps, rfl⟩ : ∃ n, steps = n + 1 := ⟨steps - 1, by simp at hSteps; omega⟩
      obtain rfl : p = 0 := hTrail
      rfl
  | cons l ls ih =>
      obtain ⟨steps, rfl⟩ : ∃ n, steps = n + 1 := ⟨steps - 1, by simp at hSteps; omega⟩
      rw [List.map_cons] at hTrail
      obtain ⟨rfl, hpZero, hRest⟩ := hTrail
      obtain ⟨c, hc, b, hb, hId, hOff, hFree, hAddr, hLow, hSize, hHigh⟩ :=
        h.layout.payload (h.freeLocs l (hSub (by simp)))
      have hInside := h.layout.inside c hc
      have hTags := h.tags c hc b hb
      have hHeader : sub64 (l.payload π) hdrSize = π c.id + b.off := by
        rw [hdrSize_eq, sub64_eq (by omega) (by omega)]
        omega
      have hAlloc : getAlloc (π c.id + b.off) s = .ok (0, s) := by
        rw [h.getAlloc_ok hc (by omega) (by omega), hTags.alloc, hFree]
        rfl
      have hBlock : blockSize (π c.id + b.off) s = .ok (b.size, s) := by
        rw [h.blockSize_ok hc (by omega) (by omega), hTags.size]
      have hNext : load64 (freeNextPtr (l.payload π)) s =
          .ok (memNext s.mem s.freeListHead (l.payload π), s) := by
        rw [freeNextPtr, add64_eq (by omega),
          load64_ok (h.layout.accessible hc (by omega) (by omega) (by omega)), memNext,
          if_neg hpZero]
      have hSizeAt : sizeAt cs l = b.size := by
        rw [← sizeAt_eq h.layout.ids hc (h.layout.shaped c hc).tiled hb, hId, hOff]
      rw [findFitLoop, if_neg hpZero, hHeader]
      rw [Program.bind_ok hAlloc, Program.bind_ok hBlock, List.find?_cons, hSizeAt]
      generalize add64 (add64 hdrSize asize) fdrSize = total at ih ⊢
      by_cases hFits : total ≤ b.size
      · simp [hFits]
      · rw [if_neg (by simp [hFits]), Program.bind_ok hNext]
        simp only [hFits, decide_false]
        exact ih (fun x hx => hSub (by simp [hx])) hRest (by simp at hSteps; omega)

/-- `find_fit` is first fit: no block before the one that it returns is large enough. -/
theorem findFit_ok {w : Nat} (hw : Covers w (fr.length + 1)) (h : Rep π s cs fr) (asize : Nat) :
    findFitWithin w asize s =
      .ok (((fr.find? fun l => add64 (add64 hdrSize asize) fdrSize ≤ sizeAt cs l).map
        (Loc.payload π)).getD 0, s) := by
  obtain ⟨last, hRing⟩ := id h.freeList
  have hLength := h.freeList.length_lt (h.layout.spaced_free h.freeLocs)
  rw [List.length_map] at hLength
  rw [findFitWithin, Program.bind_ok (Program.read_apply s)]
  exact findFitLoop_ok h asize fr (List.Subset.refl fr) hRing.trail (hw.le hLength)

end Blocks

end Malloc
