import Coursework.Malloc.Mm

/-! How the bound on the walks of `mm.c` matters: a call that comes to its end within a
bound does the same within a larger one. So a call that does the same with the walks cut
off after `n` nodes as without the cut visits at most `n` nodes in each of them. -/

namespace Malloc

open Program (read stop CutOff)

/-- Walks that are cut off after `n` nodes get to the end of a list of `k`. -/
def Covers (n k : Nat) : Prop := n = walkBound ∨ k ≤ n

/-- The bound of the functions under the names of the source covers every list. -/
theorem Covers.walkBound (k : Nat) : Covers walkBound k := Or.inl rfl

/-- A covering bound is at least the length of the list, as long as the list is no longer than
the bound of the source. -/
theorem Covers.le {n k : Nat} (h : Covers n k) (hk : k ≤ Malloc.walkBound) : k ≤ n := by
  rcases h with rfl | h
  · exact hk
  · exact h

/-- What covers a list covers every shorter one. -/
theorem Covers.mono {n k l : Nat} (h : Covers n k) (hl : l ≤ k) : Covers n l :=
  h.imp_right (Nat.le_trans hl)

section CutOff

variable {n m : Nat}

/-- The search for the chunk of an address: with fewer steps it does the same, or it runs out
of them and stops with `diverges`. The induction is on the smaller bound. -/
theorem findPageChunkForAddrLoop_cutOff (h : Nat) (hLe : n ≤ m) (pc : Nat) :
    CutOff .diverges (findPageChunkForAddrLoop h n pc) (findPageChunkForAddrLoop h m pc) := by
  induction n generalizing m pc with
  | zero => exact .of_stop
  | succ n ih =>
      obtain ⟨m, rfl⟩ : ∃ k, m = k + 1 := ⟨m - 1, by omega⟩
      refine .ite .rfl (.bind .rfl fun pageEnd => .ite .rfl (.bind .rfl fun next => ?_))
      exact ih (by omega) next

/-- The walk over the chunks that unmaps the empty ones, which reads the next chunk before it
unmaps, so that both walks go on from the same one. -/
theorem checkAndUnmapFullPagesLoop_cutOff (hLe : n ≤ m) (pc : Nat) :
    CutOff .diverges (checkAndUnmapFullPagesLoop n pc) (checkAndUnmapFullPagesLoop m pc) := by
  induction n generalizing m pc with
  | zero => exact .of_stop
  | succ n ih =>
      obtain ⟨m, rfl⟩ : ∃ k, m = k + 1 := ⟨m - 1, by omega⟩
      refine .ite .rfl (.bind .rfl fun next => .bind .rfl fun pageSize => .bind .rfl fun alloc =>
        .bind .rfl fun size => .ite (.bind .rfl fun _ => ?_) ?_)
      · exact ih (by omega) next
      · exact ih (by omega) next

/-- The first-fit search over the free list. -/
theorem findFitLoop_cutOff (asize : Nat) (hLe : n ≤ m) (bp : Nat) :
    CutOff .diverges (findFitLoop asize n bp) (findFitLoop asize m bp) := by
  induction n generalizing m bp with
  | zero => exact .of_stop
  | succ n ih =>
      obtain ⟨m, rfl⟩ : ∃ k, m = k + 1 := ⟨m - 1, by omega⟩
      refine .ite .rfl (.bind .rfl fun alloc => .bind .rfl fun size => .ite .rfl ?_)
      exact .bind .rfl fun next => ih (by omega) next

/-- The search from the head of the list on, which is read once and is the same for both
bounds. -/
theorem findPageChunkForAddrWithin_cutOff (hLe : n ≤ m) (h : Nat) :
    CutOff .diverges (findPageChunkForAddrWithin n h) (findPageChunkForAddrWithin m h) :=
  .bind .rfl fun s => findPageChunkForAddrLoop_cutOff h hLe s.pageListHead

/-- The footer is written where the chunk of the block says; only the search for the chunk is
cut off. -/
theorem writeFooterWithin_cutOff (hLe : n ≤ m) (h : Nat) :
    CutOff .diverges (writeFooterWithin n h) (writeFooterWithin m h) :=
  .bind .rfl fun _ => .bind (findPageChunkForAddrWithin_cutOff hLe h) fun _ => .rfl

/-- A split writes the footers of both parts. -/
theorem splitBlockWithin_cutOff (hLe : n ≤ m) (h asize : Nat) :
    CutOff .diverges (splitBlockWithin n h asize) (splitBlockWithin m h asize) := by
  have hFooter := writeFooterWithin_cutOff hLe
  refine .bind .rfl fun size => .ite ?_ (.bind .rfl fun _ => hFooter h)
  refine .bind .rfl fun _ => .bind .rfl fun _ => .bind (hFooter h) fun _ => ?_
  exact .bind .rfl fun _ => .bind .rfl fun _ => .bind (hFooter _) fun _ => .rfl

/-- Coalescing looks for both neighbours and writes one footer, each with a search of its
own. -/
theorem coalesceWithin_cutOff (hLe : n ≤ m) (bp : Nat) :
    CutOff .diverges (coalesceWithin n bp) (coalesceWithin m bp) := by
  have hFind := findPageChunkForAddrWithin_cutOff hLe
  refine .bind (.bind (hFind _) fun _ => .rfl) fun prevH => ?_
  refine .bind (.bind (hFind _) fun _ => .rfl) fun nextH => ?_
  refine .bind .rfl fun prevFree => .bind .rfl fun nextFree => .bind .rfl fun h => ?_
  refine .bind .rfl fun _ => .bind (writeFooterWithin_cutOff hLe h) fun _ => .bind .rfl fun _ => ?_
  exact .bind .rfl fun s => checkAndUnmapFullPagesLoop_cutOff hLe s.pageListHead

/-- All walks of `mm_malloc` cut off at one bound: either none of them gets there, and the call
is that of a larger bound, or the call stops with `diverges`. -/
theorem mmMallocWithin_cutOff (hLe : n ≤ m) (K : Kernel) (size : Nat) :
    CutOff .diverges (mmMallocWithin n K size) (mmMallocWithin m K size) := by
  have hSplit := splitBlockWithin_cutOff hLe
  refine .ite .rfl (.bind (.bind .rfl fun s => findFitLoop_cutOff _ hLe _) fun bp => .ite ?_ ?_)
  · exact .bind .rfl fun _ => .bind (hSplit _ _) fun _ => .rfl
  · refine .bind .rfl fun region => .ite .rfl (.bind .rfl fun _ => .bind .rfl fun _ => ?_)
    refine .bind .rfl fun _ => .bind (writeFooterWithin_cutOff hLe _) fun _ => ?_
    exact .bind (hSplit _ _) fun _ => .rfl

/-- The same of `mm_free`, which searches for the neighbours and then walks over all chunks. -/
theorem mmFreeWithin_cutOff (hLe : n ≤ m) (ptr : Nat) :
    CutOff .diverges (mmFreeWithin n ptr) (mmFreeWithin m ptr) :=
  .ite .rfl (.bind .rfl fun _ => .bind (writeFooterWithin_cutOff hLe _) fun _ =>
    coalesceWithin_cutOff hLe ptr)

/-- Two bounds that both let the call finish make it do the same. -/
theorem cutOff_agree {α : Type} {x : Nat → Code α} {s : Process}
    (hCut : ∀ n m, n ≤ m → CutOff .diverges (x n) (x m))
    (hn : (x n).Meets s (fun _ _ => True) (· ≠ .diverges))
    (hm : (x m).Meets s (fun _ _ => True) (· ≠ .diverges)) : x n s = x m s := by
  rcases Nat.le_total n m with hLe | hLe
  · exact (hCut n m hLe).eq fun hStop => hn.of_error hStop rfl
  · exact ((hCut m n hLe).eq fun hStop => hm.of_error hStop rfl).symm

/-- A call of `mm_malloc` that does not diverge with its walks cut off is the call of the
source: the answer and the memory are the same. -/
theorem mmMallocWithin_agrees {K : Kernel} {size : Nat} {s : Process}
    (hn : (mmMallocWithin n K size).Meets s (fun _ _ => True) (· ≠ .diverges))
    (hm : (mmMalloc K size).Meets s (fun _ _ => True) (· ≠ .diverges)) :
    mmMallocWithin n K size s = mmMalloc K size s :=
  cutOff_agree (x := fun n => mmMallocWithin n K size) (m := walkBound)
    (fun _ _ hLe => mmMallocWithin_cutOff hLe K size) hn hm

/-- A call of `mm_free` that does not diverge with its walks cut off is the call of the
source. -/
theorem mmFreeWithin_agrees {ptr : Nat} {s : Process}
    (hn : (mmFreeWithin n ptr).Meets s (fun _ _ => True) (· ≠ .diverges))
    (hm : (mmFree ptr).Meets s (fun _ _ => True) (· ≠ .diverges)) :
    mmFreeWithin n ptr s = mmFree ptr s :=
  cutOff_agree (x := fun n => mmFreeWithin n ptr) (m := walkBound)
    (fun _ _ hLe => mmFreeWithin_cutOff hLe ptr) hn hm

end CutOff

end Malloc
