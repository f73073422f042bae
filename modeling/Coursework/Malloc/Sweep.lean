import Coursework.Malloc.Coalesce

/-! Giving the chunks without a block in use back to the operating system. -/

namespace Malloc

open Tiling Bytes DoublyLinked

section Unlink

variable {s : Process} {xs : List Nat} {x : Nat}

/-- A chunk is taken from the page list. The links of the chunk are read again
after the first neighbour has been written, and have not changed. -/
theorem unlinkPageChunk_ok (hList : ListRep s.mem s.pageListHead xs) (hSpaced : Spaced xs)
    (hMapped : NodesMapped s.os xs) (hx : x ∈ xs) :
    unlinkPageChunk x s = .ok ((), { s with
      mem := unlinkMem s.mem x, pageListHead := unlinkHead s.mem s.pageListHead x }) := by
  have hBound : ∀ y ∈ xs, nextChunk y = y + 8 := by
    intro y hy
    have := hSpaced.bound y hy
    rw [nextChunk, add64_eq (by omega)]
  have hPrevIn := (List.mem_cons.mp (hList.prev_mem hx)).resolve_left
  have hNextIn := (List.mem_cons.mp (hList.next_mem hx)).resolve_left
  have hPrevNe := hList.prev_ne hx
  rw [unlinkPageChunk, prevChunk_eq, hBound x hx, Program.bind_ok (load64_ok (hMapped x hx).1)]
  unfold unlinkMem unlinkHead storeUnlessNull
  by_cases hp : s.mem.read x 8 = 0 <;> by_cases hn : s.mem.read (x + 8) 8 = 0
  · simp only [hp, hn, ne_eq, not_true_eq_false, if_false, Program.bind_apply,
      Program.modify_apply, Program.pure_apply, load64_at (hMapped x hx).2]
  · simp only [hp, hn, ne_eq, not_true_eq_false, not_false_eq_true, if_false, if_true,
      Program.bind_apply, Program.modify_apply, prevChunk_eq, load64_at (hMapped x hx).1,
      load64_at (hMapped x hx).2, store64_at (hMapped _ (hNextIn hn)).1]
  · have hKeep : (s.mem.write (s.mem.read x 8 + 8) 8 0).read (x + 8) 8 = 0 := by
      rw [read_write_apart (hSpaced.next_next hx (hPrevIn hp) (Ne.symm hPrevNe)), hn]
    simp only [hp, hn, hKeep, ne_eq, not_true_eq_false, not_false_eq_true, if_false, if_true,
      Program.bind_apply, Program.pure_apply, hBound _ (hPrevIn hp), load64_at (hMapped x hx).2,
      store64_at (hMapped _ (hPrevIn hp)).2]
  · have hKeep : ∀ v, (s.mem.write (s.mem.read x 8 + 8) 8 v).read (x + 8) 8 =
        s.mem.read (x + 8) 8 := fun v =>
      read_write_apart (hSpaced.next_next hx (hPrevIn hp) (Ne.symm hPrevNe))
    have hKeep' : ∀ v, (s.mem.write (s.mem.read x 8 + 8) 8 v).read x 8 = s.mem.read x 8 :=
      fun v => read_write_apart (hSpaced.prev_next hx (hPrevIn hp))
    simp only [hp, hn, hKeep, hKeep', ne_eq, not_false_eq_true, if_true, Program.bind_apply,
      prevChunk_eq, hBound _ (hPrevIn hp), load64_at (hMapped x hx).1, load64_at (hMapped x hx).2,
      store64_at (hMapped _ (hPrevIn hp)).2, store64_at (hMapped _ (hNextIn hn)).1]

end Unlink

section Unmap

variable {π : Nat → Nat} {s : Process} {os : OS} {cs : List Chunk} {c d : Chunk} {fr : List Loc}

theorem Layout.nodup (h : Layout π os cs) : cs.Nodup := h.ids.of_map

theorem Layout.mem_erase (h : Layout π os cs) : d ∈ cs.erase c ↔ d ≠ c ∧ d ∈ cs :=
  h.nodup.mem_erase_iff

/-- Unmapping a chunk leaves the other chunks mapped. The call is for the pages of this chunk,
and chunks do not share pages. -/
theorem Layout.erase (h : Layout π os cs) (hc : c ∈ cs) :
    Layout π (os.setRange (π c.id) c.size false) (cs.erase c) where
  shaped d hd := h.shaped d (List.mem_of_mem_erase hd)
  ids := h.ids.sublist (List.erase_sublist.map _)
  aligned d hd := h.aligned d (List.mem_of_mem_erase hd)
  nonzero d hd := h.nonzero d (List.mem_of_mem_erase hd)
  inside d hd := h.inside d (List.mem_of_mem_erase hd)
  apart d hd e he := h.apart d (List.mem_of_mem_erase hd) e (List.mem_of_mem_erase he)
  mapped d hd x hLow hHigh := by
    obtain ⟨hNe, hd⟩ := h.mem_erase.mp hd
    have hApart := h.apart d hd c hc hNe
    unfold Apart at hApart
    rw [OS.mapped_setRange (h.aligned c hc) (h.shaped c hc).paged, if_neg (by omega)]
    exact h.mapped d hd x hLow hHigh

/-- Taking a chunk out of the list takes its base out of the page list. -/
theorem Layout.map_base_erase (h : Layout π os cs) (hc : c ∈ cs) :
    (cs.erase c).map (fun d => π d.id) = (cs.map fun d => π d.id).erase (π c.id) :=
  List.map_erase_of_unique fun _ hd hBase => h.base_inj hd hc hBase

/-- The pages of the other chunks are the pages that are not in the chunk, so the table loses
exactly what is unmapped. -/
theorem Layout.pagesOf_erase (h : Layout π os cs) (hc : c ∈ cs) (page : PagePtr) :
    PagesOf π (cs.erase c) page ↔
      PagesOf π cs page ∧ ∀ x, π c.id ≤ x → x < π c.id + c.size → page ≠ pageOf x := by
  constructor
  · rintro ⟨d, hd, x, hLow, hHigh, rfl⟩
    obtain ⟨hNe, hd⟩ := h.mem_erase.mp hd
    refine ⟨⟨d, hd, x, hLow, hHigh, rfl⟩, fun y hyLow hyHigh hEq => ?_⟩
    -- Both regions consist of whole pages, so a common page is a common address.
    have hSame := (pageOf_eq_iff x y).mp hEq
    have hApart := h.apart d hd c hc hNe
    have hdAligned := h.aligned d hd
    have hcAligned := h.aligned c hc
    have hdPaged := (h.shaped d hd).paged
    have hcPaged := (h.shaped c hc).paged
    unfold Apart at hApart
    rw [apageSize_eq] at hSame hdAligned hcAligned
    omega
  · rintro ⟨⟨d, hd, x, hLow, hHigh, rfl⟩, hOut⟩
    have hNe : d ≠ c := by
      rintro rfl
      exact hOut x hLow hHigh rfl
    exact ⟨d, h.mem_erase.mpr ⟨hNe, hd⟩, x, hLow, hHigh, rfl⟩

/-- The free blocks outside a vacant chunk. Those in it leave the heap with the chunk. -/
theorem freeIn_erase (h : Layout π os cs) (hWhole : c.blocks = [wholeBlock c.size]) {l : Loc}
    (hl : FreeIn cs l) (hNe : l ≠ ⟨c.id, firstOff⟩) : FreeIn (cs.erase c) l := by
  obtain ⟨d, hd, hId, b, hb, hOff, hFree⟩ := hl
  refine ⟨d, h.mem_erase.mpr ⟨?_, hd⟩, hId, b, hb, hOff, hFree⟩
  rintro rfl
  rw [hWhole, List.mem_singleton] at hb
  subst hb
  have hOff : firstOff = l.off := hOff
  exact hNe (by rw [hId, hOff])

/-- Unlinking a chunk writes only page links of the other chunks. Free list, tags and payloads
stay as they are. -/
theorem Rep.erase {t : Process} (h : Rep π s cs fr) (hc : c ∈ cs)
    (hWhole : c.blocks = [wholeBlock c.size]) (hNot : ⟨c.id, firstOff⟩ ∉ fr)
    (hAgree : AgreeOff (linkWords ((cs.erase c).map fun d => π d.id)) s.mem t.mem)
    (hList : ListRep t.mem t.pageListHead ((cs.erase c).map fun d => π d.id))
    (hHead : t.freeListHead = s.freeListHead) (hOs : t.os = s.os.setRange (π c.id) c.size false)
    (hLib : ∃ known, MemLibRep t known ∧ ∀ page, page ∈ known ↔ PagesOf π (cs.erase c) page) :
    Rep π t (cs.erase c) fr := by
  have hWords := pageLinks_subset π (List.erase_subset (a := c) (l := cs))
  have hField : ∀ d ∈ cs, ∀ a, π d.id + 16 ≤ a → a + 8 ≤ π d.id + 32 →
      t.mem.read a 8 = s.mem.read a 8 := by
    intro d hd a hLow hHigh
    exact hAgree.read fun x hxLow hxHigh =>
      h.layout.fields_outside_links List.erase_subset hd (by omega) (by omega)
  refine ⟨⟨⟨hOs ▸ h.layout.erase hc, ?_, ?_, hList⟩, ?_, ?_⟩, ?_, hLib⟩
  · intro d hd
    have hd := List.mem_of_mem_erase hd
    rw [hField d hd _ (by omega) (by omega), h.pageSize d hd]
  · intro d hd
    have hd := List.mem_of_mem_erase hd
    rw [hField d hd _ (by omega) (by omega), h.pageEnd d hd]
  · rw [hHead]
    exact h.freeList.agreeOff hAgree fun x hx hIn =>
      h.layout.headers_outside_links h.freeLocs (hWords hIn) hx
  · intro l hl
    apply freeIn_erase h.layout hWhole (h.freeLocs l hl)
    rintro rfl
    exact hNot hl
  · intro d hd b hb
    have hd := List.mem_of_mem_erase hd
    have hBounds := (h.layout.shaped d hd).bounds hb
    refine (h.tags d hd b hb).congr fun x hx => hAgree x fun hIn => ?_
    obtain ⟨e, he, hxe⟩ := hWords hIn
    have hApart := h.layout.header_apart hd he hb
    simp only [Set.mem_union, mem_span] at hx hxe
    unfold Apart at hApart
    omega

/-- A vacant chunk leaves both lists and is unmapped. The call of `mem_unmap`
comes last. -/
theorem unmapFullPage_eq (h : Rep π s cs fr) (hNodup : fr.Nodup) (hc : c ∈ cs)
    (hWhole : c.blocks = [wholeBlock c.size]) (hl : ⟨c.id, firstOff⟩ ∈ fr) :
    ∃ u, unmapFullPage (π c.id) (π c.id + 32) c.size s = memUnmap (π c.id) c.size u ∧
      (memUnmap (π c.id) c.size).Returns u fun _ t =>
        Rep π t (cs.erase c) (fr.erase ⟨c.id, firstOff⟩) ∧
        t.calls = s.calls ++ [.unmap (π c.id) c.size] ∧
        t.os = s.os.setRange (π c.id) c.size false ∧
        AgreeOff (linkWords (fr.map (Loc.payload π)) ∪ headerBytes π cs) s.mem t.mem := by
  have hInside := h.layout.inside c hc
  have hShaped := h.layout.shaped c hc
  have hSize := hShaped.size_bounds
  obtain ⟨m₁, head, hRemove, hRep, hAgree₁⟩ := h.remove_ok hl
  have hBase : π c.id ∈ cs.map fun d => π d.id := List.mem_map_of_mem hc
  have hSpaced := h.layout.spaced_chunks
  have hUnlink := unlinkPageChunk_ok hRep.pageList hSpaced h.layout.nodesMapped_chunks hBase
  have hList := hRep.pageList.unlink hSpaced hBase
  have hAgree₂ := hRep.pageList.unlink_agreeOff hBase
  rw [← h.layout.map_base_erase hc] at hList hAgree₂
  simp only at hUnlink hList hAgree₂
  generalize unlinkMem m₁ (π c.id) = m₂ at hUnlink hList hAgree₂
  generalize unlinkHead m₁ s.pageListHead (π c.id) = pages at hUnlink hList
  obtain ⟨known, hLib, hKnown⟩ := hRep.lib
  have hLib₂ : MemLibRep { s with mem := m₂, freeListHead := head, pageListHead := pages } known :=
    ⟨hLib.table, hLib.count, hLib.backed⟩
  have hUnmap := memUnmap_returns hLib₂ (h.layout.aligned c hc) hShaped.paged (by omega)
    (Nat.le_of_lt hInside)
    fun x hLow hHigh => (hKnown _).mpr ⟨c, hc, x, hLow, hHigh, rfl⟩
  have hWords := pageLinks_subset π (List.erase_subset (a := c) (l := cs))
  rw [Loc.payload_mk, firstOff] at hRemove
  refine ⟨{ s with mem := m₂, freeListHead := head, pageListHead := pages }, ?_, hUnmap.meets ?_⟩
  · rw [unmapFullPage, hdrSize_eq, add64_eq (by omega : π c.id + 32 + 16 < 2 ^ 64),
      Program.bind_ok hRemove, Program.bind_ok hUnlink]
  rintro - t ⟨maps, mapsHead, count, known', rfl, hLib', hKnown'⟩
  refine ⟨?_, rfl, rfl, (hAgree₁.mono fun x hx => Or.inl hx).trans
    (hAgree₂.mono fun x hx => Or.inr (hWords hx))⟩
  refine hRep.erase hc hWhole (fun hIn => hNodup.not_mem_erase hIn) hAgree₂ hList rfl rfl
    ⟨known', hLib', fun page => (hKnown' page).trans ?_⟩
  rw [h.layout.pagesOf_erase hc, hKnown]

end Unmap

section Sweep

variable {π : Nat → Nat} {s t u : Process} {cs gone : List Chunk} {c : Chunk} {fr : List Loc}

/-- What giving the chunks `gone` back does besides changing the heap. -/
structure Swept (π : Nat → Nat) (s t : Process) (cs : List Chunk) (fr : List Loc)
    (gone : List Chunk) : Prop where
  calls : t.calls = s.calls ++ gone.map fun c => .unmap (π c.id) c.size
  frame : AgreeOff (linkWords (fr.map (Loc.payload π)) ∪ headerBytes π cs) s.mem t.mem
  mapped : ∀ x, t.os.mapped (x / apageSize) = (s.os.mapped (x / apageSize) &&
    !gone.any fun c => π c.id ≤ x && x < π c.id + c.size)
  mmaps : t.os.mmaps = s.os.mmaps

/-- The test on the first block of a chunk finds out whether the chunk is vacant. A first block
that is free and as long as the chunk leaves room for no other. -/
theorem firstBlock_ok (h : Rep π s cs fr) (hc : c ∈ cs) (hCoalesced : Coalesced c.blocks) :
    ∃ alloc size, getAlloc (π c.id + 32) s = .ok (alloc, s) ∧
      blockSize (π c.id + 32) s = .ok (size, s) ∧
      ((alloc = 0 ∧ size = c.size - 32) ↔ vacant c = true) := by
  have hShaped := h.layout.shaped c hc
  have hSize := hShaped.size_bounds
  obtain ⟨b, rest, hBlocks⟩ := List.exists_cons_of_ne_nil hShaped.nonempty
  have hTags := h.tags c hc b (by simp [hBlocks])
  have hTiled := hShaped.tiled
  rw [hBlocks] at hTiled
  have hOff : b.off = 32 := hTiled.1
  rw [hOff] at hTags
  refine ⟨_, _, h.getAlloc_ok hc (by omega) (by omega), h.blockSize_ok hc (by omega) (by omega), ?_⟩
  rw [hTags.alloc, hTags.size]
  constructor
  · rintro ⟨hFlag, hWhole⟩
    have hFree : b.free = true := by
      by_contra hUsed
      simp [hUsed] at hFlag
    have hStop : b.stop = c.size := by
      unfold Segment.stop
      omega
    have hRest := hTiled.2.2
    rw [hStop] at hRest
    rw [vacant, hBlocks, hRest.nil_of_eq, used_cons_free [] hFree]
    rfl
  · intro hVacant
    have hWhole := blocks_of_vacant hShaped hCoalesced hVacant
    rw [hBlocks, List.cons.injEq] at hWhole
    rw [hWhole.1]
    exact ⟨rfl, rfl⟩

theorem Swept.refl (π : Nat → Nat) (s : Process) (cs : List Chunk) (fr : List Loc) :
    Swept π s s cs fr [] := by
  refine ⟨by simp, AgreeOff.refl _ _, fun x => by simp, rfl⟩

theorem headerBytes_mono {ds : List Chunk} (h : ds ⊆ cs) : headerBytes π ds ⊆ headerBytes π cs :=
  fun _ ⟨d, hd, ha⟩ => ⟨d, h hd, ha⟩

/-- One chunk is given back, and then others. This is the step of the induction over the
walk. -/
theorem Swept.cons (h : Layout π s.os cs) (hc : c ∈ cs) {fr' : List Loc} {ds : List Chunk}
    (hCalls : u.calls = s.calls ++ [.unmap (π c.id) c.size])
    (hOs : u.os = s.os.setRange (π c.id) c.size false)
    (hAgree : AgreeOff (linkWords (fr.map (Loc.payload π)) ∪ headerBytes π cs) s.mem u.mem)
    (hRest : Swept π u t ds fr' gone) (hFree : fr' ⊆ fr) (hSub : ds ⊆ cs) :
    Swept π s t cs fr (c :: gone) where
  calls := by rw [hRest.calls, hCalls, List.map_cons, List.append_assoc, List.singleton_append]
  frame := by
    refine hAgree.trans (hRest.frame.mono (Set.union_subset_union ?_ (headerBytes_mono hSub)))
    exact linkWords_mono (List.map_subset _ hFree)
  mapped x := by
    rw [hRest.mapped, hOs, OS.mapped_setRange (h.aligned c hc) (h.shaped c hc).paged, List.any_cons]
    by_cases hIn : π c.id ≤ x ∧ x < π c.id + c.size
    · simp [hIn]
    · rw [if_neg hIn]
      simp only [Bool.not_or]
      have : (decide (π c.id ≤ x) && decide (x < π c.id + c.size)) = false := by simpa using hIn
      rw [this, Bool.not_false, Bool.true_and]
  mmaps := by rw [hRest.mmaps, hOs]; rfl

/-- A vacant chunk holds one free block, so dropping that block drops those in
the chunk. -/
theorem filter_erase_whole (h : Layout π s.os cs) (hFree : ∀ l ∈ fr, FreeIn cs l)
    (hNodup : fr.Nodup) (hc : c ∈ cs) (hWhole : c.blocks = [wholeBlock c.size]) :
    (fr.erase ⟨c.id, firstOff⟩).filter (fun l => gone.all fun d => d.id ≠ l.chunk) =
      fr.filter fun l => (c :: gone).all fun d => d.id ≠ l.chunk := by
  rw [hNodup.erase_eq_filter, List.filter_filter]
  refine List.filter_congr fun l hl => ?_
  have hPlace : (l != ⟨c.id, firstOff⟩) = decide (c.id ≠ l.chunk) := by
    rw [Bool.eq_iff_iff, bne_iff_ne, decide_eq_true_eq]
    refine not_congr ⟨fun hEq => by rw [hEq], fun hEq => ?_⟩
    obtain ⟨d, hd, hId, b, hb, hOff, -⟩ := hFree l hl
    obtain rfl := h.eq_of_id hd hc (hId.trans hEq.symm)
    rw [hWhole, List.mem_singleton] at hb
    subst hb
    have hOff : firstOff = l.off := hOff
    rw [hId, hOff]
  rw [hPlace, List.all_cons, Bool.and_comm]

/-- One step of the walk over the page list, with `rest` still to be visited.
The successor is read before a chunk is unmapped. -/
theorem checkAndUnmapFullPagesLoop_cons {before rest : List Chunk}
    (h : Rep π s (before ++ c :: rest) fr) (hCoalesced : Coalesced c.blocks) (steps : Nat) :
    checkAndUnmapFullPagesLoop (steps + 1) (π c.id) s =
      (if vacant c then unmapFullPage (π c.id) (π c.id + 32) c.size >>= fun _ =>
          checkAndUnmapFullPagesLoop steps ((rest.map fun c => π c.id).headD 0)
        else checkAndUnmapFullPagesLoop steps ((rest.map fun c => π c.id).headD 0)) s := by
  have hc : c ∈ before ++ c :: rest := by simp
  have hInside := h.layout.inside c hc
  have hSize := (h.layout.shaped c hc).size_bounds
  have hZero : π c.id ≠ 0 := Nat.ne_of_gt (h.layout.nonzero c hc)
  have hNext : load64 (nextChunk (π c.id)) s = .ok ((rest.map fun c => π c.id).headD 0, s) := by
    have hList := h.pageList
    rw [List.map_append, List.map_cons] at hList
    rw [h.load_next hc, memNext, if_neg hZero, hList.next_eq]
  have hPageSize : load64 (pageSizeField (π c.id)) s = .ok (c.size, s) := by
    rw [pageSizeField, add64_eq (by omega),
      load64_ok (h.layout.accessible hc (by omega) (by omega) (by omega)), h.pageSize c hc]
  obtain ⟨alloc, size, hAlloc, hBlock, hTest⟩ := firstBlock_ok h hc hCoalesced
  rw [checkAndUnmapFullPagesLoop, if_neg hZero]
  simp only [pageHdrSize_eq, add64_eq (by omega : π c.id + 32 < 2 ^ 64)]
  rw [Program.bind_ok hNext, Program.bind_ok hPageSize, Program.bind_ok hAlloc,
    Program.bind_ok hBlock, sub64_eq (by omega : 32 ≤ c.size) (by omega)]
  cases hVacant : vacant c with
  | true => rw [if_pos (hTest.mpr hVacant), if_pos rfl]
  | false =>
      rw [if_neg fun hBoth => by simp [hTest.mp hBoth] at hVacant, if_neg Bool.false_ne_true]

/-- The walk goes past chunks that are in use, and changes nothing there. -/
theorem checkAndUnmapFullPagesLoop_skip (before todo : List Chunk) {rest : List Chunk}
    (h : Rep π s (before ++ todo ++ rest) fr) (hCoalesced : ∀ c ∈ todo, Coalesced c.blocks)
    (hInUse : ∀ c ∈ todo, vacant c = false) (steps : Nat) :
    checkAndUnmapFullPagesLoop (todo.length + steps)
        (((todo ++ rest).map fun c => π c.id).headD 0) s =
      checkAndUnmapFullPagesLoop steps ((rest.map fun c => π c.id).headD 0) s := by
  induction todo generalizing before with
  | nil => rw [List.length_nil, Nat.zero_add, List.nil_append]
  | cons c todo ih =>
      have hSteps : (c :: todo).length + steps = todo.length + steps + 1 := by
        rw [List.length_cons]
        omega
      have hStep : Rep π s (before ++ c :: (todo ++ rest)) fr := by simpa using h
      have hNext : Rep π s (before ++ [c] ++ todo ++ rest) fr := by simpa using h
      rw [hSteps, List.cons_append, List.map_cons, List.headD_cons,
        checkAndUnmapFullPagesLoop_cons hStep (hCoalesced c (by simp)),
        if_neg (by simp [hInUse c (by simp)])]
      exact ih (before ++ [c]) hNext (fun d hd => hCoalesced d (by simp [hd])) fun d hd =>
        hInUse d (by simp [hd])

/-- The walk over the page list drops the vacant chunks among those that it
has not visited yet. -/
theorem checkAndUnmapFullPagesLoop_returns (before todo : List Chunk)
    (h : Rep π s (before ++ todo) fr) (hNodup : fr.Nodup)
    (hCoalesced : ∀ c ∈ todo, Coalesced c.blocks)
    (hFree : ∀ c ∈ todo, vacant c = true → ⟨c.id, firstOff⟩ ∈ fr) {steps : Nat}
    (hSteps : todo.length < steps) :
    (checkAndUnmapFullPagesLoop steps ((todo.map fun c => π c.id).headD 0)).Returns s fun _ t =>
      Rep π t (before ++ todo.filter fun c => !vacant c)
        (fr.filter fun l => (todo.filter vacant).all fun c => c.id ≠ l.chunk) ∧
      Swept π s t (before ++ todo) fr (todo.filter vacant) := by
  induction todo generalizing s before fr steps with
  | nil =>
      obtain ⟨steps, rfl⟩ : ∃ n, steps = n + 1 := ⟨steps - 1, by simp at hSteps; omega⟩
      refine ⟨?_, Swept.refl π s _ fr⟩
      simpa using h
  | cons c rest ih =>
      obtain ⟨steps, rfl⟩ : ∃ n, steps = n + 1 := ⟨steps - 1, by simp at hSteps; omega⟩
      have hc : c ∈ before ++ c :: rest := by simp
      have hShaped := h.layout.shaped c hc
      rw [List.map_cons, List.headD_cons, Program.Returns,
        Program.meets_congr (checkAndUnmapFullPagesLoop_cons h (hCoalesced c (by simp)) steps)]
      cases hVacant : vacant c with
      | true =>
          have hWhole := blocks_of_vacant hShaped (hCoalesced c (by simp)) hVacant
          have hErase : (before ++ c :: rest).erase c = before ++ rest := by
            have hNot := (List.nodup_append.mp h.layout.nodup).2.2
            rw [List.erase_append_right _ fun hIn => hNot c hIn c (by simp) rfl,
              List.erase_cons_head]
          obtain ⟨u, hUnmap, hReturns⟩ :=
            unmapFullPage_eq h hNodup hc hWhole (hFree c (by simp) hVacant)
          rw [if_pos rfl, List.filter_cons_of_neg (by simp [hVacant]),
            List.filter_cons_of_pos hVacant]
          rw [Program.meets_bind, Program.meets_congr hUnmap]
          apply hReturns.meets
          rintro - u ⟨hRep, hCalls, hOs, hAgree⟩
          rw [hErase] at hRep
          have hFreeRest : ∀ d ∈ rest, vacant d = true →
              ⟨d.id, firstOff⟩ ∈ fr.erase ⟨c.id, firstOff⟩ := by
            intro d hd hdVacant
            refine hNodup.mem_erase_iff.mpr ⟨fun hEq => ?_, hFree d (by simp [hd]) hdVacant⟩
            obtain rfl := h.layout.eq_of_id (by simp [hd]) hc (congrArg Loc.chunk hEq)
            have hNot := (List.nodup_cons.mp (List.nodup_append.mp h.layout.nodup).2.1).1
            exact hNot hd
          refine (ih before hRep (hNodup.erase _) (fun d hd => hCoalesced d (by simp [hd]))
            hFreeRest (by simp at hSteps; omega)).meets ?_
          rintro - t ⟨hFinal, hSwept⟩
          rw [filter_erase_whole h.layout h.freeLocs hNodup hc hWhole] at hFinal
          refine ⟨hFinal, hSwept.cons h.layout hc hCalls hOs hAgree List.erase_subset ?_⟩
          exact hErase ▸ List.erase_subset
      | false =>
          rw [if_neg Bool.false_ne_true, List.filter_cons_of_pos (by simp [hVacant]),
            List.filter_cons_of_neg (by simp [hVacant])]
          rw [List.append_cons before c rest] at h ⊢
          rw [List.append_cons before c (rest.filter _)]
          exact ih (before ++ [c]) h hNodup (fun d hd => hCoalesced d (by simp [hd]))
            (fun d hd => hFree d (by simp [hd])) (by simp at hSteps; omega)

/-- `check_and_unmap_full_pages` gives exactly the vacant chunks back, in the order of the page
list, and ends. -/
theorem checkAndUnmapFullPages_returns {H : Heap} {w : Nat} (hw : Covers w (H.chunks.length + 1))
    (h : Rep π s H.chunks H.free) (hTidy : H.Tidy) :
    (checkAndUnmapFullPagesWithin w).Returns s fun _ t =>
      Rep π t H.sweep.chunks H.sweep.free ∧ Swept π s t H.chunks H.free H.swept := by
  have hHead : s.pageListHead = (H.chunks.map fun c => π c.id).headD 0 := h.pageList.head_eq
  have hLength := h.pageList.length_lt h.layout.spaced_chunks
  rw [List.length_map] at hLength
  have hFree : ∀ c ∈ H.chunks, vacant c = true → ⟨c.id, firstOff⟩ ∈ H.free := by
    intro c hc hVacant
    have hWhole := blocks_of_vacant (hTidy.shaped c hc) (hTidy.coalesced c hc) hVacant
    exact (hTidy.freeExact _).mpr ⟨c, hc, rfl, wholeBlock c.size, by simp [hWhole], rfl, rfl⟩
  have hLoop := checkAndUnmapFullPagesLoop_returns [] H.chunks h hTidy.freeNodup hTidy.coalesced
    hFree (hw.le hLength)
  rw [← hHead] at hLoop
  unfold checkAndUnmapFullPagesWithin Program.Returns
  rw [Program.meets_bind, Program.meets_read]
  exact hLoop

end Sweep

end Malloc
