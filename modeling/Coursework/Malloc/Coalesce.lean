import Coursework.Malloc.Split

/-! Merging a block that became free with its free neighbours. -/

namespace Malloc

open Tiling Bytes DoublyLinked

section Merge

variable {π : Nat → Nat} {s : Process} {cs : List Chunk} {c : Chunk} {fr : List Loc} {l : Loc}

/-- A neighbour is taken from the free list and two sizes are added. The flag next to the size
field is not written. -/
theorem ListsRep.absorb (h : ListsRep π s cs fr) (hc : c ∈ cs) {a b : Block} (ha : a ∈ c.blocks)
    (hb : b ∈ c.blocks) (hl : l ∈ fr) {n k : Nat} (hn : s.mem.read (π c.id + a.off) 8 = n)
    (hk : s.mem.read (π c.id + b.off) 8 = k) (hSum : n + k < 2 ^ 64) :
    ∃ u m head, removeFreeBlock (l.payload π) s = .ok ((), u) ∧
      addBlockSize (π c.id + a.off) (π c.id + b.off) u =
        .ok ((), { s with mem := m, freeListHead := head }) ∧
      ListsRep π { s with mem := m, freeListHead := head } cs (fr.erase l) ∧
      m.read (π c.id + a.off) 8 = n + k ∧
      AgreeOff (linkWords (fr.map (Loc.payload π)) ∪ span (π c.id + a.off) 8) s.mem m := by
  obtain ⟨m, head, hRun, hRep, hAgree⟩ := h.remove_ok hl
  have haBounds := (h.layout.shaped c hc).bounds ha
  have hbBounds := (h.layout.shaped c hc).bounds hb
  have hHeader : ∀ d ∈ c.blocks, m.read (π c.id + d.off) 8 = s.mem.read (π c.id + d.off) 8 := by
    intro d hd
    refine hAgree.read fun x hLow hHigh => ?_
    exact h.layout.tags_outside_links h.freeLocs hc hd (Or.inl ⟨hLow, by omega⟩)
  have hLoad : blockSize (π c.id + a.off) { s with mem := m, freeListHead := head } =
      .ok (n, { s with mem := m, freeListHead := head }) := by
    rw [hRep.blockSize_ok hc (by omega) (by omega), ← hn, ← hHeader a ha]
  have hMore : blockSize (π c.id + b.off) { s with mem := m, freeListHead := head } =
      .ok (k, { s with mem := m, freeListHead := head }) := by
    rw [hRep.blockSize_ok hc (by omega) (by omega), ← hk, ← hHeader b hb]
  have hWrite : AgreeOff (span (π c.id + a.off) 8) m (m.write (π c.id + a.off) 8 (n + k)) :=
    (AgreeOff.refl _ m).write (Set.Subset.refl _)
  refine ⟨_, m.write (π c.id + a.off) 8 (n + k), head, hRun, ?_, ?_, read_write_word m hSum, ?_⟩
  · rw [addBlockSize, Program.bind_ok hLoad, Program.bind_ok hMore, headerSizeField_eq,
      add64_eq hSum]
    exact store64_ok (hRep.layout.accessible hc (by omega) (by omega) (by omega))
  · refine ⟨hRep.toPageRep.write_run hc (by omega) (by omega) hWrite, ?_, hRep.freeLocs⟩
    refine hRep.freeList.agreeOff hWrite fun x hx hIn => ?_
    rw [mem_span] at hIn
    exact h.layout.tags_outside_links hRep.freeLocs hc ha (Or.inl ⟨by omega, by omega⟩) hx
  · exact (hAgree.mono fun x hx => Or.inl hx).trans (hWrite.mono fun x hx => Or.inr hx)

/-- The sum leaves the flag of the block alone, so a released block stays free while it is
joined. -/
theorem ListsRep.flag_kept (h : ListsRep π s cs fr) (hc : c ∈ cs) {a : Block} (ha : a ∈ c.blocks)
    {m : Bytes} (hAgree : AgreeOff (linkWords (fr.map (Loc.payload π)) ∪ span (π c.id + a.off) 8)
      s.mem m) : m.read (π c.id + a.off + 8) 4 = s.mem.read (π c.id + a.off + 8) 4 := by
  refine hAgree.read fun x hLow hHigh => ?_
  rintro (hLink | hSpan)
  · exact h.layout.tags_outside_links h.freeLocs hc ha (Or.inl ⟨by omega, by omega⟩) hLink
  · rw [mem_span] at hSpan
    omega

/-- What `h && !GET_ALLOC(h)` says about a neighbour: whether there is one and it is free. -/
theorem isFree_ok (h : PageRep π s cs) (hc : c ∈ cs)
    (hTags : ∀ a ∈ c.blocks, Tags s.mem (π c.id + a.off) a) {x : Option Block}
    (hx : ∀ a ∈ x, a ∈ c.blocks) : isFree (headerAt π c x) s = .ok (x.any Segment.free, s) := by
  cases x with
  | none => rfl
  | some a =>
      have ha := hx a rfl
      have hBounds := (h.layout.shaped c hc).bounds ha
      rw [headerAt_some, isFree, if_neg (by omega),
        Program.bind_ok (h.getAlloc_ok hc (by omega) (by omega)), (hTags a ha).alloc,
        Program.pure_apply, Option.any_some]
      cases a.free <;> rfl

variable {b : Block} {left pre post right : List Block} {start stop w : Nat}

/-- The places of some blocks of a chunk. -/
def Chunk.places (c : Chunk) (bs : List Block) : List Loc := bs.map fun a => ⟨c.id, a.off⟩

theorem diff_place (fr : List Loc) (c : Chunk) (a : Block) :
    fr.diff (c.places [a]) = fr.erase ⟨c.id, a.off⟩ := by
  rw [Chunk.places, List.map_singleton, List.diff_cons, List.diff_nil]

/-- After the merge with the block before, the header at the start of the run
holds the size of both. -/
theorem mergePrev_ok (h : ListsRep π s cs fr) (hc : c ∈ cs)
    (hTags : ∀ a ∈ c.blocks, Tags s.mem (π c.id + a.off) a)
    (hRun : Run c.blocks b left pre post right) (hb : b.free = true)
    (hStart : Tiles start b.off pre) (hIn : ∀ a ∈ pre, ⟨c.id, a.off⟩ ∈ fr) :
    ∃ m head,
      mergePrev ((left ++ pre).getLast?.any Segment.free) (headerAt π c (left ++ pre).getLast?)
        (π c.id + b.off) s = .ok (π c.id + start, { s with mem := m, freeListHead := head }) ∧
      ListsRep π { s with mem := m, freeListHead := head } cs (fr.diff (c.places pre)) ∧
      m.read (π c.id + start) 8 = b.stop - start ∧ m.read (π c.id + start + 8) 4 = 0 ∧
      AgreeOff (linkWords (fr.map (Loc.payload π)) ∪ span (π c.id + start) 8) s.mem m := by
  have hInside := h.layout.inside c hc
  have hShaped := h.layout.shaped c hc
  have hbIn : b ∈ c.blocks := by simp [hRun.eq]
  have hbBounds := hShaped.bounds hbIn
  have hbTags := hTags b hbIn
  have hbStop : b.stop = b.off + b.size := rfl
  rcases hRun.pre with rfl | ⟨a, rfl, ha⟩
  · obtain rfl : start = b.off := hStart
    have hOwned : left.getLast?.any Segment.free = false := by
      cases hLast : left.getLast? with
      | none => rfl
      | some d => exact hRun.before d hLast
    rw [List.append_nil, hOwned]
    refine ⟨s.mem, s.freeListHead, rfl, h, ?_, ?_, AgreeOff.refl _ _⟩
    · rw [hbTags.size]
      omega
    · rw [hbTags.alloc, hb]
      rfl
  · obtain ⟨haOff, haPos, haStop⟩ := hStart
    have haStop : a.off + a.size = b.off := haStop
    have haIn : a ∈ c.blocks := by simp [hRun.eq]
    have haTags := hTags a haIn
    have haBounds := hShaped.bounds haIn
    obtain ⟨u, m, head, hRemove, hAdd, hRep, hSize, hAgree⟩ := h.absorb hc haIn hbIn
      (hIn a (by simp)) haTags.size hbTags.size (by omega)
    rw [List.getLast?_concat, Option.any_some, ha, headerAt_some, diff_place]
    subst haOff
    refine ⟨m, head, ?_, hRep, by omega, ?_, hAgree⟩
    · rw [Loc.payload_mk] at hRemove
      rw [mergePrev, if_pos rfl, hdrSize_eq, add64_eq (by omega : π c.id + a.off + 16 < 2 ^ 64),
        Program.bind_ok hRemove, Program.bind_ok hAdd]
      rfl
    · rw [h.flag_kept hc haIn hAgree, haTags.alloc, ha]
      rfl

/-- After the merge with the block after, the header at the start of the run
holds the size of all of it. -/
theorem mergeNext_ok (h : ListsRep π s cs fr) (hc : c ∈ cs)
    (hRun : Run c.blocks b left pre post right) {first : Block} (hFirst : first ∈ c.blocks)
    (hStop : Tiles b.stop stop post) (hIn : ∀ d ∈ post, ⟨c.id, d.off⟩ ∈ fr)
    (hPost : ∀ d ∈ post, s.mem.read (π c.id + d.off) 8 = d.size) (hbStop : first.off < b.stop)
    (hSize : s.mem.read (π c.id + first.off) 8 = b.stop - first.off)
    (hAlloc : s.mem.read (π c.id + first.off + 8) 4 = 0) :
    ∃ m head,
      mergeNext ((post ++ right).head?.any Segment.free) (headerAt π c (post ++ right).head?)
        (π c.id + first.off) s = .ok ((), { s with mem := m, freeListHead := head }) ∧
      ListsRep π { s with mem := m, freeListHead := head } cs (fr.diff (c.places post)) ∧
      m.read (π c.id + first.off) 8 = stop - first.off ∧
      m.read (π c.id + first.off + 8) 4 = 0 ∧
      AgreeOff (linkWords (fr.map (Loc.payload π)) ∪ span (π c.id + first.off) 8) s.mem m := by
  have hInside := h.layout.inside c hc
  have hShaped := h.layout.shaped c hc
  have hFirstBounds := hShaped.bounds hFirst
  rcases hRun.post with rfl | ⟨d, rfl, hd⟩
  · obtain rfl : b.stop = stop := hStop
    have hOwned : right.head?.any Segment.free = false := by
      cases hHead : right.head? with
      | none => rfl
      | some d => exact hRun.after d hHead
    rw [List.nil_append, hOwned]
    exact ⟨s.mem, s.freeListHead, rfl, h, hSize, hAlloc, AgreeOff.refl _ _⟩
  · obtain ⟨hdOff, hdPos, hdStop⟩ := hStop
    have hdStop : d.off + d.size = stop := hdStop
    have hdIn : d ∈ c.blocks := by simp [hRun.eq]
    have hdBounds := hShaped.bounds hdIn
    obtain ⟨u, m, head, hRemove, hAdd, hRep, hTotal, hAgree⟩ := h.absorb hc hFirst hdIn
      (hIn d (by simp)) hSize (hPost d (by simp)) (by omega)
    rw [List.cons_append, List.head?_cons, Option.any_some, hd, headerAt_some, diff_place]
    refine ⟨m, head, ?_, hRep, by omega, (h.flag_kept hc hFirst hAgree).trans hAlloc, hAgree⟩
    rw [Loc.payload_mk] at hRemove
    rw [mergeNext, if_pos rfl, hdrSize_eq, add64_eq (by omega : π c.id + d.off + 16 < 2 ^ 64),
      Program.bind_ok hRemove]
    exact hAdd

/-- The two merges take from the free list what it holds of the run. The released block itself
is not in the list yet. -/
theorem diff_run (hIds : (cs.map Chunk.id).Nodup) (hc : c ∈ cs) (hFree : ∀ l ∈ fr, FreeIn cs l)
    (hNodup : fr.Nodup) (hNew : ⟨c.id, b.off⟩ ∉ fr) (hRun : Run c.blocks b left pre post right)
    (hLeft : Tiles firstOff start left) (hMid : Tiles start stop (pre ++ b :: post))
    (hRight : Tiles stop c.size right) :
    (fr.diff (c.places pre)).diff (c.places post) =
      fr.filter fun x => ¬(x.chunk = c.id ∧ start ≤ x.off ∧ x.off < stop) := by
  rw [← List.diff_append, hNodup.sdiff_eq_filter]
  refine List.filter_congr fun l hl => decide_eq_decide.mpr (not_congr ?_)
  rw [List.mem_append, Chunk.places, Chunk.places, List.mem_map, List.mem_map]
  constructor
  · rintro (⟨a, ha, rfl⟩ | ⟨a, ha, rfl⟩)
    · obtain ⟨hLow, hPos, hHigh⟩ := hMid.bounds (List.mem_append_left (b :: post) ha)
      unfold Segment.stop at hHigh
      exact ⟨rfl, hLow, (by omega : a.off < stop)⟩
    · obtain ⟨hLow, hPos, hHigh⟩ := hMid.bounds
        (List.mem_append_right pre (List.mem_cons_of_mem b ha))
      unfold Segment.stop at hHigh
      exact ⟨rfl, hLow, (by omega : a.off < stop)⟩
  · rintro ⟨hChunk, hLow, hHigh⟩
    obtain ⟨d, hd, hId, e, he, hOff, -⟩ := hFree l hl
    obtain rfl := List.inj_on_of_nodup_map hIds hd hc (hId.trans hChunk)
    have hPlace : (⟨d.id, e.off⟩ : Loc) = l := by rw [hId, hOff]
    rw [hRun.eq] at he
    have heIn := (hLeft.mem_middle hMid hRight he).mpr (by omega)
    rcases List.mem_append.mp heIn with hPre | hRest
    · exact Or.inl ⟨e, hPre, hPlace⟩
    · rcases List.mem_cons.mp hRest with rfl | hPost
      · exact absurd (hPlace ▸ hl) hNew
      · exact Or.inr ⟨e, hPost, hPlace⟩

/-- The links of free blocks outside the run lie outside the run, so joining it leaves them
alone. -/
theorem Layout.links_outside_run {os : OS} (h : Layout π os cs) (hc : c ∈ cs)
    (hFree : ∀ l ∈ fr, FreeIn cs l)
    (hOut : ∀ l ∈ fr, ¬(l.chunk = c.id ∧ start ≤ l.off ∧ l.off < stop))
    {mid : List Block} (hBlocks : c.blocks = left ++ mid ++ right)
    (hLeft : Tiles firstOff start left) (hMid : Tiles start stop mid)
    (hRight : Tiles stop c.size right) {x : Nat} (hx : x ∈ linkWords (fr.map (Loc.payload π))) :
    x ∉ span (π c.id + start) (stop - start) := by
  obtain ⟨y, hy, hxy⟩ := hx
  obtain ⟨l, hl, rfl⟩ := List.mem_map.mp hy
  obtain ⟨d, hd, e, he, hId, hOff, -, hAddr, hLow, heSize, hHigh⟩ := h.payload (hFree l hl)
  have hStart := hLeft.le
  have hMidLe := hMid.le
  have hStop := hRight.le
  rw [firstOff] at hStart
  rw [mem_span] at hxy ⊢
  by_cases hdc : d = c
  · subst hdc
    have hNot := hOut l hl
    rw [hBlocks] at he
    rw [← hOff] at hNot
    simp only [List.append_assoc, List.mem_append] at he
    rcases he with hIn | hIn | hIn
    · have := (hLeft.bounds hIn).2.2
      unfold Segment.stop at this
      omega
    · obtain ⟨heLow, hePos, heHigh⟩ := hMid.bounds hIn
      unfold Segment.stop at heHigh
      exact absurd ⟨hId.symm, heLow, by omega⟩ hNot
    · have := (hRight.bounds hIn).1
      omega
  · have hApart := h.apart d hd c hc hdc
    unfold Apart at hApart
    omega

/-- After both merges the header at the start of the run holds the size of the
run, and its neighbours are no longer in the free list. -/
theorem merges_ok (h : Rep π s cs fr) (hNodup : fr.Nodup) (hc : c ∈ cs)
    (hRun : Run c.blocks b left pre post right) (hb : b.free = true) (hNew : ⟨c.id, b.off⟩ ∉ fr)
    (hLeft : Tiles firstOff start left) (hMid : Tiles start stop (pre ++ b :: post))
    (hRight : Tiles stop c.size right) (hPre : ∀ a ∈ pre, ⟨c.id, a.off⟩ ∈ fr)
    (hPost : ∀ d ∈ post, ⟨c.id, d.off⟩ ∈ fr) :
    ∃ u m head,
      mergePrev ((left ++ pre).getLast?.any Segment.free) (headerAt π c (left ++ pre).getLast?)
        (π c.id + b.off) s = .ok (π c.id + start, u) ∧
      mergeNext ((post ++ right).head?.any Segment.free) (headerAt π c (post ++ right).head?)
        (π c.id + start) u = .ok ((), { s with mem := m, freeListHead := head }) ∧
      ListsRep π { s with mem := m, freeListHead := head } cs
        (fr.filter fun x => ¬(x.chunk = c.id ∧ start ≤ x.off ∧ x.off < stop)) ∧
      m.read (π c.id + start) 8 = stop - start ∧ m.read (π c.id + start + 8) 4 = 0 ∧
      AgreeOff (linkWords (fr.map (Loc.payload π)) ∪ span (π c.id + start) 8) s.mem m := by
  have hTags := h.tags c hc
  have hbIn : b ∈ c.blocks := by simp [hRun.eq]
  have hDiff := diff_run h.layout.ids hc h.freeLocs hNodup hNew hRun hLeft hMid hRight
  have hbStop : b.stop = b.off + b.size := rfl
  obtain ⟨hLow, hPos, -⟩ := hMid.bounds (s := b) (by simp)
  obtain ⟨mid, hStart, hOff, -, hStop⟩ := Tiles.append.mp hMid
  subst hOff
  obtain ⟨first, hFirst, hFirstOff⟩ : ∃ first ∈ c.blocks, first.off = start := by
    rcases hRun.pre with rfl | ⟨a, rfl, -⟩
    · exact ⟨b, hbIn, Eq.symm hStart⟩
    · exact ⟨a, by simp [hRun.eq], hStart.1⟩
  subst hFirstOff
  obtain ⟨m₁, head₁, hMerge₁, hRep₁, hSize₁, hAlloc₁, hAgree₁⟩ :=
    mergePrev_ok h.toListsRep hc hTags hRun hb hStart hPre
  have hPostIn : ∀ d ∈ post, d ∈ c.blocks := by
    intro d hd
    simp [hRun.eq, hd]
  -- The first merge leaves the header of the block after alone.
  have hPost₁ : ∀ d ∈ post, m₁.read (π c.id + d.off) 8 = d.size := by
    intro d hd
    refine Eq.trans (hAgree₁.read fun x hLow hHigh => ?_) (hTags d (hPostIn d hd)).size
    rintro (hLink | hSpan)
    · exact h.layout.tags_outside_links h.freeLocs hc (hPostIn d hd) (Or.inl ⟨hLow, by omega⟩) hLink
    · rw [mem_span] at hSpan
      have := (hStop.bounds hd).1
      have := ((h.layout.shaped c hc).bounds hbIn).2.1
      omega
  have hPostFree : ∀ d ∈ post, ⟨c.id, d.off⟩ ∈ fr.diff (c.places pre) := by
    intro d hd
    refine hNodup.mem_sdiff_iff.mpr ⟨hPost d hd, fun hIn => ?_⟩
    obtain ⟨a, ha, hEq⟩ := List.mem_map.mp hIn
    have hOff : a.off = d.off := congrArg Loc.off hEq
    have haStop := hStart.bounds ha
    have := (hStop.bounds hd).1
    unfold Segment.stop at haStop
    omega
  obtain ⟨m₂, head₂, hMerge₂, hRep₂, hSize₂, hAlloc₂, hAgree₂⟩ :=
    mergeNext_ok hRep₁ hc hRun hFirst hStop hPostFree hPost₁ (by omega) hSize₁ hAlloc₁
  have hSub : linkWords ((fr.diff (c.places pre)).map (Loc.payload π)) ⊆
      linkWords (fr.map (Loc.payload π)) :=
    linkWords_mono (List.map_subset _ (List.diff_subset _ _))
  exact ⟨_, m₂, head₂, hMerge₁, hMerge₂, hDiff ▸ hRep₂, hSize₂, hAlloc₂,
    hAgree₁.trans (hAgree₂.mono (Set.union_subset_union_left _ hSub))⟩

/-- Both neighbours are looked up and inspected before anything is written. What is read is
thus the heap before the release. -/
theorem neighbours_ok (hw : Covers w cs.length) (h : PageRep π s cs) (hc : c ∈ cs)
    (hTags : ∀ a ∈ c.blocks, Tags s.mem (π c.id + a.off) a) {before after : List Block}
    (hBlocks : c.blocks = before ++ b :: after) :
    getPrevBlockWithin w (π c.id + b.off) s = .ok (headerAt π c before.getLast?, s) ∧
      getNextBlockWithin w (π c.id + b.off) s = .ok (headerAt π c after.head?, s) ∧
      isFree (headerAt π c before.getLast?) s = .ok (before.getLast?.any Segment.free, s) ∧
      isFree (headerAt π c after.head?) s = .ok (after.head?.any Segment.free, s) := by
  refine ⟨getPrevBlock_ok hw h hc hTags hBlocks, getNextBlock_ok hw h hc hTags hBlocks,
    isFree_ok h hc hTags fun a ha => ?_, isFree_ok h hc hTags fun a ha => ?_⟩
  · rw [hBlocks]
    exact List.mem_append_left _ (List.mem_of_getLast? ha)
  · rw [hBlocks]
    exact List.mem_append_right _ (List.mem_cons_of_mem b (List.mem_of_head? ha))

/-- The merges and the footer make one free block of the run, which is in no list. This covers
all four cases of free and used neighbours. -/
theorem joinRun_ok (hw : Covers w cs.length) (h : Rep π s cs fr) (hNodup : fr.Nodup) (hc : c ∈ cs)
    (hRun : Run c.blocks b left pre post right) (hb : b.free = true) (hNew : ⟨c.id, b.off⟩ ∉ fr)
    (hLeft : Tiles firstOff start left) (hMid : Tiles start stop (pre ++ b :: post))
    (hRight : Tiles stop c.size right) (hPre : ∀ a ∈ pre, ⟨c.id, a.off⟩ ∈ fr)
    (hPost : ∀ d ∈ post, ⟨c.id, d.off⟩ ∈ fr) {f : List Block → List Block}
    (hf : f c.blocks = left ++ [⟨start, stop - start, none⟩] ++ right) {fr' : List Loc}
    (hFr : (fr.filter fun x => ¬(x.chunk = c.id ∧ start ≤ x.off ∧ x.off < stop)) = fr') :
    ∃ u v m head,
      mergePrev ((left ++ pre).getLast?.any Segment.free) (headerAt π c (left ++ pre).getLast?)
        (π c.id + b.off) s = .ok (π c.id + start, u) ∧
      mergeNext ((post ++ right).head?.any Segment.free) (headerAt π c (post ++ right).head?)
        (π c.id + start) u = .ok ((), v) ∧
      writeFooterWithin w (π c.id + start) v = .ok ((), { s with mem := m, freeListHead := head }) ∧
      Rep π { s with mem := m, freeListHead := head } (updateChunk cs c.id f) fr' ∧
      AgreeOff (linkWords (fr.map (Loc.payload π)) ∪ span (π c.id + start) (stop - start))
        s.mem m := by
  have hInside := h.layout.inside c hc
  have hShaped := h.layout.shaped c hc
  have hbBounds := hShaped.bounds (b := b) (by simp [hRun.eq])
  have hbStop : b.stop = b.off + b.size := rfl
  obtain ⟨hLow, -, hHigh⟩ := hMid.bounds (s := b) (by simp)
  have hStartLe := hLeft.le
  have hStopLe := hRight.le
  rw [firstOff] at hStartLe
  obtain ⟨u, m₁, head, hMerge, hMerge', hRep, hSize, hAlloc, hAgree₁⟩ :=
    merges_ok h hNodup hc hRun hb hNew hLeft hMid hRight hPre hPost
  have hFooter := writeFooter_ok hw hRep.toPageRep hc (by omega) hSize (by omega) (by omega)
  have hFooterAgree : AgreeOff (span (π c.id + start + (stop - start) - 16) 8) m₁
      (m₁.write (π c.id + start + (stop - start) - 16) 8 (stop - start)) :=
    (AgreeOff.refl _ _).write (Set.Subset.refl _)
  have hFooterRead := read_write_word m₁ (a := π c.id + start + (stop - start) - 16)
    (by omega : stop - start < 2 ^ 64)
  generalize m₁.write (π c.id + start + (stop - start) - 16) 8 (stop - start) = m₂
    at hFooter hFooterAgree hFooterRead
  have hSub : span (π c.id + start) 8 ⊆ span (π c.id + start) (stop - start) :=
    span_subset (Nat.le_refl _) (by omega)
  have hFooterSub : span (π c.id + start + (stop - start) - 16) 8 ⊆
      span (π c.id + start) (stop - start) := span_subset (by omega) (by omega)
  have hAgree := (hAgree₁.mono (Set.union_subset_union_right _ hSub)).trans
    (hFooterAgree.mono fun x hx => Or.inr (hFooterSub hx))
  rw [hFr] at hRep
  have hOut : ∀ l ∈ fr', ¬(l.chunk = c.id ∧ start ≤ l.off ∧ l.off < stop) := by
    intro l hl
    rw [← hFr] at hl
    exact of_decide_eq_true (List.mem_filter.mp hl).2
  have hTagsJoined : Tags m₂ (π c.id + start) ⟨start, stop - start, none⟩ := by
    refine ⟨Eq.trans (hFooterAgree.read fun x hx hx' hIn => ?_) hSize,
      Eq.trans (hFooterAgree.read fun x hx hx' hIn => ?_) hAlloc, hFooterRead⟩ <;>
    · rw [mem_span] at hIn
      omega
  have hSizes : (stop - start) % 16 = 0 := by
    refine hMid.size_mod fun a ha => (hShaped.sizes a ?_).1
    rw [hRun.eq]
    exact List.mem_append_left _ (List.mem_append_right _ ha)
  refine ⟨u, _, m₂, head, hMerge, hMerge', hFooter, ?_, hAgree⟩
  refine h.recut hc hRun.eq hf hLeft ⟨rfl, ?_, ?_⟩ hRight ?_ (by simp) hAgree ?_ ?_ ?_
  · show 0 < stop - start
    omega
  · show start + (stop - start) = stop
    omega
  · simp only [List.mem_singleton, forall_eq]
    omega
  · simp only [List.mem_singleton, forall_eq]
    exact hTagsJoined
  · exact hRep.freeList.agreeOff hFooterAgree fun x hx hIn =>
      h.layout.links_outside_run hc hRep.freeLocs hOut hRun.eq hLeft hMid hRight hx (hFooterSub hIn)
  · intro l hl
    refine (hRep.freeLocs l hl).update h.layout.ids hc hRun.eq hf fun hChunk a ha hOff => ?_
    obtain ⟨haLow, haPos, haHigh⟩ := hMid.bounds ha
    unfold Segment.stop at haHigh
    exact hOut l hl ⟨hChunk, by omega, by omega⟩

/-- `coalesce` joins the run around the block, puts the joined block in front
of the free list and then looks for chunks to unmap. -/
theorem coalesce_eq (hw : Covers w cs.length) (h : Rep π s cs fr) (hNodup : fr.Nodup) (hc : c ∈ cs)
    (hRun : Run c.blocks b left pre post right) (hb : b.free = true) (hNew : ⟨c.id, b.off⟩ ∉ fr)
    (hLeft : Tiles firstOff start left) (hMid : Tiles start stop (pre ++ b :: post))
    (hRight : Tiles stop c.size right) (hPre : ∀ a ∈ pre, ⟨c.id, a.off⟩ ∈ fr)
    (hPost : ∀ d ∈ post, ⟨c.id, d.off⟩ ∈ fr) {f : List Block → List Block}
    (hf : f c.blocks = left ++ [⟨start, stop - start, none⟩] ++ right) :
    ∃ m head, coalesceWithin w (π c.id + b.off + 16) s =
        checkAndUnmapFullPagesWithin w { s with mem := m, freeListHead := head } ∧
      Rep π { s with mem := m, freeListHead := head } (updateChunk cs c.id f)
        (⟨c.id, start⟩ :: fr.filter fun x => ¬(x.chunk = c.id ∧ start ≤ x.off ∧ x.off < stop)) ∧
      AgreeOff (linkWords (fr.map (Loc.payload π)) ∪ span (π c.id + start) (stop - start))
        s.mem m := by
  have hInside := h.layout.inside c hc
  have hbBounds := (h.layout.shaped c hc).bounds (b := b) (by simp [hRun.eq])
  obtain ⟨hLow, -, hHigh⟩ := hMid.bounds (s := b) (by simp)
  have hbStop : b.stop = b.off + b.size := rfl
  have hAround : c.blocks = (left ++ pre) ++ b :: (post ++ right) := by rw [hRun.eq]; simp
  obtain ⟨hPrev, hNext, hPrevFree, hNextFree⟩ :=
    neighbours_ok hw h.toPageRep hc (h.tags c hc) hAround
  generalize hFr : (fr.filter fun x => ¬(x.chunk = c.id ∧ start ≤ x.off ∧ x.off < stop)) = fr'
  obtain ⟨u, v, m₁, head₁, hMerge, hMerge', hFooter, hCut, hAgree⟩ :=
    joinRun_ok hw h hNodup hc hRun hb hNew hLeft hMid hRight hPre hPost hf hFr
  have hJoinedIn : FreeIn (updateChunk cs c.id f) ⟨c.id, start⟩ :=
    FreeIn.updated (b := ⟨start, stop - start, none⟩) h.layout.ids hc (by simp [hf]) rfl
  have hJoinedNew : (⟨c.id, start⟩ : Loc) ∉ fr' := by
    rw [← hFr]
    intro hIn
    have hOut := of_decide_eq_true (List.mem_filter.mp hIn).2
    exact hOut ⟨rfl, Nat.le_refl start, (by omega : start < stop)⟩
  obtain ⟨m, hInsert, hFinal, hLinks⟩ := hCut.insert_ok hJoinedIn hJoinedNew
  rw [Loc.payload_mk] at hInsert hFinal
  refine ⟨m, _, ?_, hFinal, hAgree.trans (hLinks.mono ?_)⟩
  · have hStopLe := hRight.le
    rw [coalesceWithin, hdrSize_eq, sub64_eq (by omega : 16 ≤ π c.id + b.off + 16) (by omega),
      Nat.add_sub_cancel, Program.bind_ok hPrev, Program.bind_ok hNext, Program.bind_ok hPrevFree,
      Program.bind_ok hNextFree, Program.bind_ok hMerge, Program.bind_ok hMerge',
      Program.bind_ok hFooter, add64_eq (by omega : π c.id + start + 16 < 2 ^ 64),
      Program.bind_ok hInsert]
  · rw [List.map_cons, Loc.payload_mk]
    refine linkWords_cons_subset (List.map_subset _ ?_) (by omega) (by omega)
    rw [← hFr]
    exact List.filter_subset_self fr

end Merge

end Malloc
