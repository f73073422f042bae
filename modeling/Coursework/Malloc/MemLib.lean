import Coursework.Malloc.PageMap

/-! `memlib.c`: the bridge from the allocator to `mmap` and `munmap`, which
keeps count of the mapped pages. -/

namespace Malloc

open Program (read modify stop)

/-- The values of `i` in `for (i = 0; i < sz; i += APAGE_SIZE)`. -/
def pageOffsets (sz : Nat) : List Nat :=
  (List.range ((sz + apageSize - 1) / apageSize)).map (· * apageSize)

/-- The callback of `mem_reset`, named `unmap` in the source. -/
def unmap (p : Nat) : Code Unit := do
  let done ← munmap p apageSize
  if done = false then stop .munmapFailed

def memReset : Code Unit := do
  pagemapForEach unmap
  modify fun s => { s with pageCount := 0, activityCounter := 0 }

def memPagesize : Nat := apageSize

/-- `APAGE_SIZE * page_count` is a product of two `int`s, which is then
converted to `size_t`. -/
def memHeapsize : Code Nat := do
  let s ← read
  pure ((BitVec.ofNat 32 apageSize * s.pageCount).signExtend 64).toNat

/-- The loop of `mem_map` over the pages of the new region. -/
def memMapPages (p : Nat) : List Nat → Code Unit
  | [] => pure ()
  | i :: rest => do
      pagemapModify (add64 p i) true
      modify fun s => { s with pageCount := s.pageCount + 1 }
      memMapPages p rest

/-- The loop of `mem_unmap` over the pages of the region. -/
def memUnmapPages (p : Nat) : List Nat → Code Unit
  | [] => pure ()
  | i :: rest => do
      let mapped ← pagemapIsMapped (add64 p i)
      if mapped = false then stop .memUnmapPage
      pagemapModify (add64 p i) false
      modify fun s => { s with pageCount := s.pageCount - 1 }
      memUnmapPages p rest

/-- Now and then `mem_map` maps a page that nobody uses, so that its results
are not always sequential. -/
def countActivity (K : Kernel) : Code Unit := do
  modify fun s => { s with activityCounter := s.activityCounter + 1 }
  let s ← read
  if s.activityCounter &&& (s.activityCounter - 1) = 0 then do
    let _ ← mmap K apageSize
    pure ()

def memMap (K : Kernel) (sz : Nat) : Code Nat := do
  if sz &&& (apageSize - 1) ≠ 0 then stop .memMapSize
  countActivity K
  let region ← mmap K sz
  match region with
  | none => stop .mmapFailed
  | some p => do
      memMapPages p (pageOffsets sz)
      modify fun s => { s with calls := s.calls ++ [.map p sz] }
      pure p

def memUnmap (p sz : Nat) : Code Unit := do
  if p &&& (apageSize - 1) ≠ 0 then stop .memUnmapAddr
  if sz &&& (apageSize - 1) ≠ 0 then stop .memUnmapSize
  memUnmapPages p (pageOffsets sz)
  let done ← munmap p sz
  if done = false then stop .munmapFailed
  modify fun s => { s with calls := s.calls ++ [.unmap p sz] }

/-- `pagemap.c` knows exactly `pages`, each of which is mapped, and
`page_count` is their number as an `int`. -/
structure MemLibRep (s : Process) (pages : List PagePtr) : Prop where
  table : PageMapRep s.pageMaps1 s.allMappedPages pages
  count : s.pageCount = BitVec.ofNat 32 pages.length
  backed : ∀ p, pageOf p ∈ pages → s.os.mapped (p / apageSize) = true

/-- The loops of `mem_map` and `mem_unmap` go over the offsets of the pages. -/
theorem mem_pageOffsets {sz i : Nat} (hSize : sz % apageSize = 0) :
    i ∈ pageOffsets sz ↔ i < sz ∧ i % apageSize = 0 := by
  rw [apageSize_eq] at *
  simp only [pageOffsets, List.mem_map, List.mem_range, apageSize_eq]
  constructor
  · rintro ⟨k, hk, rfl⟩
    omega
  · intro h
    exact ⟨i / 4096, by omega, by omega⟩

theorem nodup_pageOffsets (sz : Nat) : (pageOffsets sz).Nodup := by
  refine List.nodup_range.map fun a b h => ?_
  exact Nat.eq_of_mul_eq_mul_right (by decide : 0 < apageSize) h

/-- The mask of the size checks takes what is over the last whole page. -/
theorem land_pageMask (x : Nat) : x &&& (apageSize - 1) = x % apageSize :=
  Nat.and_two_pow_sub_one_eq_mod x 12

section Loops

variable {s : Process} {pages : List PagePtr}

/-- Different pages of a region have different entries. The three indices are taken from the
address, so this is about their bits. -/
theorem offset_eq {p i j : Nat} (hi : (p + i) % apageSize = 0) (hj : (p + j) % apageSize = 0)
    (hSame : pageOf (p + j) = pageOf (p + i)) : j = i := by
  rw [pageOf_eq_iff] at hSame
  rw [apageSize_eq] at hSame hi hj
  omega

/-- Registering the pages of a new region, none of which was registered before. They come to
the front of the list, the last page first. -/
theorem memMapPages_ok (p : Nat) (is : List Nat) (h : MemLibRep s pages) (hPos : 0 < p)
    (hPage : ∀ i ∈ is, p + i < 2 ^ 64 ∧ (p + i) % apageSize = 0 ∧
      s.os.mapped ((p + i) / apageSize) = true)
    (hNodup : is.Nodup) (hNew : ∀ i ∈ is, pageOf (p + i) ∉ pages) :
    ∃ maps head count pages', memMapPages p is s =
        .ok ((), { s with pageMaps1 := maps, allMappedPages := head, pageCount := count }) ∧
      MemLibRep { s with pageMaps1 := maps, allMappedPages := head, pageCount := count } pages' ∧
      ∀ page, page ∈ pages' ↔ page ∈ pages ∨ ∃ i ∈ is, page = pageOf (p + i) := by
  induction is generalizing s pages with
  | nil => exact ⟨_, _, _, pages, rfl, h, fun page => by simp⟩
  | cons i is ih =>
      obtain ⟨hFresh, hNodup⟩ := List.nodup_cons.mp hNodup
      obtain ⟨hBound, hAligned, hMapped⟩ := hPage i (by simp)
      obtain ⟨maps, head, hRun, hTable⟩ :=
        pagemapModify_map h.table hAligned (by omega) hBound (hNew i (by simp))
      have hStep : MemLibRep { s with
          pageMaps1 := maps, allMappedPages := head, pageCount := s.pageCount + 1 }
          (pageOf (p + i) :: pages) := by
        refine ⟨hTable, ?_, ?_⟩
        · simp [h.count, BitVec.ofNat_add]
        · intro q hq
          rcases List.mem_cons.mp hq with hEq | hOld
          · rw [(pageOf_eq_iff q (p + i)).mp hEq]
            exact hMapped
          · exact h.backed q hOld
      have hRest : ∀ j ∈ is, pageOf (p + j) ∉ pageOf (p + i) :: pages := by
        intro j hj hMem
        rcases List.mem_cons.mp hMem with hEq | hOld
        · obtain rfl := offset_eq hAligned (hPage j (by simp [hj])).2.1 hEq
          exact hFresh hj
        · exact hNew j (by simp [hj]) hOld
      obtain ⟨maps', head', count', pages', hRun', hRep', hMem'⟩ :=
        ih hStep (fun j hj => hPage j (by simp [hj])) hNodup hRest
      refine ⟨maps', head', count', pages', ?_, hRep', fun page => ?_⟩
      · rw [memMapPages, add64_eq hBound, Program.bind_ok hRun]
        exact hRun'
      · rw [hMem']
        simp only [List.mem_cons, exists_eq_or_imp]
        tauto

/-- Taking one page from the table. The other pages keep their entries and their order. -/
theorem MemLibRep.unmapPage (h : MemLibRep s pages) {q : Nat} (hIn : pageOf q ∈ pages) :
    ∃ maps head, pagemapModify q false s =
        .ok ((), { s with pageMaps1 := maps, allMappedPages := head }) ∧
      MemLibRep { s with
        pageMaps1 := maps, allMappedPages := head, pageCount := s.pageCount - 1 }
        (pages.erase (pageOf q)) := by
  obtain ⟨maps, head, hRun, hTable⟩ := pagemapModify_unmap h.table hIn
  refine ⟨maps, head, hRun, hTable, ?_, fun p hp => h.backed p (List.mem_of_mem_erase hp)⟩
  have hLength := List.length_erase_of_mem hIn
  have hPos := List.length_pos_of_mem hIn
  have hCount : pages.length = (pages.erase (pageOf q)).length + 1 := by omega
  show s.pageCount - 1 = _
  rw [h.count, hCount, BitVec.ofNat_add]
  exact BitVec.add_sub_cancel _ _

/-- The loop of `mem_unmap` gets to its end only over pages that are in the table. At any other
page `mem_unmap` aborts. -/
theorem memUnmapPages_registered {t : Process} (p : Nat) (is : List Nat) (h : MemLibRep s pages)
    (hRun : memUnmapPages p is s = .ok ((), t)) : ∀ i ∈ is, pageOf (add64 p i) ∈ pages := by
  induction is generalizing s pages with
  | nil => nofun
  | cons i is ih =>
      rw [memUnmapPages, Program.bind_ok (pagemapIsMapped_ok h.table _)] at hRun
      by_cases hIn : pageOf (add64 p i) ∈ pages
      · obtain ⟨maps, head, hModify, hRep⟩ := h.unmapPage hIn
        simp only [hIn, decide_true, Bool.true_eq_false, if_false] at hRun
        rw [Program.bind_ok hModify] at hRun
        have hRest := ih hRep hRun
        exact List.forall_mem_cons.mpr ⟨hIn, fun j hj => List.mem_of_mem_erase (hRest j hj)⟩
      · simp only [hIn, decide_false, if_true] at hRun
        cases hRun

/-- Taking the pages of a region from the table, all of which are in it. The induction is on
the offsets of the loop. -/
theorem memUnmapPages_ok (p : Nat) (is : List Nat) (h : MemLibRep s pages)
    (hPage : ∀ i ∈ is, p + i < 2 ^ 64 ∧ (p + i) % apageSize = 0)
    (hNodup : is.Nodup) (hIn : ∀ i ∈ is, pageOf (p + i) ∈ pages) :
    ∃ maps head count pages', memUnmapPages p is s =
        .ok ((), { s with pageMaps1 := maps, allMappedPages := head, pageCount := count }) ∧
      MemLibRep { s with pageMaps1 := maps, allMappedPages := head, pageCount := count } pages' ∧
      ∀ page, page ∈ pages' ↔ page ∈ pages ∧ ∀ i ∈ is, page ≠ pageOf (p + i) := by
  induction is generalizing s pages with
  | nil => exact ⟨_, _, _, pages, rfl, h, fun page => by simp⟩
  | cons i is ih =>
      obtain ⟨hFresh, hNodup⟩ := List.nodup_cons.mp hNodup
      obtain ⟨hBound, hAligned⟩ := hPage i (by simp)
      have hThis := hIn i (by simp)
      obtain ⟨maps, head, hRun, hStep⟩ := h.unmapPage hThis
      have hRest : ∀ j ∈ is, pageOf (p + j) ∈ pages.erase (pageOf (p + i)) := by
        intro j hj
        refine h.table.nodup.mem_erase_iff.mpr ⟨fun hEq => ?_, hIn j (by simp [hj])⟩
        obtain rfl := offset_eq hAligned (hPage j (by simp [hj])).2 hEq
        exact hFresh hj
      obtain ⟨maps', head', count', pages', hRun', hRep', hMem'⟩ :=
        ih hStep (fun j hj => hPage j (by simp [hj])) hNodup hRest
      refine ⟨maps', head', count', pages', ?_, hRep', fun page => ?_⟩
      · rw [memUnmapPages, add64_eq hBound, Program.bind_ok (pagemapIsMapped_ok h.table _)]
        simp only [hThis, decide_true, Bool.true_eq_false, if_false]
        rw [Program.bind_ok hRun]
        exact hRun'
      · rw [hMem', h.table.nodup.mem_erase_iff]
        simp only [List.mem_cons, forall_eq_or_imp]
        tauto

end Loops

/-- From `s` to `t` more may have been mapped, while everything that was mapped
keeps its contents and no bookkeeping changed. -/
structure Extends (s t : Process) : Prop where
  keeps : ∀ q, s.os.mapped q = true → t.os.mapped q = true
  frame : ∀ x, s.os.mapped (x / apageSize) = true → t.mem x = s.mem x
  heads : t.pageListHead = s.pageListHead ∧ t.freeListHead = s.freeListHead
  tables : t.pageMaps1 = s.pageMaps1 ∧ t.allMappedPages = s.allMappedPages ∧
    t.pageCount = s.pageCount ∧ t.calls = s.calls

/-- A new region of `sz` bytes at `p`, which was not mapped before. -/
structure MapsRegion (s : Process) (p sz : Nat) (t : Process) : Prop extends Extends s t where
  aligned : p % apageSize = 0
  nonzero : 0 < p
  nonempty : 0 < sz
  inside : p + sz < 2 ^ 64
  fresh : ∀ x, p ≤ x → x < p + sz → s.os.mapped (x / apageSize) = false
  mapped : ∀ x, p ≤ x → x < p + sz → t.os.mapped (x / apageSize) = true

/-- What one call adds to the mapped regions, the next one keeps. -/
theorem Extends.trans {s t u : Process} (h : Extends s t) (h' : Extends t u) : Extends s u where
  keeps q hq := h'.keeps q (h.keeps q hq)
  frame x hx := (h'.frame x (h.keeps _ hx)).trans (h.frame x hx)
  heads := ⟨h'.heads.1.trans h.heads.1, h'.heads.2.trans h.heads.2⟩
  tables := ⟨h'.tables.1.trans h.tables.1, h'.tables.2.1.trans h.tables.2.1,
    h'.tables.2.2.1.trans h.tables.2.2.1, h'.tables.2.2.2.trans h.tables.2.2.2⟩

section Calls

variable {K : Kernel} {s t u : Process} {pages : List PagePtr} {p sz : Nat}

/-- A region that is mapped after more regions is also one that is mapped from the first state
on. -/
theorem Extends.mapsRegion (h : Extends s t) (h' : MapsRegion t p sz u) : MapsRegion s p sz u where
  toExtends := h.trans h'.toExtends
  aligned := h'.aligned
  nonzero := h'.nonzero
  nonempty := h'.nonempty
  inside := h'.inside
  fresh x hLow hHigh := by
    have hFresh := h'.fresh x hLow hHigh
    cases hOld : s.os.mapped (x / apageSize) with
    | false => rfl
    | true => rw [h.keeps _ hOld] at hFresh; cases hFresh
  mapped := h'.mapped

/-- The tables of `pagemap.c` do not see what the kernel maps besides. -/
theorem Extends.rep (h : Extends s t) (hRep : MemLibRep s pages) : MemLibRep t pages := by
  obtain ⟨hMaps, hHead, hCount, -⟩ := h.tables
  refine ⟨?_, ?_, fun q hq => h.keeps _ (hRep.backed q hq)⟩
  · rw [hMaps, hHead]
    exact hRep.table
  · rw [hCount]
    exact hRep.count

/-- A region of whole pages: an address is in a page of it exactly when it is in the region. -/
theorem OS.mapped_setRange {os : OS} {on : Bool} {x : Nat} (hp : p % apageSize = 0)
    (hSize : sz % apageSize = 0) : (os.setRange p sz on).mapped (x / apageSize) =
      if p ≤ x ∧ x < p + sz then on else os.mapped (x / apageSize) := by
  rw [apageSize_eq] at *
  have hRange : (p ≤ x / 4096 * 4096 ∧ x / 4096 * 4096 < p + sz) ↔ (p ≤ x ∧ x < p + sz) := by
    omega
  simp only [OS.setRange, apageSize_eq, hRange]

/-- `mmap` answers what the kernel decides, and maps the region that it answers with. Of the
process it changes nothing else. -/
theorem mmap_meets (hSize : sz % apageSize = 0) :
    (mmap K sz).Returns s fun r t => r = K.place s.os sz ∧ match r with
      | none => Extends s t
      | some p => MapsRegion s p sz t := by
  cases hPlace : K.place s.os sz with
  | none =>
      refine Program.returns_iff.mpr ⟨none, { s with os := { s.os with mmaps := s.os.mmaps + 1 } },
        by simp [mmap, Program.bind_apply, hPlace], rfl, ?_⟩
      exact ⟨fun _ h => h, fun _ _ => rfl, ⟨rfl, rfl⟩, rfl, rfl, rfl, rfl⟩
  | some p =>
      have hAligned := K.aligned _ _ _ hPlace
      refine Program.returns_iff.mpr ⟨some p, _, by
        simp only [mmap, Program.bind_apply, Program.read_apply, Program.modify_apply, hPlace]
        rfl, rfl, ?_⟩
      refine ⟨⟨?_, ?_, ⟨rfl, rfl⟩, rfl, rfl, rfl, rfl⟩, hAligned, K.nonzero _ _ _ hPlace,
        K.nonempty _ _ _ hPlace, K.inside _ _ _ hPlace, ?_, ?_⟩
      · intro q hq
        show (if _ then true else s.os.mapped q) = true
        split
        · rfl
        · exact hq
      · intro x hx
        have hOut : ¬(p ≤ x ∧ x < p + sz) := by
          rintro ⟨hLow, hHigh⟩
          have hFresh := K.fresh _ _ _ hPlace (x / apageSize)
            (by rw [apageSize_eq] at *; omega) (by rw [apageSize_eq] at *; omega)
          rw [hx] at hFresh
          cases hFresh
        exact if_neg hOut
      · intro x hLow hHigh
        refine K.fresh _ _ _ hPlace _ ?_ ?_ <;> rw [apageSize_eq] at * <;> omega
      · intro x hLow hHigh
        show (OS.setRange _ p sz true).mapped _ = true
        rw [OS.mapped_setRange hAligned hSize, if_pos ⟨hLow, hHigh⟩]

/-- The spacer page of a call whose number is a power of two is mapped besides what is there,
and no table of the library knows of it. -/
theorem countActivity_returns : (countActivity K).Returns s fun _ t => Extends s t := by
  unfold countActivity Program.Returns
  simp only [Program.meets_bind, Program.meets_modify, Program.meets_read]
  split
  · rw [Program.meets_bind]
    apply (mmap_meets (by decide)).meets
    rintro r t ⟨-, hMap⟩
    rw [Program.meets_pure]
    cases r with
    | none => exact ⟨hMap.keeps, hMap.frame, hMap.heads, hMap.tables⟩
    | some p => exact ⟨hMap.keeps, hMap.frame, hMap.heads, hMap.tables⟩
  · exact ⟨fun _ h => h, fun _ _ => rfl, ⟨rfl, rfl⟩, rfl, rfl, rfl, rfl⟩

/-- What `mmap` answers when `mem_map` asks for a region of `sz` bytes. -/
def regionPlace (K : Kernel) (s : Process) (sz : Nat) : Option Nat :=
  match countActivity K s with
  | .ok ((), u) => K.place u.os sz
  | .error _ => none

/-- The pages of a region are those of the offsets that the loops go through, one page for each
offset. -/
theorem exists_pageOffset (hSize : sz % apageSize = 0) (hp : p % apageSize = 0) (page : PagePtr) :
    (∃ i ∈ pageOffsets sz, page = pageOf (p + i)) ↔
      ∃ x, p ≤ x ∧ x < p + sz ∧ page = pageOf x := by
  constructor
  · rintro ⟨i, hi, rfl⟩
    have hi' := ((mem_pageOffsets hSize).mp hi).1
    exact ⟨p + i, by omega, by omega, rfl⟩
  · rintro ⟨x, hLow, hHigh, rfl⟩
    rw [apageSize_eq] at hp hSize
    refine ⟨(x - p) / 4096 * 4096, (mem_pageOffsets (by simpa using hSize)).mpr ?_, ?_⟩
    · rw [apageSize_eq]
      omega
    · rw [pageOf_eq_iff, apageSize_eq]
      omega

/-- `mem_map` of whole pages either registers the pages of a new region, or
aborts because `mmap` failed. -/
theorem memMap_meets (h : MemLibRep s pages) (hSize : sz % apageSize = 0) :
    (memMap K sz).Meets s (fun p t => regionPlace K s sz = some p ∧
      ∃ u maps head count pages', MapsRegion s p sz u ∧
        t = { u with pageMaps1 := maps, allMappedPages := head, pageCount := count,
                     calls := s.calls ++ [.map p sz] } ∧
        MemLibRep t pages' ∧
        ∀ page, page ∈ pages' ↔ page ∈ pages ∨ ∃ x, p ≤ x ∧ x < p + sz ∧ page = pageOf x)
      (fun e => e = .mmapFailed ∧ regionPlace K s sz = none) := by
  obtain ⟨_, s₁, hRun₁, hActivity⟩ :=
    Program.returns_iff.mp (countActivity_returns (K := K) (s := s))
  have hPlace : regionPlace K s sz = K.place s₁.os sz := by
    rw [regionPlace, hRun₁]
  unfold memMap
  simp only [land_pageMask, hSize, ne_eq, not_true_eq_false, if_false, Program.meets_bind,
    Program.meets_of_ok hRun₁]
  apply (mmap_meets hSize).meets
  rintro r u ⟨hAnswer, hMap⟩
  rw [← hPlace] at hAnswer
  cases r with
  | none => exact Program.meets_stop.mpr ⟨rfl, hAnswer.symm⟩
  | some p =>
      have hRegion : MapsRegion s p sz u := hActivity.mapsRegion hMap
      have hRep : MemLibRep u pages := hRegion.toExtends.rep h
      obtain ⟨maps, head, count, pages', hRun, hRep', hMem⟩ :=
        memMapPages_ok p (pageOffsets sz) hRep hRegion.nonzero (fun i hi => by
          obtain ⟨hi, hOffset⟩ := (mem_pageOffsets hSize).mp hi
          have hAligned := hRegion.aligned
          have hInside := hRegion.inside
          refine ⟨by omega, ?_, hRegion.mapped _ (by omega) (by omega)⟩
          rw [apageSize_eq] at *
          omega) (nodup_pageOffsets sz) (fun i hi hOld => by
          obtain ⟨hi, -⟩ := (mem_pageOffsets hSize).mp hi
          have hFresh := hRegion.fresh (p + i) (by omega) (by omega)
          rw [h.backed _ hOld] at hFresh
          cases hFresh)
      simp only [Program.meets_bind, Program.meets_of_ok hRun, Program.meets_modify,
        Program.meets_pure]
      refine ⟨hAnswer.symm, u, maps, head, count, pages', hRegion, ?_,
        ⟨hRep'.table, hRep'.count, hRep'.backed⟩, fun page => ?_⟩
      · simp only [hRegion.tables.2.2.2]
      · rw [hMem, exists_pageOffset hSize hRegion.aligned]

/-- `mem_unmap` of a registered region returns, and forgets its pages. The region is whole
pages, so the checks before the loop pass. -/
theorem memUnmap_returns (h : MemLibRep s pages) (hp : p % apageSize = 0)
    (hSize : sz % apageSize = 0) (hNonempty : 0 < sz) (hInside : p + sz ≤ 2 ^ 64)
    (hIn : ∀ x, p ≤ x → x < p + sz → pageOf x ∈ pages) :
    (memUnmap p sz).Returns s fun _ t => ∃ maps head count pages',
      t = { s with pageMaps1 := maps, allMappedPages := head, pageCount := count,
                   os := s.os.setRange p sz false, calls := s.calls ++ [.unmap p sz] } ∧
      MemLibRep t pages' ∧
      ∀ page, page ∈ pages' ↔ page ∈ pages ∧ ∀ x, p ≤ x → x < p + sz → page ≠ pageOf x := by
  obtain ⟨maps, head, count, pages', hRun, hRep, hMem⟩ :=
    memUnmapPages_ok p (pageOffsets sz) h (fun i hi => by
      obtain ⟨hi, hOffset⟩ := (mem_pageOffsets hSize).mp hi
      refine ⟨by omega, ?_⟩
      rw [apageSize_eq] at *
      omega) (nodup_pageOffsets sz) (fun i hi => by
      obtain ⟨hi, -⟩ := (mem_pageOffsets hSize).mp hi
      exact hIn _ (by omega) (by omega))
  have hMem' : ∀ page, page ∈ pages' ↔
      page ∈ pages ∧ ∀ x, p ≤ x → x < p + sz → page ≠ pageOf x := by
    intro page
    rw [hMem]
    refine and_congr_right fun _ => ?_
    have hNone := not_congr (exists_pageOffset hSize hp page)
    simp only [not_exists, not_and] at hNone
    exact hNone
  unfold memUnmap Program.Returns
  simp only [land_pageMask, hSize, hp, ne_eq, not_true_eq_false, if_false, Program.meets_bind,
    Program.meets_of_ok hRun, munmap, Nat.ne_of_gt hNonempty, or_self, Program.meets_modify,
    Program.meets_pure, Bool.true_eq_false]
  refine ⟨maps, head, count, pages', rfl, ⟨hRep.table, hRep.count, fun q hq => ?_⟩, hMem'⟩
  obtain ⟨hOld, hOutside⟩ := (hMem' _).mp hq
  show (OS.setRange _ p sz false).mapped _ = true
  rw [OS.mapped_setRange hp hSize, if_neg, h.backed q hOld]
  rintro ⟨hLow, hHigh⟩
  exact hOutside q hLow hHigh rfl

end Calls

section Reset

variable {s : Process} {pages : List PagePtr}

/-- A registered page is the one of the addresses from its own on, up to the next page. -/
theorem PageMapRep.pageOf_eq_iff {maps : Option PageMaps1} {head : Option PagePtr} {page : PagePtr}
    (h : PageMapRep maps head pages) (hIn : page ∈ pages) (x : Nat) :
    pageOf x = page ↔ (entryOf maps page).addr ≤ x ∧ x < (entryOf maps page).addr + apageSize := by
  obtain ⟨-, hAligned, -, hPage⟩ := h.present page hIn
  have hSame := Malloc.pageOf_eq_iff x (entryOf maps page).addr
  rw [hPage] at hSame
  rw [hSame]
  rw [apageSize_eq] at *
  omega

theorem PageMapRep.next_eq {maps : Option PageMaps1} {head : Option PagePtr} {page : PagePtr}
    (h : PageMapRep maps head (page :: pages)) : (entryOf maps page).next = pages.head? := by
  obtain ⟨last, hRing⟩ := h.ring
  obtain ⟨-, -, hRest⟩ := hRing.linked
  cases pages with
  | nil => exact hRest.1
  | cons next rest => exact hRest.1

/-- The callback of `mem_reset` gives one page back to the kernel. -/
theorem unmap_ok {p : Nat} (hp : p % apageSize = 0) :
    unmap p s = .ok ((), { s with os := s.os.setRange p apageSize false }) := by
  have hSize : ¬(p % apageSize ≠ 0 ∨ apageSize = 0) := by simpa using hp
  simp only [unmap, munmap, if_neg hSize, Program.bind_apply, Program.modify_apply,
    Program.pure_apply, Bool.true_eq_false, if_false]

/-- The walk of `mem_reset` unmaps every registered page. The successor is read
before the page is taken from the list. -/
theorem pagemapForEachLoop_unmap (steps : Nat)
    (h : PageMapRep s.pageMaps1 s.allMappedPages pages) (hSteps : pages.length < steps) :
    ∃ maps head os, pagemapForEachLoop unmap steps s.allMappedPages s =
        .ok ((), { s with pageMaps1 := maps, allMappedPages := head, os := os }) ∧
      PageMapRep maps head [] ∧
      ∀ x, os.mapped (x / apageSize) =
        (s.os.mapped (x / apageSize) && decide (pageOf x ∉ pages)) := by
  induction pages generalizing s steps with
  | nil =>
      obtain ⟨steps, rfl⟩ : ∃ n, steps = n + 1 := ⟨steps - 1, by simp at hSteps; omega⟩
      have hHead : s.allMappedPages = none := h.head_eq
      refine ⟨s.pageMaps1, none, s.os, ?_, ?_, fun x => by simp⟩
      · rw [hHead]
        cases s
        simp_all [pagemapForEachLoop]
      · rw [← hHead]
        exact h
  | cons page rest ih =>
      obtain ⟨steps, rfl⟩ : ∃ n, steps = n + 1 := ⟨steps - 1, by simp at hSteps; omega⟩
      have hHead : s.allMappedPages = some page := h.head_eq
      obtain ⟨hNonzero, hAligned, -, hPage⟩ := h.present page (by simp)
      have hTable := h.page? (List.mem_cons_self (a := page))
      obtain ⟨maps, head, hRun, hRep₂⟩ :=
        pagemapModify_unmap (s := { s with
          os := s.os.setRange (entryOf s.pageMaps1 page).addr apageSize false })
          (p := (entryOf s.pageMaps1 page).addr) h (by simp [hPage])
      rw [hPage, List.erase_cons_head] at hRep₂
      have hNext : (entryOf s.pageMaps1 page).next = head := h.next_eq.trans hRep₂.head_eq.symm
      obtain ⟨maps', head', os', hRest, hRep', hOs⟩ :=
        ih (s := { s with
          os := s.os.setRange (entryOf s.pageMaps1 page).addr apageSize false
          pageMaps1 := maps
          allMappedPages := head }) steps hRep₂ (by simp at hSteps; omega)
      refine ⟨maps', head', os', ?_, hRep', fun x => ?_⟩
      · rw [hHead, pagemapForEachLoop, Program.bind_ok (loadPage_ok hTable),
          Program.bind_ok (unmap_ok hAligned),
          Program.bind_ok (loadPage_ok (s := { s with
            os := s.os.setRange (entryOf s.pageMaps1 page).addr apageSize false }) hTable),
          Program.bind_ok hRun, hNext]
        exact hRest
      · rw [hOs, OS.mapped_setRange hAligned (by decide)]
        have hSame := h.pageOf_eq_iff (List.mem_cons_self (a := page)) x
        by_cases hx : pageOf x = page
        · rw [if_pos (hSame.mp hx)]
          simp [hx]
        · rw [if_neg fun hIn => hx (hSame.mpr hIn)]
          simp [hx]

/-- `mem_reset` empties the tables and unmaps every registered page. The walk reads the next
page before it takes the one that it is at from the list. -/
theorem memReset_ok (h : PageMapRep s.pageMaps1 s.allMappedPages pages) :
    ∃ maps os, memReset s = .ok ((), { s with
        pageMaps1 := maps, allMappedPages := none, os := os, pageCount := 0,
        activityCounter := 0 }) ∧
      PageMapRep maps none [] ∧
      ∀ x, os.mapped (x / apageSize) =
        (s.os.mapped (x / apageSize) && decide (pageOf x ∉ pages)) := by
  obtain ⟨maps, head, os, hRun, hRep, hOs⟩ := pagemapForEachLoop_unmap walkBound h h.length_lt
  refine ⟨maps, os, ?_, ?_, hOs⟩
  · simp only [memReset, pagemapForEach, Program.bind_apply, Program.read_apply, hRun,
      Program.modify_apply]
  · have hHead : head = none := hRep.head_eq
    exact hHead ▸ hRep

end Reset

end Malloc
