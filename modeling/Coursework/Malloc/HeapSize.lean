import Coursework.Malloc.Runs
import Mathlib.Algebra.Order.BigOperators.Group.Finset
import Mathlib.Order.Interval.Finset.Nat

/-! `mem_heapsize` against the number of bytes that are mapped, over any
sequence of calls to `memlib.c`. -/

namespace Malloc

/-- A call to `memlib.c` that returned; `map p sz` is one of `mem_map` that
answered `p`. -/
inductive LibCall where
  | map (p sz : Nat)
  | unmap (p sz : Nat)
  | reset
deriving DecidableEq, Repr

/-- The addresses that are mapped through `memlib.c` after one more call. -/
def LibCall.mappedAfter (bytes : Finset Nat) : LibCall → Finset Nat
  | .map p sz => bytes ∪ Finset.Ico p (p + sz)
  | .unmap p sz => bytes \ Finset.Ico p (p + sz)
  | .reset => ∅

def mappedBytes (calls : List LibCall) : Finset Nat := calls.foldl LibCall.mappedAfter ∅

theorem mappedBytes_append (calls : List LibCall) (call : LibCall) :
    mappedBytes (calls ++ [call]) = call.mappedAfter (mappedBytes calls) := by
  rw [mappedBytes, mappedBytes, List.foldl_append, List.foldl_cons, List.foldl_nil]

/-- The states that calls to `memlib.c` lead to, each of which returned. -/
inductive LibRuns (K : Kernel) : List LibCall → Process → Prop where
  | boot {s : Process} : Booted s → LibRuns K [] s
  | map {calls : List LibCall} {s t : Process} {p sz : Nat} : LibRuns K calls s →
      memMap K sz s = .ok (p, t) → LibRuns K (calls ++ [.map p sz]) t
  | unmap {calls : List LibCall} {s t : Process} {p sz : Nat} : LibRuns K calls s →
      p < 2 ^ 64 → memUnmap p sz s = .ok ((), t) → LibRuns K (calls ++ [.unmap p sz]) t
  | reset {calls : List LibCall} {s t : Process} : LibRuns K calls s →
      memReset s = .ok ((), t) → LibRuns K (calls ++ [.reset]) t

/-- The pages that `pagemap.c` knows are those of the addresses `bytes`. -/
def Accounts (s : Process) (bytes : Finset Nat) : Prop :=
  ∃ pages, MemLibRep s pages ∧ ∀ x, x ∈ bytes ↔ pageOf x ∈ pages

section Steps

variable {K : Kernel} {s t : Process} {bytes : Finset Nat} {p sz : Nat}

/-- The pages of a region of whole pages are those of the addresses in it only, so regions that
do not overlap share no page. -/
theorem pageOf_in_region (hp : p % apageSize = 0) (hSize : sz % apageSize = 0) (x : Nat) :
    (∃ y, p ≤ y ∧ y < p + sz ∧ pageOf x = pageOf y) ↔ x ∈ Finset.Ico p (p + sz) := by
  rw [Finset.mem_Ico]
  constructor
  · rintro ⟨y, hLow, hHigh, hPage⟩
    rw [pageOf_eq_iff] at hPage
    rw [apageSize_eq] at *
    omega
  · rintro ⟨hLow, hHigh⟩
    exact ⟨x, hLow, hHigh, rfl⟩

/-- `mem_map` only goes on with whole pages. For any other size it prints a message and
aborts. -/
theorem memMap_paged (h : memMap K sz s = .ok (p, t)) : sz % apageSize = 0 := by
  by_contra hSize
  rw [memMap, land_pageMask, if_pos hSize] at h
  cases h

/-- A call of `mem_unmap` that returns was for whole pages. -/
theorem memUnmap_paged (h : memUnmap p sz s = .ok ((), t)) :
    p % apageSize = 0 ∧ sz % apageSize = 0 := by
  constructor
  · by_contra hp
    rw [memUnmap, land_pageMask, if_pos hp] at h
    cases h
  · by_contra hSize
    rw [memUnmap, land_pageMask, land_pageMask, if_pos hSize] at h
    split at h <;> cases h

/-- Between the checks and the call of `munmap` the loop got to its end, which is all that is
known of a call that returned. -/
theorem memUnmap_loop (h : memUnmap p sz s = .ok ((), t)) :
    0 < sz ∧ ∃ u, memUnmapPages p (pageOffsets sz) s = .ok ((), u) := by
  obtain ⟨hp, hSize⟩ := memUnmap_paged h
  simp only [memUnmap, land_pageMask, hp, hSize, ne_eq, not_true_eq_false, if_false,
    Program.bind_eq_ok] at h
  obtain ⟨_, u, hLoop, done, v, hMunmap, hRest⟩ := h
  refine ⟨Nat.pos_of_ne_zero ?_, u, hLoop⟩
  rintro rfl
  rw [munmap, if_pos (Or.inr rfl)] at hMunmap
  obtain ⟨rfl, rfl⟩ := Prod.mk.inj (Except.ok.inj hMunmap)
  cases hRest

/-- At the start nothing is mapped and nothing is counted. -/
theorem Accounts.boot (h : Booted s) : Accounts s ∅ :=
  ⟨[], h.memLibRep, fun x => by simp⟩

/-- `mem_map` adds the pages of the new region to the table and to the count. -/
theorem Accounts.map (h : Accounts s bytes) (hRun : memMap K sz s = .ok (p, t)) :
    Accounts t (bytes ∪ Finset.Ico p (p + sz)) := by
  obtain ⟨pages, hRep, hBytes⟩ := h
  have hSize := memMap_paged hRun
  obtain ⟨-, u, maps, head, count, pages', hRegion, -, hRep', hPages⟩ :=
    (memMap_meets hRep hSize).of_ok hRun
  refine ⟨pages', hRep', fun x => ?_⟩
  rw [Finset.mem_union, hBytes, hPages, pageOf_in_region hRegion.aligned hSize]

/-- A region that `mem_unmap` accepts ends within the address space: page zero is
never in the table. -/
theorem memUnmap_inside {pages : List PagePtr} (h : MemLibRep s pages) (hp : p < 2 ^ 64)
    (hRun : memUnmap p sz s = .ok ((), t)) :
    p + sz ≤ 2 ^ 64 ∧ ∀ x, p ≤ x → x < p + sz → pageOf x ∈ pages := by
  obtain ⟨hAligned, hSize⟩ := memUnmap_paged hRun
  obtain ⟨-, u, hLoop⟩ := memUnmap_loop hRun
  have hRegistered := memUnmapPages_registered p _ h hLoop
  have hInside : p + sz ≤ 2 ^ 64 := by
    by_contra hWraps
    have hZero := hRegistered (2 ^ 64 - p) ((mem_pageOffsets hSize).mpr ⟨by omega, by
      rw [apageSize_eq] at *
      omega⟩)
    obtain ⟨hNonzero, hPaged, -, hPage⟩ := h.table.present _ hZero
    rw [add64, Nat.add_sub_cancel' (Nat.le_of_lt hp), Nat.mod_self, pageOf_eq_iff] at hPage
    rw [add64, Nat.add_sub_cancel' (Nat.le_of_lt hp), Nat.mod_self] at hNonzero hPaged
    rw [apageSize_eq] at *
    omega
  refine ⟨hInside, fun x hLow hHigh => ?_⟩
  obtain ⟨i, hi, hPage⟩ := (exists_pageOffset hSize hAligned (pageOf x)).mpr ⟨x, hLow, hHigh, rfl⟩
  have hOffset := (mem_pageOffsets hSize).mp hi
  rw [hPage, ← add64_eq (by omega : p + i < 2 ^ 64)]
  exact hRegistered i hi

/-- `mem_unmap` takes the pages that are in the table out of it and out of the count. -/
theorem Accounts.unmap (h : Accounts s bytes) (hp : p < 2 ^ 64)
    (hRun : memUnmap p sz s = .ok ((), t)) : Accounts t (bytes \ Finset.Ico p (p + sz)) := by
  obtain ⟨pages, hRep, hBytes⟩ := h
  obtain ⟨hAligned, hSize⟩ := memUnmap_paged hRun
  obtain ⟨hInside, hIn⟩ := memUnmap_inside hRep hp hRun
  obtain ⟨maps, head, count, pages', -, hRep', hPages⟩ :=
    (memUnmap_returns hRep hAligned hSize (memUnmap_loop hRun).1 hInside hIn).of_ok hRun
  refine ⟨pages', hRep', fun x => ?_⟩
  rw [Finset.mem_sdiff, hBytes, hPages, ← pageOf_in_region hAligned hSize]
  simp only [not_exists, not_and]

/-- `mem_reset` unmaps what is left and sets the count to zero. -/
theorem Accounts.reset (h : Accounts s bytes) (hRun : memReset s = .ok ((), t)) :
    Accounts t ∅ := by
  obtain ⟨pages, hRep, -⟩ := h
  obtain ⟨maps, os, hReset, hEmpty, -⟩ := memReset_ok hRep.table
  obtain ⟨-, rfl⟩ := Prod.mk.inj (Except.ok.inj (hReset.symm.trans hRun))
  exact ⟨[], ⟨hEmpty, rfl, nofun⟩, fun x => by simp⟩

/-- After any sequence of calls the table holds the pages of what is mapped. The induction is
on the calls, with one lemma above for each kind. -/
theorem LibRuns.accounts {calls : List LibCall} (h : LibRuns K calls s) :
    Accounts s (mappedBytes calls) := by
  induction h with
  | boot hBooted => exact .boot hBooted
  | map _ hRun ih => exact mappedBytes_append _ _ ▸ ih.map hRun
  | unmap _ hp hRun ih => exact mappedBytes_append _ _ ▸ ih.unmap hp hRun
  | reset _ hRun ih => exact mappedBytes_append _ _ ▸ ih.reset hRun

/-- Every page that is known accounts for its bytes, and is counted once. The count is
therefore the number of mapped bytes over the size of a page. -/
theorem Accounts.count (h : Accounts s bytes) : ∃ n, bytes.card = 4096 * n ∧
    s.pageCount = BitVec.ofNat 32 n := by
  obtain ⟨pages, hRep, hBytes⟩ := h
  refine ⟨pages.length, ?_, hRep.count⟩
  have hMaps : ∀ x ∈ bytes, pageOf x ∈ pages.toFinset := fun x hx =>
    List.mem_toFinset.mpr ((hBytes x).mp hx)
  have hFiber : ∀ page ∈ pages.toFinset, (bytes.filter fun x => pageOf x = page).card = 4096 := by
    intro page hPage
    rw [List.mem_toFinset] at hPage
    have hBlock : (bytes.filter fun x => pageOf x = page) = Finset.Ico
        (entryOf s.pageMaps1 page).addr ((entryOf s.pageMaps1 page).addr + apageSize) := by
      ext x
      rw [Finset.mem_filter, hBytes, Finset.mem_Ico, ← hRep.table.pageOf_eq_iff hPage,
        and_iff_right_of_imp fun hEq => hEq ▸ hPage]
    rw [hBlock, Nat.card_Ico, Nat.add_sub_cancel_left, apageSize_eq]
  rw [Finset.card_eq_sum_card_fiberwise hMaps, Finset.sum_const_nat hFiber,
    List.toFinset_card_of_nodup hRep.table.nodup, Nat.mul_comm]

end Steps

section Product

variable {n : Nat} {s : Process}

/-- The product of the two `int`s overflows from two GiB on, though the result is meant for a
`size_t`. -/
theorem heapsize_overflow (hFits : n < 2 ^ 31) :
    (BitVec.ofNat 32 apageSize).smulOverflow (BitVec.ofNat 32 n) = false ↔ 4096 * n < 2 ^ 31 := by
  have hCount : (BitVec.ofNat 32 n).toInt = n := by
    rw [BitVec.toInt_eq_toNat_of_lt, BitVec.toNat_ofNat, Nat.mod_eq_of_lt (by omega)]
    rw [BitVec.toNat_ofNat]
    omega
  have hPage : (BitVec.ofNat 32 apageSize).toInt = 4096 := by decide
  rw [BitVec.smulOverflow, hCount, hPage, Bool.or_eq_false_iff, decide_eq_false_iff_not,
    decide_eq_false_iff_not]
  omega

/-- Below two GiB the product is the number of bytes; from there on its sign
extension is more than any number of mapped bytes. -/
theorem memHeapsize_iff (hCount : s.pageCount = BitVec.ofNat 32 n) (hFits : n < 2 ^ 31) :
    memHeapsize s = .ok (4096 * n, s) ↔ 4096 * n < 2 ^ 31 := by
  have hProduct : (BitVec.ofNat 32 apageSize * s.pageCount).toNat = 4096 * n % 2 ^ 32 := by
    rw [hCount, ← BitVec.ofNat_mul, BitVec.toNat_ofNat, apageSize_eq]
  have hMsb : (BitVec.ofNat 32 apageSize * s.pageCount).msb =
      decide (2 ^ 31 ≤ 4096 * n % 2 ^ 32) := by
    rw [BitVec.msb_eq_decide, hProduct]
  have hValue : ((BitVec.ofNat 32 apageSize * s.pageCount).signExtend 64).toNat =
      4096 * n % 2 ^ 32 + if 2 ^ 31 ≤ 4096 * n % 2 ^ 32 then 2 ^ 64 - 2 ^ 32 else 0 := by
    rw [BitVec.toNat_signExtend, hMsb, BitVec.toNat_setWidth, hProduct]
    simp only [decide_eq_true_eq]
    congr 1
    omega
  have hRun : memHeapsize s = .ok (4096 * n % 2 ^ 32 +
      if 2 ^ 31 ≤ 4096 * n % 2 ^ 32 then 2 ^ 64 - 2 ^ 32 else 0, s) := by
    rw [← hValue]
    rfl
  rw [hRun, Except.ok.injEq, Prod.mk.injEq, and_iff_left rfl]
  split <;> omega

end Product

section Runs

variable {K : Kernel} {calls : List LibCall} {s : Process}

/-- `mem_heapsize` returns the number of mapped bytes, and its product stays in an
`int`, exactly when fewer than two GiB are mapped. -/
theorem heapsize_exact_iff (h : LibRuns K calls s) (hBound : (mappedBytes calls).card < 2 ^ 43) :
    (memHeapsize s = .ok ((mappedBytes calls).card, s) ∧
      (BitVec.ofNat 32 apageSize).smulOverflow s.pageCount = false) ↔
      (mappedBytes calls).card < 2 ^ 31 := by
  obtain ⟨n, hCard, hCount⟩ := h.accounts.count
  have hFits : n < 2 ^ 31 := by omega
  rw [hCard, memHeapsize_iff hCount hFits, hCount, heapsize_overflow hFits, and_self]

theorem card_map (p sz : Nat) : (mappedBytes [.map p sz]).card = sz := by
  simp [mappedBytes, LibCall.mappedAfter]

/-- The first region of a process that has just started, in which nothing is in the way. -/
theorem exists_first {sz : Nat} (hPaged : sz % apageSize = 0)
    (hPlace : regionPlace K Process.fresh sz ≠ none) : ∃ p s, LibRuns K [.map p sz] s := by
  have hBoot : Booted Process.fresh := ⟨rfl, rfl, rfl, rfl, rfl⟩
  have hMeets := memMap_meets (K := K) hBoot.memLibRep hPaged
  cases hRun : memMap K sz Process.fresh with
  | error e => exact absurd (hMeets.of_error hRun).2 hPlace
  | ok r => exact ⟨r.1, r.2, (LibRuns.boot hBoot).map hRun⟩

/-- The kernel finds room for up to four GiB behind the page that `mem_map` leaves unused. -/
theorem firstFit_place {sz : Nat} (hPos : 0 < sz) (hSize : sz < 2 ^ 32) :
    regionPlace (Kernel.firstFit 0) Process.fresh sz ≠ none := by
  have hUnused : (Kernel.firstFit 0).place Process.fresh.os apageSize = some (2 ^ 32) := by
    decide +kernel
  have hActivity : (countActivity (Kernel.firstFit 0)).Returns Process.fresh fun _ u =>
      u.os.mapped = (Process.fresh.os.setRange (2 ^ 32) apageSize true).mapped := by
    unfold countActivity mmap Program.Returns
    simp only [Program.meets_bind, Program.meets_modify, Program.meets_read]
    rw [if_pos (by decide)]
    simp only [Program.meets_bind, Program.meets_modify, Program.meets_read, hUnused,
      Program.meets_pure]
    rfl
  obtain ⟨_, u, hRun, hMapped⟩ := Program.returns_iff.mp hActivity
  rw [regionPlace, hRun]
  show (if 0 < sz ∧ sz < 2 ^ 32 then _ else none) ≠ none
  rw [if_pos ⟨hPos, hSize⟩, Option.ne_none_iff_isSome, List.find?_isSome]
  refine ⟨2 * 2 ^ 32, List.mem_map.mpr ⟨1, by decide, rfl⟩, List.all_eq_true.mpr fun k _ => ?_⟩
  have hFree : (Process.fresh.os.setRange (2 ^ 32) apageSize true).mapped
      (2 * 2 ^ 32 / apageSize + k) = false := if_neg (by rw [apageSize_eq]; omega)
  rw [hMapped, hFree]
  rfl

theorem heapsize_exact_iff_sample : ∃ p s, LibRuns (Kernel.firstFit 0) [.map p 8192] s ∧
    memHeapsize s = .ok (8192, s) ∧
    (BitVec.ofNat 32 apageSize).smulOverflow s.pageCount = false := by
  obtain ⟨p, s, hRuns⟩ :=
    exists_first (by decide : 8192 % apageSize = 0) (firstFit_place (by decide) (by decide))
  have hCard := card_map p 8192
  have hExact := (heapsize_exact_iff hRuns (by omega)).mpr (by omega)
  rw [hCard] at hExact
  exact ⟨p, s, hRuns, hExact⟩

/-- Two GiB that are mapped in one call are reported as almost the whole address
space. -/
theorem heapsize_overflows : ∃ (K : Kernel) (calls : List LibCall) (s : Process),
    LibRuns K calls s ∧ (∀ ds, ds <+: calls → (mappedBytes ds).card < 2 ^ 43) ∧
    (mappedBytes calls).card = 2 ^ 31 ∧ memHeapsize s = .ok (2 ^ 64 - 2 ^ 31, s) ∧
    (BitVec.ofNat 32 apageSize).smulOverflow s.pageCount = true := by
  obtain ⟨p, s, hRuns⟩ :=
    exists_first (by decide : 2 ^ 31 % apageSize = 0) (firstFit_place (by decide) (by decide))
  have hCard := card_map p (2 ^ 31)
  obtain ⟨n, hBytes, hCount⟩ := hRuns.accounts.count
  obtain rfl : n = 524288 := by omega
  refine ⟨_, _, s, hRuns, fun ds hPrefix => ?_, hCard, ?_, ?_⟩
  · rcases List.prefix_cons_iff.mp hPrefix with rfl | ⟨ds, rfl, hRest⟩
    · decide
    · obtain rfl := List.prefix_nil.mp hRest
      rw [hCard]
      decide
  · rw [memHeapsize, Program.bind_ok (Program.read_apply s), hCount]
    rfl
  · rw [hCount]
    decide

end Runs

end Malloc
