import Coursework.Driver.RangeList
import Coursework.Malloc.Safety
import Mathlib.Data.Finset.Basic

/-! The driver accepts `mm.c` on every well-formed trace. -/

namespace Mdriver

open Malloc Tiling Bytes

/-- `memset`, byte by byte. -/
def memset : Nat → Nat → Nat → Code Unit
  | _, _, 0 => pure ()
  | p, c, n + 1 => do
      store p 1 c
      memset (add64 p 1) c n

/-- The driver linked with `mm.c`. -/
def mm (K : Kernel) : Linked Process Abort where
  mmInit := do
    let r ← Malloc.mmInit
    pure r
  mmMalloc := Malloc.mmMalloc K
  mmFree := Malloc.mmFree
  pagemapIsMapped := Malloc.pagemapIsMapped
  memset := memset
  memReset := Malloc.memReset

/-- An operation that a trace may have where the ids `ids` are live. -/
structure TraceOp.Allowed (ids : Finset Nat) (op : TraceOp) : Prop where
  index : op.type = .alloc ↔ op.index ∉ ids
  size : op.type ≠ .free → 0 < op.size

def TraceOp.idsAfter (ids : Finset Nat) (op : TraceOp) : Finset Nat :=
  match op.type with
  | .alloc => insert op.index ids
  | .realloc => ids
  | .free => ids.erase op.index

/-- A trace that may go on where the ids `ids` are live. -/
def WellFormed (ids : Finset Nat) : List TraceOp → Prop
  | [] => True
  | op :: ops => op.Allowed ids ∧ WellFormed (op.idsAfter ids) ops

instance (ids : Finset Nat) (op : TraceOp) : Decidable (op.Allowed ids) :=
  decidable_of_iff ((op.type = .alloc ↔ op.index ∉ ids) ∧ (op.type ≠ .free → 0 < op.size))
    ⟨fun h => ⟨h.1, h.2⟩, fun h => ⟨h.index, h.size⟩⟩

instance decidableWellFormed : (ids : Finset Nat) → (ops : List TraceOp) →
    Decidable (WellFormed ids ops)
  | _, [] => inferInstanceAs (Decidable True)
  | ids, op :: ops =>
      have := decidableWellFormed (op.idsAfter ids) ops
      inferInstanceAs (Decidable (_ ∧ _))

/-- In a well-formed trace each request names an id that was live at its start, or that one
of its `a` requests takes. -/
theorem WellFormed.named {ids : Finset Nat} {ops : List TraceOp} (h : WellFormed ids ops)
    {op : TraceOp} (hOp : op ∈ ops) :
    op.index ∈ ids ∨ ∃ q ∈ ops, q.type = .alloc ∧ q.index = op.index := by
  induction ops generalizing ids with
  | nil => cases hOp
  | cons first ops ih =>
      obtain ⟨hFirst, hRest⟩ := h
      have hAfter : op.index ∈ first.idsAfter ids →
          op.index ∈ ids ∨ first.type = .alloc ∧ first.index = op.index := by
        unfold TraceOp.idsAfter
        cases hType : first.type with
        | alloc =>
            intro hIn
            rcases Finset.mem_insert.mp hIn with hSame | hIn
            · exact Or.inr ⟨rfl, hSame.symm⟩
            · exact Or.inl hIn
        | realloc => exact Or.inl
        | free => exact fun hIn => Or.inl (Finset.mem_of_mem_erase hIn)
      rcases List.mem_cons.mp hOp with rfl | hOp
      · by_cases hIn : op.index ∈ ids
        · exact Or.inl hIn
        · exact Or.inr ⟨op, List.mem_cons_self, hFirst.index.mpr hIn, rfl⟩
      · rcases ih hRest hOp with hIn | ⟨q, hq, hAlloc⟩
        · rcases hAfter hIn with hIn | hAlloc
          · exact Or.inl hIn
          · exact Or.inr ⟨first, List.mem_cons_self, hAlloc⟩
        · exact Or.inr ⟨q, List.mem_cons_of_mem _ hq, hAlloc⟩

/-- The trace `short1.rep` is well formed. -/
example : WellFormed ∅
    [⟨.alloc, 0, 2040, by decide⟩, ⟨.alloc, 1, 2040, by decide⟩, ⟨.free, 1, 0, by decide⟩,
      ⟨.alloc, 2, 48, by decide⟩, ⟨.alloc, 3, 4072, by decide⟩, ⟨.free, 3, 0, by decide⟩,
      ⟨.alloc, 4, 4072, by decide⟩, ⟨.free, 0, 0, by decide⟩, ⟨.free, 2, 0, by decide⟩,
      ⟨.alloc, 5, 4072, by decide⟩, ⟨.free, 4, 0, by decide⟩, ⟨.free, 5, 0, by decide⟩] := by
  decide

/-- The tables of `pagemap.c` know no page. -/
structure NothingMapped (s : Process) : Prop where
  entries : ∀ page, (entryOf s.pageMaps1 page).addr = 0
  list : s.allMappedPages = none
  count : s.pageCount = 0

/-- `mmap` refuses the region that `mm_malloc` asks for when no block fits. -/
def Refused (K : Kernel) (s : State Process) (op : TraceOp) : Prop :=
  op.type ≠ .free ∧ regionPlace K s.linked (regionSize (toSizeT op.size)) = none

/-- The driver has gone through the operations of `before`. -/
def Passes {σ ε : Type} (L : Linked σ ε) (tracenum : Nat) (before : List TraceOp)
    (d s : State σ) : Prop :=
  (do
    clearRanges
    let _ ← call L.mmInit
    evalOps L tracenum 0 before) d = .ok (true, s)

/-- `mmap` refuses no region in the run of the driver on the trace. -/
def MmapSucceeds (K : Kernel) (tracenum : Nat) (ops : List TraceOp) (d : State Process) : Prop :=
  ∀ before op after s, ops = before ++ op :: after → Passes (mm K) tracenum before d s →
    ¬Refused K s op

/-- The record of a lease in the range list. -/
def leaseRange (π : Nat → Nat) (e : Lease) : Range :=
  ⟨e.loc.payload π, payloadEnd (e.loc.payload π) e.size⟩

/-- The range list records exactly the leases, and the blocks of the live ids are
leases of their own. -/
structure Tracks (π : Nat → Nat) (s : State Process) (a : Ideal) (ids : Finset Nat) : Prop where
  rep : Rep π s.linked a.heap.chunks a.heap.free
  inv : a.Inv
  ranges : s.ranges = a.live.map (leaseRange π)
  blocks : ∀ i ∈ ids, ∃ e ∈ a.live, s.blocks i = e.loc.payload π
  apart : ∀ i ∈ ids, ∀ j ∈ ids, s.blocks i = s.blocks j → i = j

section Payloads

variable {π : Nat → Nat} {K : Kernel} {u : Process} {s : State Process} {a : Ideal} {e : Lease}
  {p n i tracenum : Nat} {size : Int}

/-- Filling bytes of a payload leaves the heap in memory. The tags and the link words of the
heap lie outside of every payload in use. -/
theorem memset_ok {cs : List Chunk} {fr : List Loc} {l : Loc} {b : Block} (h : Rep π u cs fr)
    (hUsed : UsedAt cs l b) (hLow : l.payload π ≤ p) (hHigh : p + n ≤ l.payload π + (b.size - 32))
    (c : Nat) : ∃ m, memset p c n u = .ok ((), { u with mem := m }) ∧
      Rep π { u with mem := m } cs fr := by
  induction n generalizing p u with
  | zero => exact ⟨u.mem, rfl, h⟩
  | succ n ih =>
      obtain ⟨d, hd, hb, -, hAddr, hOff, hSize, hEnd⟩ := h.layout.payload_bounds hUsed
      have hInside := h.layout.inside d hd
      have hAccess := h.layout.accessible hd (x := p) (n := 1) (by omega) (by omega) (by omega)
      have hStored := h.store hUsed (x := p) ⟨hLow, by omega⟩ (UInt8.ofNat c)
      rw [← write_one] at hStored
      obtain ⟨m, hRest, hRep⟩ := ih hStored (p := p + 1) (by omega) (by omega)
      refine ⟨m, ?_, hRep⟩
      rw [memset, Program.bind_ok (store_ok hAccess), add64_eq (by omega)]
      exact hRest

/-- Bytes in a chunk are on pages that `pagemap.c` knows. The driver asks for every page of a
payload. -/
theorem pageMapped_chunk {cs : List Chunk} {fr : List Loc} {d : Chunk} (h : Rep π u cs fr)
    (hd : d ∈ cs) (hLow : π d.id ≤ p) (hHigh : p + n ≤ π d.id + d.size) :
    PageMapped (mm K) u p n := by
  rintro x ⟨k, hk, rfl⟩
  have hInside := h.layout.inside d hd
  obtain ⟨pages, hLib, hPages⟩ := h.lib
  have hKnown := pagemapIsMapped_ok hLib.table (add64 p k)
  rw [add64_eq (by omega)] at hKnown ⊢
  rw [decide_eq_true ((hPages _).mpr ⟨d, hd, p + k, by omega, by omega, rfl⟩)] at hKnown
  exact hKnown

/-- The records of different leases do not meet. Their blocks lie apart, and a payload is
inside its block. -/
theorem leaseRange_not_meets (h : Layout π u.os a.heap.chunks) (hInv : a.Inv) {d : Lease}
    (hd : d ∈ a.live) (he : e ∈ a.live) (hNe : d ≠ e) :
    ¬(leaseRange π d).Meets (e.loc.payload π) (payloadEnd (e.loc.payload π) e.size) := by
  have hApart := h.leases_apart hInv hd he hNe
  obtain ⟨x, hx, b, hb, -, -, hAddr, hPos, hFits, -, hEnd⟩ := h.lease_block hInv hd
  obtain ⟨y, hy, f, hf, -, -, hAddr', hPos', hFits', -, hEnd'⟩ := h.lease_block hInv he
  have hInside := h.inside x hx
  have hInside' := h.inside y hy
  unfold Apart at hApart
  unfold Range.Meets leaseRange payloadEnd
  simp only
  rw [add64_eq (by omega), add64_eq (by omega), sub64_eq (by omega) (by omega),
    sub64_eq (by omega) (by omega)]
  omega

/-- The checks of the driver on a lease. A lease that the allocator has just given passes them
all. -/
theorem addRange_lease (h : Rep π s.linked a.heap.chunks a.heap.free) (hInv : a.Inv)
    (he : e ∈ a.live) (hPos : 0 < size) (hInt : size < 2 ^ 31) (hSize : e.size = toSizeT size)
    (hRanges : ∀ r ∈ s.ranges, ∃ d ∈ a.live, d ≠ e ∧ leaseRange π d = r) :
    addRange (mm K) (e.loc.payload π) size tracenum i s =
      .ok (1, { s with ranges := leaseRange π e :: s.ranges }) := by
  obtain ⟨x, hx, b, hb, -, -, hAddr, -, hFits, hOff, hEnd⟩ := h.layout.lease_block hInv he
  have hAligned : e.loc.payload π % alignment = 0 := hAddr ▸ h.layout.payload_mod hx hb
  rw [addRange_eq hPos hInt hAligned (pageMapped_chunk h hx (by omega) (by omega)), ← hSize,
    List.find?_eq_none.mpr fun r hr hMeets => ?_]
  · rfl
  · obtain ⟨d, hd, hNe, rfl⟩ := hRanges r hr
    exact leaseRange_not_meets h.layout hInv hd he hNe (of_decide_eq_true hMeets)

end Payloads

section Steps

variable {π π' : Nat → Nat} {K : Kernel} {s t : State Process} {u : Process} {a a' : Ideal}
  {e d : Lease} {ids : Finset Nat} {op : TraceOp} {i q : Nat}

/-- What `mm_malloc` hands out. -/
def newLease (a : Ideal) (n : Nat) : Lease := ⟨a.answers.length, (a.heap.malloc n).1, n⟩

/-- A request of one byte or more gets a lease, the newest of the list. -/
theorem live_malloc {n : Nat} (hn : 0 < n) : (a.malloc n).live = newLease a n :: a.live := by
  rw [Ideal.malloc, if_neg (Nat.ne_of_gt hn)]
  rfl

theorem heap_malloc {n : Nat} (hn : 0 < n) : (a.malloc n).heap = (a.heap.malloc n).2 := by
  rw [Ideal.malloc, if_neg (Nat.ne_of_gt hn)]

/-- The lease of a live id. -/
theorem Tracks.lease (h : Tracks π s a ids) (hi : i ∈ ids) :
    ∃ e ∈ a.live, s.blocks i = e.loc.payload π ∧
      ∀ j ∈ ids, j ≠ i → ∃ d ∈ a.live.erase e, s.blocks j = d.loc.payload π := by
  obtain ⟨e, he, hBlock⟩ := h.blocks i hi
  refine ⟨e, he, hBlock, fun j hj hNe => ?_⟩
  obtain ⟨d, hd, hOther⟩ := h.blocks j hj
  refine ⟨d, (List.mem_erase_of_ne ?_).mpr hd, hOther⟩
  rintro rfl
  exact hNe (h.apart j hj i hi (hOther.trans hBlock.symm))

/-- Leases with the same payload are the same. -/
theorem Tracks.eq_of_payload (h : Tracks π s a ids) (hd : d ∈ a.live) (he : e ∈ a.live)
    (hEq : d.loc.payload π = e.loc.payload π) : d = e :=
  List.inj_on_of_nodup_map (h.rep.layout.nodup_live h.inv) hd he hEq

/-- The range list without the record of a lease. -/
theorem Tracks.recorded (h : Tracks π s a ids) (he : e ∈ a.live)
    (hBlock : s.blocks op.index = e.loc.payload π) (hType : op.type ≠ .alloc) :
    recorded s op = (a.live.erase e).map (leaseRange π) := by
  rw [Mdriver.recorded, if_neg hType, h.ranges, List.eraseP_map, hBlock]
  refine congrArg _ (List.eraseP_eq_erase_of_unique fun d hd => ?_)
  rw [Function.comp_apply, decide_eq_true_eq]
  exact ⟨fun hEq => h.eq_of_payload hd he hEq, fun hEq => hEq ▸ rfl⟩

/-- The record and the block of a new lease are entered. -/
theorem Tracks.renew (h : Tracks π s a ids) {rest : List Lease}
    (hRep : Rep π' t.linked a'.heap.chunks a'.heap.free) (hInv : a'.Inv)
    (hLive : a'.live = e :: rest) (hSame : ∀ d ∈ rest, d.loc.payload π' = d.loc.payload π)
    (hRanges : t.ranges = leaseRange π' e :: rest.map (leaseRange π))
    (hBlocks : t.blocks = Function.update s.blocks i (e.loc.payload π'))
    (hOld : ∀ j ∈ ids, j ≠ i → ∃ d ∈ rest, s.blocks j = d.loc.payload π) :
    Tracks π' t a' (insert i ids) := by
  have hNew : t.blocks i = e.loc.payload π' := by rw [hBlocks, Function.update_self]
  have hOther : ∀ j ∈ ids, j ≠ i → ∃ d ∈ rest, t.blocks j = d.loc.payload π' := by
    intro j hj hNe
    obtain ⟨d, hd, hBlock⟩ := hOld j hj hNe
    exact ⟨d, hd, by rw [hBlocks, Function.update_of_ne hNe, hBlock, hSame d hd]⟩
  -- The payload of the new lease is the block of no other id.
  have hFresh : ∀ j ∈ ids, j ≠ i → t.blocks j ≠ t.blocks i := by
    intro j hj hNe hEq
    obtain ⟨d, hd, hBlock⟩ := hOther j hj hNe
    have hNodup := hRep.layout.nodup_live hInv
    rw [hLive, List.map_cons, List.nodup_cons] at hNodup
    exact hNodup.1 (List.mem_map.mpr ⟨d, hd, hBlock.symm.trans (hEq.trans hNew)⟩)
  refine ⟨hRep, hInv, ?_, ?_, ?_⟩
  · rw [hRanges, hLive, List.map_cons]
    refine congrArg _ (List.map_congr_left fun d hd => ?_)
    rw [leaseRange, leaseRange, hSame d hd]
  · intro j hj
    rw [hLive]
    by_cases hNe : j = i
    · exact ⟨e, List.mem_cons_self, hNe ▸ hNew⟩
    · obtain ⟨d, hd, hBlock⟩ := hOther j (Finset.mem_of_mem_insert_of_ne hj hNe) hNe
      exact ⟨d, List.mem_cons_of_mem _ hd, hBlock⟩
  · intro j hj k hk hEq
    by_cases hji : j = i <;> by_cases hki : k = i
    · rw [hji, hki]
    · rw [hji] at hEq
      exact absurd hEq.symm (hFresh k (Finset.mem_of_mem_insert_of_ne hk hki) hki)
    · rw [hki] at hEq
      exact absurd hEq (hFresh j (Finset.mem_of_mem_insert_of_ne hj hji) hji)
    · rw [hBlocks, Function.update_of_ne hji, Function.update_of_ne hki] at hEq
      exact h.apart j (Finset.mem_of_mem_insert_of_ne hj hji) k
        (Finset.mem_of_mem_insert_of_ne hk hki) hEq

/-- What the driver does with a payload that it got: the checks pass, and the payload
is filled. -/
theorem Tracks.handed (h : Tracks π s a ids) (hPos : 0 < op.size)
    (hServed : Served π π' s.linked u a.heap (toSizeT op.size) q) {rest : List Lease}
    (hRest : rest ⊆ a.live) (hRecorded : Mdriver.recorded s op = rest.map (leaseRange π))
    (K : Kernel) (tracenum i c : Nat) : ∃ m, addRange (mm K) q op.size tracenum i
        { s with linked := u, ranges := Mdriver.recorded s op } =
          .ok (1, { s with
            linked := u, ranges := leaseRange π' (newLease a (toSizeT op.size)) ::
              Mdriver.recorded s op }) ∧
      memset q c (toSizeT op.size) u = .ok ((), { u with mem := m }) ∧
      Rep π' { u with mem := m } (a.malloc (toSizeT op.size)).heap.chunks
        (a.malloc (toSizeT op.size)).heap.free := by
  have hn := (toSizeT_pos hPos op.fits.2).1
  have hInv := h.inv.malloc (toSizeT op.size)
  have hLive := live_malloc (a := a) hn
  have hNew : newLease a (toSizeT op.size) ∈ (a.malloc (toSizeT op.size)).live := by
    rw [hLive]
    exact List.mem_cons_self
  have hRep := hServed.rep
  rw [← heap_malloc hn] at hRep
  obtain rfl : q = (newLease a (toSizeT op.size)).loc.payload π' := hServed.result
  obtain ⟨b, hUsed, -, -, hFits⟩ := hInv.block hNew
  obtain ⟨m, hFill, hFilled⟩ := memset_ok hRep hUsed (Nat.le_refl _)
    (Nat.add_le_add_left hFits _) c
  refine ⟨m, addRange_lease hRep hInv hNew hPos op.fits.2 rfl fun r hr => ?_, hFill, hFilled⟩
  obtain ⟨d, hd, rfl⟩ := List.mem_map.mp (hRecorded ▸ hr)
  have hdLive := hRest hd
  refine ⟨d, by rw [hLive]; exact List.mem_cons_of_mem _ hdLive, ?_, ?_⟩
  · rintro rfl
    have hNodup := hInv.locs.of_map
    rw [hLive, List.nodup_cons] at hNodup
    exact hNodup.1 hdLive
  · rw [leaseRange, leaseRange, h.inv.payload_eq hServed.bases hdLive]

/-- Step lemma of `a`: the answer is a new payload, so `add_range` accepts it, and the driver
remembers it for a new id. -/
theorem Tracks.alloc (h : Tracks π s a ids) (tracenum i : Nat) (hType : op.type = .alloc)
    (hPos : 0 < op.size) (hMalloc : mmMalloc K (toSizeT op.size) s.linked = .ok (q, u))
    (hServed : Served π π' s.linked u a.heap (toSizeT op.size) q) :
    ∃ t a', evalOp (mm K) tracenum i op s = .ok (true, t) ∧ t.errors = s.errors ∧
      Tracks π' t a' (insert op.index ids) := by
  have hn := (toSizeT_pos hPos op.fits.2).1
  have hRecorded : Mdriver.recorded s op = a.live.map (leaseRange π) := by
    rw [Mdriver.recorded, if_pos hType, h.ranges]
  obtain ⟨m, hAdd, hFill, hRep⟩ := h.handed hPos hServed (List.Subset.refl _) hRecorded
    K tracenum i (op.index &&& 0xFF)
  refine ⟨{ s with
      linked := { u with mem := m }
      ranges := leaseRange π' (newLease a (toSizeT op.size)) :: Mdriver.recorded s op
      blocks := Function.update s.blocks op.index q
      blockSizes := Function.update s.blockSizes op.index (toSizeT op.size) },
    a.malloc (toSizeT op.size), ?_, rfl, ?_⟩
  · rw [evalOp_alloc_eq hType hServed.ne_zero hMalloc, Program.bind_ok hAdd, if_neg (by decide),
      Program.bind_ok (call_of_ok hFill)]
    rfl
  · refine h.renew hRep (h.inv.malloc _) (live_malloc hn)
      (fun d hd => h.inv.payload_eq hServed.bases hd) ?_ ?_ fun j hj _ => h.blocks j hj
    · rw [hRecorded]
    · rw [hServed.result]
      rfl

/-- Step lemma of `r`: the old range goes before the new payload is entered, and the old block
is freed after it was. -/
theorem Tracks.realloc (h : Tracks π s a ids) (tracenum i : Nat) (hType : op.type = .realloc)
    (hi : op.index ∈ ids) (hPos : 0 < op.size)
    (hMalloc : mmMalloc K (toSizeT op.size) s.linked = .ok (q, u))
    (hServed : Served π π' s.linked u a.heap (toSizeT op.size) q) :
    ∃ t a', evalOp (mm K) tracenum i op s = .ok (true, t) ∧ t.errors = s.errors ∧
      Tracks π' t a' ids := by
  have hn := (toSizeT_pos hPos op.fits.2).1
  have hInv := h.inv.malloc (toSizeT op.size)
  have hLive := live_malloc (a := a) hn
  obtain ⟨e, he, hBlock, hOthers⟩ := h.lease hi
  have hRecorded : Mdriver.recorded s op = (a.live.erase e).map (leaseRange π) :=
    h.recorded he hBlock (by rw [hType]; decide)
  obtain ⟨m, hAdd, hFill, hRep⟩ := h.handed hPos hServed List.erase_subset hRecorded
    K tracenum i (op.index &&& 0xFF)
  -- The old block is still held when it is freed.
  have heNew : e ∈ (a.malloc (toSizeT op.size)).live := by
    rw [hLive]
    exact List.mem_cons_of_mem _ he
  have hPayload := h.inv.payload_eq hServed.bases he
  obtain ⟨b, hUsed, -⟩ := hInv.held e heNew
  obtain ⟨_, v, hFree, hFreed⟩ :=
    Program.returns_iff.mp (mmFree_returns hRep hInv.wf.toTidy hUsed)
  rw [hPayload, ← hBlock] at hFree
  replace hFree : (mm K).mmFree (s.blocks op.index) { u with mem := m } = .ok ((), v) := hFree
  have hReleased : ((a.malloc (toSizeT op.size)).release e).live =
      newLease a (toSizeT op.size) :: a.live.erase e := by
    rw [Ideal.release, hLive, List.erase_cons_tail]
    rw [beq_iff_eq]
    rintro rfl
    have hNodup := hInv.locs.of_map
    rw [hLive, List.nodup_cons] at hNodup
    exact hNodup.1 he
  refine ⟨{ s with
      linked := v
      ranges := leaseRange π' (newLease a (toSizeT op.size)) :: Mdriver.recorded s op
      blocks := Function.update s.blocks op.index q
      blockSizes := Function.update s.blockSizes op.index (toSizeT op.size) },
    (a.malloc (toSizeT op.size)).release e, ?_, rfl, ?_⟩
  · rw [evalOp_realloc_eq hType hServed.ne_zero hMalloc, Program.bind_ok hAdd, if_neg (by decide),
      Program.bind_ok (call_of_ok hFill), Program.bind_ok (call_of_ok hFree)]
    rfl
  · rw [← Finset.insert_eq_of_mem hi]
    refine h.renew hFreed.rep (hInv.release heNew) hReleased
      (fun d hd => h.inv.payload_eq hServed.bases (List.mem_of_mem_erase hd)) ?_ ?_ hOthers
    · rw [hRecorded]
    · rw [hServed.result]
      rfl

/-- Step lemma of `f`: the range and the block of the id go. The ids that are left keep
theirs. -/
theorem Tracks.free (h : Tracks π s a ids) (K : Kernel) (tracenum i : Nat)
    (hType : op.type = .free) (hi : op.index ∈ ids) :
    ∃ t a', evalOp (mm K) tracenum i op s = .ok (true, t) ∧ t.errors = s.errors ∧
      Tracks π t a' (ids.erase op.index) := by
  obtain ⟨e, he, hBlock, hOthers⟩ := h.lease hi
  have hRecorded : Mdriver.recorded s op = (a.live.erase e).map (leaseRange π) :=
    h.recorded he hBlock (by rw [hType]; decide)
  obtain ⟨b, hUsed, -⟩ := h.inv.held e he
  obtain ⟨_, u, hFree, hFreed⟩ :=
    Program.returns_iff.mp (mmFree_returns h.rep h.inv.wf.toTidy hUsed)
  replace hFree : (mm K).mmFree (s.blocks op.index) s.linked = .ok ((), u) := hBlock ▸ hFree
  refine ⟨{ s with linked := u, ranges := Mdriver.recorded s op }, a.release e, ?_, rfl,
    hFreed.rep, h.inv.release he, hRecorded, fun j hj => ?_, fun j hj k hk => ?_⟩
  · rw [evalOp_free_eq hType,
      Program.bind_ok (call_of_ok (s := { s with ranges := Mdriver.recorded s op }) hFree)]
    rfl
  · obtain ⟨hNe, hj⟩ := Finset.mem_erase.mp hj
    exact hOthers j hj hNe
  · exact h.apart j (Finset.mem_of_mem_erase hj) k (Finset.mem_of_mem_erase hk)

/-- What `mm_malloc` stops with, the driver stops with. A record `f` makes no such call. -/
theorem evalOp_of_error {σ ε : Type} {L : Linked σ ε} {s : State σ} {x : ε} {tracenum : Nat}
    (hType : op.type ≠ .free) (hMalloc : L.mmMalloc (toSizeT op.size) s.linked = .error x) :
    evalOp L tracenum i op s = .error (.linked x) := by
  have hCall : call (L.mmMalloc (toSizeT op.size)) s = .error (.linked x) := by
    rw [call, hMalloc]
  cases hOf : op.type with
  | free => exact absurd hOf hType
  | alloc =>
      rw [evalOp, hOf]
      simp only
      rw [Program.bind_apply, hCall]
  | realloc =>
      rw [evalOp, hOf]
      simp only
      rw [Program.bind_ok (Program.read_apply s), Program.bind_apply, hCall]

/-- One operation passes, unless `mmap` fails. The state that it leaves follows the session
after the operation. -/
theorem Tracks.step (h : Tracks π s a ids) (K : Kernel) (tracenum i : Nat)
    (hOp : op.Allowed ids) :
    (evalOp (mm K) tracenum i op).Meets s
      (fun passed t => passed = true ∧ t.errors = s.errors ∧
        ∃ π' a', Tracks π' t a' (op.idsAfter ids))
      (fun x => x = .linked .mmapFailed ∧ Refused K s op) := by
  by_cases hType : op.type = .free
  · have hi : op.index ∈ ids := by
      by_contra hNot
      rw [← hOp.index, hType] at hNot
      cases hNot
    obtain ⟨t, a', hRun, hErrors, hTracks⟩ := h.free K tracenum i hType hi
    refine (Program.meets_of_ok hRun).mpr ⟨rfl, hErrors, π, a', ?_⟩
    rwa [TraceOp.idsAfter, hType]
  · have hPos := hOp.size hType
    obtain ⟨hn, hSmall⟩ := toSizeT_pos hPos op.fits.2
    have hMeets := mmMalloc_meets (K := K) h.rep h.inv.wf.toTidy hn (by omega)
    cases hMalloc : mmMalloc K (toSizeT op.size) s.linked with
    | error x =>
        obtain ⟨rfl, -, hPlace⟩ := hMeets.of_error hMalloc
        exact (Program.meets_of_error (evalOp_of_error hType hMalloc)).mpr ⟨rfl, hType, hPlace⟩
    | ok r =>
        obtain ⟨q, u⟩ := r
        obtain ⟨π', hServed⟩ := hMeets.of_ok hMalloc
        cases hOf : op.type with
        | free => exact absurd hOf hType
        | alloc =>
            obtain ⟨t, a', hRun, hErrors, hTracks⟩ :=
              h.alloc tracenum i hOf hPos hMalloc hServed
            refine (Program.meets_of_ok hRun).mpr ⟨rfl, hErrors, π', a', ?_⟩
            rwa [TraceOp.idsAfter, hOf]
        | realloc =>
            have hi : op.index ∈ ids := by
              by_contra hNot
              rw [← hOp.index, hOf] at hNot
              cases hNot
            obtain ⟨t, a', hRun, hErrors, hTracks⟩ :=
              h.realloc tracenum i hOf hi hPos hMalloc hServed
            refine (Program.meets_of_ok hRun).mpr ⟨rfl, hErrors, π', a', ?_⟩
            rwa [TraceOp.idsAfter, hOf]

/-- The operations of a trace pass, unless `mmap` fails on the way. The induction is on the
operations that are left. -/
theorem Tracks.run {ops : List TraceOp} (h : Tracks π s a ids) (K : Kernel) (tracenum i : Nat)
    (hOps : WellFormed ids ops) :
    (evalOps (mm K) tracenum i ops).Meets s
      (fun passed t => passed = true ∧ t.errors = s.errors ∧ ∃ π' a' ids', Tracks π' t a' ids')
      (fun x => x = .linked .mmapFailed ∧ ∃ before op after u, ops = before ++ op :: after ∧
        evalOps (mm K) tracenum i before s = .ok (true, u) ∧ Refused K u op) := by
  induction ops generalizing s i π a ids with
  | nil => exact ⟨rfl, rfl, π, a, ids, h⟩
  | cons op ops ih =>
      obtain ⟨hOp, hRest⟩ := hOps
      have hStep := h.step K tracenum i hOp
      rw [evalOps, Program.meets_bind]
      cases hRun : evalOp (mm K) tracenum i op s with
      | error x =>
          obtain ⟨rfl, hRefused⟩ := hStep.of_error hRun
          exact (Program.meets_of_error hRun).mpr ⟨rfl, [], op, ops, s, rfl, rfl, hRefused⟩
      | ok r =>
          obtain ⟨passed, t⟩ := r
          obtain ⟨rfl, hErrors, π', a', hTracks⟩ := hStep.of_ok hRun
          rw [Program.meets_of_ok hRun, if_pos rfl]
          refine (ih hTracks (i + 1) hRest).mono (fun passed v hAfter => ?_) fun x hx => ?_
          · obtain ⟨hPassed, hSame, hEnd⟩ := hAfter
            exact ⟨hPassed, hSame.trans hErrors, hEnd⟩
          · obtain ⟨hFailed, before, bad, after, u, rfl, hBefore, hRefused⟩ := hx
            refine ⟨hFailed, op :: before, bad, after, u, rfl, ?_, hRefused⟩
            rw [evalOps, Program.bind_ok hRun, if_pos rfl]
            exact hBefore

end Steps

section Traces

variable {K : Kernel} {d : State Process} {ops : List TraceOp}

theorem NothingMapped.memLibRep {s : Process} (h : NothingMapped s) : MemLibRep s [] where
  table := ⟨nofun, fun page _ => h.entries page, none,
    DoublyLinked.LinkRing.empty_iff.mpr ⟨h.list, rfl⟩⟩
  count := h.count
  backed := nofun

/-- The driver's state after `mm_init`. -/
def started (d : State Process) : State Process :=
  { d with linked := { d.linked with freeListHead := 0, pageListHead := 0 }, ranges := [] }

/-- With an empty page map the driver starts with an empty heap, no range and no id. -/
theorem tracks_started (h : NothingMapped d.linked) : Tracks id (started d) Ideal.init ∅ :=
  ⟨Malloc.rep_start h.memLibRep, Ideal.inv_init, rfl, by simp, by simp⟩

/-- Up to the operations, `eval_mm_valid` does nothing that can fail with `mm.c`. -/
theorem evalMmValid_eq (tracenum : Nat) : evalMmValid (mm K) ops tracenum d =
    (do
      let passed ← evalOps (mm K) tracenum 0 ops
      if passed = false then pure 0
      else do
        call (mm K).memReset
        pure 1) (started d) := rfl

/-- The states between the operations are those of `eval_ops` from the start. -/
theorem passes_iff {tracenum : Nat} {s : State Process} : Passes (mm K) tracenum ops d s ↔
    evalOps (mm K) tracenum 0 ops (started d) = .ok (true, s) := Iff.rfl

/-- On every well-formed trace, from an empty page map and with any range list, the
driver returns 1 and reports no error, as long as `mmap` succeeds. -/
theorem eval_mm_valid_accepts (tracenum : Nat) (hMapped : NothingMapped d.linked)
    (hTrace : WellFormed ∅ ops) (hMmap : MmapSucceeds K tracenum ops d) :
    (evalMmValid (mm K) ops tracenum).Returns d fun r t => r = 1 ∧ t.errors = d.errors := by
  have hMeets := (tracks_started hMapped).run K tracenum 0 hTrace
  rw [Program.Returns, Program.meets_congr (evalMmValid_eq tracenum), Program.meets_bind]
  refine hMeets.mono (fun passed s hPassed => ?_) fun x hx => ?_
  · obtain ⟨rfl, hErrors, π, a, ids, hTracks⟩ := hPassed
    obtain ⟨pages, hLib, -⟩ := hTracks.rep.lib
    obtain ⟨maps, os, hReset, -⟩ := memReset_ok hLib.table
    rw [if_neg (by decide), Program.meets_bind,
      Program.meets_of_ok (call_of_ok (x := (mm K).memReset) hReset)]
    exact ⟨rfl, hErrors⟩
  · obtain ⟨-, before, op, after, s, hOps, hBefore, hRefused⟩ := hx
    exact hMmap before op after s hOps (passes_iff.mpr hBefore) hRefused

/-- A driver that starts, with a record in its range list. -/
def freshState : State Process := ⟨Process.fresh, [⟨0, 99⟩], fun _ => 0, fun _ => 0, []⟩

def sampleTrace : List TraceOp :=
  [⟨.alloc, 7, 24, by decide⟩, ⟨.realloc, 7, 5000, by decide⟩, ⟨.free, 7, 0, by decide⟩]

theorem sampleTrace_served :
    regionPlace (Kernel.firstFit 0) (started freshState).linked (regionSize (toSizeT 24)) ≠ none ∧
    (evalOps (mm (Kernel.firstFit 0)) 0 0 (sampleTrace.take 1) (started freshState)).map (fun r =>
      (regionPlace (Kernel.firstFit 0) r.2.linked (regionSize (toSizeT 5000))).isSome) =
        .ok true := by
  decide +kernel

theorem eval_mm_valid_accepts_sample : ∃ t,
    evalMmValid (mm (Kernel.firstFit 0)) sampleTrace 0 freshState = .ok (1, t) ∧ t.errors = [] := by
  have hTrace : WellFormed ∅ sampleTrace := by decide
  have hMmap : MmapSucceeds (Kernel.firstFit 0) 0 sampleTrace freshState := by
    intro before op after s hOps hPasses hRefused
    have hBefore : before = sampleTrace.take before.length := by rw [hOps, List.take_left]
    have hOp : sampleTrace[before.length]? = some op := by
      rw [hOps, List.getElem?_append_right (Nat.le_refl _), Nat.sub_self, List.getElem?_cons_zero]
    obtain ⟨hFree, hPlace⟩ := hRefused
    rw [passes_iff, hBefore] at hPasses
    generalize before.length = n at hPasses hOp
    rcases n with _ | _ | _ | n
    · obtain rfl := Option.some.inj hOp
      obtain ⟨-, rfl⟩ := Prod.mk.inj (Except.ok.inj hPasses)
      exact sampleTrace_served.1 hPlace
    · obtain rfl := Option.some.inj hOp
      have hSome := sampleTrace_served.2
      rw [Nat.zero_add] at hPasses
      rw [hPasses] at hSome
      exact Option.isSome_iff_ne_none.mp (Except.ok.inj hSome) hPlace
    · obtain rfl := Option.some.inj hOp
      exact hFree rfl
    · cases hOp
  -- With the trace hidden, Lean does not run the driver on it.
  generalize sampleTrace = ops at hTrace hMmap ⊢
  obtain ⟨r, t, hRun, rfl, hErrors⟩ := Program.returns_iff.mp
    (eval_mm_valid_accepts (d := freshState) 0 ⟨fun _ => rfl, rfl, rfl⟩ hTrace hMmap)
  exact ⟨t, hRun, hErrors⟩

end Traces

end Mdriver
