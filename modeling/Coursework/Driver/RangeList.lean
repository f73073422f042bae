import Coursework.Driver.Mdriver
import Mathlib.Data.Set.Lattice
import Mathlib.Order.CompletePartialOrder

/-! What the range list of the driver says about the payloads that an allocator
hands out. -/

namespace Mdriver

open Malloc (add64 sub64 pageOffsets)
open Program (bind_eq_ok)

def Range.addrs (r : Range) : Set Nat := {x | r.lo ≤ x ∧ x ≤ r.hi}

/-- A range of addresses with at least one address. -/
def Range.Valid (r : Range) : Prop := r.lo ≤ r.hi ∧ r.hi < 2 ^ 64

/-- The addresses of the `n` bytes from `lo`. -/
def payload (lo n : Nat) : Set Nat := {x | ∃ k < n, x = add64 lo k}

/-- The address of the last of the `n` bytes from `lo`. -/
def payloadEnd (lo n : Nat) : Nat := sub64 (add64 lo n) 1

def NoOverlap (rs : List Range) : Prop := rs.Pairwise fun r q => Disjoint r.addrs q.addrs

/-- Unless a recorded range contains an end of the payload, none starts inside it:
no recorded range lies strictly inside the payload where nothing else gives the
overlap away. -/
def Seen (rs : List Range) (lo n : Nat) : Prop :=
  (∃ r ∈ rs, r.Meets lo (payloadEnd lo n)) ∨ ∀ r ∈ rs, r.lo ∉ payload lo n

/-- A call of the allocator that returned. -/
inductive Event where
  | malloc (p size : Nat)
  | free (p : Nat)
deriving DecidableEq, Repr

/-- The payloads that were handed out and not given back. -/
def live (es : List Event) : List Range :=
  es.foldl (fun rs e =>
    match e with
    | .malloc p n => ⟨p, payloadEnd p n⟩ :: rs
    | .free p => rs.eraseP fun r => r.lo = p) []

/-- At no time did two live payloads share an address. -/
def NeverOverlaps (es : List Event) : Prop := ∀ before, before <+: es → NoOverlap (live before)

section Check

variable {σ ε α : Type} {L : Linked σ ε} {s t : State σ} {lo n tracenum i a : Nat} {size : Int}
  {r : Range}

/-- An address is in a payload when it is less than its size from the start, also past the end
of the address space. -/
theorem mem_payload (hn : n < 2 ^ 64) {x : Nat} :
    x ∈ payload lo n ↔ x < 2 ^ 64 ∧ sub64 x lo < n := by
  unfold payload sub64 add64
  constructor
  · rintro ⟨k, hk, rfl⟩
    omega
  · rintro ⟨hx, hSub⟩
    exact ⟨_, hSub, by omega⟩

theorem mem_addrs {x : Nat} : x ∈ r.addrs ↔ r.lo ≤ x ∧ x ≤ r.hi := Iff.rfl

/-- A payload that does not wrap has the addresses of its record. -/
theorem payload_eq_addrs (hn : 0 < n) (hEnd : lo + n ≤ 2 ^ 64) :
    payload lo n = (⟨lo, payloadEnd lo n⟩ : Range).addrs := by
  ext x
  show x ∈ payload lo n ↔ lo ≤ x ∧ x ≤ payloadEnd lo n
  unfold payload payloadEnd add64 sub64
  constructor
  · rintro ⟨k, hk, rfl⟩
    omega
  · rintro ⟨hLow, hHigh⟩
    exact ⟨x - lo, by omega, by omega⟩

theorem valid_payload (hn : 0 < n) (hEnd : lo + n ≤ 2 ^ 64) :
    (⟨lo, payloadEnd lo n⟩ : Range).Valid := by
  simp only [Range.Valid, payloadEnd, add64, sub64]
  omega

/-- A range that contains no end of the payload shares an address with it only if
it starts inside. -/
theorem disjoint_of_start (hLo : lo < 2 ^ 64) (hn : n < 2 ^ 64) (hValid : r.Valid)
    (hMeets : ¬r.Meets lo (payloadEnd lo n)) (hStart : r.lo ∉ payload lo n) :
    Disjoint (payload lo n) r.addrs := by
  rw [Set.disjoint_left]
  intro x hx hIn
  rw [mem_payload hn] at hx hStart
  unfold Range.Valid at hValid
  unfold Range.Meets payloadEnd at hMeets
  rw [mem_addrs] at hIn
  unfold sub64 at *
  omega

theorem toSizeT_pos (hPos : 0 < size) (hInt : size < 2 ^ 31) :
    0 < toSizeT size ∧ toSizeT size < 2 ^ 31 := by
  unfold toSizeT
  omega

/-- A call that returns has changed what the allocator sees of the process only. The lists of
the driver are not in that part. -/
theorem call_ok {x : Program σ ε α} {b : α} :
    call x s = .ok (b, t) ↔ ∃ u, x s.linked = .ok (b, u) ∧ t = { s with linked := u } := by
  unfold call
  cases x s.linked with
  | error e => simp
  | ok p =>
      obtain ⟨c, u⟩ := p
      simp [eq_comm]

theorem call_of_ok {x : Program σ ε α} {b : α} {u : σ} (h : x s.linked = .ok (b, u)) :
    call x s = .ok (b, { s with linked := u }) := call_ok.mpr ⟨u, h, rfl⟩

/-- Every address of the payload is on a page that `pagemap.c` knows. -/
def PageMapped (L : Linked σ ε) (u : σ) (lo n : Nat) : Prop :=
  ∀ x ∈ payload lo n, L.pagemapIsMapped x u = .ok (true, u)

/-- The loop over the pages of a payload passes when each of them is mapped, and leaves the
state as it is. -/
theorem pagesMapped_ok {is : List Nat} (hMapped : ∀ i ∈ is,
    L.pagemapIsMapped (add64 lo i) s.linked = .ok (true, s.linked)) :
    pagesMapped L lo is s = .ok (true, s) := by
  induction is with
  | nil => rfl
  | cons i is ih =>
      rw [pagesMapped, Program.bind_ok (call_of_ok (hMapped i (by simp))), if_pos rfl]
      exact ih fun j hj => hMapped j (by simp [hj])

theorem lt_of_mem_pageOffsets {i : Nat} (h : i ∈ pageOffsets n) : i < n := by
  obtain ⟨k, hk, rfl⟩ := List.mem_map.mp h
  rw [List.mem_range, Malloc.apageSize_eq] at hk
  rw [Malloc.apageSize_eq]
  omega

/-- On a mapped payload at an aligned address only the range list matters. -/
theorem addRange_eq (hPos : 0 < size) (hInt : size < 2 ^ 31) (hAligned : lo % alignment = 0)
    (hMapped : PageMapped L s.linked lo (toSizeT size)) :
    addRange L lo size tracenum i s =
      match s.ranges.find? fun r => r.Meets lo (payloadEnd lo (toSizeT size)) with
      | some r => .ok (0, { s with errors := s.errors ++
          [⟨tracenum, i, .overlaps lo (payloadEnd lo (toSizeT size)) r.lo r.hi⟩] })
      | none => .ok (1, { s with ranges := ⟨lo, payloadEnd lo (toSizeT size)⟩ :: s.ranges }) := by
  obtain ⟨hn, hBound⟩ := toSizeT_pos hPos hInt
  have hPages : pagesMapped L lo (pageOffsets (toSizeT size)) s = .ok (true, s) :=
    pagesMapped_ok fun j hj => hMapped _ ⟨j, lt_of_mem_pageOffsets hj, rfl⟩
  have hLast := call_of_ok (hMapped (sub64 (add64 lo (toSizeT size)) 1)
    ⟨toSizeT size - 1, by omega, by unfold add64 sub64; omega⟩)
  rw [addRange, if_neg (not_not.mpr hPos), if_neg (not_not.mpr hAligned), Program.bind_ok hPages,
    if_neg (by decide), Program.bind_ok hLast, if_neg (by decide),
    Program.bind_ok (Program.read_apply s)]
  unfold payloadEnd
  cases s.ranges.find? fun r => r.Meets lo (sub64 (add64 lo (toSizeT size)) 1) <;> rfl

/-- A payload that is added contains an end of no recorded range. A range around the whole
payload has neither end in it, and is not found. -/
theorem addRange_ok_iff (hPos : 0 < size) (hInt : size < 2 ^ 31) (hAligned : lo % alignment = 0)
    (hMapped : PageMapped L s.linked lo (toSizeT size)) :
    (∃ t, addRange L lo size tracenum i s = .ok (1, t)) ↔
      ∀ r ∈ s.ranges, ¬r.Meets lo (payloadEnd lo (toSizeT size)) := by
  rw [addRange_eq hPos hInt hAligned hMapped]
  cases hFind : s.ranges.find? fun r => r.Meets lo (payloadEnd lo (toSizeT size)) with
  | none =>
      have hNone := List.find?_eq_none.mp hFind
      exact ⟨fun _ r hr hMeets => hNone r hr (decide_eq_true hMeets), fun _ => ⟨_, rfl⟩⟩
  | some r =>
      have hMeets := List.find?_some hFind
      rw [decide_eq_true_eq] at hMeets
      refine ⟨?_, fun hNone => absurd hMeets (hNone r (List.mem_of_find?_eq_some hFind))⟩
      rintro ⟨t, hRun⟩
      cases hRun

/-- The loop over the pages leaves the list of ranges as it is, whatever it finds. -/
theorem pagesMapped_keeps {is : List Nat} {b : Bool} (h : pagesMapped L lo is s = .ok (b, t)) :
    t.ranges = s.ranges := by
  induction is generalizing s with
  | nil =>
      obtain ⟨-, rfl⟩ := Prod.mk.inj (Except.ok.inj h)
      rfl
  | cons j is ih =>
      rw [pagesMapped, bind_eq_ok] at h
      obtain ⟨mapped, v, hCall, hRest⟩ := h
      obtain ⟨u, -, rfl⟩ := call_ok.mp hCall
      cases mapped with
      | true => exact (ih hRest :)
      | false =>
          obtain ⟨-, rfl⟩ := Prod.mk.inj (Except.ok.inj hRest)
          rfl

/-- What a call that added the payload has checked and done. -/
theorem addRange_added (h : addRange L lo size tracenum i s = .ok (a, t)) (ha : a ≠ 0) :
    0 < size ∧ (∀ r ∈ s.ranges, ¬r.Meets lo (payloadEnd lo (toSizeT size))) ∧
      t.ranges = ⟨lo, payloadEnd lo (toSizeT size)⟩ :: s.ranges := by
  have hZero : ∀ {msg : Message} {u : State σ}, (mallocError tracenum i msg >>= fun _ => pure 0) u =
      (.ok (a, t) : Except (Halt ε) (Nat × State σ)) → False := fun hRun =>
    ha (Prod.mk.inj (Except.ok.inj hRun)).1.symm
  rw [addRange] at h
  split at h
  · cases h
  next hPos =>
  split at h
  · exact (hZero h).elim
  obtain ⟨inside, u, hPages, h⟩ := bind_eq_ok.mp h
  split at h
  · exact (hZero h).elim
  obtain ⟨last, v, hCall, h⟩ := bind_eq_ok.mp h
  split at h
  · exact (hZero h).elim
  obtain ⟨w, -, rfl⟩ := call_ok.mp hCall
  rw [Program.bind_ok (Program.read_apply _)] at h
  replace hPages := pagesMapped_keeps hPages
  cases hFind : u.ranges.find? fun r => r.Meets lo (payloadEnd lo (toSizeT size)) with
  | some r =>
      rw [payloadEnd] at hFind
      simp only [hFind] at h
      exact (hZero h).elim
  | none =>
      have hNone := List.find?_eq_none.mp hFind
      rw [payloadEnd] at hFind
      simp only [hFind] at h
      obtain ⟨-, rfl⟩ := Prod.mk.inj (Except.ok.inj h)
      refine ⟨not_not.mp hPos, fun r hr hMeets => ?_, ?_⟩
      · exact hNone r (hPages ▸ hr) (decide_eq_true hMeets)
      · rw [← hPages]
        rfl

end Check

section Steps

variable {σ ε : Type} {L : Linked σ ε} {s t : State σ} {op : TraceOp} {es : List Event}
  {tracenum i : Nat} {d : State σ} {ops : List TraceOp}

theorem live_concat_malloc (es : List Event) (p n : Nat) :
    live (es ++ [.malloc p n]) = ⟨p, payloadEnd p n⟩ :: live es := by
  rw [live, live, List.foldl_append]
  rfl

theorem live_concat_free (es : List Event) (p : Nat) :
    live (es ++ [.free p]) = (live es).eraseP fun r => r.lo = p := by
  rw [live, live, List.foldl_append]
  rfl

/-- Payloads that never overlapped and do not overlap after one more event have never
overlapped. -/
theorem NeverOverlaps.concat {e : Event} (h : NeverOverlaps es)
    (hLast : NoOverlap (live (es ++ [e]))) : NeverOverlaps (es ++ [e]) := by
  intro before hBefore
  rcases List.prefix_concat_iff.mp hBefore with rfl | hOld
  · exact hLast
  · exact h before hOld

/-- The records that the payload of an operation is compared with. -/
def recorded (s : State σ) (op : TraceOp) : List Range :=
  if op.type = .alloc then s.ranges else s.ranges.eraseP fun r => r.lo = s.blocks op.index

/-- The calls of the allocator that an operation makes. -/
def TraceOp.events (L : Linked σ ε) (s : State σ) (op : TraceOp) : List Event :=
  (if op.type = .free then []
    else match L.mmMalloc (toSizeT op.size) s.linked with
      | .ok (p, _) => [.malloc p (toSizeT op.size)]
      | .error _ => []) ++
    if op.type = .alloc then [] else [.free (s.blocks op.index)]

/-- The events of `a` and of `r`: the new block is there before the old one goes. -/
theorem TraceOp.events_malloc {p : Nat} {u : σ} (hType : op.type ≠ .free)
    (hMalloc : L.mmMalloc (toSizeT op.size) s.linked = .ok (p, u)) :
    op.events L s = .malloc p (toSizeT op.size) ::
      if op.type = .alloc then [] else [.free (s.blocks op.index)] := by
  rw [events, if_neg hType, hMalloc, List.singleton_append]

/-- If the payload that the allocator hands out for an operation overlaps a live
one, an end of it lies in a recorded range. -/
structure Payload (s : State σ) (op : TraceOp) (p : Nat) : Prop where
  bound : p + toSizeT op.size ≤ 2 ^ 64
  seen : Seen (recorded s op) p (toSizeT op.size)
  old : op.type = .realloc → ∀ r ∈ s.ranges, r.lo = s.blocks op.index →
    Disjoint (payload p (toSizeT op.size)) r.addrs

/-- The condition on an operation. -/
def Checked (L : Linked σ ε) (s : State σ) (op : TraceOp) : Prop :=
  op.type ≠ .free → ∀ p u, L.mmMalloc (toSizeT op.size) s.linked = .ok (p, u) → Payload s op p

/-- The runs of the driver from `d` in which every operation passes its checks. -/
inductive Runs (L : Linked σ ε) (tracenum : Nat) (d : State σ) :
    List TraceOp → List Event → State σ → Prop where
  | start {s : State σ} {r : Int} : call L.mmInit { d with ranges := [] } = .ok (r, s) → 0 ≤ r →
      Runs L tracenum d [] [] s
  | op {ops : List TraceOp} {es : List Event} {s t : State σ} {op : TraceOp} :
      Runs L tracenum d ops es s → Checked L s op →
      evalOp L tracenum ops.length op s = .ok (true, t) →
      Runs L tracenum d (ops ++ [op]) (es ++ op.events L s) t

/-- The record is removed before the block is freed. -/
theorem evalOp_free_eq (hType : op.type = .free) : evalOp L tracenum i op s =
    (call (L.mmFree (s.blocks op.index)) >>= fun _ => pure true)
      { s with ranges := recorded s op } := by
  rw [recorded, if_neg (by rw [hType]; decide), evalOp, hType]
  rfl

/-- The case of `a` with an answer: what is left is to enter the range, to fill the block and
to remember it. -/
theorem evalOp_alloc_eq {p : Nat} {u : σ} (hType : op.type = .alloc) (hp : p ≠ 0)
    (hMalloc : L.mmMalloc (toSizeT op.size) s.linked = .ok (p, u)) : evalOp L tracenum i op s =
      (do
        let added ← addRange L p op.size tracenum i
        if added = 0 then pure false
        else do
          call (L.memset p (op.index &&& 0xFF) (toSizeT op.size))
          remember op.index p (toSizeT op.size)
          pure true) { s with linked := u, ranges := recorded s op } := by
  rw [recorded, if_pos hType, evalOp, hType]
  simp only
  rw [Program.bind_ok (call_of_ok hMalloc), if_neg hp]

/-- The old record is removed before the new payload is checked. -/
theorem evalOp_realloc_eq {p : Nat} {u : σ} (hType : op.type = .realloc) (hp : p ≠ 0)
    (hMalloc : L.mmMalloc (toSizeT op.size) s.linked = .ok (p, u)) : evalOp L tracenum i op s =
      (do
        let added ← addRange L p op.size tracenum i
        if added = 0 then pure false
        else do
          call (L.memset p (op.index &&& 0xFF) (toSizeT op.size))
          call (L.mmFree (s.blocks op.index))
          remember op.index p (toSizeT op.size)
          pure true) { s with linked := u, ranges := recorded s op } := by
  rw [recorded, if_neg (by rw [hType]; decide), evalOp, hType]
  simp only
  rw [Program.bind_ok (Program.read_apply s)]
  rw [Program.bind_ok (call_of_ok hMalloc), if_neg hp]
  rfl

theorem call_keeps {α : Type} {x : Program σ ε α} {a : α} (h : call x s = .ok (a, t)) :
    t.ranges = s.ranges := by
  obtain ⟨u, -, rfl⟩ := call_ok.mp h
  rfl

/-- An operation that passes leaves the records that it compared with, after a new one
if it hands out a payload. -/
theorem evalOp_free (hType : op.type = .free) (h : evalOp L tracenum i op s = .ok (true, t)) :
    t.ranges = recorded s op := by
  rw [evalOp_free_eq hType, bind_eq_ok] at h
  obtain ⟨_, v, hFree, hPure⟩ := h
  obtain ⟨-, rfl⟩ := Prod.mk.inj (Except.ok.inj hPure)
  exact (call_keeps hFree :)

/-- A check that has reported an error has not passed. -/
theorem not_passed {tracenum i : Nat} {msg : Message} (h : (mallocError tracenum i msg >>= fun _ =>
    pure false) s = (.ok (true, t) : Except (Halt ε) (Bool × State σ))) : False :=
  Bool.false_ne_true (Prod.mk.inj (Except.ok.inj h)).1

/-- An operation that passes was handed a payload. A null pointer ends it before a range is
looked at. -/
theorem evalOp_answered (hType : op.type ≠ .free) (h : evalOp L tracenum i op s = .ok (true, t)) :
    ∃ p u, L.mmMalloc (toSizeT op.size) s.linked = .ok (p, u) ∧ p ≠ 0 := by
  rw [evalOp] at h
  cases hOf : op.type with
  | free => exact absurd hOf hType
  | alloc =>
      simp only [hOf] at h
      obtain ⟨p, v, hCall, h⟩ := bind_eq_ok.mp h
      obtain ⟨u, hMalloc, rfl⟩ := call_ok.mp hCall
      refine ⟨p, u, hMalloc, fun hp => ?_⟩
      rw [if_pos hp] at h
      exact not_passed h
  | realloc =>
      simp only [hOf] at h
      rw [Program.bind_ok (Program.read_apply s)] at h
      obtain ⟨p, v, hCall, h⟩ := bind_eq_ok.mp h
      obtain ⟨u, hMalloc, rfl⟩ := call_ok.mp hCall
      refine ⟨p, u, hMalloc, fun hp => ?_⟩
      rw [if_pos hp] at h
      exact not_passed h

/-- The range list after a new payload has passed: what it was compared with does not
contain its ends. -/
theorem evalOp_malloc (hType : op.type ≠ .free) (h : evalOp L tracenum i op s = .ok (true, t)) :
    ∃ p u, L.mmMalloc (toSizeT op.size) s.linked = .ok (p, u) ∧ 0 < op.size ∧
      (∀ r ∈ recorded s op, ¬r.Meets p (payloadEnd p (toSizeT op.size))) ∧
      t.ranges = ⟨p, payloadEnd p (toSizeT op.size)⟩ :: recorded s op := by
  obtain ⟨p, u, hMalloc, hp⟩ := evalOp_answered hType h
  have hAdded : ∃ a v, addRange L p op.size tracenum i
      { s with linked := u, ranges := recorded s op } = .ok (a, v) ∧ a ≠ 0 ∧
      t.ranges = v.ranges := by
    cases hOf : op.type with
    | free => exact absurd hOf hType
    | alloc =>
        rw [evalOp_alloc_eq hOf hp hMalloc, bind_eq_ok] at h
        obtain ⟨a, v, hAdd, h⟩ := h
        split at h
        · exact absurd (Prod.mk.inj (Except.ok.inj h)).1 Bool.false_ne_true
        next ha =>
        obtain ⟨_, w, hMemset, h⟩ := bind_eq_ok.mp h
        obtain ⟨-, rfl⟩ := Prod.mk.inj (Except.ok.inj h)
        exact ⟨a, v, hAdd, ha, (call_keeps hMemset :)⟩
    | realloc =>
        rw [evalOp_realloc_eq hOf hp hMalloc, bind_eq_ok] at h
        obtain ⟨a, v, hAdd, h⟩ := h
        split at h
        · exact absurd (Prod.mk.inj (Except.ok.inj h)).1 Bool.false_ne_true
        next ha =>
        obtain ⟨_, w, hMemset, h⟩ := bind_eq_ok.mp h
        obtain ⟨_, x, hFree, h⟩ := bind_eq_ok.mp h
        obtain ⟨-, rfl⟩ := Prod.mk.inj (Except.ok.inj h)
        exact ⟨a, v, hAdd, ha, ((call_keeps hFree).trans (call_keeps hMemset) :)⟩
  obtain ⟨a, v, hAdd, ha, hRanges⟩ := hAdded
  obtain ⟨hPos, hEnds, hNew⟩ := addRange_added hAdd ha
  exact ⟨p, u, hMalloc, hPos, hEnds, hRanges.trans hNew⟩

/-- What the range list says about the payloads that are live. -/
structure Sound (s : State σ) (es : List Event) : Prop where
  valid : ∀ r ∈ s.ranges, r.Valid
  apart : NoOverlap s.ranges
  listed : (live es).Sublist s.ranges
  never : NeverOverlaps es

/-- What is on the list when the new payload is entered was there before the operation. For `r`
it is less, as the old record is gone by then. -/
theorem recorded_sublist (s : State σ) (op : TraceOp) : (recorded s op).Sublist s.ranges := by
  unfold recorded
  split
  · exact List.Sublist.refl _
  · exact List.eraseP_sublist

/-- A payload whose ends lie in no record that it is compared with is disjoint from
these records. -/
theorem Payload.disjoint {p : Nat} (h : Payload s op p) (hPos : 0 < op.size)
    (hValid : ∀ r ∈ s.ranges, r.Valid)
    (hEnds : ∀ r ∈ recorded s op, ¬r.Meets p (payloadEnd p (toSizeT op.size))) :
    ∀ r ∈ recorded s op, Disjoint (payload p (toSizeT op.size)) r.addrs := by
  intro r hr
  obtain ⟨hn, hSmall⟩ := toSizeT_pos hPos op.fits.2
  have hBound := h.bound
  refine disjoint_of_start (by omega) (by omega) (hValid r ((recorded_sublist s op).subset hr))
    (hEnds r hr) ?_
  rcases h.seen with ⟨q, hq, hMeets⟩ | hStart
  · exact absurd hMeets (hEnds q hq)
  · exact hStart r hr

/-- The records after an operation. -/
theorem Sound.ranges_step (h : Sound s es) (hChecked : Checked L s op)
    (hRun : evalOp L tracenum i op s = .ok (true, t)) :
    (∀ r ∈ t.ranges, r.Valid) ∧ NoOverlap t.ranges := by
  have hValid : ∀ r ∈ recorded s op, r.Valid := fun r hr =>
    h.valid r ((recorded_sublist s op).subset hr)
  have hApart : NoOverlap (recorded s op) := h.apart.sublist (recorded_sublist s op)
  by_cases hType : op.type = .free
  · rw [evalOp_free hType hRun]
    exact ⟨hValid, hApart⟩
  · obtain ⟨p, u, hMalloc, hPos, hEnds, hRanges⟩ := evalOp_malloc hType hRun
    have hPayload := hChecked hType p u hMalloc
    have hDisjoint := hPayload.disjoint hPos h.valid hEnds
    have hn := (toSizeT_pos hPos op.fits.2).1
    rw [hRanges]
    refine ⟨List.forall_mem_cons.mpr ⟨valid_payload hn hPayload.bound, hValid⟩,
      List.pairwise_cons.mpr ⟨fun r hr => ?_, hApart⟩⟩
    rw [← payload_eq_addrs hn hPayload.bound]
    exact hDisjoint r hr

/-- A payload is disjoint from all records, also from the one that its operation
removes. -/
theorem Payload.disjoint_all {p : Nat} (h : Payload s op p) (hType : op.type ≠ .free)
    (hOld : ∀ r ∈ recorded s op, Disjoint (payload p (toSizeT op.size)) r.addrs) :
    ∀ r ∈ s.ranges, Disjoint (payload p (toSizeT op.size)) r.addrs := by
  intro r hr
  unfold recorded at hOld
  split at hOld
  · exact hOld r hr
  next hNot =>
  by_cases hLo : r.lo = s.blocks op.index
  · have hRealloc : op.type = .realloc := by
      cases hOf : op.type with
      | alloc => exact absurd hOf hNot
      | free => exact absurd hOf hType
      | realloc => rfl
    exact h.old hRealloc r hr hLo
  · exact hOld r ((List.mem_eraseP_of_neg (by simpa using hLo)).mpr hr)

/-- What is live stays recorded when the block that `realloc` replaces is freed. The record
that goes is the one of that block. -/
theorem Sound.listed_realloc (h : Sound s es) {p n : Nat} (hn : 0 < n) (hp : p < 2 ^ 64)
    (hOld : ∀ r ∈ s.ranges, r.lo = p → Disjoint (payload p n) r.addrs) (q : Nat) :
    ((⟨p, payloadEnd p n⟩ :: live es).eraseP fun r => r.lo = q).Sublist
      (⟨p, payloadEnd p n⟩ :: s.ranges.eraseP fun r => r.lo = q) := by
  by_cases hEq : p = q
  · subst hEq
    rw [List.eraseP_cons_of_pos (by simp), List.eraseP_of_forall_not]
    · exact h.listed.cons _
    · -- No record starts where the new payload does.
      intro r hr hLo
      rw [decide_eq_true_eq] at hLo
      refine Set.disjoint_left.mp (hOld r hr hLo) ⟨0, hn, ?_⟩ ⟨Nat.le_of_eq hLo, ?_⟩
      · unfold add64
        omega
      · exact hLo ▸ (h.valid r hr).1
  · rw [List.eraseP_cons_of_neg (by simpa using hEq)]
    exact h.listed.eraseP.cons_cons _

/-- Every operation that meets the condition and passes keeps the range list sound. -/
theorem Sound.step (h : Sound s es) (hChecked : Checked L s op)
    (hRun : evalOp L tracenum i op s = .ok (true, t)) : Sound t (es ++ op.events L s) := by
  obtain ⟨hValid, hApart⟩ := h.ranges_step hChecked hRun
  suffices hLists : (live (es ++ op.events L s)).Sublist t.ranges ∧
      NeverOverlaps (es ++ op.events L s) from ⟨hValid, hApart, hLists.1, hLists.2⟩
  by_cases hType : op.type = .free
  · have hLive := h.listed.eraseP (p := fun r => r.lo = s.blocks op.index)
    have hEvents : op.events L s = [.free (s.blocks op.index)] := by
      rw [TraceOp.events, if_pos hType, if_neg (by rw [hType]; decide), List.nil_append]
    have hRanges := evalOp_free hType hRun
    rw [recorded, if_neg (by rw [hType]; decide)] at hRanges
    rw [hEvents, live_concat_free, hRanges]
    rw [hRanges] at hApart
    exact ⟨hLive, h.never.concat (by rw [live_concat_free]; exact hApart.sublist hLive)⟩
  · obtain ⟨p, u, hMalloc, hPos, hEnds, hRanges⟩ := evalOp_malloc hType hRun
    have hPayload := hChecked hType p u hMalloc
    have hBound := hPayload.bound
    have hn := (toSizeT_pos hPos op.fits.2).1
    have hDisjoint := hPayload.disjoint_all hType (hPayload.disjoint hPos h.valid hEnds)
    -- The new payload and the one that it may replace are live at the same time.
    have hNew : NoOverlap (⟨p, payloadEnd p (toSizeT op.size)⟩ :: live es) := by
      refine List.pairwise_cons.mpr ⟨fun r hr => ?_, h.apart.sublist h.listed⟩
      rw [← payload_eq_addrs hn hBound]
      exact hDisjoint r (h.listed.subset hr)
    have hNever := h.never.concat (e := .malloc p (toSizeT op.size))
      (by rw [live_concat_malloc]; exact hNew)
    rw [TraceOp.events_malloc hType hMalloc, hRanges, recorded]
    split
    · rw [live_concat_malloc]
      exact ⟨h.listed.cons_cons _, hNever⟩
    · have hLive := h.listed_realloc hn (by omega) (fun r hr _ => hDisjoint r hr)
        (s.blocks op.index)
      rw [List.append_cons, live_concat_free, live_concat_malloc]
      refine ⟨hLive, hNever.concat ?_⟩
      rw [live_concat_free, live_concat_malloc]
      exact hNew.sublist List.eraseP_sublist

theorem Sound.start (s : State σ) : Sound { s with ranges := [] } [] := by
  refine ⟨by simp, List.Pairwise.nil, List.Sublist.refl _, fun before hBefore => ?_⟩
  rw [List.prefix_nil.mp hBefore]
  exact List.Pairwise.nil

/-- Run lemma: the list records the live payloads as long as every step meets the condition.
The induction is on the run. -/
theorem Runs.sound (h : Runs L tracenum d ops es s) : Sound s es := by
  induction h with
  | start hInit _ =>
      obtain ⟨u, -, rfl⟩ := call_ok.mp hInit
      exact Sound.start { d with linked := u }
  | op _ hChecked hRun ih => exact ih.step hChecked hRun

/-- If all operations pass and meet the condition, the loop over them is a run. Its states are
those between the rounds. -/
theorem Runs.evalOps (h : Runs L tracenum d ops es s) {rest : List TraceOp}
    (hRun : evalOps L tracenum ops.length rest s = .ok (true, t))
    (hChecked : ∀ before op after es u, ops ++ rest = before ++ op :: after →
      Runs L tracenum d before es u → Checked L u op) :
    ∃ es, Runs L tracenum d (ops ++ rest) es t := by
  induction rest generalizing ops es s with
  | nil =>
      obtain ⟨-, rfl⟩ := Prod.mk.inj (Except.ok.inj hRun)
      exact ⟨es, by rwa [List.append_nil]⟩
  | cons op rest ih =>
      rw [Mdriver.evalOps] at hRun
      obtain ⟨passed, u, hOp, hRest⟩ := bind_eq_ok.mp hRun
      cases passed with
      | false => exact absurd (Prod.mk.inj (Except.ok.inj hRest)).1 Bool.false_ne_true
      | true =>
          have hNext := h.op (hChecked ops op rest es s rfl h) hOp
          rw [List.append_cons] at hChecked ⊢
          refine ih hNext ?_ hChecked
          rw [List.length_append]
          exact hRest

/-- A trace that the driver accepts is a run, unless an operation does not meet the
condition. -/
theorem runs_of_accepted (hRun : evalMmValid L ops tracenum d = .ok (1, t))
    (hChecked : ∀ before op after es s, ops = before ++ op :: after →
      Runs L tracenum d before es s → Checked L s op) :
    ∃ es s, Runs L tracenum d ops es s ∧ s.ranges = t.ranges := by
  rw [evalMmValid, clearRanges, Program.bind_ok (Program.modify_apply _ d)] at hRun
  obtain ⟨r, u, hInit, hRun⟩ := bind_eq_ok.mp hRun
  split at hRun
  · cases (Prod.mk.inj (Except.ok.inj hRun)).1
  next hSign =>
  obtain ⟨passed, v, hOps, hRun⟩ := bind_eq_ok.mp hRun
  split at hRun
  · cases (Prod.mk.inj (Except.ok.inj hRun)).1
  next hPassed =>
  rw [Bool.not_eq_false] at hPassed
  subst hPassed
  obtain ⟨_, w, hReset, hRun⟩ := bind_eq_ok.mp hRun
  obtain ⟨-, rfl⟩ := Prod.mk.inj (Except.ok.inj hRun)
  obtain ⟨es, hRuns⟩ := (Runs.start hInit (Int.not_lt.mp hSign)).evalOps hOps hChecked
  exact ⟨es, v, hRuns, (call_keeps hReset).symm⟩

/-- One call of `add_range` lets no overlap through exactly if it can see it, and in
runs whose operations meet the condition the range list never overlaps and neither do
the payloads that are live. Unless an operation does not meet the condition, a trace that
is accepted is such a run. One call needs of the records only that each is a range; that
they do not overlap each other, as they never do in such runs, is asked and not used. -/
theorem overlap_check_sound_iff (L : Linked σ ε) (tracenum : Nat) :
    (∀ (s : State σ) (lo i : Nat) (size : Int), (∀ r ∈ s.ranges, r.Valid) → NoOverlap s.ranges →
      lo < 2 ^ 64 → lo % alignment = 0 → 0 < size → size < 2 ^ 31 →
      PageMapped L s.linked lo (toSizeT size) →
      (((∃ t, addRange L lo size tracenum i s = .ok (1, t)) →
        ∀ r ∈ s.ranges, Disjoint (payload lo (toSizeT size)) r.addrs) ↔
          Seen s.ranges lo (toSizeT size))) ∧
    (∀ d ops es s, Runs L tracenum d ops es s → NoOverlap s.ranges ∧ NeverOverlaps es) ∧
    ∀ d ops t, evalMmValid L ops tracenum d = .ok (1, t) →
      (∀ before op after es s, ops = before ++ op :: after →
        Runs L tracenum d before es s → Checked L s op) →
      ∃ es s, Runs L tracenum d ops es s ∧ s.ranges = t.ranges := by
  refine ⟨fun s lo i size hValid _ hLo hAligned hPos hInt hMapped => ?_,
    fun d ops es s hRuns => ⟨hRuns.sound.apart, hRuns.sound.never⟩,
    fun d ops t hRun hChecked => runs_of_accepted hRun hChecked⟩
  obtain ⟨hn, hBound⟩ := toSizeT_pos hPos hInt
  rw [addRange_ok_iff hPos hInt hAligned hMapped]
  constructor
  · intro hSound
    by_cases hEnds : ∃ r ∈ s.ranges, r.Meets lo (payloadEnd lo (toSizeT size))
    · exact Or.inl hEnds
    · refine Or.inr fun r hr hStart => ?_
      have hDisjoint := hSound (fun q hq hMeets => hEnds ⟨q, hq, hMeets⟩) r hr
      exact Set.disjoint_left.mp hDisjoint hStart ⟨Nat.le_refl _, (hValid r hr).1⟩
  · rintro (⟨q, hq, hMeets⟩ | hStart) hEnds r hr
    · exact absurd hMeets (hEnds q hq)
    · exact disjoint_of_start hLo (by omega) (hValid r hr) (hEnds r hr) (hStart r hr)

end Steps

section Scripted

/-- An allocator that hands out the addresses of a list, all of them on mapped pages. -/
def scripted : Linked (List Nat) Unit where
  mmInit := pure 0
  mmMalloc _ := fun answers => .ok (answers.headD 0, answers.tail)
  mmFree _ := pure ()
  pagemapIsMapped _ := pure true
  memset _ _ _ := pure ()
  memReset := pure ()

def scriptedState (answers : List Nat) (ranges : List Range) : State (List Nat) :=
  ⟨answers, ranges, fun _ => 0, fun _ => 0, []⟩

theorem overlap_check_sound_iff_sample : ∃ es s,
    Runs scripted 0 (scriptedState [8192, 8208] [])
      [⟨.alloc, 0, 16, by decide⟩, ⟨.alloc, 1, 32, by decide⟩] es s ∧
    NoOverlap s.ranges ∧ NeverOverlaps es ∧
    ((∃ t, addRange scripted 8208 32 0 1 (scriptedState [] [⟨8192, 8207⟩]) = .ok (1, t)) →
      ∀ r ∈ [(⟨8192, 8207⟩ : Range)], Disjoint (payload 8208 32) r.addrs) := by
  obtain ⟨hCall, hRuns, -⟩ := overlap_check_sound_iff scripted 0
  have hStart : Runs scripted 0 (scriptedState [8192, 8208] []) [] []
      (scriptedState [8192, 8208] []) := .start (r := 0) rfl (Int.le_refl 0)
  have hSeen : Seen [⟨8192, 8207⟩] 8208 32 := by
    refine Or.inr fun r hr => ?_
    obtain rfl := List.mem_singleton.mp hr
    rw [mem_payload (by decide)]
    decide
  have hFirst : Checked scripted (scriptedState [8192, 8208] [])
      ⟨.alloc, 0, 16, by decide⟩ := fun _ p u hMalloc => by
    obtain ⟨rfl, -⟩ := Prod.mk.inj (Except.ok.inj hMalloc)
    exact ⟨by decide, Or.inr (by simp [recorded, scriptedState]), nofun⟩
  have hOne := hStart.op hFirst rfl
  have hSecond : ∀ s : State (List Nat), s.linked = [8208] → s.ranges = [⟨8192, 8207⟩] →
      Checked scripted s ⟨.alloc, 1, 32, by decide⟩ := fun s hAnswers hRanges _ p u hMalloc => by
    obtain ⟨rfl, -⟩ := Prod.mk.inj (Except.ok.inj hMalloc)
    rw [hAnswers]
    exact ⟨by decide, by rw [recorded, if_pos rfl, hRanges]; exact hSeen, nofun⟩
  have hTwo := hOne.op (hSecond _ rfl rfl) rfl
  obtain ⟨hApart, hNever⟩ := hRuns _ _ _ _ hTwo
  refine ⟨_, _, hTwo, hApart, hNever, ?_⟩
  refine (hCall (scriptedState [] [⟨8192, 8207⟩]) 8208 1 32 ?_ (List.pairwise_singleton _ _)
    (by decide) (by decide) (by decide) (by decide) fun _ _ => rfl).mpr hSeen
  intro r hr
  obtain rfl := List.mem_singleton.mp hr
  exact ⟨by decide, by decide⟩

/-- A payload around a recorded range is added, and a block that overlaps the one it
replaces is accepted. -/
theorem overlap_missed :
    NoOverlap [⟨8208, 8223⟩] ∧ PageMapped scripted [] 8192 48 ∧ 8192 % alignment = 0 ∧
    (addRange scripted 8192 48 0 1 (scriptedState [] [⟨8208, 8223⟩])).map Prod.fst = .ok 1 ∧
    ¬Disjoint (payload 8192 48) (⟨8208, 8223⟩ : Range).addrs ∧
    (evalMmValid scripted [⟨.alloc, 0, 16, by decide⟩, ⟨.alloc, 1, 48, by decide⟩] 0
      (scriptedState [8208, 8192] [])).map (fun r => (r.1, r.2.ranges)) =
        .ok (1, [⟨8192, 8239⟩, ⟨8208, 8223⟩]) ∧
    (evalMmValid scripted [⟨.alloc, 0, 16, by decide⟩, ⟨.realloc, 0, 32, by decide⟩] 0
      (scriptedState [8208, 8208] [])).map (fun r => (r.1, r.2.ranges)) =
        .ok (1, [⟨8208, 8239⟩]) := by
  refine ⟨List.pairwise_singleton _ _, fun _ _ => rfl, by decide, by decide +kernel, ?_,
    by decide +kernel, by decide +kernel⟩
  rw [Set.not_disjoint_iff]
  exact ⟨8208, ⟨16, by decide, by decide⟩, by decide, by decide⟩

end Scripted

end Mdriver
