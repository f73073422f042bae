import Coursework.Malloc.MemLib
import Mathlib.Algebra.Group.Int.Defs

/-! `mdriver.c`: the check of an allocator on a trace. The driver is linked with
an allocator, which may be any program. -/

namespace Mdriver

open Malloc (add64 sub64 pageOffsets)
open Program (read modify stop)

/-- `ALIGNMENT` of `config.h`. -/
def alignment : Nat := 16

/-- A payload in the range list. -/
structure Range where
  lo : Nat
  hi : Nat
deriving DecidableEq, Repr

inductive OpType where
  | alloc
  | free
  | realloc
deriving DecidableEq, Repr

/-- `index` is a position in the arrays of the trace. -/
structure TraceOp where
  type : OpType
  index : Nat
  size : Int
  /-- `size` is an `int`. -/
  fits : -2 ^ 31 ≤ size ∧ size < 2 ^ 31 := by decide
deriving DecidableEq, Repr

/-- What `malloc_error` prints. -/
inductive Message where
  /-- "mm_init failed." -/
  | mmInitFailed
  /-- "mm_malloc failed." -/
  | mmMallocFailed
  /-- "Payload address (%p) not aligned to %d bytes" -/
  | notAligned (lo alignment : Nat)
  /-- "Payload (%p:%p) includes an unmapped page" -/
  | includesUnmapped (lo hi : Nat)
  /-- "Payload (%p:%p) ends at an unmapped page" -/
  | endsUnmapped (lo hi : Nat)
  /-- "Payload (%p:%p) overlaps another payload (%p:%p)\n" -/
  | overlaps (lo hi otherLo otherHi : Nat)
deriving DecidableEq, Repr

structure TraceError where
  tracenum : Nat
  opnum : Nat
  msg : Message
deriving DecidableEq, Repr

/-- What `mdriver.c` is linked with, over the state `σ` of all of it. -/
structure Linked (σ ε : Type) where
  mmInit : Program σ ε Int
  mmMalloc : Nat → Program σ ε Nat
  mmFree : Nat → Program σ ε Unit
  pagemapIsMapped : Nat → Program σ ε Bool
  memset : Nat → Nat → Nat → Program σ ε Unit
  memReset : Program σ ε Unit

/-- Why the driver does not return. -/
inductive Halt (ε : Type) where
  /-- `assert(size > 0)` in `add_range`. -/
  | assertSize
  | linked (e : ε)
deriving DecidableEq, Repr

structure State (σ : Type) where
  linked : σ
  ranges : List Range
  /-- `trace->blocks` and `trace->block_sizes`. -/
  blocks : Nat → Nat
  blockSizes : Nat → Nat
  /-- What was reported so far; the counter `errors` is its length. -/
  errors : List TraceError

abbrev Driver (σ ε α : Type) : Type := Program (State σ) (Halt ε) α

variable {σ ε α : Type}

def call (x : Program σ ε α) : Driver σ ε α := fun s =>
  match x s.linked with
  | .ok (a, t) => .ok (a, { s with linked := t })
  | .error e => .error (.linked e)

/-- The conversion of an `int` to `size_t`. -/
def toSizeT (n : Int) : Nat := (n % 2 ^ 64).toNat

/-- The conversion of a `size_t` or an `unsigned` to `int`. -/
def toInt (n : Nat) : Int := (BitVec.ofNat 32 n).toInt

theorem toInt_eq {n : Nat} (h : n < 2 ^ 31) : toInt n = n := by
  rw [toInt, BitVec.toInt_eq_toNat_of_lt]
  · rw [BitVec.toNat_ofNat, Nat.mod_eq_of_lt (by omega)]
  · rw [BitVec.toNat_ofNat]
    omega

def mallocError (tracenum opnum : Nat) (msg : Message) : Driver σ ε Unit :=
  modify fun s => { s with errors := s.errors ++ [⟨tracenum, opnum, msg⟩] }

/-- The loop of `add_range` over the pages of the payload: are all of them mapped? -/
def pagesMapped (L : Linked σ ε) (lo : Nat) : List Nat → Driver σ ε Bool
  | [] => pure true
  | i :: rest => do
      let mapped ← call (L.pagemapIsMapped (add64 lo i))
      if mapped then pagesMapped L lo rest else pure false

/-- The test on a recorded range: does it contain an end of the payload? -/
def Range.Meets (p : Range) (lo hi : Nat) : Prop :=
  (p.lo ≤ lo ∧ lo ≤ p.hi) ∨ (p.lo ≤ hi ∧ hi ≤ p.hi)

instance (p : Range) (lo hi : Nat) : Decidable (p.Meets lo hi) :=
  inferInstanceAs (Decidable (_ ∨ _))

def addRange (L : Linked σ ε) (lo : Nat) (size : Int) (tracenum opnum : Nat) :
    Driver σ ε Nat := do
  let hi := sub64 (add64 lo (toSizeT size)) 1
  if ¬0 < size then stop .assertSize
  else if lo % alignment ≠ 0 then do
    mallocError tracenum opnum (.notAligned lo alignment)
    pure 0
  else do
    let inside ← pagesMapped L lo (pageOffsets (toSizeT size))
    if inside = false then do
      mallocError tracenum opnum (.includesUnmapped lo hi)
      pure 0
    else do
      let last ← call (L.pagemapIsMapped (sub64 (add64 lo (toSizeT size)) 1))
      if last = false then do
        mallocError tracenum opnum (.endsUnmapped lo hi)
        pure 0
      else do
        let s ← read
        match s.ranges.find? fun p => p.Meets lo hi with
        | some p => do
            mallocError tracenum opnum (.overlaps lo hi p.lo p.hi)
            pure 0
        | none => do
            modify fun s => { s with ranges := ⟨lo, hi⟩ :: s.ranges }
            pure 1

/-- The first record of a payload that starts at `lo` is freed. -/
def removeRange (lo : Nat) : Driver σ ε Unit :=
  modify fun s => { s with ranges := s.ranges.eraseP fun p => p.lo = lo }

def clearRanges : Driver σ ε Unit := modify fun s => { s with ranges := [] }

/-- `trace->blocks[index] = p; trace->block_sizes[index] = size;`
The arrays have a place for every number here, where C has `num_ids` places. A trace that
was read stays in them when it has an id, and requests that keep to their ids. -/
def remember (index p size : Nat) : Driver σ ε Unit :=
  modify fun s => { s with
    blocks := Function.update s.blocks index p
    blockSizes := Function.update s.blockSizes index size }

/-- One operation of the trace; `false` is `return 0`. -/
def evalOp (L : Linked σ ε) (tracenum i : Nat) (op : TraceOp) : Driver σ ε Bool :=
  match op.type with
  | .alloc => do
      let p ← call (L.mmMalloc (toSizeT op.size))
      if p = 0 then do
        mallocError tracenum i .mmMallocFailed
        pure false
      else do
        let added ← addRange L p op.size tracenum i
        if added = 0 then pure false
        else do
          call (L.memset p (op.index &&& 0xFF) (toSizeT op.size))
          remember op.index p (toSizeT op.size)
          pure true
  | .realloc => do
      let s ← read
      let oldp := s.blocks op.index
      let newp ← call (L.mmMalloc (toSizeT op.size))
      if newp = 0 then do
        mallocError tracenum i .mmMallocFailed
        pure false
      else do
        removeRange oldp
        let added ← addRange L newp op.size tracenum i
        if added = 0 then pure false
        else do
          call (L.memset newp (op.index &&& 0xFF) (toSizeT op.size))
          call (L.mmFree oldp)
          remember op.index newp (toSizeT op.size)
          pure true
  | .free => do
      let s ← read
      let p := s.blocks op.index
      removeRange p
      call (L.mmFree p)
      pure true

/-- The operations in order, from number `i` on. -/
def evalOps (L : Linked σ ε) (tracenum : Nat) : Nat → List TraceOp → Driver σ ε Bool
  | _, [] => pure true
  | i, op :: ops => do
      let passed ← evalOp L tracenum i op
      if passed then evalOps L tracenum (i + 1) ops else pure false

def evalMmValid (L : Linked σ ε) (ops : List TraceOp) (tracenum : Nat) : Driver σ ε Nat := do
  clearRanges
  let r ← call L.mmInit
  if r < 0 then do
    mallocError tracenum 0 .mmInitFailed
    pure 0
  else do
    let passed ← evalOps L tracenum 0 ops
    if passed = false then pure 0
    else do
      call L.memReset
      pure 1

end Mdriver
