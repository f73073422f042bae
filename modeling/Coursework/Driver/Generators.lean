import Coursework.Driver.Checktrace
import Coursework.Library.Lists
import Mathlib.Algebra.Order.BigOperators.Group.List
import Mathlib.Algebra.Order.Ring.Nat

/-! The scripts that write traces: `gen_binary.pl`, `gen_binary2.pl`, `gen_coalescing.pl`,
`gen_realloc2.pl` and `gen_random.pl`. Their files are readable, keep to the ids that they
hold, and say in their headers what they have. -/

namespace Generators

open Text Mdriver

/-- A request as a script has it. -/
structure Request where
  type : OpType
  seq : Nat
  size : Nat
deriving DecidableEq, Repr

/-- The line that is printed for it. -/
def Request.line (q : Request) : List Char :=
  match q.type with
  | .alloc => 'a' :: ' ' :: (decimal q.seq ++ ' ' :: (decimal q.size ++ ['\n']))
  | .realloc => 'r' :: ' ' :: (decimal q.seq ++ ' ' :: (decimal q.size ++ ['\n']))
  | .free => 'f' :: ' ' :: (decimal q.seq ++ ['\n'])

/-- What a script prints. -/
structure Output where
  suggestedHeapSize : Nat
  numBlocks : Nat
  numOps : Nat
  requests : List Request
deriving DecidableEq, Repr

def Output.text (o : Output) : List Char :=
  decimal o.suggestedHeapSize ++ '\n' :: (decimal o.numBlocks ++ '\n' ::
    (decimal o.numOps ++ '\n' :: '1' :: '\n' :: o.requests.flatMap Request.line))

def a (seq size : Nat) : Request := ⟨.alloc, seq, size⟩

def r (seq size : Nat) : Request := ⟨.realloc, seq, size⟩

def f (seq : Nat) : Request := ⟨.free, seq, 0⟩

/-- `gen_binary.pl` and `gen_binary2.pl`, which have the same loops. -/
def binary (blkSize1 blkSize2 numIters : Nat) : Output where
  suggestedHeapSize := (blkSize1 + blkSize2 + (blkSize1 + blkSize2)) * numIters + 100
  numBlocks := 3 * numIters
  numOps := 4 * numIters
  requests :=
    ((List.range numIters).flatMap fun i => [a (2 * i) blkSize1, a (2 * i + 1) blkSize2]) ++
    ((List.range numIters).map fun i => f (2 * i + 1)) ++
    ((List.range numIters).map fun i => a (2 * numIters + i) (blkSize1 + blkSize2))

def genBinary : List Char := (binary 64 (512 - 64) 2000).text

def genBinary2 : List Char := (binary 16 (128 - 16) 4000).text

/-- The body of the loop of `gen_coalescing.pl`. -/
def coalescingRound (blkSize i : Nat) : List Request :=
  [a (3 * i) blkSize, a (3 * i + 1) blkSize, f (3 * i), f (3 * i + 1),
    a (3 * i + 2) (2 * blkSize), f (3 * i + 2)]

def coalescing (blkSize numIters : Nat) : Output where
  suggestedHeapSize := 2 * blkSize * numIters + 100
  numBlocks := 3 * numIters + 1
  numOps := 6 * numIters + 2
  requests :=
    a (3 * numIters) 8190 :: (List.range numIters).flatMap (coalescingRound blkSize) ++
      [f (3 * numIters)]

def genCoalescing : List Char := (coalescing 4095 2400).text

/-- The loop of `gen_realloc2.pl`, and `$blk` after it. -/
def realloc2Loop (sizeIncrement mallocSize : Nat) : Nat → Nat → Nat → List Request × Nat
  | 0, blk, _ => ([], blk)
  | n + 1, blk, reallocSize =>
      let rest := realloc2Loop sizeIncrement mallocSize n (blk + 1) (reallocSize + sizeIncrement)
      (r 0 (reallocSize + sizeIncrement) :: a (blk + 1) mallocSize :: f (blk + 1 - 1) :: rest.1,
        rest.2)

/-- `gen_realloc2.pl`, for one iteration or more. -/
def realloc2 (reallocSize sizeIncrement mallocSize numIters : Nat) : Output where
  suggestedHeapSize :=
    reallocSize + sizeIncrement * (numIters - 1) + mallocSize * numIters + 100
  numBlocks := numIters + 1
  numOps := 3 * numIters + 1
  requests :=
    let loop := realloc2Loop sizeIncrement mallocSize (numIters - 1) 1 reallocSize
    a 0 reallocSize :: a 1 mallocSize :: (loop.1 ++ [f loop.2, f 0])

/-- The last line is not ended. -/
def genRealloc2 : List Char := (realloc2 4092 5 16 4800).text.dropLast

/-- `int(rand m)`, which is any number below `m`, and `rand 0` is `rand 1`. -/
def intRand (seed m : Nat) : Nat := seed % max 1 m

/-- The search for the `a` of an id, from `minval` on. -/
def findAlloc (trace : List Request) (i : Nat) : Nat → Nat → Nat
  | 0, minval => minval
  | n + 1, minval =>
      if (trace)[minval]?.any fun q => q.type = .alloc ∧ q.seq = i then minval
      else findAlloc trace i n (minval + 1)

/-- The request `f` of an id goes in somewhere after its `a`. -/
def insertFree (numBlocks : Nat) (seeds : Nat → Nat) (trace : List Request) (i : Nat) :
    List Request :=
  let minval := findAlloc trace i numBlocks i
  let pos := intRand (seeds i) (numBlocks + i - minval - 1) + minval + 1
  trace.insertIdx pos (f i)

/-- The two loops of `gen_random.pl`, for all that `rand` may give. -/
def randomTrace (numBlocks maxBlkSize : Nat) (sizes seeds : Nat → Nat) : List Request :=
  (List.range numBlocks).foldl (insertFree numBlocks seeds)
    ((List.range numBlocks).map fun i => a i (intRand (sizes i) maxBlkSize))

def random (numBlocks maxBlkSize : Nat) (sizes seeds : Nat → Nat) : Output where
  suggestedHeapSize :=
    ((List.range numBlocks).map fun i => intRand (sizes i) maxBlkSize).sum + 100
  numBlocks := numBlocks
  numOps := 2 * numBlocks
  requests := (randomTrace numBlocks maxBlkSize sizes seeds).take (2 * numBlocks)

/-- The arguments are read from an array that is always empty. -/
def genRandom (sizes seeds : Nat → Nat) : List Char := (random 2400 32768 sizes seeds).text

/-- The request as the driver has it. -/
def Request.op (q : Request) : TraceOp := ⟨q.type, q.seq, toInt q.size, toInt_fits q.size⟩

/-- The trace that the file is of. -/
def Output.trace (o : Output) : Trace :=
  ⟨o.suggestedHeapSize, o.numBlocks, o.numOps, 1, o.requests.map Request.op⟩

/-- What holds of the output of each of the scripts: it is the file of a readable trace,
which keeps to the ids it holds and leaves some of them. -/
structure Output.Sound (o : Output) (left : List Nat) : Prop where
  text : o.text = o.trace.print
  readable : o.trace.Readable
  consistent : Consistent [] o.trace.ops
  left : (leftBy [] o.trace.ops).Perm left

section Outputs

variable {o : Output} {qs : List Request} {m : Nat}

/-- A request whose size fits an `int` is printed by the script as the trace has it. -/
theorem Request.line_eq {q : Request} (h : q.size < 2 ^ 31) : q.op.line = q.line := by
  have hSize : signed (toInt q.size) = decimal q.size := by rw [toInt_eq h, signed_natCast]
  obtain ⟨type, seq, size⟩ := q
  cases type with
  | alloc => exact congrArg (fun n => 'a' :: ' ' :: (decimal seq ++ ' ' :: (n ++ ['\n']))) hSize
  | realloc => exact congrArg (fun n => 'r' :: ' ' :: (decimal seq ++ ' ' :: (n ++ ['\n']))) hSize
  | free => rfl

theorem Output.text_eq (h : ∀ q ∈ o.requests, q.size < 2 ^ 31) : o.text = o.trace.print := by
  have hLines : o.requests.flatMap Request.line = o.trace.ops.flatMap TraceOp.line := by
    rw [Output.trace, List.flatMap_map]
    exact (List.flatMap_congr fun q hq => Request.line_eq (h q hq)).symm
  rw [Output.text, hLines, Trace.print]
  show _ = signed (o.suggestedHeapSize : Int) ++ '\n' :: (signed (o.numBlocks : Int) ++ '\n' ::
    (signed (o.numOps : Int) ++ '\n' :: (signed 1 ++ '\n' :: _)))
  rw [signed_natCast, signed_natCast, signed_natCast]
  rfl

/-- The header is right when the ids are below the number of blocks and the last of them
is asked for. -/
theorem Output.readable (hOps : o.numOps = o.requests.length) (hFits : o.numOps < 2 ^ 31)
    (hSugg : o.suggestedHeapSize < 2 ^ 31) (hBlocks : o.numBlocks < 2 ^ 31)
    (hIds : ∀ q ∈ o.requests, q.seq < o.numBlocks)
    (hLast : ∃ q ∈ o.requests, q.type ≠ .free ∧ q.seq + 1 = o.numBlocks) : o.trace.Readable := by
  obtain ⟨q, hq, hType, hSeq⟩ := hLast
  have hHighest : highest o.trace.ops = q.seq := by
    refine Nat.le_antisymm (highest_le fun op hOp => ?_) ?_
    · obtain ⟨p, hp, rfl⟩ := List.mem_map.mp hOp
      have hLt := hIds p hp
      unfold TraceOp.checkedId
      split
      · omega
      · show p.seq ≤ q.seq
        omega
    · have hLe := checkedId_le_highest (List.mem_map_of_mem (f := Request.op) hq)
      rw [TraceOp.checkedId, if_neg (show q.op.type ≠ .free from hType)] at hLe
      exact hLe
  have hSuggInt : IsInt o.trace.suggHeapsize := by
    show -2 ^ 31 ≤ (o.suggestedHeapSize : Int) ∧ (o.suggestedHeapSize : Int) < 2 ^ 31
    omega
  refine ⟨hSuggInt, (by decide : IsInt 1), ?_, ?_, ?_, ?_, fun op hOp => ?_⟩
  · show (o.numOps : Int) = ((o.requests.map Request.op).length : Nat)
    rw [List.length_map, hOps]
  · show (o.numOps : Int) < 2 ^ 31
    omega
  · show 0 ≤ (o.numBlocks : Int) ∧ (o.numBlocks : Int) < 2 ^ 31
    omega
  · rw [hHighest]
    show (q.seq : Int) = ((o.numBlocks : Int) - 1) % 2 ^ 32
    omega
  · obtain ⟨p, hp, rfl⟩ := List.mem_map.mp hOp
    have hLt := hIds p hp
    show p.seq < 2 ^ 32
    omega

end Outputs

section Binary

variable {blkSize1 blkSize2 n : Nat}

/-- The ids that `gen_binary.pl` leaves: those of the small blocks, and of the last ones. -/
def binaryLeft (n : Nat) : List Nat :=
  (List.range n).map (2 * n + ·) ++ (List.range n).map (2 * ·)

theorem nodup_binary (n : Nat) :
    ((List.range n).map (fun i => 2 * i + 1) ++ binaryLeft n).Nodup := by
  have hOdd : Function.Injective fun i => 2 * i + 1 := fun i j h => by
    replace h : 2 * i + 1 = 2 * j + 1 := h
    omega
  have hLast : Function.Injective (2 * n + ·) := fun i j h => Nat.add_left_cancel h
  have hEven : Function.Injective (2 * ·) := fun i j h => Nat.eq_of_mul_eq_mul_left (by decide) h
  unfold binaryLeft
  simp only [List.nodup_append, List.mem_append, List.mem_map, List.mem_range]
  refine ⟨List.nodup_range.map hOdd, ⟨List.nodup_range.map hLast, List.nodup_range.map hEven, ?_⟩,
    ?_⟩
  · rintro _ ⟨i, -, rfl⟩ _ ⟨j, hj, rfl⟩
    omega
  · rintro _ ⟨i, hi, rfl⟩ _ (⟨j, -, rfl⟩ | ⟨j, -, rfl⟩) <;> omega

/-- The ids of the first loop. -/
theorem perm_binary (n : Nat) : ((List.range n).flatMap fun i => [2 * i, 2 * i + 1]).Perm
    ((List.range n).map (fun i => 2 * i + 1) ++ (List.range n).map (2 * ·)) := by
  have hPairs := List.map_append_flatMap_perm (List.range n) (2 * ·) fun i => [2 * i + 1]
  rw [← List.map_eq_flatMap] at hPairs
  exact hPairs.symm.trans List.perm_append_comm

/-- The requests of `gen_binary.pl` keep to the ids they hold: the second loop frees what the
first took, and the third takes ids beyond those. -/
theorem binary_consistent (blkSize1 blkSize2 n : Nat) :
    Consistent [] (binary blkSize1 blkSize2 n).trace.ops ∧
      (leftBy [] (binary blkSize1 blkSize2 n).trace.ops).Perm (binaryLeft n) := by
  have hNodup := nodup_binary n
  set small := ((List.range n).flatMap fun i =>
    [a (2 * i) blkSize1, a (2 * i + 1) blkSize2]).map Request.op with hSmall
  set frees := ((List.range n).map fun i => 2 * i + 1).map freeOp with hFrees
  set large := ((List.range n).map fun i => a (2 * n + i) (blkSize1 + blkSize2)).map Request.op
    with hLarge
  have hOps : (binary blkSize1 blkSize2 n).trace.ops = small ++ (frees ++ large) := by
    rw [hSmall, hFrees, hLarge, ← List.append_assoc]
    simp only [Output.trace, binary, List.map_append, List.map_map]
    rfl
  have hSmallIds : small.map TraceOp.index =
      (List.range n).flatMap fun i => [2 * i, 2 * i + 1] := by
    rw [hSmall, List.map_map, List.map_flatMap]
    rfl
  have hLargeIds : large.map TraceOp.index = (List.range n).map (2 * n + ·) := by
    rw [hLarge, List.map_map, List.map_map]
    rfl
  have hSmallType : ∀ op ∈ small, op.type = .alloc := by
    intro op hOp
    obtain ⟨q, hq, rfl⟩ := List.mem_map.mp hOp
    obtain ⟨i, -, hq⟩ := List.mem_flatMap.mp hq
    rcases List.mem_pair.mp hq with rfl | rfl <;> rfl
  have hLargeType : ∀ op ∈ large, op.type = .alloc := by
    intro op hOp
    obtain ⟨q, hq, rfl⟩ := List.mem_map.mp hOp
    obtain ⟨i, -, rfl⟩ := List.mem_map.mp hq
    rfl
  -- The first loop takes all, the second gives the odd ones back, the third takes more.
  have hPerm : (small.map TraceOp.index).Perm _ := hSmallIds ▸ perm_binary n
  obtain ⟨hFirst, hHeld⟩ := consistent_allocs hSmallType (by
    rw [List.append_nil, hPerm.nodup_iff]
    exact hNodup.sublist ((List.sublist_append_right _ _).append_left _))
  rw [List.append_nil] at hHeld
  obtain ⟨hSecond, hRest⟩ := consistent_frees (hHeld.trans hPerm)
  obtain ⟨hThird, hLeft⟩ := consistent_allocs hLargeType (by
    rw [hLargeIds, (hRest.append_left _).nodup_iff]
    exact hNodup.sublist (List.sublist_append_right _ _))
  rw [hOps]
  refine ⟨consistent_append.mpr ⟨hFirst, consistent_append.mpr ⟨hSecond, hThird⟩⟩, ?_⟩
  rw [leftBy_append, leftBy_append]
  rw [hLargeIds] at hLeft
  exact hLeft.trans (hRest.append_left _)

/-- `gen_binary.pl` leaves the small blocks and those that fill the gaps. Only the large blocks
of the first loop are freed. -/
theorem binary_sound (hn : 0 < n)
    (hSugg : (binary blkSize1 blkSize2 n).suggestedHeapSize < 2 ^ 31)
    (hOps : (binary blkSize1 blkSize2 n).numOps < 2 ^ 31) :
    (binary blkSize1 blkSize2 n).Sound (binaryLeft n) := by
  have hCount : 4 * n < 2 ^ 31 := hOps
  have hSizes : blkSize1 + blkSize2 < 2 ^ 31 := by
    have hLe := Nat.le_mul_of_pos_right (blkSize1 + blkSize2 + (blkSize1 + blkSize2)) hn
    replace hSugg : (blkSize1 + blkSize2 + (blkSize1 + blkSize2)) * n + 100 < 2 ^ 31 := hSugg
    omega
  obtain ⟨hConsistent, hLeft⟩ := binary_consistent blkSize1 blkSize2 n
  have hRequests : ∀ q ∈ (binary blkSize1 blkSize2 n).requests,
      q.size < 2 ^ 31 ∧ q.seq < 3 * n := by
    simp only [binary, List.mem_append, List.mem_flatMap, List.mem_map, List.mem_range]
    rintro q ((⟨i, hi, hq⟩ | ⟨i, hi, rfl⟩) | ⟨i, hi, rfl⟩)
    · simp only [List.mem_cons, List.not_mem_nil, or_false] at hq
      rcases hq with rfl | rfl <;> exact ⟨by simp only [a]; omega, by simp only [a]; omega⟩
    · exact ⟨by simp [f], by simp only [f]; omega⟩
    · exact ⟨hSizes, by simp only [a]; omega⟩
  refine ⟨Output.text_eq fun q hq => (hRequests q hq).1, Output.readable ?_ hOps hSugg ?_
    (fun q hq => (hRequests q hq).2) ⟨a (2 * n + (n - 1)) (blkSize1 + blkSize2), ?_, nofun, ?_⟩,
    hConsistent, hLeft⟩
  · simp only [binary, List.length_append, List.length_flatMap, List.length_map, List.length_range,
      List.length_cons, List.length_nil, List.map_const', List.sum_replicate_nat]
    omega
  · show 3 * n < 2 ^ 31
    omega
  · exact List.mem_append_right _ (List.mem_map.mpr ⟨n - 1, List.mem_range.mpr (by omega), rfl⟩)
  · show 2 * n + (n - 1) + 1 = 3 * n
    omega

end Binary

section Coalescing

variable {blkSize n : Nat}

/-- A round frees what it allocates, under any id that is not its own. So the rounds can follow
each other in any number. -/
theorem coalescingRound_consistent {extra i : Nat} (h : 3 * i + 2 < extra) (blkSize : Nat) :
    Consistent [extra] ((coalescingRound blkSize i).map Request.op) ∧
      leftBy [extra] ((coalescingRound blkSize i).map Request.op) = [extra] := by
  have h₁ : 3 * i ≠ extra := by omega
  have h₂ : 3 * i + 1 ≠ extra := by omega
  have h₃ : 3 * i + 2 ≠ extra := by omega
  simp [coalescingRound, a, f, Request.op, Consistent, TraceOp.KeepsTo, TraceOp.nowHeld, leftBy,
    h₁, h₂, h₃]

/-- The requests of `gen_coalescing.pl`: each round frees what it takes, and the extra block is
freed at the end. -/
theorem coalescing_consistent (blkSize n : Nat) :
    Consistent [] (coalescing blkSize n).trace.ops ∧
      leftBy [] (coalescing blkSize n).trace.ops = [] := by
  have hOps : (coalescing blkSize n).trace.ops = (a (3 * n) 8190).op ::
      (((List.range n).map fun i => (coalescingRound blkSize i).map Request.op).flatten ++
        [(f (3 * n)).op]) := by
    simp only [Output.trace, coalescing, List.map_append, List.map_cons, List.map_nil,
      List.map_flatMap]
    rfl
  have hRound : ∀ round ∈ (List.range n).map fun i => (coalescingRound blkSize i).map Request.op,
      Consistent [3 * n] round ∧ leftBy [3 * n] round = [3 * n] := by
    intro round hRound
    obtain ⟨i, hi, rfl⟩ := List.mem_map.mp hRound
    have hLt := List.mem_range.mp hi
    exact coalescingRound_consistent (by omega) blkSize
  obtain ⟨hRounds, hLeft⟩ := consistent_rounds hRound
  have hFirst : TraceOp.nowHeld [] (a (3 * n) 8190).op = [3 * n] := rfl
  rw [hOps]
  refine ⟨⟨iff_of_true rfl List.not_mem_nil, ?_⟩, ?_⟩
  · rw [hFirst, consistent_append, hLeft]
    exact ⟨hRounds, ⟨nofun, fun hNot => absurd List.mem_cons_self hNot⟩, trivial⟩
  · rw [leftBy, List.foldl_cons, hFirst]
    show leftBy [3 * n] _ = []
    rw [leftBy_append, hLeft]
    show [3 * n].erase (3 * n) = []
    rw [List.erase_cons_head]

/-- `gen_coalescing.pl` leaves nothing. -/
theorem coalescing_sound (hSugg : (coalescing blkSize n).suggestedHeapSize < 2 ^ 31)
    (hOps : (coalescing blkSize n).numOps < 2 ^ 31) : (coalescing blkSize n).Sound [] := by
  have hCount : 6 * n + 2 < 2 ^ 31 := hOps
  obtain ⟨hConsistent, hLeft⟩ := coalescing_consistent blkSize n
  have hSizes : 0 < n → 2 * blkSize < 2 ^ 31 := fun hn => by
    have hLe := Nat.le_mul_of_pos_right (2 * blkSize) hn
    replace hSugg : 2 * blkSize * n + 100 < 2 ^ 31 := hSugg
    omega
  have hRequests : ∀ q ∈ (coalescing blkSize n).requests, q.size < 2 ^ 31 ∧ q.seq < 3 * n + 1 := by
    intro q hq
    simp only [coalescing, List.mem_append, List.mem_cons, List.mem_flatMap, List.mem_range,
      List.not_mem_nil, or_false, coalescingRound] at hq
    rcases hq with (rfl | ⟨i, hi, hq⟩) | rfl
    · exact ⟨by simp [a], by simp [a]⟩
    · have hSize := hSizes (by omega)
      rcases hq with rfl | rfl | rfl | rfl | rfl | rfl <;> simp only [a, f] <;> omega
    · exact ⟨by simp [f], by simp [f]⟩
  refine ⟨Output.text_eq fun q hq => (hRequests q hq).1, Output.readable ?_ hOps hSugg ?_
    (fun q hq => (hRequests q hq).2) ⟨a (3 * n) 8190, ?_, nofun, rfl⟩, hConsistent,
    List.Perm.of_eq hLeft⟩
  · simp only [coalescing, coalescingRound, List.length_append, List.length_flatMap,
      List.length_range, List.length_cons, List.length_nil, List.map_const',
      List.sum_replicate_nat]
    omega
  · show 3 * n + 1 < 2 ^ 31
    omega
  · exact List.mem_cons_self

end Coalescing

section Realloc2

variable {reallocSize sizeIncrement mallocSize n blk : Nat}

/-- What holds of the requests of the loop, which moves from one small block to the next. -/
structure LoopSound (reallocSize sizeIncrement mallocSize n blk : Nat)
    (loop : List Request × Nat) : Prop where
  last : loop.2 = blk + n
  length : loop.1.length = 3 * n
  consistent : Consistent [blk, 0] (loop.1.map Request.op)
  left : leftBy [blk, 0] (loop.1.map Request.op) = [loop.2, 0]
  sizes : ∀ q ∈ loop.1, q.size ≤ max (reallocSize + sizeIncrement * n) mallocSize
  seqs : ∀ q ∈ loop.1, q.seq ≤ blk + n
  newest : 0 < n → ∃ q ∈ loop.1, q.type ≠ .free ∧ q.seq = blk + n

/-- The loop of `gen_realloc2.pl`, by induction on its rounds: each takes a new block and frees
the one of the round before. -/
theorem realloc2Loop_sound (reallocSize sizeIncrement mallocSize n : Nat) (hBlk : 0 < blk) :
    LoopSound reallocSize sizeIncrement mallocSize n blk
      (realloc2Loop sizeIncrement mallocSize n blk reallocSize) := by
  induction n generalizing blk reallocSize with
  | zero =>
      exact ⟨rfl, rfl, trivial, rfl, List.forall_mem_nil _, List.forall_mem_nil _,
        fun h => absurd h (Nat.lt_irrefl 0)⟩
  | succ n ih =>
      have hRest := ih (reallocSize + sizeIncrement) (Nat.succ_pos blk)
      have hGrown : reallocSize + sizeIncrement + sizeIncrement * n =
          reallocSize + sizeIncrement * (n + 1) := by
        rw [Nat.mul_succ, Nat.add_assoc, Nat.add_comm sizeIncrement]
      have hNe : blk ≠ 0 := by omega
      rw [realloc2Loop]
      refine ⟨?_, ?_, ?_, ?_, ?_, ?_, fun _ => ?_⟩
      · exact hRest.last.trans (by omega)
      · simp only [List.length_cons, hRest.length]
        omega
      · have hRound : Consistent [blk + 1, 0] _ := hRest.consistent
        simpa [Request.op, a, r, f, Consistent, TraceOp.KeepsTo, TraceOp.nowHeld, hNe] using hRound
      · have hLeft : leftBy [blk + 1, 0] _ = _ := hRest.left
        simpa [Request.op, a, r, f, TraceOp.nowHeld, leftBy] using hLeft
      · have hSizes := hRest.sizes
        rw [hGrown] at hSizes
        have hFirst : reallocSize + sizeIncrement ≤ reallocSize + sizeIncrement * (n + 1) := by
          rw [← hGrown]
          exact Nat.le_add_right _ _
        refine List.forall_mem_cons.mpr ⟨le_max_of_le_left hFirst, List.forall_mem_cons.mpr
          ⟨le_max_right _ _, List.forall_mem_cons.mpr ⟨Nat.zero_le _, hSizes⟩⟩⟩
      · have hSeqs := hRest.seqs
        refine List.forall_mem_cons.mpr ⟨Nat.zero_le _, List.forall_mem_cons.mpr
          ⟨?_, List.forall_mem_cons.mpr ⟨?_, fun q hq => ?_⟩⟩⟩
        · show blk + 1 ≤ blk + (n + 1)
          omega
        · show blk + 1 - 1 ≤ blk + (n + 1)
          omega
        · have hLe := hSeqs q hq
          omega
      · rcases Nat.eq_zero_or_pos n with rfl | hn
        · have hAlloc : (a (blk + 1) mallocSize).type ≠ .free := fun hType => by cases hType
          exact ⟨a (blk + 1) mallocSize, by simp, hAlloc, rfl⟩
        · obtain ⟨q, hq, hType, hSeq⟩ := hRest.newest hn
          exact ⟨q, by simp [hq], hType, by omega⟩

/-- The requests around the loop, which take the first two blocks and free the last two. Each
round of the loop frees one and takes one. -/
theorem realloc2_requests : (realloc2 reallocSize sizeIncrement mallocSize n).requests =
    a 0 reallocSize :: a 1 mallocSize ::
      ((realloc2Loop sizeIncrement mallocSize (n - 1) 1 reallocSize).1 ++
        [f (realloc2Loop sizeIncrement mallocSize (n - 1) 1 reallocSize).2, f 0]) := rfl

/-- The requests of `gen_realloc2.pl` keep to the ids they hold and leave none. -/
theorem realloc2_consistent (reallocSize sizeIncrement mallocSize n : Nat) :
    Consistent [] (realloc2 reallocSize sizeIncrement mallocSize n).trace.ops ∧
      leftBy [] (realloc2 reallocSize sizeIncrement mallocSize n).trace.ops = [] := by
  have hLoop := realloc2Loop_sound reallocSize sizeIncrement mallocSize (n - 1) Nat.one_pos
  set loop := realloc2Loop sizeIncrement mallocSize (n - 1) 1 reallocSize with hDef
  have hOps : (realloc2 reallocSize sizeIncrement mallocSize n).trace.ops =
      (a 0 reallocSize).op :: (a 1 mallocSize).op ::
        (loop.1.map Request.op ++ [(f loop.2).op, (f 0).op]) := by
    rw [Output.trace, realloc2_requests, ← hDef]
    simp only [List.map_cons, List.map_append, List.map_nil]
  have hTwo : TraceOp.nowHeld (TraceOp.nowHeld [] (a 0 reallocSize).op) (a 1 mallocSize).op =
      [1, 0] := rfl
  rw [hOps]
  constructor
  · refine ⟨iff_of_true rfl List.not_mem_nil, iff_of_true rfl (by show 1 ∉ [0]; decide), ?_⟩
    rw [hTwo, consistent_append, hLoop.left]
    exact ⟨hLoop.consistent, ⟨nofun, fun hNot => absurd List.mem_cons_self hNot⟩,
      ⟨nofun, fun hNot => absurd (by simp [TraceOp.nowHeld, Request.op, f]) hNot⟩, trivial⟩
  · rw [leftBy, List.foldl_cons, List.foldl_cons, hTwo]
    show leftBy [1, 0] _ = []
    rw [leftBy_append, hLoop.left]
    simp [leftBy, TraceOp.nowHeld, Request.op, f]

/-- `gen_realloc2.pl` leaves nothing. -/
theorem realloc2_sound (hn : 0 < n)
    (hSugg : (realloc2 reallocSize sizeIncrement mallocSize n).suggestedHeapSize < 2 ^ 31)
    (hOps : (realloc2 reallocSize sizeIncrement mallocSize n).numOps < 2 ^ 31) :
    (realloc2 reallocSize sizeIncrement mallocSize n).Sound [] := by
  have hCount : 3 * n + 1 < 2 ^ 31 := hOps
  have hMalloc := Nat.le_mul_of_pos_right mallocSize hn
  replace hSugg : reallocSize + sizeIncrement * (n - 1) + mallocSize * n + 100 < 2 ^ 31 := hSugg
  have hLoop := realloc2Loop_sound reallocSize sizeIncrement mallocSize (n - 1) Nat.one_pos
  have hLast := hLoop.last
  have hBounds : ∀ q ∈ (realloc2 reallocSize sizeIncrement mallocSize n).requests,
      q.size < 2 ^ 31 ∧ q.seq < n + 1 := by
    rw [realloc2_requests]
    simp only [List.forall_mem_cons, List.forall_mem_append]
    refine ⟨⟨?_, ?_⟩, ⟨?_, ?_⟩, fun q hq => ?_, ⟨?_, ?_⟩, ⟨?_, ?_⟩, nofun⟩
    case refine_5 =>
      have hSize := hLoop.sizes q hq
      have hSeq := hLoop.seqs q hq
      omega
    all_goals
      simp only [a, f]
      omega
  obtain ⟨hConsistent, hLeft⟩ := realloc2_consistent reallocSize sizeIncrement mallocSize n
  refine ⟨Output.text_eq fun q hq => (hBounds q hq).1, Output.readable ?_ hOps hSugg ?_
    (fun q hq => (hBounds q hq).2) ?_, hConsistent, List.Perm.of_eq hLeft⟩
  · rw [realloc2_requests]
    show 3 * n + 1 = _
    simp only [List.length_cons, List.length_append, hLoop.length, List.length_nil]
    omega
  · show n + 1 < 2 ^ 31
    omega
  · rw [realloc2_requests]
    rcases Nat.eq_zero_or_pos (n - 1) with hOne | hMore
    · exact ⟨a 1 mallocSize, by simp, nofun, by show 1 + 1 = n + 1; omega⟩
    · obtain ⟨q, hq, hType, hSeq⟩ := hLoop.newest hMore
      exact ⟨q, by simp [hq], hType, by show q.seq + 1 = n + 1; omega⟩

end Realloc2

section Random

variable {n i m k : Nat} {trace : List Request} {sizes seeds : Nat → Nat} {maxBlkSize : Nat}

/-- The requests of the first loop. -/
def allocs (n maxBlkSize : Nat) (sizes : Nat → Nat) : List Request :=
  (List.range n).map fun i => a i (intRand (sizes i) maxBlkSize)

abbrev IsAllocOf (i : Nat) (q : Request) : Prop := q.type = .alloc ∧ q.seq = i

/-- The search ends at a request that it looks for, if there is one. It never runs past the end
of the trace then. -/
theorem findAlloc_found {q : Request} (hLow : m ≤ k) (hHigh : k < m + n) (hq : (trace)[k]? = some q)
    (hAlloc : IsAllocOf i q) : ∃ p, (trace)[findAlloc trace i n m]? = some p ∧ IsAllocOf i p ∧
      m ≤ findAlloc trace i n m ∧ findAlloc trace i n m ≤ k := by
  induction n generalizing m with
  | zero => omega
  | succ n ih =>
      rw [findAlloc]
      split
      · next hFound =>
          obtain ⟨p, hp, hPass⟩ := (Option.any_eq_true _ _).mp hFound
          exact ⟨p, hp, of_decide_eq_true hPass, Nat.le_refl _, hLow⟩
      · next hNot =>
          have hNe : m ≠ k := by
            rintro rfl
            exact hNot ((Option.any_eq_true _ _).mpr ⟨q, hq, decide_eq_true hAlloc⟩)
          obtain ⟨p, hp, hPass, hLow', hHigh'⟩ := ih (m := m + 1) (by omega) (by omega)
          exact ⟨p, hp, hPass, by omega, hHigh'⟩

/-- What the trace is after the frees of the ids below `k` have gone in. -/
structure Inserted (n maxBlkSize : Nat) (sizes : Nat → Nat) (k : Nat) (trace : List Request) :
    Prop where
  requests : trace.Perm (allocs n maxBlkSize sizes ++ (List.range k).map f)
  order : trace.filter (fun q => q.type = .alloc) = allocs n maxBlkSize sizes
  consistent : Consistent [] (trace.map Request.op)
  left : (leftBy [] (trace.map Request.op)).Perm (List.range' k (n - k))

theorem Inserted.length (h : Inserted n maxBlkSize sizes k trace) : trace.length = n + k := by
  rw [h.requests.length_eq, allocs]
  simp

theorem inserted_allocs (n maxBlkSize : Nat) (sizes : Nat → Nat) :
    Inserted n maxBlkSize sizes 0 (allocs n maxBlkSize sizes) := by
  have hIds : ((allocs n maxBlkSize sizes).map Request.op).map TraceOp.index = List.range n := by
    rw [allocs, List.map_map, List.map_map]
    exact List.map_id _
  have hType : ∀ op ∈ (allocs n maxBlkSize sizes).map Request.op, op.type = .alloc := by
    intro op hOp
    obtain ⟨q, hq, rfl⟩ := List.mem_map.mp hOp
    obtain ⟨i, -, rfl⟩ := List.mem_map.mp hq
    rfl
  obtain ⟨hConsistent, hLeft⟩ := consistent_allocs hType (by
    rw [hIds, List.append_nil]
    exact List.nodup_range)
  refine ⟨by simp, List.filter_eq_self.mpr fun q hq => ?_, hConsistent, ?_⟩
  · obtain ⟨i, -, rfl⟩ := List.mem_map.mp hq
    rfl
  · rwa [hIds, List.append_nil, List.range_eq_range'] at hLeft

/-- The only request that names an id without a free is its `a`, which is not too early. So the
trace splits there in two parts. -/
theorem Inserted.split (h : Inserted n maxBlkSize sizes k trace) (hk : k < n) :
    ∃ before after q, trace = before ++ q :: after ∧ IsAllocOf k q ∧ k ≤ before.length ∧
      (∀ p ∈ before, p.seq ≠ k) ∧ ∀ p ∈ after, p.seq ≠ k := by
  have hAllocs : a k (intRand (sizes k) maxBlkSize) ∈ allocs n maxBlkSize sizes :=
    List.mem_map.mpr ⟨k, List.mem_range.mpr hk, rfl⟩
  have hIn : a k (intRand (sizes k) maxBlkSize) ∈ trace :=
    h.requests.symm.subset (List.mem_append_left _ hAllocs)
  obtain ⟨before, after, rfl⟩ := List.append_of_mem hIn
  have hSeqs : ((before ++ a k (intRand (sizes k) maxBlkSize) :: after).map Request.seq).Perm
      (List.range n ++ List.range k) := by
    refine (h.requests.map Request.seq).trans (List.Perm.of_eq ?_)
    rw [List.map_append, allocs, List.map_map, List.map_map]
    exact congrArg₂ (· ++ ·) (List.map_id _) (List.map_id _)
  have hCount := hSeqs.count_eq k
  rw [List.map_append, List.map_cons, List.count_append, List.count_append,
    List.count_eq_zero_of_not_mem (List.not_mem_range_self),
    List.count_eq_one_of_mem List.nodup_range (List.mem_range.mpr hk)] at hCount
  have hSelf : List.count k ((a k (intRand (sizes k) maxBlkSize)).seq :: after.map Request.seq) =
      List.count k (after.map Request.seq) + 1 := List.count_cons_self
  rw [hSelf] at hCount
  have hBefore : k ∉ before.map Request.seq := List.count_eq_zero.mp (by omega)
  have hAfter : k ∉ after.map Request.seq := List.count_eq_zero.mp (by omega)
  refine ⟨before, after, _, rfl, ⟨rfl, rfl⟩, ?_, fun p hp hEq => hBefore ?_,
    fun p hp hEq => hAfter ?_⟩
  · -- The `a`s are in the order of their ids, so there are `k` of them before this one.
    have hOrder := h.order
    rw [List.filter_append, List.filter_cons_of_pos rfl] at hOrder
    have hAt := congrArg (·[(before.filter fun q => q.type = .alloc).length]?) hOrder
    simp only [List.getElem?_append_right (Nat.le_refl _), Nat.sub_self, List.getElem?_cons_zero,
      allocs, List.getElem?_map] at hAt
    obtain ⟨j, hj, hEq⟩ := Option.map_eq_some_iff.mp hAt.symm
    obtain ⟨hLt, rfl⟩ := List.getElem?_eq_some_iff.mp hj
    rw [List.getElem_range] at hEq
    have hLength := List.length_filter_le (fun q => q.type = .alloc) before
    have hSeq : (before.filter fun q => q.type = .alloc).length = k := congrArg Request.seq hEq
    omega
  · exact List.mem_map.mpr ⟨p, hp, hEq⟩
  · exact List.mem_map.mpr ⟨p, hp, hEq⟩

/-- The search for the `a` of an id stops at it, as no request before it names the id. -/
theorem findAlloc_eq {before after : List Request} {q : Request} (hLow : m ≤ before.length)
    (hHigh : before.length < m + n) (hAlloc : IsAllocOf i q) (hBefore : ∀ p ∈ before, p.seq ≠ i) :
    findAlloc (before ++ q :: after) i n m = before.length := by
  have hAt : (before ++ q :: after)[before.length]? = some q := by
    rw [List.getElem?_append_right (Nat.le_refl _), Nat.sub_self, List.getElem?_cons_zero]
  obtain ⟨p, hp, ⟨-, hSeq⟩, -, hLe⟩ := findAlloc_found hLow hHigh hAt hAlloc
  refine Nat.le_antisymm hLe (not_lt.mp fun hLt => ?_)
  rw [List.getElem?_append_left hLt] at hp
  exact hBefore p (List.mem_of_getElem? hp) hSeq

/-- The free of an id goes in after its `a`, wherever `rand` says. Nothing else of the trace
changes. -/
theorem insertFree_eq {before after : List Request} {q : Request} (seeds : Nat → Nat)
    (hEarly : k ≤ before.length) (hLength : (before ++ q :: after).length = n + k)
    (hAlloc : IsAllocOf k q) (hBefore : ∀ p ∈ before, p.seq ≠ k) :
    ∃ ys zs, after = ys ++ zs ∧
      insertFree n seeds (before ++ q :: after) k = (before ++ q :: ys) ++ f k :: zs := by
  have hRest := hLength
  rw [List.length_append, List.length_cons] at hRest
  have hFound : findAlloc (before ++ q :: after) k n k = before.length :=
    findAlloc_eq hEarly (by omega) hAlloc hBefore
  set pos := intRand (seeds k) (n + k - before.length - 1)
  have hRand : pos < max 1 (n + k - before.length - 1) := Nat.mod_lt _ (by omega)
  refine ⟨after.take pos, after.drop pos, (List.take_append_drop pos after).symm, ?_⟩
  have hPlace : pos + before.length + 1 = before.length + (pos + 1) := by omega
  rw [insertFree, hFound]
  show (before ++ q :: after).insertIdx (pos + before.length + 1) (f k) = _
  rw [hPlace, List.insertIdx_eq_take_append (by omega), List.take_length_add_append,
    List.drop_length_add_append, List.take_succ_cons, List.drop_succ_cons]

/-- A round of the second loop. It frees one more id, and keeps what the rounds before it have
done. -/
theorem Inserted.step (h : Inserted n maxBlkSize sizes k trace) (hk : k < n) :
    Inserted n maxBlkSize sizes (k + 1) (insertFree n seeds trace k) := by
  obtain ⟨before, after, q, rfl, hAlloc, hEarly, hBefore, hAfter⟩ := h.split hk
  obtain ⟨ys, zs, rfl, hInsert⟩ := insertFree_eq seeds hEarly h.length hAlloc hBefore
  have hWhole : before ++ q :: (ys ++ zs) = (before ++ q :: ys) ++ zs := by
    rw [List.append_assoc, List.cons_append]
  rw [hWhole] at h
  rw [hInsert]
  generalize before ++ q :: ys = xs at h ⊢
  have hLater : ∀ op ∈ zs.map Request.op, op.index ≠ k := by
    intro op hOp
    obtain ⟨p, hp, rfl⟩ := List.mem_map.mp hOp
    exact hAfter p (List.mem_append_right _ hp)
  have hHeld : k ∈ leftBy [] ((xs ++ zs).map Request.op) :=
    h.left.symm.subset (List.mem_range'_1.mpr ⟨Nat.le_refl _, by omega⟩)
  have hConsistent := h.consistent
  rw [List.map_append] at hConsistent hHeld
  obtain ⟨hInserted, hLeft⟩ := consistent_insert hConsistent hHeld hLater
  have hMap : (xs ++ f k :: zs).map Request.op =
      xs.map Request.op ++ freeOp k :: zs.map Request.op := List.map_append
  refine ⟨?_, ?_, hMap ▸ hInserted, ?_⟩
  · rw [List.range_succ, List.map_append, ← List.append_assoc]
    exact (List.perm_middle.trans (h.requests.cons _)).trans (List.perm_append_singleton _ _).symm
  · rw [List.filter_append, List.filter_cons_of_neg (by simp [f]), ← List.filter_append, h.order]
  · rw [hMap, hLeft, ← List.map_append]
    have hNext : List.range' k (n - k) = k :: List.range' (k + 1) (n - (k + 1)) := by
      rw [show n - k = n - (k + 1) + 1 by omega, List.range'_succ]
    have hErase := h.left.erase k
    rwa [hNext, List.erase_cons_head] at hErase

/-- Run lemma of the second loop, whatever `rand` returns. -/
theorem inserted_randomTrace (n maxBlkSize : Nat) (sizes seeds : Nat → Nat) :
    Inserted n maxBlkSize sizes n (randomTrace n maxBlkSize sizes seeds) := by
  have hRun : ∀ k, k ≤ n → Inserted n maxBlkSize sizes k
      ((List.range k).foldl (insertFree n seeds) (allocs n maxBlkSize sizes)) := by
    intro k hk
    induction k with
    | zero => exact inserted_allocs n maxBlkSize sizes
    | succ k ih =>
        rw [List.range_succ, List.foldl_append]
        exact (ih (by omega)).step (by omega)
  exact hRun n (Nat.le_refl n)

/-- Cutting the trace to its announced length takes nothing away, as it has that length: one
`a` and one `f` for each id. -/
theorem random_requests (n maxBlkSize : Nat) (sizes seeds : Nat → Nat) :
    (random n maxBlkSize sizes seeds).requests = randomTrace n maxBlkSize sizes seeds := by
  have hLength := (inserted_randomTrace n maxBlkSize sizes seeds).length
  exact List.take_of_length_le (by omega)

/-- `gen_random.pl` leaves nothing, whatever `rand` gives. The sizes and the places of the
frees are all that it decides. -/
theorem random_sound (hn : 0 < n)
    (hSugg : (random n maxBlkSize sizes seeds).suggestedHeapSize < 2 ^ 31)
    (hOps : (random n maxBlkSize sizes seeds).numOps < 2 ^ 31) :
    (random n maxBlkSize sizes seeds).Sound [] := by
  have hInserted := inserted_randomTrace n maxBlkSize sizes seeds
  have hRequests := random_requests n maxBlkSize sizes seeds
  have hCount : 2 * n < 2 ^ 31 := hOps
  replace hSugg : ((List.range n).map fun i => intRand (sizes i) maxBlkSize).sum + 100 < 2 ^ 31 :=
    hSugg
  have hBounds : ∀ q ∈ (random n maxBlkSize sizes seeds).requests, q.size < 2 ^ 31 ∧ q.seq < n := by
    intro q hq
    rw [hRequests] at hq
    rcases List.mem_append.mp (hInserted.requests.subset hq) with hAlloc | hFree
    · obtain ⟨i, hi, rfl⟩ := List.mem_map.mp hAlloc
      have hLe := List.le_sum_of_mem (List.mem_map_of_mem
        (f := fun i => intRand (sizes i) maxBlkSize) hi)
      exact ⟨by show intRand (sizes i) maxBlkSize < 2 ^ 31; omega, List.mem_range.mp hi⟩
    · obtain ⟨i, hi, rfl⟩ := List.mem_map.mp hFree
      exact ⟨by simp [f], List.mem_range.mp hi⟩
  have hTraceOps : (random n maxBlkSize sizes seeds).trace.ops =
      (randomTrace n maxBlkSize sizes seeds).map Request.op := congrArg _ hRequests
  have hLast : a (n - 1) (intRand (sizes (n - 1)) maxBlkSize) ∈ allocs n maxBlkSize sizes :=
    List.mem_map.mpr ⟨n - 1, List.mem_range.mpr (by omega), rfl⟩
  refine ⟨Output.text_eq fun q hq => (hBounds q hq).1, Output.readable ?_ hOps hSugg ?_
    (fun q hq => (hBounds q hq).2)
    ⟨a (n - 1) (intRand (sizes (n - 1)) maxBlkSize), ?_, nofun, ?_⟩,
    hTraceOps ▸ hInserted.consistent, ?_⟩
  · rw [hRequests, hInserted.length]
    show 2 * n = n + n
    omega
  · show n < 2 ^ 31
    omega
  · rw [hRequests]
    exact hInserted.requests.symm.subset (List.mem_append_left _ hLast)
  · show n - 1 + 1 = n
    omega
  · rw [hTraceOps]
    have hLeft := hInserted.left
    rwa [Nat.sub_self] at hLeft

/-- Whatever `rand` gives, `gen_random.pl` asks for each block once and frees it once, and
not before. The driver may take the trace when no size is 0. -/
theorem gen_random_exact (n : Nat) (sizes seeds : Nat → Nat) (hMax : maxBlkSize ≤ 2 ^ 31) :
    (random n maxBlkSize sizes seeds).requests.Perm
      (allocs n maxBlkSize sizes ++ (List.range n).map f) ∧
    Consistent [] (random n maxBlkSize sizes seeds).trace.ops ∧
    leftBy [] (random n maxBlkSize sizes seeds).trace.ops = [] ∧
    (WellFormed ∅ (random n maxBlkSize sizes seeds).trace.ops ↔
      ∀ i < n, intRand (sizes i) maxBlkSize ≠ 0) := by
  have hInserted := inserted_randomTrace n maxBlkSize sizes seeds
  have hRequests := random_requests n maxBlkSize sizes seeds
  have hTraceOps : (random n maxBlkSize sizes seeds).trace.ops =
      (randomTrace n maxBlkSize sizes seeds).map Request.op := congrArg _ hRequests
  have hLeft := hInserted.left
  rw [Nat.sub_self] at hLeft
  refine ⟨hRequests ▸ hInserted.requests, hTraceOps ▸ hInserted.consistent,
    hTraceOps ▸ hLeft.eq_nil, ?_⟩
  have hSize : ∀ i, 0 < toInt (intRand (sizes i) maxBlkSize) ↔
      intRand (sizes i) maxBlkSize ≠ 0 := fun i => by
    have hLt : intRand (sizes i) maxBlkSize < max 1 maxBlkSize := Nat.mod_lt _ (by omega)
    rw [toInt_eq (by omega)]
    omega
  rw [hTraceOps, wellFormed_empty_iff]
  constructor
  · rintro ⟨-, hSizes⟩ i hi
    have hIn : a i (intRand (sizes i) maxBlkSize) ∈ randomTrace n maxBlkSize sizes seeds :=
      hInserted.requests.symm.subset (List.mem_append_left _
        (List.mem_map.mpr ⟨i, List.mem_range.mpr hi, rfl⟩))
    exact (hSize i).mp (hSizes _ (List.mem_map_of_mem hIn) nofun)
  · intro hSizes
    refine ⟨hInserted.consistent, fun op hOp hType => ?_⟩
    obtain ⟨q, hq, rfl⟩ := List.mem_map.mp hOp
    rcases List.mem_append.mp (hInserted.requests.subset hq) with hAlloc | hFree
    · obtain ⟨i, hi, rfl⟩ := List.mem_map.mp hAlloc
      exact (hSize i).mpr (hSizes i (List.mem_range.mp hi))
    · obtain ⟨i, -, rfl⟩ := List.mem_map.mp hFree
      exact absurd rfl hType

/-- Two blocks of 5 and 9 bytes, the first freed before the second is there. -/
theorem gen_random_exact_two :
    WellFormed ∅ (random 2 10 (fun i => 4 * i + 5) fun _ => 0).trace.ops :=
  (gen_random_exact 2 (fun i => 4 * i + 5) (fun _ => 0) (by decide)).2.2.2.mpr (by decide)

end Random

section Scripts

variable {o : Output} {file : List Char} {left : List Nat} {junk : Junk} {t : Trace}

/-- The outputs of the scripts, the files they are written to and the ids they leave, for
all numbers of rounds and all sizes that the scripts could have. -/
inductive Scripted : Output → List Char → List Nat → Prop where
  | binary (blkSize1 blkSize2 : Nat) {numIters : Nat} (h : 0 < numIters) :
      Scripted (binary blkSize1 blkSize2 numIters) (binary blkSize1 blkSize2 numIters).text
        (binaryLeft numIters)
  | coalescing (blkSize numIters : Nat) :
      Scripted (coalescing blkSize numIters) (coalescing blkSize numIters).text []
  | realloc2 (reallocSize sizeIncrement mallocSize : Nat) {numIters : Nat} (h : 0 < numIters) :
      Scripted (realloc2 reallocSize sizeIncrement mallocSize numIters)
        (realloc2 reallocSize sizeIncrement mallocSize numIters).text.dropLast []
  | random {numBlocks : Nat} (maxBlkSize : Nat) (sizes seeds : Nat → Nat) (h : 0 < numBlocks) :
      Scripted (random numBlocks maxBlkSize sizes seeds)
        (random numBlocks maxBlkSize sizes seeds).text []

/-- All five scripts, as long as the numbers of the header fit an `int`. -/
theorem Scripted.sound (h : Scripted o file left) (hSugg : o.suggestedHeapSize < 2 ^ 31)
    (hOps : o.numOps < 2 ^ 31) : o.Sound left := by
  cases h with
  | binary blkSize1 blkSize2 h => exact binary_sound h hSugg hOps
  | coalescing blkSize numIters => exact coalescing_sound hSugg hOps
  | realloc2 reallocSize sizeIncrement mallocSize h => exact realloc2_sound h hSugg hOps
  | random maxBlkSize sizes seeds h => exact random_sound h hSugg hOps

/-- Each script announces an id and a request, or more of them. -/
theorem Scripted.announces (h : Scripted o file left) : 0 < o.numBlocks ∧ 0 < o.numOps := by
  cases h with
  | binary blkSize1 blkSize2 h => exact ⟨Nat.mul_pos (by decide) h, Nat.mul_pos (by decide) h⟩
  | coalescing blkSize numIters => exact ⟨Nat.succ_pos _, Nat.succ_pos _⟩
  | realloc2 reallocSize sizeIncrement mallocSize h => exact ⟨Nat.succ_pos _, Nat.succ_pos _⟩
  | random maxBlkSize sizes seeds h => exact ⟨h, Nat.mul_pos (by decide) h⟩

/-- The file is the text, or its last line is a free and is not ended. -/
theorem Scripted.file_eq (h : Scripted o file left) : file = o.text ∨ file = o.text.dropLast ∧
    ∃ qs i, o.requests = qs ++ [f i] := by
  cases h with
  | @realloc2 reallocSize sizeIncrement mallocSize numIters h =>
      let loop := realloc2Loop sizeIncrement mallocSize (numIters - 1) 1 reallocSize
      refine Or.inr ⟨rfl, a 0 reallocSize :: a 1 mallocSize :: (loop.1 ++ [f loop.2]), 0, ?_⟩
      simp only [Generators.realloc2, List.cons_append, List.append_assoc, loop]
      rfl
  | _ => exact Or.inl rfl

/-- `checktrace.pl` sees the lines of a file and nothing else of it. Whether the last line is
ended makes no difference. -/
theorem checktrace_congr {stdin stdin' : List Char} (h : lines stdin = lines stdin')
    (summary : Bool) :
    Checktrace.checktrace summary stdin = Checktrace.checktrace summary stdin' := by
  rw [Checktrace.checktrace, Checktrace.checktrace, h]

theorem Output.trace_ops_eq (o : Output) {qs : List Request} {i : Nat}
    (h : o.requests = qs ++ [f i]) : o.trace.ops = qs.map Request.op ++ [freeOp i] := by
  rw [Output.trace, h, List.map_append]
  rfl

/-- A file without the end of its last line, which is a free. -/
theorem dropLast_print {first : List TraceOp} {last : TraceOp} (hOps : t.ops = first ++ [last])
    (hType : last.type = .free) : t.print.dropLast =
      (signed t.suggHeapsize ++ '\n' :: (signed t.numIds ++ '\n' :: (signed t.numOps ++ '\n' ::
        (signed t.weight ++ '\n' :: first.flatMap TraceOp.line)))) ++
          'f' :: ' ' :: decimal last.index := by
  have hLast : last.line = 'f' :: ' ' :: decimal last.index ++ ['\n'] := by
    rw [TraceOp.line, hType]
    rfl
  rw [Trace.print, hOps, List.flatMap_append, List.flatMap_singleton, hLast]
  simp only [← List.append_assoc, ← List.cons_append]
  rw [List.dropLast_concat]

/-- The end of the last line makes no difference to the lines. -/
theorem Scripted.lines_file (h : Scripted o file left) (hText : o.text = o.trace.print) :
    lines file = lines o.text := by
  rcases h.file_eq with rfl | ⟨rfl, qs, i, hRequests⟩
  · rfl
  · rw [hText, Checktrace.print_eq, o.trace_ops_eq hRequests, List.map_append, ← List.append_assoc]
    exact lines_dropLast (List.cons_ne_nil _ _) (Checktrace.newline_notMem_opLine (freeOp i)) _

/-- Every file of the scripts whose header fits is read as the trace that it says, keeps to
the ids it holds, and is balanced by a free for each id that it leaves. -/
theorem scripts_sound (h : Scripted o file left) (hSugg : o.suggestedHeapSize < 2 ^ 31)
    (hOps : o.numOps < 2 ^ 31) :
    readTrace junk file = .ok { o.trace with ops := stored junk 0 o.trace.ops } ∧
      Consistent [] o.trace.ops ∧ o.trace.residue.Perm left ∧
      Checktrace.checktrace false file = ⟨o.trace.balanced.print, none⟩ := by
  obtain ⟨hText, hReadable, hConsistent, hLeft⟩ := h.sound hSugg hOps
  have hRead : readTrace junk file = .ok { o.trace with ops := stored junk 0 o.trace.ops } := by
    rcases h.file_eq with rfl | ⟨rfl, qs, i, hRequests⟩
    · rw [hText]
      exact readTrace_print _ hReadable
    · rw [hText, dropLast_print (o.trace_ops_eq hRequests) rfl]
      simpa only [List.append_assoc, List.cons_append] using
        readTrace_reads hReadable (hReadable.reads_unended (o.trace_ops_eq hRequests) rfl)
  refine ⟨hRead, hConsistent, o.trace.residue_perm.trans hLeft, ?_⟩
  rw [checktrace_congr (h.lines_file hText), hText]
  exact (Checktrace.checktrace_consistent hConsistent).1

/-- `gen_coalescing.pl` as it stands. -/
theorem scripts_sound_coalescing : readTrace zeros genCoalescing =
    .ok { (coalescing 4095 2400).trace with
      ops := stored zeros 0 (coalescing 4095 2400).trace.ops } :=
  (scripts_sound (.coalescing 4095 2400) (by decide) (by decide)).1

end Scripts

end Generators
