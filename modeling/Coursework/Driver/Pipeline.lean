import Coursework.Driver.Generators
import Coursework.Driver.Score

/-! The way of a trace through the tools: a script writes it, `checktrace.pl` balances it,
`read_trace` reads it and the driver runs it. -/

namespace Mdriver

open Malloc Checktrace

section Stored

variable {junk : Junk} {ids : Finset Nat} {held : List Nat} {ops : List TraceOp} {op : TraceOp}

/-- A free is the same request whatever its size. -/
theorem allowed_free {size : Int} {fits : -2 ^ 31 ≤ size ∧ size < 2 ^ 31}
    (hType : op.type = .free) :
    TraceOp.Allowed ids ⟨.free, op.index, size, fits⟩ ↔ op.Allowed ids := by
  constructor
  · intro h
    refine ⟨?_, fun hNot => absurd hType hNot⟩
    rw [hType]
    exact h.index
  · intro h
    refine ⟨?_, fun hNot => absurd rfl hNot⟩
    have hIndex := h.index
    rwa [hType] at hIndex

/-- A trace stays well formed when it is stored and read again, whatever sizes memory has for
its frees. -/
theorem wellFormed_stored (junk : Junk) (n : Nat) :
    WellFormed ids (stored junk n ops) ↔ WellFormed ids ops := by
  induction ops generalizing ids n with
  | nil => rfl
  | cons op ops ih =>
      rw [stored]
      split
      · next hType =>
          have hAfter : TraceOp.idsAfter ids { junk.ops n with type := .free, index := op.index } =
              op.idsAfter ids := by
            rw [TraceOp.idsAfter, TraceOp.idsAfter, hType]
          rw [WellFormed, WellFormed, hAfter, ih]
          exact and_congr_left fun _ => allowed_free hType
      · rw [WellFormed, WellFormed, ih]

theorem leftBy_stored (junk : Junk) (n : Nat) (held : List Nat) :
    leftBy held (stored junk n ops) = leftBy held ops := by
  induction ops generalizing held n with
  | nil => rfl
  | cons op ops ih =>
      rw [stored, leftBy, leftBy, List.foldl_cons, List.foldl_cons]
      refine (ih (n + 1) _).trans (congrArg (leftBy · ops) ?_)
      split
      · next hType => rw [TraceOp.nowHeld, TraceOp.nowHeld, hType]
      · rfl

theorem demand_stored (junk : Junk) (n : Nat) :
    (stored junk n ops).map TraceOp.demand = ops.map TraceOp.demand := by
  induction ops generalizing n with
  | nil => rfl
  | cons op ops ih =>
      rw [stored, List.map_cons, List.map_cons, ih]
      congr 1
      split
      · next hType => rw [TraceOp.demand, TraceOp.demand, if_pos rfl, if_pos hType]
      · rfl

end Stored

section Balanced

variable {junk : Junk} {K : Kernel} {d : State Process} {t : Trace}

/-- The frees that are added have no part in the check of `max_index`. Only `a` and `r` raise
it. -/
theorem highest_frees (ops : List TraceOp) (ids : List Nat) :
    highest (ops ++ ids.map freeOp) = highest ops := by
  induction ids using List.reverseRecOn with
  | nil => rw [List.map_nil, List.append_nil]
  | append_singleton ids i ih =>
      rw [List.map_append, List.map_singleton, ← List.append_assoc, highest_append, ih]
      exact Nat.max_zero _

/-- The ids that are left were held before or are named. -/
theorem named_of_left {held : List Nat} {ops : List TraceOp} {i : Nat} (h : i ∈ leftBy held ops) :
    i ∈ held ∨ ∃ op ∈ ops, op.index = i := by
  induction ops generalizing held with
  | nil => exact Or.inl h
  | cons op ops ih =>
      have hNow : i ∈ op.nowHeld held → i ∈ held ∨ op.index = i := by
        unfold TraceOp.nowHeld
        cases op.type with
        | alloc =>
            intro hIn
            rcases List.mem_cons.mp hIn with rfl | hHeld
            · exact Or.inr rfl
            · exact Or.inl hHeld
        | realloc => exact Or.inl
        | free => exact fun hIn => Or.inl (List.mem_of_mem_erase hIn)
      rcases ih h with hIn | ⟨named, hNamed, hIndex⟩
      · rcases hNow hIn with hHeld | hIndex
        · exact Or.inl hHeld
        · exact Or.inr ⟨op, List.mem_cons_self, hIndex⟩
      · exact Or.inr ⟨named, List.mem_cons_of_mem _ hNamed, hIndex⟩

/-- A balanced trace can be read when its number of requests still fits. The ids of the added
frees are ones that the trace names. -/
theorem Trace.Readable.balanced (h : t.Readable)
    (hRoom : t.numOps + t.residue.length < 2 ^ 31) : t.balanced.Readable := by
  have hNumOps := h.numOps
  refine ⟨h.suggHeapsize, h.weight, ?_, hRoom, h.numIds, ?_, ?_⟩
  · show t.numOps + t.residue.length = ((t.ops ++ t.residue.map freeOp).length : Nat)
    rw [List.length_append, List.length_map, hNumOps, Nat.cast_add]
  · show (Mdriver.highest (t.ops ++ t.residue.map freeOp) : Int) = _
    rw [highest_frees]
    exact h.highest
  · show ∀ op ∈ t.ops ++ t.residue.map freeOp, op.index < 2 ^ 32
    refine List.forall_mem_append.mpr ⟨h.indices, fun op hFree => ?_⟩
    obtain ⟨i, hi, rfl⟩ := List.mem_map.mp hFree
    rcases named_of_left (t.residue_perm.subset hi) with hNone | ⟨op, hOp, rfl⟩
    · cases hNone
    · exact h.indices op hOp

/-- The requests of a balanced trace are those that the driver takes, when the trace itself
asks for no empty block. The frees that are added ask for nothing. -/
theorem Trace.balanced_wellFormed (hConsistent : Consistent [] t.ops)
    (hSizes : ∀ op ∈ t.ops, op.type ≠ .free → 0 < op.size) : WellFormed ∅ t.balanced.ops := by
  refine wellFormed_empty_iff.mpr ⟨(Trace.balanced_consistent hConsistent).1, ?_⟩
  refine List.forall_mem_append.mpr ⟨hSizes, fun op hOp hType => ?_⟩
  obtain ⟨i, -, rfl⟩ := List.mem_map.mp hOp
  exact absurd rfl hType

/-- A trace that `checktrace.pl` accepts is consistent. On any other it dies at the first
request that does not keep to the ids. -/
theorem consistent_of_accepted (h : (checktrace false t.print).died = none) :
    Consistent [] t.ops := by
  rcases consistent_or_first [] t.ops with hOps | ⟨before, op, after, hOps, hBefore, hOp⟩
  · exact hOps
  · rw [checktrace_inconsistent hOps hBefore hOp] at h
    cases h

/-- What `checktrace.pl` writes for a readable trace with an id and no empty blocks, if it
accepts it, is read by the driver. No request leaves the arrays of the trace, `mm.c` passes
its check on it, unless `mmap` fails, and all blocks have been freed in the end. -/
theorem balanced_file_accepted (tracenum : Nat) (hMapped : NothingMapped d.linked)
    (hReadable : t.Readable) (hIds : 0 < t.numIds)
    (hSizes : ∀ op ∈ t.ops, op.type ≠ .free → 0 < op.size)
    (hRoom : t.numOps + t.residue.length < 2 ^ 31)
    (hAccepted : (checktrace false t.print).died = none) :
    ∃ trace, readTrace junk (checktrace false t.print).out = .ok trace ∧ trace.InArrays ∧
      leftBy [] trace.ops = [] ∧
      (evalMmValid (mm K) trace.ops tracenum).Meets d
        (fun r u => r = 1 ∧ u.errors = d.errors ∧ NothingMapped u.linked)
        (fun e => e = .linked .mmapFailed) := by
  have hConsistent := consistent_of_accepted hAccepted
  have hRead : readTrace junk (checktrace false t.print).out =
      .ok { t.balanced with ops := stored junk 0 t.balanced.ops } := by
    rw [(checktrace_consistent hConsistent).1]
    exact readTrace_print _ (hReadable.balanced hRoom)
  have hTrace : WellFormed ∅ (stored junk 0 t.balanced.ops) := by
    rw [wellFormed_stored]
    exact t.balanced_wellFormed hConsistent hSizes
  refine ⟨{ t.balanced with ops := stored junk 0 t.balanced.ops }, hRead,
    inArrays_of_read hRead hIds hTrace, ?_, evalMmValid_meets tracenum hMapped hTrace⟩
  show leftBy [] (stored junk 0 t.balanced.ops) = []
  rw [leftBy_stored]
  exact (Trace.balanced_consistent hConsistent).2

/-- A trace that leaves a block, and has a line that asks for it again. -/
def leakyTrace : Trace := ⟨0, 2, 3, 1, [⟨.alloc, 0, 56, by decide⟩, ⟨.alloc, 1, 8, by decide⟩,
  ⟨.realloc, 0, 72, by decide⟩]⟩

theorem balanced_file_accepted_leaky : ∃ trace,
    readTrace zeros (checktrace false leakyTrace.print).out = .ok trace ∧ trace.InArrays ∧
      leftBy [] trace.ops = [] ∧
      (evalMmValid (mm (Kernel.firstFit 0)) trace.ops 0).Meets freshState
        (fun r u => r = 1 ∧ u.errors = freshState.errors ∧ NothingMapped u.linked)
        (fun e => e = .linked .mmapFailed) :=
  balanced_file_accepted 0 nothingMapped_fresh
    ⟨by decide, by decide, rfl, by decide, by decide, by decide, by decide⟩ (by decide) (by decide)
    (by decide) (by decide +kernel)

end Balanced

section Scripts

open Generators

variable {o : Output} {file : List Char} {left : List Nat} {w : Supply}

/-- Balancing a trace asks for nothing more, a free being no request for memory. -/
theorem sum_demand_balanced (t : Trace) :
    (t.balanced.ops.map TraceOp.demand).sum = (t.ops.map TraceOp.demand).sum := by
  have hFrees : ((t.residue.map freeOp).map TraceOp.demand).sum = 0 := by
    rw [List.sum_eq_zero_iff]
    intro n hn
    obtain ⟨op, hOp, rfl⟩ := List.mem_map.mp hn
    obtain ⟨i, -, rfl⟩ := List.mem_map.mp hOp
    rfl
  rw [Trace.balanced, List.map_append, List.sum_append, hFrees, Nat.add_zero]

/-- What `checktrace.pl` makes of a file of the scripts is a file that the driver is meant
for, and its trace leaves nothing. The numbers must fit, and no size may be zero. -/
theorem scripts_fair (h : Scripted o file left) (hSugg : o.suggestedHeapSize < 2 ^ 31)
    (hRoom : o.numOps + left.length < 2 ^ 31)
    (hSizes : ∀ op ∈ o.trace.ops, op.type ≠ .free → 0 < op.size)
    (hDemand : (o.trace.ops.map TraceOp.demand).sum < 2 ^ 31)
    (hFile : w.file = (checktrace false file).out) (hClock : w.stv.usecs ≤ w.etv.usecs) :
    ∃ trace, w.Fair trace ∧ leftBy [] trace.ops = [] := by
  obtain ⟨hText, hReadable, hConsistent, hLeft⟩ := h.sound hSugg (by omega)
  have hOut : (checktrace false file).out = o.trace.balanced.print := by
    rw [checktrace_congr (h.lines_file hText), hText, (checktrace_consistent hConsistent).1]
  have hResidue : o.trace.residue.length = left.length :=
    (o.trace.residue_perm.trans hLeft).length_eq
  have hFits : o.trace.numOps + o.trace.residue.length < 2 ^ 31 := by
    show (o.numOps : Int) + _ < _
    omega
  refine ⟨{ o.trace.balanced with ops := stored w.junk 0 o.trace.balanced.ops },
    ⟨?_, Int.natCast_pos.mpr h.announces.1, ?_, ?_, ?_, hClock⟩, ?_⟩
  · rw [hFile, hOut]
    exact readTrace_print _ (hReadable.balanced hFits)
  · intro hNil
    have hLength := congrArg List.length hNil
    rw [length_stored, Trace.balanced, List.length_append, List.length_nil] at hLength
    have hOps : (o.numOps : Int) = o.trace.ops.length := hReadable.numOps
    have hPos := h.announces.2
    omega
  · rw [wellFormed_stored]
    exact o.trace.balanced_wellFormed hConsistent hSizes
  · show ((stored w.junk 0 o.trace.balanced.ops).map TraceOp.demand).sum < 2 ^ 31
    rw [demand_stored, sum_demand_balanced]
    exact hDemand
  · show leftBy [] (stored w.junk 0 o.trace.balanced.ops) = []
    rw [leftBy_stored]
    exact (Trace.balanced_consistent hConsistent).2

theorem scripts_fair_binary : ∃ trace,
    (⟨(checktrace false (binary 64 448 2).text).out, zeros, fun _ => 0, fun _ => 0, ⟨0, 0⟩,
      ⟨0, 1⟩⟩ : Supply).Fair trace ∧ leftBy [] trace.ops = [] :=
  scripts_fair (.binary 64 448 (by decide)) (by decide) (by decide) (by decide) (by decide) rfl
    (by decide)

end Scripts

end Mdriver
