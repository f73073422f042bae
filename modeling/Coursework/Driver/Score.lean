import Coursework.Driver.Main

/-! What `main` of `mdriver.c` makes of `mm.c`: on traces that keep to their ids, all are
valid, nothing stays mapped from one to the next, and the index is between 0 and 100. -/

namespace Mdriver

open Malloc
open Program (read modify stop)

section Demand

variable {x y : Session} {op : TraceOp} {ops : List TraceOp}

/-- The bytes of the region that an operation may need. -/
def TraceOp.demand (op : TraceOp) : Nat :=
  if op.type = .free then 0 else toSizeT op.size + 4174

/-- A request adds at most its region to the heap, and nothing when a free block fits. -/
theorem bytes_malloc (a : Ideal) (n : Nat) : ((a.malloc n).heap.chunks.map Chunk.size).sum ≤
    (a.heap.chunks.map Chunk.size).sum + (n + 4174) := by
  unfold Ideal.malloc
  split
  · exact Nat.le_add_right _ _
  · exact a.heap.bytes_malloc n

/-- The heap grows by no more than what is asked for and a page. -/
theorem Session.heapBytes_step (x : Session) (op : TraceOp) :
    (x.step op).heapBytes ≤ x.heapBytes + op.demand := by
  unfold Session.step TraceOp.demand
  cases op.type with
  | alloc => exact bytes_malloc x.ideal _
  | realloc =>
      have hMalloc := bytes_malloc x.ideal (toSizeT op.size)
      unfold Session.realloc Session.heapBytes
      cases x.lease op.index with
      | none => exact hMalloc
      | some e => exact Nat.le_trans (Heap.bytes_freeAt _ e.loc) hMalloc
  | free =>
      unfold Session.free Session.heapBytes
      cases x.lease op.index with
      | none => exact Nat.le_refl _
      | some e => exact Heap.bytes_freeAt _ e.loc

/-- The heap is never larger than all regions that the operations so far could have asked
for. -/
theorem Session.heapBytes_after (x : Session) (ops : List TraceOp) :
    ∀ y ∈ x.after ops, y.heapBytes ≤ x.heapBytes + (ops.map TraceOp.demand).sum := by
  induction ops generalizing x with
  | nil => exact nofun
  | cons op ops ih =>
      have hStep := x.heapBytes_step op
      rw [List.map_cons, List.sum_cons]
      refine List.forall_mem_cons.mpr ⟨by omega, fun y hy => ?_⟩
      have hLater := ih (x.step op) y hy
      omega

/-- So it stays below 2 GiB when all these together do, and `eval_mm_util` meets no overflow of
an `int`. -/
theorem Session.small {ops : List TraceOp} (h : (ops.map TraceOp.demand).sum < 2 ^ 31) :
    ∀ y ∈ Session.start.after ops, y.heapBytes < 2 ^ 31 := fun y hy =>
  Nat.lt_of_le_of_lt (Session.start.heapBytes_after ops y hy) ((Nat.zero_add _).symm ▸ h)

/-- The first operation asks for something. -/
theorem peak_pos (hTrace : WellFormed ∅ ops) (hSome : ops ≠ []) :
    0 < peak ((Session.start.after ops).map Session.payloadBytes) := by
  cases ops with
  | nil => exact absurd rfl hSome
  | cons op ops =>
      obtain ⟨hOp, -⟩ := hTrace
      have hType : op.type = .alloc := hOp.index.mpr (Finset.notMem_empty _)
      have hSize := (toSizeT_pos (hOp.size (by simp [hType])) op.fits.2).1
      have hFirst : (Session.start.step op).payloadBytes = toSizeT op.size := by
        rw [Session.step, hType]
        rfl
      rw [Session.after, List.map_cons, peak, hFirst]
      exact lt_max_of_lt_left hSize

/-- A product of positive numbers up to one is positive and at most one. -/
theorem prod_bounds {qs : List ℝ} (h : ∀ q ∈ qs, 0 < q ∧ q ≤ 1) : 0 < qs.prod ∧ qs.prod ≤ 1 := by
  induction qs with
  | nil => exact ⟨one_pos, le_refl 1⟩
  | cons q qs ih =>
      obtain ⟨⟨hPos, hOne⟩, hRest⟩ := List.forall_mem_cons.mp h
      obtain ⟨hPos', hOne'⟩ := ih hRest
      rw [List.prod_cons]
      exact ⟨mul_pos hPos hPos', mul_le_one₀ hOne hPos'.le hOne'⟩

/-- The mean share of the heap that is in use is positive and at most one, since every share
is. -/
theorem meanShare_bounds {xs : List Session} (hFits : ∀ x ∈ xs, x.payloadBytes ≤ x.heapBytes) :
    0 < meanShare xs ∧ meanShare xs ≤ 1 := by
  have hShares : ∀ q ∈ xs.map fun x => ((x.payloadBytes : ℝ) + 1) / ((x.heapBytes : ℝ) + 1),
      0 < q ∧ q ≤ 1 := by
    intro q hq
    obtain ⟨x, hx, rfl⟩ := List.mem_map.mp hq
    have hLe : (x.payloadBytes : ℝ) ≤ x.heapBytes := by exact_mod_cast hFits x hx
    refine ⟨by positivity, (div_le_one (by positivity)).mpr (by linarith)⟩
  obtain ⟨hPos, hOne⟩ := prod_bounds hShares
  exact ⟨Real.rpow_pos_of_pos hPos _, Real.rpow_le_one hPos.le hOne (by positivity)⟩

end Demand

section Files

variable {K : Kernel} {d : State Process} {ops : List TraceOp} {w : Supply} {ws : List Supply}
  {st : Stats} {stats : List Stats} {trace : Trace}

def Timeval.usecs (t : Timeval) : Int := 1000000 * t.tvSec + t.tvUsec

/-- Every request names a place of the arrays `blocks` and `block_sizes`, which have
`num_ids` places. -/
def Trace.InArrays (t : Trace) : Prop := ∀ op ∈ t.ops, (op.index : Int) < t.numIds

/-- A trace that was read stays in its arrays when they have a place and its requests keep
to their ids: `read_trace` checks the ids of `a` and `r`, and an `f` names one of these. -/
theorem inArrays_of_read {junk : Junk} {text : List Char} (h : readTrace junk text = .ok trace)
    (hSome : 0 < trace.numIds) (hTrace : WellFormed ∅ trace.ops) : trace.InArrays := by
  intro op hOp
  rcases hTrace.named hOp with hNone | ⟨q, hq, hAlloc, hSame⟩
  · exact absurd hNone (Finset.notMem_empty _)
  · rw [← hSame]
    exact index_lt_of_read h hSome hq (by rw [hAlloc]; decide)

/-- A file that can be read, with an id, a request or more, requests that keep to their ids
and for which 2 GiB of regions are enough, and a clock that does not go back. -/
structure Supply.Fair (w : Supply) (trace : Trace) : Prop where
  read : readTrace w.junk w.file = .ok trace
  numIds : 0 < trace.numIds
  nonempty : trace.ops ≠ []
  wellFormed : WellFormed ∅ trace.ops
  demand : (trace.ops.map TraceOp.demand).sum < 2 ^ 31
  clock : w.stv.usecs ≤ w.etv.usecs

/-- Results that a trace can have with a correct allocator. -/
structure Stats.Good (st : Stats) : Prop where
  valid : st.valid = 1
  ops : 0 < st.ops
  secs : 0 ≤ st.secs
  util : 0 < st.util ∧ st.util ≤ 1
  instUtil : 0 < st.instUtil ∧ st.instUtil ≤ 1

/-- All of `eval_mm_valid`, which leaves nothing mapped. -/
theorem evalMmValid_meets (tracenum : Nat) (hMapped : NothingMapped d.linked)
    (hTrace : WellFormed ∅ ops) : (evalMmValid (mm K) ops tracenum).Meets d
      (fun r t => r = 1 ∧ t.errors = d.errors ∧ NothingMapped t.linked)
      (fun e => e = .linked .mmapFailed) := by
  rw [Program.meets_congr (evalMmValid_eq tracenum), Program.meets_bind]
  refine ((tracks_started hMapped).run K tracenum 0 hTrace).mono (fun passed s hPassed => ?_)
    fun e he => he.1
  obtain ⟨rfl, hErrors, π, a, ids, hTracks⟩ := hPassed
  rw [if_neg (by decide), Program.meets_bind, meets_call]
  exact (memReset_unmaps hTracks.rep).meets fun _ t hReset => ⟨rfl, hErrors, hReset⟩

/-- The runs that are timed, by induction on their number: each starts with an empty page map,
as the one before has left it. -/
theorem repeated_meets (hMapped : NothingMapped d.linked) (hTrace : WellFormed ∅ ops) (n : Nat) :
    (repeated (evalMmSpeed (metered K) ops) n).Meets d
      (fun _ t => t.errors = d.errors ∧ NothingMapped t.linked)
      (fun e => e = .halted (.linked .mmapFailed)) := by
  induction n generalizing d with
  | zero => exact ⟨rfl, hMapped⟩
  | succ n ih =>
      rw [repeated, Program.meets_bind]
      refine (evalMmSpeed_meets hMapped hTrace).mono (fun _ t hOnce => ?_) fun e he => he
      obtain ⟨hErrors, hReset⟩ := hOnce
      exact (ih hReset).mono (fun _ u hMore => ⟨hMore.1.trans hErrors, hMore.2⟩) fun e he => he

/-- The time of the runs is not negative when the clock has not gone back. The allocator is run
ten times for it, with no error and no page left. -/
theorem fsecs_meets (hMapped : NothingMapped d.linked) (hTrace : WellFormed ∅ ops)
    {stv etv : Timeval} (hClock : stv.usecs ≤ etv.usecs) :
    (fsecs (evalMmSpeed (metered K) ops) stv etv).Meets d
      (fun secs t => 0 ≤ secs ∧ t.errors = d.errors ∧ NothingMapped t.linked)
      (fun e => e = .halted (.linked .mmapFailed)) := by
  rw [fsecs, ftimerGettod, Program.meets_bind]
  refine (repeated_meets hMapped hTrace 10).mono (fun _ t hRuns => ⟨?_, hRuns⟩) fun e he => he
  have hElapsed : (0 : ℚ) ≤ ((etv.usecs - stv.usecs : Int) : ℚ) := by exact_mod_cast by omega
  have hSecs : (1 / 1000 * ((1000 * (etv.tvSec - stv.tvSec : Int) +
      1 / 1000 * (etv.tvUsec - stv.tvUsec : Int)) / (10 : Nat)) : ℚ) =
        ((etv.usecs - stv.usecs : Int) : ℚ) / 10000000 := by
    unfold Timeval.usecs
    push_cast
    ring
  rw [hSecs]
  positivity

/-- `read_trace` checks that the announced number of operations is the number that it has
read. -/
theorem readTrace_numOps {junk : Junk} {text : List Char} (h : readTrace junk text = .ok trace) :
    trace.numOps = trace.ops.length := by
  obtain ⟨_, _, _, _, r, -, -, -, -, -, -, -, -, hLength, hSame⟩ := readTrace_ok h
  rw [hLength, hSame]

/-- What `eval_mm_util` returns is a share. -/
theorem good_usage (hFits : ∀ y ∈ Session.start.after ops, y.payloadBytes ≤ y.heapBytes)
    (hSmall : ∀ y ∈ Session.start.after ops, y.heapBytes < 2 ^ 31) (hTrace : WellFormed ∅ ops)
    (hSome : ops ≠ []) :
    (0 < (Usage.start.collect (Session.start.after ops)).util ∧
      (Usage.start.collect (Session.start.after ops)).util ≤ 1) ∧
    0 < (Usage.start.collect (Session.start.after ops)).instRatio ops.length ∧
      (Usage.start.collect (Session.start.after ops)).instRatio ops.length ≤ 1 := by
  obtain ⟨hTotal, hHeap⟩ := Usage.start.collect_max (Session.start.after ops)
  have hPos := peak_pos hTrace hSome
  have hPeaks := peak_le_peak hFits
  have hNil := Session.after_ne_nil Session.start hSome
  obtain ⟨hLow, hHigh⟩ := Usage.instRatio_collect hNil hFits hSmall
  obtain ⟨hMean, hOne⟩ := meanShare_bounds hFits
  rw [Session.length_after] at hLow hHigh
  refine ⟨?_, by linarith, by linarith⟩
  have hTotal' := hTotal.trans (Nat.zero_max _)
  have hHeap' := hHeap.trans (Nat.zero_max _)
  rw [Usage.util, hTotal', hHeap']
  have hPosQ : (0 : ℚ) < peak ((Session.start.after ops).map Session.payloadBytes) := by
    exact_mod_cast hPos
  have hPeaksQ : (peak ((Session.start.after ops).map Session.payloadBytes) : ℚ) ≤
      peak ((Session.start.after ops).map Session.heapBytes) := by exact_mod_cast hPeaks
  have hHeapQ := lt_of_lt_of_le hPosQ hPeaksQ
  exact ⟨div_pos hPosQ hHeapQ, (div_le_one hHeapQ).mpr hPeaksQ⟩

/-- One file. -/
theorem Supply.Fair.evalTrace (h : w.Fair trace) (hMapped : NothingMapped d.linked)
    (tracenum : Nat) : (evalTrace (metered K) tracenum w).Meets d
      (fun st t => st.Good ∧ t.errors = d.errors ∧ NothingMapped t.linked)
      (fun e => e = .exit (.halted (.linked .mmapFailed))) := by
  have hSmall := Session.small h.demand
  have hLength := readTrace_numOps h.read
  have hPos : 0 < trace.ops.length := List.length_pos_iff.mpr h.nonempty
  unfold Mdriver.evalTrace
  simp only [h.read]
  rw [Program.meets_bind, Program.meets_modify, Program.meets_bind, meets_evaluate, meets_checked]
  refine (evalMmValid_meets (d := { d with blocks := w.blocks, blockSizes := w.blockSizes })
    tracenum hMapped h.wellFormed).mono (fun r s hValid => ?_)
      fun e he => congrArg _ (congrArg _ he)
  obtain ⟨rfl, hErrors, hMapped⟩ := hValid
  rw [if_pos (by decide), Program.meets_bind, meets_evaluate]
  refine (evalMmUtil_meets hMapped h.wellFormed hSmall).mono (fun u t hUtil => ?_)
    fun e he => congrArg _ he
  obtain ⟨rfl, hFits, hErrors', hMapped⟩ := hUtil
  rw [Program.meets_bind, meets_evaluate]
  refine (fsecs_meets hMapped h.wellFormed h.clock).mono (fun secs v hSpeed => ?_)
    fun e he => congrArg _ he
  obtain ⟨hSecs, hErrors'', hMapped⟩ := hSpeed
  obtain ⟨hUtil, hInst⟩ := good_usage hFits hSmall h.wellFormed h.nonempty
  refine ⟨⟨rfl, by show 0 < trace.numOps; omega, hSecs, hUtil, ?_⟩,
    hErrors''.trans (hErrors'.trans hErrors), hMapped⟩
  show 0 < Scaled.halfRoot _ trace.numOps.toNat ∧ Scaled.halfRoot _ trace.numOps.toNat ≤ 1
  rw [hLength, Int.toNat_natCast]
  exact hInst

/-- The traces of fair files stay in their arrays, so the arrays without bounds of the model
are those of the code. -/
theorem inArrays_of_fair {traces : List Trace} (h : List.Forall₂ Supply.Fair ws traces) :
    ∀ t ∈ traces, t.InArrays := by
  induction h with
  | nil => exact nofun
  | cons hFair hRest ih =>
      exact List.forall_mem_cons.mpr
        ⟨inArrays_of_read hFair.read hFair.numIds hFair.wellFormed, ih⟩

/-- The loop of `main`, by induction on the files: each round finds the page map empty, scores
its trace and leaves the page map empty. -/
theorem evalTraces_meets {traces : List Trace} (h : List.Forall₂ Supply.Fair ws traces)
    (hMapped : NothingMapped d.linked) (i : Nat) : (evalTraces (metered K) i ws).Meets d
      (fun stats t => (stats.length = ws.length ∧ ∀ st ∈ stats, st.Good) ∧
        t.errors = d.errors ∧ NothingMapped t.linked)
      (fun e => e = .exit (.halted (.linked .mmapFailed))) := by
  induction h generalizing i d with
  | nil => exact ⟨⟨rfl, nofun⟩, rfl, hMapped⟩
  | cons hFair hRest ih =>
      rw [evalTraces, Program.meets_bind]
      refine (hFair.evalTrace hMapped i).mono (fun st s hFirst => ?_) fun e he => he
      obtain ⟨hGood, hErrors, hMapped⟩ := hFirst
      rw [Program.meets_bind]
      refine (ih hMapped (i + 1)).mono (fun stats t hMore => ?_) fun e he => he
      obtain ⟨⟨hLength, hAll⟩, hErrors', hMapped⟩ := hMore
      exact ⟨⟨congrArg (· + 1) hLength, List.forall_mem_cons.mpr ⟨hGood, hAll⟩⟩,
        hErrors'.trans hErrors, hMapped⟩

end Files

section Index

variable {stats : List Stats}

/-- An average of numbers between zero and one is between zero and one. -/
theorem average_bounds {f : Stats → ℝ} (hSome : stats ≠ [])
    (h : ∀ st ∈ stats, 0 < f st ∧ f st ≤ 1) :
    0 < (stats.map f).sum / stats.length ∧ (stats.map f).sum / stats.length ≤ 1 := by
  have hLength : (0 : ℝ) < stats.length := by exact_mod_cast List.length_pos_iff.mpr hSome
  have hPos : 0 < (stats.map f).sum := by
    refine List.sum_pos _ (fun x hx => ?_) (by simpa using hSome)
    obtain ⟨st, hst, rfl⟩ := List.mem_map.mp hx
    exact (h st hst).1
  have hLe : (stats.map f).sum ≤ stats.length := by
    have hSum := List.sum_le_card_nsmul (stats.map f) 1 fun x hx => by
      obtain ⟨st, hst, rfl⟩ := List.mem_map.mp hx
      exact (h st hst).2
    simpa using hSum
  exact ⟨div_pos hPos hLength, (div_le_one hLength).mpr hLe⟩

/-- The share of the throughput is between 0 and 40 percent. -/
theorem p2_bounds (hSome : stats ≠ []) (hOps : ∀ st ∈ stats, 0 < st.ops)
    (hSecs : ∀ st ∈ stats, 0 ≤ st.secs) : 0 ≤ p2 stats ∧ p2 stats ≤ 0.4 := by
  have hOpsPos : 0 < (stats.map fun st => (st.ops : ℝ)).sum := by
    refine List.sum_pos _ (fun x hx => ?_) (by simpa using hSome)
    obtain ⟨st, hst, rfl⟩ := List.mem_map.mp hx
    exact_mod_cast hOps st hst
  have hSecsPos : 0 ≤ (stats.map fun st => (st.secs : ℝ)).sum := by
    refine List.sum_nonneg fun x hx => ?_
    obtain ⟨st, hst, rfl⟩ := List.mem_map.mp hx
    exact_mod_cast hSecs st hst
  have hWeight : 1 - (utilWeight + utilIWeight) = 0.4 := by
    rw [utilWeight, utilIWeight]
    norm_num
  have hLibc : 0 < avgLibcThruput := by
    rw [avgLibcThruput]
    norm_num
  unfold p2
  simp only [hWeight]
  split
  · norm_num
  · next hSlow =>
      unfold TooFast at hSlow
      split at hSlow
      · exact absurd hOpsPos hSlow
      · have hShare := (div_le_one hLibc).mpr (not_lt.mp hSlow)
        have hNonneg : 0 ≤ (stats.map fun st => (st.ops : ℝ)).sum /
            (stats.map fun st => (st.secs : ℝ)).sum / avgLibcThruput := by positivity
        constructor <;> linarith

/-- The index of valid traces: its three parts are weighted by 30, 30 and 40 percent. -/
theorem perfindex_bounds (hSome : stats ≠ []) (h : ∀ st ∈ stats, st.Good) :
    0 < perfindex stats 0 ∧ perfindex stats 0 ≤ 100 := by
  obtain ⟨hUtil, hUtilOne⟩ := average_bounds (f := fun st => (st.util : ℝ)) hSome fun st hst => by
    obtain ⟨hPos, hOne⟩ := (h st hst).util
    exact ⟨by exact_mod_cast hPos, by exact_mod_cast hOne⟩
  obtain ⟨hInst, hInstOne⟩ := average_bounds hSome fun st hst => (h st hst).instUtil
  obtain ⟨hLow, hHigh⟩ := p2_bounds hSome (fun st hst => (h st hst).ops)
    fun st hst => (h st hst).secs
  have hUtilWeight : utilWeight = 0.3 := rfl
  have hInstWeight : utilIWeight = 0.3 := rfl
  rw [perfindex, if_pos rfl, p1, p1i, hUtilWeight, hInstWeight]
  constructor <;> linarith

end Index

section Driver

variable {K : Kernel} {d : State Process} {ws : List Supply} {traces : List Trace}

/-- On any files of traces that keep to their ids and for which 2 GiB of regions are enough,
no request leaves the arrays of its trace, and `main` stops before its end only when `mmap`
fails. It finds each trace valid and reports no error, the page map is empty in the end, each
share of the heap is positive and at most one, and the index is positive and at most 100. -/
theorem main_scores (hMapped : NothingMapped d.linked) (hErrors : d.errors = []) (hSome : ws ≠ [])
    (hFair : List.Forall₂ Supply.Fair ws traces) : (∀ t ∈ traces, t.InArrays) ∧
    (evalTraces (metered K) 0 ws).Meets d
      (fun stats t => t.errors = [] ∧ numcorrect stats = ws.length ∧ NothingMapped t.linked ∧
        (∀ st ∈ stats, st.Good) ∧
        0 < perfindex stats t.errors.length ∧ perfindex stats t.errors.length ≤ 100)
      (fun e => e = .exit (.halted (.linked .mmapFailed))) := by
  refine ⟨inArrays_of_fair hFair,
    (evalTraces_meets hFair hMapped 0).mono (fun stats t hEnd => ?_) fun e he => he⟩
  obtain ⟨⟨hLength, hGood⟩, hSame, hReset⟩ := hEnd
  have hStats : stats ≠ [] := by
    rintro rfl
    exact hSome (List.eq_nil_of_length_eq_zero hLength.symm)
  have hCorrect : numcorrect stats = ws.length := by
    rw [numcorrect, ← hLength, List.countP_eq_length]
    intro st hst
    rw [decide_eq_true_eq, (hGood st hst).valid]
    decide
  rw [hSame, hErrors]
  exact ⟨rfl, hCorrect, hReset, hGood, perfindex_bounds hStats hGood⟩

/-- A file with two requests, which run for 40 microseconds. -/
def sampleSupply : Supply :=
  ⟨"0 1 2 1 a 0 8 f 0".toList, zeros, fun _ => 0, fun _ => 0, ⟨5, 0⟩, ⟨5, 40⟩⟩

theorem sampleSupply_fair : sampleSupply.Fair ⟨0, 1, 2, 1, [⟨.alloc, 0, 8, by decide⟩,
    ⟨.free, 0, 0, by decide⟩]⟩ :=
  ⟨by decide +kernel, by decide, by decide, by decide, by decide, by decide⟩

theorem sampleSupply_runs :
    (evalTraces (metered (Kernel.firstFit 0)) 0 [sampleSupply] freshState).map
      (fun r => r.1.map Stats.valid) = .ok [1] := by
  decide +kernel

theorem main_scores_sample : ∃ stats t,
    evalTraces (metered (Kernel.firstFit 0)) 0 [sampleSupply] freshState = .ok (stats, t) ∧
    t.errors = [] ∧ numcorrect stats = 1 ∧ NothingMapped t.linked ∧ (∀ st ∈ stats, st.Good) ∧
    0 < perfindex stats t.errors.length ∧ perfindex stats t.errors.length ≤ 100 := by
  have hRun := sampleSupply_runs
  have hFair := sampleSupply_fair
  generalize sampleSupply = w at hRun hFair ⊢
  cases hCase : evalTraces (metered (Kernel.firstFit 0)) 0 [w] freshState with
  | error e =>
      rw [hCase] at hRun
      cases hRun
  | ok r => exact ⟨r.1, r.2, rfl, (main_scores nothingMapped_fresh rfl (List.cons_ne_nil _ _)
      (.cons hFair .nil)).2.of_ok hCase⟩

end Driver

end Mdriver
