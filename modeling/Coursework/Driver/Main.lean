import Coursework.Driver.TraceFile
import Coursework.Driver.Utilization

/-! The evaluation of an allocator in `main` of `mdriver.c`: the loop over the trace files,
the timer of `ftimer.c` and the performance index. Whatever the allocator does, a trace is
invalid exactly when an error was reported for it. -/

namespace Mdriver

open Program (read modify stop)

/-- `struct timeval` -/
structure Timeval where
  tvSec : Int
  tvUsec : Int
deriving DecidableEq, Repr

/-- Why `main` does not come to its end. -/
inductive Stop (ε : Type) where
  | trace (e : ReadError)
  | exit (e : Exit ε)
deriving DecidableEq, Repr

/-- `stats_t`, with `inst_util` as the fraction and the power of two that it is made of. -/
structure Stats where
  ops : Int
  valid : Nat
  secs : ℚ
  util : ℚ
  accumRatio : Scaled ℚ
deriving DecidableEq, Repr

noncomputable def Stats.instUtil (st : Stats) : ℝ := st.accumRatio.halfRoot st.ops.toNat

/-- What there is for a trace: its file, what is in the memory for the trace and for its
arrays, and what the clock says before and after the runs that are timed. -/
structure Supply where
  file : List Char
  junk : Junk
  blocks : Nat → Nat
  blockSizes : Nat → Nat
  stv : Timeval
  etv : Timeval

abbrev Main (σ ε α : Type) : Type := Program (State σ) (Stop ε) α

section Code

variable {σ ε α : Type}

def evaluate (x : Evaluator σ ε α) : Main σ ε α := fun s => (x s).mapError .exit

/-- `for (i = 0; i < n; i++) f(argp);` -/
def repeated (f : Evaluator σ ε Unit) : Nat → Evaluator σ ε Unit
  | 0 => pure ()
  | n + 1 => do
      f
      repeated f n

def ftimerGettod (f : Evaluator σ ε Unit) (n : Nat) (stv etv : Timeval) : Evaluator σ ε ℚ := do
  repeated f n
  let diff : ℚ := 1000 * (etv.tvSec - stv.tvSec : Int) + 1 / 1000 * (etv.tvUsec - stv.tvUsec : Int)
  pure (1 / 1000 * (diff / n))

/-- `fsecs` with `USE_GETTOD`. -/
def fsecs (f : Evaluator σ ε Unit) (stv etv : Timeval) : Evaluator σ ε ℚ :=
  ftimerGettod f 10 stv etv

/-- A round of the loop over the trace files. The array of results is zero where nothing
is stored. -/
def evalTrace (L : Metered σ ε) (tracenum : Nat) (w : Supply) : Main σ ε Stats :=
  match readTrace w.junk w.file with
  | .error e => stop (.trace e)
  | .ok trace => do
      modify fun s => { s with blocks := w.blocks, blockSizes := w.blockSizes }
      let valid ← evaluate (checked (evalMmValid L.toLinked trace.ops tracenum))
      if valid ≠ 0 then do
        let u ← evaluate (evalMmUtil L trace.ops)
        let secs ← evaluate (fsecs (evalMmSpeed L trace.ops) w.stv w.etv)
        pure ⟨trace.numOps, valid, secs, u.util, u.accumRatio⟩
      else pure ⟨trace.numOps, valid, 0, 0, ⟨0, 0⟩⟩

def evalTraces (L : Metered σ ε) : Nat → List Supply → Main σ ε (List Stats)
  | _, [] => pure []
  | i, w :: ws => do
      let st ← evalTrace L i w
      let rest ← evalTraces L (i + 1) ws
      pure (st :: rest)

end Code

/-- `numcorrect` -/
def numcorrect (stats : List Stats) : Nat := stats.countP fun st => st.valid ≠ 0

section Index

/-- `UTIL_WEIGHT` and `UTIL_I_WEIGHT`, which are equal. -/
noncomputable def utilWeight : ℝ := 0.3

noncomputable def utilIWeight : ℝ := 0.3

/-- `AVG_LIBC_THRUPUT` -/
noncomputable def avgLibcThruput : ℝ := 7500000

/-- `ops/secs > AVG_LIBC_THRUPUT`; a quotient by zero is infinite. -/
def TooFast (ops secs : ℝ) : Prop := if secs = 0 then 0 < ops else avgLibcThruput < ops / secs

noncomputable def p1 (stats : List Stats) : ℝ :=
  utilWeight * ((stats.map fun st => (st.util : ℝ)).sum / stats.length)

noncomputable def p1i (stats : List Stats) : ℝ :=
  utilIWeight * ((stats.map Stats.instUtil).sum / stats.length)

open Classical in
noncomputable def p2 (stats : List Stats) : ℝ :=
  let secs := (stats.map fun st => (st.secs : ℝ)).sum
  let ops := (stats.map fun st => (st.ops : ℝ)).sum
  if TooFast ops secs then 1 - (utilWeight + utilIWeight)
  else (1 - (utilWeight + utilIWeight)) * (ops / secs / avgLibcThruput)

/-- The performance index, when there were so many errors. -/
noncomputable def perfindex (stats : List Stats) (errors : Nat) : ℝ :=
  if errors = 0 then (p1 stats + p1i stats + p2 stats) * 100 else 0

end Index

section Reports

variable {σ ε : Type} {L : Linked σ ε} {s t d : State σ} {tracenum i : Nat} {op : TraceOp}
  {ops : List TraceOp}

/-- What a check has reported when it returns: nothing, or the one error that it failed of. -/
def Reported (tracenum : Nat) (s : State σ) (passed : Bool) (t : State σ) : Prop :=
  t.errors.map TraceError.tracenum =
    s.errors.map TraceError.tracenum ++ if passed then [] else [tracenum]

/-- A step that leaves the list of errors alone has reported nothing, and counts as one that
passed. -/
theorem Reported.quiet (h : t.errors = s.errors) : Reported tracenum s true t := by
  rw [Reported, h]
  exact (List.append_nil _).symm

/-- After a step that passed, what a later step reports is what both have reported. So a check
that stops at its first failure reports one error at most. -/
theorem Reported.trans {passed : Bool} (h : Reported tracenum d true s)
    (h' : Reported tracenum s passed t) : Reported tracenum d passed t := by
  rw [Reported, h', h, if_pos rfl, List.append_nil]

/-- A failed check. `malloc_error` puts one error with the number of the trace on the list, and
the branch that calls it returns its own value. -/
theorem meets_mallocError {α : Type} {a : α} {msg : Message} {Q : α → State σ → Prop}
    (h : ∀ t, Reported tracenum s false t → Q a t) :
    (mallocError tracenum i msg >>= fun _ => pure a : Driver σ ε α).Meets s Q fun _ => True := by
  refine h _ ?_
  rw [Reported, List.map_append]
  rfl

/-- A call of the allocator reports nothing, whatever the allocator does: it has no access to
the list of errors of the driver. -/
theorem meets_call_quiet {α : Type} {x : Program σ ε α} {Q : α → State σ → Prop}
    (h : ∀ a t, t.errors = s.errors → Q a t) : (call x).Meets s Q fun _ => True := by
  refine meets_call.mpr (Program.Meets.mono (Q := fun _ _ => True) (E := fun _ => True) ?_
    (fun a t _ => h a _ rfl) fun _ he => he)
  unfold Program.Meets
  split <;> trivial

/-- The loop over the pages of a payload reports nothing by itself. It goes on as long as pages
are mapped, which the induction follows. -/
theorem pagesMapped_quiet {is : List Nat} {lo : Nat} {Q : Bool → State σ → Prop}
    (h : ∀ b t, t.errors = s.errors → Q b t) :
    (pagesMapped L lo is).Meets s Q fun _ => True := by
  induction is generalizing s with
  | nil => exact h true s rfl
  | cons i is ih =>
      rw [pagesMapped, Program.meets_bind]
      refine meets_call_quiet fun mapped t hSame => ?_
      split
      · exact ih fun b u hQuiet => h b u (hQuiet.trans hSame)
      · exact h false t hSame

/-- `add_range` returns 0 when it reports an error, and only then. Each of its four checks ends
in a report and a zero, and no report comes after another. -/
theorem addRange_reports (L : Linked σ ε) (lo : Nat) (size : Int) (tracenum i : Nat)
    (s : State σ) : (addRange L lo size tracenum i).Meets s
      (fun added t => Reported tracenum s (decide (added ≠ 0)) t) fun _ => True := by
  unfold addRange
  split
  · trivial
  split
  · exact meets_mallocError fun t hReported => hReported
  rw [Program.meets_bind]
  refine pagesMapped_quiet fun inside t hInside => ?_
  split
  · exact meets_mallocError fun u hReported => (Reported.quiet hInside).trans hReported
  rw [Program.meets_bind]
  refine meets_call_quiet fun last u hLast => ?_
  have hSame : Reported tracenum s true u := Reported.quiet (hLast.trans hInside)
  split
  · exact meets_mallocError fun v hReported => hSame.trans hReported
  rw [Program.meets_bind, Program.meets_read]
  split
  · exact meets_mallocError fun v hReported => hSame.trans hReported
  · exact hSame

/-- What is left of an operation when there is a new payload to check: it fails with the report
of `add_range`, or goes on as the rest does. -/
theorem meets_added {lo : Nat} {size : Int} {rest : Driver σ ε Bool}
    (hQuiet : Reported tracenum d true s)
    (hRest : ∀ u, Reported tracenum d true u → rest.Meets u (fun passed t =>
      Reported tracenum d passed t) fun _ => True) :
    (addRange L lo size tracenum i >>= fun added =>
      if added = 0 then pure false else rest).Meets s
        (fun passed t => Reported tracenum d passed t) fun _ => True := by
  rw [Program.meets_bind]
  refine (addRange_reports L lo size tracenum i s).mono (fun added t hReported => ?_) fun _ he => he
  by_cases hAdded : added = 0
  · subst hAdded
    exact hQuiet.trans hReported
  · rw [if_neg hAdded]
    rw [decide_eq_true hAdded] at hReported
    exact hRest t (hQuiet.trans hReported)

/-- An operation fails when it reports an error, and only then. The allocator may answer
anything, also the same address twice. -/
theorem evalOp_reports (L : Linked σ ε) (tracenum i : Nat) (op : TraceOp) (s : State σ) :
    (evalOp L tracenum i op).Meets s (fun passed t => Reported tracenum s passed t)
      fun _ => True := by
  unfold evalOp
  cases op.type with
  | alloc =>
      rw [Program.meets_bind]
      refine meets_call_quiet fun p t hMalloc => ?_
      split
      · exact meets_mallocError fun u hReported => (Reported.quiet hMalloc).trans hReported
      · refine meets_added (Reported.quiet hMalloc) fun u hQuiet => ?_
        rw [Program.meets_bind]
        exact meets_call_quiet fun _ v hMemset => hQuiet.trans (Reported.quiet hMemset)
  | realloc =>
      rw [Program.meets_bind, Program.meets_read, Program.meets_bind]
      refine meets_call_quiet fun p t hMalloc => ?_
      split
      · exact meets_mallocError fun u hReported => (Reported.quiet hMalloc).trans hReported
      · rw [Program.meets_bind]
        refine meets_added (Reported.quiet hMalloc) fun u hQuiet => ?_
        rw [Program.meets_bind]
        refine meets_call_quiet fun _ v hMemset => ?_
        rw [Program.meets_bind]
        exact meets_call_quiet fun _ w hFree =>
          hQuiet.trans (Reported.quiet (hFree.trans hMemset))
  | free =>
      rw [Program.meets_bind, Program.meets_read, Program.meets_bind]
      refine (Program.meets_bind).mpr ?_
      exact meets_call_quiet fun _ t hFree => Reported.quiet hFree

/-- The operations of a trace, by induction: the first that fails is the last that runs, so its
error is the only one. -/
theorem evalOps_reports (L : Linked σ ε) (tracenum i : Nat) (ops : List TraceOp) (s : State σ) :
    (evalOps L tracenum i ops).Meets s (fun passed t => Reported tracenum s passed t)
      fun _ => True := by
  induction ops generalizing i s with
  | nil => exact Reported.quiet rfl
  | cons op ops ih =>
      rw [evalOps, Program.meets_bind]
      refine (evalOp_reports L tracenum i op s).mono (fun passed t hReported => ?_) fun _ he => he
      cases passed with
      | false => exact hReported
      | true => exact (ih (i + 1) t).mono (fun _ _ hRest => hReported.trans hRest) fun _ he => he

/-- `eval_mm_valid` returns 1, or 0 after it has reported one error. This needs nothing of the
allocator, not even that it works. -/
theorem evalMmValid_reports (L : Linked σ ε) (ops : List TraceOp) (tracenum : Nat) (s : State σ) :
    (evalMmValid L ops tracenum).Meets s
      (fun r t => r ≤ 1 ∧ Reported tracenum s (decide (r ≠ 0)) t) fun _ => True := by
  rw [evalMmValid, Program.meets_bind]
  refine Program.meets_modify.mpr ?_
  rw [Program.meets_bind]
  refine meets_call_quiet fun r t hInit => ?_
  have hQuiet : Reported tracenum s true t := Reported.quiet hInit
  split
  · exact meets_mallocError fun u hReported => ⟨Nat.zero_le 1, hQuiet.trans hReported⟩
  rw [Program.meets_bind]
  refine (evalOps_reports L tracenum 0 ops t).mono (fun passed u hReported => ?_) fun _ he => he
  cases passed with
  | false => exact ⟨Nat.zero_le 1, hQuiet.trans hReported⟩
  | true =>
      rw [if_neg (by decide), Program.meets_bind]
      exact meets_call_quiet fun _ v hReset => ⟨Nat.le_refl 1,
        hQuiet.trans (hReported.trans (Reported.quiet hReset))⟩

end Reports

section Quiet

variable {σ ε α : Type} {L : Metered σ ε} {s t d : State σ}

/-- Whatever comes of it, no error is reported. -/
def Quiet (x : Evaluator σ ε α) : Prop :=
  ∀ s, x.Meets s (fun _ t => t.errors = s.errors) fun _ => True

/-- A sequence of quiet evaluators is quiet. -/
theorem Quiet.bind {β : Type} {x : Evaluator σ ε α} {f : α → Evaluator σ ε β} (hx : Quiet x)
    (hf : ∀ a, Quiet (f a)) : Quiet (x >>= f) := by
  intro s
  rw [Program.meets_bind]
  exact (hx s).mono (fun a t hSame => (hf a t).mono (fun _ _ h => h.trans hSame) fun _ he => he)
    fun _ he => he

/-- So is a branch between two of them. -/
theorem Quiet.ite {c : Prop} [Decidable c] {x y : Evaluator σ ε α} (hx : Quiet x) (hy : Quiet y) :
    Quiet (if c then x else y) := by
  split
  · exact hx
  · exact hy

/-- A result reports nothing. -/
theorem Quiet.of_pure (a : α) : Quiet (pure a : Evaluator σ ε α) := fun _ => rfl

/-- A stop reports nothing: the evaluators print a message and exit, and do not count it. -/
theorem Quiet.of_stop (e : Exit ε) : Quiet (stop e : Evaluator σ ε α) := fun _ => trivial

/-- Reading the state reports nothing. -/
theorem Quiet.of_read : Quiet (read : Evaluator σ ε (State σ)) := fun _ => rfl

/-- The two arrays of the trace have no part in the list of errors. -/
theorem Quiet.of_remember (index p size : Nat) :
    Quiet (checked (remember index p size) : Evaluator σ ε Unit) := fun _ => rfl

/-- Nor has the one array that `eval_mm_speed` writes to. -/
theorem Quiet.of_rememberBlock (index p : Nat) :
    Quiet (rememberBlock index p : Evaluator σ ε Unit) := fun _ => rfl

/-- A call of the allocator by an evaluator reports nothing, as it does not under the check. -/
theorem Quiet.of_request (x : Program σ ε α) : Quiet (request x) := fun s => by
  refine meets_request.mpr (Program.Meets.mono (Q := fun _ _ => True) (E := fun _ => True) ?_
    (fun _ _ _ => rfl) fun _ he => he)
  unfold Program.Meets
  split <;> trivial

/-- An operation under `eval_mm_util` reports nothing. Its failures end the program with
`app_error`, so that no run which goes on has lost one. -/
theorem quiet_utilOp (L : Metered σ ε) (op : TraceOp) (totalSize : Nat) :
    Quiet (evalUtilOp L op totalSize) := by
  unfold evalUtilOp
  cases op.type with
  | alloc =>
      exact (Quiet.of_request _).bind fun p => (Quiet.of_stop _).ite
        ((Quiet.of_remember _ _ _).bind fun _ => Quiet.of_pure _)
  | realloc =>
      exact Quiet.of_read.bind fun s => (Quiet.of_request _).bind fun p => (Quiet.of_stop _).ite
        ((Quiet.of_request _).bind fun _ => (Quiet.of_remember _ _ _).bind fun _ =>
          (Quiet.of_stop _).ite (Quiet.of_pure _))
  | free =>
      exact Quiet.of_read.bind fun s => (Quiet.of_request _).bind fun _ => Quiet.of_pure _

/-- The whole of `eval_mm_util` reports nothing. -/
theorem quiet_evalMmUtil (L : Metered σ ε) (ops : List TraceOp) : Quiet (evalMmUtil L ops) := by
  have hOps : ∀ u, Quiet (evalUtilOps L ops u) := by
    induction ops with
    | nil => exact fun u => Quiet.of_pure u
    | cons op ops ih =>
        exact fun u => (quiet_utilOp L op u.totalSize).bind fun total =>
          (Quiet.of_request _).bind fun heap => ih _
  exact (Quiet.of_request _).bind fun r => (Quiet.of_stop _).ite ((hOps _).bind fun u =>
    (Quiet.of_request _).bind fun _ => Quiet.of_pure u)

/-- Nor does an operation under `eval_mm_speed`, whose failures end the program in the same
way. -/
theorem quiet_speedOp (L : Metered σ ε) (op : TraceOp) : Quiet (evalSpeedOp L op) := by
  unfold evalSpeedOp
  cases op.type with
  | alloc =>
      exact (Quiet.of_request _).bind fun p => (Quiet.of_stop _).ite (Quiet.of_rememberBlock _ _)
  | realloc =>
      exact Quiet.of_read.bind fun s => (Quiet.of_request _).bind fun p => (Quiet.of_stop _).ite
        ((Quiet.of_request _).bind fun _ => Quiet.of_rememberBlock _ _)
  | free => exact Quiet.of_read.bind fun s => Quiet.of_request _

/-- The whole of `eval_mm_speed` reports nothing. -/
theorem quiet_evalMmSpeed (L : Metered σ ε) (ops : List TraceOp) : Quiet (evalMmSpeed L ops) := by
  have hOps : Quiet (evalSpeedOps L ops) := by
    induction ops with
    | nil => exact Quiet.of_pure ()
    | cons op ops ih => exact (quiet_speedOp L op).bind fun _ => ih
  exact (Quiet.of_request _).bind fun r => (Quiet.of_stop _).ite (hOps.bind fun _ =>
    Quiet.of_request _)

/-- Timing a quiet evaluator is quiet, since the ten runs are all that it does to the state. -/
theorem quiet_fsecs {f : Evaluator σ ε Unit} (hf : Quiet f) (stv etv : Timeval) :
    Quiet (fsecs f stv etv) := by
  have hRuns : ∀ n, Quiet (repeated f n) := fun n => by
    induction n with
    | zero => exact Quiet.of_pure ()
    | succ n ih => exact hf.bind fun _ => ih
  exact (hRuns 10).bind fun _ => Quiet.of_pure _

/-- An evaluator within `main`: what it stops with becomes an exit of the whole. -/
theorem meets_evaluate {x : Evaluator σ ε α} {Q : α → State σ → Prop} {E : Stop ε → Prop} :
    (evaluate x).Meets s Q E ↔ x.Meets s Q fun e => E (.exit e) := by
  cases hRun : x s with
  | error e =>
      have hMain : evaluate x s = .error (.exit e) := by
        rw [evaluate, hRun]
        rfl
      rw [Program.meets_of_error hMain, Program.meets_of_error hRun]
  | ok r =>
      have hMain : evaluate x s = .ok r := by
        rw [evaluate, hRun]
        rfl
      rw [Program.meets_of_ok hMain, Program.meets_of_ok hRun]

end Quiet

section Counting

variable {σ ε : Type} {s t : State σ} {st : Stats}

/-- The numbers of the traces that are not valid, where the first one has the number `i`. -/
def invalid : Nat → List Stats → List Nat
  | _, [] => []
  | i, st :: stats => if st.valid = 0 then i :: invalid (i + 1) stats else invalid (i + 1) stats

/-- A round of the loop of `main` reports one error if the trace is not valid, and none if it
is. The two evaluators that follow a valid trace add none. -/
theorem evalTrace_reports (L : Metered σ ε) (tracenum : Nat) (w : Supply) (s : State σ) :
    (evalTrace L tracenum w).Meets s
      (fun st t => st.valid ≤ 1 ∧ Reported tracenum s (decide (st.valid ≠ 0)) t)
      fun _ => True := by
  unfold evalTrace
  cases hRead : readTrace w.junk w.file with
  | error e => trivial
  | ok trace =>
      simp only
      rw [Program.meets_bind, Program.meets_modify, Program.meets_bind, meets_evaluate,
        meets_checked]
      refine (evalMmValid_reports _ _ tracenum _).mono (fun r t hValid => ?_) fun _ he => he
      obtain ⟨hBound, hReported⟩ := hValid
      split
      · rw [Program.meets_bind, meets_evaluate]
        refine (quiet_evalMmUtil L trace.ops t).mono (fun u v hUtil => ?_) fun _ he => he
        rw [Program.meets_bind, meets_evaluate]
        refine (quiet_fsecs (quiet_evalMmSpeed L trace.ops) w.stv w.etv v).mono
          (fun secs w hSpeed => ?_) fun _ he => he
        refine ⟨hBound, ?_⟩
        show Reported tracenum s (decide (r ≠ 0)) w
        rw [Reported, hSpeed, hUtil]
        exact hReported
      · exact ⟨hBound, hReported⟩

/-- Each trace is counted once, by `numcorrect` or among the invalid ones. -/
theorem length_invalid (i : Nat) (stats : List Stats) :
    (invalid i stats).length + numcorrect stats = stats.length := by
  induction stats generalizing i with
  | nil => rfl
  | cons st stats ih =>
      have hRest := ih (i + 1)
      rw [numcorrect] at hRest ⊢
      rw [invalid, List.countP_cons, List.length_cons]
      by_cases hValid : st.valid = 0
      · rw [if_pos hValid, if_neg (show ¬decide (st.valid ≠ 0) = true by simp [hValid]),
          List.length_cons]
        omega
      · rw [if_neg hValid, if_pos (decide_eq_true hValid)]
        omega

/-- The loop, by induction on the files: the errors are those from before and one for each
invalid trace, in the order of the files. -/
theorem evalTraces_reports {L : Metered σ ε} {i : Nat} {ws : List Supply} {stats : List Stats}
    (h : evalTraces L i ws s = .ok (stats, t)) :
    t.errors.map TraceError.tracenum = s.errors.map TraceError.tracenum ++ invalid i stats ∧
      stats.length = ws.length := by
  induction ws generalizing i s stats with
  | nil =>
      obtain ⟨rfl, rfl⟩ := Prod.mk.inj (Except.ok.inj h)
      exact ⟨(List.append_nil _).symm, rfl⟩
  | cons w ws ih =>
      obtain ⟨st, u, hFirst, hLater⟩ := Program.bind_eq_ok.mp h
      obtain ⟨rest, v, hLoop, hEnd⟩ := Program.bind_eq_ok.mp hLater
      obtain ⟨rfl, rfl⟩ := Prod.mk.inj (Except.ok.inj hEnd)
      obtain ⟨-, hReported⟩ := (evalTrace_reports L i w s).of_ok hFirst
      obtain ⟨hErrors, hLength⟩ := ih hLoop
      refine ⟨?_, congrArg (· + 1) hLength⟩
      rw [hErrors, hReported, List.append_assoc, invalid]
      congr 1
      by_cases hValid : st.valid = 0
      · rw [if_pos hValid, hValid]
        rfl
      · rw [if_neg hValid, decide_eq_true hValid]
        rfl

/-- With any allocator, after any files: each trace that is not valid has one error, in
their order, and a valid trace has none. So there are as many errors as traces that are not
valid, and none exactly when all are. -/
theorem errors_exact {L : Metered σ ε} {ws : List Supply} {stats : List Stats}
    (hStart : s.errors = []) (h : evalTraces L 0 ws s = .ok (stats, t)) :
    t.errors.map TraceError.tracenum = invalid 0 stats ∧
      t.errors.length + numcorrect stats = ws.length ∧
      (t.errors = [] ↔ ∀ st ∈ stats, st.valid ≠ 0) := by
  obtain ⟨hErrors, hLength⟩ := evalTraces_reports h
  have hCount := length_invalid 0 stats
  rw [hStart] at hErrors
  replace hErrors : t.errors.map TraceError.tracenum = invalid 0 stats := hErrors
  have hSame : t.errors.length = (invalid 0 stats).length := by rw [← hErrors, List.length_map]
  refine ⟨hErrors, by omega, ?_⟩
  have hAll : numcorrect stats = stats.length ↔ ∀ st ∈ stats, st.valid ≠ 0 := by
    rw [numcorrect, List.countP_eq_length]
    simp only [decide_eq_true_eq]
  rw [← List.length_eq_zero_iff, ← hAll]
  omega

/-- An allocator that answers the requests from a list. -/
def scriptedMeter : Metered (List Nat) Unit := { scripted with memHeapsize := pure 4096 }

/-- The files of a trace without requests and of one with a request. -/
def sampleFiles : List Supply :=
  ["0 1 0 1".toList, "0 1 1 1 a 0 8".toList].map fun file =>
    ⟨file, zeros, fun _ => 0, fun _ => 0, ⟨0, 0⟩, ⟨0, 0⟩⟩

theorem sampleFiles_run : (evalTraces scriptedMeter 0 sampleFiles (scriptedState [] [])).map
    (fun r => r.1.map Stats.valid) = .ok [1, 0] := by
  decide +kernel

theorem errors_exact_sample : ∃ stats t,
    evalTraces scriptedMeter 0 sampleFiles (scriptedState [] []) = .ok (stats, t) ∧
    t.errors.map TraceError.tracenum = invalid 0 stats ∧
    t.errors.length + numcorrect stats = sampleFiles.length ∧
    (t.errors = [] ↔ ∀ st ∈ stats, st.valid ≠ 0) := by
  have hRun := sampleFiles_run
  generalize sampleFiles = ws at hRun ⊢
  cases hCase : evalTraces scriptedMeter 0 ws (scriptedState [] []) with
  | error e =>
      rw [hCase] at hRun
      cases hRun
  | ok r => exact ⟨r.1, r.2, rfl, errors_exact rfl hCase⟩

end Counting

end Mdriver
