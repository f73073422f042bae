import Coursework.Library.Rounding
import Mathlib.Order.Bounds.Basic
import Mathlib.Tactic.LinearCombination
import Mathlib.Tactic.NormNum.Basic

/-! The cycle counters of `clock.c`: the difference of two readings in 32-bit halves, and
the calibration of the compensated counter. The results are `double`s, which hold whole
numbers up to 2^53; how anything else is rounded is left open. -/

namespace Clock

/-- The ways in which the results of arithmetic on `double`s may be rounded. -/
abbrev Doubles : Type := Rounding (2 ^ 53)

/-- `double`, without infinities and what is not a number. -/
abbrev Double (ρ : Doubles) : Type := Rounded ρ

section Counters

variable {ρ : Doubles}

/-- `cyc_hi` and `cyc_lo` -/
structure Halves where
  hi : BitVec 32
  lo : BitVec 32

/-- What the two versions of the file read after so many cycles: `rdtsc` on the Pentium,
and the lower half alone on the Alpha. -/
inductive Platform where
  | i386
  | alpha
deriving DecidableEq, Repr

def Platform.accessCounter : Platform → Nat → Halves
  | .i386, cycles => ⟨BitVec.ofNat 32 (cycles / 2 ^ 32), BitVec.ofNat 32 cycles⟩
  | .alpha, cycles => ⟨0, BitVec.ofNat 32 cycles⟩

/-- The subtraction of `get_counter`, half by half. -/
def Halves.sub (ncyc cyc : Halves) : Halves :=
  let lo := ncyc.lo - cyc.lo
  let borrow : BitVec 32 := if ncyc.lo < lo then 1 else 0
  let hi := ncyc.hi - cyc.hi - borrow
  ⟨hi, lo⟩

/-- `(double) hi * (1 << 30) * 4 + lo` -/
def Halves.toDouble (x : Halves) : Double ρ :=
  (x.hi.toNat : Double ρ) * ((1 <<< 30 : Nat) : Double ρ) * ((4 : Nat) : Double ρ) +
    (x.lo.toNat : Double ρ)

/-- `get_counter`, when `start_counter` was called after `start` cycles. -/
def getCounter (ρ : Doubles) (m : Platform) (start now : Nat) : Double ρ :=
  ((m.accessCounter now).sub (m.accessCounter start)).toDouble

def Halves.value (x : Halves) : Nat := x.hi.toNat * 2 ^ 32 + x.lo.toNat

/-- How many cycles a result tells apart: the counter of the Pentium has 64 bits, but a
`double` holds less, and the counter of the Alpha has 32. -/
def Platform.span : Platform → Nat
  | .i386 => 2 ^ 53
  | .alpha => 2 ^ 32

/-- The cycles that there have been when a run starts and when it stops. -/
structure Run where
  start : Nat
  stop : Nat
  le : start ≤ stop := by decide

def Run.cycles (r : Run) : Nat := r.stop - r.start

end Counters

section Calibration

/-- What a round of the loop of `callibrate` reads: the counter, and the ticks of the user
time, which are asked for when it is due. -/
structure Reading (ρ : Doubles) where
  newt : Double ρ
  tmsUtime : Int

/-- The variables of the loop, and `cyc_per_tick`. -/
structure Calibration (ρ : Doubles) where
  oldt : Double ρ
  oldc : Int
  e : Nat
  cycPerTick : Double ρ

variable {ρ : Doubles}

def nevent : Nat := 100

def threshold : Double ρ := (1000 : Nat)

def recordthresh : Double ρ := (3000 : Nat)

def Calibration.round (s : Calibration ρ) (w : Reading ρ) : Calibration ρ :=
  if threshold ≤ w.newt - s.oldt then
    if s.oldc < w.tmsUtime then
      let cpt := (w.newt - s.oldt) / ((w.tmsUtime - s.oldc : Int) : Double ρ)
      { oldt := w.newt
        oldc := w.tmsUtime
        e := s.e + 1
        cycPerTick := if (s.cycPerTick = 0 ∨ cpt < s.cycPerTick) ∧ recordthresh < cpt then cpt
          else s.cycPerTick }
    else { s with oldt := w.newt }
  else s

/-- `while (e < NEVENT)`; `none` when the loop still runs after the readings. -/
def Calibration.loop (s : Calibration ρ) : List (Reading ρ) → Option (Calibration ρ)
  | [] => if s.e < nevent then none else some s
  | w :: ws => if s.e < nevent then (s.round w).loop ws else some s

/-- The value of `cyc_per_tick` after `callibrate`. -/
def callibrate (cycPerTick : Double ρ) (first : Reading ρ) (readings : List (Reading ρ)) :
    Option (Double ρ) :=
  (Calibration.loop ⟨first.newt, first.tmsUtime, 0, cycPerTick⟩ readings).map
    Calibration.cycPerTick

/-- The cycles for each tick, at the readings that are due and find the user time changed.
They are the quotients that the code computes, with what they lose to rounding. -/
def ratios (oldt : Double ρ) (oldc : Int) : List (Reading ρ) → List (Double ρ)
  | [] => []
  | w :: ws =>
      if w.newt - oldt < threshold then ratios oldt oldc ws
      else if w.tmsUtime ≤ oldc then ratios w.newt oldc ws
      else (w.newt - oldt) / ((w.tmsUtime - oldc : Int) : Double ρ) ::
        ratios w.newt w.tmsUtime ws

/-- The ratios that are over the threshold of a record. -/
def records (cpts : List (Double ρ)) : Set (Double ρ) := {cpt ∈ cpts | recordthresh < cpt}

/-- The least of them, or zero. -/
def IsRecord (c : Double ρ) (cpts : List (Double ρ)) : Prop :=
  c = 0 ∧ records cpts = ∅ ∨ IsLeast (records cpts) c

/-- What the loop has after some ratios. -/
structure Calibration.Tracks (s : Calibration ρ) (cpts : List (Double ρ)) : Prop where
  e : s.e = cpts.length
  record : IsRecord s.cycPerTick cpts

variable {s t : Calibration ρ} {c d cpt : Double ρ} {cpts : List (Double ρ)} {w : Reading ρ}
  {ws : List (Reading ρ)}

theorem recordthresh_pos : (0 : Double ρ) < recordthresh := by
  have hVal : (recordthresh : Double ρ).val = (3000 : Nat) := Rounded.val_natCast (by decide)
  rw [Rounded.lt_def, hVal]
  exact Nat.cast_pos.mpr (by decide)

/-- A quotient above the threshold joins the records. -/
theorem records_append_of_lt (h : recordthresh < cpt) :
    records (cpts ++ [cpt]) = records cpts ∪ {cpt} := by
  ext x
  simp only [records, Set.mem_union, Set.mem_ofPred_eq, List.mem_append, List.mem_singleton,
    Set.mem_singleton_iff, or_and_right]
  exact or_congr_right (and_iff_left_of_imp fun hx => hx ▸ h)

/-- The others leave them as they were, however small they are. -/
theorem records_append_of_le (h : cpt ≤ recordthresh) :
    records (cpts ++ [cpt]) = records cpts := by
  ext x
  simp only [records, Set.mem_ofPred_eq, List.mem_append, List.mem_singleton, or_and_right]
  exact or_iff_left fun hx => absurd hx.2 (hx.1 ▸ h.not_gt)

/-- The least record is one number, and it is zero only where there is no record. -/
theorem IsRecord.unique (hc : IsRecord c cpts) (hd : IsRecord d cpts) : c = d := by
  rcases hc with ⟨rfl, hNone⟩ | hc
  · rcases hd with ⟨rfl, -⟩ | hd
    · rfl
    · exact absurd hd.1 (hNone ▸ Set.notMem_empty d)
  · rcases hd with ⟨rfl, hNone⟩ | hd
    · exact absurd hc.1 (hNone ▸ Set.notMem_empty c)
    · exact hc.unique hd

/-- What the loop keeps is the least record so far. The code tests for zero to tell a first
record from a later one. -/
theorem IsRecord.append (h : IsRecord c cpts) (cpt : Double ρ) :
    IsRecord (if (c = 0 ∨ cpt < c) ∧ recordthresh < cpt then cpt else c) (cpts ++ [cpt]) := by
  cases lt_or_ge recordthresh cpt with
  | inl hOver =>
      rw [IsRecord, records_append_of_lt hOver]
      rcases h with ⟨rfl, hNone⟩ | hLeast
      · rw [hNone, Set.empty_union, if_pos ⟨.inl rfl, hOver⟩]
        exact .inr isLeast_singleton
      · have hMin := hLeast.union (isLeast_singleton (a := cpt))
        have hSome : c ≠ 0 := (recordthresh_pos.trans hLeast.1.2).ne'
        cases lt_or_ge cpt c with
        | inl hLess =>
            rw [min_eq_right hLess.le] at hMin
            rw [if_pos ⟨.inr hLess, hOver⟩]
            exact .inr hMin
        | inr hLe =>
            rw [min_eq_left hLe] at hMin
            rw [if_neg fun hBoth => hBoth.1.elim hSome hLe.not_gt]
            exact .inr hMin
  | inr hUnder =>
      rw [if_neg fun hBoth => hUnder.not_gt hBoth.2, IsRecord, records_append_of_le hUnder]
      exact h

theorem Calibration.Tracks.start (first : Reading ρ) :
    Tracks ⟨first.newt, first.tmsUtime, 0, 0⟩ [] where
  e := rfl
  record := .inl ⟨rfl, Set.eq_empty_of_forall_notMem fun _ hx => List.not_mem_nil hx.1⟩

/-- A round has one more ratio or none. -/
theorem Calibration.Tracks.round (h : s.Tracks cpts) (w : Reading ρ) :
    ∃ more, (s.round w).Tracks (cpts ++ more) ∧ more.length ≤ 1 ∧
      ∀ ws, ratios s.oldt s.oldc (w :: ws) =
        more ++ ratios (s.round w).oldt (s.round w).oldc ws := by
  rw [Calibration.round]
  split
  · rename_i hDue
    split
    · rename_i hTick
      refine ⟨[_], ⟨?_, h.record.append _⟩, le_rfl, fun ws => ?_⟩
      · rw [List.length_append, ← h.e]
        rfl
      · rw [ratios, if_neg hDue.not_gt, if_neg hTick.not_ge]
        rfl
    · rename_i hTick
      refine ⟨[], ?_, Nat.zero_le 1, fun ws => ?_⟩
      · rw [List.append_nil]
        exact ⟨h.e, h.record⟩
      · rw [ratios, if_neg hDue.not_gt, if_pos (not_lt.mp hTick)]
        rfl
  · rename_i hDue
    refine ⟨[], ?_, Nat.zero_le 1, fun ws => ?_⟩
    · rw [List.append_nil]
      exact h
    · rw [ratios, if_pos (not_le.mp hDue)]
      rfl

/-- The loop stops at the ratio that makes `NEVENT`. -/
theorem Calibration.Tracks.loop (h : s.Tracks cpts) (hCount : cpts.length ≤ nevent)
    (ws : List (Reading ρ)) :
    if nevent ≤ (cpts ++ ratios s.oldt s.oldc ws).length then
      ∃ t, s.loop ws = some t ∧
        IsRecord t.cycPerTick ((cpts ++ ratios s.oldt s.oldc ws).take nevent)
    else s.loop ws = none := by
  induction ws generalizing s cpts with
  | nil =>
      rw [ratios, List.append_nil, loop, h.e]
      split
      · rename_i hAll
        rw [if_neg hAll.not_gt, List.take_of_length_le hCount]
        exact ⟨s, rfl, h.record⟩
      · rename_i hAll
        exact if_pos (not_le.mp hAll)
  | cons w ws ih =>
      rw [loop, h.e]
      cases Nat.lt_or_ge cpts.length nevent with
      | inl hMore =>
          obtain ⟨more, hTracks, hOne, hRatios⟩ := h.round w
          rw [if_pos hMore, hRatios, ← List.append_assoc]
          apply ih hTracks
          rw [List.length_append]
          omega
      | inr hAll =>
          rw [if_neg hAll.not_gt, if_pos (by rw [List.length_append]; omega),
            List.take_left' (Nat.le_antisymm hCount hAll)]
          exact ⟨s, rfl, h.record⟩

/-- The hundredth event ends the loop. Of the quotients only those up to this event count. -/
theorem callibrate_ends {first : Reading ρ} {readings : List (Reading ρ)}
    (h : nevent ≤ (ratios first.newt first.tmsUtime readings).length) :
    ∃ c, callibrate 0 first readings = some c ∧
      IsRecord c ((ratios first.newt first.tmsUtime readings).take nevent) := by
  have hLoop := (Calibration.Tracks.start first).loop (Nat.zero_le nevent) readings
  rw [List.nil_append, if_pos h] at hLoop
  obtain ⟨t, hRun, hRecord⟩ := hLoop
  exact ⟨t.cycPerTick, Option.map_eq_some_iff.mpr ⟨t, hRun, rfl⟩, hRecord⟩

/-- Before the hundredth event the loop goes on, and there is no answer yet. -/
theorem callibrate_runs {first : Reading ρ} {readings : List (Reading ρ)}
    (h : (ratios first.newt first.tmsUtime readings).length < nevent) :
    callibrate 0 first readings = none := by
  have hLoop := (Calibration.Tracks.start first).loop (Nat.zero_le nevent) readings
  rw [List.nil_append, if_neg h.not_ge] at hLoop
  exact Option.map_eq_none_iff.mpr hLoop

/-- What is stored is a record of the first hundred events. -/
theorem callibrate_record {first : Reading ρ} {readings : List (Reading ρ)}
    (h : callibrate 0 first readings = some c) :
    IsRecord c ((ratios first.newt first.tmsUtime readings).take nevent) := by
  cases Nat.lt_or_ge (ratios first.newt first.tmsUtime readings).length nevent with
  | inl hFew =>
      rw [callibrate_runs hFew] at h
      cases h
  | inr hEnough =>
      obtain ⟨d, hRun, hRecord⟩ := callibrate_ends hEnough
      rw [hRun] at h
      obtain rfl := Option.some.inj h
      exact hRecord

/-- With a counter that was not calibrated before, `callibrate` ends at its 100th event and
stores the least of the ratios over the threshold, or zero when there is none. -/
theorem callibrate_exact (first : Reading ρ) (readings : List (Reading ρ)) (c : Double ρ) :
    callibrate 0 first readings = some c ↔
      nevent ≤ (ratios first.newt first.tmsUtime readings).length ∧
        IsRecord c ((ratios first.newt first.tmsUtime readings).take nevent) := by
  constructor
  · intro hRun
    refine ⟨?_, callibrate_record hRun⟩
    by_contra hFew
    rw [callibrate_runs (not_le.mp hFew)] at hRun
    cases hRun
  · rintro ⟨hEnough, hc⟩
    obtain ⟨d, hRun, hRecord⟩ := callibrate_ends hEnough
    rw [hRun, hRecord.unique hc]

end Calibration

section Compensation

/-- What the compensated counter reads for a run besides the counter: the user time when the
run starts and when it stops, and what a calibration reads before, if there is one. -/
structure CompRun (ρ : Doubles) extends Run where
  startTick : Int
  tick : Int
  first : Reading ρ
  readings : List (Reading ρ)

variable {ρ : Doubles}

/-- The timer ticks during a run. -/
def CompRun.ticks (r : CompRun ρ) : Int := r.tick - r.startTick

/-- `start_comp_counter` on `cyc_per_tick`; `none` when the calibration does not end. -/
def startCompCounter (cycPerTick : Double ρ) (r : CompRun ρ) : Option (Double ρ) :=
  if cycPerTick = 0 then callibrate cycPerTick r.first r.readings else some cycPerTick

def getCompCounter (m : Platform) (cycPerTick : Double ρ) (r : CompRun ρ) : Double ρ :=
  getCounter ρ m r.start r.stop - (r.ticks : Double ρ) * cycPerTick

/-- The values of `cyc_per_tick` in run after run, each with what the one before has left. -/
structure Calibrated (runs : Nat → CompRun ρ) (cycPerTick : Nat → Double ρ) : Prop where
  first : startCompCounter 0 (runs 0) = some (cycPerTick 0)
  next : ∀ i, startCompCounter (cycPerTick i) (runs (i + 1)) = some (cycPerTick (i + 1))

/-- The events of the calibration before a run. -/
def CompRun.events (r : CompRun ρ) : List (Double ρ) :=
  (ratios r.first.newt r.first.tmsUtime r.readings).take nevent

variable {runs : Nat → CompRun ρ} {cycPerTick : Nat → Double ρ} {c : Double ρ}

/-- A calibration that finds a record is the last one. -/
theorem Calibrated.eq (h : Calibrated runs cycPerTick)
    (hLeast : IsLeast (records (runs 0).events) c) (i : Nat) : cycPerTick i = c := by
  induction i with
  | zero =>
      have hFirst := h.first
      rw [startCompCounter, if_pos rfl] at hFirst
      exact (callibrate_record hFirst).unique (.inr hLeast)
  | succ i ih =>
      have hSome : c ≠ 0 := (recordthresh_pos.trans hLeast.1.2).ne'
      have hNext := h.next i
      rw [ih, startCompCounter, if_neg hSome] at hNext
      exact (Option.some.inj hNext).symm

end Compensation

end Clock
