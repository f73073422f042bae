import Coursework.Library.BestK
import Coursework.Timing.Clock

/-! The measurement of `fcyc.c`. A function is run until the `kbest` least of its samples
agree, or there are `maxsamples` of them, and the least sample is its time. The sums and
products may be rounded: nothing is asked of them. -/

namespace Fcyc

section Code

/-- The parameters of the sampling, with any values that the setters store. Those of the
clearing of the cache before a run (`clear_cache`, `cache_bytes` and `cache_block`) are left
out: it has no part in what is computed from the measurements. -/
structure Params (R : Type) where
  kbest : Nat
  maxsamples : Int
  epsilon : R
  compensate : Bool

/-- What the counters of `clock.c` measure for the runs of the function, one after another. -/
structure Counters (R : Type) where
  getCounter : Nat → R
  getCompCounter : Nat → R

structure Sampler (R : Type) where
  values : List R
  samplecount : Nat

/-- `K`, `MAXSAMPLES`, `EPSILON` and `COMPENSATE` -/
def defaults (R : Type) [One R] [Div R] [NatCast R] : Params R := ⟨3, 20, 1 / (100 : Nat), false⟩

variable {R : Type} [LinearOrder R] [Zero R]

def initSampler (p : Params R) : Sampler R := ⟨List.replicate p.kbest 0, 0⟩

/-- `while (pos > 0 && values[pos-1] > values[pos])` with the exchange of the two. -/
def exchange (values : List R) : Nat → List R
  | 0 => values
  | pos + 1 =>
      if values.getD (pos + 1) 0 < values.getD pos 0 then
        let temp := values.getD pos 0
        exchange ((values.set pos (values.getD (pos + 1) 0)).set (pos + 1) temp) pos
      else values

def addSample (p : Params R) (s : Sampler R) (val : R) : Sampler R :=
  if s.samplecount < p.kbest then
    ⟨exchange (s.values.set s.samplecount val) s.samplecount, s.samplecount + 1⟩
  else if val < s.values.getD (p.kbest - 1) 0 then
    ⟨exchange (s.values.set (p.kbest - 1) val) (p.kbest - 1), s.samplecount + 1⟩
  else ⟨exchange s.values 0, s.samplecount + 1⟩

/-- Every sample is counted, also one that is too large to be kept. -/
theorem addSample_samplecount (p : Params R) (s : Sampler R) (val : R) :
    (addSample p s val).samplecount = s.samplecount + 1 := by
  rw [addSample]
  split
  · rfl
  · split <;> rfl

variable [One R] [Add R] [Mul R]

def hasConverged (p : Params R) (s : Sampler R) : Bool :=
  p.kbest ≤ s.samplecount &&
    s.values.getD (p.kbest - 1) 0 ≤ (1 + p.epsilon) * s.values.getD 0 0

/-- `do … while (!has_converged() && samplecount < maxsamples);` -/
def sampling (p : Params R) (cyc : Nat → R) (s : Sampler R) : Sampler R :=
  let s' := addSample p s (cyc s.samplecount)
  if hasConverged p s' = false ∧ s'.samplecount < p.maxsamples then sampling p cyc s' else s'
termination_by (p.maxsamples - s.samplecount).toNat
decreasing_by
  rename_i h
  have hMore : ((addSample p s (cyc s.samplecount)).samplecount : Int) < p.maxsamples := h.2
  rw [addSample_samplecount] at hMore ⊢
  omega

/-- The result of `fcyc`, and the count of samples that it leaves. -/
def fcyc (p : Params R) (c : Counters R) : R × Nat :=
  let s := if p.compensate then sampling p c.getCompCounter (initSampler p)
    else sampling p c.getCounter (initSampler p)
  (s.values.getD 0 0, s.samplecount)

end Code

section Best

variable {R : Type} [LinearOrder R] [Zero R] {p : Params R} {s : Sampler R} {xs : List R}

/-- The exchanges carry a value to its place in what is sorted before it. -/
theorem exchange_eq {ys : List R} {val : R} (hSorted : xs.SortedLE) :
    exchange (xs ++ val :: ys) xs.length = xs.orderedInsert (· ≤ ·) val ++ ys := by
  induction xs using List.reverseRecOn generalizing ys with
  | nil => rfl
  | append_singleton xs x ih =>
      have hLength : (xs ++ [x]).length = xs.length + 1 := List.length_append
      have hVal : (xs ++ x :: val :: ys).getD (xs.length + 1) 0 = val := by
        simp
      have hLast : (xs ++ x :: val :: ys).getD xs.length 0 = x := by
        simp
      rw [hLength, List.append_assoc, List.singleton_append, exchange, hVal, hLast]
      split
      · rename_i hLess
        have hSwap : ((xs ++ x :: val :: ys).set xs.length val).set (xs.length + 1) x =
            xs ++ val :: x :: ys := by
          simp
        change exchange (((xs ++ x :: val :: ys).set xs.length val).set (xs.length + 1) x)
          xs.length = _
        rw [hSwap, ih hSorted.left,
          List.orderedInsert_append_singleton_of_le hLess.le, List.append_assoc,
          List.singleton_append]
      · rename_i hLess
        have hBelow : ∀ y ∈ xs ++ [x], y ≤ val :=
          fun y hy => (hSorted.le_last hy).trans (not_lt.mp hLess)
        rw [List.orderedInsert_eq_append hSorted hBelow]
        simp

/-- The array holds the best of the samples, and zeros where there is none yet. -/
structure Holds (p : Params R) (s : Sampler R) (xs : List R) : Prop where
  values : s.values = xs.best p.kbest ++ List.replicate (p.kbest - xs.length) 0
  samplecount : s.samplecount = xs.length

theorem Holds.init : Holds p (initSampler p) [] where
  values := by
    rw [List.best, List.insertionSort_nil, List.take_nil]
    rfl
  samplecount := rfl

/-- While there are free places the new sample takes one, and the insertion moves it to where
it belongs. -/
theorem Holds.fill (h : Holds p s xs) (hShort : xs.length < p.kbest) (val : R) :
    Holds p (addSample p s val) (xs ++ [val]) := by
  have hLength : (xs.best p.kbest).length = xs.length := by
    rw [List.length_best, Nat.min_eq_right hShort.le]
  obtain ⟨n, hn⟩ : ∃ n, p.kbest - xs.length = n + 1 := ⟨p.kbest - xs.length - 1, by omega⟩
  have hSet : s.values.set s.samplecount val =
      xs.best p.kbest ++ val :: List.replicate n 0 := by
    rw [h.values, h.samplecount, hn, ← hLength]
    simp [List.replicate_succ]
  rw [addSample, if_pos (h.samplecount ▸ hShort), hSet]
  refine ⟨?_, ?_⟩
  · rw [h.samplecount, ← hLength, exchange_eq List.sortedLE_best, List.best_append_of_short hShort,
      List.length_append, List.length_singleton, Nat.sub_add_eq, hn]
    rfl
  · rw [h.samplecount, List.length_append, List.length_singleton]

/-- With all places taken, the sample is kept only where it is less than the greatest of those
kept. -/
theorem Holds.replace (h : Holds p s xs) (hk : 0 < p.kbest) (hFull : p.kbest ≤ xs.length)
    (val : R) : Holds p (addSample p s val) (xs ++ [val]) := by
  have hLength : (xs.best p.kbest).length = p.kbest := by
    rw [List.length_best, Nat.min_eq_left hFull]
  have hPad : p.kbest - (xs ++ [val]).length = 0 := by
    rw [List.length_append]
    omega
  have hValues : s.values = xs.best p.kbest := by
    rw [h.values, Nat.sub_eq_zero_of_le hFull]
    exact List.append_nil _
  obtain ⟨ys, y, hBest⟩ : ∃ ys y, xs.best p.kbest = ys ++ [y] :=
    (List.eq_nil_or_concat' _).resolve_left fun hNil => by
      rw [hNil] at hLength
      exact hk.ne hLength
  have hPlace : p.kbest - 1 = ys.length := by
    rw [← hLength, hBest, List.length_append]
    rfl
  have hLast : s.values.getD (p.kbest - 1) 0 = y := by
    rw [hValues, hBest, hPlace]
    simp
  have hSorted : ys.SortedLE := List.SortedLE.left (hBest ▸ List.sortedLE_best)
  refine ⟨?_, ?_⟩
  · rw [addSample, if_neg (by rw [h.samplecount]; omega), hLast, hPad]
    split
    · rename_i hLess
      have hSet : s.values.set (p.kbest - 1) val = ys ++ [val] := by
        rw [hValues, hBest, hPlace]
        simp
      rw [hSet, hPlace, exchange_eq hSorted, List.best_append_of_lt hBest hFull hLess]
      rfl
    · rename_i hLess
      rw [List.best_append_of_le hBest hFull (not_lt.mp hLess), ← hValues]
      exact (List.append_nil _).symm
  · rw [addSample_samplecount, h.samplecount, List.length_append, List.length_singleton]

/-- One sample is one step from a list to the list with it, whether or not it is kept. -/
theorem Holds.addSample (h : Holds p s xs) (hk : 0 < p.kbest) (val : R) :
    Holds p (addSample p s val) (xs ++ [val]) := by
  cases Nat.lt_or_ge xs.length p.kbest with
  | inl hShort => exact h.fill hShort val
  | inr hFull => exact h.replace hk hFull val

/-- The first value is the least sample. -/
theorem Holds.least (h : Holds p s xs) (hk : 0 < p.kbest) (hxs : xs ≠ []) :
    IsLeast {x | x ∈ xs} (s.values.getD 0 0) := by
  obtain ⟨m, ys, hBest, hLeast⟩ := List.best_head hk hxs
  rw [h.values, hBest]
  exact hLeast

/-- The last value is the last of the best, once there are enough samples. -/
theorem Holds.last (h : Holds p s xs) (hk : 0 < p.kbest) (hFull : p.kbest ≤ xs.length) :
    (xs.best p.kbest)[p.kbest - 1]? = some (s.values.getD (p.kbest - 1) 0) := by
  have hIndex : p.kbest - 1 < (xs.best p.kbest).length := by
    rw [List.length_best, Nat.min_eq_left hFull]
    exact Nat.sub_lt hk Nat.one_pos
  rw [h.values, Nat.sub_eq_zero_of_le hFull, List.replicate_zero, List.append_nil,
    List.getElem?_eq_getElem hIndex, List.getD_eq_getElem?_getD,
    List.getElem?_eq_getElem hIndex]
  rfl

end Best

section Samples

variable {R : Type} {cyc : Nat → R} {n : Nat}

/-- The counter that is read. -/
def Counters.read (c : Counters R) (p : Params R) : Nat → R :=
  if p.compensate then c.getCompCounter else c.getCounter

def samples (cyc : Nat → R) (n : Nat) : List R := (List.range n).map cyc

/-- A further run of the function measured adds one sample at the end. -/
theorem samples_succ : samples cyc (n + 1) = samples cyc n ++ [cyc n] := by
  rw [samples, List.range_succ, List.map_append]
  rfl

theorem length_samples : (samples cyc n).length = n := by
  rw [samples, List.length_map, List.length_range]

variable [LinearOrder R] [One R] [Add R] [Mul R] {p : Params R} {xs : List R}

/-- There are `kbest` samples within the tolerance of the least of them. -/
def Agree (p : Params R) (xs : List R) : Prop :=
  ∃ m ∈ xs, (∀ x ∈ xs, m ≤ x) ∧ p.kbest ≤ xs.countP (· ≤ (1 + p.epsilon) * m)

instance : Decidable (Agree p xs) := inferInstanceAs (Decidable (∃ m ∈ xs, _ ∧ _))

/-- The first count of samples at which the sampling stops. -/
structure Stops (p : Params R) (cyc : Nat → R) (n : Nat) : Prop where
  pos : 0 < n
  stops : Agree p (samples cyc n) ∨ p.maxsamples ≤ n
  first : ∀ m, 0 < m → m < n → ¬Agree p (samples cyc m) ∧ (m : Int) < p.maxsamples

/-- The test on the kept samples is one on all of them: enough of them lie within the bound of
the least. -/
theorem agree_iff {m : R} (hLeast : IsLeast {x | x ∈ xs} m) :
    Agree p xs ↔ p.kbest ≤ xs.countP (· ≤ (1 + p.epsilon) * m) := by
  constructor
  · rintro ⟨m', hMem, hLe, hCount⟩
    have hSame : IsLeast {x | x ∈ xs} m' := ⟨hMem, hLe⟩
    rwa [hLeast.unique hSame]
  · exact fun hCount => ⟨m, hLeast.1, hLeast.2, hCount⟩

/-- The loop stops at the first count that meets its test, so there is one such count. -/
theorem Stops.unique {m : Nat} (hn : Stops p cyc n) (hm : Stops p cyc m) : n = m := by
  by_contra hNe
  cases Nat.lt_or_gt_of_ne hNe with
  | inl hLess =>
      obtain ⟨hFails, hMore⟩ := hm.first n hn.pos hLess
      exact hn.stops.elim hFails (not_le.mpr hMore)
  | inr hLess =>
      obtain ⟨hFails, hMore⟩ := hn.first m hm.pos hLess
      exact hm.stops.elim hFails (not_le.mpr hMore)

end Samples

section Runs

variable {R : Type} [LinearOrder R] [Zero R] [One R] [Add R] [Mul R] {p : Params R}
  {s : Sampler R} {xs : List R} {cyc : Nat → R} {n : Nat}

/-- `has_converged` reads the first and the last kept sample. This is the agreement of the
samples so far. -/
theorem Holds.hasConverged_iff (h : Holds p s xs) (hk : 0 < p.kbest) :
    hasConverged p s = true ↔ Agree p xs := by
  rw [hasConverged, Bool.and_eq_true, decide_eq_true_iff, decide_eq_true_iff, h.samplecount]
  cases Nat.lt_or_ge xs.length p.kbest with
  | inl hShort =>
      apply iff_of_false
      · exact fun hBoth => absurd hBoth.1 hShort.not_ge
      · rintro ⟨m, _, _, hCount⟩
        exact absurd (hCount.trans List.countP_le_length) hShort.not_ge
  | inr hFull =>
      have hxs : xs ≠ [] := List.ne_nil_of_length_pos (hk.trans_le hFull)
      rw [agree_iff (h.least hk hxs), ← List.best_last_le_iff hk (h.last hk hFull)]
      exact and_iff_right hFull

/-- The loop of `fcyc` stops, as `maxsamples` bounds its rounds. The induction is on the rounds
that are left. -/
theorem sampling_stops (cyc : Nat → R) (hk : 0 < p.kbest) (hStart : Holds p s (samples cyc n))
    (hBefore : ∀ m, 0 < m → m ≤ n → ¬Agree p (samples cyc m) ∧ (m : Int) < p.maxsamples) :
    ∃ m, Stops p cyc m ∧ Holds p (sampling p cyc s) (samples cyc m) := by
  induction hLeft : (p.maxsamples - n).toNat using Nat.strongRecOn generalizing s n with
  | ind left ih =>
      have hNext : Holds p (addSample p s (cyc n)) (samples cyc (n + 1)) := by
        rw [samples_succ]
        exact hStart.addSample hk (cyc n)
      have hCount : s.samplecount = n := hStart.samplecount.trans length_samples
      have hCount' : (addSample p s (cyc n)).samplecount = n + 1 :=
        hNext.samplecount.trans length_samples
      rw [sampling, hCount]
      split
      · rename_i h
        have hFails : ¬Agree p (samples cyc (n + 1)) := fun hAgree => by
          rw [← hNext.hasConverged_iff hk, h.1] at hAgree
          cases hAgree
        have hMore : ((n + 1 : Nat) : Int) < p.maxsamples := hCount' ▸ h.2
        refine ih _ ?_ hNext (fun m hm hmn => ?_) rfl
        · omega
        · cases Nat.le_succ_iff.mp hmn with
          | inl hmn => exact hBefore m hm hmn
          | inr hmn =>
              rw [hmn]
              exact ⟨hFails, hMore⟩
      · rename_i h
        refine ⟨n + 1, ⟨Nat.succ_pos n, ?_, fun m hm hmn => hBefore m hm (Nat.le_of_lt_succ hmn)⟩,
          hNext⟩
        by_contra hGo
        rw [not_or, not_le, ← hNext.hasConverged_iff hk, Bool.not_eq_true] at hGo
        exact h ⟨hGo.1, hCount' ▸ hGo.2⟩

/-- `fcyc` is the loop, from the empty sampler, and what it has then in the first place. The
branch on the compensation is in the reading of the counter. -/
theorem fcyc_eq (p : Params R) (c : Counters R) :
    fcyc p c = ((sampling p (c.read p) (initSampler p)).values.getD 0 0,
      (sampling p (c.read p) (initSampler p)).samplecount) := by
  rw [fcyc, Counters.read]
  split <;> rfl

/-- The number of samples and the result of the loop, from what its invariant says where it
stops. -/
theorem fcyc_meets (p : Params R) (c : Counters R) (hk : 0 < p.kbest) :
    Stops p (c.read p) (fcyc p c).2 ∧ IsLeast (c.read p '' Set.Iio (fcyc p c).2) (fcyc p c).1 := by
  obtain ⟨n, hStops, hHolds⟩ := sampling_stops (c.read p) (n := 0) hk Holds.init
    fun m hm hm' => absurd hm hm'.not_gt
  have hxs : samples (c.read p) n ≠ [] := by
    apply List.ne_nil_of_length_pos
    rw [length_samples]
    exact hStops.pos
  have hLeast := hHolds.least hk hxs
  have hSamples : {x | x ∈ samples (c.read p) n} = c.read p '' Set.Iio n := by
    ext x
    simp [samples]
  rw [hSamples] at hLeast
  rw [fcyc_eq, hHolds.samplecount, length_samples]
  exact ⟨hStops, hLeast⟩

/-- The sampling stops at the first count of samples at which `kbest` of them agree or that
reaches `maxsamples`, and then the result is the least of the samples. -/
theorem fcyc_exact (p : Params R) (c : Counters R) (hk : 0 < p.kbest) (result : R) (n : Nat) :
    fcyc p c = (result, n) ↔ Stops p (c.read p) n ∧ IsLeast (c.read p '' Set.Iio n) result := by
  obtain ⟨hStops, hLeast⟩ := fcyc_meets p c hk
  constructor
  · intro hRun
    rw [hRun] at hStops hLeast
    exact ⟨hStops, hLeast⟩
  · rintro ⟨hn, hResult⟩
    rw [hStops.unique hn] at hLeast
    exact Prod.ext (hLeast.unique hResult) (hStops.unique hn)

theorem fcyc_exact_defaults :
    fcyc (defaults ℚ) ⟨fun i => if i = 0 then 5 else if i = 2 then 4 else 3, fun _ => 0⟩ =
      (3, 5) := by
  refine (fcyc_exact _ _ (by decide) 3 5).mpr ⟨⟨by decide, .inl (by decide +kernel), ?_⟩, ?_⟩
  · intro m hm hm'
    revert hm
    revert m
    decide +kernel
  · refine ⟨⟨1, by decide, rfl⟩, ?_⟩
    rintro x ⟨i, hi, rfl⟩
    change i < 5 at hi
    revert i
    decide +kernel

end Runs

section Cycles

open Clock

variable {ρ : Doubles} {m : Platform}

/-- What the counters of a platform say of the runs. -/
def readings (m : Platform) (runs : Nat → Run) (getCompCounter : Nat → Double ρ) :
    Counters (Double ρ) where
  getCounter i := getCounter ρ m (runs i).start (runs i).stop
  getCompCounter := getCompCounter

variable {p : Params (Double ρ)} {runs : Nat → CompRun ρ} {cycPerTick : Nat → Double ρ}
  {c : Double ρ}

/-- The cycles of a run without those that its ticks are charged, as they are computed. -/
def own (c : Double ρ) (r : CompRun ρ) : Double ρ :=
  (r.cycles : Double ρ) - (r.ticks : Double ρ) * c

end Cycles

end Fcyc
