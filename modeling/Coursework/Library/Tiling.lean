import Mathlib.Data.List.Chain
import Mathlib.Data.List.Nodup
import Mathlib.Tactic.Common

/-! An interval cut into segments, each either owned or free. A cutting in
which no two neighbours are both free is determined by its owned segments,
so every way of merging free neighbours to the end gives the same cutting. -/

namespace Tiling

/-- A stretch of an interval; `owner = none` means that it is free. -/
structure Segment (ω : Type) where
  off : Nat
  size : Nat
  owner : Option ω
deriving DecidableEq, Repr

namespace Segment

variable {ω : Type}

def free (s : Segment ω) : Bool := s.owner.isNone

def stop (s : Segment ω) : Nat := s.off + s.size

/-- The same stretch without its owner. -/
def vacate (s : Segment ω) : Segment ω := { s with owner := none }

@[simp] theorem vacate_off (s : Segment ω) : s.vacate.off = s.off := rfl
@[simp] theorem vacate_size (s : Segment ω) : s.vacate.size = s.size := rfl
@[simp] theorem vacate_stop (s : Segment ω) : s.vacate.stop = s.stop := rfl
@[simp] theorem vacate_free (s : Segment ω) : s.vacate.free = true := rfl

end Segment

variable {ω : Type}

/-- `xs` cuts the interval from `lo` to `hi` into segments of positive size. -/
def Tiles : Nat → Nat → List (Segment ω) → Prop
  | lo, hi, [] => lo = hi
  | lo, hi, s :: rest => s.off = lo ∧ 0 < s.size ∧ Tiles s.stop hi rest

/-- No two neighbours are both free. -/
def Coalesced (xs : List (Segment ω)) : Prop :=
  xs.IsChain fun a b => a.free = false ∨ b.free = false

/-- The owned segments, in order. -/
def used (xs : List (Segment ω)) : List (Segment ω) := xs.filter fun s => !s.free

theorem mem_used {xs : List (Segment ω)} {s : Segment ω} :
    s ∈ used xs ↔ s ∈ xs ∧ s.free = false := by
  simp [used]

@[simp] theorem used_nil : used ([] : List (Segment ω)) = [] := rfl

/-- Cutting a list anew in its middle changes the owned segments of the middle only. -/
theorem used_append (xs ys : List (Segment ω)) : used (xs ++ ys) = used xs ++ used ys := by
  simp [used]

theorem used_cons_free {s : Segment ω} (xs : List (Segment ω)) (h : s.free = true) :
    used (s :: xs) = used xs := by
  simp [used, h]

theorem used_cons_owned {s : Segment ω} (xs : List (Segment ω)) (h : s.free = false) :
    used (s :: xs) = s :: used xs := by
  simp [used, h]

namespace Tiles

variable {lo hi : Nat} {xs ys : List (Segment ω)} {s t : Segment ω}

/-- A cutting in two parts: the first ends where the second begins. This is how a place in the
middle is looked at. -/
theorem append : Tiles lo hi (xs ++ ys) ↔ ∃ mid, Tiles lo mid xs ∧ Tiles mid hi ys := by
  induction xs generalizing lo with
  | nil => simp [Tiles]
  | cons s xs ih =>
      simp only [List.cons_append, Tiles, ih]
      constructor
      · rintro ⟨hOff, hSize, mid, hLeft, hRight⟩
        exact ⟨mid, ⟨hOff, hSize, hLeft⟩, hRight⟩
      · rintro ⟨mid, ⟨hOff, hSize, hLeft⟩, hRight⟩
        exact ⟨hOff, hSize, mid, hLeft, hRight⟩

/-- A cutting goes upwards. It is empty only where the interval is. -/
theorem le (h : Tiles lo hi xs) : lo ≤ hi := by
  induction xs generalizing lo with
  | nil => exact Nat.le_of_eq h
  | cons s xs ih =>
      obtain ⟨hOff, -, hRest⟩ := h
      have hStop := ih hRest
      unfold Segment.stop at hStop
      omega

/-- Every segment lies inside the interval and has positive size. So there are no more segments
than there is room. -/
theorem bounds (h : Tiles lo hi xs) (hs : s ∈ xs) : lo ≤ s.off ∧ 0 < s.size ∧ s.stop ≤ hi := by
  induction xs generalizing lo with
  | nil => simp at hs
  | cons a xs ih =>
      obtain ⟨hOff, hSize, hRest⟩ := h
      rcases List.mem_cons.mp hs with rfl | hIn
      · exact ⟨by omega, hSize, hRest.le⟩
      · obtain ⟨hLow, hPos, hHigh⟩ := ih hRest hIn
        unfold Segment.stop at hLow
        exact ⟨by omega, hPos, hHigh⟩

/-- The segments before a given one end where it starts, and those after it
start where it ends. -/
theorem around (h : Tiles lo hi (xs ++ s :: ys)) :
    Tiles lo s.off xs ∧ 0 < s.size ∧ Tiles s.stop hi ys := by
  obtain ⟨mid, hLeft, hOff, hSize, hRight⟩ := append.mp h
  exact ⟨hOff ▸ hLeft, hSize, hRight⟩

/-- Different segments do not overlap: one ends before the other begins, or where it does. The
order is that of the list. -/
theorem apart (h : Tiles lo hi xs) (hs : s ∈ xs) (ht : t ∈ xs) (hne : s ≠ t) :
    s.stop ≤ t.off ∨ t.stop ≤ s.off := by
  obtain ⟨left, right, rfl⟩ := List.append_of_mem hs
  obtain ⟨hLeft, -, hRight⟩ := h.around
  rcases List.mem_append.mp ht with hIn | hIn
  · exact Or.inr (hLeft.bounds hIn).2.2
  · rcases List.mem_cons.mp hIn with rfl | hIn
    · exact absurd rfl hne
    · exact Or.inl (hRight.bounds hIn).1

theorem eq_of_off (h : Tiles lo hi xs) (hs : s ∈ xs) (ht : t ∈ xs) (hOff : s.off = t.off) :
    s = t := by
  by_contra hne
  have hsPos := (h.bounds hs).2.1
  have htPos := (h.bounds ht).2.1
  rcases h.apart hs ht hne with hLe | hLe <;> unfold Segment.stop at hLe <;> omega

/-- A segment that starts inside another one is that one. A place in the interval is in one
segment only. -/
theorem eq_of_within (h : Tiles lo hi xs) (hs : s ∈ xs) (ht : t ∈ xs) (hLow : s.off ≤ t.off)
    (hHigh : t.off < s.stop) : t = s := by
  by_contra hne
  have htPos := (h.bounds ht).2.1
  rcases h.apart ht hs hne with hLe | hLe
  · unfold Segment.stop at hLe
    omega
  · omega

/-- No segment is twice in a cutting, since each has a place of its own. -/
theorem nodup (h : Tiles lo hi xs) : xs.Nodup := by
  induction xs generalizing lo with
  | nil => exact List.nodup_nil
  | cons a xs ih =>
      obtain ⟨-, hSize, hRest⟩ := h
      refine List.nodup_cons.mpr ⟨fun hIn => ?_, ih hRest⟩
      have := (hRest.bounds hIn).1
      unfold Segment.stop at this
      omega

/-- An empty interval has no segments, these being of positive size. -/
theorem nil_of_eq (h : Tiles lo lo xs) : xs = [] := by
  cases xs with
  | nil => rfl
  | cons a xs =>
      obtain ⟨hOff, hSize, hRest⟩ := h
      have := hRest.le
      unfold Segment.stop at this
      omega

/-- A segment belongs to the middle part exactly when it starts there. This tells the parts of
a cutting apart by their places. -/
theorem mem_middle {start stop : Nat} {mid : List (Segment ω)} (h : Tiles lo start xs)
    (hMid : Tiles start stop mid) (hRight : Tiles stop hi ys) (hs : s ∈ xs ++ mid ++ ys) :
    s ∈ mid ↔ start ≤ s.off ∧ s.off < stop := by
  constructor
  · intro hIn
    obtain ⟨hLow, hPos, hHigh⟩ := hMid.bounds hIn
    unfold Segment.stop at hHigh
    omega
  · rintro ⟨hLow, hHigh⟩
    simp only [List.append_assoc, List.mem_append] at hs
    rcases hs with hIn | hIn | hIn
    · obtain ⟨-, hPos, hStop⟩ := h.bounds hIn
      unfold Segment.stop at hStop
      omega
    · exact hIn
    · have := (hRight.bounds hIn).1
      omega

/-- Segments whose sizes are multiples of a number cut an interval whose length is one. -/
theorem size_mod {k : Nat} (h : Tiles lo hi xs) (hSizes : ∀ s ∈ xs, s.size % k = 0) :
    (hi - lo) % k = 0 := by
  induction xs generalizing lo with
  | nil =>
      obtain rfl : lo = hi := h
      simp
  | cons a xs ih =>
      obtain ⟨hOff, -, hRest⟩ := h
      have hLe := hRest.le
      have hTail := ih hRest fun s hs => hSizes s (by simp [hs])
      have hSplit : hi - lo = a.size + (hi - a.stop) := by
        unfold Segment.stop at hLe ⊢
        omega
      rw [hSplit, Nat.add_mod, hTail, hSizes a (by simp)]
      rfl

/-- They then begin at multiples of it, counted from the start of the interval. -/
theorem off_mod {k : Nat} (h : Tiles lo hi xs) (hs : s ∈ xs) (hSizes : ∀ t ∈ xs, t.size % k = 0) :
    (s.off - lo) % k = 0 := by
  obtain ⟨left, right, rfl⟩ := List.append_of_mem hs
  obtain ⟨hLeft, -, -⟩ := h.around
  exact hLeft.size_mod fun t ht => hSizes t (by simp [ht])

/-- Replacing the owner of some segments keeps the cutting, which is about places and sizes
only. -/
theorem map {f : Segment ω → Segment ω} (h : Tiles lo hi xs)
    (hf : ∀ s, (f s).off = s.off ∧ (f s).size = s.size) : Tiles lo hi (xs.map f) := by
  induction xs generalizing lo with
  | nil => exact h
  | cons a xs ih =>
      obtain ⟨hOff, hSize, hRest⟩ := h
      refine ⟨(hf a).1.trans hOff, (hf a).2 ▸ hSize, ?_⟩
      have hStop : (f a).stop = a.stop := by
        unfold Segment.stop
        rw [(hf a).1, (hf a).2]
      rw [hStop]
      exact ih hRest

end Tiles

namespace Coalesced

variable {lo hi : Nat} {xs ys : List (Segment ω)} {s : Segment ω}

/-- Two coalesced parts make a coalesced whole unless both are free where they meet. -/
theorem append : Coalesced (xs ++ ys) ↔ Coalesced xs ∧ Coalesced ys ∧
    ∀ a ∈ xs.getLast?, ∀ b ∈ ys.head?, a.free = false ∨ b.free = false := List.isChain_append

/-- After a free segment the interval ends or the next segment is owned. So a run of free
segments has one member. -/
theorem after_free (h : Coalesced (s :: xs)) (hs : s.free = true) :
    ∀ b ∈ xs.head?, b.free = false := by
  intro b hb
  have := List.IsChain.rel_head? h hb
  simpa [hs] using this

/-- What is left after the first segment is coalesced as before. -/
theorem tail (h : Coalesced (s :: xs)) : Coalesced xs := List.IsChain.tail h

/-- Two segments of which one starts where the other stops are not both free. They need not be
given as neighbours in the list. -/
theorem free_of_stop {t : Segment ω} (h : Coalesced xs) (hTiles : Tiles lo hi xs) (hs : s ∈ xs)
    (ht : t ∈ xs) (hStop : s.stop = t.off) : s.free = false ∨ t.free = false := by
  obtain ⟨left, right, rfl⟩ := List.append_of_mem hs
  obtain ⟨-, -, hRight⟩ := hTiles.around
  obtain ⟨-, hPos, -⟩ := hTiles.bounds ht
  cases right with
  | nil =>
      have hLe := (hTiles.bounds ht).2.2
      obtain rfl : s.stop = hi := hRight
      unfold Segment.stop at hLe hStop
      omega
  | cons b right =>
      have hb : b = t := hTiles.eq_of_off (by simp) ht (hRight.1.trans hStop)
      obtain ⟨-, hTail, -⟩ := append.mp h
      rcases Bool.eq_false_or_eq_true s.free with hFree | hFree
      · exact Or.inr (hb ▸ hTail.after_free hFree b (by simp))
      · exact Or.inl hFree

/-- In a coalesced cutting that starts with a free segment, that segment
reaches to the first owned one, or to the end of the interval. -/
theorem free_stop (h : Coalesced (s :: xs)) (hTiles : Tiles lo hi (s :: xs)) (hs : s.free = true) :
    s.stop = ((used xs).head?.map Segment.off).getD hi := by
  obtain ⟨-, -, hRest⟩ := hTiles
  cases xs with
  | nil => exact hRest
  | cons b xs =>
      have hb : b.free = false := h.after_free hs b (by simp)
      rw [used_cons_owned xs hb]
      exact hRest.1.symm

/-- There is at most one free segment more than there are owned ones, as an owned one stands
between any two. -/
theorem countP_free_le (h : Coalesced xs) : xs.countP Segment.free ≤ (used xs).length + 1 := by
  have hHead : xs.countP Segment.free ≤
      (used xs).length + if xs.head?.any Segment.free then 1 else 0 := by
    induction xs with
    | nil => exact Nat.zero_le _
    | cons s xs ih =>
        have hTail := ih h.tail
        rw [List.head?_cons, Option.any_some]
        cases hFree : s.free with
        | true =>
            -- The next segment is owned and makes up for this one.
            have hNext : xs.head?.any Segment.free = false := by
              cases hOf : xs.head? with
              | none => rfl
              | some b => exact h.after_free hFree b hOf
            rw [hNext] at hTail
            rw [List.countP_cons_of_pos hFree, used_cons_free xs hFree]
            exact Nat.succ_le_succ hTail
        | false =>
            rw [List.countP_cons_of_neg (by simp [hFree]), used_cons_owned xs hFree,
              List.length_cons]
            split at hTail <;> omega
  split at hHead <;> omega

/-- A coalesced cutting is determined by its owned segments. The gaps between these are free,
and each gap is one segment. -/
theorem eq_of_used_eq (hx : Coalesced xs) (hy : Coalesced ys) (hxTiles : Tiles lo hi xs)
    (hyTiles : Tiles lo hi ys) (hUsed : used xs = used ys) : xs = ys := by
  induction xs generalizing lo ys with
  | nil =>
      cases hxTiles
      exact hyTiles.nil_of_eq.symm
  | cons a xs ih =>
      cases ys with
      | nil =>
          cases hyTiles
          exact hxTiles.nil_of_eq
      | cons b ys =>
          have haOff := hxTiles.1
          have hbOff := hyTiles.1
          have hHead : a = b := by
            cases ha : a.free with
            | false =>
                rw [used_cons_owned xs ha] at hUsed
                have haIn : a ∈ b :: ys := (mem_used.mp (hUsed ▸ List.mem_cons_self)).1
                exact hyTiles.eq_of_off haIn List.mem_cons_self (haOff.trans hbOff.symm)
            | true =>
                have hb : b.free = true := by
                  by_contra hOwned
                  rw [Bool.not_eq_true] at hOwned
                  rw [used_cons_owned ys hOwned] at hUsed
                  have hbIn : b ∈ a :: xs := (mem_used.mp (hUsed ▸ List.mem_cons_self)).1
                  have hEq := hxTiles.eq_of_off hbIn List.mem_cons_self (hbOff.trans haOff.symm)
                  rw [hEq, ha] at hOwned
                  cases hOwned
                rw [used_cons_free xs ha, used_cons_free ys hb] at hUsed
                have haStop := hx.free_stop hxTiles ha
                have hbStop := hy.free_stop hyTiles hb
                rw [hUsed, ← hbStop] at haStop
                have hSize : a.size = b.size := by
                  unfold Segment.stop at haStop
                  omega
                obtain ⟨aOff, aSize, aOwner⟩ := a
                obtain ⟨bOff, bSize, bOwner⟩ := b
                simp_all [Segment.free]
          subst hHead
          have hTail : used xs = used ys := by
            cases ha : a.free with
            | false => simpa [used_cons_owned _ ha] using hUsed
            | true => simpa [used_cons_free _ ha] using hUsed
          rw [ih hx.tail hy.tail hxTiles.2.2 hyTiles.2.2 hTail]

end Coalesced

/-- Put a segment in front of a cutting, joined with its neighbour when both
are free. -/
def Segment.join (a : Segment ω) : List (Segment ω) → List (Segment ω)
  | [] => [a]
  | b :: rest => if a.free && b.free then ⟨a.off, a.size + b.size, none⟩ :: rest else a :: b :: rest

/-- Join all free neighbours. -/
def coalesced (xs : List (Segment ω)) : List (Segment ω) := xs.foldr Segment.join []

/-- A segment joins the one behind it when both are free, and stands before it otherwise. -/
theorem Segment.join_cons (a b : Segment ω) (xs : List (Segment ω)) :
    a.join (b :: xs) =
      if a.free && b.free then ⟨a.off, a.size + b.size, none⟩ :: xs else a :: b :: xs := rfl

/-- Joining keeps the interval: the joined segment is as long as both. -/
theorem tiles_join {lo hi : Nat} {a : Segment ω} {xs : List (Segment ω)}
    (h : Tiles lo hi (a :: xs)) : Tiles lo hi (a.join xs) := by
  cases xs with
  | nil => exact h
  | cons b xs =>
      rw [Segment.join_cons]
      split
      · obtain ⟨haOff, haSize, hbOff, hbSize, hRest⟩ := h
        have hStop : (⟨a.off, a.size + b.size, none⟩ : Segment ω).stop = b.stop := by
          unfold Segment.stop at hbOff ⊢
          simp only
          omega
        exact ⟨haOff, Nat.add_pos_left haSize _, hStop ▸ hRest⟩
      · exact h

/-- Joining keeps the owned segments, as only free ones are joined. -/
theorem used_join (a : Segment ω) (xs : List (Segment ω)) : used (a.join xs) = used (a :: xs) := by
  cases xs with
  | nil => rfl
  | cons b xs =>
      rw [Segment.join_cons]
      split
      · next hFree =>
          rw [Bool.and_eq_true] at hFree
          rw [used_cons_free _ hFree.1, used_cons_free _ hFree.2, used_cons_free xs rfl]
      · rfl

/-- Joining a segment to a coalesced list leaves it coalesced. One join is enough, because what
it joins has no free neighbour behind it. -/
theorem coalesced_join {a : Segment ω} {xs : List (Segment ω)} (h : Coalesced xs) :
    Coalesced (a.join xs) := by
  cases xs with
  | nil => exact List.isChain_singleton a
  | cons b xs =>
      rw [Segment.join_cons]
      split
      · next hFree =>
          rw [Bool.and_eq_true] at hFree
          apply List.IsChain.cons h.tail
          intro c hc
          exact Or.inr (h.after_free hFree.2 c hc)
      · next hFree =>
          apply List.IsChain.cons h
          intro c hc
          cases hc
          rw [Bool.and_eq_true, not_and_or] at hFree
          simpa using hFree

section Join

variable {lo hi : Nat} {xs : List (Segment ω)}

/-- Coalescing from the back keeps the interval. -/
theorem tiles_coalesced (h : Tiles lo hi xs) : Tiles lo hi (coalesced xs) := by
  induction xs generalizing lo with
  | nil => exact h
  | cons a xs ih => exact tiles_join ⟨h.1, h.2.1, ih h.2.2⟩

/-- Coalescing from the back leaves no two free neighbours. -/
theorem coalesced_coalesced (xs : List (Segment ω)) : Coalesced (coalesced xs) := by
  induction xs with
  | nil => exact List.isChain_nil
  | cons a xs ih => exact coalesced_join ih

/-- Coalescing from the back keeps the owned segments. -/
theorem used_coalesced (xs : List (Segment ω)) : used (coalesced xs) = used xs := by
  induction xs with
  | nil => rfl
  | cons a xs ih =>
      show used (a.join (coalesced xs)) = used (a :: xs)
      rw [used_join, used, used, List.filter_cons, List.filter_cons]
      unfold used at ih
      rw [ih]

end Join

/-- Give up the segments that pass a test. -/
def vacateIf (p : Segment ω → Bool) (xs : List (Segment ω)) : List (Segment ω) :=
  xs.map fun s => if p s then s.vacate else s

/-- Give up the segment that starts at `off`. -/
def vacateAt (off : Nat) (xs : List (Segment ω)) : List (Segment ω) :=
  xs.map fun s => if s.off = off then s.vacate else s

/-- Give up the segment that starts at `off` and join what became free. -/
def release (off : Nat) (xs : List (Segment ω)) : List (Segment ω) := coalesced (vacateAt off xs)

/-- Give a segment to an owner who needs `n`. The rest stays free if it has at
least `least`, else it is given away as well. -/
def Segment.carve (n least : Nat) (owner : ω) (s : Segment ω) : List (Segment ω) :=
  if least ≤ s.size - n then [⟨s.off, n, some owner⟩, ⟨s.off + n, s.size - n, none⟩]
  else [⟨s.off, s.size, some owner⟩]

/-- Carve the segment that starts at `off`. -/
def carve (off n least : Nat) (owner : ω) (xs : List (Segment ω)) : List (Segment ω) :=
  xs.flatMap fun s => if s.off = off then s.carve n least owner else [s]

section Release

variable {lo hi off : Nat} {xs left mid right : List (Segment ω)}

theorem tiles_vacateIf (h : Tiles lo hi xs) (p : Segment ω → Bool) :
    Tiles lo hi (vacateIf p xs) := by
  refine h.map fun s => ?_
  split <;> exact ⟨rfl, rfl⟩

theorem used_vacateIf (p : Segment ω → Bool) (xs : List (Segment ω)) :
    used (vacateIf p xs) = (used xs).filter fun s => !p s := by
  induction xs with
  | nil => rfl
  | cons s xs ih =>
      have hCons : vacateIf p (s :: xs) = (if p s then s.vacate else s) :: vacateIf p xs := rfl
      rw [hCons]
      cases hp : p s with
      | true =>
          rw [if_pos rfl, used_cons_free _ (Segment.vacate_free s), ih]
          cases hs : s.free with
          | true => rw [used_cons_free xs hs]
          | false => simp [used_cons_owned xs hs, hp]
      | false =>
          rw [if_neg Bool.false_ne_true]
          cases hs : s.free with
          | true => rw [used_cons_free _ hs, used_cons_free xs hs, ih]
          | false => simp [used_cons_owned _ hs, hp, ih]

theorem vacateAt_eq_vacateIf (off : Nat) (xs : List (Segment ω)) :
    vacateAt off xs = vacateIf (fun s => s.off = off) xs := by
  simp only [vacateAt, vacateIf, decide_eq_true_eq]

theorem tiles_vacateAt (h : Tiles lo hi xs) (off : Nat) : Tiles lo hi (vacateAt off xs) :=
  vacateAt_eq_vacateIf off xs ▸ tiles_vacateIf h _

theorem tiles_release (h : Tiles lo hi xs) (off : Nat) : Tiles lo hi (release off xs) :=
  tiles_coalesced (tiles_vacateAt h off)

/-- After a release no two neighbours are free, whatever was free before. -/
theorem coalesced_release (off : Nat) (xs : List (Segment ω)) : Coalesced (release off xs) :=
  coalesced_coalesced _

/-- All owned segments but the one at the place are still owned. -/
theorem used_vacateAt (off : Nat) (xs : List (Segment ω)) :
    used (vacateAt off xs) = (used xs).filter fun s => s.off ≠ off := by
  rw [vacateAt_eq_vacateIf, used_vacateIf]
  exact List.filter_congr fun s _ => (decide_not ..).symm

theorem vacateAt_eq {s : Segment ω} (h : Tiles lo hi (left ++ s :: right)) :
    vacateAt s.off (left ++ s :: right) = left ++ s.vacate :: right := by
  obtain ⟨hLeft, hSize, hRight⟩ := h.around
  have hKeep : ∀ ys : List (Segment ω), (∀ t ∈ ys, t.off ≠ s.off) → vacateAt s.off ys = ys := by
    intro ys hys
    exact (List.map_congr_left fun t ht => if_neg (hys t ht)).trans (List.map_id ys)
  have hLeftKeep := hKeep left fun t ht => by
    obtain ⟨-, hPos, hStop⟩ := hLeft.bounds ht
    unfold Segment.stop at hStop
    omega
  have hRightKeep := hKeep right fun t ht => by
    obtain ⟨hStart, -, -⟩ := hRight.bounds ht
    unfold Segment.stop at hStart
    omega
  unfold vacateAt at *
  rw [List.map_append, List.map_cons, if_pos rfl, hLeftKeep, hRightKeep]

/-- Setting a segment free keeps the interval, also where it is named by what stands around
it. -/
theorem tiles_vacate {s : Segment ω} (h : Tiles lo hi (left ++ s :: right)) :
    Tiles lo hi (left ++ s.vacate :: right) :=
  vacateAt_eq h ▸ tiles_vacateAt h s.off

/-- Releasing takes exactly the segment at `off` from the owned ones. Coalescing has no part in
it. -/
theorem used_release (off : Nat) (xs : List (Segment ω)) :
    used (release off xs) = (used xs).filter fun s => s.off ≠ off := by
  rw [release, used_coalesced, used_vacateAt]

/-- Releasing joins the run of segments in which the released one is the only
owned one, when the neighbours of the run are owned, and keeps the rest. -/
theorem release_eq {start stop : Nat} {s : Segment ω} (hLeft : Tiles lo start left)
    (hMid : Tiles start stop mid) (hRight : Tiles stop hi right)
    (hCoalesced : Coalesced (left ++ mid ++ right)) (hRun : used mid = [s])
    (hBefore : ∀ a ∈ left.getLast?, a.free = false) (hAfter : ∀ b ∈ right.head?, b.free = false) :
    release s.off (left ++ mid ++ right) = left ++ ⟨start, stop - start, none⟩ :: right := by
  have hs : s ∈ mid := (mem_used.mp (hRun ▸ List.mem_singleton_self s)).1
  obtain ⟨hLow, hPos, hHigh⟩ := hMid.bounds hs
  unfold Segment.stop at hHigh
  have hTiles : Tiles lo hi (left ++ mid ++ right) :=
    Tiles.append.mpr ⟨stop, Tiles.append.mpr ⟨start, hLeft, hMid⟩, hRight⟩
  have hJoined : Tiles lo hi (left ++ ⟨start, stop - start, none⟩ :: right) := by
    refine Tiles.append.mpr ⟨start, hLeft, rfl, by simp only; omega, ?_⟩
    have hStop : (⟨start, stop - start, none⟩ : Segment ω).stop = stop := by
      unfold Segment.stop
      simp only
      omega
    rw [hStop]
    exact hRight
  obtain ⟨hLeftMid, hRightChain, -⟩ := Coalesced.append.mp hCoalesced
  obtain ⟨hLeftChain, -, -⟩ := Coalesced.append.mp hLeftMid
  refine (coalesced_release s.off _).eq_of_used_eq ?_ (tiles_release hTiles s.off) hJoined ?_
  · refine Coalesced.append.mpr ⟨hLeftChain, List.IsChain.cons hRightChain ?_, ?_⟩
    · intro b hb
      exact Or.inr (hAfter b hb)
    · intro a ha b _
      exact Or.inl (hBefore a ha)
  · have hKeepLeft : (used left).filter (fun t => t.off ≠ s.off) = used left := by
      refine List.filter_eq_self.mpr fun t ht => ?_
      obtain ⟨-, hSize, hStop⟩ := hLeft.bounds (mem_used.mp ht).1
      unfold Segment.stop at hStop
      simp only [ne_eq, decide_not, Bool.not_eq_true', decide_eq_false_iff_not]
      omega
    have hKeepRight : (used right).filter (fun t => t.off ≠ s.off) = used right := by
      refine List.filter_eq_self.mpr fun t ht => ?_
      obtain ⟨hStart, -, -⟩ := hRight.bounds (mem_used.mp ht).1
      simp only [ne_eq, decide_not, Bool.not_eq_true', decide_eq_false_iff_not]
      omega
    rw [used_release, used_append, used_append, used_append, used_cons_free right rfl, hRun,
      List.filter_append, List.filter_append, hKeepLeft, hKeepRight]
    simp

/-- What becomes free together with the owned segment `s`: the segment itself
with the free neighbours that it has. -/
structure Run (xs : List (Segment ω)) (s : Segment ω) (left pre post right : List (Segment ω)) :
    Prop where
  eq : xs = left ++ (pre ++ s :: post) ++ right
  pre : pre = [] ∨ ∃ a, pre = [a] ∧ a.free = true
  post : post = [] ∨ ∃ b, post = [b] ∧ b.free = true
  before : ∀ a ∈ left.getLast?, a.free = false
  after : ∀ b ∈ right.head?, b.free = false

private theorem split_last (h : Coalesced xs) : ∃ left pre : List (Segment ω), xs = left ++ pre ∧
    (pre = [] ∨ ∃ a, pre = [a] ∧ a.free = true) ∧ ∀ a ∈ left.getLast?, a.free = false := by
  rcases List.eq_nil_or_concat xs with rfl | ⟨ys, a, rfl⟩
  · exact ⟨[], [], rfl, Or.inl rfl, by simp⟩
  · rw [List.concat_eq_append] at h ⊢
    cases ha : a.free with
    | true =>
        refine ⟨ys, [a], rfl, Or.inr ⟨a, rfl, ha⟩, fun b hb => ?_⟩
        have := (Coalesced.append.mp h).2.2 b hb a (by simp)
        simpa [ha] using this
    | false =>
        refine ⟨ys ++ [a], [], by simp, Or.inl rfl, fun b hb => ?_⟩
        rw [List.getLast?_concat, Option.mem_some_iff] at hb
        exact hb ▸ ha

private theorem split_head (h : Coalesced xs) : ∃ post right : List (Segment ω),
    xs = post ++ right ∧ (post = [] ∨ ∃ b, post = [b] ∧ b.free = true) ∧
      ∀ b ∈ right.head?, b.free = false := by
  cases xs with
  | nil => exact ⟨[], [], rfl, Or.inl rfl, by simp⟩
  | cons b ys =>
      cases hb : b.free with
      | true => exact ⟨[b], ys, rfl, Or.inr ⟨b, rfl, hb⟩, h.after_free hb⟩
      | false =>
          refine ⟨[], b :: ys, rfl, Or.inl rfl, fun c hc => ?_⟩
          rw [List.head?_cons, Option.mem_some_iff] at hc
          exact hc ▸ hb

/-- Around every segment of a coalesced list there is a free neighbour or none on each side,
and what stands beyond them is owned. -/
theorem exists_run {s : Segment ω} (h : Coalesced xs) (hs : s ∈ xs) :
    ∃ left pre post right, Run xs s left pre post right := by
  obtain ⟨before, after, rfl⟩ := List.append_of_mem hs
  obtain ⟨hBefore, hAfter, -⟩ := Coalesced.append.mp h
  obtain ⟨left, pre, rfl, hPre, hLast⟩ := split_last hBefore
  obtain ⟨post, right, rfl, hPost, hHead⟩ := split_head hAfter.tail
  exact ⟨left, pre, post, right, by simp, hPre, hPost, hLast, hHead⟩

namespace Run

variable {pre post : List (Segment ω)} {s : Segment ω}

theorem used_mid (h : Run xs s left pre post right) (hs : s.free = false) :
    used (pre ++ s :: post) = [s] := by
  rw [used_append, used_cons_owned post hs]
  rcases h.pre with rfl | ⟨a, rfl, ha⟩ <;> rcases h.post with rfl | ⟨b, rfl, hb⟩
  · rfl
  · rw [used_cons_free [] hb]
    rfl
  · rw [used_cons_free [] ha]
    rfl
  · rw [used_cons_free [] ha, used_cons_free [] hb]
    rfl

theorem pre_free (h : Run xs s left pre post right) : ∀ a ∈ pre, a.free = true := by
  rcases h.pre with rfl | ⟨a, rfl, ha⟩
  · simp
  · simpa using ha

theorem post_free (h : Run xs s left pre post right) : ∀ b ∈ post, b.free = true := by
  rcases h.post with rfl | ⟨b, rfl, hb⟩
  · simp
  · simpa using hb

/-- No other owned segment is part of the run, so a release within it is about one segment. -/
theorem eq_of_owned (h : Run xs s left pre post right) (hs : s.free = false) {t : Segment ω}
    (ht : t ∈ pre ++ s :: post) (hOwned : t.free = false) : t = s := by
  have hUsed := mem_used.mpr ⟨ht, hOwned⟩
  rw [h.used_mid hs] at hUsed
  exact List.mem_singleton.mp hUsed

/-- The run between its two ends, which are those of the free segment that it becomes. -/
theorem tiles (h : Run xs s left pre post right) (hTiles : Tiles lo hi xs) :
    ∃ start stop, Tiles lo start left ∧ Tiles start stop (pre ++ s :: post) ∧
      Tiles stop hi right := by
  rw [h.eq] at hTiles
  obtain ⟨stop, hRest, hRight⟩ := Tiles.append.mp hTiles
  obtain ⟨start, hLeft, hMid⟩ := Tiles.append.mp hRest
  exact ⟨start, stop, hLeft, hMid, hRight⟩

/-- Once its segment is vacated, the whole run is free. -/
theorem vacate (h : Run xs s left pre post right) (hTiles : Tiles lo hi xs) :
    Run (vacateAt s.off xs) s.vacate left pre post right := by
  refine ⟨?_, h.pre, h.post, h.before, h.after⟩
  have hEq : xs = (left ++ pre) ++ s :: (post ++ right) := by
    rw [h.eq]
    simp
  rw [hEq] at hTiles ⊢
  rw [vacateAt_eq hTiles]
  simp

/-- A release in a coalesced list: the run becomes one free segment, and the parts around it
are as they were. -/
theorem release_eq {start stop : Nat} (h : Run xs s left pre post right) (hs : s.free = false)
    (hCoalesced : Coalesced xs) (hLeft : Tiles lo start left)
    (hMid : Tiles start stop (pre ++ s :: post)) (hRight : Tiles stop hi right) :
    release s.off xs = left ++ ⟨start, stop - start, none⟩ :: right := by
  have hEq := h.eq
  subst hEq
  exact Tiling.release_eq hLeft hMid hRight hCoalesced (h.used_mid hs) h.before h.after

end Run

end Release

section Carve

variable {lo hi n least : Nat} {owner : ω} {xs left right : List (Segment ω)} {s : Segment ω}

/-- A change of the segment at a place does nothing to a list with no segment there. -/
theorem flatMap_eq_self {off : Nat} {f : Segment ω → List (Segment ω)}
    (h : ∀ s ∈ xs, s.off ≠ off) : (xs.flatMap fun s => if s.off = off then f s else [s]) = xs := by
  induction xs with
  | nil => rfl
  | cons s xs ih =>
      rw [List.flatMap_cons, if_neg (h s (by simp)), ih fun t ht => h t (by simp [ht])]
      rfl

/-- Carving changes one segment and keeps the others, with their places and owners. -/
theorem carve_eq (h : Tiles lo hi (left ++ s :: right)) :
    carve s.off n least owner (left ++ s :: right) = left ++ s.carve n least owner ++ right := by
  obtain ⟨hLeft, hSize, hRight⟩ := h.around
  have hLeftOff : ∀ t ∈ left, t.off ≠ s.off := by
    intro t ht
    obtain ⟨-, hPos, hStop⟩ := hLeft.bounds ht
    unfold Segment.stop at hStop
    omega
  have hRightOff : ∀ t ∈ right, t.off ≠ s.off := by
    intro t ht
    obtain ⟨hStart, -, -⟩ := hRight.bounds ht
    unfold Segment.stop at hStart
    omega
  rw [carve, List.flatMap_append, List.flatMap_cons, if_pos rfl, flatMap_eq_self hLeftOff,
    flatMap_eq_self hRightOff, List.append_assoc]

/-- What is carved from a segment fills it, with a rest or without one. -/
theorem Segment.tiles_carve (owner : ω) (hPos : 0 < n) (hFits : n ≤ s.size) (hLeast : 0 < least) :
    Tiles s.off s.stop (s.carve n least owner) := by
  unfold Segment.carve
  split <;> simp only [Tiles, Segment.stop, true_and, and_true] <;> omega

theorem tiles_carve (h : Tiles lo hi (left ++ s :: right)) (hPos : 0 < n) (hFits : n ≤ s.size)
    (hLeast : 0 < least) : Tiles lo hi (left ++ s.carve n least owner ++ right) := by
  obtain ⟨hLeft, -, hRight⟩ := h.around
  have hBoth := Tiles.append.mpr ⟨s.off, hLeft, Segment.tiles_carve owner hPos hFits hLeast⟩
  exact Tiles.append.mpr ⟨s.stop, hBoth, hRight⟩

/-- The carved segment starts where the free one did, and is the only owned
segment that carving adds. -/
theorem Segment.used_carve (n least : Nat) (owner : ω) (s : Segment ω) :
    ∃ size, used (s.carve n least owner) = [⟨s.off, size, some owner⟩] := by
  unfold Segment.carve
  split
  · exact ⟨n, rfl⟩
  · exact ⟨s.size, rfl⟩

/-- What is carved begins where the segment begins, and belongs to the new owner. -/
theorem Segment.carve_head (n least : Nat) (owner : ω) (s : Segment ω) :
    ∃ size rest, s.carve n least owner = ⟨s.off, size, some owner⟩ :: rest := by
  unfold Segment.carve
  split
  · exact ⟨n, _, rfl⟩
  · exact ⟨s.size, _, rfl⟩

/-- A carved segment larger than was asked for is the whole free one. -/
theorem Segment.map_off_carve {t : Segment ω} (hPos : 0 < n) (ht : t ∈ s.carve n least owner)
    (hOff : t.off = s.off) (hSize : t.size ≠ n) :
    (s.carve n least owner).map Segment.off = [s.off] := by
  unfold Segment.carve at ht ⊢
  split at ht
  · simp only [List.mem_cons, List.not_mem_nil, or_false] at ht
    rcases ht with rfl | rfl
    · exact absurd rfl hSize
    · exact absurd hOff (by simp only; omega)
  · next hSmall =>
      rw [if_neg hSmall]
      rfl

/-- When a carved segment is larger than was asked for, no segment starts where
none did before. -/
theorem map_off_carve {t : Segment ω} (h : Tiles lo hi (left ++ s :: right)) (hPos : 0 < n)
    (hFits : n ≤ s.size) (hLeast : 0 < least)
    (ht : t ∈ carve s.off n least owner (left ++ s :: right)) (hOff : t.off = s.off)
    (hSize : t.size ≠ n) : (carve s.off n least owner (left ++ s :: right)).map Segment.off =
      (left ++ s :: right).map Segment.off := by
  have hTiles : Tiles lo hi (left ++ s.carve n least owner ++ right) :=
    tiles_carve h hPos hFits hLeast
  rw [carve_eq h] at ht ⊢
  obtain ⟨size, rest, hCarve⟩ := s.carve_head n least owner
  have hFirst : t = ⟨s.off, size, some owner⟩ := hTiles.eq_of_off ht (by simp [hCarve]) hOff
  have hIn : t ∈ s.carve n least owner := by simp [hCarve, hFirst]
  rw [List.map_append, List.map_append, Segment.map_off_carve hPos hIn hOff hSize]
  simp

/-- Carving a free segment leaves no two free neighbours, because the free
segment had owned neighbours. -/
theorem coalesced_carve (h : Coalesced (left ++ s :: right)) (hFree : s.free = true) :
    Coalesced (left ++ s.carve n least owner ++ right) := by
  obtain ⟨hLeft, hRest, hSeam⟩ := Coalesced.append.mp h
  obtain ⟨size, rest, hCarve⟩ := s.carve_head n least owner
  have hInner : Coalesced (s.carve n least owner) := by
    unfold Segment.carve
    split
    · exact List.isChain_pair.mpr (Or.inl rfl)
    · exact List.isChain_singleton _
  rw [List.append_assoc]
  refine Coalesced.append.mpr ⟨hLeft, Coalesced.append.mpr ⟨hInner, hRest.tail, ?_⟩, ?_⟩
  · intro a _ b hb
    exact Or.inr (hRest.after_free hFree b hb)
  · intro a ha b _
    have := hSeam a ha s (by simp)
    simp only [hFree, Bool.true_eq_false, or_false] at this
    exact Or.inl this

/-- Releasing what was carved gives the cutting back. The rest that was split off is joined to
it again. -/
theorem release_carve (h : Tiles lo hi (left ++ s :: right))
    (hCoalesced : Coalesced (left ++ s :: right)) (hFree : s.free = true)
    (hPos : 0 < n) (hFits : n ≤ s.size) (hLeast : 0 < least) (owner : ω) :
    release s.off (left ++ s.carve n least owner ++ right) = left ++ s :: right := by
  obtain ⟨hLeft, hSize, hRight⟩ := h.around
  obtain ⟨-, hRest, hSeam⟩ := Coalesced.append.mp hCoalesced
  obtain ⟨size, hUsed⟩ := s.used_carve n least owner
  have hMerged : (⟨s.off, s.stop - s.off, none⟩ : Segment ω) = s := by
    obtain ⟨off, size, sOwner⟩ := s
    simp_all [Segment.stop, Segment.free]
  have hEq := release_eq hLeft (Segment.tiles_carve owner hPos hFits hLeast) hRight
    (coalesced_carve hCoalesced hFree) hUsed ?_ ?_
  · rw [hMerged] at hEq
    exact hEq
  · intro a ha
    have := hSeam a ha s (by simp)
    simpa [hFree] using this
  · exact hRest.after_free hFree

end Carve

end Tiling
