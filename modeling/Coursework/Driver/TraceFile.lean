import Coursework.Driver.Mdriver
import Coursework.Library.Text

/-! `read_trace` of `mdriver.c`, and the format of its files: which traces it reads,
and that it reads each of them as it is written. -/

namespace Mdriver

open Text

/-- `MAXLINE` -/
def maxline : Nat := 1024

/-- `trace_t`. The two other arrays are in the state of the driver. -/
structure Trace where
  suggHeapsize : Int
  numIds : Int
  numOps : Int
  weight : Int
  ops : List TraceOp
deriving DecidableEq, Repr

/-- Why `read_trace` does not return. -/
inductive ReadError where
  /-- "malloc 2 failed in read_trace" -/
  | malloc2
  /-- "malloc 3 failed in read_trace" -/
  | malloc3
  /-- "Bogus type character (%c) in tracefile %s\n" -/
  | bogusType (c : Char)
  /-- `assert(max_index == trace->num_ids - 1)` -/
  | assertMaxIndex
  /-- `assert(trace->num_ops == op_index)` -/
  | assertNumOps
  /-- A word that is too long for `type`. -/
  | typeOverflow
  /-- A request after the last one that `trace->ops` has room for. -/
  | opsOverflow
deriving DecidableEq, Repr

/-- What uninitialised memory holds: the record, the array `ops` and `size`. -/
structure Junk where
  record : Trace
  ops : Nat → TraceOp
  size : Nat

/-- The `int` that `%d` stores for a numeral, through `strtol`. -/
def toSigned (v : Int) : Int := (BitVec.ofInt 32 (max (-2 ^ 63) (min v (2 ^ 63 - 1)))).toInt

/-- The `unsigned` that `%u` stores, through `strtoul`. -/
def toUnsigned (v : Int) : Nat :=
  (if 2 ^ 64 ≤ v.natAbs then 2 ^ 64 - 1 else (v % 2 ^ 64).toNat) % 2 ^ 32

theorem toInt_fits (n : Nat) : -2 ^ 31 ≤ toInt n ∧ toInt n < 2 ^ 31 :=
  ⟨BitVec.le_toInt _, BitVec.toInt_lt⟩

/-- `%d`; the variable keeps its value when there is no numeral. -/
def scanInt (old : Int) (cs : List Char) : Int × List Char :=
  match scanNumeral cs with
  | (some v, rest) => (toSigned v, rest)
  | (none, rest) => (old, rest)

/-- The local variables of the loop of `read_trace`, and the requests so far. -/
structure Reading where
  index : Nat
  size : Nat
  maxIndex : Nat
  ops : List TraceOp
deriving DecidableEq, Repr

/-- `fscanf(tracefile, "%u %u", &index, &size)` -/
def scanPair (r : Reading) (cs : List Char) : Reading × List Char :=
  match scanNumeral cs with
  | (none, rest) => (r, rest)
  | (some v, rest) =>
      match scanNumeral rest with
      | (none, rest') => ({ r with index := toUnsigned v }, rest')
      | (some w, rest') => ({ r with index := toUnsigned v, size := toUnsigned w }, rest')

/-- `fscanf(tracefile, "%ud", &index)`: the format is `%u` and a letter. -/
def scanIndex (r : Reading) (cs : List Char) : Reading × List Char :=
  match scanNumeral cs with
  | (none, rest) => (r, rest)
  | (some v, 'd' :: rest) => ({ r with index := toUnsigned v }, rest)
  | (some v, rest) => ({ r with index := toUnsigned v }, rest)

/-- The request is stored in `trace->ops[op_index]`. -/
def storeOp (numOps : Int) (r : Reading) (op : TraceOp) : Except ReadError Reading :=
  if (r.ops.length : Int) < numOps then .ok { r with ops := r.ops ++ [op] }
  else .error .opsOverflow

/-- The cases `'a'` and `'r'`. -/
def readSized (type : OpType) (numOps : Int) (rest : List Char) (r : Reading) :
    Except ReadError (Reading × List Char) := do
  let (r, rest) := scanPair r rest
  let r ← storeOp numOps r ⟨type, r.index, toInt r.size, toInt_fits r.size⟩
  pure ({ r with maxIndex := if r.maxIndex < r.index then r.index else r.maxIndex }, rest)

/-- The case `'f'` leaves the size as it is in memory. -/
def readFree (junk : Junk) (numOps : Int) (rest : List Char) (r : Reading) :
    Except ReadError (Reading × List Char) := do
  let (r, rest) := scanIndex r rest
  let r ← storeOp numOps r { junk.ops r.ops.length with type := .free, index := r.index }
  pure (r, rest)

def readOp (junk : Junk) (numOps : Int) (type rest : List Char) (r : Reading) :
    Except ReadError (Reading × List Char) :=
  if maxline ≤ type.length then .error .typeOverflow
  else match type.headD '\x00' with
    | 'a' => readSized .alloc numOps rest r
    | 'r' => readSized .realloc numOps rest r
    | 'f' => readFree junk numOps rest r
    | c => .error (.bogusType c)

section Lengths

variable {junk : Junk} {numOps : Int} {rest rest' : List Char} {r r' : Reading}

/-- Reading two numbers takes nothing more from the text than they are, and may take nothing.
The loop ends because the word before them is gone. -/
theorem length_scanPair (r : Reading) (cs : List Char) : (scanPair r cs).2.length ≤ cs.length := by
  have hFirst := length_scanNumeral cs
  rcases hScan : scanNumeral cs with ⟨_ | v, mid⟩
  · simpa [scanPair, hScan] using hFirst
  · have hSecond := length_scanNumeral mid
    rw [hScan] at hFirst
    rcases hScan' : scanNumeral mid with ⟨_ | w, rest⟩ <;> rw [hScan'] at hSecond
    · simpa [scanPair, hScan, hScan'] using Nat.le_trans hSecond hFirst
    · simpa [scanPair, hScan, hScan'] using Nat.le_trans hSecond hFirst

theorem length_scanIndex (r : Reading) (cs : List Char) :
    (scanIndex r cs).2.length ≤ cs.length := by
  have hFirst := length_scanNumeral cs
  unfold scanIndex
  rcases hScan : scanNumeral cs with ⟨_ | v, rest⟩ <;> rw [hScan] at hFirst
  · exact hFirst
  · split
    · next hMatch => cases hMatch
    · next hMatch =>
        obtain ⟨-, rfl⟩ := Prod.mk.inj hMatch
        exact Nat.le_of_succ_le hFirst
    · next hMatch =>
        obtain ⟨-, rfl⟩ := Prod.mk.inj hMatch
        exact hFirst

/-- A record is stored at the next place of the array, which has room for the announced number
of them. -/
theorem storeOp_ok {op : TraceOp} (h : storeOp numOps r op = .ok r') :
    (r.ops.length : Int) < numOps ∧ r' = { r with ops := r.ops ++ [op] } := by
  unfold storeOp at h
  split at h
  · next hRoom => exact ⟨hRoom, (Except.ok.inj h).symm⟩
  · cases h

/-- A stored request, and the text after it. -/
theorem readSized_ok {type : OpType} (h : readSized type numOps rest r = .ok (r', rest')) :
    rest' = (scanPair r rest).2 ∧ ((scanPair r rest).1.ops.length : Int) < numOps ∧
      r'.index = (scanPair r rest).1.index ∧
      r'.maxIndex = max (scanPair r rest).1.maxIndex (scanPair r rest).1.index ∧
      ∃ size fits, r'.ops = (scanPair r rest).1.ops ++
        [⟨type, (scanPair r rest).1.index, size, fits⟩] := by
  unfold readSized at h
  rcases hScan : scanPair r rest with ⟨q, tail⟩
  simp only [hScan] at h
  cases hStore : storeOp numOps q ⟨type, q.index, toInt q.size, toInt_fits q.size⟩ with
  | error e =>
      rw [hStore] at h
      cases h
  | ok p =>
      rw [hStore] at h
      obtain ⟨hRoom, rfl⟩ := storeOp_ok hStore
      obtain ⟨rfl, rfl⟩ := Prod.mk.inj (Except.ok.inj h)
      exact ⟨rfl, hRoom, rfl, (max_def_lt _ _).symm, toInt q.size, toInt_fits q.size, rfl⟩

/-- A record `f` leaves the greatest id and the size that memory had at its place. -/
theorem readFree_ok (h : readFree junk numOps rest r = .ok (r', rest')) :
    rest' = (scanIndex r rest).2 ∧ ((scanIndex r rest).1.ops.length : Int) < numOps ∧
      r'.index = (scanIndex r rest).1.index ∧ r'.maxIndex = (scanIndex r rest).1.maxIndex ∧
      r'.ops = (scanIndex r rest).1.ops ++
        [{ junk.ops (scanIndex r rest).1.ops.length with
          type := .free, index := (scanIndex r rest).1.index }] := by
  unfold readFree at h
  rcases hScan : scanIndex r rest with ⟨q, tail⟩
  simp only [hScan] at h
  cases hStore : storeOp numOps q { junk.ops q.ops.length with
      type := .free, index := q.index } with
  | error e =>
      rw [hStore] at h
      cases h
  | ok p =>
      rw [hStore] at h
      obtain ⟨hRoom, rfl⟩ := storeOp_ok hStore
      obtain ⟨rfl, rfl⟩ := Prod.mk.inj (Except.ok.inj h)
      exact ⟨rfl, hRoom, rfl, rfl, rfl⟩

/-- Only three letters are the type of a request. -/
theorem readOp_ok {type : List Char} (h : readOp junk numOps type rest r = .ok (r', rest')) :
    (∃ kind, kind ≠ .free ∧ readSized kind numOps rest r = .ok (r', rest')) ∨
      readFree junk numOps rest r = .ok (r', rest') := by
  unfold readOp at h
  split at h
  · cases h
  · split at h
    · exact Or.inl ⟨.alloc, by decide, h⟩
    · exact Or.inl ⟨.realloc, by decide, h⟩
    · exact Or.inr h
    · cases h

theorem length_readOp {type : List Char} (h : readOp junk numOps type rest r = .ok (r', rest')) :
    rest'.length ≤ rest.length := by
  rcases readOp_ok h with ⟨kind, -, hSized⟩ | hFree
  · rw [(readSized_ok hSized).1]
    exact length_scanPair r rest
  · rw [(readFree_ok hFree).1]
    exact length_scanIndex r rest

end Lengths

/-- The loop of `read_trace` over the requests. -/
def readOps (junk : Junk) (numOps : Int) (cs : List Char) (r : Reading) :
    Except ReadError Reading :=
  match _h : scanWord cs with
  | none => .ok r
  | some (type, rest) =>
      match _h' : readOp junk numOps type rest r with
      | .error e => .error e
      | .ok (r', rest') => readOps junk numOps rest' r'
termination_by cs.length
decreasing_by exact Nat.lt_of_le_of_lt (length_readOp _h') (scanWord_some _h).2

def readTrace (junk : Junk) (text : List Char) : Except ReadError Trace :=
  let (suggHeapsize, cs) := scanInt junk.record.suggHeapsize text
  let (numIds, cs) := scanInt junk.record.numIds cs
  let (numOps, cs) := scanInt junk.record.numOps cs
  let (weight, cs) := scanInt junk.record.weight cs
  if numOps < 0 then .error .malloc2
  else if numIds < 0 then .error .malloc3
  else do
    let r ← readOps junk numOps cs ⟨0, junk.size, 0, []⟩
    if (r.maxIndex : Int) ≠ (numIds - 1) % 2 ^ 32 then .error .assertMaxIndex
    else if numOps ≠ r.ops.length then .error .assertNumOps
    else .ok ⟨suggHeapsize, numIds, numOps, weight, r.ops⟩

/-- A line of a trace file. -/
def TraceOp.line (op : TraceOp) : List Char :=
  match op.type with
  | .alloc => 'a' :: ' ' :: (decimal op.index ++ ' ' :: (signed op.size ++ ['\n']))
  | .realloc => 'r' :: ' ' :: (decimal op.index ++ ' ' :: (signed op.size ++ ['\n']))
  | .free => 'f' :: ' ' :: (decimal op.index ++ ['\n'])

/-- A trace file: the header, a number on each line, and the requests. -/
def Trace.print (t : Trace) : List Char :=
  signed t.suggHeapsize ++ '\n' :: (signed t.numIds ++ '\n' :: (signed t.numOps ++ '\n' ::
    (signed t.weight ++ '\n' :: t.ops.flatMap TraceOp.line)))

section Accepted

variable {junk : Junk} {numOps : Int} {cs rest rest' : List Char} {r r' : Reading} {t : Trace}

/-- The id of a request that `read_trace` checks: it checks those of `a` and `r`. -/
def TraceOp.checkedId (op : TraceOp) : Nat := if op.type = .free then 0 else op.index

/-- The largest of them. -/
def highest : List TraceOp → Nat
  | [] => 0
  | op :: ops => max op.checkedId (highest ops)

/-- The requests as they are in memory, from number `n` on, where the sizes of `f` were
there before. -/
def stored (junk : Junk) : Nat → List TraceOp → List TraceOp
  | _, [] => []
  | n, op :: ops =>
      (if op.type = .free then { junk.ops n with type := .free, index := op.index } else op) ::
        stored junk (n + 1) ops

theorem length_stored (junk : Junk) (n : Nat) (ops : List TraceOp) :
    (stored junk n ops).length = ops.length := by
  induction ops generalizing n with
  | nil => rfl
  | cons op ops ih => exact congrArg (· + 1) (ih (n + 1))

/-- The greatest id is found record by record, as `max_index` is. -/
theorem highest_append (ops : List TraceOp) (op : TraceOp) :
    highest (ops ++ [op]) = max (highest ops) op.checkedId := by
  induction ops with
  | nil => exact Nat.max_comm _ _
  | cons first ops ih => rw [List.cons_append, highest, highest, ih, Nat.max_assoc]

/-- What memory has at later places does not depend on earlier records. So a record can be read
without the ones before it. -/
theorem stored_append (junk : Junk) (n : Nat) (ops ops' : List TraceOp) :
    stored junk n (ops ++ ops') = stored junk n ops ++ stored junk (n + ops.length) ops' := by
  induction ops generalizing n with
  | nil => rfl
  | cons first ops ih =>
      rw [List.cons_append, stored, stored, ih, List.cons_append, List.length_cons]
      congr 3
      omega

theorem toUnsigned_lt (v : Int) : toUnsigned v < 2 ^ 32 := Nat.mod_lt _ (by decide)

/-- What holds of the requests at every point of the loop. -/
structure Reading.Inv (junk : Junk) (numOps : Int) (r : Reading) : Prop where
  index : r.index < 2 ^ 32
  maxIndex : r.maxIndex = highest r.ops
  ops : stored junk 0 r.ops = r.ops
  indices : ∀ op ∈ r.ops, op.index < 2 ^ 32
  room : (r.ops.length : Int) ≤ numOps

/-- Reading two numbers keeps the invariant, as it stores no record. What it has changed is the
text that is left. -/
theorem scanPair_inv (h : r.Inv junk numOps) (cs : List Char) :
    (scanPair r cs).1.Inv junk numOps := by
  unfold scanPair
  rcases scanNumeral cs with ⟨_ | v, mid⟩
  · exact h
  · rcases hScan : scanNumeral mid with ⟨_ | w, rest⟩ <;> simp only [hScan]
    · exact ⟨toUnsigned_lt v, h.maxIndex, h.ops, h.indices, h.room⟩
    · exact ⟨toUnsigned_lt v, h.maxIndex, h.ops, h.indices, h.room⟩

theorem scanIndex_inv (h : r.Inv junk numOps) (cs : List Char) :
    (scanIndex r cs).1.Inv junk numOps := by
  unfold scanIndex
  split
  · exact h
  · exact ⟨toUnsigned_lt _, h.maxIndex, h.ops, h.indices, h.room⟩
  · exact ⟨toUnsigned_lt _, h.maxIndex, h.ops, h.indices, h.room⟩

/-- One more request. -/
theorem Reading.Inv.push {q : Reading} {op : TraceOp} (h : q.Inv junk numOps)
    (hRoom : (q.ops.length : Int) < numOps) (hIndex : r'.index = q.index)
    (hMax : r'.maxIndex = max q.maxIndex op.checkedId) (hOps : r'.ops = q.ops ++ [op])
    (hStored : stored junk q.ops.length [op] = [op]) (hOp : op.index = q.index) :
    r'.Inv junk numOps := by
  refine ⟨hIndex ▸ h.index, ?_, ?_, ?_, ?_⟩
  · rw [hMax, hOps, highest_append, h.maxIndex]
  · rw [hOps, stored_append, h.ops, Nat.zero_add, hStored]
  · rw [hOps]
    refine List.forall_mem_append.mpr ⟨h.indices, List.forall_mem_singleton.mpr ?_⟩
    exact hOp ▸ h.index
  · rw [hOps, List.length_append]
    exact hRoom

/-- Step lemma of the loop: a record of any kind keeps the invariant. The cases are the three
letters. -/
theorem readOp_inv {type : List Char} (h : r.Inv junk numOps)
    (hRead : readOp junk numOps type rest r = .ok (r', rest')) : r'.Inv junk numOps := by
  rcases readOp_ok hRead with ⟨kind, hKind, hSized⟩ | hFree
  · obtain ⟨-, hRoom, hIndex, hMax, size, fits, hOps⟩ := readSized_ok hSized
    refine (scanPair_inv h rest).push hRoom hIndex ?_ hOps ?_ rfl
    · rw [TraceOp.checkedId, if_neg hKind]
      exact hMax
    · rw [stored, if_neg hKind, stored]
  · obtain ⟨-, hRoom, hIndex, hMax, hOps⟩ := readFree_ok hFree
    exact (scanIndex_inv h rest).push hRoom hIndex (hMax.trans (Nat.max_zero _).symm) hOps rfl rfl

/-- The loop ends where `fscanf` finds no word. -/
theorem readOps_end (h : scanWord cs = none) : readOps junk numOps cs r = .ok r := by
  rw [readOps]
  split
  · rfl
  · next hSome =>
      rw [h] at hSome
      cases hSome

/-- A round of the loop: a word, and the record that it begins. -/
theorem readOps_step {type : List Char} (h : scanWord cs = some (type, rest)) :
    readOps junk numOps cs r =
      (readOp junk numOps type rest r).bind fun x => readOps junk numOps x.2 x.1 := by
  rw [readOps]
  split
  · next hNone =>
      rw [h] at hNone
      cases hNone
  · next hSome =>
      rw [h] at hSome
      obtain ⟨rfl, rfl⟩ := Prod.mk.inj (Option.some.inj hSome)
      split
      · next hRead =>
          rw [hRead]
          rfl
      · next hRead =>
          rw [hRead]
          rfl

/-- The invariant holds when the loop ends. The induction is on the length of the text, of
which every round reads a word. -/
theorem readOps_inv (h : r.Inv junk numOps) (hRead : readOps junk numOps cs r = .ok r') :
    r'.Inv junk numOps := by
  induction hLength : cs.length using Nat.strongRecOn generalizing cs r with
  | ind n ih =>
      cases hWord : scanWord cs with
      | none =>
          rw [readOps_end hWord] at hRead
          exact Except.ok.inj hRead ▸ h
      | some x =>
          obtain ⟨type, rest⟩ := x
          rw [readOps_step hWord] at hRead
          cases hOp : readOp junk numOps type rest r with
          | error e =>
              rw [hOp] at hRead
              cases hRead
          | ok y =>
              obtain ⟨q, tail⟩ := y
              rw [hOp] at hRead
              have hLess := Nat.lt_of_le_of_lt (length_readOp hOp) (scanWord_some hWord).2
              exact ih _ (hLength ▸ hLess) (readOp_inv h hOp) hRead rfl

end Accepted

/-- An `int`. -/
def IsInt (n : Int) : Prop := -2 ^ 31 ≤ n ∧ n < 2 ^ 31

instance (n : Int) : Decidable (IsInt n) := inferInstanceAs (Decidable (_ ∧ _))

/-- The traces that `read_trace` returns: the numbers of the header are those of the
requests, but the ids of `f` may be any. -/
structure Trace.Readable (t : Trace) : Prop where
  suggHeapsize : IsInt t.suggHeapsize
  weight : IsInt t.weight
  numOps : t.numOps = t.ops.length
  fits : t.numOps < 2 ^ 31
  numIds : 0 ≤ t.numIds ∧ t.numIds < 2 ^ 31
  highest : (highest t.ops : Int) = (t.numIds - 1) % 2 ^ 32
  indices : ∀ op ∈ t.ops, op.index < 2 ^ 32

section Numbers

variable {n : Int}

/-- What `%d` stores is an `int`, also when the numeral is out of range. It is clamped to
`long` and cut to 32 bits. -/
theorem isInt_toSigned (v : Int) : IsInt (toSigned v) := ⟨BitVec.le_toInt _, BitVec.toInt_lt⟩

theorem toSigned_eq (h : IsInt n) : toSigned n = n := by
  obtain ⟨hLow, hHigh⟩ := h
  rw [toSigned, min_eq_left (by omega), max_eq_right (by omega), BitVec.toInt_ofInt]
  exact Int.bmod_eq_of_le (by omega) (by omega)

theorem toUnsigned_natCast {i : Nat} (h : i < 2 ^ 32) : toUnsigned i = i := by
  rw [toUnsigned, if_neg (by omega)]
  omega

/-- A size goes through `unsigned` and back. -/
theorem toInt_toUnsigned (h : IsInt n) : toInt (toUnsigned n) = n := by
  obtain ⟨hLow, hHigh⟩ := h
  have hBits : (((n % 2 ^ 64).toNat % 2 ^ 32 : Nat) : Int) = n % ((2 ^ 32 : Nat) : Int) := by
    omega
  rw [toInt, toUnsigned, if_neg (by omega), BitVec.toInt_ofNat', hBits, Int.emod_bmod]
  exact Int.bmod_eq_of_le (by omega) (by omega)

/-- A number of the header is an `int`, whether it was read or was in memory before. -/
theorem isInt_scanInt {old : Int} (h : IsInt old) (cs : List Char) : IsInt (scanInt old cs).1 := by
  unfold scanInt
  split
  · exact isInt_toSigned _
  · exact h

end Numbers

section Read

variable {junk : Junk} {text : List Char} {t : Trace}

/-- Where the parts of a trace that was read come from. The header gives four numbers, and the
loop the requests. -/
theorem readTrace_ok (h : readTrace junk text = .ok t) : ∃ cs₁ cs₂ cs₃ cs₄ r,
    scanInt junk.record.suggHeapsize text = (t.suggHeapsize, cs₁) ∧
    scanInt junk.record.numIds cs₁ = (t.numIds, cs₂) ∧
    scanInt junk.record.numOps cs₂ = (t.numOps, cs₃) ∧
    scanInt junk.record.weight cs₃ = (t.weight, cs₄) ∧ 0 ≤ t.numOps ∧ 0 ≤ t.numIds ∧
    readOps junk t.numOps cs₄ ⟨0, junk.size, 0, []⟩ = .ok r ∧
    (r.maxIndex : Int) = (t.numIds - 1) % 2 ^ 32 ∧ t.numOps = r.ops.length ∧ t.ops = r.ops := by
  unfold readTrace at h
  rcases hSugg : scanInt junk.record.suggHeapsize text with ⟨suggHeapsize, cs₁⟩
  rcases hIds : scanInt junk.record.numIds cs₁ with ⟨numIds, cs₂⟩
  rcases hOps : scanInt junk.record.numOps cs₂ with ⟨numOps, cs₃⟩
  rcases hWeight : scanInt junk.record.weight cs₃ with ⟨weight, cs₄⟩
  simp only [hSugg, hIds, hOps, hWeight] at h
  split at h
  · cases h
  · next hNumOps =>
      split at h
      · cases h
      · next hNumIds =>
          cases hRead : readOps junk numOps cs₄ ⟨0, junk.size, 0, []⟩ with
          | error e =>
              rw [hRead] at h
              cases h
          | ok r =>
              rw [hRead] at h
              replace h : (if (r.maxIndex : Int) ≠ (numIds - 1) % 2 ^ 32 then
                Except.error ReadError.assertMaxIndex
                else if numOps ≠ r.ops.length then .error .assertNumOps
                else .ok ⟨suggHeapsize, numIds, numOps, weight, r.ops⟩) = .ok t := h
              split at h
              · cases h
              · next hMax =>
                  split at h
                  · cases h
                  · next hLength =>
                      obtain rfl := Except.ok.inj h
                      exact ⟨cs₁, cs₂, cs₃, cs₄, r, rfl, hIds, hOps, hWeight, not_lt.mp hNumOps,
                        not_lt.mp hNumIds, hRead, not_not.mp hMax, not_not.mp hLength, rfl⟩

/-- What is left of the text once the header is read leaves a sound reading. -/
theorem readOps_start {numOps : Int} {cs : List Char} {r : Reading} (hNumOps : 0 ≤ numOps)
    (hRead : readOps junk numOps cs ⟨0, junk.size, 0, []⟩ = .ok r) : r.Inv junk numOps :=
  readOps_inv (r := ⟨0, junk.size, 0, []⟩) ⟨Nat.two_pow_pos 32, rfl, rfl, by simp, hNumOps⟩ hRead

/-- The assertion on `max_index` is one on the highest id of the requests. Without a request
there is none, and the index is zero. -/
theorem highest_of_read (h : readTrace junk text = .ok t) :
    (highest t.ops : Int) = (t.numIds - 1) % 2 ^ 32 := by
  obtain ⟨_, _, _, _, r, -, -, -, -, hNumOps, -, hRead, hMax, -, hSame⟩ := readTrace_ok h
  rw [hSame, ← (readOps_start hNumOps hRead).maxIndex, hMax]

/-- What memory holds where the record is allocated are four `int`s. -/
def Junk.Ints (junk : Junk) : Prop :=
  IsInt junk.record.suggHeapsize ∧ IsInt junk.record.numIds ∧ IsInt junk.record.numOps ∧
    IsInt junk.record.weight

/-- What `read_trace` returns is readable, and has the sizes of `f` from memory. -/
theorem readable_of_read (hJunk : junk.Ints) (h : readTrace junk text = .ok t) :
    t.Readable ∧ stored junk 0 t.ops = t.ops := by
  obtain ⟨hJunkSugg, hJunkIds, hJunkOps, hJunkWeight⟩ := hJunk
  obtain ⟨cs₁, cs₂, cs₃, cs₄, r, hSugg, hIds, hOps, hWeight, hNumOps, hNumIds, hRead, hMax,
    hLength, hSame⟩ := readTrace_ok h
  have hSuggInt := isInt_scanInt hJunkSugg text
  have hIdsInt := isInt_scanInt hJunkIds cs₁
  have hOpsInt := isInt_scanInt hJunkOps cs₂
  have hWeightInt := isInt_scanInt hJunkWeight cs₃
  rw [hSugg] at hSuggInt
  rw [hIds] at hIdsInt
  rw [hOps] at hOpsInt
  rw [hWeight] at hWeightInt
  have hInv : r.Inv junk t.numOps := readOps_start hNumOps hRead
  rw [← hSame] at hLength
  exact ⟨⟨hSuggInt, hWeightInt, hLength, hOpsInt.2, ⟨hNumIds, hIdsInt.2⟩, highest_of_read h,
    hSame ▸ hInv.indices⟩, hSame ▸ hInv.ops⟩

end Read

section Written

variable {junk : Junk} {numOps : Int} {more : List Char} {r : Reading} {op : TraceOp}
  {ops : List TraceOp} {t : Trace}

theorem isSpace_newline : ∀ c ∈ ['\n'], isSpace c = true :=
  List.forall_mem_singleton.mpr rfl

theorem isSpace_blank : ∀ c ∈ [' '], isSpace c = true := List.forall_mem_singleton.mpr rfl

/-- A number of the header. -/
theorem scanInt_signed {gap : List Char} {n : Int} (old : Int)
    (hGap : ∀ c ∈ gap, isSpace c = true) (h : IsInt n) (more : List Char) :
    scanInt old (gap ++ signed n ++ '\n' :: more) = (n, '\n' :: more) := by
  rw [scanInt, scanNumeral_signed hGap n _ (by simp)]
  simp only [toSigned_eq h]

/-- The id and the size of a printed record are read back, and the end of the line is left. -/
theorem scanPair_line (hIndex : op.index < 2 ^ 32) :
    scanPair r (' ' :: (decimal op.index ++ ' ' :: (signed op.size ++ '\n' :: more))) =
      ({ r with index := op.index, size := toUnsigned op.size }, '\n' :: more) := by
  have hFirst := scanNumeral_signed isSpace_blank op.index
    (' ' :: (signed op.size ++ '\n' :: more)) (by simp)
  have hSecond := scanNumeral_signed isSpace_blank op.size ('\n' :: more) (by simp)
  rw [signed_natCast, List.append_assoc, List.singleton_append] at hFirst
  rw [List.append_assoc, List.singleton_append] at hSecond
  rw [scanPair, hFirst]
  simp only [hSecond, toUnsigned_natCast hIndex]

theorem scanIndex_line (hIndex : op.index < 2 ^ 32) :
    scanIndex r (' ' :: (decimal op.index ++ '\n' :: more)) =
      ({ r with index := op.index }, '\n' :: more) := by
  have hScan := scanNumeral_signed isSpace_blank op.index ('\n' :: more) (by simp)
  rw [signed_natCast, List.append_assoc, List.singleton_append] at hScan
  rw [scanIndex, hScan]
  show ({ r with index := toUnsigned op.index }, _) = _
  rw [toUnsigned_natCast hIndex]

/-- The word before the numbers of a line. It ends at the blank behind it. -/
theorem scanWord_line {c : Char} (hWord : isSpace c = false) :
    scanWord ('\n' :: c :: ' ' :: more) = some ([c], ' ' :: more) :=
  scanWord_append (w := [c]) isSpace_newline
    ⟨by simp, by simpa using hWord⟩ (by simp; decide)

/-- A line with a size is read as the request that it was written for. -/
theorem readSized_line (hType : op.type ≠ .free) (hIndex : op.index < 2 ^ 32)
    (hRoom : (r.ops.length : Int) < numOps) :
    ∃ q, readSized op.type numOps
        (' ' :: (decimal op.index ++ ' ' :: (signed op.size ++ '\n' :: more))) r =
          .ok (q, '\n' :: more) ∧
      q.ops = r.ops ++ stored junk r.ops.length [op] ∧
      q.maxIndex = max r.maxIndex op.checkedId := by
  have hSize : toInt (toUnsigned op.size) = op.size := toInt_toUnsigned op.fits
  obtain ⟨type, index, size, fits⟩ := op
  replace hType : type ≠ .free := hType
  rw [readSized, scanPair_line hIndex]
  simp only [hSize]
  rw [storeOp, if_pos hRoom]
  refine ⟨_, rfl, ?_, ?_⟩
  · rw [stored, if_neg hType, stored]
  · rw [TraceOp.checkedId, if_neg hType]
    exact (max_def_lt _ _).symm

/-- A printed record `f` is read as itself, but for the size, which is the one from memory. -/
theorem readFree_line (hType : op.type = .free) (hIndex : op.index < 2 ^ 32)
    (hRoom : (r.ops.length : Int) < numOps) :
    ∃ q, readFree junk numOps (' ' :: (decimal op.index ++ '\n' :: more)) r =
        .ok (q, '\n' :: more) ∧
      q.ops = r.ops ++ stored junk r.ops.length [op] ∧
      q.maxIndex = max r.maxIndex op.checkedId := by
  rw [readFree, scanIndex_line hIndex]
  simp only
  rw [storeOp, if_pos hRoom]
  refine ⟨_, rfl, ?_, ?_⟩
  · rw [stored, if_pos hType, stored]
  · rw [TraceOp.checkedId, if_pos hType, Nat.max_zero]

/-- A printed record of any kind is read, and the loop goes on behind it. The text left is that
of the further lines. -/
theorem readOps_line (hIndex : op.index < 2 ^ 32) (hRoom : (r.ops.length : Int) < numOps) :
    ∃ q, readOps junk numOps ('\n' :: (op.line ++ more)) r = readOps junk numOps ('\n' :: more) q ∧
      q.ops = r.ops ++ stored junk r.ops.length [op] ∧
      q.maxIndex = max r.maxIndex op.checkedId := by
  cases hType : op.type with
  | alloc =>
      obtain ⟨q, hRead, hEnd⟩ := readSized_line (by rw [hType]; decide) hIndex hRoom
      refine ⟨q, ?_, hEnd⟩
      rw [TraceOp.line, hType]
      simp only [List.cons_append, List.append_assoc, List.nil_append]
      rw [readOps_step (scanWord_line (by decide))]
      show (readSized .alloc numOps _ r).bind _ = _
      rw [← hType, hRead]
      rfl
  | realloc =>
      obtain ⟨q, hRead, hEnd⟩ := readSized_line (by rw [hType]; decide) hIndex hRoom
      refine ⟨q, ?_, hEnd⟩
      rw [TraceOp.line, hType]
      simp only [List.cons_append, List.append_assoc, List.nil_append]
      rw [readOps_step (scanWord_line (by decide))]
      show (readSized .realloc numOps _ r).bind _ = _
      rw [← hType, hRead]
      rfl
  | free =>
      obtain ⟨q, hRead, hEnd⟩ := readFree_line hType hIndex hRoom
      refine ⟨q, ?_, hEnd⟩
      rw [TraceOp.line, hType]
      simp only [List.cons_append, List.append_assoc, List.nil_append]
      rw [readOps_step (scanWord_line (by decide))]
      show (readFree junk numOps _ r).bind _ = _
      rw [hRead]
      rfl

/-- All lines. The induction is on the records, and each round leaves the file at the next
line. -/
theorem readOps_lines (hIndices : ∀ op ∈ ops, op.index < 2 ^ 32)
    (hRoom : (r.ops.length : Int) + ops.length ≤ numOps) :
    ∃ q, readOps junk numOps ('\n' :: (ops.flatMap TraceOp.line ++ more)) r =
        readOps junk numOps ('\n' :: more) q ∧
      q.ops = r.ops ++ stored junk r.ops.length ops ∧
      q.maxIndex = max r.maxIndex (highest ops) := by
  induction ops generalizing r with
  | nil => exact ⟨r, rfl, (List.append_nil _).symm, (Nat.max_zero _).symm⟩
  | cons op ops ih =>
      obtain ⟨hIndex, hIndices⟩ := List.forall_mem_cons.mp hIndices
      rw [List.length_cons] at hRoom
      have hFirst : (r.ops.length : Int) < numOps := by omega
      obtain ⟨p, hLine, hOps, hMax⟩ := readOps_line hIndex hFirst
      have hLength : p.ops.length = r.ops.length + 1 := by
        rw [hOps, List.length_append]
        rfl
      obtain ⟨q, hRest, hOps', hMax'⟩ := ih (r := p) hIndices (by omega)
      refine ⟨q, ?_, ?_, ?_⟩
      · rw [List.flatMap_cons, List.append_assoc, hLine, hRest]
      · rw [hOps', hLength, hOps, List.append_assoc]
        rfl
      · rw [hMax', hMax, Nat.max_assoc]
        rfl

/-- The requests of a trace are read from the text after its header. -/
def Reads (junk : Junk) (t : Trace) (text : List Char) : Prop :=
  ∃ q, readOps junk t.numOps ('\n' :: text) ⟨0, junk.size, 0, []⟩ = .ok q ∧
    q.ops = stored junk 0 t.ops ∧ q.maxIndex = highest t.ops

/-- The printed records of a readable trace are read one by one: the array never runs out of
room, as the header has their number. -/
theorem Trace.Readable.reads (h : t.Readable) :
    Reads junk t (t.ops.flatMap TraceOp.line) := by
  have hRoom : ((0 : Nat) : Int) + t.ops.length ≤ t.numOps := by
    rw [h.numOps]
    exact (Int.zero_add _).le
  obtain ⟨q, hRead, hStored, hMax⟩ := readOps_lines (r := ⟨0, junk.size, 0, []⟩) h.indices hRoom
  rw [List.append_nil, readOps_end (scanWord_none isSpace_newline)] at hRead
  exact ⟨q, hRead, hStored, hMax.trans (Nat.zero_max _)⟩

/-- The end of the last line may be missing, after a free. The numeral of the id then ends with
the file. -/
theorem Trace.Readable.reads_unended (h : t.Readable) {first : List TraceOp} {last : TraceOp}
    (hOps : t.ops = first ++ [last]) (hType : last.type = .free) :
    Reads junk t (first.flatMap TraceOp.line ++ 'f' :: ' ' :: decimal last.index) := by
  have hNumOps := h.numOps
  have hIndices := h.indices
  rw [hOps, List.length_append, List.length_singleton] at hNumOps
  rw [hOps, List.forall_mem_append, List.forall_mem_singleton] at hIndices
  obtain ⟨hFirst, hLast⟩ := hIndices
  have hRoom : ((0 : Nat) : Int) + first.length ≤ t.numOps := by omega
  obtain ⟨q, hRead, hStored, hMax⟩ := readOps_lines (r := ⟨0, junk.size, 0, []⟩) hFirst hRoom
  replace hStored : q.ops = stored junk 0 first := hStored
  have hLength : q.ops.length = first.length := by rw [hStored, length_stored]
  have hScan : scanIndex q (' ' :: decimal last.index) =
      ({ q with index := last.index }, []) := by
    have hNumeral := scanNumeral_signed isSpace_blank last.index [] nofun
    rw [signed_natCast, List.append_nil, List.singleton_append] at hNumeral
    rw [scanIndex, hNumeral]
    show ({ q with index := toUnsigned last.index }, _) = _
    rw [toUnsigned_natCast hLast]
  let p : Reading := { q with
    index := last.index
    ops := q.ops ++ [{ junk.ops q.ops.length with type := .free, index := last.index }] }
  have hFree : readFree junk t.numOps (' ' :: decimal last.index) q = .ok (p, []) := by
    rw [readFree, hScan]
    simp only
    rw [storeOp, if_pos (by rw [hNumOps, hLength]; omega)]
    rfl
  refine ⟨p, hRead.trans ?_, ?_, ?_⟩
  · rw [readOps_step (scanWord_line (by decide))]
    show (readFree junk t.numOps _ q).bind _ = _
    rw [hFree]
    exact readOps_end rfl
  · show q.ops ++ _ = _
    rw [hOps, stored_append, hStored, length_stored, stored, if_pos hType, stored, Nat.zero_add]
  · show q.maxIndex = _
    rw [hMax, hOps, highest_append, TraceOp.checkedId, if_pos hType, Nat.max_zero]
    exact Nat.zero_max _

/-- A header and the requests after it are read. -/
theorem readTrace_reads {text : List Char} (h : t.Readable) (hReads : Reads junk t text) :
    readTrace junk (signed t.suggHeapsize ++ '\n' :: (signed t.numIds ++ '\n' ::
      (signed t.numOps ++ '\n' :: (signed t.weight ++ '\n' :: text)))) =
        .ok { t with ops := stored junk 0 t.ops } := by
  obtain ⟨hNumIds, hNumIdsInt⟩ := h.numIds
  have hNumOps : 0 ≤ t.numOps := h.numOps ▸ Int.natCast_nonneg _
  have hNoGap : ∀ c ∈ ([] : List Char), isSpace c = true := nofun
  have hHeader := scanInt_signed junk.record.suggHeapsize hNoGap h.suggHeapsize
    (signed t.numIds ++ '\n' :: (signed t.numOps ++ '\n' :: (signed t.weight ++ '\n' :: text)))
  have hIds := scanInt_signed junk.record.numIds isSpace_newline ⟨by omega, hNumIdsInt⟩
    (signed t.numOps ++ '\n' :: (signed t.weight ++ '\n' :: text))
  have hOps := scanInt_signed junk.record.numOps isSpace_newline ⟨by omega, h.fits⟩
    (signed t.weight ++ '\n' :: text)
  have hWeight := scanInt_signed junk.record.weight isSpace_newline h.weight text
  simp only [List.nil_append, List.cons_append] at hHeader hIds hOps hWeight
  obtain ⟨q, hRead, hStored, hMax⟩ := hReads
  have hLength : (stored junk 0 t.ops).length = t.ops.length := length_stored junk 0 t.ops
  rw [readTrace, hHeader]
  simp only [hIds, hOps, hWeight]
  rw [if_neg (not_lt.mpr hNumOps), if_neg (not_lt.mpr hNumIds), hRead]
  show (if (q.maxIndex : Int) ≠ (t.numIds - 1) % 2 ^ 32 then Except.error ReadError.assertMaxIndex
    else if t.numOps ≠ q.ops.length then .error .assertNumOps
    else .ok (Trace.mk t.suggHeapsize t.numIds t.numOps t.weight q.ops)) = _
  rw [if_neg (not_not.mpr (hMax ▸ h.highest)), hStored, if_neg]
  rw [hLength]
  exact not_not.mpr h.numOps

/-- A readable trace that is written to a file is read back, apart from the sizes of `f`,
which the format does not have. -/
theorem readTrace_print (junk : Junk) (h : t.Readable) : readTrace junk t.print =
    .ok { t with ops := stored junk 0 t.ops } := readTrace_reads h h.reads

end Written

section Format

variable {junk : Junk} {text : List Char} {t : Trace}

/-- However a file is laid out, the trace that is read from it is read again from the file
that it is written to. -/
theorem trace_file_round_trip (hJunk : junk.Ints) (h : readTrace junk text = .ok t) :
    readTrace junk t.print = .ok t := by
  obtain ⟨hReadable, hStored⟩ := readable_of_read hJunk h
  have hRead := readTrace_print junk hReadable
  rwa [hStored] at hRead

/-- The traces that `read_trace` returns from some file are exactly the readable ones, with
the sizes of `f` from memory. -/
theorem trace_file_exact (hJunk : junk.Ints) : (∃ text, readTrace junk text = .ok t) ↔
    t.Readable ∧ stored junk 0 t.ops = t.ops := by
  constructor
  · rintro ⟨text, hRead⟩
    exact readable_of_read hJunk hRead
  · rintro ⟨hReadable, hStored⟩
    have hRead := readTrace_print junk hReadable
    rw [hStored] at hRead
    exact ⟨t.print, hRead⟩

theorem checkedId_le_highest {ops : List TraceOp} {op : TraceOp} (hOp : op ∈ ops) :
    op.checkedId ≤ highest ops := by
  induction ops with
  | nil => cases hOp
  | cons first ops ih =>
      rw [highest]
      rcases List.mem_cons.mp hOp with rfl | hOp
      · exact Nat.le_max_left _ _
      · exact Nat.le_trans (ih hOp) (Nat.le_max_right _ _)

/-- The greatest id is the id of one of the records, so it is below whatever all of them are
below. -/
theorem highest_le {ops : List TraceOp} {m : Nat} (h : ∀ op ∈ ops, op.checkedId ≤ m) :
    highest ops ≤ m := by
  induction ops with
  | nil => exact Nat.zero_le m
  | cons first ops ih =>
      obtain ⟨hFirst, hRest⟩ := List.forall_mem_cons.mp h
      exact Nat.max_le.mpr ⟨hFirst, ih hRest⟩

/-- The ids of `a` and `r` are places in the arrays `blocks` and `block_sizes`, unless these
are empty: with `num_ids` 0 the assertion of `read_trace` compares with `2 ^ 32 - 1`. -/
theorem index_lt_of_read (h : readTrace junk text = .ok t) (hSome : 0 < t.numIds) {op : TraceOp}
    (hOp : op ∈ t.ops) (hType : op.type ≠ .free) : (op.index : Int) < t.numIds := by
  have hLe := checkedId_le_highest hOp
  have hHighest := highest_of_read h
  rw [TraceOp.checkedId, if_neg hType] at hLe
  omega

theorem fits_zero : -2 ^ 31 ≤ (0 : Int) ∧ (0 : Int) < 2 ^ 31 := by decide

/-- Memory that holds zeros. -/
def zeros : Junk := ⟨⟨0, 0, 0, 0, []⟩, fun _ => ⟨.alloc, 0, 0, fits_zero⟩, 0⟩

/-- The trace that the description of the format gives. -/
def readmeTrace : Trace := ⟨20000, 3, 8, 1,
  [⟨.alloc, 0, 512, by decide⟩, ⟨.alloc, 1, 128, by decide⟩, ⟨.realloc, 0, 640, by decide⟩,
    ⟨.alloc, 2, 128, by decide⟩, ⟨.free, 1, 0, fits_zero⟩, ⟨.realloc, 0, 768, by decide⟩,
    ⟨.free, 0, 0, fits_zero⟩, ⟨.free, 2, 0, fits_zero⟩]⟩

example : readmeTrace.print =
    "20000\n3\n8\n1\na 0 512\na 1 128\nr 0 640\na 2 128\nf 1\nr 0 768\nf 0\nf 2\n".toList := by
  decide +kernel

theorem readable_readme : readmeTrace.Readable :=
  ⟨by decide, by decide, rfl, by decide, by decide, by decide, by decide⟩

theorem ints_zeros : zeros.Ints := ⟨by decide, by decide, by decide, by decide⟩

/-- The same trace on few lines, with a sign, a letter after an id and a size modulo 2^32. -/
theorem trace_file_round_trip_readme : readTrace zeros readmeTrace.print = .ok readmeTrace := by
  have hRead : readTrace zeros "20000 +3 8 1 a 0 512 allocate 1 128 r 0\t640
      a 2 4294967424 f 1d r 0 768 free 0 f 2 ".toList = .ok readmeTrace := by decide +kernel
  exact trace_file_round_trip ints_zeros hRead

theorem trace_file_exact_readme : ∃ text, readTrace zeros text = .ok readmeTrace :=
  (trace_file_exact ints_zeros).mpr ⟨readable_readme, by decide⟩

end Format

end Mdriver
