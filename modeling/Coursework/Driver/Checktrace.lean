import Coursework.Driver.Acceptance
import Coursework.Driver.TraceFile
import Mathlib.Data.Char
import Mathlib.Data.List.AList
import Mathlib.Data.List.Lex
import Mathlib.Data.List.Sort

/-! `checktrace.pl`, which checks a trace file and balances it: it accepts the traces that
keep to the ids they hold, and frees at their end what they leave behind. -/

namespace Checktrace

open Text

/-- `%HASH`, from an id to the command that it was last requested with. -/
abbrev Hash : Type := AList fun _ : List Char => List Char

/-- `$HASH{$id}` as a string. A missing entry reads as an empty one. -/
def valueAt (hash : Hash) (id : List Char) : List Char := (hash.lookup id).getD []

/-- The truth of a string. -/
def isTrue (s : List Char) : Bool := s ≠ [] ∧ s ≠ ['0']

/-- `!` -/
def negation (s : List Char) : List Char := if isTrue s then [] else ['1']

/-- A string as a whole number: the numeral that it starts with. There is none where `+`
would read a fraction, an exponent or no digit at all; such a string it takes as a double,
which is not modelled. Whole numbers it keeps exactly, as long as they fit 64 bits. -/
def numify (s : List Char) : Option Int :=
  match scanNumeral s with
  | (some n, rest) => if rest.head? ∈ [some '.', some 'e', some 'E'] then none else some n
  | (none, _) => none

/-- What the script dies of. -/
inductive Fault where
  /-- "realloc without previous alloc\n" -/
  | reallocWithoutAlloc
  /-- "allocate with no intervening free.\n" -/
  | noInterveningFree
  /-- "reused ID $id.\n" -/
  | reusedId (id : List Char)
  /-- "freeing unallocated block.\n" -/
  | freeingUnallocated
  /-- "freeing already freed block.\n" -/
  | freeingFreed
deriving DecidableEq, Repr

inductive Death where
  /-- "$0: ERROR[$linenum]: ", with the fault -/
  | line (linenum : Nat) (fault : Fault)
  /-- "$0: ERROR: Invalid free request in residue.\n" -/
  | invalidResidue
  /-- Not an end of the script: the model ends here where the count of operations is not a
  whole number, as it does not say what `+` makes of it. -/
  | countNotWhole
deriving DecidableEq, Repr

/-- The checks of a request, and what it makes of the hash. -/
def check (cmd id : List Char) (hash : Hash) : Except Fault Hash :=
  if cmd = ['r'] then
    if isTrue (valueAt hash id) then .ok hash else .error .reallocWithoutAlloc
  else if cmd = ['a'] ∧ valueAt hash id = ['a'] then .error .noInterveningFree
  else if cmd = ['a'] ∧ valueAt hash id = ['f'] then .error (.reusedId id)
  else if cmd = ['f'] ∧ id ∉ hash then .error .freeingUnallocated
  -- `!` binds tighter than `eq`.
  else if cmd = ['f'] ∧ negation (valueAt hash id) = ['f'] then .error .freeingFreed
  else if cmd = ['f'] then .ok (hash.erase id)
  else .ok (hash.insert id cmd)

/-- The variables of the loop over the lines. -/
structure Scan where
  linenum : Nat
  lines : List (List Char)
  hash : Hash

/-- The command of a line. -/
def cmdOf (line : List Char) : List Char := (words line).getD 0 []

def idOf (line : List Char) : List Char := (words line).getD 1 []

def scanLine (s : Scan) (line : List Char) : Except Death Scan :=
  if isTrue (cmdOf line) then
    match check (cmdOf line) (idOf line) s.hash with
    | .ok hash => .ok ⟨s.linenum + 1, s.lines ++ [line], hash⟩
    | .error fault => .error (.line (s.linenum + 1) fault)
  else .ok { s with linenum := s.linenum + 1 }

def scanLines (s : Scan) (input : List (List Char)) : Except Death Scan := input.foldlM scanLine s

/-- What is on the standard output when the script ends, and what it died of. -/
structure Outcome where
  out : List Char
  died : Option Death
deriving DecidableEq, Repr

def freeLine (key : List Char) : List Char := 'f' :: ' ' :: key

/-- The loop over the sorted keys. -/
def printResidue (hash : Hash) : List (List Char) → Outcome
  | [] => ⟨[], none⟩
  | key :: keys =>
      if valueAt hash key ≠ ['a'] ∧ valueAt hash key ≠ ['r'] then ⟨[], some .invalidResidue⟩
      else ⟨unlines [freeLine key] ++ (printResidue hash keys).out, (printResidue hash keys).died⟩

/-- `sort keys %HASH` -/
def sortedKeys (hash : Hash) : List (List Char) := hash.keys.insertionSort (· ≤ ·)

/-- The script, with or without `-s`. -/
def checktrace (summary : Bool) (stdin : List Char) : Outcome :=
  let input : List (List Char) := lines stdin
  let heapSize := input.getD 0 []
  let numBlocks := input.getD 1 []
  let oldNumOps := input.getD 2 []
  let weight := input.getD 3 []
  match scanLines ⟨4, [], ∅⟩ (input.drop 4) with
  | .error e => ⟨[], some e⟩
  | .ok s =>
      if summary then
        ⟨if s.hash.keys = [] then "Balanced trace.\n".toList else "Unbalanced tree.\n".toList, none⟩
      else
        match numify oldNumOps with
        | none => ⟨[], some .countNotWhole⟩
        | some oldNumOps =>
            let newOps := s.hash.keys.length
            let newNumOps := oldNumOps + newOps
            let residue := printResidue s.hash (sortedKeys s.hash)
            ⟨unlines ([heapSize, numBlocks, signed newNumOps, weight] ++ s.lines) ++ residue.out,
              residue.died⟩

section Balanced

variable {s s' : Scan} {hash hash' : Hash} {line key cmd id : List Char}
  {input keys : List (List Char)} {n : Nat} {ls : List (List Char)}

/-- An id is a word, or nothing where a line has none. -/
def IsId (id : List Char) : Prop := id = [] ∨ IsWord id

/-- What `split` gives as the id of a line is a word, unless the line ends before. Then it is
the empty text. -/
theorem isId_idOf (line : List Char) : IsId (idOf line) := by
  unfold idOf
  rw [List.getD_eq_getElem?_getD]
  cases hWord : (words line)[1]? with
  | none => exact Or.inl rfl
  | some w => exact Or.inr (isWord_words line w (List.mem_of_getElem? hWord))

theorem keys_erase (hash : Hash) (id : List Char) : (hash.erase id).keys = hash.keys.erase id := by
  rw [AList.keys_erase, lawful_beq_subsingleton instBEqOfDecidableEq List.instBEq]

/-- A line that passes leaves its request, which needs the hash alone, or nothing. -/
theorem scanLine_ok (h : scanLine s line = .ok s') :
    (s'.lines = s.lines ∧ s'.hash = s.hash) ∨
      (isTrue (cmdOf line) = true ∧ check (cmdOf line) (idOf line) s.hash = .ok s'.hash ∧
        s'.lines = s.lines ++ [line]) := by
  unfold scanLine at h
  split at h
  · next hTrue =>
      cases hCheck : check (cmdOf line) (idOf line) s.hash with
      | error fault =>
          rw [hCheck] at h
          cases h
      | ok hash =>
          rw [hCheck] at h
          obtain rfl := Except.ok.inj h
          exact Or.inr ⟨hTrue, rfl, rfl⟩
  · obtain rfl := Except.ok.inj h
    exact Or.inl ⟨rfl, rfl⟩

/-- A line whose request passes is kept, and the hash changes as the check says. The line goes
out as it came in. -/
theorem scanLine_of_check (hTrue : isTrue (cmdOf line) = true)
    (hCheck : check (cmdOf line) (idOf line) hash = .ok hash') :
    scanLine ⟨n, ls, hash⟩ line = .ok ⟨n + 1, ls ++ [line], hash'⟩ := by
  rw [scanLine, if_pos hTrue]
  simp only [hCheck]

/-- The lines in two parts: the second begins with what the first has left. An error in the
first part is the error of both. -/
theorem scanLines_append (s : Scan) (input more : List (List Char)) :
    scanLines s (input ++ more) = scanLines s input >>= fun s' => scanLines s' more :=
  List.foldlM_append

theorem scanLines_cons_ok (h : scanLine s line = .ok s') :
    scanLines s (line :: input) = scanLines s' input := by
  rw [scanLines, List.foldlM_cons, h]
  rfl

/-- What a hash can become: it loses an id, or gets one. -/
theorem check_ok (h : check cmd id hash = .ok hash') :
    hash' = hash ∨ hash' = hash.erase id ∨ hash' = hash.insert id cmd := by
  unfold check at h
  split at h
  · split at h
    · exact Or.inl (Except.ok.inj h).symm
    · cases h
  · repeat' split at h
    all_goals cases h
    · exact Or.inr (Or.inl rfl)
    · exact Or.inr (Or.inr rfl)

/-- The requests that were kept lead to the same hash again. -/
structure Scan.Inv (s : Scan) : Prop where
  replay : ∀ n, ∃ m, scanLines ⟨n, [], ∅⟩ s.lines = .ok ⟨m, s.lines, s.hash⟩
  ids : ∀ id ∈ s.hash, IsId id
  lines : ∀ line ∈ s.lines, '\n' ∉ line

/-- Step lemma: a line that passes can be replayed after those before it. It does not matter at
which number the lines are counted from. -/
theorem Scan.Inv.step (h : s.Inv) (hLine : '\n' ∉ line) (hScan : scanLine s line = .ok s') :
    s'.Inv := by
  rcases scanLine_ok hScan with ⟨hLines, hHash⟩ | ⟨hTrue, hCheck, hLines⟩
  · exact ⟨by rw [hLines, hHash]; exact h.replay, hHash ▸ h.ids, hLines ▸ h.lines⟩
  · refine ⟨fun n => ?_, fun id hId => ?_, ?_⟩
    · obtain ⟨m, hReplay⟩ := h.replay n
      refine ⟨m + 1, ?_⟩
      rw [hLines, scanLines_append, hReplay]
      exact scanLines_cons_ok (scanLine_of_check hTrue hCheck)
    · rcases check_ok hCheck with hEq | hEq | hEq
      · exact h.ids id (hEq ▸ hId)
      · rw [hEq, AList.mem_erase] at hId
        exact h.ids id hId.2
      · rw [hEq, AList.mem_insert] at hId
        rcases hId with rfl | hId
        · exact isId_idOf line
        · exact h.ids id hId
    · rw [hLines]
      exact List.forall_mem_append.mpr ⟨h.lines, List.forall_mem_singleton.mpr hLine⟩

/-- Run lemma, by induction on the lines of the file. The step is that of one line. -/
theorem Scan.Inv.run (h : s.Inv) (hInput : ∀ line ∈ input, '\n' ∉ line)
    (hScan : scanLines s input = .ok s') : s'.Inv := by
  induction input generalizing s with
  | nil => exact Except.ok.inj hScan ▸ h
  | cons line input ih =>
      obtain ⟨hLine, hRest⟩ := List.forall_mem_cons.mp hInput
      cases hFirst : scanLine s line with
      | error e =>
          rw [scanLines, List.foldlM_cons, hFirst] at hScan
          cases hScan
      | ok q =>
          rw [scanLines_cons_ok hFirst] at hScan
          exact ih (h.step hLine hFirst) hRest hScan

theorem inv_start (n : Nat) : Scan.Inv ⟨n, [], ∅⟩ where
  replay n := ⟨n, rfl⟩
  ids id hId := absurd hId (AList.notMem_empty id)
  lines := nofun

theorem words_freeLine (key : List Char) : words (freeLine key) = ['f'] :: words key :=
  words_append (w := ['f']) ⟨List.cons_ne_nil _ _, List.forall_mem_singleton.mpr rfl⟩ rfl

theorem cmdOf_freeLine (key : List Char) : cmdOf (freeLine key) = ['f'] := by
  rw [cmdOf, words_freeLine]
  rfl

/-- The id of a line that the script adds is the key again, also for the key of a line without
an id. -/
theorem idOf_freeLine (hKey : IsId key) : idOf (freeLine key) = key := by
  rw [idOf, words_freeLine]
  rcases hKey with rfl | hWord
  · rfl
  · rw [words_single hWord]
    rfl

/-- The test with `!` never succeeds: it compares a truth value with `f`. The branch behind it
is dead. -/
theorem negation_ne_f (s : List Char) : negation s ≠ ['f'] := by
  unfold negation
  split <;> decide

/-- `f` takes an id that is there out of the hash. -/
theorem check_free (hId : id ∈ hash) : check ['f'] id hash = .ok (hash.erase id) := by
  rw [check, if_neg (by decide), if_neg (by simp), if_neg (by simp), if_neg (by simp [hId]),
    if_neg (by simp [negation_ne_f]), if_pos rfl]

theorem perm_sortedKeys (hash : Hash) : (sortedKeys hash).Perm hash.keys :=
  List.perm_insertionSort _ _

/-- A number that the script has printed it reads back. The printed numerals have no point and
no exponent. -/
theorem numify_signed (n : Int) : numify (signed n) = some n := by
  have hNoGap : ∀ c ∈ ([] : List Char), isSpace c = true := nofun
  have hScan := scanNumeral_signed hNoGap n [] nofun
  rw [List.nil_append, List.append_nil] at hScan
  simp [numify, hScan]

end Balanced

end Checktrace

namespace Mdriver

open Text

/-- A request that keeps to the ids that are held: `a` takes a new one, `r` and `f` name
one of them. -/
def TraceOp.KeepsTo (held : List Nat) (op : TraceOp) : Prop := op.type = .alloc ↔ op.index ∉ held

theorem TraceOp.KeepsTo.held {held : List Nat} {op : TraceOp} (h : op.KeepsTo held)
    (hType : op.type ≠ .alloc) : op.index ∈ held := by
  by_contra hNot
  exact hType (Iff.mpr h hNot)

/-- The ids that are held after it. -/
def TraceOp.nowHeld (held : List Nat) (op : TraceOp) : List Nat :=
  match op.type with
  | .alloc => op.index :: held
  | .realloc => held
  | .free => held.erase op.index

/-- The ids that a trace leaves behind, the newest first. -/
def leftBy (held : List Nat) (ops : List TraceOp) : List Nat := ops.foldl TraceOp.nowHeld held

/-- Each request keeps to the ids that are held. -/
def Consistent (held : List Nat) : List TraceOp → Prop
  | [] => True
  | op :: ops => op.KeepsTo held ∧ Consistent (op.nowHeld held) ops

instance (held : List Nat) (op : TraceOp) : Decidable (op.KeepsTo held) :=
  inferInstanceAs (Decidable (_ ↔ _))

instance decidableConsistent : (held : List Nat) → (ops : List TraceOp) →
    Decidable (Consistent held ops)
  | _, [] => inferInstanceAs (Decidable True)
  | held, op :: ops =>
      have := decidableConsistent (op.nowHeld held) ops
      inferInstanceAs (Decidable (_ ∧ _))

example : Consistent [] readmeTrace.ops := by decide

def freeOp (i : Nat) : TraceOp := ⟨.free, i, 0, fits_zero⟩

/-- The ids that a trace leaves behind, in the order of their numerals as strings. -/
def Trace.residue (t : Trace) : List Nat :=
  (leftBy [] t.ops).insertionSort fun i j => decimal i ≤ decimal j

/-- The trace with a free for each id that it leaves behind. -/
def Trace.balanced (t : Trace) : Trace :=
  { t with numOps := t.numOps + t.residue.length, ops := t.ops ++ t.residue.map freeOp }

end Mdriver

namespace Checktrace

open Text Mdriver

section Printed

variable {hash : Hash} {held : List Nat} {op : TraceOp} {ops : List TraceOp} {t : Trace}

/-- A line of a trace file without its end. -/
def opLine (op : TraceOp) : List Char :=
  match op.type with
  | .alloc => 'a' :: ' ' :: (decimal op.index ++ ' ' :: signed op.size)
  | .realloc => 'r' :: ' ' :: (decimal op.index ++ ' ' :: signed op.size)
  | .free => freeLine (decimal op.index)

def cmd : OpType → List Char
  | .alloc => ['a']
  | .realloc => ['r']
  | .free => ['f']

/-- The hash holds the ids, each under `a`. -/
structure Holds (hash : Hash) (held : List Nat) : Prop where
  keys : hash.keys = held.map decimal
  values : ∀ id ∈ hash, hash.lookup id = some ['a']

/-- The error for a request that does not keep to the ids. -/
def faultOf : OpType → Fault
  | .alloc => .noInterveningFree
  | .realloc => .reallocWithoutAlloc
  | .free => .freeingUnallocated

theorem line_eq (op : TraceOp) : op.line = opLine op ++ ['\n'] := by
  unfold TraceOp.line opLine
  cases op.type <;> simp [freeLine]

/-- A printed trace is its header and its requests, a line for each. -/
theorem print_eq (t : Trace) : t.print = unlines ([signed t.suggHeapsize, signed t.numIds,
    signed t.numOps, signed t.weight] ++ t.ops.map opLine) := by
  have hOps : t.ops.flatMap TraceOp.line = unlines (t.ops.map opLine) := by
    rw [unlines, List.flatMap_map]
    exact congrArg (List.flatMap · t.ops) (funext line_eq)
  rw [Trace.print, hOps]
  simp only [List.cons_append, List.nil_append, unlines_cons]

theorem words_sized {c : Char} (hWord : isSpace c = false) (i : Nat) (v : Int) :
    words (c :: ' ' :: (decimal i ++ ' ' :: signed v)) = [[c], decimal i, signed v] := by
  rw [← List.singleton_append, words_append ⟨List.cons_ne_nil _ _, by simpa using hWord⟩
    (by decide), words_append (isWord_decimal i) (by decide), words_single (isWord_signed v)]

/-- The script reads the command and the id of a printed request as they are. -/
theorem words_opLine (op : TraceOp) :
    cmdOf (opLine op) = cmd op.type ∧ idOf (opLine op) = decimal op.index := by
  unfold opLine
  cases op.type with
  | alloc =>
      rw [cmdOf, idOf, words_sized (by decide)]
      exact ⟨rfl, rfl⟩
  | realloc =>
      rw [cmdOf, idOf, words_sized (by decide)]
      exact ⟨rfl, rfl⟩
  | free => exact ⟨cmdOf_freeLine _, idOf_freeLine (Or.inr (isWord_decimal _))⟩

theorem isTrue_cmd (type : OpType) : isTrue (cmd type) = true := by
  cases type <;> decide

theorem newline_notMem_opLine (op : TraceOp) : '\n' ∉ opLine op := by
  have hId := newline_notMem (isWord_decimal op.index)
  have hSize := newline_notMem (isWord_signed op.size)
  unfold opLine
  cases op.type <;> simp [freeLine, hId, hSize]

/-- An id has an entry when it is held, since different ids have different numerals. -/
theorem Holds.mem_iff (h : Holds hash held) (i : Nat) : decimal i ∈ hash ↔ i ∈ held := by
  rw [AList.mem_keys, h.keys, List.mem_map_of_injective decimal_injective]

/-- The entry of a held id is `a`: an `r` does not change it, and an `f` deletes it. -/
theorem Holds.value (h : Holds hash held) (i : Nat) :
    valueAt hash (decimal i) = if i ∈ held then ['a'] else [] := by
  unfold valueAt
  split
  · next hIn =>
      rw [h.values _ ((h.mem_iff i).mpr hIn)]
      rfl
  · next hNot =>
      rw [AList.lookup_eq_none.mpr fun hIn => hNot ((h.mem_iff i).mp hIn)]
      rfl

/-- A request that keeps to the ids passes. -/
theorem Holds.check_ok (h : Holds hash held) (hOp : op.KeepsTo held) :
    ∃ hash', check (cmd op.type) (decimal op.index) hash = .ok hash' ∧
      Holds hash' (op.nowHeld held) := by
  have hValue := h.value op.index
  unfold TraceOp.nowHeld
  cases hType : op.type with
  | alloc =>
      have hNot : op.index ∉ held := hOp.mp hType
      rw [if_neg hNot] at hValue
      refine ⟨hash.insert (decimal op.index) ['a'], ?_, ?_, fun id hId => ?_⟩
      · rw [cmd, check, hValue]
        simp
      · rw [AList.insert_of_notMem fun hIn => hNot ((h.mem_iff _).mp hIn)]
        exact congrArg (decimal op.index :: ·) h.keys
      · by_cases hEq : id = decimal op.index
        · rw [hEq, AList.lookup_insert]
        · rw [AList.lookup_insert_ne hEq]
          exact h.values id ((AList.mem_insert _).mp hId |>.resolve_left hEq)
  | realloc =>
      have hIn : op.index ∈ held := hOp.held (by simp [hType])
      rw [if_pos hIn] at hValue
      refine ⟨hash, ?_, h⟩
      rw [cmd, check, hValue]
      rfl
  | free =>
      have hIn : op.index ∈ held := hOp.held (by simp [hType])
      refine ⟨_, check_free ((h.mem_iff _).mpr hIn), ?_, fun id hId => ?_⟩
      · rw [keys_erase, h.keys]
        exact (List.map_erase decimal_injective held).symm
      · obtain ⟨hNe, hId⟩ := AList.mem_erase.mp hId
        rw [AList.lookup_erase_ne hNe]
        exact h.values id hId

/-- Any other stops the script. The fault is the one for the command of the request. -/
theorem Holds.check_error (h : Holds hash held) (hOp : ¬ op.KeepsTo held) :
    check (cmd op.type) (decimal op.index) hash = .error (faultOf op.type) := by
  have hValue := h.value op.index
  have hMem := h.mem_iff op.index
  unfold TraceOp.KeepsTo at hOp
  cases hType : op.type with
  | alloc =>
      have hIn : op.index ∈ held := by simpa [hType] using hOp
      rw [if_pos hIn] at hValue
      rw [cmd, check, hValue]
      rfl
  | realloc =>
      have hNot : op.index ∉ held := by simpa [hType] using hOp
      rw [if_neg hNot] at hValue
      rw [cmd, check, hValue]
      rfl
  | free =>
      have hNot : op.index ∉ held := by simpa [hType] using hOp
      rw [cmd, check]
      simp [hMem, hNot]
      rfl

/-- Consistent requests pass. What the hash holds after them are the ids that they leave. -/
theorem Holds.scanLines_ok (h : Holds hash held) (n : Nat) (ls : List (List Char))
    (hOps : Consistent held ops) :
    ∃ hash', scanLines ⟨n, ls, hash⟩ (ops.map opLine) =
        .ok ⟨n + ops.length, ls ++ ops.map opLine, hash'⟩ ∧ Holds hash' (leftBy held ops) := by
  induction ops generalizing n ls hash held with
  | nil => exact ⟨hash, by simp [scanLines]; rfl, h⟩
  | cons op ops ih =>
      obtain ⟨hOp, hRest⟩ := hOps
      obtain ⟨hash', hCheck, hHolds⟩ := h.check_ok hOp
      obtain ⟨hCmd, hId⟩ := words_opLine op
      obtain ⟨hash'', hScan, hEnd⟩ := ih hHolds (n + 1) (ls ++ [opLine op]) hRest
      refine ⟨hash'', ?_, hEnd⟩
      rw [List.map_cons, scanLines_cons_ok (scanLine_of_check (by rw [hCmd, isTrue_cmd])
        (by rw [hCmd, hId]; exact hCheck)), hScan, List.append_assoc]
      simp [Nat.add_comm, Nat.add_left_comm]

theorem holds_start : Holds ∅ [] := ⟨rfl, fun id hId => absurd hId (AList.notMem_empty id)⟩

/-- The lines of a printed trace. -/
theorem lines_print (t : Trace) : lines t.print =
    [signed t.suggHeapsize, signed t.numIds, signed t.numOps, signed t.weight] ++
      t.ops.map opLine := by
  rw [print_eq]
  refine lines_unlines (List.forall_mem_append.mpr ⟨?_, fun line hLine => ?_⟩)
  · simp only [List.forall_mem_cons]
    exact ⟨newline_notMem (isWord_signed _), newline_notMem (isWord_signed _),
      newline_notMem (isWord_signed _), newline_notMem (isWord_signed _), nofun⟩
  · obtain ⟨op, -, rfl⟩ := List.mem_map.mp hLine
    exact newline_notMem_opLine op

/-- The loop over the keys finds an `a` at each, so it does not die and writes a free for
each. -/
theorem printResidue_holds (h : Holds hash held) {keys : List (List Char)}
    (hKeys : ∀ key ∈ keys, key ∈ hash) :
    printResidue hash keys = ⟨unlines (keys.map freeLine), none⟩ := by
  induction keys with
  | nil => rfl
  | cons key keys ih =>
      obtain ⟨hKey, hRest⟩ := List.forall_mem_cons.mp hKeys
      have hValue : valueAt hash key = ['a'] := by
        rw [valueAt, h.values key hKey]
        rfl
      rw [printResidue, if_neg (by simp [hValue]), ih hRest]
      exact congrArg (Outcome.mk · none) (unlines_append [_] _).symm

/-- The ids that are left behind are freed in the order of the keys. -/
theorem Holds.sortedKeys_eq (h : Holds hash (leftBy [] t.ops)) :
    sortedKeys hash = t.residue.map decimal := by
  rw [sortedKeys, h.keys, Trace.residue]
  exact (List.map_insertionSort (fun i j => decimal i ≤ decimal j) (· ≤ ·) decimal _
    fun _ _ _ _ => Iff.rfl).symm

/-- What the script does with a consistent trace. It writes the requests again, and a free for
each id that they leave. -/
theorem checktrace_consistent (h : Consistent [] t.ops) :
    checktrace false t.print = ⟨t.balanced.print, none⟩ ∧
      checktrace true t.print = ⟨if t.residue = [] then "Balanced trace.\n".toList
        else "Unbalanced tree.\n".toList, none⟩ := by
  obtain ⟨hash, hScan, hHolds⟩ := holds_start.scanLines_ok 4 [] h
  have hKeys := hHolds.sortedKeys_eq
  have hResidue := printResidue_holds hHolds fun key hKey =>
    AList.mem_keys.mpr ((perm_sortedKeys hash).subset hKey)
  have hCount : hash.keys.length = t.residue.length := by
    rw [← (perm_sortedKeys hash).length_eq, hKeys, List.length_map]
  have hFrees : (t.residue.map decimal).map freeLine = (t.residue.map freeOp).map opLine := by
    rw [List.map_map, List.map_map]
    rfl
  have hNone : hash.keys = [] ↔ t.residue = [] := by
    rw [← List.length_eq_zero_iff, hCount, List.length_eq_zero_iff]
  constructor
  · rw [checktrace, lines_print]
    have hNumOps : numify ((signed t.suggHeapsize :: signed t.numIds :: signed t.numOps ::
        signed t.weight :: t.ops.map opLine).getD 2 []) = some t.numOps := numify_signed t.numOps
    simp only [List.cons_append, List.nil_append, List.drop_succ_cons, List.drop_zero, hScan,
      hNumOps]
    show Outcome.mk (unlines ([signed t.suggHeapsize, signed t.numIds,
      signed (t.numOps + hash.keys.length), signed t.weight] ++
        t.ops.map opLine) ++ (printResidue hash (sortedKeys hash)).out)
          (printResidue hash (sortedKeys hash)).died = _
    rw [hResidue, hKeys, hFrees, hCount, print_eq, ← unlines_append,
      List.append_assoc, ← List.map_append]
    rfl
  · rw [checktrace, lines_print]
    simp only [List.cons_append, List.nil_append, List.drop_succ_cons, List.drop_zero, hScan,
      hNone, if_true]

/-- The requests of a trace are consistent, or there is a first one that is not. Those before
it are consistent. -/
theorem consistent_or_first (held : List Nat) (ops : List TraceOp) :
    Consistent held ops ∨ ∃ before op after, ops = before ++ op :: after ∧
      Consistent held before ∧ ¬ op.KeepsTo (leftBy held before) := by
  induction ops generalizing held with
  | nil => exact Or.inl trivial
  | cons first ops ih =>
      by_cases hFirst : first.KeepsTo held
      · rcases ih (first.nowHeld held) with hRest | ⟨before, op, after, rfl, hBefore, hOp⟩
        · exact Or.inl ⟨hFirst, hRest⟩
        · exact Or.inr ⟨first :: before, op, after, rfl, ⟨hFirst, hBefore⟩, hOp⟩
      · exact Or.inr ⟨[], first, ops, rfl, trivial, hFirst⟩

/-- At the first request that does not keep to the ids, the script dies. -/
theorem checktrace_inconsistent {before after : List TraceOp} {summary : Bool}
    (hOps : t.ops = before ++ op :: after) (hBefore : Consistent [] before)
    (hOp : ¬op.KeepsTo (leftBy [] before)) : checktrace summary t.print =
      ⟨[], some (.line (5 + before.length) (faultOf op.type))⟩ := by
  obtain ⟨hash, hScan, hHolds⟩ := holds_start.scanLines_ok 4 [] hBefore
  obtain ⟨hCmd, hId⟩ := words_opLine op
  have hStop : scanLine ⟨4 + before.length, [] ++ before.map opLine, hash⟩ (opLine op) =
      .error (.line (4 + before.length + 1) (faultOf op.type)) := by
    rw [scanLine, hCmd, if_pos (isTrue_cmd _), hId]
    simp only [hHolds.check_error hOp]
  have hAll : scanLines ⟨4, [], ∅⟩ (t.ops.map opLine) =
      .error (.line (4 + before.length + 1) (faultOf op.type)) := by
    rw [hOps, List.map_append, scanLines_append, hScan, List.map_cons]
    show scanLines ⟨4 + before.length, [] ++ before.map opLine, hash⟩ _ = _
    rw [scanLines, List.foldlM_cons, hStop]
    rfl
  rw [checktrace, lines_print]
  simp only [List.cons_append, List.nil_append, List.drop_succ_cons, List.drop_zero, hAll]
  rw [Nat.add_right_comm]

/-- The script balances a trace when its requests keep to the ids that are held, with a
free for each id that is left in the end. Else it writes nothing and dies at the line of
the first request that does not. -/
theorem checktrace_exact (t : Trace) :
    (Consistent [] t.ops ∧ checktrace false t.print = ⟨t.balanced.print, none⟩ ∧
      checktrace true t.print = ⟨if t.residue = [] then "Balanced trace.\n".toList
        else "Unbalanced tree.\n".toList, none⟩) ∨
    ∃ before op after, t.ops = before ++ op :: after ∧ Consistent [] before ∧
      ¬op.KeepsTo (leftBy [] before) ∧ ∀ summary, checktrace summary t.print =
        ⟨[], some (.line (5 + before.length) (faultOf op.type))⟩ := by
  rcases consistent_or_first [] t.ops with hOps | ⟨before, op, after, hOps, hBefore, hOp⟩
  · exact Or.inl ⟨hOps, checktrace_consistent hOps⟩
  · exact Or.inr ⟨before, op, after, hOps, hBefore, hOp, fun _ =>
      checktrace_inconsistent hOps hBefore hOp⟩

end Printed

end Checktrace

namespace Mdriver

section Discipline

variable {held keys : List Nat} {op : TraceOp} {ops ops' : List TraceOp} {t : Trace} {i : Nat}

/-- What two parts leave, the second leaves of what the first has left. -/
theorem leftBy_append (held : List Nat) (ops ops' : List TraceOp) :
    leftBy held (ops ++ ops') = leftBy (leftBy held ops) ops' := List.foldl_append

/-- Two parts are consistent when the second is with what the first has left. -/
theorem consistent_append : Consistent held (ops ++ ops') ↔
    Consistent held ops ∧ Consistent (leftBy held ops) ops' := by
  induction ops generalizing held with
  | nil => exact (iff_of_eq (true_and _)).symm
  | cons op ops ih => exact (and_congr_right fun _ => ih).trans and_assoc.symm

theorem TraceOp.KeepsTo.nodup (h : op.KeepsTo held) (hHeld : held.Nodup) :
    (op.nowHeld held).Nodup := by
  unfold TraceOp.nowHeld
  cases hType : op.type with
  | alloc => exact List.nodup_cons.mpr ⟨Iff.mp h hType, hHeld⟩
  | realloc => exact hHeld
  | free => exact hHeld.erase _

/-- Ids that are held may be freed in any order. Each of them must come once. -/
theorem consistent_frees {rest : List Nat} (h : held.Perm (keys ++ rest)) :
    Consistent held (keys.map freeOp) ∧ (leftBy held (keys.map freeOp)).Perm rest := by
  induction keys generalizing held with
  | nil => exact ⟨trivial, h⟩
  | cons key keys ih =>
      have hIn : key ∈ held := h.symm.subset List.mem_cons_self
      obtain ⟨hRest, hLeft⟩ := ih (List.cons_perm_iff_perm_erase.mp h.symm).2.symm
      exact ⟨⟨⟨nofun, fun hNot => absurd hIn hNot⟩, hRest⟩, hLeft⟩

/-- New ids may be taken. -/
theorem consistent_allocs (hType : ∀ op ∈ ops, op.type = .alloc)
    (hNew : (ops.map TraceOp.index ++ held).Nodup) :
    Consistent held ops ∧ (leftBy held ops).Perm (ops.map TraceOp.index ++ held) := by
  induction ops generalizing held with
  | nil => exact ⟨trivial, List.Perm.refl _⟩
  | cons op ops ih =>
      obtain ⟨hOp, hTypes⟩ := List.forall_mem_cons.mp hType
      obtain ⟨hNot, -⟩ := List.nodup_cons.mp hNew
      have hHeld : op.nowHeld held = op.index :: held := by rw [TraceOp.nowHeld, hOp]
      have hMiddle : ((op :: ops).map TraceOp.index ++ held).Perm
          (ops.map TraceOp.index ++ op.index :: held) := List.perm_middle.symm
      obtain ⟨hRest, hLeft⟩ := ih hTypes (hMiddle.nodup_iff.mp hNew)
      refine ⟨⟨iff_of_true hOp fun hIn => hNot (List.mem_append_right _ hIn), ?_⟩, ?_⟩
      · rw [hHeld]
        exact hRest
      · rw [leftBy, List.foldl_cons, hHeld]
        exact hLeft.trans hMiddle.symm

/-- Rounds that each leave what they find. They may be repeated in any number. -/
theorem consistent_rounds {rounds : List (List TraceOp)}
    (h : ∀ round ∈ rounds, Consistent held round ∧ leftBy held round = held) :
    Consistent held rounds.flatten ∧ leftBy held rounds.flatten = held := by
  induction rounds with
  | nil => exact ⟨trivial, rfl⟩
  | cons round rounds ih =>
      obtain ⟨⟨hRound, hLeft⟩, hRest⟩ := List.forall_mem_cons.mp h
      obtain ⟨hRounds, hEnd⟩ := ih hRest
      rw [List.flatten_cons, consistent_append, leftBy_append, hLeft]
      exact ⟨⟨hRound, hRounds⟩, hEnd⟩

/-- Requests that do not name an id do the same with and without it. -/
theorem consistent_erase (hOther : ∀ op ∈ ops, op.index ≠ i) (h : Consistent held ops) :
    Consistent (held.erase i) ops ∧ leftBy (held.erase i) ops = (leftBy held ops).erase i := by
  induction ops generalizing held with
  | nil => exact ⟨trivial, rfl⟩
  | cons op ops ih =>
      obtain ⟨hOp, hRest⟩ := List.forall_mem_cons.mp hOther
      have hKeeps : op.KeepsTo (held.erase i) :=
        h.1.trans (not_congr (List.mem_erase_of_ne hOp).symm)
      have hNow : op.nowHeld (held.erase i) = (op.nowHeld held).erase i := by
        unfold TraceOp.nowHeld
        cases op.type with
        | alloc => exact (List.erase_cons_tail (by simpa using hOp)).symm
        | realloc => rfl
        | free => exact List.erase_comm _ _
      obtain ⟨hConsistent, hLeft⟩ := ih hRest h.2
      rw [Consistent, hNow]
      refine ⟨⟨hKeeps, hConsistent⟩, ?_⟩
      rw [leftBy, List.foldl_cons, hNow]
      exact hLeft

/-- Requests that do not name an id neither take it nor free it. -/
theorem mem_leftBy (hOther : ∀ op ∈ ops, op.index ≠ i) : i ∈ leftBy held ops ↔ i ∈ held := by
  induction ops generalizing held with
  | nil => exact Iff.rfl
  | cons op ops ih =>
      obtain ⟨hOp, hRest⟩ := List.forall_mem_cons.mp hOther
      refine (ih hRest).trans ?_
      unfold TraceOp.nowHeld
      cases op.type with
      | alloc => simp [hOp.symm]
      | realloc => rfl
      | free => exact List.mem_erase_of_ne hOp.symm

/-- A free goes in after the last request that names its id. The requests behind it are the
same with and without it. -/
theorem consistent_insert (h : Consistent held (ops ++ ops'))
    (hLeft : i ∈ leftBy held (ops ++ ops')) (hOther : ∀ op ∈ ops', op.index ≠ i) :
    Consistent held (ops ++ freeOp i :: ops') ∧
      leftBy held (ops ++ freeOp i :: ops') = (leftBy held (ops ++ ops')).erase i := by
  obtain ⟨hFirst, hSecond⟩ := consistent_append.mp h
  rw [leftBy_append] at hLeft ⊢
  have hHeld : i ∈ leftBy held ops := (mem_leftBy hOther).mp hLeft
  obtain ⟨hRest, hEnd⟩ := consistent_erase hOther hSecond
  refine ⟨consistent_append.mpr ⟨hFirst, ⟨nofun, fun hNot => absurd hHeld hNot⟩, hRest⟩, ?_⟩
  rw [leftBy_append]
  exact hEnd

/-- The frees that balance a trace are for the ids that it leaves, each once. -/
theorem Trace.residue_perm (t : Trace) : t.residue.Perm (leftBy [] t.ops) :=
  List.perm_insertionSort _ _

/-- A balanced trace is consistent and leaves nothing. -/
theorem Trace.balanced_consistent (h : Consistent [] t.ops) :
    Consistent [] t.balanced.ops ∧ leftBy [] t.balanced.ops = [] := by
  have hAll : (leftBy [] t.ops).Perm (t.residue ++ []) := by
    rw [List.append_nil]
    exact t.residue_perm.symm
  obtain ⟨hFrees, hLeft⟩ := consistent_frees hAll
  refine ⟨consistent_append.mpr ⟨h, hFrees⟩, ?_⟩
  rw [Trace.balanced, leftBy_append]
  exact hLeft.eq_nil

theorem idsAfter_toFinset (h : held.Nodup) (op : TraceOp) :
    op.idsAfter held.toFinset = (op.nowHeld held).toFinset := by
  unfold TraceOp.idsAfter TraceOp.nowHeld
  cases op.type with
  | alloc => exact List.toFinset_cons.symm
  | realloc => rfl
  | free =>
      ext j
      rw [Finset.mem_erase, List.mem_toFinset, List.mem_toFinset, h.mem_erase_iff]

/-- A trace is well formed when it is consistent and asks for no empty block. The script checks
the first of the two only. -/
theorem wellFormed_iff (h : held.Nodup) : WellFormed held.toFinset ops ↔
    Consistent held ops ∧ ∀ op ∈ ops, op.type ≠ .free → 0 < op.size := by
  induction ops generalizing held with
  | nil => simp [WellFormed, Consistent]
  | cons op ops ih =>
      have hKeeps : op.Allowed held.toFinset ↔
          op.KeepsTo held ∧ (op.type ≠ .free → 0 < op.size) := by
        have hIn : op.index ∉ held.toFinset ↔ op.index ∉ held := not_congr List.mem_toFinset
        exact ⟨fun hOp => ⟨hOp.index.trans hIn, hOp.size⟩,
          fun hOp => ⟨Iff.trans hOp.1 hIn.symm, hOp.2⟩⟩
      rw [WellFormed, hKeeps, Consistent, List.forall_mem_cons, idsAfter_toFinset h]
      constructor
      · rintro ⟨⟨hOp, hSize⟩, hRest⟩
        obtain ⟨hRest, hSizes⟩ := (ih (hOp.nodup h)).mp hRest
        exact ⟨⟨hOp, hRest⟩, hSize, hSizes⟩
      · rintro ⟨⟨hOp, hRest⟩, hSize, hSizes⟩
        exact ⟨⟨hOp, hSize⟩, (ih (hOp.nodup h)).mpr ⟨hRest, hSizes⟩⟩

theorem wellFormed_empty_iff : WellFormed ∅ ops ↔
    Consistent [] ops ∧ ∀ op ∈ ops, op.type ≠ .free → 0 < op.size := wellFormed_iff List.nodup_nil

end Discipline

end Mdriver
