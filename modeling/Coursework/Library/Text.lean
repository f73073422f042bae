import Mathlib.Data.List.TakeWhile
import Mathlib.Tactic.Common

/-! Reading and writing text: white space, words, lines and decimal numerals. -/

namespace Text

/-- Blank, tab, line feed, vertical tab, form feed and carriage return. -/
def isSpace (c : Char) : Bool := c.toNat = 32 || (9 ≤ c.toNat && c.toNat ≤ 13)

/-- A word is not empty and has no white space in it. -/
def IsWord (w : List Char) : Prop := w ≠ [] ∧ ∀ c ∈ w, isSpace c = false

def skipSpace (cs : List Char) : List Char := cs.dropWhile isSpace

/-- The next word and what comes after it; `none` at the end of the text. -/
def scanWord (cs : List Char) : Option (List Char × List Char) :=
  match skipSpace cs with
  | [] => none
  | c :: rest => some ((c :: rest).takeWhile fun x => !isSpace x,
      (c :: rest).dropWhile fun x => !isSpace x)

/-- An optional sign. -/
def scanSign : List Char → Bool × List Char
  | '-' :: rest => (true, rest)
  | '+' :: rest => (false, rest)
  | cs => (false, cs)

/-- A decimal numeral after white space. Without a digit there is none, and only the
white space and the sign are gone. -/
def scanNumeral (cs : List Char) : Option Int × List Char :=
  let (negative, body) := scanSign (skipSpace cs)
  let digits := body.takeWhile Char.isDigit
  let value : Int := Nat.ofDigitChars 10 digits 0
  (if digits = [] then none else some (if negative then -value else value),
    body.dropWhile Char.isDigit)

def decimal (n : Nat) : List Char := Nat.toDigits 10 n

def signed (n : Int) : List Char :=
  if n < 0 then '-' :: decimal n.natAbs else decimal n.natAbs

section Scans

variable {p : Char → Bool} {body rest : List Char}

/-- A scan stops where it should: after the last character that it is for. What follows begins
with another one, or is empty. -/
theorem takeWhile_exact (hBody : ∀ c ∈ body, p c = true) (hRest : ∀ c ∈ rest.head?, p c = false) :
    (body ++ rest).takeWhile p = body := by
  rw [List.takeWhile_append_of_pos hBody]
  cases rest with
  | nil => simp
  | cons c rest => simp [hRest c rfl]

/-- What such a scan leaves is the rest, unchanged. -/
theorem dropWhile_exact (hBody : ∀ c ∈ body, p c = true) (hRest : ∀ c ∈ rest.head?, p c = false) :
    (body ++ rest).dropWhile p = rest := by
  rw [List.dropWhile_append_of_pos hBody]
  cases rest with
  | nil => rfl
  | cons c rest => simp [hRest c rfl]

end Scans

section Words

variable {w cs rest gap : List Char}

theorem skipSpace_append (hGap : ∀ c ∈ gap, isSpace c = true) (hWord : IsWord w)
    (rest : List Char) :
    skipSpace (gap ++ w ++ rest) = w ++ rest := by
  obtain ⟨hNe, hChars⟩ := hWord
  cases w with
  | nil => exact absurd rfl hNe
  | cons c w =>
      rw [List.append_assoc, skipSpace, List.dropWhile_append_of_pos hGap, List.cons_append,
        List.dropWhile_cons_of_neg]
      simp [hChars c List.mem_cons_self]

/-- A word that ends at white space or at the end of the text is read. What ends it is left in
the text. -/
theorem scanWord_append (hGap : ∀ c ∈ gap, isSpace c = true) (hWord : IsWord w)
    (hRest : ∀ c ∈ rest.head?, isSpace c = true) :
    scanWord (gap ++ w ++ rest) = some (w, rest) := by
  have hSkip := skipSpace_append hGap hWord rest
  have hChars : ∀ c ∈ w, (!isSpace c) = true := fun c hc => by simp [hWord.2 c hc]
  have hStop : ∀ c ∈ rest.head?, (!isSpace c) = false := fun c hc => by simp [hRest c hc]
  have hTake := takeWhile_exact hChars hStop
  have hDrop := dropWhile_exact hChars hStop
  rw [scanWord, hSkip]
  cases hText : w ++ rest with
  | nil => exact absurd (List.append_eq_nil_iff.mp hText).1 hWord.1
  | cons c text =>
      rw [hText] at hTake hDrop
      simp only [hTake, hDrop]

/-- In nothing but white space there is no word, as at the end of a file. -/
theorem scanWord_none (hGap : ∀ c ∈ gap, isSpace c = true) : scanWord gap = none := by
  rw [scanWord, skipSpace, List.dropWhile_eq_nil_iff.mpr hGap]

/-- A word that is read is one, and it takes something from the text. Loops that read words end
by this. -/
theorem scanWord_some (h : scanWord cs = some (w, rest)) : IsWord w ∧ rest.length < cs.length := by
  have hSkip := (List.dropWhile_suffix isSpace (l := cs)).length_le
  unfold scanWord skipSpace at h
  cases hText : cs.dropWhile isSpace with
  | nil =>
      rw [hText] at h
      cases h
  | cons c text =>
      have hSpace : isSpace c = false := by
        have hNot := List.head_dropWhile_not isSpace (l := cs) (by simp [hText])
        simpa [hText] using hNot
      rw [hText] at h hSkip
      obtain ⟨rfl, rfl⟩ := Prod.mk.inj (Option.some.inj h)
      refine ⟨⟨by simp [hSpace], fun x hx => by simpa using List.mem_takeWhile_imp hx⟩, ?_⟩
      have hDrop := (List.dropWhile_suffix (fun x => !isSpace x) (l := text)).length_le
      rw [List.dropWhile_cons_of_pos (by simp [hSpace])]
      rw [List.length_cons] at hSkip
      omega

end Words

section Numerals

variable {cs rest gap : List Char} {c : Char}

theorem isSpace_of_isDigit (h : c.isDigit = true) : isSpace c = false := by
  have hLow : 48 ≤ c.toNat := by
    simp only [Char.isDigit, Bool.and_eq_true, decide_eq_true_eq, UInt32.le_iff_toNat_le] at h
    exact h.1
  unfold isSpace
  simp only [Bool.or_eq_false_iff, decide_eq_false_iff_not, Bool.and_eq_false_iff]
  omega

theorem isDigit_decimal (n : Nat) : ∀ c ∈ decimal n, c.isDigit = true := fun _ hc =>
  Nat.isDigit_of_mem_toDigits (by decide) (by decide) hc

/-- A numeral is a word: it has a digit, and no white space. -/
theorem isWord_decimal (n : Nat) : IsWord (decimal n) :=
  ⟨Nat.toDigits_ne_nil, fun c hc => isSpace_of_isDigit (isDigit_decimal n c hc)⟩

/-- The same of a numeral with its sign. -/
theorem isWord_signed (n : Int) : IsWord (signed n) := by
  unfold signed
  split
  · refine ⟨List.cons_ne_nil _ _, List.forall_mem_cons.mpr ⟨by decide, (isWord_decimal _).2⟩⟩
  · exact isWord_decimal _

theorem signed_natCast (n : Nat) : signed n = decimal n := by
  rw [signed, if_neg (by omega), Int.natAbs_natCast]

/-- A numeral whose sign is read before it. Only a negative number has one. -/
theorem scanSign_signed (n : Int) (rest : List Char) :
    scanSign (signed n ++ rest) = (decide (n < 0), decimal n.natAbs ++ rest) := by
  unfold signed
  split
  · next hNeg => simp [scanSign, hNeg]
  · next hPos =>
      have hDigits := isDigit_decimal n.natAbs
      cases hText : decimal n.natAbs with
      | nil => exact absurd hText Nat.toDigits_ne_nil
      | cons c text =>
          rw [hText] at hDigits
          have hDigit := hDigits c List.mem_cons_self
          rw [List.cons_append, scanSign]
          · simp [hPos]
          · intro _ hEq
            rw [(List.cons.inj hEq).1] at hDigit
            cases hDigit
          · intro _ hEq
            rw [(List.cons.inj hEq).1] at hDigit
            cases hDigit

/-- A numeral that ends before something else than a digit is read as it was written, after any
white space. -/
theorem scanNumeral_signed (hGap : ∀ c ∈ gap, isSpace c = true) (n : Int)
    (rest : List Char) (hRest : ∀ c ∈ rest.head?, c.isDigit = false) :
    scanNumeral (gap ++ signed n ++ rest) = (some n, rest) := by
  have hDigits := isDigit_decimal n.natAbs
  have hTake := takeWhile_exact hDigits hRest
  have hDrop := dropWhile_exact hDigits hRest
  have hSome : decimal n.natAbs ≠ [] := Nat.toDigits_ne_nil
  have hValue : Nat.ofDigitChars 10 (decimal n.natAbs) 0 = n.natAbs :=
    Nat.ofDigitChars_ten_toDigits
  rw [scanNumeral, skipSpace_append hGap (isWord_signed n), scanSign_signed]
  simp only [hTake, hDrop, if_neg hSome, hValue, decide_eq_true_eq]
  refine congrArg (fun v => (some v, rest)) ?_
  split <;> omega

/-- A numeral that is not there takes nothing that is not white space or a sign. -/
theorem length_scanNumeral (cs : List Char) : (scanNumeral cs).2.length ≤ cs.length := by
  have hSkip := (List.dropWhile_suffix isSpace (l := cs)).length_le
  have hSign : ∀ xs : List Char, (scanSign xs).2.length ≤ xs.length := by
    intro xs
    unfold scanSign
    split <;> simp
  have hDigits := (List.dropWhile_suffix Char.isDigit (l := (scanSign (skipSpace cs)).2)).length_le
  exact Nat.le_trans hDigits (Nat.le_trans (hSign _) hSkip)

end Numerals

section Lines

variable {l cs rest : List Char} {ls : List (List Char)}

/-- The lines of a text. The last one need not be ended. -/
def lines : List Char → List (List Char)
  | [] => []
  | c :: cs =>
      if c = '\n' then [] :: lines cs
      else match lines cs with
        | [] => [[c]]
        | l :: ls => (c :: l) :: ls

/-- The text of lines that are all ended. -/
def unlines (ls : List (List Char)) : List Char := ls.flatMap (· ++ ['\n'])

theorem unlines_cons (l : List Char) (ls : List (List Char)) :
    unlines (l :: ls) = l ++ '\n' :: unlines ls := List.append_assoc _ _ _

theorem unlines_append (ls ls' : List (List Char)) :
    unlines (ls ++ ls') = unlines ls ++ unlines ls' := List.flatMap_append

/-- The first line of a text ends at the first line feed. -/
theorem lines_append (h : '\n' ∉ l) : lines (l ++ '\n' :: rest) = l :: lines rest := by
  induction l with
  | nil => exact if_pos rfl
  | cons c l ih =>
      obtain ⟨hChar, hRest⟩ := List.ne_and_not_mem_of_not_mem_cons h
      rw [List.cons_append, lines, if_neg hChar.symm, ih hRest]

/-- Lines that are written are read back, as long as no line feed is in them. The induction is
on the lines. -/
theorem lines_unlines (h : ∀ l ∈ ls, '\n' ∉ l) : lines (unlines ls) = ls := by
  induction ls with
  | nil => rfl
  | cons l ls ih =>
      obtain ⟨hLine, hLines⟩ := List.forall_mem_cons.mp h
      rw [unlines_cons, lines_append hLine, ih hLines]

theorem lines_single (hNe : l ≠ []) (h : '\n' ∉ l) : lines l = [l] := by
  induction l with
  | nil => exact absurd rfl hNe
  | cons c l ih =>
      obtain ⟨hChar, hRest⟩ := List.ne_and_not_mem_of_not_mem_cons h
      rw [lines, if_neg hChar.symm]
      cases l with
      | nil => rfl
      | cons d l => rw [ih (List.cons_ne_nil d l) hRest]

/-- How a text goes on can be exchanged for anything with the same lines. -/
theorem lines_congr {more more' : List Char} (h : lines more = lines more') (cs : List Char) :
    lines (cs ++ more) = lines (cs ++ more') := by
  induction cs with
  | nil => exact h
  | cons c cs ih => rw [List.cons_append, List.cons_append, lines, lines, ih]

/-- The last line need not be ended, if it is there. An empty one would be lost. -/
theorem lines_unended (hNe : l ≠ []) (h : '\n' ∉ l) (cs : List Char) :
    lines (cs ++ (l ++ ['\n'])) = lines (cs ++ l) :=
  lines_congr (by rw [lines_append h, lines_single hNe h, lines]) cs

/-- A last line that is not empty need not be ended: the lines are the same. -/
theorem lines_dropLast (hNe : l ≠ []) (h : '\n' ∉ l) (ls : List (List Char)) :
    lines (unlines (ls ++ [l])).dropLast = lines (unlines (ls ++ [l])) := by
  have hText : unlines (ls ++ [l]) = unlines ls ++ (l ++ ['\n']) := by
    rw [unlines_append]
    exact congrArg _ (List.flatMap_singleton _ _)
  rw [hText, lines_unended hNe h, ← List.append_assoc, List.dropLast_concat]

end Lines

section Split

variable {w cs rest : List Char} {c : Char}

/-- The words of a text. -/
def words (cs : List Char) : List (List Char) := (cs.splitOnP isSpace).filter (· ≠ [])

/-- A word up to the first white space is the first word of a line. The others are those of the
rest. -/
theorem words_append (hWord : IsWord w) (hSpace : isSpace c = true) :
    words (w ++ c :: rest) = w :: words rest := by
  rw [words, List.splitOnP_append_cons_of_forall_mem hWord.2 c hSpace, List.filter_cons_of_pos]
  · rfl
  · exact decide_eq_true hWord.1

theorem words_single (hWord : IsWord w) : words w = [w] := by
  rw [words, List.splitOnP_eq_singleton hWord.2]
  exact List.filter_eq_self.mpr fun x hx => by simpa [List.mem_singleton.mp hx] using hWord.1

theorem splitOnP_spaceless (cs : List Char) :
    ∀ w ∈ cs.splitOnP isSpace, ∀ c ∈ w, isSpace c = false := by
  induction cs with
  | nil => simp
  | cons c cs ih =>
      rw [List.splitOnP_cons_eq_if_modifyHead]
      split
      · exact List.forall_mem_cons.mpr ⟨nofun, ih⟩
      · next hSpace =>
          cases hWords : cs.splitOnP isSpace with
          | nil => exact nofun
          | cons w ws =>
              obtain ⟨hWord, hRest⟩ := List.forall_mem_cons.mp (hWords ▸ ih)
              refine List.forall_mem_cons.mpr ⟨?_, hRest⟩
              exact List.forall_mem_cons.mpr ⟨eq_false_of_ne_true hSpace, hWord⟩

/-- The words of a line are words, whatever white space is between them. -/
theorem isWord_words (cs : List Char) : ∀ w ∈ words cs, IsWord w := by
  intro w hw
  obtain ⟨hIn, hNe⟩ := List.mem_filter.mp hw
  exact ⟨of_decide_eq_true hNe, splitOnP_spaceless cs w hIn⟩

/-- A word has no line feed in it, so words may be put on a line. -/
theorem newline_notMem (hWord : IsWord w) : '\n' ∉ w := fun hIn =>
  absurd (hWord.2 _ hIn) (by decide)

end Split

/-- Different numbers have different numerals. So a hash with the numerals for keys is one with
the numbers. -/
theorem decimal_injective : Function.Injective decimal := fun m n h => by
  have hDigits : Nat.ofDigitChars 10 (decimal m) 0 = Nat.ofDigitChars 10 (decimal n) 0 := by rw [h]
  rwa [decimal, decimal, Nat.ofDigitChars_ten_toDigits, Nat.ofDigitChars_ten_toDigits] at hDigits

end Text
