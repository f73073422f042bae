import Mathlib.Algebra.Group.Nat.Defs
import Mathlib.Data.Set.Basic
import Mathlib.Tactic.Common

/-! Byte-addressed memory with little-endian numbers of any width, and what a
write leaves unchanged. -/

/-- A memory gives every address a byte. -/
abbrev Bytes : Type := Nat → UInt8

namespace Bytes

/-- The little-endian number in the `n` bytes from `a`. -/
def read (m : Bytes) (a : Nat) : Nat → Nat
  | 0 => 0
  | n + 1 => (m a).toNat + 256 * m.read (a + 1) n

/-- Store the low `n` bytes of `v` from `a`, the lowest first. -/
def write (m : Bytes) (a n v : Nat) : Bytes := fun x =>
  if a ≤ x ∧ x < a + n then UInt8.ofNat (v / 256 ^ (x - a)) else m x

/-- Two address ranges, given by start and length, without a common address. -/
def Apart (a n b k : Nat) : Prop := a + n ≤ b ∨ b + k ≤ a

/-- The addresses of the `n` bytes from `a`. -/
def span (a n : Nat) : Set Nat := {x | a ≤ x ∧ x < a + n}

@[simp] theorem mem_span {a n x : Nat} : x ∈ span a n ↔ a ≤ x ∧ x < a + n := Iff.rfl

/-- A range inside another one. -/
theorem span_subset {a n b k : Nat} (hLow : a ≤ b) (hHigh : b + k ≤ a + n) :
    span b k ⊆ span a n := by
  rintro x ⟨hx, hx'⟩
  exact ⟨by omega, by omega⟩

/-- A read of `n` bytes is less than the number of their values. -/
theorem read_lt (m : Bytes) (a n : Nat) : m.read a n < 256 ^ n := by
  induction n generalizing a with
  | zero => simp [read]
  | succ n ih =>
      have hByte := (m a).toNat_lt
      have hRest := ih (a + 1)
      rw [read, Nat.pow_succ]
      omega

/-- A read depends on the bytes that it reads and on no other. Memories that agree there give
the same value. -/
theorem read_congr {m m' : Bytes} {a n : Nat} (h : ∀ x, a ≤ x → x < a + n → m' x = m x) :
    m'.read a n = m.read a n := by
  induction n generalizing a with
  | zero => rfl
  | succ n ih =>
      rw [read, read, h a (Nat.le_refl _) (by omega),
        ih fun x hLow hHigh => h x (by omega) (by omega)]

/-- Frame rule of a write: bytes outside of the range keep their values. -/
theorem write_outside {m : Bytes} {a n v x : Nat} (h : x < a ∨ a + n ≤ x) :
    m.write a n v x = m x := by
  rw [write, if_neg (by omega)]

/-- A write is little endian: the byte at a distance is the digit of that place. -/
theorem write_inside {m : Bytes} {a n v x : Nat} (hLow : a ≤ x) (hHigh : x < a + n) :
    m.write a n v x = UInt8.ofNat (v / 256 ^ (x - a)) := by
  rw [write, if_pos ⟨hLow, hHigh⟩]

theorem write_one (m : Bytes) (a v : Nat) :
    m.write a 1 v = Function.update m a (UInt8.ofNat v) := by
  funext x
  by_cases hx : x = a
  · subst hx
    rw [write_inside (Nat.le_refl _) (by omega), Function.update_self]
    simp
  · rw [write_outside (by omega), Function.update_of_ne hx]

/-- Frame rule: a write and a read of other bytes do not meet. -/
theorem read_write_apart {m : Bytes} {a n b k v : Nat} (h : Apart a n b k) :
    (m.write b k v).read a n = m.read a n := by
  apply read_congr
  intro x hLow hHigh
  unfold Apart at h
  exact write_outside (by omega)

/-- The digits from one place on, which is the induction hypothesis of reading back what was
written. -/
private theorem read_write_suffix (m : Bytes) (a n v i k : Nat) (h : i + k = n) :
    (m.write a n v).read (a + i) k = v / 256 ^ i % 256 ^ k := by
  induction k generalizing i with
  | zero => simp [read, Nat.mod_one]
  | succ k ih =>
      have hByte : (m.write a n v (a + i)).toNat = v / 256 ^ i % 256 := by
        rw [write_inside (by omega) (by omega)]
        simp
      rw [read, hByte, Nat.add_assoc, ih (i + 1) (by omega), Nat.pow_succ, ← Nat.div_div_eq_div_mul,
        Nat.pow_succ', Nat.mod_mul]

/-- What was stored is read back, cut to the width. The digits above it are lost. -/
theorem read_write_same (m : Bytes) (a n v : Nat) :
    (m.write a n v).read a n = v % 256 ^ n := by
  simpa using read_write_suffix m a n v 0 n (by omega)

/-- `m'` has the bytes of `m` outside `region`. -/
def AgreeOff (region : Set Nat) (m m' : Bytes) : Prop := ∀ x, x ∉ region → m' x = m x

namespace AgreeOff

variable {m m' m'' : Bytes} {region region' : Set Nat}

theorem refl (region : Set Nat) (m : Bytes) : AgreeOff region m m := fun _ _ => rfl

theorem mono (h : AgreeOff region m m') (hSub : region ⊆ region') : AgreeOff region' m m' :=
  fun x hx => h x fun hIn => hx (hSub hIn)

/-- Changes in the same region one after another are changes in that region. -/
theorem trans (h : AgreeOff region m m') (h' : AgreeOff region m' m'') :
    AgreeOff region m m'' := fun x hx => (h' x hx).trans (h x hx)

/-- A write within the region does not show off it. So a function that writes only there, write
by write, leaves the rest of memory as it is. -/
theorem write {a n v : Nat} (h : AgreeOff region m m') (hSub : span a n ⊆ region) :
    AgreeOff region m (m'.write a n v) := by
  intro x hx
  have hOut : x < a ∨ a + n ≤ x := by
    by_contra hNot
    exact hx (hSub ⟨by omega, by omega⟩)
  rw [write_outside hOut, h x hx]

/-- A read off the region is the same before and after, which is how a field outlives a
function that does not touch it. -/
theorem read {a n : Nat} (h : AgreeOff region m m')
    (hApart : ∀ x, a ≤ x → x < a + n → x ∉ region) : m'.read a n = m.read a n :=
  read_congr fun x hLow hHigh => h x (hApart x hLow hHigh)

end AgreeOff

end Bytes
