import Coursework.Library.Bytes
import Coursework.Library.Program
import Mathlib.Logic.Function.Basic

/-! The process in which the allocator runs: its memory, the pages that the
operating system has mapped, and the static variables of `mm.c`, `memlib.c`
and `pagemap.c`. Addresses and `size_t` values are numbers below `2 ^ 64`. -/

namespace Malloc

def logApageSize : Nat := 12

def apageSize : Nat := 1 <<< logApageSize

@[simp] theorem apageSize_eq : apageSize = 4096 := rfl

/-- Addition of `size_t` values and of pointers and offsets. -/
def add64 (a b : Nat) : Nat := (a + b) % 2 ^ 64

def sub64 (a b : Nat) : Nat := (a + (2 ^ 64 - b % 2 ^ 64)) % 2 ^ 64

/-- Without a wrap the sum of two words is that of the numbers. -/
theorem add64_eq {a b : Nat} (h : a + b < 2 ^ 64) : add64 a b = a + b :=
  Nat.mod_eq_of_lt h

/-- Without a borrow the difference of two words is that of the numbers. -/
theorem sub64_eq {a b : Nat} (h : b ≤ a) (ha : a < 2 ^ 64) : sub64 a b = a - b := by
  unfold sub64
  rw [Nat.mod_eq_of_lt (by omega : b < 2 ^ 64)]
  omega

/-- The pages that the operating system has mapped, by page number, and how
many `mmap` calls it has served. -/
structure OS where
  mapped : Nat → Bool
  mmaps : Nat

namespace OS

/-- Both ends of the `n` bytes from `a` are on mapped pages. No access is
longer than a page. -/
def accessible (os : OS) (a n : Nat) : Bool :=
  os.mapped (a / apageSize) && os.mapped ((a + n - 1) / apageSize)

/-- Bytes in a mapped range can be accessed. -/
theorem accessible_of_mapped {os : OS} {a n lo hi : Nat}
    (h : ∀ x, lo ≤ x → x < hi → os.mapped (x / apageSize) = true) (hLow : lo ≤ a) (hPos : 0 < n)
    (hHigh : a + n ≤ hi) : os.accessible a n = true := by
  rw [accessible, Bool.and_eq_true]
  exact ⟨h a hLow (by omega), h _ (by omega) (by omega)⟩

/-- Set the state of every page that starts between `p` and `p + sz`. -/
def setRange (os : OS) (p sz : Nat) (on : Bool) : OS :=
  { os with mapped := fun q =>
      if p ≤ q * apageSize ∧ q * apageSize < p + sz then on else os.mapped q }

end OS

/-- How the operating system places new mappings. The answer may depend on
everything mapped so far and on how often `mmap` was called, so every sequence
of placements is one of these. An answer is never the null page, is aligned to
pages, overlaps nothing that is mapped, and leaves the address after its end
representable; `none` is `MAP_FAILED`, the only answer for an empty range. -/
structure Kernel where
  place : OS → Nat → Option Nat
  aligned : ∀ os sz p, place os sz = some p → p % apageSize = 0
  nonzero : ∀ os sz p, place os sz = some p → 0 < p
  nonempty : ∀ os sz p, place os sz = some p → 0 < sz
  inside : ∀ os sz p, place os sz = some p → p + sz < 2 ^ 64
  fresh : ∀ os sz p, place os sz = some p → ∀ q, p ≤ q * apageSize →
    q * apageSize < p + sz → os.mapped q = false

/-- The address of an entry of a level-3 table of `pagemap.c`. -/
structure PagePtr where
  pos1 : Nat
  pos2 : Nat
  pos3 : Nat
deriving DecidableEq, Repr

/-- `struct mpage`. -/
structure MPage where
  addr : Nat
  prev : Option PagePtr
  next : Option PagePtr
deriving DecidableEq, Repr

abbrev PageMaps3 : Type := Nat → MPage
abbrev PageMaps2 : Type := Nat → Option PageMaps3
abbrev PageMaps1 : Type := Nat → Option PageMaps2

/-- A call of `mem_map` that returned `p`, or of `mem_unmap`. -/
inductive MemCall where
  | map (p sz : Nat)
  | unmap (p sz : Nat)
deriving DecidableEq, Repr

structure Process where
  mem : Bytes
  os : OS
  /-- `page_maps1` and `all_mapped_pages` of `pagemap.c`. -/
  pageMaps1 : Option PageMaps1
  allMappedPages : Option PagePtr
  /-- `activity_counter` and `page_count` of `memlib.c`. -/
  activityCounter : BitVec 32
  pageCount : BitVec 32
  /-- `page_list_head` and `free_list_head` of `mm.c`. -/
  pageListHead : Nat
  freeListHead : Nat
  /-- The record of calls to `memlib.c`, the oldest first. No code reads it. -/
  calls : List MemCall

/-- Why a call does not return. -/
inductive Abort where
  /-- An access to an unmapped page. -/
  | segfault
  /-- A loop that is still running after as many steps as there are addresses. -/
  | diverges
  | writeFooterOutsidePage
  | memMapSize
  | mmapFailed
  | memUnmapAddr
  | memUnmapSize
  | memUnmapPage
  | munmapFailed
  | pageAlreadyMapped
  | pageIsListHead
  | pageNotMapped
deriving DecidableEq, Repr

abbrev Code (α : Type) : Type := Program Process Abort α

open Program (read modify stop)

/-- The bound on the steps of a pointer walk: a walk that visits more nodes
than there are addresses visits one of them twice. -/
def walkBound : Nat := 2 ^ 64

def load (a n : Nat) : Code Nat := do
  let s ← read
  if s.os.accessible a n then pure (s.mem.read a n) else stop .segfault

def store (a n v : Nat) : Code Unit := do
  let s ← read
  if s.os.accessible a n then modify fun s => { s with mem := s.mem.write a n v }
  else stop .segfault

/-- A `size_t` or a pointer. -/
def load64 (a : Nat) : Code Nat := load a 8

def store64 (a v : Nat) : Code Unit := store a 8 v

/-- An `int`. -/
def load32 (a : Nat) : Code Nat := load a 4

def store32 (a v : Nat) : Code Unit := store a 4 v

section Access

variable {s : Process} {a n v : Nat}

/-- A load from memory that may be accessed returns what is there and changes nothing. -/
theorem load_ok (h : s.os.accessible a n = true) : load a n s = .ok (s.mem.read a n, s) := by
  simp [load, Program.bind_apply, h]

/-- A store to memory that may be accessed changes the bytes that it writes and nothing
else. -/
theorem store_ok (h : s.os.accessible a n = true) :
    store a n v s = .ok ((), { s with mem := s.mem.write a n v }) := by
  simp [store, Program.bind_apply, h]

/-- A load from mapped memory reads the eight bytes there. Any other is a fault. -/
theorem load64_ok (h : s.os.accessible a 8 = true) : load64 a s = .ok (s.mem.read a 8, s) :=
  load_ok h

/-- The same of four bytes. -/
theorem load32_ok (h : s.os.accessible a 4 = true) : load32 a s = .ok (s.mem.read a 4, s) :=
  load_ok h

/-- A store to mapped memory writes eight bytes and changes nothing else of the process. -/
theorem store64_ok (h : s.os.accessible a 8 = true) :
    store64 a v s = .ok ((), { s with mem := s.mem.write a 8 v }) := store_ok h

/-- The same of four bytes. -/
theorem store32_ok (h : s.os.accessible a 4 = true) :
    store32 a v s = .ok ((), { s with mem := s.mem.write a 4 v }) := store_ok h

/-- A store after other stores, which do not change what is mapped. -/
theorem store64_at {os : OS} (h : os.accessible a 8 = true) (hOs : s.os = os) :
    store64 a v s = .ok ((), { s with mem := s.mem.write a 8 v }) := store64_ok (hOs ▸ h)

/-- A load in a state that differs from another one, but not in what is mapped. -/
theorem load64_at {os : OS} (h : os.accessible a 8 = true) (hOs : s.os = os) :
    load64 a s = .ok (s.mem.read a 8, s) := load64_ok (hOs ▸ h)

end Access

variable (K : Kernel)

/-- `mmap(0, sz, ...)` of private anonymous memory, which starts out zeroed. -/
def mmap (sz : Nat) : Code (Option Nat) := do
  let s ← read
  modify fun s => { s with os := { s.os with mmaps := s.os.mmaps + 1 } }
  match K.place s.os sz with
  | none => pure none
  | some p => do
      modify fun s => { s with
        os := s.os.setRange p sz true
        mem := fun x => if p ≤ x ∧ x < p + sz then 0 else s.mem x }
      pure (some p)

/-- `munmap`, which fails on a misaligned address and on an empty range. -/
def munmap (p sz : Nat) : Code Bool := do
  if p % apageSize ≠ 0 ∨ sz = 0 then pure false
  else do
    modify fun s => { s with os := s.os.setRange p sz false }
    pure true

end Malloc
