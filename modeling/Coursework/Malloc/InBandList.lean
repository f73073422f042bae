import Coursework.Library.DoublyLinked
import Coursework.Malloc.Process
import Coursework.Library.Lists

/-! Doubly linked lists whose nodes are addresses in memory: the word at a
node points to its predecessor and the next word to its successor. Both the
page list and the free list of `mm.c` have this form. -/

namespace Malloc

open DoublyLinked Bytes

/-- The successor of a node; the head comes after `NULL`. -/
def memNext (m : Bytes) (head : Nat) (x : Nat) : Nat := if x = 0 then head else m.read (x + 8) 8

/-- The predecessor of a node; what comes before `NULL` is not stored. -/
def memPrev (m : Bytes) (last : Nat) (x : Nat) : Nat := if x = 0 then last else m.read x 8

/-- The memory holds the list `xs` of addresses, which starts at `head`. -/
def ListRep (m : Bytes) (head : Nat) (xs : List Nat) : Prop :=
  ∃ last, LinkRing 0 (memNext m head) (memPrev m last) xs

/-- The nodes are addresses whose link words do not overlap. -/
structure Spaced (xs : List Nat) : Prop where
  bound : ∀ x ∈ xs, x + 16 ≤ 2 ^ 64
  apart : ∀ x ∈ xs, ∀ y ∈ xs, x ≠ y → Apart x 16 y 16

/-- The bytes of the link words of `xs`. -/
def linkWords (xs : List Nat) : Set Nat := {a | ∃ x ∈ xs, a ∈ span x 16}

/-- What lies in the two words of a node lies in the words of the list. -/
theorem span_subset_linkWords {xs : List Nat} {x a n : Nat} (hx : x ∈ xs) (hLow : x ≤ a)
    (hHigh : a + n ≤ x + 16) : span a n ⊆ linkWords xs := by
  intro b hb
  rw [mem_span] at hb
  exact ⟨x, hx, by omega, by omega⟩

theorem linkWords_mono {xs ys : List Nat} (h : xs ⊆ ys) : linkWords xs ⊆ linkWords ys :=
  fun _ ⟨x, hx, ha⟩ => ⟨x, h hx, ha⟩

/-- The link words of one more node lie in the span that it comes from. The rest are those of
the list. -/
theorem linkWords_cons_subset {xs ys : List Nat} {x a n : Nat} (hSub : xs ⊆ ys) (hLow : a ≤ x)
    (hHigh : x + 16 ≤ a + n) : linkWords (x :: xs) ⊆ linkWords ys ∪ span a n := by
  rintro z ⟨y, hy, hz⟩
  rcases List.mem_cons.mp hy with rfl | hy
  · right
    rw [mem_span] at hz ⊢
    omega
  · exact Or.inl ⟨y, hSub hy, hz⟩

/-- The prev word of a node overlaps no next word, of any node. -/
theorem Spaced.prev_next {xs : List Nat} (h : Spaced xs) {x y : Nat} (hx : x ∈ xs) (hy : y ∈ xs) :
    Apart x 8 (y + 8) 8 := by
  by_cases hEq : x = y
  · subst hEq
    exact Or.inl (Nat.le_refl _)
  · have hApart := h.apart x hx y hy hEq
    unfold Apart at hApart ⊢
    omega

theorem Spaced.prev_prev {xs : List Nat} (h : Spaced xs) {x y : Nat} (hx : x ∈ xs) (hy : y ∈ xs)
    (hNe : x ≠ y) : Apart x 8 y 8 := by
  have hApart := h.apart x hx y hy hNe
  unfold Apart at hApart ⊢
  omega

theorem Spaced.next_next {xs : List Nat} (h : Spaced xs) {x y : Nat} (hx : x ∈ xs) (hy : y ∈ xs)
    (hNe : x ≠ y) : Apart (x + 8) 8 (y + 8) 8 := by
  have hApart := h.apart x hx y hy hNe
  unfold Apart at hApart ⊢
  omega

theorem read_write_word (m : Bytes) {a v : Nat} (h : v < 2 ^ 64) :
    (m.write a 8 v).read a 8 = v := by
  rw [read_write_same]
  exact Nat.mod_eq_of_lt h

section List

variable {m m' : Bytes} {head : Nat} {xs : List Nat} {x : Nat}

/-- No address is twice in the list, since every node has one successor. -/
theorem ListRep.nodup (h : ListRep m head xs) : xs.Nodup := by
  obtain ⟨last, hRing⟩ := h
  exact hRing.nodup_list

theorem ListRep.ne_zero (h : ListRep m head xs) (hx : x ∈ xs) : x ≠ 0 := by
  obtain ⟨last, hRing⟩ := h
  exact hRing.ne_null hx

/-- A list has fewer nodes than there are addresses. So no walk over a list uses up the bound
of the source. -/
theorem ListRep.length_lt (h : ListRep m head xs) (hSpaced : Spaced xs) :
    xs.length < walkBound := by
  obtain ⟨last, hRing⟩ := h
  -- The null pointer is one more address.
  exact hRing.nodup.length_le_of_lt (n := 2 ^ 64) fun x hx => by
    rcases List.mem_cons.mp hx with rfl | hx
    · decide
    · have := hSpaced.bound x hx
      omega

theorem ListRep.head_eq (h : ListRep m head xs) : head = xs.headD 0 := by
  obtain ⟨last, hRing⟩ := h
  exact hRing.next_null

/-- The head is `NULL` for the empty list alone, as the loops over the list assume. -/
theorem ListRep.head_eq_zero (h : ListRep m head xs) : head = 0 ↔ xs = [] := by
  cases xs with
  | nil => simp [h.head_eq]
  | cons x xs =>
      have hx := h.ne_zero (x := x) (by simp)
      simp [h.head_eq, hx]

/-- The second word of a node leads to the rest of the list. -/
theorem ListRep.next_eq {left right : List Nat} (h : ListRep m head (left ++ x :: right)) :
    m.read (x + 8) 8 = right.headD 0 := by
  have hx := h.ne_zero (x := x) (by simp)
  obtain ⟨last, hRing⟩ := h
  have hNext := hRing.next_eq
  rwa [memNext, if_neg hx] at hNext

/-- The first word of a node leads back to what comes before it. -/
theorem ListRep.prev_eq {left right : List Nat} (h : ListRep m head (left ++ x :: right)) :
    m.read x 8 = left.getLastD 0 := by
  have hx := h.ne_zero (x := x) (by simp)
  obtain ⟨last, hRing⟩ := h
  have hPrev := hRing.prev_eq
  rwa [memPrev, if_neg hx] at hPrev

theorem ListRep.next_mem (h : ListRep m head xs) (hx : x ∈ xs) : m.read (x + 8) 8 ∈ 0 :: xs := by
  obtain ⟨last, hRing⟩ := h
  simpa [memNext, hRing.ne_null hx] using hRing.next_mem hx

theorem ListRep.prev_mem (h : ListRep m head xs) (hx : x ∈ xs) : m.read x 8 ∈ 0 :: xs := by
  obtain ⟨last, hRing⟩ := h
  simpa [memPrev, hRing.ne_null hx] using hRing.prev_mem hx

/-- A node is not its own successor. The stores through a link thus go to another node than the
one that is linked. -/
theorem ListRep.next_ne (h : ListRep m head xs) (hx : x ∈ xs) : m.read (x + 8) 8 ≠ x := by
  obtain ⟨last, hRing⟩ := h
  simpa [memNext, hRing.ne_null hx] using hRing.next_ne hx

theorem ListRep.prev_ne (h : ListRep m head xs) (hx : x ∈ xs) : m.read x 8 ≠ x := by
  obtain ⟨last, hRing⟩ := h
  simpa [memPrev, hRing.ne_null hx] using hRing.prev_ne hx

/-- A list depends only on its own link words. Payloads and tags may change as they like. -/
theorem ListRep.congr (h : ListRep m head xs) (hAgree : ∀ a ∈ linkWords xs, m' a = m a) :
    ListRep m' head xs := by
  obtain ⟨last, hRing⟩ := h
  have hRead : ∀ y ∈ xs, ∀ a, y ≤ a → a + 8 ≤ y + 16 → m'.read a 8 = m.read a 8 := by
    intro y hy a hLow hHigh
    refine read_congr fun b hb hb' => hAgree b ?_
    exact ⟨y, hy, by omega, by omega⟩
  refine ⟨last, hRing.congr ?_ ?_⟩
  · intro y hy
    unfold memNext
    split
    · rfl
    · next hZero => exact hRead y ((List.mem_cons.mp hy).resolve_left hZero) _ (by omega) (by omega)
  · intro y hy
    unfold memPrev
    split
    · rfl
    · next hZero => exact hRead y ((List.mem_cons.mp hy).resolve_left hZero) _ (by omega) (by omega)

/-- Frame rule: a change of memory off the link words leaves the list as it is. -/
theorem ListRep.agreeOff {region : Set Nat} (h : ListRep m head xs) (hAgree : AgreeOff region m m')
    (hOut : ∀ a ∈ linkWords xs, a ∉ region) : ListRep m' head xs :=
  h.congr fun a ha => hAgree a (hOut a ha)

/-- The memory after a store to the word at `b`, a field of the node `p`,
unless `p` is null. -/
def storeUnlessNull (m : Bytes) (p b v : Nat) : Bytes :=
  if p ≠ 0 then m.write b 8 v else m

/-- A store through a pointer that may be `NULL` does not reach what is apart from its
target. -/
theorem read_storeUnlessNull {p b v a n : Nat} (h : p ≠ 0 → Apart a n b 8) :
    (storeUnlessNull m p b v).read a n = m.read a n := by
  unfold storeUnlessNull
  split
  · next hp => exact read_write_apart (h hp)
  · rfl

/-- What such a store changes lies in its target, and it changes nothing when there is none. -/
theorem agreeOff_storeUnlessNull {m₀ : Bytes} {region : Set Nat} {p b v : Nat}
    (h : AgreeOff region m₀ m) (hSub : p ≠ 0 → span b 8 ⊆ region) :
    AgreeOff region m₀ (storeUnlessNull m p b v) := by
  unfold storeUnlessNull
  split
  · next hp => exact h.write (hSub hp)
  · exact h

/-- The memory after the neighbours of `x` have been linked to each other. -/
def unlinkMem (m : Bytes) (x : Nat) : Bytes :=
  storeUnlessNull (storeUnlessNull m (m.read x 8) (m.read x 8 + 8) (m.read (x + 8) 8))
    (m.read (x + 8) 8) (m.read (x + 8) 8) (m.read x 8)

def unlinkHead (m : Bytes) (head x : Nat) : Nat :=
  if m.read x 8 ≠ 0 then head else m.read (x + 8) 8

theorem ListRep.head_mem (h : ListRep m head xs) : head ∈ 0 :: xs := by
  obtain ⟨last, hRing⟩ := h
  simpa [memNext] using hRing.head_mem

/-- Unlinking writes at most two words: the next word of the predecessor and
the prev word of the successor. -/
theorem unlinkMem_agreeOff (m : Bytes) (x : Nat) :
    AgreeOff {a | (m.read x 8 ≠ 0 ∧ a ∈ span (m.read x 8 + 8) 8) ∨
      (m.read (x + 8) 8 ≠ 0 ∧ a ∈ span (m.read (x + 8) 8) 8)} m (unlinkMem m x) := by
  refine agreeOff_storeUnlessNull (agreeOff_storeUnlessNull (AgreeOff.refl _ m) ?_) ?_
  · intro hPrev a ha
    exact Or.inl ⟨hPrev, ha⟩
  · intro hNext a ha
    exact Or.inr ⟨hNext, ha⟩

/-- Unlinking writes to the neighbours of the node only, so the words of the node itself stay
as they are. -/
theorem ListRep.unlink_agreeOff (h : ListRep m head xs) (hx : x ∈ xs) :
    AgreeOff (linkWords (xs.erase x)) m (unlinkMem m x) := by
  apply (unlinkMem_agreeOff m x).mono
  rintro a (⟨hPrev, ha⟩ | ⟨hNext, ha⟩)
  · have hMem := (List.mem_cons.mp (h.prev_mem hx)).resolve_left hPrev
    exact span_subset_linkWords (h.nodup.mem_erase_iff.mpr ⟨h.prev_ne hx, hMem⟩)
      (by omega) (by omega) ha
  · have hMem := (List.mem_cons.mp (h.next_mem hx)).resolve_left hNext
    exact span_subset_linkWords (h.nodup.mem_erase_iff.mpr ⟨h.next_ne hx, hMem⟩)
      (by omega) (by omega) ha

/-- Linking the neighbours of a member to each other removes it from the list, at either end as
in the middle. -/
theorem ListRep.unlink (h : ListRep m head xs) (hSpaced : Spaced xs) (hx : x ∈ xs) :
    ListRep (unlinkMem m x) (unlinkHead m head x) (xs.erase x) := by
  obtain ⟨last, hRing⟩ := id h
  have hRemoved := hRing.remove hx
  simp only [memNext, memPrev, if_neg (h.ne_zero hx)] at hRemoved
  have hPrevMem := h.prev_mem hx
  have hNextMem := h.next_mem hx
  unfold ListRep unlinkHead unlinkMem
  generalize m.read x 8 = prev at *
  generalize m.read (x + 8) 8 = next at *
  have hPrevIn : prev ≠ 0 → prev ∈ xs := (List.mem_cons.mp hPrevMem).resolve_left
  have hNextIn : next ≠ 0 → next ∈ xs := (List.mem_cons.mp hNextMem).resolve_left
  have hBound : ∀ y ∈ 0 :: xs, y < 2 ^ 64 := by
    intro y hy
    rcases List.mem_cons.mp hy with rfl | hy
    · decide
    · have := hSpaced.bound y hy
      omega
  refine ⟨if next = 0 then prev else last, hRemoved.congr ?_ ?_⟩
  · intro y hy
    rw [Function.update_apply]
    unfold memNext
    by_cases hyZero : y = 0
    · subst hyZero
      by_cases hPrevZero : prev = 0 <;> simp [hPrevZero, eq_comm]
    · have hyMem := List.mem_of_mem_erase ((List.mem_cons.mp hy).resolve_left hyZero)
      rw [if_neg hyZero, if_neg hyZero,
        read_storeUnlessNull fun hNext => (hSpaced.prev_next (hNextIn hNext) hyMem).symm]
      by_cases hEq : y = prev
      · subst hEq
        rw [storeUnlessNull, if_pos hyZero, if_pos rfl, read_write_word m (hBound next hNextMem)]
      · rw [if_neg hEq,
          read_storeUnlessNull fun hPrev => hSpaced.next_next hyMem (hPrevIn hPrev) hEq]
  · intro y hy
    rw [Function.update_apply]
    unfold memPrev
    by_cases hyZero : y = 0
    · subst hyZero
      by_cases hNextZero : next = 0 <;> simp [hNextZero, eq_comm]
    · have hyMem := List.mem_of_mem_erase ((List.mem_cons.mp hy).resolve_left hyZero)
      rw [if_neg hyZero, if_neg hyZero]
      by_cases hEq : y = next
      · subst hEq
        rw [storeUnlessNull, if_pos hyZero, if_pos rfl,
          read_write_word _ (hBound prev hPrevMem)]
      · rw [if_neg hEq,
          read_storeUnlessNull fun hNext => hSpaced.prev_prev hyMem (hNextIn hNext) hEq,
          read_storeUnlessNull fun hPrev => hSpaced.prev_next hyMem (hPrevIn hPrev)]

/-- The memory after `x` has been linked in before the head. -/
def linkMem (m : Bytes) (head x : Nat) : Bytes :=
  storeUnlessNull ((m.write x 8 0).write (x + 8) 8 head) head head x

/-- Linking a node writes to it, and to the old head if there is one. -/
theorem linkMem_agreeOff (m : Bytes) (head x : Nat) :
    AgreeOff {a | a ∈ span x 16 ∨ (head ≠ 0 ∧ a ∈ span head 8)} m (linkMem m head x) := by
  refine agreeOff_storeUnlessNull (((AgreeOff.refl _ m).write ?_).write ?_) ?_
  · intro a ha
    rw [mem_span] at ha
    exact Or.inl ⟨by omega, by omega⟩
  · intro a ha
    rw [mem_span] at ha
    exact Or.inl ⟨by omega, by omega⟩
  · intro hHead a ha
    exact Or.inr ⟨hHead, ha⟩

/-- So it writes to the link words of the new list only. -/
theorem ListRep.link_agreeOff (h : ListRep m head xs) (x : Nat) :
    AgreeOff (linkWords (x :: xs)) m (linkMem m head x) := by
  apply (linkMem_agreeOff m head x).mono
  rintro a (ha | ⟨hHead, ha⟩)
  · exact ⟨x, by simp, ha⟩
  · have hMem := (List.mem_cons.mp h.head_mem).resolve_left hHead
    exact span_subset_linkWords (List.mem_cons_of_mem x hMem) (Nat.le_refl _) (by omega) ha

/-- Linking in a fresh node puts it in front of the list. The other nodes keep their order. -/
theorem ListRep.link (h : ListRep m head xs) (hSpaced : Spaced (x :: xs)) (hxZero : x ≠ 0)
    (hxNew : x ∉ xs) : ListRep (linkMem m head x) x (x :: xs) := by
  obtain ⟨last, hRing⟩ := id h
  have hPushed := hRing.push (x := x) (by simp [hxZero, hxNew])
  simp only [memNext, if_true] at hPushed
  have hHeadIn : head ≠ 0 → head ∈ x :: xs := fun hHead =>
    List.mem_cons_of_mem x ((List.mem_cons.mp h.head_mem).resolve_left hHead)
  have hBound : ∀ y ∈ x :: xs, y < 2 ^ 64 := by
    intro y hy
    have := hSpaced.bound y hy
    omega
  have hHeadBound : head < 2 ^ 64 := by
    by_cases hHead : head = 0
    · omega
    · exact hBound head (hHeadIn hHead)
  have hxHead : x ≠ head := by
    rintro rfl
    exact hxNew ((List.mem_cons.mp h.head_mem).resolve_left hxZero)
  unfold ListRep linkMem
  refine ⟨if head = 0 then x else last, hPushed.congr ?_ ?_⟩
  · intro y hy
    by_cases hyZero : y = 0
    · subst hyZero
      simp [memNext]
    · have hyMem := (List.mem_cons.mp hy).resolve_left hyZero
      rw [Function.update_of_ne hyZero]
      unfold memNext
      rw [if_neg hyZero,
        read_storeUnlessNull fun hHead => (hSpaced.prev_next (hHeadIn hHead) hyMem).symm]
      by_cases hEq : y = x
      · subst hEq
        rw [read_write_word _ hHeadBound, Function.update_self]
      · rw [Function.update_of_ne hEq, if_neg hyZero,
          read_write_apart (hSpaced.next_next hyMem (by simp) hEq),
          read_write_apart (hSpaced.prev_next (by simp) hyMem).symm]
  · intro y hy
    by_cases hyZero : y = 0
    · subst hyZero
      by_cases hHead : head = 0
      · simp [memPrev, hHead, Ne.symm hxZero]
      · simp [memPrev, hHead, Ne.symm hxZero, Ne.symm hHead]
    · have hyMem := (List.mem_cons.mp hy).resolve_left hyZero
      unfold memPrev
      rw [if_neg hyZero]
      by_cases hEq : y = x
      · subst hEq
        rw [read_storeUnlessNull fun hHead => hSpaced.prev_prev hyMem (hHeadIn hHead) hxHead,
          read_write_apart (hSpaced.prev_next hyMem hyMem), read_write_word m (by decide),
          Function.update_self]
      · rw [Function.update_of_ne hEq]
        by_cases hyHead : y = head
        · subst hyHead
          rw [storeUnlessNull, if_pos hyZero, read_write_word _ (hBound x (by simp)),
            Function.update_self]
        · rw [Function.update_of_ne hyHead, if_neg hyZero,
            read_storeUnlessNull fun hHead => hSpaced.prev_prev hyMem (hHeadIn hHead) hyHead,
            read_write_apart (hSpaced.prev_next hyMem (by simp)),
            read_write_apart (hSpaced.prev_prev hyMem (by simp) hEq)]

end List

end Malloc
