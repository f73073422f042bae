import Coursework.Malloc.Runs
import Coursework.Malloc.View

/-! The free list in memory as a sequence of payload addresses: what
`insert_free_block` and `remove_free_block` make of it, and which words they change. -/

namespace Malloc

open Bytes DoublyLinked

/-- From `free_list_head` the links lead through `xs` to `NULL`, and back. The nodes
are different, and their link words lie apart from each other on mapped pages. -/
structure HoldsFree (s : Process) (xs : List Nat) : Prop where
  follows : Follows s.mem s.freeListHead xs
  mirrored : Mirrored s.mem xs
  distinct : xs.Nodup
  spaced : Spaced xs
  mapped : NodesMapped s.os xs

/-- An address whose link words can be written and overlap none of those of `xs`. -/
structure CanInsert (s : Process) (xs : List Nat) (bp : Nat) : Prop where
  nonzero : bp ≠ 0
  bound : bp + 16 ≤ 2 ^ 64
  apart : ∀ x ∈ xs, Apart bp 16 x 16
  mapped : s.os.accessible bp 8 = true ∧ s.os.accessible (bp + 8) 8 = true

/-- `y` stands directly before or after `x`. -/
def Beside (xs : List Nat) (x y : Nat) : Prop := [y, x] <:+: xs ∨ [x, y] <:+: xs

/-- The link words of `x` and of its neighbours in `xs`. -/
def linksAround (xs : List Nat) (x : Nat) : Set Nat :=
  {a | ∃ y, (y = x ∨ Beside xs x y) ∧ a ∈ span y 16}

/-- From `s` to `t` only the head of the free list and the bytes in `region` may
have changed. -/
structure Relinked (region : Set Nat) (s t : Process) : Prop where
  rest : t = { s with mem := t.mem, freeListHead := t.freeListHead }
  mem : AgreeOff region s.mem t.mem

section Operations

variable {s : Process} {xs : List Nat} {bp : Nat}

/-- Memory that differs in the region only, with any new head, is a change of the links. -/
theorem Relinked.intro {region : Set Nat} {m : Bytes} {head : Nat} (h : AgreeOff region s.mem m) :
    Relinked region s { s with mem := m, freeListHead := head } := ⟨rfl, h⟩

theorem HoldsFree.listRep (h : HoldsFree s xs) : ListRep s.mem s.freeListHead xs :=
  .of_follows h.follows h.mirrored h.distinct

/-- Conversely, a list that the loops follow through spaced and mapped nodes is one that memory
holds. -/
theorem HoldsFree.of_listRep (h : ListRep s.mem s.freeListHead xs) (hSpaced : Spaced xs)
    (hMapped : NodesMapped s.os xs) : HoldsFree s xs :=
  ⟨h.follows, h.mirrored, h.nodup, hSpaced, hMapped⟩

theorem CanInsert.not_mem (h : CanInsert s xs bp) : bp ∉ xs := by
  intro hIn
  have hApart := h.apart bp hIn
  unfold Apart at hApart
  omega

theorem CanInsert.spaced (h : CanInsert s xs bp) (hSpaced : Spaced xs) : Spaced (bp :: xs) := by
  refine ⟨List.forall_mem_cons.mpr ⟨h.bound, hSpaced.bound⟩, ?_⟩
  intro x hx y hy hNe
  rcases List.mem_cons.mp hx with rfl | hxIn
  · exact h.apart y ((List.mem_cons.mp hy).resolve_left hNe.symm)
  · rcases List.mem_cons.mp hy with rfl | hyIn
    · exact (h.apart x hxIn).symm
    · exact hSpaced.apart x hxIn y hyIn hNe

/-- The words of a node and of its neighbours are among those that a removal writes to. -/
theorem span_subset_linksAround {x y a n : Nat} (h : y = x ∨ Beside xs x y) (hLow : y ≤ a)
    (hHigh : a + n ≤ y + 16) : span a n ⊆ linksAround xs x :=
  fun _ hb => ⟨y, h, span_subset hLow hHigh hb⟩

/-- `insert_free_block` puts a node in front of the sequence, and writes only to the node and
to the old head. -/
theorem HoldsFree.insert (h : HoldsFree s xs) (hNew : CanInsert s xs bp) :
    ∃ t, insertFreeBlock bp s = .ok ((), t) ∧ HoldsFree t (bp :: xs) ∧
      Relinked (linksAround (bp :: xs) bp) s t := by
  have hList := h.listRep
  have hSpaced := hNew.spaced h.spaced
  have hMapped : NodesMapped s.os (bp :: xs) := List.forall_mem_cons.mpr ⟨hNew.mapped, h.mapped⟩
  refine ⟨_, insertFreeBlock_ok hList hSpaced hMapped,
    .of_listRep (hList.link hSpaced hNew.nonzero hNew.not_mem) hSpaced hMapped, .intro ?_⟩
  apply (linkMem_agreeOff s.mem s.freeListHead bp).mono
  rintro a (ha | ⟨hHead, ha⟩)
  · exact ⟨bp, Or.inl rfl, ha⟩
  · cases xs with
    | nil => exact absurd hList.head_eq hHead
    | cons x xs =>
        have hHeadEq : s.freeListHead = x := hList.head_eq
        rw [hHeadEq] at ha
        exact span_subset_linksAround (Or.inr (Or.inr ⟨[], xs, rfl⟩)) (Nat.le_refl x) (by omega) ha

/-- The words that point from a node to its neighbours, and back, are all that a removal may
change. -/
theorem removeMem_agreeOff_around (h : ListRep s.mem s.freeListHead xs) (hIn : bp ∈ xs) :
    AgreeOff (linksAround xs bp) s.mem (removeMem s.mem bp) := by
  obtain ⟨left, right, rfl⟩ := List.append_of_mem hIn
  have hPrev := h.prev_eq
  have hNext := h.next_eq
  have hUnlink : AgreeOff (linksAround (left ++ bp :: right) bp) s.mem (unlinkMem s.mem bp) := by
    apply (unlinkMem_agreeOff s.mem bp).mono
    rintro a (⟨hNe, ha⟩ | ⟨hNe, ha⟩)
    · rcases List.eq_nil_or_concat left with rfl | ⟨before, x, rfl⟩
      · exact absurd hPrev hNe
      · rw [List.concat_eq_append, List.getLastD_concat] at hPrev
        rw [hPrev] at ha
        have hBeside : Beside (before.concat x ++ bp :: right) bp x :=
          Or.inl ⟨before, right, by simp⟩
        exact span_subset_linksAround (Or.inr hBeside) (by omega) (by omega) ha
    · cases right with
      | nil => exact absurd hNext hNe
      | cons x after =>
          rw [List.headD_cons] at hNext
          rw [hNext] at ha
          have hBeside : Beside (left ++ bp :: x :: after) bp x := Or.inr ⟨left, after, by simp⟩
          exact span_subset_linksAround (Or.inr hBeside) (Nat.le_refl x) (by omega) ha
  have hSelf : ∀ {a n : Nat}, bp ≤ a → a + n ≤ bp + 16 →
      span a n ⊆ linksAround (left ++ bp :: right) bp := span_subset_linksAround (Or.inl rfl)
  exact (hUnlink.write (hSelf (Nat.le_refl bp) (by omega))).write (hSelf (by omega) (by omega))

/-- `remove_free_block` takes a node from the sequence, wherever it stands, and writes only
around it. -/
theorem HoldsFree.remove (h : HoldsFree s xs) (hIn : bp ∈ xs) :
    ∃ t, removeFreeBlock bp s = .ok ((), t) ∧ HoldsFree t (xs.erase bp) ∧
      Relinked (linksAround xs bp) s t := by
  have hList := h.listRep
  have hSub : xs.erase bp ⊆ xs := List.erase_subset
  have hSpaced : Spaced (xs.erase bp) := ⟨fun x hx => h.spaced.bound x (hSub hx),
    fun x hx y hy => h.spaced.apart x (hSub hx) y (hSub hy)⟩
  have hMapped : NodesMapped s.os (xs.erase bp) := fun x hx => h.mapped x (hSub hx)
  have hRest := hList.remove h.spaced hIn
  have hRun := removeFreeBlock_ok hList h.spaced h.mapped hIn
  have hFrame := removeMem_agreeOff_around hList hIn
  generalize removeMem s.mem bp = m at hRest hRun hFrame
  generalize unlinkHead s.mem s.freeListHead bp = head at hRest hRun
  exact ⟨_, hRun, .of_listRep hRest hSpaced hMapped, .intro hFrame⟩

/-- Two removals leave the sequence without the two nodes, whichever of them comes first. -/
theorem HoldsFree.remove_two (h : HoldsFree s xs) {x y : Nat} (hx : x ∈ xs) (hy : y ∈ xs)
    (hNe : x ≠ y) : ∃ t, (do removeFreeBlock x; removeFreeBlock y : Code Unit) s = .ok ((), t) ∧
      HoldsFree t ((xs.erase x).erase y) := by
  obtain ⟨t, hFirst, hHolds, -⟩ := h.remove hx
  obtain ⟨u, hSecond, hRest, -⟩ := hHolds.remove (h.distinct.mem_erase_iff.mpr ⟨hNe.symm, hy⟩)
  exact ⟨u, (Program.bind_ok hFirst).trans hSecond, hRest⟩

/-- The free list in memory implements a sequence: insertion is at the front,
removal is at any position, each changes the links around one node only, and two
removals lead to the same sequence in either order. -/
theorem free_list_sequence (h : HoldsFree s xs) :
    (∀ bp, CanInsert s xs bp → ∃ t, insertFreeBlock bp s = .ok ((), t) ∧
      HoldsFree t (bp :: xs) ∧ Relinked (linksAround (bp :: xs) bp) s t) ∧
    (∀ bp ∈ xs, ∃ t, removeFreeBlock bp s = .ok ((), t) ∧ HoldsFree t (xs.erase bp) ∧
      Relinked (linksAround xs bp) s t) ∧
    ∀ x ∈ xs, ∀ y ∈ xs, x ≠ y → ∃ t u zs,
      (do removeFreeBlock x; removeFreeBlock y : Code Unit) s = .ok ((), t) ∧
      (do removeFreeBlock y; removeFreeBlock x : Code Unit) s = .ok ((), u) ∧
      zs = (xs.erase x).erase y ∧ HoldsFree t zs ∧ HoldsFree u zs := by
  refine ⟨fun bp hNew => h.insert hNew, fun bp hIn => h.remove hIn, fun x hx y hy hNe => ?_⟩
  obtain ⟨t, hRun, hHolds⟩ := h.remove_two hx hy hNe
  obtain ⟨u, hRun', hHolds'⟩ := h.remove_two hy hx hNe.symm
  rw [List.erase_comm] at hHolds'
  exact ⟨t, u, _, hRun, hRun', rfl, hHolds, hHolds'⟩

end Operations

section Heap

variable {π : Nat → Nat} {s : Process} {cs : List Chunk} {fr : List Loc}

/-- The free blocks of a heap are such a sequence, so all this is true of the free list in
every reachable state. -/
theorem Rep.holdsFree (h : Rep π s cs fr) : HoldsFree s (fr.map (Loc.payload π)) :=
  .of_listRep h.freeList (h.layout.spaced_free h.freeLocs) (h.layout.nodesMapped h.freeLocs)

/-- The payload of a block in use can be inserted. It has room for the links and lies apart
from the free blocks. -/
theorem Rep.canInsert (h : Rep π s cs fr) {k : Loc} {b : Block} (hUsed : UsedAt cs k b) :
    CanInsert s (fr.map (Loc.payload π)) (k.payload π) := by
  obtain ⟨d, hd, hb, -, hAddr, hLow, hSize, hHigh⟩ := h.layout.payload_bounds hUsed
  have hInside := h.layout.inside d hd
  refine ⟨by omega, by omega, fun x hx => ?_, h.layout.accessible hd (by omega) (by omega)
    (by omega), h.layout.accessible hd (by omega) (by omega) (by omega)⟩
  obtain ⟨l, hl, rfl⟩ := List.mem_map.mp hx
  obtain ⟨c, hc, f, hf, -, -, hFree, hAddr', -, hSize', -⟩ := h.layout.payload (h.freeLocs l hl)
  have hApart := h.layout.blocks_apart hd hc hb hf (by
    rintro ⟨rfl, rfl⟩
    rw [hUsed.1] at hFree
    cases hFree)
  unfold Apart at hApart ⊢
  omega

end Heap

/-- After two requests and a `free` the list has two nodes, and the payload that
is still held could be one more. -/
theorem free_list_sequence_sample : ∃ (c : Config) (xs : List Nat), xs.length = 2 ∧
    HoldsFree c.process xs ∧
    (∃ t, insertFreeBlock 8589934704 c.process = .ok ((), t) ∧ HoldsFree t (8589934704 :: xs) ∧
      Relinked (linksAround (8589934704 :: xs) 8589934704) c.process t) ∧
    ∀ bp ∈ xs, ∃ t, removeFreeBlock bp c.process = .ok ((), t) ∧
      HoldsFree t (xs.erase bp) ∧ Relinked (linksAround xs bp) c.process t := by
  obtain ⟨c, hReached, hLive⟩ := exists_sample 0
  obtain ⟨π, hSim⟩ := hReached.simulates
  have hHolds := hSim.rep.holdsFree
  have hTwo : (Ideal.run [.malloc 24, .malloc 100, .free 0]).heap.free.length = 2 := by decide
  obtain ⟨e, he, hAt⟩ := hSim.mem_live.mp (hLive ▸ List.mem_cons_self)
  obtain ⟨b, hUsed, -⟩ := hSim.inv.held e he
  have hNew := hSim.rep.canInsert hUsed
  rw [show e.loc.payload π = 8589934704 from congrArg Live.ptr hAt] at hNew
  obtain ⟨hInsert, hRemove, -⟩ := free_list_sequence hHolds
  exact ⟨c, _, (List.length_map _).trans hTwo, hHolds, hInsert _ hNew, hRemove⟩

end Malloc
