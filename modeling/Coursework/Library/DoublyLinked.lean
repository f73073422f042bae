import Mathlib.Data.List.Nodup
import Mathlib.Logic.Function.Basic
import Mathlib.Tactic.Common

/-! Doubly linked lists that end in a null pointer, seen as rings: the null
pointer is one more node, whose successor is the head of the list and whose
predecessor is its last node. Inserting at the head and removing a node at
any position are then one pattern each, without a case for either end. -/

namespace DoublyLinked

variable {α : Type}

/-- Neighbours in the list are linked both ways. -/
def Linked (next prev : α → α) : List α → Prop
  | a :: b :: rest => next a = b ∧ prev b = a ∧ Linked next prev (b :: rest)
  | _ => True

section Linked

variable {next prev next' prev' : α → α}

/-- The links of a list are those of two parts that share a node. -/
theorem linked_append (left : List α) (a : α) (right : List α) :
    Linked next prev (left ++ a :: right) ↔
      Linked next prev (left ++ [a]) ∧ Linked next prev (a :: right) := by
  induction left with
  | nil => simp [Linked]
  | cons x left ih =>
      cases left with
      | nil => simp [Linked, and_assoc]
      | cons y left =>
          simp only [List.cons_append, Linked] at ih ⊢
          rw [ih]
          simp only [and_assoc]

/-- Links depend on the successors of all nodes but the last, and on the predecessors of all
but the first. -/
theorem Linked.congr {xs : List α} (h : Linked next prev xs)
    (hNext : ∀ x ∈ xs.dropLast, next' x = next x) (hPrev : ∀ x ∈ xs.tail, prev' x = prev x) :
    Linked next' prev' xs := by
  induction xs with
  | nil => trivial
  | cons a xs ih =>
      cases xs with
      | nil => trivial
      | cons b rest =>
          obtain ⟨hab, hba, hRest⟩ := h
          refine ⟨?_, ?_, ih hRest ?_ ?_⟩
          · rw [hNext a (by simp), hab]
          · rw [hPrev b (by simp), hba]
          · intro x hx
            exact hNext x (by simp [hx])
          · intro x hx
            exact hPrev x (by simp_all)

end Linked

/-- The pointer `p` starts a null-terminated chain through `xs`. -/
def Trail (null : α) (next : α → α) : α → List α → Prop
  | p, [] => p = null
  | p, x :: xs => p = x ∧ x ≠ null ∧ Trail null next (next x) xs

/-- The predecessor of every node in `xs` is the node before it, and `p` for the first. -/
def Back (prev : α → α) : α → List α → Prop
  | _, [] => True
  | p, x :: xs => prev x = p ∧ Back prev x xs

/-- A chain from `p` visits one list only. What a loop over it sees is thus determined by the
links. -/
theorem Trail.unique {null : α} {next : α → α} {p : α} {xs ys : List α} (h : Trail null next p xs)
    (h' : Trail null next p ys) : xs = ys := by
  induction xs generalizing p ys with
  | nil =>
      cases ys with
      | nil => rfl
      | cons y ys => exact absurd (h'.1.symm.trans h) h'.2.1
  | cons x xs ih =>
      cases ys with
      | nil => exact absurd (h.1.symm.trans h') h.2.1
      | cons y ys =>
          obtain ⟨rfl, -, hRest⟩ := h
          obtain ⟨rfl, -, hRest'⟩ := h'
          rw [ih hRest hRest']

/-- A chain depends only on the successors of its nodes. Links of other nodes may change. -/
theorem Trail.congr {null : α} {next next' : α → α} {p : α} {xs : List α}
    (h : Trail null next p xs) (hNext : ∀ x ∈ xs, next' x = next x) : Trail null next' p xs := by
  induction xs generalizing p with
  | nil => exact h
  | cons x xs ih =>
      obtain ⟨hp, hx, hRest⟩ := h
      refine ⟨hp, hx, ?_⟩
      rw [hNext x (by simp)]
      exact ih hRest fun y hy => hNext y (by simp [hy])

/-- The backward links depend only on the predecessors of the nodes. -/
theorem Back.congr {prev prev' : α → α} {p : α} {xs : List α} (h : Back prev p xs)
    (hPrev : ∀ x ∈ xs, prev' x = prev x) : Back prev' p xs := by
  induction xs generalizing p with
  | nil => trivial
  | cons x xs ih =>
      obtain ⟨hp, hRest⟩ := h
      exact ⟨(hPrev x (by simp)).trans hp, ih hRest fun y hy => hPrev y (by simp [hy])⟩

theorem Trail.ne_null {null : α} {next : α → α} {p : α} {xs : List α} (h : Trail null next p xs) :
    ∀ x ∈ xs, x ≠ null := by
  induction xs generalizing p with
  | nil => nofun
  | cons x xs ih =>
      obtain ⟨-, hx, hRest⟩ := h
      exact List.forall_mem_cons.mpr ⟨hx, ih hRest⟩

/-- A chain leads to each of its nodes through the nodes before it, which is the state of a
loop at that node. -/
theorem Trail.to_node {null : α} {next : α → α} {p x : α} {left right : List α}
    (h : Trail null next p (left ++ x :: right)) (hx : x ∉ left) : Trail x next p left := by
  induction left generalizing p with
  | nil => exact h.1
  | cons y left ih =>
      obtain ⟨hp, -, hRest⟩ := h
      obtain ⟨hxy, hx⟩ := List.ne_and_not_mem_of_not_mem_cons hx
      exact ⟨hp, Ne.symm hxy, ih hRest hx⟩

theorem Back.last {prev : α → α} {p x : α} {left right : List α}
    (h : Back prev p (left ++ x :: right)) : prev x = left.getLastD p := by
  induction left generalizing p with
  | nil => exact h.1
  | cons y left ih =>
      rw [ih h.2]
      cases left <;> rfl

/-- A chain that leads back to where it came from is linked both ways, node by node. -/
theorem Trail.linked {null : α} {next prev : α → α} {a : α} {xs : List α}
    (h : Trail null next (next a) xs) (hBack : Back prev a xs)
    (hLast : prev null = xs.getLastD a) : Linked next prev (a :: xs ++ [null]) := by
  induction xs generalizing a with
  | nil => exact ⟨h, hLast, trivial⟩
  | cons y xs ih =>
      obtain ⟨hay, -, hRest⟩ := h
      refine ⟨hay, hBack.1, ih hRest hBack.2 ?_⟩
      rw [hLast]
      cases xs <;> rfl

/-- `xs` is the doubly linked list whose head is `next null`. -/
structure LinkRing (null : α) (next prev : α → α) (xs : List α) : Prop where
  nodup : (null :: xs).Nodup
  linked : Linked next prev (null :: xs ++ [null])

namespace LinkRing

variable {null : α} {next prev next' prev' : α → α} {xs : List α}

/-- In the ring of an empty list the null pointer is its own neighbour. -/
theorem empty_iff : LinkRing null next prev [] ↔ next null = null ∧ prev null = null := by
  constructor
  · intro h
    exact ⟨h.linked.1, h.linked.2.1⟩
  · intro h
    exact ⟨by simp, h.1, h.2, trivial⟩

theorem not_mem_null (h : LinkRing null next prev xs) : null ∉ xs :=
  (List.nodup_cons.mp h.nodup).1

theorem nodup_list (h : LinkRing null next prev xs) : xs.Nodup :=
  (List.nodup_cons.mp h.nodup).2

/-- A node is not the end of the list. -/
theorem ne_null (h : LinkRing null next prev xs) {x : α} (hx : x ∈ xs) : x ≠ null := by
  rintro rfl
  exact h.not_mem_null hx

/-- The ring depends only on the links of its nodes, the null pointer being one of them. -/
theorem congr (h : LinkRing null next prev xs) (hNext : ∀ x ∈ null :: xs, next' x = next x)
    (hPrev : ∀ x ∈ null :: xs, prev' x = prev x) : LinkRing null next' prev' xs := by
  refine ⟨h.nodup, h.linked.congr (fun x hx => hNext x ?_) (fun x hx => hPrev x ?_)⟩
  · rw [List.dropLast_concat] at hx
    exact hx
  · rw [List.cons_append, List.tail_cons, List.mem_append, List.mem_singleton] at hx
    exact List.mem_cons.mpr hx.symm

/-- The list cut around a member: the ring continues on both sides of it,
from its predecessor backwards and from its successor onwards. -/
theorem split (h : LinkRing null next prev xs) {x : α} (hx : x ∈ xs) :
    ∃ l r left a b right, xs = l ++ x :: r ∧ x ∉ l ∧
      null :: l = left ++ [a] ∧ r ++ [null] = b :: right ∧
      Linked next prev (left ++ [a]) ∧ Linked next prev (b :: right) ∧
      next a = x ∧ prev x = a ∧ next x = b ∧ prev b = x := by
  obtain ⟨l, r, rfl, hFresh⟩ := List.eq_append_cons_of_mem hx
  obtain ⟨left, a, hLeft⟩ : ∃ left a, null :: l = left ++ [a] :=
    ⟨_, _, (List.dropLast_append_getLast (List.cons_ne_nil null l)).symm⟩
  obtain ⟨b, right, hRight⟩ : ∃ b right, r ++ [null] = b :: right :=
    List.exists_cons_of_ne_nil (by simp)
  have hList : null :: (l ++ x :: r) ++ [null] = left ++ a :: x :: b :: right := by
    calc
      null :: (l ++ x :: r) ++ [null] = (null :: l) ++ x :: (r ++ [null]) := by simp
      _ = left ++ a :: x :: b :: right := by rw [hLeft, hRight]; simp
  have hLinked := h.linked
  rw [hList, linked_append] at hLinked
  obtain ⟨hBefore, hax, hxa, hxb, hbx, hAfter⟩ := hLinked
  exact ⟨l, r, left, a, b, right, rfl, hFresh, hLeft, hRight, hBefore, hAfter, hax, hxa, hxb, hbx⟩

/-- The link of a node leads to a node, or to the end. So a walk never leaves the ring. -/
theorem next_mem (h : LinkRing null next prev xs) {x : α} (hx : x ∈ xs) : next x ∈ null :: xs := by
  obtain ⟨l, r, left, a, b, right, rfl, -, -, hRight, -, -, -, -, hb, -⟩ := h.split hx
  have hMem : b ∈ r ++ [null] := by simp [hRight]
  rw [hb]
  rcases List.mem_append.mp hMem with hIn | hIn
  · simp [hIn]
  · simp [List.mem_singleton.mp hIn]

/-- The same of the link back. -/
theorem prev_mem (h : LinkRing null next prev xs) {x : α} (hx : x ∈ xs) : prev x ∈ null :: xs := by
  obtain ⟨l, r, left, a, b, right, rfl, -, hLeft, -, -, -, -, ha, -, -⟩ := h.split hx
  have hMem : a ∈ null :: l := by simp [hLeft]
  rw [ha]
  rcases List.mem_cons.mp hMem with hIn | hIn
  · simp [hIn]
  · simp [hIn]

/-- No node is linked to itself, as the nodes differ. -/
theorem next_ne (h : LinkRing null next prev xs) {x : α} (hx : x ∈ xs) : next x ≠ x := by
  obtain ⟨l, r, left, a, b, right, rfl, -, -, hRight, -, -, -, -, hb, -⟩ := h.split hx
  have hMem : b ∈ r ++ [null] := by simp [hRight]
  rw [hb]
  rintro rfl
  rcases List.mem_append.mp hMem with hIn | hIn
  · have hNodup := h.nodup_list.of_append_right
    exact (List.nodup_cons.mp hNodup).1 hIn
  · exact h.ne_null hx (List.mem_singleton.mp hIn)

theorem prev_ne (h : LinkRing null next prev xs) {x : α} (hx : x ∈ xs) : prev x ≠ x := by
  obtain ⟨l, r, left, a, b, right, rfl, hFresh, hLeft, -, -, -, -, ha, -, -⟩ := h.split hx
  have hMem : a ∈ null :: l := by simp [hLeft]
  rw [ha]
  rintro rfl
  rcases List.mem_cons.mp hMem with hIn | hIn
  · exact h.ne_null hx hIn
  · exact hFresh hIn

theorem head_mem (h : LinkRing null next prev xs) : next null ∈ null :: xs := by
  cases xs with
  | nil => simp [(empty_iff.mp h).1]
  | cons x xs =>
      rw [h.linked.1]
      simp

/-- The head pointer is the first node, or the null pointer when there is none. -/
theorem next_null (h : LinkRing null next prev xs) : next null = xs.headD null := by
  cases xs with
  | nil => exact (empty_iff.mp h).1
  | cons x xs => exact h.linked.1

/-- The successor of a member is the first of those after it, or the null pointer. -/
theorem next_eq {left right : List α} {x : α} (h : LinkRing null next prev (left ++ x :: right)) :
    next x = right.headD null := by
  have hSplit : null :: (left ++ x :: right) ++ [null] =
      (null :: left) ++ x :: (right ++ [null]) := by simp
  have hLinked := h.linked
  rw [hSplit, linked_append] at hLinked
  cases right with
  | nil => exact hLinked.2.1
  | cons y right => exact hLinked.2.1

/-- Following the successors from the head visits the list and then ends. No node is visited
twice. -/
theorem trail (h : LinkRing null next prev xs) : Trail null next (next null) xs := by
  have hWalk : ∀ (ys : List α) (a : α), null ∉ ys → Linked next prev (a :: ys ++ [null]) →
      Trail null next (next a) ys := by
    intro ys
    induction ys with
    | nil =>
        intro a _ hLinked
        exact hLinked.1
    | cons y ys ih =>
        intro a hNull hLinked
        obtain ⟨hay, -, hRest⟩ := hLinked
        have hy : y ≠ null := by
          rintro rfl
          simp at hNull
        exact ⟨hay, hy, ih y (fun hIn => hNull (by simp [hIn])) hRest⟩
  exact hWalk xs null h.not_mem_null h.linked

/-- The predecessors lead back through the list, to the null pointer before the first. -/
theorem back (h : LinkRing null next prev xs) : Back prev null xs := by
  have hWalk : ∀ (ys : List α) (a : α), Linked next prev (a :: ys ++ [null]) → Back prev a ys := by
    intro ys
    induction ys with
    | nil => exact fun _ _ => trivial
    | cons y ys ih =>
        intro a hLinked
        obtain ⟨-, hya, hRest⟩ := hLinked
        exact ⟨hya, ih y hRest⟩
  exact hWalk xs null h.linked

/-- The predecessor of a member is the last of those before it, or the null pointer. -/
theorem prev_eq {left right : List α} {x : α} (h : LinkRing null next prev (left ++ x :: right)) :
    prev x = left.getLastD null := h.back.last

/-- A list of different nodes is a ring when it is linked in both directions. This builds a
ring from what two loops have seen. -/
theorem of_trail (h : Trail null next (next null) xs) (hBack : Back prev null xs)
    (hLast : prev null = xs.getLastD null) (hNodup : xs.Nodup) : LinkRing null next prev xs :=
  ⟨List.nodup_cons.mpr ⟨fun hNull => h.ne_null null hNull rfl, hNodup⟩, h.linked hBack hLast⟩

variable [DecidableEq α]

/-- Insertion of a fresh node before the head. It takes four links, and the head is linked back
even when it is the null pointer. -/
theorem push (h : LinkRing null next prev xs) {x : α} (hx : x ∉ null :: xs) :
    LinkRing null (Function.update (Function.update next x (next null)) null x)
      (Function.update (Function.update prev (next null) x) x null) (x :: xs) := by
  have hNull : x ≠ null := fun he => hx (by simp [he])
  have hNew : x ∉ xs := fun hIn => hx (by simp [hIn])
  obtain ⟨b, right, hRight⟩ : ∃ b right, xs ++ [null] = b :: right :=
    List.exists_cons_of_ne_nil (by simp)
  have hLinked : Linked next prev (null :: b :: right) := by
    have := h.linked
    rwa [List.cons_append, hRight] at this
  obtain ⟨hHead, hBack, hRest⟩ := hLinked
  have hb : b ∈ xs ++ [null] := by simp [hRight]
  have hxb : x ≠ b := by
    rintro rfl
    simp [hNew, hNull] at hb
  have hNodup : (b :: right).Nodup := by
    rw [← hRight]
    have hNodup : ([null] ++ xs).Nodup := h.nodup
    exact List.nodup_append_comm.mp hNodup
  refine ⟨?_, ?_⟩
  · rw [List.nodup_cons, List.nodup_cons, List.mem_cons, not_or]
    exact ⟨⟨hNull.symm, h.not_mem_null⟩, hNew, h.nodup_list⟩
  · rw [List.cons_append, List.cons_append, hRight, hHead]
    refine ⟨by simp, by simp, by simp [Function.update_of_ne hNull],
      by simp [Function.update_of_ne hxb.symm], hRest.congr ?_ ?_⟩
    · intro u hu
      rw [← hRight, List.dropLast_concat] at hu
      have hux : u ≠ x := fun he => hNew (he ▸ hu)
      rw [Function.update_of_ne (h.ne_null hu), Function.update_of_ne hux]
    · intro u hu
      have huRight : u ∈ right := hu
      have hub : u ≠ b := fun he => (List.nodup_cons.mp hNodup).1 (he ▸ huRight)
      have huList : u ∈ xs ++ [null] := by simp [hRight, huRight]
      have hux : u ≠ x := by
        rintro rfl
        simp [hNew, hNull] at huList
      rw [Function.update_of_ne hux, Function.update_of_ne hub]

/-- Removal of a node at any position joins its two neighbours. Either of them may be the null
pointer, without a case for it. -/
theorem remove [BEq α] [LawfulBEq α] (h : LinkRing null next prev xs) {x : α} (hx : x ∈ xs) :
    LinkRing null (Function.update next (prev x) (next x))
      (Function.update prev (next x) (prev x)) (xs.erase x) := by
  obtain ⟨l, r, left, a, b, right, rfl, hFresh, hLeft, hRight, hBefore, hAfter, -, hxa, hxb, -⟩ :=
    h.split hx
  have hErase : (l ++ x :: r).erase x = l ++ r := by
    rw [List.erase_append_right _ hFresh, List.erase_cons_head]
  have hNodup : (null :: l ++ x :: r).Nodup := h.nodup
  have hNodupRest : ((null :: l) ++ r).Nodup := by
    have hSub : ((null :: l) ++ r).Sublist ((null :: l) ++ x :: r) :=
      List.Sublist.append (List.Sublist.refl _) (List.sublist_cons_self x r)
    exact hNodup.sublist hSub
  have hDisjoint : ∀ u ∈ null :: l, u ∉ r := by
    intro u hu hr
    exact List.disjoint_of_nodup_append hNodupRest hu hr
  have haMem : a ∈ null :: l := by simp [hLeft]
  have hLeftNodup : (left ++ [a]).Nodup := by
    rw [← hLeft]
    exact hNodupRest.of_append_left
  have hRightNodup : (b :: right).Nodup := by
    rw [← hRight]
    have hSub : ([null] ++ r).Sublist (null :: l ++ r) :=
      List.Sublist.cons_cons null (List.sublist_append_right l r)
    exact List.nodup_append_comm.mp (hNodupRest.sublist hSub)
  rw [hErase]
  refine ⟨hNodupRest, ?_⟩
  have hJoined : null :: (l ++ r) ++ [null] = left ++ a :: b :: right := by
    calc
      null :: (l ++ r) ++ [null] = (null :: l) ++ (r ++ [null]) := by simp
      _ = left ++ a :: b :: right := by rw [hLeft, hRight]; simp
  rw [hJoined, linked_append, hxa, hxb]
  refine ⟨hBefore.congr ?_ ?_, by simp, by simp, hAfter.congr ?_ ?_⟩
  · intro u hu
    rw [List.dropLast_concat] at hu
    have hua : u ≠ a := by
      rintro rfl
      exact List.disjoint_of_nodup_append hLeftNodup hu (by simp)
    rw [Function.update_of_ne hua]
  · intro u hu
    rw [← hLeft, List.tail_cons] at hu
    have hub : u ≠ b := by
      rintro rfl
      have hbMem : u ∈ r ++ [null] := by simp [hRight]
      rcases List.mem_append.mp hbMem with hIn | hIn
      · exact hDisjoint u (by simp [hu]) hIn
      · rw [List.mem_singleton] at hIn
        subst hIn
        exact (List.nodup_cons.mp hNodupRest).1 (by simp [hu])
    rw [Function.update_of_ne hub]
  · intro u hu
    rw [← hRight, List.dropLast_concat] at hu
    have hua : u ≠ a := by
      rintro rfl
      exact hDisjoint u haMem hu
    rw [Function.update_of_ne hua]
  · intro u hu
    have huRight : u ∈ right := hu
    have hub : u ≠ b := fun he => (List.nodup_cons.mp hRightNodup).1 (he ▸ huRight)
    rw [Function.update_of_ne hub]

end LinkRing

end DoublyLinked
