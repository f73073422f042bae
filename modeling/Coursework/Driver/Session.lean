import Coursework.Driver.Acceptance
import Coursework.Malloc.HeapSize
import Mathlib.Algebra.Order.Ring.Nat
import Mathlib.Data.Finset.Dedup

/-! What a trace makes of the ideal allocator, whatever the driver does beside its
requests. The evaluators of the driver carry out the same session. -/

namespace Mdriver

open Malloc

/-- Only a live id is given back or exchanged. For `a` there is nothing to find. -/
theorem TraceOp.Allowed.live {ids : Finset Nat} {op : TraceOp} (h : op.Allowed ids)
    (hType : op.type ≠ .alloc) : op.index ∈ ids := by
  by_contra hNot
  exact hType (h.index.mpr hNot)

/-- The ids and the sizes of the blocks that are held after an operation, the
newest first. -/
def TraceOp.heldAfter (held : List (Nat × Nat)) (op : TraceOp) : List (Nat × Nat) :=
  match op.type with
  | .alloc => (op.index, toSizeT op.size) :: held
  | .realloc => (op.index, toSizeT op.size) :: held.eraseP fun x => x.1 = op.index
  | .free => held.eraseP fun x => x.1 = op.index

/-- The bytes in use after each operation of a trace. -/
def totals (held : List (Nat × Nat)) : List TraceOp → List Nat
  | [] => []
  | op :: ops => ((op.heldAfter held).map Prod.snd).sum :: totals (op.heldAfter held) ops

/-- The ideal allocator under a trace, with the id that each of its leases is for. -/
structure Session where
  ideal : Ideal
  named : List (Nat × Lease)
deriving DecidableEq, Repr

namespace Session

def start : Session := ⟨Ideal.init, []⟩

def lease (x : Session) (i : Nat) : Option Lease :=
  (x.named.find? fun y => y.1 = i).map Prod.snd

def malloc (x : Session) (i n : Nat) : Session :=
  ⟨x.ideal.malloc n, (i, newLease x.ideal n) :: x.named⟩

def free (x : Session) (i : Nat) : Session :=
  ⟨((x.lease i).map x.ideal.release).getD x.ideal, x.named.eraseP fun y => y.1 = i⟩

/-- The old block is given back when the new one is there. -/
def realloc (x : Session) (i n : Nat) : Session :=
  ⟨((x.lease i).map (x.ideal.malloc n).release).getD (x.ideal.malloc n),
    (i, newLease x.ideal n) :: x.named.eraseP fun y => y.1 = i⟩

def step (x : Session) (op : TraceOp) : Session :=
  match op.type with
  | .alloc => x.malloc op.index (toSizeT op.size)
  | .realloc => x.realloc op.index (toSizeT op.size)
  | .free => x.free op.index

/-- The states after each operation of a trace. -/
def after (x : Session) : List TraceOp → List Session
  | [] => []
  | op :: ops => x.step op :: (x.step op).after ops

def held (x : Session) : List (Nat × Nat) := x.named.map fun y => (y.1, y.2.size)

/-- The sizes that were asked for. -/
def payloadBytes (x : Session) : Nat := (x.named.map fun y => y.2.size).sum

/-- The bytes of all chunks. -/
def heapBytes (x : Session) : Nat := (x.ideal.heap.chunks.map Chunk.size).sum

/-- The leases are those of the names, and no name is given twice. -/
structure Inv (x : Session) : Prop where
  ideal : x.ideal.Inv
  live : x.named.map Prod.snd = x.ideal.live
  names : (x.named.map Prod.fst).Nodup

def ids (x : Session) : Finset Nat := (x.named.map Prod.fst).toFinset

section Steps

variable {x : Session} {i n : Nat} {e : Lease}

theorem mem_ids : i ∈ x.ids ↔ ∃ e, (i, e) ∈ x.named := by
  simp [ids]

theorem inv_start : start.Inv := ⟨Ideal.inv_init, rfl, List.nodup_nil⟩

theorem Inv.eq_of_name (h : x.Inv) {y z : Nat × Lease} (hy : y ∈ x.named) (hz : z ∈ x.named)
    (hName : y.1 = z.1) : y = z :=
  List.inj_on_of_nodup_map h.names hy hz hName

theorem Inv.lease_eq (h : x.Inv) (he : (i, e) ∈ x.named) : x.lease i = some e := by
  have hFind : (x.named.find? fun y => y.1 = i) = some (i, e) :=
    List.find?_eq_some_of_unique he (decide_eq_true rfl) fun y hy hName =>
      h.eq_of_name hy he (of_decide_eq_true hName)
  rw [lease, hFind]
  rfl

/-- Taking out the first lease with a name takes out the only one. Different leases have
different names. -/
theorem Inv.eraseP_eq (h : x.Inv) (he : (i, e) ∈ x.named) :
    (x.named.eraseP fun y => y.1 = i) = x.named.erase (i, e) := by
  refine List.eraseP_eq_erase_of_unique fun y hy => ?_
  rw [decide_eq_true_eq]
  exact ⟨fun hName => h.eq_of_name hy he hName, fun hEq => hEq ▸ rfl⟩

theorem Inv.mem_live (h : x.Inv) (he : (i, e) ∈ x.named) : e ∈ x.ideal.live :=
  h.live ▸ List.mem_map.mpr ⟨_, he, rfl⟩

/-- The leases without the one of a name. -/
theorem Inv.live_erase (h : x.Inv) (he : (i, e) ∈ x.named) :
    (x.named.eraseP fun y => y.1 = i).map Prod.snd = x.ideal.live.erase e := by
  have hNodup : (x.named.map Prod.snd).Nodup := h.live ▸ h.ideal.locs.of_map
  rw [h.eraseP_eq he, ← h.live]
  exact List.map_erase_of_unique fun y hy hEq => List.inj_on_of_nodup_map hNodup hy he hEq

/-- A free of a held id releases its lease. Of an id that is not held it would do nothing,
which well-formed traces do not ask for. -/
theorem Inv.free_eq (h : x.Inv) (he : (i, e) ∈ x.named) :
    x.free i = ⟨x.ideal.release e, x.named.eraseP fun y => y.1 = i⟩ := by
  rw [Session.free, h.lease_eq he]
  rfl

/-- A realloc of a held id takes a new block before it gives back the old one, in the order of
the evaluators. -/
theorem Inv.realloc_eq (h : x.Inv) (he : (i, e) ∈ x.named) :
    x.realloc i n = ⟨(x.ideal.malloc n).release e,
      (i, newLease x.ideal n) :: x.named.eraseP fun y => y.1 = i⟩ := by
  rw [Session.realloc, h.lease_eq he]
  rfl

/-- Step lemma of `a`: a new id gets a lease of its own, and the names still match the
leases. -/
theorem Inv.malloc (h : x.Inv) (hn : 0 < n) (hi : i ∉ x.ids) : (x.malloc i n).Inv := by
  refine ⟨h.ideal.malloc n, ?_, ?_⟩
  · show newLease x.ideal n :: x.named.map Prod.snd = _
    rw [h.live]
    exact (live_malloc hn).symm
  · refine List.nodup_cons.mpr ⟨fun hIn => hi ?_, h.names⟩
    exact List.mem_toFinset.mpr hIn

/-- Step lemma of `f`: the lease of the id goes, and its name with it. -/
theorem Inv.free (h : x.Inv) (he : (i, e) ∈ x.named) : (x.free i).Inv := by
  rw [h.free_eq he]
  exact ⟨h.ideal.release (h.mem_live he), h.live_erase he,
    h.names.sublist ((List.eraseP_sublist).map _)⟩

/-- A new lease is none of the old ones. -/
theorem Inv.newLease_notMem (h : x.Inv) (hn : 0 < n) : newLease x.ideal n ∉ x.ideal.live := by
  have hNodup := (h.ideal.malloc n).locs.of_map
  rw [live_malloc hn, List.nodup_cons] at hNodup
  exact hNodup.1

/-- The new lease of a realloc is not the one that is given back, so it stays. -/
theorem Inv.live_realloc (h : x.Inv) (hn : 0 < n) (he : (i, e) ∈ x.named) :
    ((x.ideal.malloc n).release e).live = newLease x.ideal n :: x.ideal.live.erase e := by
  rw [Ideal.release, live_malloc hn, List.erase_cons_tail]
  rw [beq_iff_eq]
  rintro rfl
  exact h.newLease_notMem hn (h.mem_live he)

/-- Step lemma of `r`: the id keeps its name and changes its lease. The new lease is there
before the old one goes. -/
theorem Inv.realloc (h : x.Inv) (hn : 0 < n) (he : (i, e) ∈ x.named) : (x.realloc i n).Inv := by
  have hHeld : e ∈ (x.ideal.malloc n).live := by
    rw [live_malloc hn]
    exact List.mem_cons_of_mem _ (h.mem_live he)
  rw [h.realloc_eq he]
  refine ⟨(h.ideal.malloc n).release hHeld, ?_, List.nodup_cons.mpr ⟨fun hIn => ?_, ?_⟩⟩
  · show newLease x.ideal n :: (x.named.eraseP fun y => y.1 = i).map Prod.snd = _
    rw [h.live_erase he, h.live_realloc hn he]
  · obtain ⟨y, hy, hName⟩ := List.mem_map.mp hIn
    rw [h.eraseP_eq he] at hy
    have hNodup := h.names.of_map
    obtain ⟨hNe, hy⟩ := hNodup.mem_erase_iff.mp hy
    exact hNe (h.eq_of_name hy he hName)
  · exact h.names.sublist ((List.eraseP_sublist).map _)

end Steps

section Traces

variable {x : Session} {op : TraceOp} {i : Nat}

/-- What is known of a lease by its name is known of the list of names. -/
theorem names_eraseP (x : Session) (i : Nat) :
    (x.named.eraseP fun y => y.1 = i).map Prod.fst = (x.named.map Prod.fst).erase i := by
  rw [List.erase_eq_eraseP', List.eraseP_map]
  rfl

/-- Without its lease an id is not held any more, and all others are. -/
theorem Inv.ids_eraseP (h : x.Inv) (i : Nat) :
    ((x.named.eraseP fun y => y.1 = i).map Prod.fst).toFinset = x.ids.erase i := by
  ext j
  rw [names_eraseP, List.mem_toFinset, h.names.mem_erase_iff, Finset.mem_erase, ids,
    List.mem_toFinset]

theorem Inv.ids_free (h : x.Inv) (i : Nat) : (x.free i).ids = x.ids.erase i := h.ids_eraseP i

theorem Inv.ids_realloc (h : x.Inv) {n : Nat} (hi : i ∈ x.ids) : (x.realloc i n).ids = x.ids := by
  show (i :: _).toFinset = _
  rw [List.toFinset_cons, h.ids_eraseP, Finset.insert_erase hi]

/-- The ids that are held after an operation are those that well-formed traces reckon with. -/
theorem Inv.ids_step (h : x.Inv) (hOp : op.Allowed x.ids) :
    (x.step op).ids = op.idsAfter x.ids := by
  unfold Session.step TraceOp.idsAfter
  cases hType : op.type with
  | alloc => exact List.toFinset_cons
  | realloc => exact h.ids_realloc (hOp.live (by simp [hType]))
  | free => exact h.ids_free op.index

theorem held_eraseP (x : Session) (i : Nat) :
    (x.named.eraseP fun y => y.1 = i).map (fun y => (y.1, y.2.size)) =
      x.held.eraseP fun y => y.1 = i := by
  rw [held, List.eraseP_map]
  rfl

/-- The session holds what the trace says. The sizes are those of the requests, an `r` having
changed the one of its id. -/
theorem held_step (x : Session) (op : TraceOp) : (x.step op).held = op.heldAfter x.held := by
  unfold Session.step TraceOp.heldAfter
  cases op.type with
  | alloc => rfl
  | realloc =>
      rw [← held_eraseP]
      rfl
  | free => exact held_eraseP x op.index

/-- The bytes in use are the sum of the sizes that the ids are held with. The driver keeps the
same sum in a variable. -/
theorem payloadBytes_eq (x : Session) : x.payloadBytes = (x.held.map Prod.snd).sum := by
  rw [payloadBytes, held, List.map_map]
  rfl

/-- What is in use after each operation can be read from the trace, with no allocator at
all. -/
theorem totals_eq (x : Session) (ops : List TraceOp) :
    totals x.held ops = (x.after ops).map payloadBytes := by
  induction ops generalizing x with
  | nil => rfl
  | cons op ops ih =>
      rw [totals, after, List.map_cons, payloadBytes_eq, held_step, ← held_step, ih]

end Traces

end Session

/-- The allocator carries out the ideal one of the session, with the region `i` at
the address `π i`, and the driver remembers the payloads of the live ids. -/
structure Carries (π : Nat → Nat) (s : Process) (blocks : Nat → Nat) (x : Session) : Prop where
  rep : Rep π s x.ideal.heap.chunks x.ideal.heap.free
  inv : x.Inv
  blocks : ∀ y ∈ x.named, blocks y.1 = y.2.loc.payload π

section Requests

variable {π π' : Nat → Nat} {K : Kernel} {s t : Process} {blocks : Nat → Nat} {x : Session}
  {i n q : Nat} {e : Lease}

/-- The payloads that were there before stay where they are. An operation touches one id. -/
theorem Carries.blocks_eq (h : Carries π s blocks x) (hServed : Served π π' s t x.ideal.heap n q)
    {y : Nat × Lease} (hy : y ∈ x.named) : blocks y.1 = y.2.loc.payload π' := by
  rw [h.blocks y hy, h.inv.ideal.payload_eq hServed.bases (h.inv.mem_live hy)]

/-- `mm_malloc` for an id that is not live. -/
theorem Carries.malloc (h : Carries π s blocks x) (hn : 0 < n) (hi : i ∉ x.ids)
    (hServed : Served π π' s t x.ideal.heap n q) :
    Carries π' t (Function.update blocks i q) (x.malloc i n) := by
  refine ⟨?_, h.inv.malloc hn hi, List.forall_mem_cons.mpr ⟨?_, fun y hy => ?_⟩⟩
  · have hRep := hServed.rep
    rwa [← heap_malloc hn] at hRep
  · rw [Function.update_self, hServed.result]
    rfl
  · have hNe : y.1 ≠ i := by
      rintro rfl
      exact hi (Session.mem_ids.mpr ⟨y.2, hy⟩)
    rw [Function.update_of_ne hNe, h.blocks_eq hServed hy]

/-- `mm_free` of the block of a live id. -/
theorem Carries.free (h : Carries π s blocks x) (hi : i ∈ x.ids) :
    (mmFree (blocks i)).Returns s fun _ t => Carries π t blocks (x.free i) := by
  obtain ⟨e, he⟩ := Session.mem_ids.mp hi
  obtain ⟨b, hUsed, -⟩ := h.inv.ideal.held e (h.inv.mem_live he)
  have hFree := mmFree_returns h.rep h.inv.ideal.wf.toTidy hUsed
  rw [← h.blocks _ he] at hFree
  refine hFree.mono (fun _ t hFreed => ⟨?_, h.inv.free he, fun y hy => ?_⟩) fun _ hNo => hNo
  · rw [h.inv.free_eq he]
    exact hFreed.rep
  · exact h.blocks y (List.mem_of_mem_eraseP hy)

/-- `mm_free` of the old block of a live id, when there is a new one for it. -/
theorem Carries.realloc (h : Carries π s blocks x) (hn : 0 < n) (hi : i ∈ x.ids)
    (hServed : Served π π' s t x.ideal.heap n q) :
    (mmFree (blocks i)).Returns t fun _ u =>
      Carries π' u (Function.update blocks i q) (x.realloc i n) := by
  obtain ⟨e, he⟩ := Session.mem_ids.mp hi
  have hInv := h.inv.ideal.malloc n
  have hHeld : e ∈ (x.ideal.malloc n).live := by
    rw [live_malloc hn]
    exact List.mem_cons_of_mem _ (h.inv.mem_live he)
  have hRep := hServed.rep
  rw [← heap_malloc hn] at hRep
  obtain ⟨b, hUsed, -⟩ := hInv.held e hHeld
  have hFree := mmFree_returns hRep hInv.wf.toTidy hUsed
  rw [← h.blocks_eq hServed he] at hFree
  refine hFree.mono (fun _ u hFreed => ⟨?_, h.inv.realloc hn he, ?_⟩) fun _ hNo => hNo
  · rw [h.inv.realloc_eq he]
    exact hFreed.rep
  · refine List.forall_mem_cons.mpr ⟨?_, fun y hy => ?_⟩
    · rw [Function.update_self, hServed.result]
      rfl
    · have hNe : y.1 ≠ i := by
        rintro rfl
        have hName := List.mem_map_of_mem (f := Prod.fst) hy
        rw [Session.names_eraseP, h.inv.names.mem_erase_iff] at hName
        exact hName.1 rfl
      rw [Function.update_of_ne hNe, h.blocks_eq hServed (List.mem_of_mem_eraseP hy)]

end Requests

end Mdriver
