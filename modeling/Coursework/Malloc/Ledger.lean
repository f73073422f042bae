import Coursework.Malloc.Ideal
import Coursework.Malloc.Layout

/-! Numbering the regions of a record of `memlib.c` calls in the order in which
they were mapped. -/

namespace Malloc

/-- A region that is mapped. -/
structure Mapping where
  number : Nat
  base : Nat
  size : Nat
deriving DecidableEq, Repr

/-- What a record of calls says about regions. -/
structure Ledger where
  count : Nat
  /-- The regions that are mapped, the newest first. -/
  mapped : List Mapping
  calls : List RegionCall
deriving DecidableEq, Repr

namespace Ledger

/-- The number of the region that starts at `p`. -/
def number (L : Ledger) (p : Nat) : Option Nat :=
  (L.mapped.find? fun r => r.base = p).map Mapping.number

/-- The region around `p` and the offset of `p` in it. -/
def locate (L : Ledger) (p : Nat) : Option Loc :=
  (L.mapped.find? fun r => r.base ≤ p ∧ p < r.base + r.size).map fun r => ⟨r.number, p - r.base⟩

def record (L : Ledger) : MemCall → Ledger
  | .map p sz =>
      { count := L.count + 1
        mapped := ⟨L.count, p, sz⟩ :: L.mapped
        calls := L.calls ++ [.map L.count sz] }
  | .unmap p sz =>
      { L with
        mapped := L.mapped.filter fun r => r.base ≠ p
        calls := L.calls ++ [.unmap (L.number p) sz] }

end Ledger

def ledger (calls : List MemCall) : Ledger := calls.foldl Ledger.record ⟨0, [], []⟩

/-- What is on record of calls is found by going on from what is on record of the first of
them. -/
theorem ledger_append (calls more : List MemCall) :
    ledger (calls ++ more) = more.foldl Ledger.record (ledger calls) := List.foldl_append

/-- A mapped region comes from a call of `mem_map` after which its address was
not unmapped. -/
theorem Ledger.exists_map (calls : List MemCall) : ∀ r ∈ (ledger calls).mapped,
    ∃ pre post, calls = pre ++ .map r.base r.size :: post ∧ ∀ n, .unmap r.base n ∉ post := by
  induction calls using List.reverseRecOn with
  | nil => nofun
  | append_singleton calls call ih =>
      intro r hr
      rw [ledger_append, List.foldl_cons, List.foldl_nil] at hr
      have hLater : r ∈ (ledger calls).mapped → (∀ n, call ≠ .unmap r.base n) →
          ∃ pre post, calls ++ [call] = pre ++ .map r.base r.size :: post ∧
            ∀ n, .unmap r.base n ∉ post := by
        intro hOld hOther
        obtain ⟨pre, post, rfl, hNone⟩ := ih r hOld
        refine ⟨pre, post ++ [call], by simp, fun n hIn => ?_⟩
        rcases List.mem_append.mp hIn with hIn | hIn
        · exact hNone n hIn
        · exact hOther n (List.mem_singleton.mp hIn).symm
      cases call with
      | map p sz =>
          rcases List.mem_cons.mp hr with rfl | hOld
          · exact ⟨calls, [], rfl, nofun⟩
          · exact hLater hOld nofun
      | unmap p sz =>
          obtain ⟨hOld, hBase⟩ := List.mem_filter.mp hr
          refine hLater hOld fun n hEq => ?_
          obtain ⟨rfl, -⟩ := MemCall.unmap.inj hEq
          simp at hBase

section Chunks

variable {π : Nat → Nat} {os : OS} {cs gone : List Chunk} {c : Chunk} {L : Ledger}

/-- The region of a chunk. -/
def Chunk.mapping (π : Nat → Nat) (c : Chunk) : Mapping := ⟨c.id, π c.id, c.size⟩

/-- The record knows a region by its base, as long as no two regions that are mapped share
one. -/
theorem Ledger.number_eq (hInj : ∀ c ∈ cs, ∀ d ∈ cs, π c.id = π d.id → c = d)
    (hMapped : L.mapped = cs.map (Chunk.mapping π)) (hc : c ∈ cs) :
    L.number (π c.id) = some c.id := by
  have hFind : L.mapped.find? (fun r => r.base = π c.id) = some (c.mapping π) := by
    rw [hMapped]
    refine List.find?_eq_some_of_unique (List.mem_map_of_mem hc) (decide_eq_true rfl) ?_
    intro r hr hBase
    obtain ⟨d, hd, rfl⟩ := List.mem_map.mp hr
    rw [hInj d hd c hc (of_decide_eq_true hBase)]
  rw [Ledger.number, hFind]
  rfl

/-- An address in a chunk is located in the region of the chunk, as no other chunk has it. -/
theorem Layout.locate_eq (h : Layout π os cs) (hMapped : L.mapped = cs.map (Chunk.mapping π))
    (hc : c ∈ cs) {x : Nat} (hLow : π c.id ≤ x) (hHigh : x < π c.id + c.size) :
    L.locate x = some ⟨c.id, x - π c.id⟩ := by
  have hFind : L.mapped.find? (fun r => r.base ≤ x ∧ x < r.base + r.size) = some (c.mapping π) := by
    rw [hMapped]
    refine List.find?_eq_some_of_unique (List.mem_map_of_mem hc) (decide_eq_true ⟨hLow, hHigh⟩)
      fun r hr hIn => ?_
    obtain ⟨d, hd, rfl⟩ := List.mem_map.mp hr
    have hIn : π d.id ≤ x ∧ x < π d.id + d.size := of_decide_eq_true hIn
    by_contra hNe
    have hApart := h.apart d hd c hc fun hEq => hNe (by rw [hEq])
    unfold Bytes.Apart at hApart
    omega
  rw [Ledger.locate, hFind]
  rfl

/-- The payload of a used block is located where the ideal allocator places it. Answers are
compared across processes in this form. -/
theorem Layout.locate_payload {l : Loc} {b : Block} (h : Layout π os cs)
    (hMapped : L.mapped = cs.map (Chunk.mapping π)) (hUsed : UsedAt cs l b) :
    L.locate (l.payload π) = some (Ideal.answer l) := by
  obtain ⟨d, hd, -, rfl, hAddr, hBounds⟩ := h.payload_bounds hUsed
  have hOff : π d.id + b.off + 16 - π d.id = b.off + 16 := by omega
  rw [h.locate_eq hMapped hd (by omega) (by omega), hAddr, hOff, Ideal.answer]

/-- The record after some chunks were unmapped: each call is found under the number of its
region. -/
theorem Ledger.record_unmaps (hInj : ∀ c ∈ cs, ∀ d ∈ cs, π c.id = π d.id → c = d)
    (hMapped : L.mapped = cs.map (Chunk.mapping π)) (hGone : gone ⊆ cs) (hNodup : gone.Nodup) :
    (gone.map fun c => MemCall.unmap (π c.id) c.size).foldl Ledger.record L =
      { count := L.count
        mapped := (cs.filter fun c => c ∉ gone).map (Chunk.mapping π)
        calls := L.calls ++ gone.map fun c => .unmap (some c.id) c.size } := by
  induction gone generalizing cs L with
  | nil =>
      obtain ⟨count, mapped, calls⟩ := L
      simp_all
  | cons c gone ih =>
      obtain ⟨hNew, hNodup⟩ := List.nodup_cons.mp hNodup
      have hc : c ∈ cs := hGone (by simp)
      have hKept : (L.record (.unmap (π c.id) c.size)).mapped =
          (cs.filter fun d => d ≠ c).map (Chunk.mapping π) := by
        show L.mapped.filter (fun r => r.base ≠ π c.id) = _
        rw [hMapped, List.filter_map]
        refine congrArg _ (List.filter_congr fun d hd => decide_eq_decide.mpr (not_congr ?_))
        exact ⟨fun hBase => hInj d hd c hc hBase, fun hEq => by rw [hEq]; rfl⟩
      rw [List.map_cons, List.foldl_cons,
        ih (fun a ha b hb => hInj a (List.mem_of_mem_filter ha) b (List.mem_of_mem_filter hb)) hKept
          (fun d hd => List.mem_filter.mpr ⟨hGone (by simp [hd]), by
            rw [decide_eq_true_eq]
            rintro rfl
            exact hNew hd⟩) hNodup]
      have hCalls : (L.record (.unmap (π c.id) c.size)).calls =
          L.calls ++ [.unmap (some c.id) c.size] := by
        rw [Ledger.record, Ledger.number_eq hInj hMapped hc]
      have hFilter : ((cs.filter fun d => d ≠ c).filter fun d => d ∉ gone) =
          cs.filter fun d => d ∉ c :: gone := by
        rw [List.filter_filter]
        refine List.filter_congr fun d _ => ?_
        simp only [List.mem_cons, not_or, ne_eq, decide_not, Bool.decide_and]
        rw [Bool.and_comm]
      rw [hCalls, hFilter, List.append_assoc, List.map_cons]
      rfl

end Chunks

end Malloc
