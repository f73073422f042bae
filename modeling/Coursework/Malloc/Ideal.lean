import Coursework.Malloc.HeapInvariant

/-! The allocator as a function of the requests alone. What it answers to a
request is a place: the number of a region and an offset in it. -/

namespace Malloc

open Tiling

/-- What a client asks for. `free k` is `mm_free` of what the `k`-th call of
`mm_malloc` returned, counted from zero. -/
inductive Request where
  | malloc (size : Nat)
  | free (ticket : Nat)
  | freeNull
deriving DecidableEq, Repr

/-- A call to `memlib.c` with the number of the region instead of its address;
`none` is an address where no region starts. -/
inductive RegionCall where
  | map (region size : Nat)
  | unmap (region : Option Nat) (size : Nat)
deriving DecidableEq, Repr

/-- The region and the size of a call that maps, and of one that unmaps. -/
def RegionCall.mapped : RegionCall → Option (Option Nat × Nat)
  | .map region size => some (some region, size)
  | .unmap _ _ => none

def RegionCall.unmapped : RegionCall → Option (Option Nat × Nat)
  | .map _ _ => none
  | .unmap region size => some (region, size)

/-- A block that a client holds, with the number of the call that returned it. -/
structure Lease where
  ticket : Nat
  loc : Loc
  size : Nat
deriving DecidableEq, Repr

structure Ideal where
  heap : Heap
  live : List Lease
  /-- What the calls of `mm_malloc` returned so far, the payload as a place. -/
  answers : List (Option Loc)
  calls : List RegionCall
deriving DecidableEq, Repr

namespace Ideal

def init : Ideal := ⟨⟨[], [], 0⟩, [], [], []⟩

/-- The start of the payload of the block at `l`. -/
def answer (l : Loc) : Loc := ⟨l.chunk, l.off + 16⟩

def malloc (a : Ideal) (size : Nat) : Ideal :=
  if size = 0 then { a with answers := a.answers ++ [none] }
  else
    { heap := (a.heap.malloc size).2
      live := ⟨a.answers.length, (a.heap.malloc size).1, size⟩ :: a.live
      answers := a.answers ++ [some (answer (a.heap.malloc size).1)]
      calls := a.calls ++
        if (a.heap.fit size).isNone then [.map a.heap.regions (regionSize size)] else [] }

def release (a : Ideal) (e : Lease) : Ideal :=
  { a with
    heap := a.heap.freeAt e.loc
    live := a.live.erase e
    calls := a.calls ++ (a.heap.giveBack e.loc).swept.map fun c => .unmap (some c.id) c.size }

/-- The block that the call `ticket` returned, while it is held. -/
def lease (a : Ideal) (ticket : Nat) : Option Lease := a.live.find? fun e => e.ticket = ticket

def step (a : Ideal) : Request → Ideal
  | .malloc size => a.malloc size
  | .free ticket => ((a.lease ticket).map a.release).getD a
  | .freeNull => a

def run (requests : List Request) : Ideal := requests.foldl step init

/-- The heap is well formed, and its used blocks are the ones that clients hold. -/
structure Inv (a : Ideal) : Prop where
  wf : a.heap.WF
  held : ∀ e ∈ a.live, ∃ b, UsedAt a.heap.chunks e.loc b ∧ b.owner = some e.size
  owned : ∀ l b, UsedAt a.heap.chunks l b → ∃ e ∈ a.live, e.loc = l
  locs : (a.live.map Lease.loc).Nodup
  tickets : (a.live.map Lease.ticket).Nodup
  issued : ∀ e ∈ a.live, e.ticket < a.answers.length

variable {a : Ideal} {e : Lease}

/-- Before the first request there is no chunk and nothing is held. -/
theorem inv_init : init.Inv where
  wf := ⟨⟨by simp [init], by simp [init], by simp [init], by simp [init], by simp [init],
    by simp [init], by simp [init, FreeIn]⟩, by simp [init]⟩
  held := by simp [init]
  owned := by simp [init, UsedAt]
  locs := by simp [init]
  tickets := by simp [init]
  issued := by simp [init]

/-- `mm_malloc` keeps the invariant: the new block is nobody else's, whether it was carved from
a free block or fills a new chunk. A request of zero bytes adds an answer only. -/
theorem Inv.malloc (h : a.Inv) (size : Nat) : (a.malloc size).Inv := by
  unfold Ideal.malloc
  by_cases hZero : size = 0
  · rw [if_pos hZero]
    refine ⟨h.wf, h.held, h.owned, h.locs, h.tickets, fun e he => ?_⟩
    have := h.issued e he
    rw [List.length_append]
    omega
  · rw [if_neg hZero]
    have hReq : 0 < size := Nat.pos_of_ne_zero hZero
    obtain ⟨n, -, hUsed⟩ := usedAt_malloc h.wf.toTidy hReq
    have hFresh : ∀ b, ¬UsedAt a.heap.chunks (a.heap.malloc size).1 b :=
      not_usedAt_malloc h.wf.toTidy
    refine ⟨h.wf.malloc hReq, ?_, ?_, ?_, ?_, ?_⟩
    · refine List.forall_mem_cons.mpr
        ⟨⟨_, (hUsed _ _).mpr (Or.inr ⟨rfl, rfl⟩), rfl⟩, fun e he => ?_⟩
      obtain ⟨b, hb, hOwner⟩ := h.held e he
      exact ⟨b, (hUsed _ _).mpr (Or.inl hb), hOwner⟩
    · intro l b hb
      rcases (hUsed l b).mp hb with hOld | ⟨rfl, -⟩
      · obtain ⟨e, he, hLoc⟩ := h.owned l b hOld
        exact ⟨e, List.mem_cons_of_mem _ he, hLoc⟩
      · exact ⟨_, List.mem_cons_self, rfl⟩
    · refine List.nodup_cons.mpr ⟨fun hIn => ?_, h.locs⟩
      obtain ⟨e, he, hLoc⟩ := List.mem_map.mp hIn
      have hLoc : e.loc = (a.heap.malloc size).1 := hLoc
      obtain ⟨b, hb, -⟩ := h.held e he
      rw [hLoc] at hb
      exact hFresh b hb
    · refine List.nodup_cons.mpr ⟨fun hIn => ?_, h.tickets⟩
      obtain ⟨e, he, hTicket⟩ := List.mem_map.mp hIn
      exact Nat.ne_of_lt (h.issued e he) hTicket
    · refine List.forall_mem_cons.mpr ⟨?_, fun e he => ?_⟩
      · rw [List.length_append]
        exact Nat.lt_succ_self _
      · have := h.issued e he
        rw [List.length_append]
        omega

/-- `mm_free` of a held block keeps the invariant: the others stay held, and the used blocks
are those of the others. -/
theorem Inv.release (h : a.Inv) (he : e ∈ a.live) : (a.release e).Inv := by
  obtain ⟨b, hb, -⟩ := h.held e he
  have hUsed := fun k d => usedAt_freeAt (k := k) (a := d) h.wf.toTidy hb
  have hNodup := h.locs.of_map
  have hLocNe : ∀ d ∈ a.live.erase e, d.loc ≠ e.loc := by
    intro d hd hEq
    obtain ⟨hNe, hd⟩ := hNodup.mem_erase_iff.mp hd
    exact hNe (List.inj_on_of_nodup_map h.locs hd he hEq)
  refine ⟨h.wf.freeAt hb, ?_, ?_, ?_, ?_, ?_⟩
  · intro d hd
    obtain ⟨f, hf, hOwner⟩ := h.held d (List.mem_of_mem_erase hd)
    exact ⟨f, (hUsed _ _).mpr ⟨hf, hLocNe d hd⟩, hOwner⟩
  · intro l f hf
    obtain ⟨hf, hNe⟩ := (hUsed l f).mp hf
    obtain ⟨d, hd, hLoc⟩ := h.owned l f hf
    refine ⟨d, hNodup.mem_erase_iff.mpr ⟨?_, hd⟩, hLoc⟩
    rintro rfl
    exact hNe hLoc.symm
  · exact h.locs.sublist (List.erase_sublist.map _)
  · exact h.tickets.sublist (List.erase_sublist.map _)
  · exact fun d hd => h.issued d (List.mem_of_mem_erase hd)

/-- Step lemma: every request keeps the invariant. A ticket that is not held changes
nothing. -/
theorem Inv.step (h : a.Inv) (r : Request) : (a.step r).Inv := by
  cases r with
  | malloc size => exact h.malloc size
  | free ticket =>
      rw [Ideal.step]
      cases hFind : a.lease ticket with
      | none => exact h
      | some e => exact h.release (List.mem_of_find?_eq_some hFind)
  | freeNull => exact h

/-- The last request of a run is a step from the state before it. -/
theorem run_append (requests : List Request) (r : Request) :
    run (requests ++ [r]) = (run requests).step r := by
  rw [run, run, List.foldl_append, List.foldl_cons, List.foldl_nil]

/-- A ticket of a held block finds that block, since tickets are given out once. -/
theorem Inv.lease (h : a.Inv) (he : e ∈ a.live) : a.lease e.ticket = some e := by
  exact List.find?_eq_some_of_unique he (decide_eq_true rfl) fun d hd hTicket =>
    List.inj_on_of_nodup_map h.tickets hd he (of_decide_eq_true hTicket)

/-- A held block is released when its ticket is freed. -/
theorem Inv.step_free (h : a.Inv) (he : e ∈ a.live) : a.step (.free e.ticket) = a.release e := by
  rw [Ideal.step, h.lease he]
  rfl

/-- The calls that map regions are those that unmap one, and one for every chunk;
every region is mapped once. -/
structure Balanced (a : Ideal) : Prop where
  calls : (a.calls.filterMap RegionCall.mapped).Perm
    (a.calls.filterMap RegionCall.unmapped ++ a.heap.chunks.map fun c => (some c.id, c.size))
  regions : (a.calls.filterMap RegionCall.mapped).map Prod.fst =
    (List.range a.heap.regions).map some

/-- A call of `mm_malloc` maps a region exactly when it makes a chunk, and numbers it with the
next number. -/
theorem Balanced.malloc (h : a.Balanced) (size : Nat) : (a.malloc size).Balanced := by
  unfold Ideal.malloc
  by_cases hZero : size = 0
  · rw [if_pos hZero]
    exact ⟨h.calls, h.regions⟩
  · rw [if_neg hZero]
    unfold Heap.malloc
    cases hFit : a.heap.fit size with
    | some l =>
        have hSame : (a.heap.reuse size l).chunks.map (fun c => (some c.id, c.size)) =
            a.heap.chunks.map fun c => (some c.id, c.size) :=
          map_eq_of_extent (fun e => (some e.1, e.2)) (map_extent_updateChunk _ _ _)
        refine ⟨?_, ?_⟩
        · simpa [hSame] using h.calls
        · simpa [Heap.reuse] using h.regions
    | none =>
        refine ⟨?_, ?_⟩
        · simp only [Option.isNone_none, if_true, List.filterMap_append, Heap.grow, List.map_cons]
          have hNew := h.calls.append_right [(some a.heap.regions, regionSize size)]
          refine hNew.trans ((List.perm_append_singleton _ _).trans ?_)
          rw [List.filterMap_cons_none rfl, List.filterMap_nil, List.append_nil]
          exact List.perm_middle.symm
        · simp only [Option.isNone_none, if_true, List.filterMap_append, List.map_append, h.regions,
            Heap.grow, List.range_succ]
          rfl

/-- A call of `mm_free` unmaps exactly the chunks that it drops. -/
theorem Balanced.release (h : a.Balanced) (e : Lease) : (a.release e).Balanced := by
  have hMapped : ∀ gone : List Chunk, (gone.map fun c =>
      RegionCall.unmap (some c.id) c.size).filterMap RegionCall.mapped = [] := fun gone => by
    simp [List.filterMap_map, RegionCall.mapped, Function.comp_def]
  have hUnmapped : ∀ gone : List Chunk, (gone.map fun c =>
      RegionCall.unmap (some c.id) c.size).filterMap RegionCall.unmapped =
        gone.map fun c => (some c.id, c.size) := fun gone => by
    simp [List.filterMap_map, RegionCall.unmapped, Function.comp_def]
  refine ⟨?_, ?_⟩
  · -- The chunks that are given back turn from chunks into calls.
    have hParts := (List.filter_append_perm vacant (a.heap.giveBack e.loc).chunks).map fun c =>
      (some c.id, c.size)
    have hSame : (a.heap.giveBack e.loc).chunks.map (fun c => (some c.id, c.size)) =
        a.heap.chunks.map fun c => (some c.id, c.size) :=
      map_eq_of_extent (fun x => (some x.1, x.2)) (a.heap.giveBack_extent e.loc)
    rw [hSame, List.map_append] at hParts
    simp only [Ideal.release, List.filterMap_append, hMapped, hUnmapped, List.append_nil,
      List.append_assoc]
    exact h.calls.trans (hParts.symm.append_left _)
  · have hRegions : (a.release e).heap.regions = a.heap.regions := a.heap.giveBack_regions e.loc
    rw [hRegions]
    simp only [Ideal.release, List.filterMap_append, hMapped, List.append_nil]
    exact h.regions

/-- After every sequence of requests the calls are balanced by the chunks. The induction is on
the requests, and needs no invariant of the heap. -/
theorem balanced_run (requests : List Request) : (run requests).Balanced := by
  have hFold : ∀ a : Ideal, a.Balanced → (requests.foldl Ideal.step a).Balanced := by
    induction requests with
    | nil => exact fun a h => h
    | cons r requests ih =>
        intro a h
        apply ih _
        cases r with
        | malloc size => exact h.malloc size
        | free ticket =>
            rw [Ideal.step]
            cases a.lease ticket with
            | none => exact h
            | some e => exact h.release e
        | freeNull => exact h
  exact hFold init ⟨List.Perm.refl _, rfl⟩

end Ideal

end Malloc
