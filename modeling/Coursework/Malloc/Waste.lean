import Coursework.Malloc.Safety

/-! How much larger a block is than its request, from the call that returns it
until it is freed. -/

namespace Malloc

open Tiling Bytes

/-- The size field of the block whose payload starts at `p`. -/
def sizeField (s : Process) (p : Nat) : Nat := s.mem.read (p - 16) 8

/-- From `s` to `t` no block was split: but for the block at `p`, every block
starts where one started before. -/
def NoSplit (s t : Process) (p : Nat) : Prop :=
  ∀ v w, Shows s v → Shows t w → ∀ b ∈ w.blocks, b.addr + 16 = p ∨ ∃ a ∈ v.blocks, a.addr = b.addr

/-- Any calls and any writes of the client, as long as it holds `e`. -/
inductive Meanwhile (K : Kernel) (e : Live) (c : Config) : Config → Prop where
  | refl : Meanwhile K e c c
  | malloc {d : Config} {size p : Nat} {t : Process} : Meanwhile K e c d →
      size + 4174 < 2 ^ 64 → mmMalloc K size d.process = .ok (p, t) →
      Meanwhile K e c (d.served size p t)
  | free {d : Config} {f : Live} {t : Process} : Meanwhile K e c d → f ∈ d.live → f ≠ e →
      mmFree f.ptr d.process = .ok ((), t) → Meanwhile K e c (d.freed f t)
  | freeNull {d : Config} {t : Process} : Meanwhile K e c d →
      mmFree 0 d.process = .ok ((), t) → Meanwhile K e c { d with process := t }
  | write {d : Config} {f : Live} {x : Nat} {v : UInt8} : Meanwhile K e c d → f ∈ d.live →
      f.ptr ≤ x → x < f.ptr + f.size → Meanwhile K e c (d.stored x v)

/-- `e` is what the next call of `mm_malloc` returns, which ends in `t`. -/
structure Returned (K : Kernel) (c : Config) (t : Process) (e : Live) : Prop where
  fits : e.size + 4174 < 2 ^ 64
  ticket : e.ticket = c.answers.length
  nonzero : e.ptr ≠ 0
  call : mmMalloc K e.size c.process = .ok (e.ptr, t)

section Whole

variable {H : Heap} {req : Nat} {b : Block} {l : Loc}

/-- A free block that is given away whole leaves every block where it starts. No header is
written that was not there. -/
theorem Heap.Tidy.reuse_whole (h : H.Tidy) (hReq : 0 < req) (hl : l ∈ H.free)
    (hFits : need req ≤ sizeAt H.chunks l) (hb : UsedAt (H.reuse req l).chunks l b)
    (hSize : b.size ≠ need req) : ∀ d ∈ (H.reuse req l).chunks,
      ∃ f ∈ H.chunks, f.id = d.id ∧ d.blocks.map Segment.off = f.blocks.map Segment.off := by
  obtain ⟨c, hc, left, s, right, rfl, hBlocks, -, hSizeAt⟩ := h.free_split hl
  have hTiled := hBlocks ▸ (h.shaped c hc).tiled
  have hNeed := need_bounds hReq
  obtain ⟨-, hbOff, e, he, heId, hbIn⟩ := hb
  rcases (mem_updateChunk h.ids hc).mp he with rfl | ⟨-, hOther⟩
  · intro d hd
    rcases (mem_updateChunk h.ids hc).mp hd with rfl | ⟨hd, -⟩
    · refine ⟨c, hc, rfl, ?_⟩
      replace hbIn : b ∈ carve s.off (need req) splitLeast req c.blocks := hbIn
      show (carve s.off (need req) splitLeast req c.blocks).map Segment.off = _
      rw [hBlocks] at hbIn ⊢
      exact map_off_carve hTiled (by omega) (hSizeAt ▸ hFits) (by decide) hbIn hbOff hSize
    · exact ⟨d, hd, rfl, rfl⟩
  · exact absurd heId hOther

/-- A new chunk whose block is larger than it needs to be has no other block, since what is
left over was not worth one. -/
theorem Heap.Tidy.grow_whole (h : H.Tidy) (hReq : 0 < req)
    (hb : UsedAt (H.grow req).chunks ⟨H.regions, firstOff⟩ b) (hSize : b.size ≠ need req) :
    (newChunk H.regions req).blocks.map Segment.off = [firstOff] := by
  have hNeed := need_bounds hReq
  obtain ⟨-, hbOff, d, hd, hdId, hbIn⟩ := hb
  rcases List.mem_cons.mp hd with rfl | hd
  · exact Segment.map_off_carve (by omega) hbIn hbOff hSize
  · exact absurd hdId (Nat.ne_of_lt (h.old d hd))

/-- When the block for a request is larger than it needs to be, no other block
starts where none did before. -/
theorem Heap.Tidy.malloc_whole (h : H.Tidy) (hReq : 0 < req)
    (hb : UsedAt (H.malloc req).2.chunks (H.malloc req).1 b) (hSize : b.size ≠ need req) :
    ∀ d ∈ (H.malloc req).2.chunks, ∀ a ∈ d.blocks, (⟨d.id, a.off⟩ : Loc) = (H.malloc req).1 ∨
      ∃ f ∈ H.chunks, f.id = d.id ∧ ∃ g ∈ f.blocks, g.off = a.off := by
  unfold Heap.malloc at hb ⊢
  intro d hd a ha
  cases hFit : H.fit req with
  | some l =>
      rw [hFit] at hb hd
      have hFits := List.find?_some hFit
      rw [decide_eq_true_eq] at hFits
      obtain ⟨f, hf, hId, hOffs⟩ :=
        h.reuse_whole hReq (List.mem_of_find?_eq_some hFit) hFits hb hSize d hd
      have hOff : a.off ∈ f.blocks.map Segment.off := hOffs ▸ List.mem_map_of_mem ha
      obtain ⟨g, hg, hEq⟩ := List.mem_map.mp hOff
      exact Or.inr ⟨f, hf, hId, g, hg, hEq⟩
  | none =>
      rw [hFit] at hb hd
      rcases List.mem_cons.mp hd with rfl | hd
      · have hOff : a.off ∈ (newChunk H.regions req).blocks.map Segment.off :=
          List.mem_map_of_mem ha
        rw [h.grow_whole hReq hb hSize, List.mem_singleton] at hOff
        exact Or.inl (congrArg (Loc.mk H.regions) hOff)
      · exact Or.inr ⟨d, hd, rfl, a, ha, rfl⟩

end Whole

section Stays

variable {K : Kernel} {π : Nat → Nat} {requests : List Request} {c d : Config} {a : Ideal}
  {x y : Lease} {e : Live} {b : Block}

/-- A held block is the same after a request for another one, with its place and its size. -/
theorem Ideal.Inv.stays_malloc (h : a.Inv) (size : Nat) (hx : x ∈ a.live)
    (hb : UsedAt a.heap.chunks x.loc b) :
    x ∈ (a.malloc size).live ∧ UsedAt (a.malloc size).heap.chunks x.loc b := by
  unfold Ideal.malloc
  by_cases hZero : size = 0
  · rw [if_pos hZero]
    exact ⟨hx, hb⟩
  · rw [if_neg hZero]
    obtain ⟨_, -, hUsed⟩ := usedAt_malloc h.wf.toTidy (Nat.pos_of_ne_zero hZero)
    exact ⟨List.mem_cons_of_mem _ hx, (hUsed _ _).mpr (Or.inl hb)⟩

/-- A held block is the same after another one was freed. Coalescing stops at blocks that are
in use. -/
theorem Ideal.Inv.stays_release (h : a.Inv) (hx : x ∈ a.live) (hy : y ∈ a.live) (hNe : x ≠ y)
    (hb : UsedAt a.heap.chunks x.loc b) :
    x ∈ (a.release y).live ∧ UsedAt (a.release y).heap.chunks x.loc b := by
  obtain ⟨f, hf, -⟩ := h.held y hy
  have hLocs : x.loc ≠ y.loc := fun hEq => hNe (List.inj_on_of_nodup_map h.locs hx hy hEq)
  exact ⟨(List.mem_erase_of_ne hNe).mpr hx, (usedAt_freeAt h.wf.toTidy hf).mpr ⟨hb, hLocs⟩⟩

/-- The live payload `e` is the lease `x`, which lies in the block `b`. -/
def Occupies (c : Config) (e : Live) (x : Lease) (b : Block) : Prop :=
  ∃ π a, Simulates π c a ∧ x ∈ a.live ∧ x.at π = e ∧ UsedAt a.heap.chunks x.loc b

/-- What was held before a call of `mm_malloc` is held after it. -/
theorem Config.mem_served {size p : Nat} {t : Process} (he : e ∈ c.live) :
    e ∈ (c.served size p t).live := by
  show e ∈ if p = 0 then c.live else _ :: c.live
  split
  · exact he
  · exact List.mem_cons_of_mem _ he

/-- A lease is found again by its ticket, and has the pointer and the size that the client
knows. -/
theorem Simulates.at_eq (h : Simulates π c a) (he : e ∈ c.live) (hx : x ∈ a.live)
    (hTicket : x.ticket = e.ticket) : x.at π = e := by
  obtain ⟨y, hy, rfl⟩ := h.mem_live.mp he
  rw [List.inj_on_of_nodup_map h.inv.tickets hx hy hTicket]

theorem Occupies.mem_live (h : Occupies c e x b) : e ∈ c.live := by
  obtain ⟨π, a, hSim, hx, hAt, -⟩ := h
  exact hSim.mem_live.mpr ⟨x, hx, hAt⟩

/-- The size field is the size of the block, as long as the block is held. A client does not
write there. -/
theorem Occupies.sizeField_eq (h : Occupies c e x b) : sizeField c.process e.ptr = b.size := by
  obtain ⟨π, a, hSim, hx, rfl, hUsed⟩ := h
  obtain ⟨d, hd, hb, -, hAddr, -⟩ := hSim.rep.layout.payload_bounds hUsed
  have hPtr : (x.at π).ptr - 16 = π d.id + b.off := by
    show x.loc.payload π - 16 = _
    omega
  rw [sizeField, hPtr, (hSim.rep.tags d hd b hb).size]

/-- A call of `mm_malloc` leaves a used block its size. -/
theorem Occupies.malloc {size p : Nat} {t : Process} (h : Occupies c e x b)
    (hBound : size + 4174 < 2 ^ 64) (hRun : mmMalloc K size c.process = .ok (p, t)) :
    Occupies (c.served size p t) e x b := by
  have hLive : e ∈ (c.served size p t).live := Config.mem_served h.mem_live
  obtain ⟨π, a, hSim, hx, hAt, hUsed⟩ := h
  obtain ⟨π', hSim'⟩ := simulates_malloc hSim hBound hRun
  obtain ⟨hx', hUsed'⟩ := hSim.inv.stays_malloc size hx hUsed
  exact ⟨π', _, hSim', hx', hSim'.at_eq hLive hx' (congrArg Live.ticket hAt), hUsed'⟩

/-- So does a call of `mm_free` of another pointer. -/
theorem Occupies.free {f : Live} {t : Process} (h : Occupies c e x b) (hf : f ∈ c.live)
    (hNe : f ≠ e) (hRun : mmFree f.ptr c.process = .ok ((), t)) :
    Occupies (c.freed f t) e x b := by
  obtain ⟨π, a, hSim, hx, hAt, hUsed⟩ := h
  have hSim' := simulates_free hSim hf hRun
  obtain ⟨y, hy, rfl⟩ := hSim.mem_live.mp hf
  have hxy : x ≠ y := by
    rintro rfl
    exact hNe hAt
  have hStep : a.step (.free (y.at π).ticket) = a.release y := hSim.inv.step_free hy
  rw [hStep] at hSim'
  obtain ⟨hx', hUsed'⟩ := hSim.inv.stays_release hx hy hxy hUsed
  exact ⟨π, _, hSim', hx', hAt, hUsed'⟩

/-- No call and no write changes the block of a payload that the client holds. The induction is
on what happens meanwhile, one call or write at a time. -/
theorem Meanwhile.occupies (h : Meanwhile K e c d) (hHeld : Occupies c e x b) :
    Occupies d e x b := by
  induction h with
  | refl => exact hHeld
  | malloc _ hBound hRun ih => exact ih.malloc hBound hRun
  | free _ hf hNe hRun ih => exact ih.free hf hNe hRun
  | freeNull _ hRun ih =>
      obtain ⟨-, rfl⟩ := Prod.mk.inj (Except.ok.inj hRun)
      exact ih
  | write _ hf hLow hHigh ih =>
      obtain ⟨π, a, hSim, hRest⟩ := ih
      exact ⟨π, a, simulates_write hSim hf ⟨hLow, hHigh⟩ _, hRest⟩

end Stays

section Origin

variable {K : Kernel} {requests : List Request} {c : Config} {e : Live}

/-- The client holds every payload once, so its pointers tell its blocks apart. -/
theorem Simulates.nodup_live {π : Nat → Nat} {a : Ideal} (h : Simulates π c a) : c.live.Nodup := by
  rw [h.live]
  refine List.Nodup.of_map Live.ticket ?_
  rw [List.map_map]
  exact h.inv.tickets

/-- What the client holds was returned by a call of `mm_malloc`, and held ever
since. -/
theorem Reachable.origin (h : Reachable K requests c) (he : e ∈ c.live) : ∃ past c₀ t,
    Reachable K past c₀ ∧ Returned K c₀ t e ∧ Meanwhile K e (c₀.served e.size e.ptr t) c := by
  induction h with
  | boot _ _ => cases he
  | reset _ _ _ _ => cases he
  | @malloc past c size p t hPast hBound hRun ih =>
      -- The payload was held before the call, or this is the call that returned it.
      by_cases hOld : e ∈ c.live
      · obtain ⟨past, c₀, t, hFrom, hReturned, hSince⟩ := ih hOld
        exact ⟨past, c₀, t, hFrom, hReturned, hSince.malloc hBound hRun⟩
      · replace he : e ∈ if p = 0 then c.live else ⟨c.answers.length, p, size⟩ :: c.live := he
        split at he
        · exact absurd he hOld
        · next hp =>
            obtain rfl := (List.mem_cons.mp he).resolve_right hOld
            exact ⟨past, c, t, hPast, ⟨hBound, rfl, hp, hRun⟩, .refl⟩
  | @free past c f t hPast hf hRun ih =>
      obtain ⟨π, hSim⟩ := Reachable.simulates hPast
      obtain ⟨hNe, hOld⟩ := hSim.nodup_live.mem_erase_iff.mp he
      obtain ⟨past, c₀, t, hFrom, hReturned, hSince⟩ := ih hOld
      exact ⟨past, c₀, t, hFrom, hReturned, hSince.free hf hNe.symm hRun⟩
  | freeNull _ hRun ih =>
      obtain ⟨past, c₀, t, hFrom, hReturned, hSince⟩ := ih he
      exact ⟨past, c₀, t, hFrom, hReturned, hSince.freeNull hRun⟩
  | write _ hf hLow hHigh ih =>
      obtain ⟨past, c₀, t, hFrom, hReturned, hSince⟩ := ih he
      exact ⟨past, c₀, t, hFrom, hReturned, hSince.write hf hLow hHigh⟩

section Call

variable {past : List Request} {t : Process}

theorem Returned.pos (h : Returned K c t e) : 0 < e.size := by
  have hCall := h.call
  refine Nat.pos_of_ne_zero fun hZero => h.nonzero ?_
  rw [hZero] at hCall
  exact (congrArg Prod.fst (Except.ok.inj hCall)).symm

theorem Returned.mem_served (h : Returned K c t e) : e ∈ (c.served e.size e.ptr t).live := by
  show e ∈ if e.ptr = 0 then c.live else ⟨c.answers.length, e.ptr, e.size⟩ :: c.live
  rw [if_neg h.nonzero, ← h.ticket]
  exact List.mem_cons_self

/-- The place that a request gets and its block, whose size is that of the request and a rest
that was not worth a header. -/
theorem Returned.occupies (h : Returned K c t e) (hFrom : Reachable K past c) : ∃ x b,
    Occupies (c.served e.size e.ptr t) e x b ∧ b.size % 16 = 0 ∧ need e.size ≤ b.size ∧
      b.size < need e.size + splitLeast ∧
      UsedAt ((Ideal.run past).heap.malloc e.size).2.chunks
        ((Ideal.run past).heap.malloc e.size).1 b := by
  obtain ⟨π, hSim⟩ := hFrom.simulates
  obtain ⟨n, ⟨hLow, hHigh⟩, hAfter⟩ := usedAt_malloc hSim.inv.wf.toTidy h.pos
  have hUsed := (hAfter _ _).mpr (Or.inr ⟨rfl, rfl⟩)
  obtain ⟨-, -, d, hd, -, hb⟩ := id hUsed
  have hMod := (((hSim.inv.wf.malloc h.pos).shaped d hd).sizes _ hb).1
  obtain ⟨π', hSim'⟩ := simulates_malloc hSim h.fits h.call
  have hStep : (Ideal.run past).step (.malloc e.size) =
      { heap := _, live := _, answers := _, calls := _ } := if_neg (Nat.ne_of_gt h.pos)
  rw [hStep] at hSim'
  refine ⟨_, _, ⟨π', _, hSim', List.mem_cons_self, ?_, hUsed⟩, hMod, hLow, hHigh, hUsed⟩
  -- The new lease is found by its ticket, whatever address its region got.
  refine hSim'.at_eq h.mem_served List.mem_cons_self ?_
  rw [h.ticket, hSim.answers]

/-- A call that returns a larger block than it needs splits none, so the waste was there
already as part of one block. -/
theorem Returned.noSplit {b : Block} (h : Returned K c t e) (hFrom : Reachable K past c)
    (hb : UsedAt ((Ideal.run past).heap.malloc e.size).2.chunks
      ((Ideal.run past).heap.malloc e.size).1 b) (hSize : b.size ≠ need e.size) :
    NoSplit c.process t e.ptr := by
  obtain ⟨π, hSim⟩ := hFrom.simulates
  have hTidy := hSim.inv.wf.toTidy
  obtain ⟨π', hServed⟩ := (mmMalloc_meets hSim.rep hTidy h.pos h.fits).of_ok h.call
  intro v w hv hw f hf
  obtain rfl := hv.unique hSim.rep.shows
  obtain rfl := hw.unique hServed.rep.shows
  obtain ⟨d, hd, a, ha, rfl⟩ := mem_blocks_view.mp hf
  rcases hTidy.malloc_whole h.pos hb hSize d hd a ha with hLoc | ⟨g, hg, hId, r, hr, hOff⟩
  · refine Or.inl ?_
    rw [hServed.result, ← hLoc]
    rfl
  · refine Or.inr ⟨_, mem_blocks_view.mpr ⟨g, hg, r, hr, rfl⟩, ?_⟩
    show π g.id + r.off = π' d.id + a.off
    rw [← hId, hServed.bases _ (hTidy.old g hg), hOff]

end Call

/-- From the call of `mm_malloc` that returned it until it is freed, the block of
a live payload is larger than its request by the two tags, by what alignment
adds, and by a rest too small to be a block, if no block was split for it. -/
theorem waste_bounded (h : Reachable K requests c) (he : e ∈ c.live) :
    ∃ past c₀ t slack, Reachable K past c₀ ∧ Returned K c₀ t e ∧
      Meanwhile K e (c₀.served e.size e.ptr t) c ∧ slack ∈ [0, 16, 32, 48] ∧
      (slack ≠ 0 → NoSplit c₀.process t e.ptr) ∧
      ∀ d, Meanwhile K e (c₀.served e.size e.ptr t) d →
        sizeField d.process e.ptr = 32 + align e.size + slack := by
  obtain ⟨past, c₀, t, hFrom, hReturned, hSince⟩ := h.origin he
  obtain ⟨x, b, hHeld, hMod, hLow, hHigh, hUsed⟩ := hReturned.occupies hFrom
  have hAlign : align e.size = alignUp e.size := align_eq_alignUp (by have := hReturned.fits; omega)
  have hNeed : need e.size = alignUp e.size + 32 := rfl
  have hNeedMod := (need_bounds hReturned.pos).1
  have hLeast : splitLeast = 64 := rfl
  refine ⟨past, c₀, t, b.size - need e.size, hFrom, hReturned, hSince, ?_, fun hSlack => ?_,
    fun d hd => ?_⟩
  · simp only [List.mem_cons, List.not_mem_nil, or_false]
    omega
  · exact hReturned.noSplit hFrom hUsed (by omega)
  · rw [(hd.occupies hHeld).sizeField_eq]
    omega

theorem waste_bounded_sample : ∃ (c : Config) (slack : Nat), c.live = [⟨1, 8589934704, 100⟩] ∧
    slack ∈ [0, 16, 32, 48] ∧ sizeField c.process 8589934704 = 32 + align 100 + slack := by
  obtain ⟨c, hReached, hLive⟩ := exists_sample 0
  have hHeld : (⟨1, 8589934704, 100⟩ : Live) ∈ c.live := hLive ▸ List.mem_cons_self
  obtain ⟨_, _, _, slack, -, -, hSince, hSlack, -, hField⟩ := waste_bounded hReached hHeld
  exact ⟨c, slack, hLive, hSlack, hField c hSince⟩

end Origin

end Malloc
