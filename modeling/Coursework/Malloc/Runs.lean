import Coursework.Malloc.Allocate
import Coursework.Malloc.Free
import Coursework.Malloc.Ledger

/-! Runs of the allocator with a client that writes only to what it holds. -/

namespace Malloc

open Tiling Bytes

/-- A block that the client holds, with the number of the call that returned it. -/
structure Live where
  ticket : Nat
  ptr : Nat
  size : Nat
deriving DecidableEq, Repr

structure Config where
  process : Process
  live : List Live
  /-- What the calls of `mm_malloc` returned so far, as places in regions. -/
  answers : List (Option Loc)
  /-- What the client last wrote to the bytes of the blocks that it holds. -/
  written : Nat → Option UInt8

namespace Config

def start (s : Process) : Config := ⟨s, [], [], fun _ => none⟩

/-- `mm_malloc size` returned `p`. -/
def served (c : Config) (size p : Nat) (t : Process) : Config where
  process := t
  live := if p = 0 then c.live else ⟨c.answers.length, p, size⟩ :: c.live
  answers := c.answers ++ [if p = 0 then none else (ledger t.calls).locate p]
  written x := if p ≠ 0 ∧ p ≤ x ∧ x < p + size then none else c.written x

/-- `mm_free` of a held block returned. -/
def freed (c : Config) (e : Live) (t : Process) : Config :=
  { c with
    process := t
    live := c.live.erase e
    written := fun x => if e.ptr ≤ x ∧ x < e.ptr + e.size then none else c.written x }

/-- The client stores a byte. -/
def stored (c : Config) (x : Nat) (v : UInt8) : Config :=
  { c with
    process := { c.process with mem := Function.update c.process.mem x v }
    written := Function.update c.written x (some v) }

@[simp] theorem mem_stored (c : Config) (x : Nat) (v : UInt8) :
    (c.stored x v).process.mem x = v := by
  simp [stored]

@[simp] theorem written_stored (c : Config) (x : Nat) (v : UInt8) :
    (c.stored x v).written x = some v := by
  simp [stored]

end Config

/-- A process in which nothing has been mapped through `mem_map`, with any
memory and any other mappings. -/
structure Booted (s : Process) : Prop where
  pageMaps1 : s.pageMaps1 = none
  allMappedPages : s.allMappedPages = none
  pageCount : s.pageCount = 0
  activityCounter : s.activityCounter = 0
  calls : s.calls = []

/-- The requests that were served since the last `mm_init`, and the state that
they lead to, in runs whose calls of `mm_malloc` are all admitted. A round begins
with `mm_init`, after booting or after `mem_reset` at the end of another round;
the record of calls starts anew with each round. -/
inductive Runs (K : Kernel) (admits : Nat → Process → Prop) : List Request → Config → Prop where
  | boot {s t : Process} : Booted s → mmInit s = .ok (0, t) → Runs K admits [] (.start t)
  | reset {requests : List Request} {c : Config} {s t : Process} : Runs K admits requests c →
      memReset c.process = .ok ((), s) → mmInit { s with calls := [] } = .ok (0, t) →
      Runs K admits [] (.start t)
  | malloc {requests : List Request} {c : Config} {size p : Nat} {t : Process} :
      Runs K admits requests c → admits size c.process → mmMalloc K size c.process = .ok (p, t) →
      Runs K admits (requests ++ [.malloc size]) (c.served size p t)
  | free {requests : List Request} {c : Config} {e : Live} {t : Process} :
      Runs K admits requests c → e ∈ c.live → mmFree e.ptr c.process = .ok ((), t) →
      Runs K admits (requests ++ [.free e.ticket]) (c.freed e t)
  | freeNull {requests : List Request} {c : Config} {t : Process} :
      Runs K admits requests c → mmFree 0 c.process = .ok ((), t) →
      Runs K admits (requests ++ [.freeNull]) { c with process := t }
  | write {requests : List Request} {c : Config} {e : Live} {x : Nat} {v : UInt8} :
      Runs K admits requests c → e ∈ c.live → e.ptr ≤ x → x < e.ptr + e.size →
      Runs K admits requests (c.stored x v)

/-- The runs in which no request is so large that a size computation wraps. -/
abbrev Reachable (K : Kernel) : List Request → Config → Prop :=
  Runs K fun size _ => size + 4174 < 2 ^ 64

/-- A held block at its address. -/
def Lease.at (π : Nat → Nat) (e : Lease) : Live := ⟨e.ticket, e.loc.payload π, e.size⟩

/-- The configuration carries out the ideal allocator, with the region `i` at
the address `π i`. -/
structure Simulates (π : Nat → Nat) (c : Config) (a : Ideal) : Prop where
  rep : Rep π c.process a.heap.chunks a.heap.free
  inv : a.Inv
  live : c.live = a.live.map (Lease.at π)
  answers : c.answers = a.answers
  record : ledger c.process.calls =
    ⟨a.heap.regions, a.heap.chunks.map (Chunk.mapping π), a.calls⟩
  written : ∀ e ∈ c.live, ∀ x ∈ span e.ptr e.size, ∀ v ∈ c.written x, c.process.mem x = v

section Simulation

variable {π : Nat → Nat} {K : Kernel} {c : Config} {a : Ideal} {s t : Process}

/-- The block of a held payload: it is in use, and its owner is the size that was asked for. -/
theorem Ideal.Inv.block (h : a.Inv) {e : Lease} (he : e ∈ a.live) :
    ∃ b, UsedAt a.heap.chunks e.loc b ∧ b.owner = some e.size ∧ 0 < e.size ∧
      e.size ≤ b.size - 32 := by
  obtain ⟨b, hb, hOwner⟩ := h.held e he
  obtain ⟨-, -, d, hd, -, hbIn⟩ := id hb
  obtain ⟨hPos, hFits, -⟩ := h.wf.fits d hd b hbIn e.size hOwner
  refine ⟨b, hb, hOwner, hPos, ?_⟩
  unfold need alignUp at hFits
  omega

theorem Simulates.mem_live (h : Simulates π c a) {e : Live} :
    e ∈ c.live ↔ ∃ d ∈ a.live, d.at π = e := by
  rw [h.live, List.mem_map]

/-- Tables that were never allocated know no page, and a list without a head has none. -/
theorem Booted.memLibRep (h : Booted s) : MemLibRep s [] where
  table := by
    refine ⟨nofun, fun page _ => ?_, none, DoublyLinked.LinkRing.empty_iff.mpr ⟨?_, rfl⟩⟩
    · rw [h.pageMaps1]
      rfl
    · exact h.allMappedPages
  count := h.pageCount
  backed := nofun

/-- `mm_init` leaves the empty heap: it sets both heads to `NULL`, and nothing of what is in
memory counts. -/
theorem rep_start (h : MemLibRep s []) :
    Rep π { s with freeListHead := 0, pageListHead := 0 } [] [] := by
  have hEmpty : ∀ m : Bytes, ListRep m 0 [] := fun m =>
    ⟨0, DoublyLinked.LinkRing.empty_iff.mpr ⟨rfl, rfl⟩⟩
  refine ⟨⟨⟨⟨?_, ?_, ?_, ?_, ?_, ?_, ?_⟩, ?_, ?_, hEmpty _⟩, hEmpty _, ?_⟩, ?_, [],
    ⟨h.table, h.count, h.backed⟩, fun page => ⟨nofun, ?_⟩⟩
  case refine_12 =>
    rintro ⟨c, hc, -⟩
    cases hc
  all_goals simp

/-- A round starts with the empty heap, no held block and no call on record. -/
theorem simulates_start (hLib : MemLibRep s []) (hCalls : s.calls = [])
    (hInit : mmInit s = .ok (0, t)) : Simulates π (.start t) Ideal.init := by
  have hReturn : t = { s with freeListHead := 0, pageListHead := 0 } := by
    simp only [mmInit, Program.bind_apply, Program.modify_apply, Program.pure_apply,
      Except.ok.injEq, Prod.mk.injEq, true_and] at hInit
    exact hInit.symm
  subst hReturn
  refine ⟨rep_start hLib, Ideal.inv_init, rfl, rfl, ?_, nofun⟩
  show ledger s.calls = _
  rw [hCalls]
  rfl

/-- The leases of a state with the invariant lie in chunks that exist, so their regions have
numbers below the next one. -/
theorem Ideal.Inv.chunk_lt (h : a.Inv) {e : Lease} (he : e ∈ a.live) :
    e.loc.chunk < a.heap.regions := by
  obtain ⟨b, ⟨-, -, d, hd, hId, -⟩, -⟩ := h.block he
  exact hId ▸ h.wf.old d hd

/-- What the client asked for lies inside the payload of the block. Writes of the client stay
between the tags. -/
theorem Ideal.Inv.span_subset (h : a.Inv) {e : Lease} (he : e ∈ a.live) :
    ∃ b, UsedAt a.heap.chunks e.loc b ∧
      span (e.loc.payload π) e.size ⊆ span (e.loc.payload π) (b.size - 32) := by
  obtain ⟨b, hb, -, -, hFits⟩ := h.block he
  exact ⟨b, hb, fun x ⟨hLow, hHigh⟩ => ⟨hLow, by omega⟩⟩

/-- Leases keep their addresses when only new regions get one. The answers of earlier calls
stay valid pointers. -/
theorem Ideal.Inv.payload_eq {π' : Nat → Nat} (h : a.Inv)
    (hBases : ∀ i < a.heap.regions, π' i = π i) {e : Lease} (he : e ∈ a.live) :
    e.loc.payload π' = e.loc.payload π := by
  rw [Loc.payload, Loc.payload, hBases _ (h.chunk_lt he)]

/-- A new region changes the base of no region that was there, so the leases keep their
pointers. -/
theorem map_at_eq {π' : Nat → Nat} (h : a.Inv) (hBases : ∀ i < a.heap.regions, π' i = π i) :
    a.live.map (Lease.at π') = a.live.map (Lease.at π) := by
  refine List.map_congr_left fun e he => ?_
  rw [Lease.at, Lease.at, h.payload_eq hBases he]

/-- The record after `mm_malloc` numbers the regions as the ideal allocator does, whatever
address the kernel has chosen for a new one. -/
theorem Served.record {π' : Nat → Nat} {L : Ledger} {H : Heap} {req q : Nat}
    (h : Served π π' s t H req q) (hTidy : H.Tidy)
    (hRecord : ledger s.calls = ⟨H.regions, H.chunks.map (Chunk.mapping π), L.calls⟩) :
    ledger t.calls = ⟨(H.malloc req).2.regions, (H.malloc req).2.chunks.map (Chunk.mapping π'),
      L.calls ++ if (H.fit req).isNone then [.map H.regions (regionSize req)] else []⟩ := by
  have hOld : H.chunks.map (Chunk.mapping π') = H.chunks.map (Chunk.mapping π) :=
    List.map_congr_left fun c hc => by rw [Chunk.mapping, Chunk.mapping, h.bases _ (hTidy.old c hc)]
  rw [h.calls, ledger_append, hRecord, Heap.malloc]
  cases hFit : H.fit req with
  | some l =>
      have hSame :
          (H.reuse req l).chunks.map (Chunk.mapping π') = H.chunks.map (Chunk.mapping π') :=
        map_eq_of_extent (fun e => Mapping.mk e.1 (π' e.1) e.2) (map_extent_updateChunk _ _ _)
      show Ledger.mk _ _ _ = _
      rw [hSame, hOld]
      exact congrArg _ (List.append_nil _).symm
  | none =>
      show Ledger.mk _ _ _ = _
      rw [Heap.grow, List.map_cons, hOld]
      rfl

/-- Step lemma for `mm_malloc`: whatever it answers, the ideal allocator makes the same step,
for some placement of the new region. -/
theorem simulates_malloc {size p : Nat} (h : Simulates π c a) (hBound : size + 4174 < 2 ^ 64)
    (hRun : mmMalloc K size c.process = .ok (p, t)) :
    ∃ π', Simulates π' (c.served size p t) (a.step (.malloc size)) := by
  have hInv := h.inv.step (.malloc size)
  by_cases hZero : size = 0
  · subst hZero
    have hReturn : (0, c.process) = (p, t) := Except.ok.inj hRun
    obtain ⟨rfl, rfl⟩ := Prod.mk.inj hReturn
    refine ⟨π, h.rep, hInv, h.live, ?_, h.record, ?_⟩
    · show c.answers ++ [none] = a.answers ++ [none]
      rw [h.answers]
    · intro e he x hx v hv
      exact h.written e he x hx v (by simpa [Config.served] using hv)
  · have hReq : 0 < size := Nat.pos_of_ne_zero hZero
    have hTidy := h.inv.wf.toTidy
    obtain ⟨π', hServed⟩ := (mmMalloc_meets h.rep hTidy hReq hBound).of_ok hRun
    have hStep : a.step (.malloc size) = { heap := _, live := _, answers := _, calls := _ } :=
      if_neg hZero
    rw [hStep] at hInv ⊢
    have hp := hServed.ne_zero
    have hRecord := hServed.record (L := ⟨0, [], a.calls⟩) hTidy h.record
    obtain ⟨b, hUsed, -⟩ := hInv.held _ List.mem_cons_self
    refine ⟨π', hServed.rep, hInv, ?_, ?_, hRecord, ?_⟩
    · show (if p = 0 then c.live else ⟨c.answers.length, p, size⟩ :: c.live) = _
      rw [if_neg hp, List.map_cons, map_at_eq h.inv hServed.bases, h.live, h.answers,
        hServed.result]
      rfl
    · show c.answers ++ [if p = 0 then none else (ledger t.calls).locate p] = _
      rw [if_neg hp, hServed.result, hServed.rep.layout.locate_payload (by rw [hRecord]) hUsed,
        h.answers]
    · intro e he x hx v hv
      replace hv : v ∈ if p ≠ 0 ∧ p ≤ x ∧ x < p + size then none else c.written x := hv
      replace he : e ∈ if p = 0 then c.live else ⟨c.answers.length, p, size⟩ :: c.live := he
      rw [if_neg hp, List.mem_cons] at he
      rcases he with rfl | he
      · rw [if_pos ⟨hp, hx⟩] at hv
        cases hv
      · split at hv
        · cases hv
        · obtain ⟨d, hd, rfl⟩ := h.mem_live.mp he
          obtain ⟨b, hb, hSpan⟩ := h.inv.span_subset (π := π) hd
          have hKept := hServed.keeps _ b hb (Option.some_ne_none _) x (hSpan hx)
          exact hKept.trans (h.written _ he x hx v hv)

/-- The record after `mm_free` forgets the regions that were unmapped, each under the number
that it had. -/
theorem Freed.record {L : Ledger} {H : Heap} {l : Loc} {b : Block} (h : Freed π s t H l)
    (hLayout : Layout π s.os H.chunks) (hTidy : H.Tidy) (hUsed : UsedAt H.chunks l b)
    (hRecord : ledger s.calls = ⟨H.regions, H.chunks.map (Chunk.mapping π), L.calls⟩) :
    ledger t.calls = ⟨(H.freeAt l).regions, (H.freeAt l).chunks.map (Chunk.mapping π),
      L.calls ++ (H.giveBack l).swept.map fun c => .unmap (some c.id) c.size⟩ := by
  have hSame := H.giveBack_extent l
  have hGiven := hLayout.of_extent hSame (hTidy.giveBack hUsed).shaped
  have hMap : (H.giveBack l).chunks.map (Chunk.mapping π) = H.chunks.map (Chunk.mapping π) :=
    map_eq_of_extent (fun e => Mapping.mk e.1 (π e.1) e.2) hSame
  have hGone : (H.giveBack l).swept ⊆ (H.giveBack l).chunks := fun _ hc => List.mem_of_mem_filter hc
  have hNodup : (H.giveBack l).swept.Nodup := hGiven.ids.of_map.filter _
  have hKept : ((H.giveBack l).chunks.filter fun c => c ∉ (H.giveBack l).swept) =
      (H.freeAt l).chunks := by
    refine List.filter_congr fun c hc => ?_
    simp [Heap.swept, hc]
  rw [h.calls, ledger_append, Ledger.record_unmaps (fun c hc d hd => hGiven.base_inj hc hd)
    (by rw [hRecord, hMap]) hGone hNodup, hRecord, hKept]
  rw [Heap.freeAt, Heap.sweep, Heap.giveBack_regions]

/-- Step lemma for `mm_free` of a held pointer: the ideal allocator frees the ticket of this
pointer. -/
theorem simulates_free {e : Live} (h : Simulates π c a) (he : e ∈ c.live)
    (hRun : mmFree e.ptr c.process = .ok ((), t)) :
    Simulates π (c.freed e t) (a.step (.free e.ticket)) := by
  have hInv := h.inv.step (.free e.ticket)
  obtain ⟨d, hd, rfl⟩ := h.mem_live.mp he
  obtain ⟨b, hb, -⟩ := h.inv.held d hd
  have hTidy := h.inv.wf.toTidy
  have hFreed := (mmFree_returns h.rep hTidy hb).of_ok hRun
  have hStep : a.step (.free (d.at π).ticket) = a.release d := h.inv.step_free hd
  rw [hStep] at hInv ⊢
  have hOnly : ∀ f ∈ a.live, f.at π = d.at π → f = d := fun f hf hEq =>
    List.inj_on_of_nodup_map h.inv.tickets hf hd (congrArg Live.ticket hEq)
  have hLive : (c.freed (d.at π) t).live = (a.release d).live.map (Lease.at π) := by
    show c.live.erase (d.at π) = (a.live.erase d).map (Lease.at π)
    rw [List.map_erase_of_unique hOnly, h.live]
  refine ⟨hFreed.rep, hInv, hLive, h.answers,
    hFreed.record (L := ⟨0, [], a.calls⟩) h.rep.layout hTidy hb h.record, ?_⟩
  intro f hf x hx v hv
  replace hf : f ∈ c.live := List.mem_of_mem_erase hf
  replace hv : v ∈ if (d.at π).ptr ≤ x ∧ x < (d.at π).ptr + d.size then none else c.written x := hv
  split at hv
  · cases hv
  · next hOut =>
      obtain ⟨g, hg, rfl⟩ := h.mem_live.mp hf
      obtain ⟨b', hb', hSpan⟩ := h.inv.span_subset (π := π) hg
      have hNe : some g.loc ≠ some d.loc := by
        intro hEq
        obtain rfl := List.inj_on_of_nodup_map h.inv.locs hg hd (Option.some.inj hEq)
        exact hOut hx
      exact (hFreed.keeps _ b' hb' hNe x (hSpan hx)).trans (h.written _ hf x hx v hv)

/-- Step lemma for a client that writes to its block: the ideal allocator stands still, as no
byte of a payload in use is read. -/
theorem simulates_write {e : Live} {x : Nat} (h : Simulates π c a) (he : e ∈ c.live)
    (hx : x ∈ span e.ptr e.size) (v : UInt8) : Simulates π (c.stored x v) a := by
  obtain ⟨d, hd, rfl⟩ := h.mem_live.mp he
  obtain ⟨b, hb, hSpan⟩ := h.inv.span_subset (π := π) hd
  refine ⟨h.rep.store hb (hSpan hx) v, h.inv, h.live, h.answers, h.record, ?_⟩
  intro f hf y hy w hw
  replace hw : w ∈ Function.update c.written x (some v) y := hw
  show Function.update c.process.mem x v y = w
  by_cases hyx : y = x
  · subst hyx
    rw [Function.update_self] at hw ⊢
    exact Option.some.inj hw
  · rw [Function.update_of_ne hyx] at hw ⊢
    exact h.written f hf y hy w hw

/-- Every configuration that is reached carries out the ideal allocator on the
requests that led to it. -/
theorem Reachable.simulates {requests : List Request} (h : Reachable K requests c) :
    ∃ π, Simulates π c (Ideal.run requests) := by
  induction h with
  | boot hBooted hInit => exact ⟨id, simulates_start hBooted.memLibRep hBooted.calls hInit⟩
  | reset _ hReset hInit ih =>
      obtain ⟨π, hSim⟩ := ih
      obtain ⟨pages, hLib, -⟩ := hSim.rep.lib
      obtain ⟨maps, os, hRun, hEmpty, -⟩ := memReset_ok hLib.table
      obtain ⟨-, rfl⟩ := Prod.mk.inj (Except.ok.inj (hRun.symm.trans hReset))
      exact ⟨id, simulates_start ⟨hEmpty, rfl, nofun⟩ rfl hInit⟩
  | malloc _ hBound hRun ih =>
      obtain ⟨π, hSim⟩ := ih
      rw [Ideal.run_append]
      exact simulates_malloc hSim hBound hRun
  | free _ he hRun ih =>
      obtain ⟨π, hSim⟩ := ih
      rw [Ideal.run_append]
      exact ⟨π, simulates_free hSim he hRun⟩
  | freeNull _ hRun ih =>
      obtain ⟨π, hSim⟩ := ih
      obtain ⟨-, rfl⟩ := Prod.mk.inj (Except.ok.inj hRun)
      rw [Ideal.run_append]
      exact ⟨π, hSim⟩
  | write _ he hLow hHigh ih =>
      obtain ⟨π, hSim⟩ := ih
      exact ⟨π, simulates_write hSim he ⟨hLow, hHigh⟩ _⟩

end Simulation

section Sample

/-- A kernel that puts a mapping at the first of a few places from the `k`-th on. -/
def Kernel.firstFit (k : Fin 16) : Kernel where
  place os sz :=
    if 0 < sz ∧ sz < 2 ^ 32 then
      ((List.range 16).map fun i => (k.val + i + 1) * 2 ^ 32).find? fun p =>
        (List.range (sz / apageSize + 1)).all fun k => !os.mapped (p / apageSize + k)
    else none
  aligned os sz p h := by
    split at h
    · obtain ⟨i, -, rfl⟩ := List.mem_map.mp (List.mem_of_find?_eq_some h)
      rw [apageSize_eq]
      omega
    · cases h
  nonzero os sz p h := by
    split at h
    · obtain ⟨i, -, rfl⟩ := List.mem_map.mp (List.mem_of_find?_eq_some h)
      omega
    · cases h
  nonempty os sz p h := by
    split at h
    · next hSize => exact hSize.1
    · cases h
  inside os sz p h := by
    split at h
    · next hSize =>
        obtain ⟨i, hi, rfl⟩ := List.mem_map.mp (List.mem_of_find?_eq_some h)
        have := List.mem_range.mp hi
        omega
    · cases h
  fresh os sz p h q hLow hHigh := by
    split at h
    · have hFree := List.find?_some h
      obtain ⟨i, -, rfl⟩ := List.mem_map.mp (List.mem_of_find?_eq_some h)
      rw [List.all_eq_true] at hFree
      rw [apageSize_eq] at *
      have hPage := hFree (q - (k.val + i + 1) * 2 ^ 32 / 4096) (List.mem_range.mpr (by omega))
      have hq : (k.val + i + 1) * 2 ^ 32 / 4096 + (q - (k.val + i + 1) * 2 ^ 32 / 4096) = q := by
        omega
      rw [hq] at hPage
      simpa using hPage
    · cases h

/-- A process that has just started. -/
def Process.fresh : Process where
  mem := fun _ => 0
  os := ⟨fun _ => false, 0⟩
  pageMaps1 := none
  allMappedPages := none
  activityCounter := 0
  pageCount := 0
  pageListHead := 0
  freeListHead := 0
  calls := []

/-- Two blocks in one chunk. -/
def sampleCalls (K : Kernel) : Code (Nat × Nat) := do
  let p ← mmMalloc K 24
  let q ← mmMalloc K 100
  pure (p, q)

theorem sampleCalls_eq : ∀ k : Fin 16,
    (sampleCalls (Kernel.firstFit k) Process.fresh).map Prod.fst =
      .ok ((k.val + 2) * 2 ^ 32 + 48, (k.val + 2) * 2 ^ 32 + 112) := by
  decide +kernel

/-- There are runs to configurations with a held block in which another request
is served. -/
theorem exists_served (k : Fin 16) :
    ∃ c t, Reachable (Kernel.firstFit k) [.malloc 24] c ∧
      c.live = [⟨0, (k.val + 2) * 2 ^ 32 + 48, 24⟩] ∧ c.answers.length = 1 ∧
      mmMalloc (Kernel.firstFit k) 100 c.process = .ok ((k.val + 2) * 2 ^ 32 + 112, t) := by
  have hCalls := sampleCalls_eq k
  cases hRun : sampleCalls (Kernel.firstFit k) Process.fresh with
  | error e =>
      rw [hRun] at hCalls
      cases hCalls
  | ok r =>
      obtain ⟨⟨p, q⟩, t⟩ := r
      rw [hRun] at hCalls
      obtain ⟨hp, hq⟩ := Prod.mk.inj (Except.ok.inj hCalls)
      simp only [sampleCalls, Program.bind_eq_ok] at hRun
      obtain ⟨p, u₁, hFirst, q, u₂, hSecond, hPure⟩ := hRun
      obtain ⟨hPair, rfl⟩ := Prod.mk.inj (Except.ok.inj hPure)
      obtain ⟨rfl, rfl⟩ := Prod.mk.inj hPair
      have hBoot : Reachable (Kernel.firstFit k) [] (.start Process.fresh) :=
        .boot (s := Process.fresh) ⟨rfl, rfl, rfl, rfl, rfl⟩ rfl
      refine ⟨_, u₂, hBoot.malloc (by decide) hFirst, ?_, rfl, hq ▸ hSecond⟩
      have hpNe : p ≠ 0 := by omega
      show (if p = 0 then [] else [(⟨0, p, 24⟩ : Live)]) = _
      rw [if_neg hpNe, hp]

/-- There are runs to configurations with two held blocks. -/
theorem exists_pair (k : Fin 16) :
    ∃ c, Reachable (Kernel.firstFit k) [.malloc 24, .malloc 100] c ∧
      c.live = [⟨1, (k.val + 2) * 2 ^ 32 + 112, 100⟩, ⟨0, (k.val + 2) * 2 ^ 32 + 48, 24⟩] := by
  obtain ⟨c, t, hReached, hLive, hLength, hServed⟩ := exists_served k
  refine ⟨_, hReached.malloc (by decide) hServed, ?_⟩
  show (if (k.val + 2) * 2 ^ 32 + 112 = 0 then c.live else
    ⟨c.answers.length, (k.val + 2) * 2 ^ 32 + 112, 100⟩ :: c.live) = _
  rw [if_neg (by omega), hLength, hLive]

/-- There are runs to configurations with a held and a free block. -/
theorem exists_sample (k : Fin 16) :
    ∃ c, Reachable (Kernel.firstFit k) [.malloc 24, .malloc 100, .free 0] c ∧
      c.live = [⟨1, (k.val + 2) * 2 ^ 32 + 112, 100⟩] := by
  obtain ⟨c, hReached, hLive⟩ := exists_pair k
  obtain ⟨π, hSim⟩ := hReached.simulates
  have hHeld : (⟨0, (k.val + 2) * 2 ^ 32 + 48, 24⟩ : Live) ∈ c.live := by simp [hLive]
  obtain ⟨e, he, hAt⟩ := hSim.mem_live.mp hHeld
  obtain ⟨b, hb, -⟩ := hSim.inv.held e he
  obtain ⟨_, t, hRun, -⟩ := Program.returns_iff.mp (mmFree_returns hSim.rep hSim.inv.wf.toTidy hb)
  have hPtr : e.loc.payload π = (k.val + 2) * 2 ^ 32 + 48 := congrArg Live.ptr hAt
  rw [hPtr] at hRun
  refine ⟨_, hReached.free hHeld hRun, ?_⟩
  show c.live.erase _ = _
  rw [hLive]
  simp

end Sample

/-- What the allocator decides depends on the requests only: runs under any two
kernels, with any client writes, get the same places in the same regions and
make the same calls to `memlib.c`, up to the addresses of regions. -/
theorem decisions_determined {K K' : Kernel} {requests : List Request} {c c' : Config}
    (h : Reachable K requests c) (h' : Reachable K' requests c') :
    c.answers = c'.answers ∧
      (ledger c.process.calls).calls = (ledger c'.process.calls).calls := by
  obtain ⟨π, hSim⟩ := h.simulates
  obtain ⟨π', hSim'⟩ := h'.simulates
  constructor
  · rw [hSim.answers, hSim'.answers]
  · rw [hSim.record, hSim'.record]

theorem decisions_determined_sample : ∃ c c' : Config, c.live ≠ c'.live ∧
    c.process.mem 8589934704 = 7 ∧ c.answers = c'.answers ∧
    (ledger c.process.calls).calls = (ledger c'.process.calls).calls := by
  obtain ⟨c, hReached, hLive⟩ := exists_sample 0
  obtain ⟨c', hReached', hLive'⟩ := exists_sample 5
  have hHeld : (⟨1, 8589934704, 100⟩ : Live) ∈ c.live := hLive ▸ List.mem_cons_self
  have hWritten := hReached.write (x := 8589934704) (v := 7) hHeld (by decide) (by decide)
  refine ⟨_, c', ?_, ?_, decisions_determined hWritten hReached'⟩
  · show c.live ≠ c'.live
    rw [hLive, hLive']
    decide
  · exact c.mem_stored 8589934704 7

end Malloc
