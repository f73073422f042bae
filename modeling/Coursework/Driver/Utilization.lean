import Coursework.Driver.Session
import Coursework.Library.Frexp
import Coursework.Malloc.Footprint

/-! `eval_mm_util` and `eval_mm_speed` of `mdriver.c`: what they ask the allocator
for, and what the first one reports. A `double` is an exact number. -/

namespace Mdriver

open Malloc
open Program (read modify stop)

/-- What `app_error` prints before `exit(1)`. -/
inductive AppMessage where
  /-- "mm_init failed in eval_mm_util" -/
  | initUtil
  /-- "mm_malloc failed in eval_mm_util" -/
  | mallocUtil
  /-- "mm_realloc failed in eval_mm_util" -/
  | reallocUtil
  /-- "mm_init failed in eval_mm_speed" -/
  | initSpeed
  /-- "mm_malloc error in eval_mm_speed" -/
  | mallocSpeed
  /-- "mm_realloc error in eval_mm_speed" -/
  | reallocSpeed
deriving DecidableEq, Repr

/-- Why an evaluator does not return. -/
inductive Exit (ε : Type) where
  | halted (h : Halt ε)
  | appError (msg : AppMessage)
  /-- A difference of two `int`s that is not an `int`, which C leaves undefined. -/
  | intOverflow
deriving DecidableEq, Repr

/-- The driver linked with an allocator, and with `mem_heapsize`. -/
structure Metered (σ ε : Type) extends Linked σ ε where
  memHeapsize : Program σ ε Nat

abbrev Evaluator (σ ε α : Type) : Type := Program (State σ) (Exit ε) α

section Code

variable {σ ε α : Type}

def checked (x : Driver σ ε α) : Evaluator σ ε α := fun s => (x s).mapError .halted

def request (x : Program σ ε α) : Evaluator σ ε α := checked (call x)

/-- The local variables that `eval_mm_util` keeps from one operation to the next. The four
sizes are those of the code; the product of the ratios is exact, where C rounds. -/
structure Usage where
  totalSize : Nat
  maxTotalSize : Nat
  heapSize : Nat
  maxHeapSize : Nat
  /-- `accum_ratio_frac` and `accum_ratio_exp`, which are `double`s. -/
  accumRatio : Scaled ℚ
deriving DecidableEq, Repr

namespace Usage

def start : Usage := ⟨0, 0, 0, 0, .one⟩

/-- `(double)(total_size + 1) / (heap_size + 1)`, without the rounding of the `double`s. -/
def ratio (totalSize heapSize : Nat) : ℚ := (add64 totalSize 1 : ℚ) / (add64 heapSize 1 : ℚ)

/-- The statistics after an operation. Only the ratio is rounded in C, so what is said of the
two peaks holds of the code as it runs, and what is said of the ratio in exact arithmetic. -/
def update (u : Usage) (totalSize heapSize : Nat) : Usage where
  totalSize := totalSize
  maxTotalSize := if u.maxTotalSize < totalSize then totalSize else u.maxTotalSize
  heapSize := heapSize
  maxHeapSize := if u.maxHeapSize < heapSize then heapSize else u.maxHeapSize
  accumRatio := u.accumRatio.absorb (ratio totalSize heapSize)

/-- What `eval_mm_util` returns. -/
def util (u : Usage) : ℚ := (u.maxTotalSize : ℚ) / (u.maxHeapSize : ℚ)

/-- What it stores in `*inst_ratio`, for a trace of `numOps` operations. -/
noncomputable def instRatio (u : Usage) (numOps : Nat) : ℝ := u.accumRatio.halfRoot numOps

end Usage

/-- The requests of one operation; the new `total_size`. -/
def evalUtilOp (L : Metered σ ε) (op : TraceOp) (totalSize : Nat) : Evaluator σ ε Nat :=
  match op.type with
  | .alloc => do
      let p ← request (L.mmMalloc (toSizeT op.size))
      if p = 0 then stop (.appError .mallocUtil)
      else do
        checked (remember op.index p (toSizeT op.size))
        pure (add64 totalSize (toSizeT op.size))
  | .realloc => do
      let s ← read
      let oldsize := toInt (s.blockSizes op.index)
      let oldp := s.blocks op.index
      let newp ← request (L.mmMalloc (toSizeT op.size))
      if newp = 0 then stop (.appError .reallocUtil)
      else do
        request (L.mmFree oldp)
        checked (remember op.index newp (toSizeT op.size))
        if op.size - oldsize < -2 ^ 31 ∨ 2 ^ 31 ≤ op.size - oldsize then stop .intOverflow
        else pure (add64 totalSize (toSizeT (op.size - oldsize)))
  | .free => do
      let s ← read
      let size := toInt (s.blockSizes op.index)
      request (L.mmFree (s.blocks op.index))
      pure (sub64 totalSize (toSizeT size))

def evalUtilOps (L : Metered σ ε) : List TraceOp → Usage → Evaluator σ ε Usage
  | [], u => pure u
  | op :: ops, u => do
      let totalSize ← evalUtilOp L op u.totalSize
      let heapSize ← request L.memHeapsize
      evalUtilOps L ops (u.update totalSize heapSize)

def evalMmUtil (L : Metered σ ε) (ops : List TraceOp) : Evaluator σ ε Usage := do
  let r ← request L.mmInit
  if r < 0 then stop (.appError .initUtil)
  else do
    let u ← evalUtilOps L ops .start
    request L.memReset
    pure u

/-- `trace->blocks[index] = p;` -/
def rememberBlock (index p : Nat) : Evaluator σ ε Unit :=
  modify fun s => { s with blocks := Function.update s.blocks index p }

def evalSpeedOp (L : Metered σ ε) (op : TraceOp) : Evaluator σ ε Unit :=
  match op.type with
  | .alloc => do
      let p ← request (L.mmMalloc (toSizeT op.size))
      if p = 0 then stop (.appError .mallocSpeed) else rememberBlock op.index p
  | .realloc => do
      let s ← read
      let oldp := s.blocks op.index
      let newp ← request (L.mmMalloc (toSizeT op.size))
      if newp = 0 then stop (.appError .reallocSpeed)
      else do
        request (L.mmFree oldp)
        rememberBlock op.index newp
  | .free => do
      let s ← read
      request (L.mmFree (s.blocks op.index))

def evalSpeedOps (L : Metered σ ε) : List TraceOp → Evaluator σ ε Unit
  | [] => pure ()
  | op :: ops => do
      evalSpeedOp L op
      evalSpeedOps L ops

def evalMmSpeed (L : Metered σ ε) (ops : List TraceOp) : Evaluator σ ε Unit := do
  let r ← request L.mmInit
  if r < 0 then stop (.appError .initSpeed)
  else do
    evalSpeedOps L ops
    request L.memReset

end Code

/-- The driver linked with `mm.c` and `memlib.c`. -/
def metered (K : Kernel) : Metered Process Abort := { mm K with memHeapsize := Malloc.memHeapsize }

section Rules

variable {σ ε α : Type} {s : State σ} {Q : α → State σ → Prop} {E : Exit ε → Prop}

/-- The driver's own steps within an evaluator: their errors become exits. -/
theorem meets_checked {x : Driver σ ε α} :
    (checked x).Meets s Q E ↔ x.Meets s Q fun h => E (.halted h) := by
  cases hRun : x s with
  | error h =>
      have hChecked : checked x s = .error (.halted h) := by
        rw [checked, hRun]
        rfl
      rw [Program.meets_of_error hChecked, Program.meets_of_error hRun]
  | ok r =>
      have hChecked : checked x s = .ok r := by
        rw [checked, hRun]
        rfl
      rw [Program.meets_of_ok hChecked, Program.meets_of_ok hRun]

/-- A call of the allocator changes what the allocator sees of the process, and nothing that is
the driver's. -/
theorem meets_call {x : Program σ ε α} {F : Halt ε → Prop} : (call x).Meets s Q F ↔
    x.Meets s.linked (fun a t => Q a { s with linked := t }) fun e => F (.linked e) := by
  cases hRun : x s.linked with
  | error e =>
      have hCall : call x s = .error (.linked e) := by rw [call, hRun]
      rw [Program.meets_of_error hCall, Program.meets_of_error hRun]
  | ok r => rw [Program.meets_of_ok (call_of_ok hRun), Program.meets_of_ok hRun]

/-- A call of the allocator is a step of the linked program inside the state of the driver. -/
theorem meets_request {x : Program σ ε α} : (request x).Meets s Q E ↔
    x.Meets s.linked (fun a t => Q a { s with linked := t }) fun e => E (.halted (.linked e)) := by
  rw [request, meets_checked, meets_call]

@[simp] theorem meets_remember {Q : Unit → State σ → Prop} {index p size : Nat} :
    (checked (remember index p size)).Meets s Q E ↔ Q () { s with
      blocks := Function.update s.blocks index p
      blockSizes := Function.update s.blockSizes index size } := Iff.rfl

@[simp] theorem meets_rememberBlock {Q : Unit → State σ → Prop} {index p : Nat} :
    (rememberBlock index p).Meets s Q E ↔
      Q () { s with blocks := Function.update s.blocks index p } := Iff.rfl

end Rules

section Totals

variable {x : Session} {i n : Nat} {e : Lease}

/-- The cast to `size_t` changes no size below its width. -/
theorem toSizeT_natCast (h : n < 2 ^ 64) : toSizeT n = n := by
  rw [toSizeT]
  omega

/-- The difference of two sizes, added to a `size_t`. -/
theorem add64_difference {total old new : Nat} (hOld : old ≤ total)
    (hTotal : total < 2 ^ 64) (hOldInt : old < 2 ^ 31) (hNewInt : new < 2 ^ 31)
    (hFits : total - old + new < 2 ^ 64) :
    add64 total (toSizeT ((new : Int) - old)) = total - old + new := by
  rw [add64, toSizeT]
  omega

/-- A new lease adds its size to the bytes in use. -/
theorem Session.payloadBytes_malloc (x : Session) (i n : Nat) :
    (x.malloc i n).payloadBytes = n + x.payloadBytes := rfl

/-- Giving a lease back takes its size away. The sum is written without a difference. -/
theorem Session.Inv.payloadBytes_eraseP (h : x.Inv) (he : (i, e) ∈ x.named) :
    e.size + ((x.named.eraseP fun y => y.1 = i).map fun y => y.2.size).sum = x.payloadBytes := by
  rw [h.eraseP_eq he, payloadBytes, ((List.perm_cons_erase he).map fun y => y.2.size).sum_eq]
  rfl

/-- A free subtracts the size that the block was asked for with, which is what the code does
with `block_sizes`. -/
theorem Session.Inv.payloadBytes_free (h : x.Inv) (he : (i, e) ∈ x.named) :
    e.size + (x.free i).payloadBytes = x.payloadBytes := h.payloadBytes_eraseP he

/-- A realloc adds the new size and subtracts the old one. The code adds their difference as an
`int`, and arrives at the same sum. -/
theorem Session.Inv.payloadBytes_realloc (h : x.Inv) (he : (i, e) ∈ x.named) :
    e.size + (x.realloc i n).payloadBytes = n + x.payloadBytes := by
  rw [← h.payloadBytes_eraseP he, ← Nat.add_assoc, Nat.add_comm n, Nat.add_assoc]
  rfl

/-- What is asked for fits in the heap, and the heap in the address space. -/
theorem Carries.payloadBytes_le {π : Nat → Nat} {s : Process} {blocks : Nat → Nat}
    (h : Carries π s blocks x) : x.payloadBytes ≤ x.heapBytes ∧ x.heapBytes < 2 ^ 64 := by
  have hSum := h.rep.layout.sum_leases_le h.inv.ideal
  rw [← h.inv.live, List.map_map] at hSum
  exact ⟨hSum, h.rep.layout.sum_chunks_lt⟩

end Totals

/-- The driver also knows the sizes of the live ids. -/
structure Sized (π : Nat → Nat) (s : State Process) (x : Session) : Prop where
  carries : Carries π s.linked s.blocks x
  sizes : ∀ y ∈ x.named, s.blockSizes y.1 = y.2.size ∧ y.2.size < 2 ^ 31

section Steps

variable {π π' : Nat → Nat} {K : Kernel} {s t : State Process} {u : Process} {x : Session}
  {op : TraceOp} {i n q : Nat} {e : Lease}

/-- The arrays after `a`: the id has the answer and the size, and all others have what they
had. -/
theorem Sized.alloc (h : Sized π s x) (hn : 0 < n) (hInt : n < 2 ^ 31) (hi : i ∉ x.ids)
    (hServed : Served π π' s.linked u x.ideal.heap n q) :
    Sized π' { s with
      linked := u
      blocks := Function.update s.blocks i q
      blockSizes := Function.update s.blockSizes i n } (x.malloc i n) := by
  refine ⟨h.carries.malloc hn hi hServed, List.forall_mem_cons.mpr ⟨⟨?_, hInt⟩, fun y hy => ?_⟩⟩
  · exact Function.update_self ..
  · have hNe : y.1 ≠ i := by
      rintro rfl
      exact hi (Session.mem_ids.mpr ⟨y.2, hy⟩)
    show Function.update s.blockSizes i n y.1 = _ ∧ _
    rw [Function.update_of_ne hNe]
    exact h.sizes y hy

/-- The arrays after `r`: the new address and the new size are at the old place. -/
theorem Sized.realloc (h : Sized π s x) (hInt : n < 2 ^ 31)
    (hCarries : Carries π' u (Function.update s.blocks i q) (x.realloc i n)) :
    Sized π' { s with
      linked := u
      blocks := Function.update s.blocks i q
      blockSizes := Function.update s.blockSizes i n } (x.realloc i n) := by
  have hNames := List.nodup_cons.mp hCarries.inv.names
  refine ⟨hCarries, List.forall_mem_cons.mpr ⟨⟨?_, hInt⟩, fun y hy => ?_⟩⟩
  · exact Function.update_self ..
  · have hNe : y.1 ≠ i := fun hEq => hNames.1 (List.mem_map.mpr ⟨y, hy, hEq⟩)
    show Function.update s.blockSizes i n y.1 = _ ∧ _
    rw [Function.update_of_ne hNe]
    exact h.sizes y (List.mem_of_mem_eraseP hy)

theorem natCast_toSizeT {size : Int} (hPos : 0 < size) (hFits : size < 2 ^ 31) :
    (toSizeT size : Int) = size := by
  rw [toSizeT]
  omega

/-- A free gives back the size that was recorded. -/
theorem Sized.step_free (h : Sized π s x) (K : Kernel) (hOp : op.Allowed x.ids)
    (hType : op.type = .free) :
    (evalUtilOp (metered K) op x.payloadBytes).Meets s
      (fun total t => total = (x.step op).payloadBytes ∧ t.errors = s.errors ∧
        ∃ π', Sized π' t (x.step op))
      (fun e => e = .halted (.linked .mmapFailed)) := by
  have hi := hOp.live (by simp [hType])
  obtain ⟨e, he⟩ := Session.mem_ids.mp hi
  obtain ⟨hSize, hInt⟩ : s.blockSizes op.index = e.size ∧ e.size < 2 ^ 31 := h.sizes _ he
  have hBytes := h.carries.inv.payloadBytes_free he
  have hBound := h.carries.payloadBytes_le
  rw [evalUtilOp, Session.step, hType]
  simp only [Program.meets_bind, Program.meets_read, meets_request, Program.meets_pure]
  refine (h.carries.free hi).meets fun _ u hFreed => ⟨?_, trivial, π, hFreed, fun y hy => ?_⟩
  · rw [hSize, toInt_eq hInt, toSizeT_natCast (by omega), sub64_eq (by omega) (by omega)]
    omega
  · exact h.sizes y (List.mem_of_mem_eraseP hy)

/-- Step lemma of `a` under `eval_mm_util`: the bytes in use are those of the session, or
`mmap` fails. -/
theorem Sized.step_alloc (h : Sized π s x) (K : Kernel) (hOp : op.Allowed x.ids)
    (hType : op.type = .alloc) :
    (evalUtilOp (metered K) op x.payloadBytes).Meets s
      (fun total t => total = (x.step op).payloadBytes ∧ t.errors = s.errors ∧
        ∃ π', Sized π' t (x.step op))
      (fun e => e = .halted (.linked .mmapFailed)) := by
  obtain ⟨hn, hInt⟩ := toSizeT_pos (hOp.size (by simp [hType])) op.fits.2
  have hMalloc := mmMalloc_meets (K := K) h.carries.rep h.carries.inv.ideal.wf.toTidy hn (by omega)
  rw [evalUtilOp, Session.step, hType]
  simp only [Program.meets_bind, meets_request]
  refine hMalloc.mono (fun q u hGot => ?_) fun e he => congrArg _ (congrArg _ he.1)
  obtain ⟨π', hServed⟩ := hGot
  have hSized := h.alloc hn hInt (hOp.index.mp hType) hServed
  have hBound := hSized.carries.payloadBytes_le
  rw [if_neg hServed.ne_zero]
  simp only [Program.meets_bind, meets_remember, Program.meets_pure]
  refine ⟨?_, trivial, π', hSized⟩
  rw [Session.payloadBytes_malloc] at hBound ⊢
  rw [add64_eq (by omega), Nat.add_comm]

/-- A reallocation adds the difference of the sizes, which may be negative. -/
theorem Sized.step_realloc (h : Sized π s x) (K : Kernel) (hOp : op.Allowed x.ids)
    (hType : op.type = .realloc) :
    (evalUtilOp (metered K) op x.payloadBytes).Meets s
      (fun total t => total = (x.step op).payloadBytes ∧ t.errors = s.errors ∧
        ∃ π', Sized π' t (x.step op))
      (fun e => e = .halted (.linked .mmapFailed)) := by
  have hPos := hOp.size (by simp [hType])
  obtain ⟨hn, hInt⟩ := toSizeT_pos hPos op.fits.2
  have hCast := natCast_toSizeT hPos op.fits.2
  generalize hSize : toSizeT op.size = n at hn hInt hCast
  have hMalloc := mmMalloc_meets (K := K) h.carries.rep h.carries.inv.ideal.wf.toTidy hn (by omega)
  have hi := hOp.live (by simp [hType])
  obtain ⟨e, he⟩ := Session.mem_ids.mp hi
  obtain ⟨hOldSize, hOldInt⟩ : s.blockSizes op.index = e.size ∧ e.size < 2 ^ 31 := h.sizes _ he
  have hBytes := h.carries.inv.payloadBytes_realloc (n := n) he
  have hOldBytes := h.carries.inv.payloadBytes_free he
  have hOldBound := h.carries.payloadBytes_le
  rw [evalUtilOp, Session.step, hType, hSize]
  simp only [Program.meets_bind, Program.meets_read, meets_request]
  refine hMalloc.mono (fun q u hGot => ?_) fun e he => congrArg _ (congrArg _ he.1)
  obtain ⟨π', hServed⟩ := hGot
  rw [if_neg hServed.ne_zero]
  simp only [Program.meets_bind, meets_request, meets_remember]
  refine (h.carries.realloc hn hi hServed).meets fun _ v hCarries => ?_
  have hSized := h.realloc hInt hCarries
  have hBound := hSized.carries.payloadBytes_le
  rw [hOldSize, toInt_eq hOldInt, ← hCast, if_neg (by omega), Program.meets_pure]
  refine ⟨?_, rfl, π', hSized⟩
  rw [add64_difference (by omega) (by omega) hOldInt hInt (by omega)]
  omega

/-- One operation, with the sum of the sizes in `total_size`. -/
theorem Sized.step (h : Sized π s x) (K : Kernel) (hOp : op.Allowed x.ids) :
    (evalUtilOp (metered K) op x.payloadBytes).Meets s
      (fun total t => total = (x.step op).payloadBytes ∧ t.errors = s.errors ∧
        ∃ π', Sized π' t (x.step op))
      (fun e => e = .halted (.linked .mmapFailed)) := by
  cases hType : op.type with
  | free => exact h.step_free K hOp hType
  | alloc => exact h.step_alloc K hOp hType
  | realloc => exact h.step_realloc K hOp hType

/-- The statistics after all operations, from the states of the session. -/
def Usage.collect (u : Usage) (xs : List Session) : Usage :=
  xs.foldl (fun u x => u.update x.payloadBytes x.heapBytes) u

/-- The operations of a trace, with the statistics. -/
theorem Sized.run {ops : List TraceOp} (h : Sized π s x) (K : Kernel) (hOps : WellFormed x.ids ops)
    (hSmall : ∀ y ∈ x.after ops, y.heapBytes < 2 ^ 31) {u : Usage}
    (hTotal : u.totalSize = x.payloadBytes) :
    (evalUtilOps (metered K) ops u).Meets s
      (fun v t => v = u.collect (x.after ops) ∧
        (∀ y ∈ x.after ops, y.payloadBytes ≤ y.heapBytes) ∧ t.errors = s.errors ∧
        ∃ π' y, Sized π' t y)
      (fun e => e = .halted (.linked .mmapFailed)) := by
  induction ops generalizing π s x u with
  | nil => exact ⟨rfl, nofun, rfl, π, x, h⟩
  | cons op ops ih =>
      obtain ⟨hOp, hRest⟩ := hOps
      obtain ⟨hNow, hLater⟩ := List.forall_mem_cons.mp hSmall
      rw [evalUtilOps, Program.meets_bind, hTotal]
      refine (h.step K hOp).mono (fun total t hStep => ?_) fun e he => he
      obtain ⟨rfl, hErrors, π', hSized⟩ := hStep
      have hHeap : (metered K).memHeapsize t.linked = .ok ((x.step op).heapBytes, t.linked) :=
        hSized.carries.rep.memHeapsize hNow
      rw [Program.meets_bind, meets_request, Program.meets_of_ok hHeap]
      rw [← h.carries.inv.ids_step hOp] at hRest
      refine (ih hSized hRest hLater rfl).mono (fun v w hEnd => ?_) fun e he => he
      obtain ⟨hCollect, hFits, hSame, hLast⟩ := hEnd
      exact ⟨hCollect, List.forall_mem_cons.mpr ⟨hSized.carries.payloadBytes_le.1, hFits⟩,
        hSame.trans hErrors, hLast⟩

end Steps

section Speed

variable {π : Nat → Nat} {s : State Process} {x : Session} {op : TraceOp}

/-- The requests of `eval_mm_speed` are those of `eval_mm_util`. -/
theorem Carries.speedStep (h : Carries π s.linked s.blocks x) (K : Kernel)
    (hOp : op.Allowed x.ids) : (evalSpeedOp (metered K) op).Meets s
      (fun _ t => t.errors = s.errors ∧ ∃ π', Carries π' t.linked t.blocks (x.step op))
      (fun e => e = .halted (.linked .mmapFailed)) := by
  by_cases hType : op.type = .free
  · rw [evalSpeedOp, Session.step, hType]
    simp only [Program.meets_bind, Program.meets_read, meets_request]
    exact (h.free (hOp.live (by simp [hType]))).meets fun _ u hFreed => ⟨trivial, π, hFreed⟩
  · obtain ⟨hn, hInt⟩ := toSizeT_pos (hOp.size hType) op.fits.2
    have hMalloc := mmMalloc_meets (K := K) h.rep h.inv.ideal.wf.toTidy hn (by omega)
    cases hOf : op.type with
    | free => exact absurd hOf hType
    | alloc =>
        rw [evalSpeedOp, Session.step, hOf]
        simp only [Program.meets_bind, meets_request]
        refine hMalloc.mono (fun q u hGot => ?_) fun e he => congrArg _ (congrArg _ he.1)
        obtain ⟨π', hServed⟩ := hGot
        rw [if_neg hServed.ne_zero, meets_rememberBlock]
        exact ⟨rfl, π', h.malloc hn (hOp.index.mp hOf) hServed⟩
    | realloc =>
        rw [evalSpeedOp, Session.step, hOf]
        simp only [Program.meets_bind, Program.meets_read, meets_request]
        refine hMalloc.mono (fun q u hGot => ?_) fun e he => congrArg _ (congrArg _ he.1)
        obtain ⟨π', hServed⟩ := hGot
        rw [if_neg hServed.ne_zero]
        simp only [Program.meets_bind, meets_request, meets_rememberBlock]
        exact (h.realloc hn (hOp.live (by simp [hOf])) hServed).meets
          fun _ v hCarries => ⟨trivial, π', hCarries⟩

/-- Run lemma of `eval_mm_speed`, by induction on the trace: every request is served as in the
session. -/
theorem Carries.speedRun {ops : List TraceOp} (h : Carries π s.linked s.blocks x) (K : Kernel)
    (hOps : WellFormed x.ids ops) : (evalSpeedOps (metered K) ops).Meets s
      (fun _ t => t.errors = s.errors ∧
        ∃ π', Carries π' t.linked t.blocks (ops.foldl Session.step x))
      (fun e => e = .halted (.linked .mmapFailed)) := by
  induction ops generalizing π s x with
  | nil => exact ⟨rfl, π, h⟩
  | cons op ops ih =>
      obtain ⟨hOp, hRest⟩ := hOps
      rw [evalSpeedOps, Program.meets_bind]
      refine (h.speedStep K hOp).mono (fun _ t hStep => ?_) fun e he => he
      obtain ⟨hErrors, π', hNext⟩ := hStep
      rw [← h.inv.ids_step hOp] at hRest
      refine (ih hNext hRest).mono (fun _ u hEnd => ?_) fun e he => he
      exact ⟨hEnd.1.trans hErrors, hEnd.2⟩

end Speed

section Statistics

variable {u : Usage} {xs : List Session} {ops : List TraceOp}

/-- The largest of some numbers, and zero when there are none. -/
def peak : List Nat → Nat
  | [] => 0
  | n :: ns => max n (peak ns)

/-- Where one quantity bounds another at every point, so do their peaks. -/
theorem peak_le_peak {f g : Session → Nat} (h : ∀ x ∈ xs, f x ≤ g x) :
    peak (xs.map f) ≤ peak (xs.map g) := by
  induction xs with
  | nil => exact Nat.le_refl _
  | cons x xs ih =>
      obtain ⟨hx, hxs⟩ := List.forall_mem_cons.mp h
      have hRest := ih hxs
      rw [List.map_cons, List.map_cons, peak, peak]
      omega

/-- An operation raises the two peaks to what there is after it, if that is more. -/
theorem Usage.update_max (u : Usage) (total heap : Nat) :
    (u.update total heap).maxTotalSize = max u.maxTotalSize total ∧
      (u.update total heap).maxHeapSize = max u.maxHeapSize heap := by
  unfold Usage.update
  constructor
  · simp only
    split <;> omega
  · simp only
    split <;> omega

/-- After a run the peaks are the greatest values of the run. -/
theorem Usage.collect_max (u : Usage) (xs : List Session) :
    (u.collect xs).maxTotalSize = max u.maxTotalSize (peak (xs.map Session.payloadBytes)) ∧
      (u.collect xs).maxHeapSize = max u.maxHeapSize (peak (xs.map Session.heapBytes)) := by
  induction xs generalizing u with
  | nil => exact ⟨(Nat.max_zero _).symm, (Nat.max_zero _).symm⟩
  | cons x xs ih =>
      obtain ⟨hTotal, hHeap⟩ := ih (u.update x.payloadBytes x.heapBytes)
      obtain ⟨hNewTotal, hNewHeap⟩ := u.update_max x.payloadBytes x.heapBytes
      rw [Usage.collect, List.foldl_cons, List.map_cons, List.map_cons, peak, peak]
      refine ⟨hTotal.trans ?_, hHeap.trans ?_⟩
      · rw [hNewTotal, Nat.max_assoc]
      · rw [hNewHeap, Nat.max_assoc]

/-- The ratios of all operations are multiplied one by one. -/
theorem Usage.collect_ratio (u : Usage) (xs : List Session) :
    (u.collect xs).accumRatio =
      (xs.map fun x => ratio x.payloadBytes x.heapBytes).foldl Scaled.absorb u.accumRatio := by
  induction xs generalizing u with
  | nil => rfl
  | cons x xs ih => exact ih _

theorem Session.length_after (x : Session) (ops : List TraceOp) :
    (x.after ops).length = ops.length := by
  induction ops generalizing x with
  | nil => rfl
  | cons op ops ih => exact congrArg (· + 1) (ih (x.step op))

theorem Session.after_ne_nil (x : Session) (h : ops ≠ []) : x.after ops ≠ [] := by
  intro hNil
  have hLength := x.length_after ops
  rw [hNil] at hLength
  exact h (List.eq_nil_of_length_eq_zero hLength.symm)

/-- Neither sum wraps, so the ratio is that of the numbers. -/
theorem ratio_eq {total heap : Nat} (hFits : total ≤ heap) (hSmall : heap < 2 ^ 31) :
    Usage.ratio total heap = (total + 1 : ℚ) / (heap + 1 : ℚ) := by
  rw [Usage.ratio, add64_eq (by omega), add64_eq (by omega), Nat.cast_add_one, Nat.cast_add_one]

end Statistics

section Traces

variable {K : Kernel} {d : State Process} {ops : List TraceOp}

/-- Before the first operation the driver has no block in its arrays that counts. -/
theorem sized_started (hMapped : NothingMapped d.linked) :
    Sized id { d with linked := { d.linked with freeListHead := 0, pageListHead := 0 } }
      Session.start :=
  ⟨⟨Malloc.rep_start hMapped.memLibRep, Session.inv_start, nofun⟩, nofun⟩

/-- `mem_reset` after a trace. -/
theorem memReset_unmaps {π : Nat → Nat} {s : Process} {cs : List Chunk} {fr : List Loc}
    (h : Rep π s cs fr) : Malloc.memReset.Returns s fun _ t => NothingMapped t := by
  obtain ⟨pages, hLib, -⟩ := h.lib
  obtain ⟨maps, os, hReset, hEmpty, -⟩ := memReset_ok hLib.table
  exact Program.returns_iff.mpr ⟨(), _, hReset, fun page => hEmpty.absent page nofun, rfl, rfl⟩

/-- All of `eval_mm_util`: the statistics are those of the session of the trace, and
nothing stays mapped. -/
theorem evalMmUtil_meets (hMapped : NothingMapped d.linked) (hTrace : WellFormed ∅ ops)
    (hSmall : ∀ y ∈ Session.start.after ops, y.heapBytes < 2 ^ 31) :
    (evalMmUtil (metered K) ops).Meets d
      (fun u t => u = Usage.start.collect (Session.start.after ops) ∧
        (∀ y ∈ Session.start.after ops, y.payloadBytes ≤ y.heapBytes) ∧ t.errors = d.errors ∧
        NothingMapped t.linked)
      (fun e => e = .halted (.linked .mmapFailed)) := by
  have hInit : (metered K).mmInit d.linked =
      .ok (0, { d.linked with freeListHead := 0, pageListHead := 0 }) := rfl
  rw [evalMmUtil, Program.meets_bind, meets_request, Program.meets_of_ok hInit, if_neg (by decide),
    Program.meets_bind]
  refine ((sized_started hMapped).run K hTrace hSmall rfl).mono (fun u s hEnd => ?_) fun e he => he
  obtain ⟨rfl, hFits, hErrors, π, x, hSized⟩ := hEnd
  rw [Program.meets_bind, meets_request]
  exact (memReset_unmaps hSized.carries.rep).meets fun _ t hReset => ⟨rfl, hFits, hErrors, hReset⟩

theorem nothingMapped_fresh : NothingMapped freshState.linked := ⟨fun _ => rfl, rfl, rfl⟩

theorem sampleTrace_small : WellFormed ∅ sampleTrace ∧
    ∀ y ∈ Session.start.after sampleTrace, y.heapBytes < 2 ^ 31 := by
  decide +kernel

theorem sampleTrace_util : (evalMmUtil (metered (Kernel.firstFit 0)) sampleTrace freshState).map
    (fun r => (r.1.maxTotalSize, r.1.maxHeapSize)) = .ok (5000, 8192) := by
  decide +kernel

/-- The evaluator returns on the sample. -/
theorem sampleTrace_returns :
    ∃ r, evalMmUtil (metered (Kernel.firstFit 0)) sampleTrace freshState = .ok r := by
  have hRun := sampleTrace_util
  generalize sampleTrace = ops at hRun ⊢
  cases hCase : evalMmUtil (metered (Kernel.firstFit 0)) ops freshState with
  | error e =>
      rw [hCase] at hRun
      cases hRun
  | ok r => exact ⟨r, rfl⟩

/-- All of `eval_mm_speed`, which nothing stops but a failure of `mmap`. -/
theorem evalMmSpeed_meets (hMapped : NothingMapped d.linked) (hTrace : WellFormed ∅ ops) :
    (evalMmSpeed (metered K) ops).Meets d
      (fun _ t => t.errors = d.errors ∧ NothingMapped t.linked)
      (fun e => e = .halted (.linked .mmapFailed)) := by
  have hInit : (metered K).mmInit d.linked =
      .ok (0, { d.linked with freeListHead := 0, pageListHead := 0 }) := rfl
  rw [evalMmSpeed, Program.meets_bind, meets_request, Program.meets_of_ok hInit,
    if_neg (by decide), Program.meets_bind]
  refine ((sized_started hMapped).carries.speedRun K hTrace).mono (fun _ s hEnd => ?_)
    fun e he => he
  obtain ⟨hErrors, π, hCarries⟩ := hEnd
  rw [meets_request]
  exact (memReset_unmaps hCarries.rep).meets fun _ t hReset => ⟨hErrors, hReset⟩

/-- On every well-formed trace for which the heap stays below two GiB, `eval_mm_util`
stops only when `mmap` fails. It returns the high-water mark of the trace over that of
the heap, which the trace alone determines, and the first is at most the second. -/
theorem eval_mm_util_exact (hMapped : NothingMapped d.linked) (hTrace : WellFormed ∅ ops)
    (hSmall : ∀ y ∈ Session.start.after ops, y.heapBytes < 2 ^ 31) :
    (evalMmUtil (metered K) ops).Meets d
      (fun u t => u.maxTotalSize = peak (totals [] ops) ∧
        u.maxHeapSize = peak ((Session.start.after ops).map Session.heapBytes) ∧
        u.maxTotalSize ≤ u.maxHeapSize ∧ NothingMapped t.linked)
      (fun e => e = .halted (.linked .mmapFailed)) := by
  refine (evalMmUtil_meets hMapped hTrace hSmall).mono (fun u t hEnd => ?_) fun e he => he
  obtain ⟨rfl, hFits, -, hReset⟩ := hEnd
  obtain ⟨hTotal, hHeap⟩ := Usage.start.collect_max (Session.start.after ops)
  have hStart : totals [] ops = _ := Session.totals_eq Session.start ops
  have hPeaks := peak_le_peak hFits
  rw [hTotal, hHeap, hStart]
  exact ⟨Nat.zero_max _, Nat.zero_max _, max_le_max (Nat.le_refl 0) hPeaks, hReset⟩

/-- A trace of three operations: 5000 of 8192 bytes. -/
theorem eval_mm_util_exact_sample : ∃ u t,
    evalMmUtil (metered (Kernel.firstFit 0)) sampleTrace freshState = .ok (u, t) ∧
    u.maxTotalSize = peak (totals [] sampleTrace) ∧
    u.maxHeapSize = peak ((Session.start.after sampleTrace).map Session.heapBytes) ∧
    u.maxTotalSize ≤ u.maxHeapSize ∧ NothingMapped t.linked := by
  obtain ⟨⟨u, t⟩, hRun⟩ := sampleTrace_returns
  obtain ⟨hTrace, hSmall⟩ := sampleTrace_small
  generalize sampleTrace = ops at hRun hTrace hSmall ⊢
  exact ⟨u, t, hRun, (eval_mm_util_exact nothingMapped_fresh hTrace hSmall).of_ok hRun⟩

/-- The geometric mean of the shares of the heap that are in use after the
operations, with one byte more in use and one byte more in the heap. -/
noncomputable def meanShare (xs : List Session) : ℝ :=
  ((xs.map fun x => ((x.payloadBytes : ℝ) + 1) / ((x.heapBytes : ℝ) + 1)).prod) ^
    (1 / (xs.length : ℝ))

/-- The root that is taken of the ratios of all operations. -/
theorem Usage.instRatio_collect {xs : List Session} (hSome : xs ≠ [])
    (hFits : ∀ x ∈ xs, x.payloadBytes ≤ x.heapBytes) (hSmall : ∀ x ∈ xs, x.heapBytes < 2 ^ 31) :
    meanShare xs / 2 < (Usage.start.collect xs).instRatio xs.length ∧
      (Usage.start.collect xs).instRatio xs.length ≤ meanShare xs := by
  have hShares := fun x hx => ratio_eq (hFits x hx) (hSmall x hx)
  have hPos : ∀ q ∈ xs.map fun x => Usage.ratio x.payloadBytes x.heapBytes, 0 < q := by
    intro q hq
    obtain ⟨x, hx, rfl⟩ := List.mem_map.mp hq
    rw [hShares x hx]
    positivity
  obtain ⟨hLow, hHigh⟩ := Scaled.foldl_absorb_bounds hPos (by simpa using hSome)
  obtain ⟨-, hValue⟩ := Scaled.foldl_absorb (a := .one) hPos one_pos
  have hMean : meanShare xs = ((((xs.map fun x => Usage.ratio x.payloadBytes x.heapBytes).foldl
      Scaled.absorb .one).value : ℚ) : ℝ) ^ (1 / (xs.length : ℝ)) := by
    rw [hValue, meanShare, Scaled.value_one, one_mul, Rat.cast_list_prod, List.map_map]
    refine congrArg (fun ys => List.prod ys ^ _) (List.map_congr_left fun x hx => ?_)
    rw [Function.comp_apply, hShares x hx]
    push_cast
    rfl
  rw [hMean, Usage.instRatio, Usage.collect_ratio]
  exact Scaled.halfRoot_bounds hLow hHigh (List.length_pos_iff.mpr hSome)

/-- What `eval_mm_util` stores in `*inst_ratio` is at most the geometric mean, but more
than half of it. -/
theorem inst_ratio_bounds (hMapped : NothingMapped d.linked) (hTrace : WellFormed ∅ ops)
    (hNonempty : ops ≠ []) (hSmall : ∀ y ∈ Session.start.after ops, y.heapBytes < 2 ^ 31) :
    (evalMmUtil (metered K) ops).Meets d
      (fun u _ => meanShare (Session.start.after ops) / 2 < u.instRatio ops.length ∧
        u.instRatio ops.length ≤ meanShare (Session.start.after ops))
      (fun e => e = .halted (.linked .mmapFailed)) := by
  refine (evalMmUtil_meets hMapped hTrace hSmall).mono (fun u t hEnd => ?_) fun e he => he
  obtain ⟨rfl, hFits, -⟩ := hEnd
  have hLength := Session.length_after Session.start ops
  have hBounds := Usage.instRatio_collect (Session.after_ne_nil Session.start hNonempty) hFits
    hSmall
  rwa [hLength] at hBounds

theorem inst_ratio_bounds_sample : ∃ u t,
    evalMmUtil (metered (Kernel.firstFit 0)) sampleTrace freshState = .ok (u, t) ∧
    meanShare (Session.start.after sampleTrace) / 2 < u.instRatio sampleTrace.length ∧
    u.instRatio sampleTrace.length ≤ meanShare (Session.start.after sampleTrace) := by
  obtain ⟨⟨u, t⟩, hRun⟩ := sampleTrace_returns
  obtain ⟨hTrace, hSmall⟩ := sampleTrace_small
  have hNonempty : sampleTrace ≠ [] := by decide
  generalize sampleTrace = ops at hRun hTrace hSmall hNonempty ⊢
  exact ⟨u, t, hRun,
    (inst_ratio_bounds nothingMapped_fresh hTrace hNonempty hSmall).of_ok hRun⟩

end Traces

end Mdriver
