import Coursework.Malloc.Runs
import Coursework.Malloc.View

/-! From the tags of a block to the blocks beside it, in any heap whose chunks
are cut into blocks with agreeing tags. -/

namespace Malloc

open Tiling Bytes DoublyLinked

/-- Every chunk on the page list is cut into blocks with agreeing tags. -/
structure WellFormed (s : Process) (chunks : List ChunkView) : Prop extends Paged s chunks where
  cut : ∀ c ∈ chunks, Cut s c

/-- The bytes of the chunk `c`, and the words that a walk over the page list
reads of the chunks before it: where the next chunk is and where they end. -/
def Footprint (before : List ChunkView) (c : ChunkView) : Set Nat :=
  {x | x ∈ span c.base c.size ∨ ∃ d ∈ before, x ∈ span (d.base + 8) 8 ∨ x ∈ span (d.base + 24) 8}

/-- The page list has the same head, and the region the same bytes on the same
pages. -/
structure SameOn (region : Set Nat) (s u : Process) : Prop where
  head : u.pageListHead = s.pageListHead
  mem : ∀ x ∈ region, u.mem x = s.mem x
  mapped : ∀ x ∈ region, u.os.mapped (x / apageSize) = s.os.mapped (x / apageSize)

/-- `p` is where the block before `b` starts and `n` where the one after it
does, `NULL` if there is none, and neither lies in another chunk. -/
structure Neighbours (chunks : List ChunkView) (c : ChunkView) (left : List BlockView)
    (b : BlockView) (right : List BlockView) (p n : Nat) : Prop where
  first : p = 0 ↔ left = []
  last : n = 0 ↔ right = []
  before : ∀ a ∈ left.getLast?, p = a.addr ∧ p + a.size = b.addr
  after : ∀ a ∈ right.head?, n = a.addr ∧ n = b.addr + b.size
  own : ∀ d ∈ chunks, d ≠ c → p ∉ span d.base d.size ∧ n ∉ span d.base d.size

/-- What `get_prev_block` and `get_next_block` return for the header at `h`, and
that each undoes the other. -/
structure Navigates (u : Process) (h p n : Nat) : Prop where
  prev : getPrevBlock h u = .ok (p, u)
  next : getNextBlock h u = .ok (n, u)
  nextPrev : p ≠ 0 → getNextBlock p u = .ok (h, u)
  prevNext : n ≠ 0 → getPrevBlock n u = .ok (h, u)

section Locality

variable {s u : Process} {before after chunks : List ChunkView} {c d : ChunkView}
  {region : Set Nat} {a n : Nat}

theorem SameOn.refl (region : Set Nat) (s : Process) : SameOn region s s :=
  ⟨rfl, fun _ _ => rfl, fun _ _ => rfl⟩

theorem SameOn.read (h : SameOn region s u) (hSub : span a n ⊆ region) :
    u.mem.read a n = s.mem.read a n :=
  read_congr fun x hLow hHigh => h.mem x (hSub ⟨hLow, hHigh⟩)

/-- What may be accessed within the region may be accessed in both states. -/
theorem SameOn.accessible (h : SameOn region s u) (hSub : span a n ⊆ region) (hPos : 0 < n)
    (hReadable : s.os.accessible a n = true) : u.os.accessible a n = true := by
  rw [OS.accessible, Bool.and_eq_true] at hReadable ⊢
  rw [h.mapped a (hSub ⟨Nat.le_refl _, by omega⟩),
    h.mapped (a + n - 1) (hSub ⟨by omega, by omega⟩)]
  exact hReadable

/-- The end of a chunk is the same in both states as long as its field is in the region. -/
theorem Bounded.of_sameOn (h : Bounded s c) (hSame : SameOn region s u)
    (hSub : span (c.base + 24) 8 ⊆ region) : Bounded u c :=
  ⟨h.nonzero, h.room, h.inside, hSame.accessible hSub (by decide) h.readable,
    (hSame.read hSub).trans h.stop⟩

/-- A walk to a chunk depends on the footprint only, that is on the page headers up to the
chunk. -/
theorem Paged.leads_of_sameOn (h : Paged s (before ++ c :: after))
    (hSame : SameOn (Footprint before c) s u) : Leads u before c := by
  have hLeads := h.leads
  have hHere : c ∈ before ++ c :: after := by simp
  have hStop := h.stop c hHere
  have hNext : ∀ d ∈ before, span (d.base + 8) 8 ⊆ Footprint before c :=
    fun d hd x hx => Or.inr ⟨d, hd, Or.inl hx⟩
  refine ⟨?_, hLeads.here.of_sameOn hSame ?_, fun d hd => ⟨?_, ?_⟩, hLeads.apart⟩
  · rw [hSame.head]
    refine hLeads.walk.congr fun x hx => ?_
    obtain ⟨d, hd, rfl⟩ := List.mem_map.mp hx
    exact hSame.read (hNext d hd)
  · have hRoom := hLeads.here.room
    exact fun x hx => Or.inl (span_subset (by omega) (by omega) hx)
  · exact (hLeads.passed d hd).1.of_sameOn hSame fun x hx => Or.inr ⟨d, hd, Or.inr hx⟩
  · exact hSame.accessible (hNext d hd) (by decide) (hLeads.passed d hd).2

/-- The blocks of the chunk are the same in both states, as long as their tags are in the
region. -/
theorem Cut.of_sameOn (h : Cut s c) (hStop : c.stop = c.base + c.size)
    (hSame : SameOn (Footprint before c) s u) : Cut u c := by
  refine ⟨h.tiled.congr fun b hb => ?_, h.sizes, h.footers⟩
  have hBounds := h.bounds hb
  have hIn : ∀ x n, b.addr ≤ x → x + n ≤ b.addr + b.size → u.mem.read x n = s.mem.read x n :=
    fun x n hLow hHigh => hSame.read fun y hy => Or.inl (span_subset (by omega) (by omega) hy)
  have hSize : u.mem.read b.addr 8 = s.mem.read b.addr 8 := hIn _ _ (Nat.le_refl _) (by omega)
  have hHeader := (h.tags hb).1
  calc
    b = blockView s.mem b.addr := h.tiled.eq_blockView b hb
    _ = blockView u.mem b.addr := by
      rw [blockView, blockView, hSize, hIn (b.addr + 8) 4 (by omega) (by omega), hHeader,
        hIn (b.addr + b.size - 16) 8 (by omega) (by omega)]

end Locality

section Exact

variable {s u : Process} {before after : List ChunkView} {c : ChunkView}
  {left right : List BlockView} {b : BlockView}

/-- In any process with the same footprint the block before `b` and the one
after it are found. -/
theorem WellFormed.found (h : WellFormed s (before ++ c :: after))
    (hSame : SameOn (Footprint before c) s u) (hBlocks : c.blocks = left ++ b :: right) :
    getPrevBlock b.addr u = .ok (headerOf left.getLast?, u) ∧
      getNextBlock b.addr u = .ok (headerOf right.head?, u) := by
  have hHere : c ∈ before ++ c :: after := by simp
  have hStop := h.stop c hHere
  have hLeads := h.toPaged.leads_of_sameOn hSame
  have hCut := (h.cut c hHere).of_sameOn hStop hSame
  have hSteps : before.length < walkBound := by
    have hLength := h.length_le
    rw [List.length_append, List.length_cons] at hLength
    omega
  have hMapped : ∀ x, c.base ≤ x → x < c.stop → u.os.mapped (x / apageSize) = true := by
    intro x hLow hHigh
    have hx : x ∈ span c.base c.size := ⟨hLow, hStop ▸ hHigh⟩
    rw [hSame.mapped x (Or.inl hx)]
    exact h.mapped c hHere x hx
  exact ⟨hCut.getPrevBlock_ok hLeads hSteps hMapped hBlocks,
    hCut.getNextBlock_ok hLeads hSteps hMapped hBlocks⟩

/-- The block before `b` leads to `b` and so does the one after it. At either end of the chunk
there is none. -/
theorem WellFormed.navigates (h : WellFormed s (before ++ c :: after))
    (hSame : SameOn (Footprint before c) s u) (hBlocks : c.blocks = left ++ b :: right) :
    Navigates u b.addr (headerOf left.getLast?) (headerOf right.head?) := by
  obtain ⟨hPrev, hNext⟩ := h.found hSame hBlocks
  refine ⟨hPrev, hNext, fun hFound => ?_, fun hFound => ?_⟩
  · rcases List.eq_nil_or_concat left with rfl | ⟨rest, a, rfl⟩
    · exact absurd rfl hFound
    · rw [List.concat_eq_append, List.append_assoc] at hBlocks
      rw [List.concat_eq_append, List.getLast?_concat]
      exact (h.found hSame hBlocks).2
  · cases right with
    | nil => exact absurd rfl hFound
    | cons a rest =>
        have hSplit : c.blocks = (left ++ [b]) ++ a :: rest := by rw [hBlocks]; simp
        have hBack := (h.found hSame hSplit).1
        rwa [List.getLast?_concat] at hBack

/-- A header of a block is in no other chunk, and neither is `NULL`. What is found is therefore
not a block of a chunk that touches. -/
theorem WellFormed.headerOf_own {chunks : List ChunkView} {d : ChunkView} {o : Option BlockView}
    (h : WellFormed s chunks) (hc : c ∈ chunks) (hd : d ∈ chunks) (hNe : d ≠ c)
    (ho : ∀ a ∈ o, a ∈ c.blocks) : headerOf o ∉ span d.base d.size := by
  rintro ⟨hLow, hHigh⟩
  cases o with
  | none =>
      have hPos := (h.bounded hd).nonzero
      rw [headerOf_none] at hLow
      omega
  | some a =>
      have ha := (h.cut c hc).bounds (ho a rfl)
      have hStop := h.stop c hc
      have hApart := h.apart_of_ne hc hd hNe.symm
      rw [headerOf_some] at hLow hHigh
      unfold Apart at hApart
      omega

/-- What is found lies beside `b` in its chunk, with nothing between them. -/
theorem WellFormed.neighbours (h : WellFormed s (before ++ c :: after))
    (hBlocks : c.blocks = left ++ b :: right) :
    Neighbours (before ++ c :: after) c left b right (headerOf left.getLast?)
      (headerOf right.head?) := by
  have hHere : c ∈ before ++ c :: after := by simp
  have hCut := h.cut c hHere
  have hPos : ∀ a ∈ c.blocks, a.addr ≠ 0 := by
    intro a ha
    have := (hCut.bounds ha).1
    omega
  have hLeft : ∀ a ∈ left.getLast?, a ∈ c.blocks := fun a ha => by
    simp [hBlocks, List.mem_of_getLast? ha]
  have hRight : ∀ a ∈ right.head?, a ∈ c.blocks := fun a ha => by
    simp [hBlocks, List.mem_of_mem_head? ha]
  refine ⟨?first, ?last, ?before, ?after, fun d hd hNe =>
    ⟨h.headerOf_own hHere hd hNe hLeft, h.headerOf_own hHere hd hNe hRight⟩⟩
  case first =>
    rw [← List.getLast?_eq_none_iff]
    cases hLast : left.getLast? with
    | none => simp
    | some a => simp [hPos a (hLeft a hLast)]
  case last =>
    rw [← List.head?_eq_none_iff]
    cases hHead : right.head? with
    | none => simp
    | some a => simp [hPos a (hRight a hHead)]
  case before =>
    intro a ha
    obtain ⟨rest, rfl⟩ := List.getLast?_eq_some_iff.mp ha
    rw [List.append_assoc] at hBlocks
    rw [ha, headerOf_some]
    exact ⟨rfl, hCut.adjacent hBlocks⟩
  case after =>
    intro a ha
    obtain ⟨rest, rfl⟩ := List.head?_eq_some_iff.mp ha
    rw [ha, headerOf_some]
    exact ⟨rfl, (hCut.adjacent hBlocks).symm⟩

end Exact

section Reached

variable {π : Nat → Nat} {s : Process} {cs : List Chunk} {fr : List Loc} {K : Kernel}
  {requests : List Request} {c : Config}

/-- A heap in memory is well formed, whatever is on its free list. The walks do not look at
it. -/
theorem Rep.wellFormed (h : Rep π s cs fr) : WellFormed s (cs.map (Chunk.view π)) :=
  ⟨h.paged, h.cut_view⟩

/-- Before `mm_free` looks for neighbours, it leaves a well-formed heap: only the flag and the
footer of the block are new. -/
theorem Simulates.marked {a : Ideal} {e : Live} (h : Simulates π c a) (he : e ∈ c.live) :
    ∃ u v chunks, setFree (e.ptr - 16) c.process = .ok ((), u) ∧
      writeFooter (e.ptr - 16) u = .ok ((), v) ∧ mmFree e.ptr c.process = coalesce e.ptr v ∧
      WellFormed v chunks ∧ ∃ d ∈ chunks, ∃ b ∈ d.blocks, b.addr = e.ptr - 16 := by
  obtain ⟨l, hl, rfl⟩ := h.mem_live.mp he
  obtain ⟨b, hUsed, -⟩ := h.inv.held l hl
  obtain ⟨d, hd, hb, hLoc, hAddr, hBounds⟩ := h.rep.layout.payload_bounds hUsed
  have hInside := h.rep.layout.inside d hd
  have hNew : ⟨d.id, b.off⟩ ∉ a.heap.free := by
    rw [← hLoc]
    exact fun hIn => hUsed.not_freeIn h.rep.layout (h.rep.freeLocs _ hIn)
  obtain ⟨left, right, hBlocks⟩ := List.append_of_mem hb
  obtain ⟨u, m, hFlag, hFooter, hRep, -⟩ := markFree_ok (.walkBound _) h.rep hd hBlocks hNew
  have hPtr : (l.at π).ptr = π d.id + b.off + 16 := hAddr
  have hHeader : (l.at π).ptr - 16 = π d.id + b.off := by omega
  rw [hHeader]
  refine ⟨u, _, _, hFlag, hFooter, ?_, hRep.wellFormed, ?_⟩
  · rw [hPtr, mmFree, mmFreeWithin, if_neg (by omega), hdrSize_eq, sub64_eq (by omega) (by omega),
      Nat.add_sub_cancel, Program.bind_ok hFlag]
    exact Program.bind_ok hFooter
  · have hChunk := (mem_updateChunk (f := vacateAt b.off) h.rep.layout.ids hd).mpr (Or.inl rfl)
    refine ⟨_, List.mem_map_of_mem hChunk, _,
      List.mem_map_of_mem (List.mem_map_of_mem hb), ?_⟩
    show π d.id + (if b.off = b.off then b.vacate else b).off = π d.id + b.off
    rw [if_pos rfl]
    rfl

section Sample

/-- Two chunks without a gap between them, the first of one block and the second
of two. -/
def Process.adjoining : Process :=
  { Process.fresh with
    mem := [(4104, 8192), (4112, 4096), (4120, 8192), (4128, 4064), (8176, 4064), (8208, 4096),
      (8216, 12288), (8224, 64), (8232, 1), (8272, 64), (8288, 4000), (12272, 4000)].foldl
        (fun m w => m.write w.1 8 w.2) fun _ => 0
    os := ⟨fun q => q = 1 ∨ q = 2, 0⟩
    pageListHead := 4096 }

def adjoiningFirst : ChunkView := ⟨4096, 4096, 8192, [⟨4128, 4064, 0, 4064⟩]⟩

def adjoiningSecond : ChunkView :=
  ⟨8192, 4096, 12288, [⟨8224, 64, 1, 64⟩, ⟨8288, 4000, 0, 4000⟩]⟩

theorem wellFormed_adjoining :
    WellFormed Process.adjoining ([adjoiningFirst] ++ adjoiningSecond :: []) where
  pageList := by
    have hNext : Process.adjoining.mem.read (4096 + 8) 8 = 8192 := by decide +kernel
    have hLast : Process.adjoining.mem.read (8192 + 8) 8 = 0 := by decide +kernel
    exact ⟨rfl, by decide, hNext, by decide, hLast⟩
  ends := by decide +kernel
  stop := by decide
  room := by decide
  mapped := by
    have hPage : ∀ q, q = 1 ∨ q = 2 → Process.adjoining.os.mapped q = true := fun q hq =>
      decide_eq_true hq
    intro c hc x hx
    simp only [List.cons_append, List.nil_append, List.mem_cons, List.not_mem_nil, or_false] at hc
    rw [mem_span] at hx
    rw [apageSize_eq]
    apply hPage
    rcases hc with rfl | rfl <;> simp only [adjoiningFirst, adjoiningSecond] at hx <;> omega
  apart := List.pairwise_pair.mpr (Or.inl (by decide))
  cut := by
    have hFirst : blockView Process.adjoining.mem 4128 = ⟨4128, 4064, 0, 4064⟩ := by
      decide +kernel
    have hSecond : blockView Process.adjoining.mem 8224 = ⟨8224, 64, 1, 64⟩ := by decide +kernel
    have hThird : blockView Process.adjoining.mem 8288 = ⟨8288, 4000, 0, 4000⟩ := by
      decide +kernel
    refine List.forall_mem_cons.mpr ⟨⟨?_, by decide, by decide⟩,
      List.forall_mem_cons.mpr ⟨⟨?_, by decide, by decide⟩, nofun⟩⟩
    · exact ⟨by decide, hFirst.symm, rfl⟩
    · exact ⟨by decide, hSecond.symm, by decide, hThird.symm, rfl⟩

end Sample

/-- From a block of a well-formed heap the blocks beside it are found, and
nothing but the footprint is used for that. Every heap between calls is well
formed, and so is every heap in which `mm_free` looks for neighbours. -/
theorem navigation_exact :
    (∀ {s : Process} {before : List ChunkView} {d : ChunkView} {after : List ChunkView}
      {left : List BlockView} {b : BlockView} {right : List BlockView},
      WellFormed s (before ++ d :: after) → d.blocks = left ++ b :: right →
      ∃ p n, Neighbours (before ++ d :: after) d left b right p n ∧ Navigates s b.addr p n ∧
        ∀ u, SameOn (Footprint before d) s u → Navigates u b.addr p n) ∧
    ∀ {K : Kernel} {requests : List Request} {c : Config}, Reachable K requests c →
      (∃ chunks, WellFormed c.process chunks) ∧
      ∀ e ∈ c.live, ∃ u v chunks, setFree (e.ptr - 16) c.process = .ok ((), u) ∧
        writeFooter (e.ptr - 16) u = .ok ((), v) ∧ mmFree e.ptr c.process = coalesce e.ptr v ∧
        WellFormed v chunks ∧ ∃ d ∈ chunks, ∃ b ∈ d.blocks, b.addr = e.ptr - 16 := by
  constructor
  · intro s before d after left b right hForm hBlocks
    exact ⟨_, _, hForm.neighbours hBlocks, hForm.navigates (.refl _ s) hBlocks,
      fun u hSame => hForm.navigates hSame hBlocks⟩
  · intro K requests c hReached
    obtain ⟨π, hSim⟩ := hReached.simulates
    exact ⟨⟨_, hSim.rep.wellFormed⟩, fun e he => hSim.marked he⟩

theorem navigation_exact_sample :
    (∃ p n, p = 0 ∧ n = 8288 ∧ Navigates Process.adjoining 8224 p n) ∧
    ∃ (c : Config) (v : Process) (chunks : List ChunkView), c.live = [⟨1, 8589934704, 100⟩] ∧
      mmFree 8589934704 c.process = coalesce 8589934704 v ∧ WellFormed v chunks := by
  have hBlocks : adjoiningSecond.blocks = [] ++ ⟨8224, 64, 1, 64⟩ :: [⟨8288, 4000, 0, 4000⟩] := rfl
  obtain ⟨p, n, hBeside, hNavigates, -⟩ := navigation_exact.1 wellFormed_adjoining hBlocks
  refine ⟨⟨p, n, hBeside.first.mpr rfl, (hBeside.after _ rfl).1, hNavigates⟩, ?_⟩
  obtain ⟨c, hReached, hLive⟩ := exists_sample 0
  have hHeld : (⟨1, 8589934704, 100⟩ : Live) ∈ c.live := hLive ▸ List.mem_cons_self
  obtain ⟨_, v, chunks, -, -, hRun, hForm, -⟩ := (navigation_exact.2 hReached).2 _ hHeld
  exact ⟨c, v, chunks, hLive, hRun, hForm⟩

/-- The neighbours of a block are not found when the page list does not lead to
its chunk, even if the chunk itself is the same. -/
theorem navigation_reads_elsewhere : ∃ (s u : Process) (before : List ChunkView) (d : ChunkView)
    (after : List ChunkView) (b e : BlockView), WellFormed s (before ++ d :: after) ∧
    d.blocks = [b, e] ∧ SameOn (span d.base d.size) s u ∧
    (getNextBlock b.addr s).map Prod.fst = .ok e.addr ∧
    (getNextBlock b.addr u).map Prod.fst = .ok 0 ∧
    (getPrevBlock e.addr s).map Prod.fst = .ok b.addr ∧
    (getPrevBlock e.addr u).map Prod.fst = .ok 0 := by
  refine ⟨_, { Process.adjoining with mem := Process.adjoining.mem.write 4104 8 0 }, _, _, _, _, _,
    wellFormed_adjoining, rfl, ⟨rfl, fun x hx => ?_, fun _ _ => rfl⟩, ?_, ?_, ?_, ?_⟩
  · exact write_outside (Or.inr (Nat.le_trans (by decide) hx.1))
  all_goals decide +kernel

end Reached

end Malloc
