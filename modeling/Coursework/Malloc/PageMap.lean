import Coursework.Malloc.Process
import Coursework.Library.DoublyLinked
import Coursework.Library.Lists

/-! `pagemap.c`: a three-level table of pages whose entries are at the same
time the nodes of the list of all mapped pages. -/

namespace Malloc

open Program (read modify stop)

def pagemapLevel2Size : Nat := 1 <<< 16

def pagemapLevel3Size : Nat := 1 <<< (32 - logApageSize)

def pagemapLevel1Bits (p : Nat) : Nat := p >>> 48

def pagemapLevel2Bits (p : Nat) : Nat := (p >>> 32) &&& (pagemapLevel2Size - 1)

def pagemapLevel3Bits (p : Nat) : Nat := (p >>> logApageSize) &&& (pagemapLevel3Size - 1)

/-- The entry of the page of `p`. -/
def pageOf (p : Nat) : PagePtr := ⟨pagemapLevel1Bits p, pagemapLevel2Bits p, pagemapLevel3Bits p⟩

/-- The entry behind a pointer, when its table has been allocated. -/
def page? (pageMaps1 : Option PageMaps1) (page : PagePtr) : Option MPage := do
  let pageMaps2 ← pageMaps1
  let pageMaps3 ← pageMaps2 page.pos1
  let entries ← pageMaps3 page.pos2
  pure (entries page.pos3)

/-- The tables with one entry replaced. -/
def PageMaps1.set (pageMaps1 : PageMaps1) (page : PagePtr) (entry : MPage) : PageMaps1 :=
  match pageMaps1 page.pos1 with
  | none => pageMaps1
  | some pageMaps2 =>
      match pageMaps2 page.pos2 with
      | none => pageMaps1
      | some pageMaps3 =>
          Function.update pageMaps1 page.pos1
            (some (Function.update pageMaps2 page.pos2
              (some (Function.update pageMaps3 page.pos3 entry))))

def loadPage (page : PagePtr) : Code MPage := do
  let s ← read
  match page? s.pageMaps1 page with
  | some entry => pure entry
  | none => stop .segfault

def storePage (page : PagePtr) (f : MPage → MPage) : Code Unit := do
  let entry ← loadPage page
  modify fun s => { s with pageMaps1 := s.pageMaps1.map fun maps => maps.set page (f entry) }

/-- The tables for `p`, zeroed by `calloc` when they are used for the first time. -/
def callocTables (p : Nat) : Code Unit :=
  modify fun s =>
    let pageMaps1 := s.pageMaps1.getD fun _ => none
    let pageMaps2 := (pageMaps1 (pagemapLevel1Bits p)).getD fun _ => none
    let pageMaps3 := (pageMaps2 (pagemapLevel2Bits p)).getD fun _ => ⟨0, none, none⟩
    { s with pageMaps1 := some (Function.update pageMaps1 (pagemapLevel1Bits p)
        (some (Function.update pageMaps2 (pagemapLevel2Bits p) (some pageMaps3)))) }

/-- `if (page->prev) page->prev->next = page->next; else all_mapped_pages = page->next;` -/
def unlinkFromPrev (page : PagePtr) : Code Unit := do
  let entry ← loadPage page
  match entry.prev with
  | some prev => storePage prev fun e => { e with next := entry.next }
  | none => modify fun s => { s with allMappedPages := entry.next }

/-- `if (page->next) page->next->prev = page->prev;` -/
def unlinkFromNext (page : PagePtr) : Code Unit := do
  let entry ← loadPage page
  match entry.next with
  | some next => storePage next fun e => { e with prev := entry.prev }
  | none => pure ()

def pagemapModify (p : Nat) (mapped : Bool) : Code Unit := do
  callocTables p
  let page := pageOf p
  let entry ← loadPage page
  if mapped then do
    if entry.addr ≠ 0 then stop .pageAlreadyMapped
    let s ← read
    if some page = s.allMappedPages then stop .pageIsListHead
    storePage page fun e => { e with addr := p }
    storePage page fun e => { e with prev := none }
    storePage page fun e => { e with next := s.allMappedPages }
    match s.allMappedPages with
    | some head => storePage head fun e => { e with prev := some page }
    | none => pure ()
    modify fun s => { s with allMappedPages := some page }
  else do
    if entry.addr = 0 then stop .pageNotMapped
    storePage page fun e => { e with addr := 0 }
    unlinkFromPrev page
    unlinkFromNext page

def pagemapIsMapped (p : Nat) : Code Bool := do
  let s ← read
  match page? s.pageMaps1 (pageOf p) with
  | some entry => pure (entry.addr != 0)
  | none => pure false

def pagemapForEachLoop (f : Nat → Code Unit) : Nat → Option PagePtr → Code Unit
  | 0, _ => stop .diverges
  | _ + 1, none => pure ()
  | steps + 1, some p => do
      let entry ← loadPage p
      f entry.addr
      let current ← loadPage p
      pagemapModify current.addr false
      pagemapForEachLoop f steps entry.next

def pagemapForEach (f : Nat → Code Unit) : Code Unit := do
  let s ← read
  pagemapForEachLoop f walkBound s.allMappedPages
  modify fun s => { s with allMappedPages := none }

/-- The entry behind a pointer; a table that does not exist yet counts as zeroed. -/
def entryOf (pageMaps1 : Option PageMaps1) (page : PagePtr) : MPage :=
  (page? pageMaps1 page).getD ⟨0, none, none⟩

/-- The three indices of a page tell its number, and nothing less does. -/
theorem pageOf_eq_iff (p q : Nat) : pageOf p = pageOf q ↔ p / apageSize = q / apageSize := by
  have hBits : ∀ x, pagemapLevel1Bits x = x / 2 ^ 48 ∧ pagemapLevel2Bits x = x / 2 ^ 32 % 2 ^ 16 ∧
      pagemapLevel3Bits x = x / 2 ^ 12 % 2 ^ 20 := by
    intro x
    refine ⟨Nat.shiftRight_eq_div_pow x 48, ?_, ?_⟩
    · show (x >>> 32) &&& (2 ^ 16 - 1) = _
      rw [Nat.and_two_pow_sub_one_eq_mod, Nat.shiftRight_eq_div_pow]
    · show (x >>> 12) &&& (2 ^ 20 - 1) = _
      rw [Nat.and_two_pow_sub_one_eq_mod, Nat.shiftRight_eq_div_pow]
  obtain ⟨hp1, hp2, hp3⟩ := hBits p
  obtain ⟨hq1, hq2, hq3⟩ := hBits q
  simp only [pageOf, PagePtr.mk.injEq, hp1, hp2, hp3, hq1, hq2, hq3, apageSize_eq]
  omega

section Tables

variable {s : Process} {maps : Option PageMaps1} {page : PagePtr} {e : MPage}

theorem entryOf_of_page? (h : page? maps page = some e) : entryOf maps page = e := by
  rw [entryOf, h, Option.getD_some]

/-- An entry with an address is one that has been stored, so the tables on the way to it are
there. -/
theorem page?_of_addr_ne_zero (h : (entryOf maps page).addr ≠ 0) :
    page? maps page = some (entryOf maps page) := by
  unfold entryOf at h ⊢
  cases hPage : page? maps page with
  | none => simp [hPage] at h
  | some e => rfl

/-- A page whose entry is that of a page with an address has a table. An entry in no table is
blank, and a blank entry has no address. -/
theorem page?_of_entryOf_eq {maps' : Option PageMaps1} (h : entryOf maps' page = e)
    (hAddr : e.addr ≠ 0) : page? maps' page = some e := by
  rw [page?_of_addr_ne_zero (h ▸ hAddr), h]

/-- The entries after one of them was stored: that one is new, and all others are as they were,
also those in the same table. -/
theorem entryOf_store {maps' : Option PageMaps1} {other : PagePtr}
    (h : page? maps' other = if other = page then some e else page? maps other) :
    entryOf maps' other = if other = page then e else entryOf maps other := by
  rw [entryOf, h, entryOf]
  split <;> rfl

/-- A pointer to a page is read through the tables. -/
theorem loadPage_ok (h : page? s.pageMaps1 page = some e) : loadPage page s = .ok (e, s) := by
  simp [loadPage, Program.bind_apply, h]

/-- A store to an entry changes this entry alone; the tables it is in are shared with
others. -/
theorem page?_set {tables : PageMaps1} (h : page? (some tables) page = some e) (new : MPage)
    (other : PagePtr) : page? (some (tables.set page new)) other =
      if other = page then some new else page? (some tables) other := by
  obtain ⟨o1, o2, o3⟩ := other
  obtain ⟨p1, p2, p3⟩ := page
  simp only [page?, Option.bind_eq_bind, Option.bind_some, pure, PagePtr.mk.injEq] at h ⊢
  cases h2 : tables p1 with
  | none => simp [h2] at h
  | some pageMaps2 =>
      cases h3 : pageMaps2 p2 with
      | none => simp [h2, h3] at h
      | some pageMaps3 =>
          simp only [PageMaps1.set, h2, h3]
          by_cases h1' : o1 = p1
          · subst h1'
            by_cases h2' : o2 = p2
            · subst h2'
              by_cases h3' : o3 = p3
              · subst h3'
                simp
              · simp [h3', h2, h3]
            · simp [h2', h2]
          · simp [h1']

/-- Storing to an entry of an existing table changes that entry only. No table is allocated for
it. -/
theorem storePage_ok (h : page? s.pageMaps1 page = some e) (f : MPage → MPage) :
    ∃ maps, storePage page f s = .ok ((), { s with pageMaps1 := maps }) ∧
      ∀ other, page? maps other = if other = page then some (f e) else page? s.pageMaps1 other := by
  cases hMaps : s.pageMaps1 with
  | none => simp [page?, hMaps] at h
  | some tables =>
      refine ⟨some (tables.set page (f e)), ?_, ?_⟩
      · rw [storePage, Program.bind_ok (loadPage_ok h)]
        simp [hMaps]
      · rw [hMaps] at h
        exact page?_set h (f e)

/-- The three stores that fill in an entry, which together replace all of it. -/
theorem storeEntry_ok (h : page? s.pageMaps1 page = some e) (p : Nat) (next : Option PagePtr) :
    ∃ maps₁ maps₂ maps₃,
      storePage page (fun e => { e with addr := p }) s =
        .ok ((), { s with pageMaps1 := maps₁ }) ∧
      storePage page (fun e => { e with prev := none }) { s with pageMaps1 := maps₁ } =
        .ok ((), { s with pageMaps1 := maps₂ }) ∧
      storePage page (fun e => { e with next := next }) { s with pageMaps1 := maps₂ } =
        .ok ((), { s with pageMaps1 := maps₃ }) ∧
      ∀ other, page? maps₃ other =
        if other = page then some ⟨p, none, next⟩ else page? s.pageMaps1 other := by
  obtain ⟨maps₁, hStore₁, hPage₁⟩ := storePage_ok h fun e => { e with addr := p }
  obtain ⟨maps₂, hStore₂, hPage₂⟩ := storePage_ok (s := { s with pageMaps1 := maps₁ })
    ((hPage₁ page).trans (if_pos rfl)) fun e => { e with prev := none }
  obtain ⟨maps₃, hStore₃, hPage₃⟩ := storePage_ok (s := { s with pageMaps1 := maps₂ })
    ((hPage₂ page).trans (if_pos rfl)) fun e => { e with next := next }
  refine ⟨maps₁, maps₂, maps₃, hStore₁, hStore₂, hStore₃, fun other => ?_⟩
  rw [hPage₃]
  split
  · rfl
  · next hOther => rw [hPage₂, if_neg hOther, hPage₁, if_neg hOther]

/-- The first half of the unlinking: the page before it, or the head of the list, now leads to
the page after it. The page itself is unchanged. -/
theorem unlinkFromPrev_ok (h : page? s.pageMaps1 page = some e) (hNe : e.prev ≠ some page)
    (hPrev : ∀ prev, e.prev = some prev → (page? s.pageMaps1 prev).isSome) :
    ∃ maps head, unlinkFromPrev page s =
        .ok ((), { s with pageMaps1 := maps, allMappedPages := head }) ∧
      head = (if e.prev = none then e.next else s.allMappedPages) ∧ page? maps page = some e ∧
      ∀ other, page? maps other =
        if some other = e.prev then (page? s.pageMaps1 other).map fun x => { x with next := e.next }
        else page? s.pageMaps1 other := by
  unfold unlinkFromPrev
  rw [Program.bind_ok (loadPage_ok h)]
  cases hCase : e.prev with
  | none => exact ⟨s.pageMaps1, e.next, rfl, by simp, h, fun other => by simp⟩
  | some prev =>
      obtain ⟨x, hx⟩ := Option.isSome_iff_exists.mp (hPrev prev hCase)
      obtain ⟨maps, hStore, hPage⟩ := storePage_ok hx fun x => { x with next := e.next }
      have hOther : page ≠ prev := by
        rintro rfl
        exact hNe hCase
      refine ⟨maps, s.allMappedPages, hStore, by simp, ?_, fun other => ?_⟩
      · rw [hPage, if_neg hOther, h]
      · rw [hPage]
        by_cases hEq : other = prev <;> simp [hEq, hx]

/-- The second half: the page after it leads back to the page before it, and the page itself is
still unchanged. -/
theorem unlinkFromNext_ok (h : page? s.pageMaps1 page = some e)
    (hNext : ∀ next, e.next = some next → (page? s.pageMaps1 next).isSome) :
    ∃ maps, unlinkFromNext page s = .ok ((), { s with pageMaps1 := maps }) ∧
      ∀ other, page? maps other =
        if some other = e.next then (page? s.pageMaps1 other).map fun x => { x with prev := e.prev }
        else page? s.pageMaps1 other := by
  unfold unlinkFromNext
  rw [Program.bind_ok (loadPage_ok h)]
  cases hCase : e.next with
  | none => exact ⟨s.pageMaps1, rfl, fun other => by simp⟩
  | some next =>
      obtain ⟨x, hx⟩ := Option.isSome_iff_exists.mp (hNext next hCase)
      obtain ⟨maps, hStore, hPage⟩ := storePage_ok hx fun x => { x with prev := e.prev }
      refine ⟨maps, hStore, fun other => ?_⟩
      rw [hPage]
      by_cases hEq : other = next <;> simp [hEq, hx]

/-- Allocation of tables changes no entry, and the entry of `p` exists after it. New tables are
filled with blank entries, as missing ones read. -/
theorem callocTables_ok (s : Process) (p : Nat) :
    ∃ maps, callocTables p s = .ok ((), { s with pageMaps1 := maps }) ∧
      (page? maps (pageOf p)).isSome ∧ ∀ page, entryOf maps page = entryOf s.pageMaps1 page := by
  refine ⟨_, rfl, ?_, ?_⟩
  · simp [page?, pageOf, pure]
  · intro page
    obtain ⟨q1, q2, q3⟩ := page
    simp only [entryOf, page?, pure, Option.bind_eq_bind, Option.bind_some]
    cases h1 : s.pageMaps1 with
    | none =>
        by_cases hq1 : q1 = pagemapLevel1Bits p
        · by_cases hq2 : q2 = pagemapLevel2Bits p <;> simp [hq1, hq2]
        · simp [hq1]
    | some pageMaps1 =>
        by_cases hq1 : q1 = pagemapLevel1Bits p
        · subst hq1
          cases h2 : pageMaps1 (pagemapLevel1Bits p) with
          | none => by_cases hq2 : q2 = pagemapLevel2Bits p <;> simp [h2, hq2]
          | some pageMaps2 =>
              by_cases hq2 : q2 = pagemapLevel2Bits p
              · subst hq2
                cases h3 : pageMaps2 (pagemapLevel2Bits p) <;> simp [h2, h3]
              · simp [h2, hq2]
        · simp [hq1]

end Tables

/-- The successor of a node in the list of mapped pages; the head comes after `NULL`. -/
def pageNext (maps : Option PageMaps1) (head : Option PagePtr) : Option PagePtr → Option PagePtr
  | none => head
  | some page => (entryOf maps page).next

/-- The predecessor of a node; what comes before `NULL` is not stored. -/
def pagePrev (maps : Option PageMaps1) (last : Option PagePtr) : Option PagePtr → Option PagePtr
  | none => last
  | some page => (entryOf maps page).prev

/-- The tables hold exactly the pages in `pages`, in the order of the list of
mapped pages that starts at `head`. -/
structure PageMapRep (maps : Option PageMaps1) (head : Option PagePtr)
    (pages : List PagePtr) : Prop where
  present : ∀ page ∈ pages, (entryOf maps page).addr ≠ 0 ∧
    (entryOf maps page).addr % apageSize = 0 ∧ (entryOf maps page).addr < 2 ^ 64 ∧
    pageOf (entryOf maps page).addr = page
  absent : ∀ page, page ∉ pages → (entryOf maps page).addr = 0
  ring : ∃ last,
    DoublyLinked.LinkRing none (pageNext maps head) (pagePrev maps last) (pages.map some)

section Modify

variable {s : Process} {maps maps' : Option PageMaps1} {head : Option PagePtr}
  {pages : List PagePtr} {p : Nat}

/-- No page is twice in the list, as each entry has one link back. -/
theorem PageMapRep.nodup (h : PageMapRep maps head pages) : pages.Nodup := by
  obtain ⟨last, hRing⟩ := h.ring
  exact List.Nodup.of_map some hRing.nodup_list

/-- The head of the list of mapped pages is the first registered page, or `NULL` when there is
none. -/
theorem PageMapRep.head_eq (h : PageMapRep maps head pages) : head = pages.head? := by
  obtain ⟨last, hRing⟩ := h.ring
  have hHead := hRing.next_null
  cases pages with
  | nil => exact hHead
  | cons page rest => exact hHead

theorem PageMapRep.head_mem {page : PagePtr} (h : PageMapRep maps (some page) pages) :
    page ∈ pages := List.mem_of_head? h.head_eq.symm

/-- The neighbours of a node are other nodes, or `NULL`. So the stores through them do not
touch the node itself. -/
theorem PageMapRep.neighbours (h : PageMapRep maps head pages) {page : PagePtr} {e : MPage}
    (hIn : page ∈ pages) (he : entryOf maps page = e) :
    e.next ∈ none :: pages.map some ∧ e.prev ∈ none :: pages.map some ∧
      e.next ≠ some page ∧ e.prev ≠ some page := by
  obtain ⟨last, hRing⟩ := h.ring
  have hNode : some page ∈ pages.map some := List.mem_map_of_mem hIn
  subst he
  exact ⟨hRing.next_mem hNode, hRing.prev_mem hNode, hRing.next_ne hNode, hRing.prev_ne hNode⟩

/-- There are fewer registered pages than addresses, which bounds every walk over the list. -/
theorem PageMapRep.length_lt (h : PageMapRep maps head pages) : pages.length < walkBound := by
  have hNodup : (pages.map fun page => (entryOf maps page).addr / apageSize).Nodup := by
    refine List.Nodup.map_on (fun a ha b hb hEq => ?_) h.nodup
    rw [← (h.present a ha).2.2.2, ← (h.present b hb).2.2.2]
    exact (pageOf_eq_iff _ _).mpr hEq
  have hLength := hNodup.length_le_of_lt (n := 2 ^ 52) fun n hn => by
    obtain ⟨page, hPage, rfl⟩ := List.mem_map.mp hn
    have hBound := (h.present page hPage).2.2.1
    rw [apageSize_eq]
    omega
  rw [List.length_map] at hLength
  unfold walkBound
  omega

theorem PageMapRep.page? (h : PageMapRep maps head pages) {page : PagePtr} (hIn : page ∈ pages) :
    page? maps page = some (entryOf maps page) :=
  page?_of_addr_ne_zero (h.present page hIn).1

/-- `pagemap_is_mapped` asks the tables, and the tables agree with the list: the answer is
whether the page of the address is in it. -/
theorem pagemapIsMapped_ok (h : PageMapRep s.pageMaps1 s.allMappedPages pages) (p : Nat) :
    pagemapIsMapped p s = .ok (decide (pageOf p ∈ pages), s) := by
  by_cases hIn : pageOf p ∈ pages
  · have hPage := h.page? hIn
    have hAddr := (h.present _ hIn).1
    simp [pagemapIsMapped, Program.bind_apply, hPage, hIn, hAddr]
  · have hAddr := h.absent _ hIn
    cases hPage : Malloc.page? s.pageMaps1 (pageOf p) with
    | none => simp [pagemapIsMapped, Program.bind_apply, hPage, hIn]
    | some e =>
        rw [entryOf_of_page? hPage] at hAddr
        simp [pagemapIsMapped, Program.bind_apply, hPage, hIn, hAddr]

/-- The code of `pagemap_modify(p, 1)` on the entries: a new node at the head. The old head, if
there is one, is linked back to it. -/
theorem pagemapModify_map_entries (h : PageMapRep s.pageMaps1 s.allMappedPages pages)
    (hNew : pageOf p ∉ pages) :
    ∃ maps, pagemapModify p true s =
        .ok ((), { s with pageMaps1 := maps, allMappedPages := some (pageOf p) }) ∧
      ∀ page, entryOf maps page =
        if page = pageOf p then ⟨p, none, s.allMappedPages⟩
        else if some page = s.allMappedPages then
          { entryOf s.pageMaps1 page with prev := some (pageOf p) }
        else entryOf s.pageMaps1 page := by
  obtain ⟨maps₀, hCalloc, hSome, hEntry₀⟩ := callocTables_ok s p
  obtain ⟨e, he⟩ := Option.isSome_iff_exists.mp hSome
  have hAddr : e.addr = 0 := by
    rw [← entryOf_of_page? he, hEntry₀]
    exact h.absent _ hNew
  have hNotHead : some (pageOf p) ≠ s.allMappedPages := fun hHead =>
    hNew (hHead ▸ h : PageMapRep _ (some (pageOf p)) _).head_mem
  obtain ⟨maps₁, maps₂, maps₃, hStore₁, hStore₂, hStore₃, hPage₃⟩ :=
    storeEntry_ok (s := { s with pageMaps1 := maps₀ }) he p s.allMappedPages
  have hEntry₃ : ∀ page, entryOf maps₃ page =
      if page = pageOf p then ⟨p, none, s.allMappedPages⟩ else entryOf s.pageMaps1 page := by
    intro page
    rw [← hEntry₀ page]
    exact entryOf_store (hPage₃ page)
  unfold pagemapModify
  rw [Program.bind_ok hCalloc, Program.bind_ok (loadPage_ok he)]
  simp only [if_true, hAddr, ne_eq, not_true_eq_false, if_false, Program.bind_apply,
    Program.read_apply, if_neg hNotHead, hStore₁, hStore₂, hStore₃]
  cases hHead : s.allMappedPages with
  | none =>
      refine ⟨maps₃, by simp, fun page => ?_⟩
      simp [hEntry₃, hHead]
  | some head =>
      have hHeadIn : head ∈ pages := (hHead ▸ h : PageMapRep _ (some head) _).head_mem
      have hHeadNe : head ≠ pageOf p := fun he => hNew (he ▸ hHeadIn)
      have hHeadPage : Malloc.page? maps₃ head = some (entryOf s.pageMaps1 head) :=
        page?_of_entryOf_eq ((hEntry₃ head).trans (if_neg hHeadNe)) (h.present head hHeadIn).1
      obtain ⟨maps₄, hStore₄, hPage₄⟩ := storePage_ok (s := { s with pageMaps1 := maps₃ }) hHeadPage
        fun e => { e with prev := some (pageOf p) }
      refine ⟨maps₄, ?_, fun page => ?_⟩
      · simp only [hHead] at hStore₄ ⊢
        simp [Program.bind_apply, hStore₄]
      · have hEntry₄ : entryOf maps₄ page =
            if page = head then { entryOf s.pageMaps1 head with prev := some (pageOf p) }
            else entryOf maps₃ page := entryOf_store (hPage₄ page)
        rw [hEntry₄, hEntry₃, hHead]
        by_cases hEq : page = head
        · subst hEq
          simp [hHeadNe]
        · simp [hEq]

/-- Marking a page as mapped puts its entry in front of the list, and keeps the agreement of
table and list. -/
theorem pagemapModify_map (h : PageMapRep s.pageMaps1 s.allMappedPages pages)
    (hAligned : p % apageSize = 0) (hPos : 0 < p) (hBound : p < 2 ^ 64)
    (hNew : pageOf p ∉ pages) :
    ∃ maps head, pagemapModify p true s =
        .ok ((), { s with pageMaps1 := maps, allMappedPages := head }) ∧
      PageMapRep maps head (pageOf p :: pages) := by
  obtain ⟨maps, hRun, hEntry⟩ := pagemapModify_map_entries h hNew
  refine ⟨maps, some (pageOf p), hRun, ?_, ?_, ?_⟩
  · intro page hIn
    rw [hEntry]
    split
    · next hEq => exact ⟨Nat.ne_of_gt hPos, hAligned, hBound, hEq.symm⟩
    · next hNe =>
        have hOld := h.present page ((List.mem_cons.mp hIn).resolve_left hNe)
        split <;> exact hOld
  · intro page hOut
    rw [List.mem_cons, not_or] at hOut
    rw [hEntry, if_neg hOut.1]
    split <;> exact h.absent page hOut.2
  · obtain ⟨last, hRing⟩ := h.ring
    have hFresh : some (pageOf p) ∉ none :: pages.map some := by simp [hNew]
    refine ⟨if s.allMappedPages = none then some (pageOf p) else last,
      (hRing.push hFresh).congr ?_ ?_⟩
    · intro x _
      cases x with
      | none => simp [pageNext]
      | some page =>
          by_cases hEq : page = pageOf p
          · simp [pageNext, hEntry, hEq]
          · rw [Function.update_of_ne (by simp), Function.update_of_ne (by simpa using hEq)]
            show (entryOf maps page).next = (entryOf s.pageMaps1 page).next
            rw [hEntry, if_neg hEq]
            split <;> rfl
    · intro x _
      cases x with
      | none =>
          by_cases hHead : s.allMappedPages = none
          · simp [pagePrev, pageNext, hHead]
          · rw [Function.update_of_ne (by simp),
              Function.update_of_ne (by simpa [pageNext, eq_comm] using hHead)]
            simp [pagePrev, hHead]
      | some page =>
          by_cases hEq : page = pageOf p
          · simp [pagePrev, hEntry, hEq]
          · rw [Function.update_of_ne (by simpa using hEq)]
            by_cases hHead : some page = s.allMappedPages
            · simp [pagePrev, pageNext, hEntry, hEq, hHead]
            · rw [Function.update_of_ne (by simpa [pageNext] using hHead)]
              simp [pagePrev, hEntry, hEq, hHead]

/-- The code of `pagemap_modify(p, 0)` on the entries: the neighbours of the
page are linked to each other. -/
theorem pagemapModify_unmap_entries (h : PageMapRep s.pageMaps1 s.allMappedPages pages)
    {e : MPage} (he : entryOf s.pageMaps1 (pageOf p) = e) (hIn : pageOf p ∈ pages) :
    ∃ maps head, pagemapModify p false s =
        .ok ((), { s with pageMaps1 := maps, allMappedPages := head }) ∧
      head = (if e.prev = none then e.next else s.allMappedPages) ∧
      ∀ page,
        (entryOf maps page).addr =
          (if page = pageOf p then 0 else (entryOf s.pageMaps1 page).addr) ∧
        (entryOf maps page).next =
          (if some page = e.prev then e.next else (entryOf s.pageMaps1 page).next) ∧
        (entryOf maps page).prev =
          (if some page = e.next then e.prev else (entryOf s.pageMaps1 page).prev) := by
  obtain ⟨maps₀, hCalloc, -, hEntry₀⟩ := callocTables_ok s p
  have hTable : ∀ page ∈ pages, Malloc.page? maps₀ page = some (entryOf s.pageMaps1 page) :=
    fun page hPage => page?_of_entryOf_eq (hEntry₀ page) (h.present page hPage).1
  have hPage₀ := hTable _ hIn
  rw [he] at hPage₀
  have hAddr : e.addr ≠ 0 := he ▸ (h.present _ hIn).1
  obtain ⟨hNextIn, hPrevIn, hNextNe, hPrevNe⟩ := h.neighbours hIn he
  obtain ⟨maps₁, hStore₁, hPage₁⟩ :=
    storePage_ok (s := { s with pageMaps1 := maps₀ }) hPage₀ fun e => { e with addr := 0 }
  obtain ⟨maps₂, head, hRun₂, hHead, hSelf₂, hPage₂⟩ :=
    unlinkFromPrev_ok (s := { s with pageMaps1 := maps₁ }) ((hPage₁ (pageOf p)).trans (if_pos rfl))
      hPrevNe (fun prev (hPrev : e.prev = some prev) => by
        rw [hPage₁]
        split
        · rfl
        · rw [hTable prev (by simpa [hPrev] using hPrevIn)]
          rfl)
  obtain ⟨maps₃, hRun₃, hPage₃⟩ :=
    unlinkFromNext_ok (s := { s with pageMaps1 := maps₂, allMappedPages := head }) hSelf₂
      (fun next (hNext : e.next = some next) => by
        have hOther : next ≠ pageOf p := fun hEq => hNextNe (hEq ▸ hNext)
        rw [hPage₂, hPage₁, if_neg hOther, hTable next (by simpa [hNext] using hNextIn)]
        split <;> rfl)
  refine ⟨maps₃, head, ?_, hHead, fun page => ?_⟩
  · unfold pagemapModify
    rw [Program.bind_ok hCalloc, Program.bind_ok (loadPage_ok hPage₀)]
    simp only [Bool.false_eq_true, if_false, if_neg hAddr, Program.bind_apply, hStore₁, hRun₂,
      hRun₃]
  · have hStep := hPage₃ page
    rw [hPage₂, hPage₁] at hStep
    by_cases hSelf : page = pageOf p
    · subst hSelf
      rw [if_neg hNextNe.symm, if_neg hPrevNe.symm, if_pos rfl] at hStep
      simp [entryOf_of_page? hStep, hNextNe.symm, hPrevNe.symm, he]
    · rw [if_neg hSelf] at hStep
      by_cases hPage : page ∈ pages
      · rw [hTable page hPage] at hStep
        have hFields : Malloc.page? maps₃ page = some ⟨(entryOf s.pageMaps1 page).addr,
            if some page = e.next then e.prev else (entryOf s.pageMaps1 page).prev,
            if some page = e.prev then e.next else (entryOf s.pageMaps1 page).next⟩ := by
          rw [hStep]
          split <;> split <;> rfl
        simp [entryOf_of_page? hFields, hSelf]
      · have hNext : some page ≠ e.next := by
          intro hEq
          simp [← hEq, hPage] at hNextIn
        have hPrev : some page ≠ e.prev := by
          intro hEq
          simp [← hEq, hPage] at hPrevIn
        rw [if_neg hNext, if_neg hPrev] at hStep
        have hEntry : entryOf maps₃ page = entryOf s.pageMaps1 page := by
          rw [← hEntry₀, entryOf, hStep, entryOf]
        simp [hEntry, hSelf, hNext, hPrev]

/-- Marking a page as unmapped takes its entry from the list, wherever it stands, and keeps the
agreement of table and list. -/
theorem pagemapModify_unmap (h : PageMapRep s.pageMaps1 s.allMappedPages pages)
    (hIn : pageOf p ∈ pages) :
    ∃ maps head, pagemapModify p false s =
        .ok ((), { s with pageMaps1 := maps, allMappedPages := head }) ∧
      PageMapRep maps head (pages.erase (pageOf p)) := by
  obtain ⟨maps, head, hRun, hHead, hEntry⟩ := pagemapModify_unmap_entries h rfl hIn
  refine ⟨maps, head, hRun, ?_, ?_, ?_⟩
  · intro page hPage
    obtain ⟨hNe, hOld⟩ := (h.nodup.mem_erase_iff).mp hPage
    rw [(hEntry page).1, if_neg hNe]
    exact h.present page hOld
  · intro page hOut
    rw [(hEntry page).1]
    split
    · rfl
    · next hNe => exact h.absent page fun hOld => hOut (h.nodup.mem_erase_iff.mpr ⟨hNe, hOld⟩)
  · obtain ⟨last, hRing⟩ := h.ring
    have hNodeIn : some (pageOf p) ∈ pages.map some := List.mem_map_of_mem hIn
    have hRemoved := hRing.remove hNodeIn
    rw [← List.map_erase fun _ _ => Option.some.inj] at hRemoved
    refine ⟨if (entryOf s.pageMaps1 (pageOf p)).next = none then
      (entryOf s.pageMaps1 (pageOf p)).prev else last, hRemoved.congr ?_ ?_⟩
    · intro x _
      cases x with
      | none =>
          by_cases hPrev : (entryOf s.pageMaps1 (pageOf p)).prev = none
          · simp [pageNext, pagePrev, hHead, hPrev]
          · rw [Function.update_of_ne (by simpa [pagePrev, eq_comm] using hPrev)]
            simp [pageNext, hHead, hPrev]
      | some page =>
          simp only [pageNext, pagePrev, (hEntry page).2.1, Function.update_apply]
    · intro x _
      cases x with
      | none =>
          by_cases hNext : (entryOf s.pageMaps1 (pageOf p)).next = none
          · simp [pageNext, pagePrev, hNext]
          · rw [Function.update_of_ne (by simpa [pageNext, eq_comm] using hNext)]
            simp [pagePrev, hNext]
      | some page =>
          simp only [pageNext, pagePrev, (hEntry page).2.2, Function.update_apply]

end Modify

end Malloc
