import Coursework.Malloc.MemLib

/-! `mm.c`: the allocator. Every chunk that `mem_map` returned starts with a
`page_chunk_t` and is cut into blocks with a header and a footer; the free
blocks are linked through their payloads.

The loops over the two lists have no bound in the source. Here they take one, and
every function that walks has it as its first argument: `Within n` is the function of
the source with each of its walks cut off after `n` nodes. The functions under the
names of the source have the bound `walkBound`, which no list reaches. -/

namespace Malloc

open Program (read modify stop)

def alignment : Nat := 16

/-- `ALIGN(sz)`; `~(ALIGNMENT - 1)` is an `int` that is sign-extended. -/
def align (sz : Nat) : Nat := add64 sz (alignment - 1) &&& (2 ^ 64 - alignment)

def headerSize : Nat := 16
def footerSize : Nat := 16
def pageChunkSize : Nat := 32

def hdrSize : Nat := align headerSize
def fdrSize : Nat := align footerSize
def pageHdrSize : Nat := align pageChunkSize
def minBlockSize : Nat := 32

@[simp] theorem hdrSize_eq : hdrSize = 16 := by decide
@[simp] theorem fdrSize_eq : fdrSize = 16 := by decide
@[simp] theorem pageHdrSize_eq : pageHdrSize = 32 := by decide
@[simp] theorem minBlockSize_eq : minBlockSize = 32 := rfl

/-! The fields of `header_t`, `footer_t` and `page_chunk_t`. -/

def headerSizeField (h : Nat) : Nat := h
def headerAllocated (h : Nat) : Nat := add64 h 8
def footerSizeField (f : Nat) : Nat := f
def prevChunk (pc : Nat) : Nat := pc
def nextChunk (pc : Nat) : Nat := add64 pc 8
def pageSizeField (pc : Nat) : Nat := add64 pc 16
def pageEndField (pc : Nat) : Nat := add64 pc 24

/-- `FREE_PREV_PTR` and `FREE_NEXT_PTR` as addresses. -/
def freePrevPtr (bp : Nat) : Nat := bp
def freeNextPtr (bp : Nat) : Nat := add64 bp 8

@[simp] theorem headerSizeField_eq (h : Nat) : headerSizeField h = h := rfl
@[simp] theorem footerSizeField_eq (f : Nat) : footerSizeField f = f := rfl
@[simp] theorem prevChunk_eq (pc : Nat) : prevChunk pc = pc := rfl
@[simp] theorem freePrevPtr_eq (bp : Nat) : freePrevPtr bp = bp := rfl

def getAlloc (h : Nat) : Code Nat := load32 (headerAllocated h)
def setAlloc (h : Nat) : Code Unit := store32 (headerAllocated h) 1
def setFree (h : Nat) : Code Unit := store32 (headerAllocated h) 0
def blockSize (h : Nat) : Code Nat := load64 (headerSizeField h)

def removeFreeBlock (bp : Nat) : Code Unit := do
  let prev ← load64 (freePrevPtr bp)
  let next ← load64 (freeNextPtr bp)
  if prev ≠ 0 then store64 (freeNextPtr prev) next
  else modify fun s => { s with freeListHead := next }
  if next ≠ 0 then store64 (freePrevPtr next) prev
  store64 (freePrevPtr bp) 0
  store64 (freeNextPtr bp) 0

def insertFreeBlock (bp : Nat) : Code Unit := do
  store64 (freePrevPtr bp) 0
  let s ← read
  store64 (freeNextPtr bp) s.freeListHead
  if s.freeListHead ≠ 0 then store64 (freePrevPtr s.freeListHead) bp
  modify fun s => { s with freeListHead := bp }

/-- Take a chunk from the page list. -/
def unlinkPageChunk (pc : Nat) : Code Unit := do
  let prev ← load64 (prevChunk pc)
  if prev ≠ 0 then do
    let next ← load64 (nextChunk pc)
    store64 (nextChunk prev) next
  else do
    let next ← load64 (nextChunk pc)
    modify fun s => { s with pageListHead := next }
  let next ← load64 (nextChunk pc)
  if next ≠ 0 then do
    let prev ← load64 (prevChunk pc)
    store64 (prevChunk next) prev

/-- The body of the loop, for a first block that is free and fills its chunk. -/
def unmapFullPage (pc h pageSize : Nat) : Code Unit := do
  removeFreeBlock (add64 h hdrSize)
  unlinkPageChunk pc
  memUnmap pc pageSize

def checkAndUnmapFullPagesLoop : Nat → Nat → Code Unit
  | 0, _ => stop .diverges
  | steps + 1, pc =>
      if pc = 0 then pure ()
      else do
        let next ← load64 (nextChunk pc)
        let h := add64 pc pageHdrSize
        let pageSize ← load64 (pageSizeField pc)
        let remainingSize := sub64 pageSize pageHdrSize
        let alloc ← getAlloc h
        let size ← blockSize h
        if alloc = 0 ∧ size = remainingSize then unmapFullPage pc h pageSize
        checkAndUnmapFullPagesLoop steps next

def checkAndUnmapFullPagesWithin (n : Nat) : Code Unit := do
  let s ← read
  checkAndUnmapFullPagesLoop n s.pageListHead

def checkAndUnmapFullPages : Code Unit := checkAndUnmapFullPagesWithin walkBound

def findPageChunkForAddrLoop (h : Nat) : Nat → Nat → Code Nat
  | 0, _ => stop .diverges
  | steps + 1, pc =>
      if pc = 0 then pure 0
      else do
        let pageStart := add64 pc pageHdrSize
        let pageEnd ← load64 (pageEndField pc)
        if pageStart ≤ h ∧ h < pageEnd then pure pc
        else do
          let next ← load64 (nextChunk pc)
          findPageChunkForAddrLoop h steps next

def findPageChunkForAddrWithin (n h : Nat) : Code Nat := do
  let s ← read
  findPageChunkForAddrLoop h n s.pageListHead

def findPageChunkForAddr (h : Nat) : Code Nat := findPageChunkForAddrWithin walkBound h

def writeFooterWithin (n h : Nat) : Code Unit := do
  let size ← blockSize h
  let f := sub64 (add64 h size) fdrSize
  let pc ← findPageChunkForAddrWithin n h
  if pc ≠ 0 then do
    let pageStart := add64 pc pageHdrSize
    let pageEnd ← load64 (pageEndField pc)
    if f < pageStart ∨ pageEnd < add64 f fdrSize then stop .writeFooterOutsidePage
  let size ← blockSize h
  store64 (footerSizeField f) size

def writeFooter (h : Nat) : Code Unit := writeFooterWithin walkBound h

def getPrevBlockWithin (n h : Nat) : Code Nat := do
  let pc ← findPageChunkForAddrWithin n h
  if pc = 0 then pure 0
  else do
    let pageStart := add64 pc pageHdrSize
    let pageEnd ← load64 (pageEndField pc)
    let prevF := sub64 h fdrSize
    if prevF < pageStart ∨ pageEnd < add64 prevF fdrSize then pure 0
    else do
      let prevSize ← load64 (footerSizeField prevF)
      if prevSize < add64 hdrSize fdrSize ∨ sub64 pageEnd pageStart < prevSize then pure 0
      else do
        let prevH := sub64 h prevSize
        if prevH < pageStart ∨ pageEnd < add64 prevH hdrSize then pure 0
        else pure prevH

/-- The header of the block before `h` in its chunk, or `NULL`. -/
def getPrevBlock (h : Nat) : Code Nat := getPrevBlockWithin walkBound h

def getNextBlockWithin (n h : Nat) : Code Nat := do
  let pc ← findPageChunkForAddrWithin n h
  if pc = 0 then pure 0
  else do
    let pageStart := add64 pc pageHdrSize
    let pageEnd ← load64 (pageEndField pc)
    let size ← blockSize h
    let f := sub64 (add64 h size) fdrSize
    if f < pageStart ∨ pageEnd < add64 f fdrSize then pure 0
    else do
      let size ← blockSize h
      let nextH := add64 h size
      if pageEnd ≤ nextH then pure 0
      else if nextH < pageStart ∨ pageEnd < add64 nextH hdrSize then pure 0
      else pure nextH

/-- The header of the block after `h` in its chunk, or `NULL`. -/
def getNextBlock (h : Nat) : Code Nat := getNextBlockWithin walkBound h

def findFitLoop (asize : Nat) : Nat → Nat → Code Nat
  | 0, _ => stop .diverges
  | steps + 1, bp =>
      if bp = 0 then pure 0
      else do
        let h := sub64 bp hdrSize
        let totalSize := add64 (add64 hdrSize asize) fdrSize
        let alloc ← getAlloc h
        let size ← blockSize h
        if alloc = 0 ∧ totalSize ≤ size then pure bp
        else do
          let next ← load64 (freeNextPtr bp)
          findFitLoop asize steps next

def findFitWithin (n asize : Nat) : Code Nat := do
  let s ← read
  findFitLoop asize n s.freeListHead

def findFit (asize : Nat) : Code Nat := findFitWithin walkBound asize

def splitBlockWithin (n h asize : Nat) : Code Unit := do
  let size ← blockSize h
  let allocSize := add64 (add64 hdrSize asize) fdrSize
  let remaining := sub64 size allocSize
  if add64 (add64 hdrSize minBlockSize) fdrSize ≤ remaining then do
    store64 (headerSizeField h) allocSize
    setAlloc h
    writeFooterWithin n h
    let nextH := add64 h allocSize
    store64 (headerSizeField nextH) remaining
    setFree nextH
    writeFooterWithin n nextH
    insertFreeBlock (add64 nextH hdrSize)
  else do
    setAlloc h
    writeFooterWithin n h

def splitBlock (h asize : Nat) : Code Unit := splitBlockWithin walkBound h asize

/-- `h && !GET_ALLOC(h)`. -/
def isFree (h : Nat) : Code Bool :=
  if h = 0 then pure false
  else do
    let alloc ← getAlloc h
    pure (alloc == 0)

/-- `dst->size += BLOCK_SIZE(src)`. -/
def addBlockSize (dst src : Nat) : Code Unit := do
  let size ← blockSize dst
  let more ← blockSize src
  store64 (headerSizeField dst) (add64 size more)

/-- Merge with the block before, and go on with its header. -/
def mergePrev (prevFree : Bool) (prevH h : Nat) : Code Nat :=
  if prevFree then do
    removeFreeBlock (add64 prevH hdrSize)
    addBlockSize prevH h
    pure prevH
  else pure h

/-- Merge with the block after. -/
def mergeNext (nextFree : Bool) (nextH h : Nat) : Code Unit :=
  if nextFree then do
    removeFreeBlock (add64 nextH hdrSize)
    addBlockSize h nextH
  else pure ()

def coalesceWithin (n bp : Nat) : Code Unit := do
  let h := sub64 bp hdrSize
  let prevH ← getPrevBlockWithin n h
  let nextH ← getNextBlockWithin n h
  let prevFree ← isFree prevH
  let nextFree ← isFree nextH
  let h ← mergePrev prevFree prevH h
  mergeNext nextFree nextH h
  writeFooterWithin n h
  insertFreeBlock (add64 h hdrSize)
  checkAndUnmapFullPagesWithin n

def coalesce (bp : Nat) : Code Unit := coalesceWithin walkBound bp

def mmInit : Code Nat := do
  modify fun s => { s with freeListHead := 0, pageListHead := 0 }
  pure 0

/-- Put a new chunk at the head of the page list. -/
def insertPageChunk (region mapsize : Nat) : Code Unit := do
  store64 (prevChunk region) 0
  let s ← read
  store64 (nextChunk region) s.pageListHead
  store64 (pageSizeField region) mapsize
  store64 (pageEndField region) (add64 region mapsize)
  if s.pageListHead ≠ 0 then store64 (prevChunk s.pageListHead) region
  modify fun s => { s with pageListHead := region }

def mmMallocWithin (n : Nat) (K : Kernel) (size : Nat) : Code Nat :=
  if size = 0 then pure 0
  else do
    let asize := align size
    let totalSize := add64 (add64 hdrSize asize) fdrSize
    let bp ← findFitWithin n asize
    if bp ≠ 0 then do
      let h := sub64 bp hdrSize
      removeFreeBlock bp
      splitBlockWithin n h asize
      pure (add64 h hdrSize)
    else do
      let pagesize := memPagesize
      let need := add64 totalSize pageHdrSize
      let mapsize := sub64 (add64 need pagesize) 1 / pagesize * pagesize
      let region ← memMap K mapsize
      if region = 0 then pure 0
      else do
        insertPageChunk region mapsize
        let h := add64 region pageHdrSize
        let freeBlockSize := sub64 mapsize pageHdrSize
        store64 (headerSizeField h) freeBlockSize
        setFree h
        writeFooterWithin n h
        splitBlockWithin n h asize
        pure (add64 h hdrSize)

def mmMalloc (K : Kernel) (size : Nat) : Code Nat := mmMallocWithin walkBound K size

def mmFreeWithin (n ptr : Nat) : Code Unit :=
  if ptr = 0 then pure ()
  else do
    let h := sub64 ptr hdrSize
    setFree h
    writeFooterWithin n h
    coalesceWithin n ptr

def mmFree (ptr : Nat) : Code Unit := mmFreeWithin walkBound ptr

end Malloc
