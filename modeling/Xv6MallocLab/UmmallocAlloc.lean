import Xv6MallocLab.UmmallocData

/-!
# Allocation paths of the slot allocator

`memory/ummalloc_dealloc.h`, `memory/ummalloc_alloc.h` and `user/ummalloc.c`: the size
classes behind `mm_malloc`, the fast pages, and the extension of the heap.  A null
pointer is the address zero.
-/

namespace Xv6MallocLab.Ummalloc

open ByteMemory

variable (L : Layout)

/-- `free_chunk`: push the chunk on the list of its size. -/
def freeChunk (pack : ℕ) : Prog Unit := do
  Prog.impossible (packMeta (← Prog.mem) pack ≠ prevInuse)
  Prog.impossible (packMeta (← Prog.mem) (packNext (← Prog.mem) pack) ≠ thisInuse)
  let size := packSize (← Prog.mem) pack
  let index ← getIndex size
  let list := L.slot index
  let node := packData pack
  listPush list node
  bitmapSet index

/-- `try_safe_remove`; a list that becomes empty loses its bit. -/
def trySafeRemove (node pack : ℕ) : Prog Unit := do
  let prev := nodePrev (← Prog.mem) node
  let next := nodeNext (← Prog.mem) node
  nodeLink prev next
  if prev = next then
    bitmapClr (← getIndex (packSize (← Prog.mem) pack))

/-- `try_merge_prev`: the chunk, joined with a free one before it. -/
def tryMergePrev (pack : ℕ) : Prog ℕ := do
  let info := packMeta (← Prog.mem) pack
  if info &&& prevInuse ≠ 0 then
    return pack
  else
    let size := packSize (← Prog.mem) pack
    let prev := packPrev (← Prog.mem) pack
    let node := packData prev
    trySafeRemove node prev
    prevAddSize prev size
    let next := packNext (← Prog.mem) prev
    packSetPrev next (packSize (← Prog.mem) prev)
    return prev

/-- `pack_allocate`: hand out the whole chunk. -/
def packAllocate (pack : ℕ) : Prog ℕ := do
  let size := packSize (← Prog.mem) pack
  packSetMeta pack bothInuse
  let next := packNext (← Prog.mem) pack
  packSetPrev next size
  packAddMeta next prevInuse
  return packData pack

/-- `split_allocate`: hand out `need` bytes and free the rest. -/
def splitAllocate (pack need : ℕ) : Prog ℕ := do
  let rest := (packSize (← Prog.mem) pack + 2 ^ 64 - need) % 2 ^ 64
  let next := packNext (← Prog.mem) pack
  packSetPrev next rest
  packSetMeta next thisInuse
  packSetInfo pack need bothInuse
  let temp := packNext (← Prog.mem) pack
  packSetPrev temp need
  packSetInfo temp rest prevInuse
  freeChunk L temp
  return packData pack

/-- `try_split_allocate`, which splits off a large rest only. -/
def trySplitAllocate (pack need : ℕ) : Prog ℕ := do
  let size := packSize (← Prog.mem) pack
  let rest := (size + 2 ^ 64 - need) % 2 ^ 64
  if rest ≥ need ∨ rest ≥ 512 then
    splitAllocate L pack need
  else
    packAllocate pack

def listExtract (index : ℕ) : Prog ℕ := do
  let list := L.slot index
  let node ← listPop list
  if listEmpty (← Prog.mem) list then bitmapClr index
  return node

/-- `malloc_brk`, which moves `base` before it calls `sbrk`. -/
def mallocBrk (need : ℕ) : Prog ℕ := do
  let pack := listPack (← get).base
  let page := (need + pageSize - 1) / pageSize
  let size := page * pageSize
  packSetSize pack size
  let heap := (← get).base
  modify fun s => { s with base := (heap + size) % 2 ^ 64 }
  let old ← sbrk (toInt size)
  if old = minusOne then
    return 0
  else
    let next := packNext (← Prog.mem) pack
    packSetInfo next 0 thisInuse
    trySplitAllocate L (← tryMergePrev pack) need

/-- `next_allocate`: a chunk of a list above, or fresh memory. -/
def nextAllocate (index size : ℕ) : Prog ℕ := do
  let lowbit := nextFree (← get).bitmap index
  if lowbit = 0 then
    mallocBrk L size
  else
    let position := log2Ceil64 lowbit.toNat
    let node ← listExtract L position
    let pack := listPack node
    trySplitAllocate L pack size

/-- `tiny_allocate`: a chunk of this size, if there is one. -/
def tinyAllocate (index : ℕ) : Prog ℕ := do
  if listEmpty (← Prog.mem) (L.slot index) then
    return 0
  else
    let node ← listExtract L index
    let pack := listPack node
    packAllocate pack

/-- The `while` loop of `iterative_allocate`, with the remaining number of
attempts as the recursion argument. -/
def iterativeSearch (index need : ℕ) : ℕ → ℕ → Prog ℕ
  | 0, _ => return 0
  | iteration + 1, head => do
      if head = L.slot index then
        return 0
      else
        let pack := listPack head
        let size := packSize (← Prog.mem) pack
        if size ≥ need then
          safeRemove head index
          packAllocate pack
        else
          iterativeSearch index need iteration (nodeNext (← Prog.mem) head)

/-- `iterative_allocate`: the first that fits among `iteration` chunks. -/
def iterativeAllocate (index need iteration : ℕ) : Prog ℕ := do
  let head := nodeNext (← Prog.mem) (L.slot index)
  iterativeSearch L index need iteration head

def mallocHuge (size : ℕ) : Prog ℕ := do
  let index := if size < 6144 then 48 else (size - 1) / 4096 + 48
  let data ← iterativeAllocate L index size 8
  if data ≠ 0 then
    return data
  else
    nextAllocate L index size

def mallocMiddle (size : ℕ) : Prog ℕ := do
  let index := if size ≤ 640 then (size + 1535) / 64 else 34 + (size - 513) / 256
  let data ← iterativeAllocate L index size 4
  if data ≠ 0 then
    return data
  else
    nextAllocate L index size

def fastMap (node i : ℕ) : ℕ := packData (listPack node) + 16 + 8 * i

/-- `fast_bin_reserve`: a new page when none has a free cell. -/
def fastBinReserve : Prog Unit := do
  if listEmpty (← Prog.mem) (L.slot 1) then
    let data ← mallocHuge L (4096 + 48)
    let node := data
    listPush (L.slot 1) node
    Prog.poke64 (fastMap node 0) (64 + 64)
    Prog.poke64 (fastMap node 1) minusOne
    Prog.poke64 (fastMap node 2) minusOne

def clearBit64 (word high : ℕ) : ℕ := (BitVec.ofNat 64 word &&& ~~~ bitAt high).toNat

/-- The cell handed out by `fast_allocate`: take the highest set bit of the
two map words, clear it and return its index. -/
def fastTake (node : ℕ) : Prog (Option ℕ) := do
  let map1 := load 8 (← Prog.mem) (fastMap node 1)
  if map1 ≠ 0 then
    let high := log2Floor64 map1
    Prog.poke64 (fastMap node 1) (clearBit64 map1 high)
    return some high
  else
    let map2 := load 8 (← Prog.mem) (fastMap node 2)
    if map2 ≠ 0 then
      let high := log2Floor64 map2
      Prog.poke64 (fastMap node 2) (clearBit64 map2 high)
      return some (high + 64)
    else
      Prog.impossible True
      return none

/-- `fast_allocate`: a cell of the first page on the list. -/
def fastAllocate : Prog ℕ := do
  let list := L.slot 1
  if listEmpty (← Prog.mem) list then
    return 0
  else
    let node := nodeNext (← Prog.mem) list
    let memory := fastMap node 3
    Prog.impossible (load 8 (← Prog.mem) (fastMap node 0) = 0)
    Prog.poke64 (fastMap node 0) (load 8 (← Prog.mem) (fastMap node 0) + 2 ^ 64 - 1)
    if load 8 (← Prog.mem) (fastMap node 0) = 0 then
      listPush L.fastFull (← listPop list)
    match ← fastTake node with
    | none => return 0
    | some index =>
      let next := (memory + index * 32) % 2 ^ 64
      packSetPrev next index
      packSetInfo next 32 bothInuse
      return packData next

def mallocFast : Prog ℕ := do
  fastBinReserve L
  fastAllocate L

def mallocTiny (size : ℕ) : Prog ℕ := do
  if size ≤ 32 then
    mallocFast L
  else
    let index := (size - 1) / 16
    let size := (index + 1) * 16
    let data ← tinyAllocate L index
    if data ≠ 0 then
      return data
    else
      nextAllocate L index size

def mmListInit : Prog Unit := do
  (List.range 64).forM fun i => listInit (L.slot i)
  listInit L.fastFull

def headSize : ℕ := 114514

/-- The part of `mm_align_init` behind its system calls: one free chunk
between `heap` and `heap + size`. -/
def layHeap (heap size : ℕ) : Prog Unit := do
  let top := (heap + size) % 2 ^ 64
  let low := (align heap + 8) % 2 ^ 64
  modify fun s => { s with base := top }
  let size := (top + 2 ^ 64 - low) % 2 ^ 64
  let pack := listPack low
  packSetPrev pack headSize
  packSetInfo pack size prevInuse
  let next := listPack top
  packSetPrev next size
  packSetInfo next 0 thisInuse
  freeChunk L pack

/-- `mm_align_init`: the heap ends at a page boundary. -/
def mmAlignInit : Prog Unit := do
  let heap ← sbrk (toInt pageSize)
  let temp := heap % pageSize
  if temp ≠ 0 then
    let _ ← sbrk (toInt (pageSize - temp))
    layHeap L heap (pageSize + (pageSize - temp))
  else
    layHeap L heap pageSize

def mmInit : Prog ℤ := do
  mmListInit L
  mmAlignInit L
  return if (← get).base = 0 then -1 else 0

def chunkSize (size : UInt32) : UInt32 := ((size + 7) &&& ~~~ 7) + 8

/-- `mm_malloc`; the rounded size may wrap. -/
def mmMalloc (size : UInt32) : Prog ℕ := do
  let size := (chunkSize size).toNat
  if size ≤ 512 then
    mallocTiny L size
  else if size > 4096 then
    mallocHuge L size
  else
    mallocMiddle L size

end Xv6MallocLab.Ummalloc
