import Xv6MallocLab.UserProcess

/-!
# Chunks, free lists and slots of the slot allocator

`memory/ummalloc_decl.h` and `memory/ummalloc_data.h`.  A chunk starts with the size of the
previous chunk and its own size with three flag bits; a free chunk carries a list node
behind that.  Pointer arithmetic is reduced modulo `2 ^ 64`.
-/

namespace Xv6MallocLab.Ummalloc

open ByteMemory

/-- Where the linker put the list heads `slots` and `fast_full`. -/
structure Layout where
  slots : ℕ
  fastFull : ℕ

def Layout.slot (L : Layout) (index : ℕ) : ℕ := L.slots + 16 * index

def pageSize : ℕ := 4096

def align (size : ℕ) : ℕ := (size + 7) % 2 ^ 64 / 8 * 8

def prevInuse : ℕ := 1
def thisInuse : ℕ := 2
def bothInuse : ℕ := 3
def fullMask : ℕ := 7

def sizeMask : ℕ := 0xFFFFFFF8

def packSize (m : Memory) (pack : ℕ) : ℕ := load 4 m (pack + 4) &&& sizeMask

def packMeta (m : Memory) (pack : ℕ) : ℕ := load 4 m (pack + 4) &&& fullMask

def packNext (m : Memory) (pack : ℕ) : ℕ := (pack + packSize m pack) % 2 ^ 64

/-- The chunk before, by the size that it left. -/
def packPrev (m : Memory) (pack : ℕ) : ℕ := (pack + 2 ^ 64 - load 4 m pack) % 2 ^ 64

def packData (pack : ℕ) : ℕ := (pack + 8) % 2 ^ 64

def packAddMeta (pack info : ℕ) : Prog Unit := do
  Prog.poke32 (pack + 4) (load 4 (← Prog.mem) (pack + 4) ||| info)

def packSetMeta (pack info : ℕ) : Prog Unit := do
  Prog.poke32 (pack + 4) ((load 4 (← Prog.mem) (pack + 4) &&& sizeMask) ||| info)

def packSetInfo (pack size info : ℕ) : Prog Unit := do
  Prog.impossible (size &&& fullMask ≠ 0)
  Prog.poke32 (pack + 4) (size ||| info)

def packSetPrev (pack size : ℕ) : Prog Unit := Prog.poke32 pack size

def packSetSize (pack size : ℕ) : Prog Unit := do
  Prog.impossible (size &&& fullMask ≠ 0)
  Prog.poke32 (pack + 4) ((load 4 (← Prog.mem) (pack + 4) &&& fullMask) ||| size)

def prevAddSize (pack size : ℕ) : Prog Unit := do
  Prog.impossible (size &&& fullMask ≠ 0)
  Prog.poke32 (pack + 4) (load 4 (← Prog.mem) (pack + 4) + size)

def nodePrev (m : Memory) (node : ℕ) : ℕ := load 8 m node

def nodeNext (m : Memory) (node : ℕ) : ℕ := load 8 m (node + 8)

def listPack (node : ℕ) : ℕ := (node + 2 ^ 64 - 8) % 2 ^ 64

def listInit (list : ℕ) : Prog Unit := do
  Prog.poke64 list list
  Prog.poke64 (list + 8) list

def listEmpty (m : Memory) (list : ℕ) : Bool := nodeNext m list = list

/-- `node_link`: `next` follows `prev`. -/
def nodeLink (prev next : ℕ) : Prog Unit := do
  Prog.poke64 (prev + 8) next
  Prog.poke64 next prev

def listPop (list : ℕ) : Prog ℕ := do
  let node := nodeNext (← Prog.mem) list
  nodeLink list (nodeNext (← Prog.mem) node)
  return node

def listPush (list node : ℕ) : Prog Unit := do
  nodeLink node (nodeNext (← Prog.mem) list)
  nodeLink list node

def log2Round (shift : ℕ) (state : ℕ × ℕ) : ℕ × ℕ :=
  let p := if state.2 >>> shift ≠ 0 then shift else 0
  (state.1 + p, state.2 >>> p)

/-- `log2_ceil64`, by bisection. -/
def log2Ceil64 (x : ℕ) : ℕ :=
  let x := (x + 2 ^ 64 - 1) % 2 ^ 64
  let state := log2Round 2 (log2Round 4 (log2Round 8 (log2Round 16 (log2Round 32 (0, x)))))
  state.1 + state.2 + (if state.2 < 3 then 1 else 0) - 1

def log2Floor64 (x : ℕ) : ℕ := (log2Ceil64 ((x + 1) % 2 ^ 64) + 2 ^ 64 - 1) % 2 ^ 64

/-- The lowest set bit of the bitmap above `size`.  The shift count is taken
modulo 64, as the RISC-V shift instructions do. -/
def nextFree (bitmap : BitVec 64) (size : ℕ) : BitVec 64 :=
  let mask := bitmap &&& (BitVec.allOnes 64 <<< ((size + 1) % 64))
  mask &&& -mask

def bitAt (index : ℕ) : BitVec 64 := 1#64 <<< (index % 64)

def bitmapSet (index : ℕ) : Prog Unit :=
  modify fun s => { s with bitmap := s.bitmap ||| bitAt index }

def bitmapClr (index : ℕ) : Prog Unit :=
  modify fun s => { s with bitmap := s.bitmap &&& ~~~ bitAt index }

def safeRemove (node index : ℕ) : Prog Unit := do
  let prev := nodePrev (← Prog.mem) node
  let next := nodeNext (← Prog.mem) node
  nodeLink prev next
  if prev = next then bitmapClr index

/-- `get_index`: the list for chunks of this size. -/
def getIndex (size : ℕ) : Prog ℕ := do
  if size ≤ 512 then
    Prog.impossible (size ≤ 32)
    return (size - 1) / 16
  else if size > 4096 then
    return if size < 6144 then 48 else (size - 1) / 4096 + 48
  else
    return if size ≤ 640 then (size + 1535) / 64 else 34 + (size - 513) / 256

end Xv6MallocLab.Ummalloc
