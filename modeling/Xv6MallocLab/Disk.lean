import Xv6MallocLab.ByteMemory
import Xv6MallocLab.FallibleState

/-!
# Blocks, inodes and their contents

The lower half of fs.c.  The disk is what the buffer cache shows of it: the free bitmap,
the inodes, and the bytes of the other blocks.
-/

namespace Xv6MallocLab.FileSystem

open ByteMemory Function

def bsize : ℕ := 1024

def ndirect : ℕ := 12

def nindirect : ℕ := 256

def maxfile : ℕ := ndirect + nindirect

def dirsiz : ℕ := 14

def direntSize : ℕ := 16

def rootino : ℕ := 1

/-- What is read of the superblock, and the first data block; the blocks below it hold
the log, the inodes and the bitmap. -/
structure Super where
  size : ℕ
  ninodes : ℕ
  datastart : ℕ
  size_lt : size < 2 ^ 32
  datastart_pos : 0 < datastart

inductive IType
  | free | dir | file | device
  deriving DecidableEq, Repr

/-- `struct dinode`; `addrs` has `NDIRECT + 1` entries. -/
structure Dinode where
  type : IType
  major : ℤ
  minor : ℤ
  nlink : ℤ
  size : ℕ
  addrs : ℕ → ℕ

structure Disk where
  bitmap : ℕ → Bool
  dinode : ℕ → Dinode
  block : ℕ → Memory

/-- The panics of fs.c, sysfile.c and file.c; `outOfBlocks` is that of an allocator that
must not fail. -/
inductive Panic
  | freeingFreeBlock | bmapRange
  | iget | ilock | noType | iunlock | deadlock
  | dirlookupNotDir | dirlookupRead | dirlinkRead | isdiremptyRead
  | unlinkNlink | unlinkWritei | fileclose
  | outOfBlocks
  deriving DecidableEq, Repr

abbrev DiskM (α : Type) := Fallible Disk Panic α

variable (sb : Super)

def Disk.take (d : Disk) (b : ℕ) : Disk :=
  { d with bitmap := update d.bitmap b true, block := update d.block b fun _ => 0 }

def Disk.release (d : Disk) (b : ℕ) : Disk :=
  { d with bitmap := update d.bitmap b false }

def Disk.put (d : Disk) (b : ℕ) (m : Memory) : Disk :=
  { d with block := update d.block b m }

def Disk.putInode (d : Disk) (inum : ℕ) (ip : Dinode) : Disk :=
  { d with dinode := update d.dinode inum ip }

/-- `balloc`: the first block whose bit is clear. -/
def balloc : DiskM ℕ := do
  let d ← get
  match (List.range sb.size).find? fun b => !d.bitmap b with
  | some b => do
      set (d.take b)
      return b
  | none => return 0

/-- `bfree`, which panics if the bit of `b` is clear. -/
def bfree (b : ℕ) : DiskM Unit := do
  let d ← get
  if !d.bitmap b then throw .freeingFreeBlock
  else set (d.release b)

def setBlock (b : ℕ) (m : Memory) : DiskM Unit := modify fun d => d.put b m

def iupdate (inum : ℕ) (ip : Dinode) : DiskM Unit := modify fun d => d.putInode inum ip

def Dinode.setAddr (ip : Dinode) (j addr : ℕ) : Dinode :=
  { ip with addrs := update ip.addrs j addr }

def Dinode.setSize (ip : Dinode) (size : ℕ) : Dinode := { ip with size := size }

def word (m : Memory) (j : ℕ) : ℕ := load 4 m (4 * j)

def addrOf (alloc : DiskM ℕ) (ip : Dinode) (j : ℕ) : DiskM (Dinode × ℕ) :=
  if ip.addrs j = 0 then do
    let addr ← alloc
    if addr = 0 then return (ip, 0)
    else return (ip.setAddr j addr, addr)
  else return (ip, ip.addrs j)

/-- `bmap`, with `balloc` as a parameter to tell where it is reached. -/
def bmap (alloc : DiskM ℕ) (ip : Dinode) (bn : ℕ) : DiskM (Dinode × ℕ) :=
  if bn < ndirect then addrOf alloc ip bn
  else if bn - ndirect < nindirect then do
    let (ip, a) ← addrOf alloc ip ndirect
    if a = 0 then return (ip, 0)
    else do
      let d ← get
      if word (d.block a) (bn - ndirect) = 0 then do
        let addr ← alloc
        if addr = 0 then return (ip, 0)
        else do
          let d ← get
          setBlock a (store 4 (d.block a) (4 * (bn - ndirect)) addr)
          return (ip, addr)
      else return (ip, word (d.block a) (bn - ndirect))
  else throw .bmapRange

def truncDirect : List ℕ → Dinode → DiskM Dinode
  | [], ip => return ip
  | j :: l, ip =>
    if ip.addrs j = 0 then truncDirect l ip
    else do
      bfree (ip.addrs j)
      truncDirect l (ip.setAddr j 0)

def truncIndirect (a : Memory) : List ℕ → DiskM Unit
  | [] => return
  | j :: l =>
    if word a j = 0 then truncIndirect a l
    else do
      bfree (word a j)
      truncIndirect a l

/-- `itrunc`: free the data blocks and the indirect block, and write size 0. -/
def itrunc (inum : ℕ) (ip : Dinode) : DiskM Dinode := do
  let ip ← truncDirect (List.range ndirect) ip
  if ip.addrs ndirect = 0 then do
    let ip := ip.setSize 0
    iupdate inum ip
    return ip
  else do
    let d ← get
    truncIndirect (d.block (ip.addrs ndirect)) (List.range nindirect)
    bfree (ip.addrs ndirect)
    let ip := (ip.setAddr ndirect 0).setSize 0
    iupdate inum ip
    return ip

def nblocks (off n : ℕ) : ℕ := if n = 0 then 0 else (off + n - 1) / bsize - off / bsize + 1

def blit (b : Memory) (off m : ℕ) (src : Memory) (tot : ℕ) : Memory :=
  fun i => if off ≤ i ∧ i < off + m then src (tot + (i - off)) else b i

/-- The loop of `readi` over `c` blocks; `copy` tells whether the `either_copyout` after
`tot` bytes succeeds. -/
def readLoop (alloc : DiskM ℕ) (copy : ℕ → Bool) :
    ℕ → Dinode → ℕ → ℕ → ℕ → Memory → DiskM (Dinode × ℤ × Memory)
  | 0, ip, _, _, tot, buf => return (ip, tot, buf)
  | c + 1, ip, off, n, tot, buf => do
      let (ip, addr) ← bmap alloc ip (off / bsize)
      if addr = 0 then return (ip, tot, buf)
      else if !copy tot then return (ip, -1, buf)
      else do
        let d ← get
        let m := min (n - tot) (bsize - off % bsize)
        readLoop alloc copy c ip (off + m) n (tot + m) (blit buf tot m (d.block addr) (off % bsize))

def readi (alloc : DiskM ℕ) (ip : Dinode) (off n : ℕ) (copy : ℕ → Bool) : DiskM (Dinode × ℤ × Memory) :=
  if ip.size < off ∨ (off + n) % 2 ^ 32 < off then return (ip, 0, fun _ => 0)
  else
    let n := if ip.size < off + n then ip.size - off else n
    readLoop alloc copy (nblocks off n) ip off n 0 fun _ => 0

/-- What `writei` writes.  A copy from user memory may fail after `tot` bytes, having
put some bytes of the block there. -/
structure Source where
  data : Memory
  fault : ℕ → Option ℕ

def Source.kernel (data : Memory) : Source := ⟨data, fun _ => none⟩

def writeLoop (alloc : DiskM ℕ) (src : Source) : ℕ → Dinode → ℕ → ℕ → ℕ → DiskM (Dinode × ℕ × ℕ)
  | 0, ip, off, _, tot => return (ip, off, tot)
  | c + 1, ip, off, n, tot => do
      let (ip, addr) ← bmap alloc ip (off / bsize)
      if addr = 0 then return (ip, off, tot)
      else do
        let d ← get
        let m := min (n - tot) (bsize - off % bsize)
        match src.fault tot with
        | some j => do
            setBlock addr (blit (d.block addr) (off % bsize) (min j m) src.data tot)
            return (ip, off, tot)
        | none => do
            setBlock addr (blit (d.block addr) (off % bsize) m src.data tot)
            writeLoop alloc src c ip (off + m) n (tot + m)

def writei (alloc : DiskM ℕ) (inum : ℕ) (ip : Dinode) (src : Source) (off n : ℕ) :
    DiskM (Dinode × ℤ) :=
  if ip.size < off ∨ (off + n) % 2 ^ 32 < off then return (ip, -1)
  else if maxfile * bsize < off + n then return (ip, -1)
  else do
    let (ip, off, tot) ← writeLoop alloc src (nblocks off n) ip off n 0
    let ip := if ip.size < off then ip.setSize off else ip
    iupdate inum ip
    return (ip, tot)

abbrev Name := List UInt8

/-- `struct dirent`; the name ends at its first zero byte. -/
structure Dirent where
  inum : ℕ
  name : Name
  deriving DecidableEq, Repr

def Dirent.decode (m : Memory) (a : ℕ) : Dirent where
  inum := load 2 m a
  name := ((List.range dirsiz).map fun i => m (a + 2 + i)).takeWhile (· != 0)

/-- The bytes of an entry; `strncpy` cuts the name off and fills it with zeros. -/
def Dirent.encode (e : Dirent) : Memory :=
  store 2 (fun i => if i < 2 then 0 else (e.name.take dirsiz).getD (i - 2) 0) 0 e.inum

def Dinode.nslots (ip : Dinode) : ℕ := (ip.size + direntSize - 1) / direntSize

def readDirent (ip : Dinode) (off : ℕ) (p : Panic) : DiskM (Dinode × Dirent) := do
  let (ip, r, buf) ← readi (balloc sb) ip off direntSize fun _ => true
  if r ≠ direntSize then throw p else return (ip, Dirent.decode buf 0)

def lookupLoop (name : Name) : ℕ → Dinode → ℕ → DiskM (Dinode × Option (ℕ × ℕ))
  | 0, ip, _ => return (ip, none)
  | c + 1, ip, off => do
      let (ip, de) ← readDirent sb ip off .dirlookupRead
      if de.inum ≠ 0 ∧ name = de.name then return (ip, some (de.inum, off))
      else lookupLoop name c ip (off + direntSize)

def emptyLoop : ℕ → Dinode → ℕ → DiskM (Dinode × ℕ)
  | 0, ip, off => return (ip, off)
  | c + 1, ip, off => do
      let (ip, de) ← readDirent sb ip off .dirlinkRead
      if de.inum = 0 then return (ip, off) else emptyLoop c ip (off + direntSize)

def isdiremptyLoop : ℕ → Dinode → ℕ → DiskM (Dinode × Bool)
  | 0, ip, _ => return (ip, true)
  | c + 1, ip, off => do
      let (ip, de) ← readDirent sb ip off .isdiremptyRead
      if de.inum ≠ 0 then return (ip, false) else isdiremptyLoop c ip (off + direntSize)

/-- `isdirempty`: no entry in use after `.` and `..`. -/
def isdirempty (ip : Dinode) : DiskM (Dinode × Bool) :=
  isdiremptyLoop sb (ip.nslots - 2) ip (2 * direntSize)

def putDirent (inum : ℕ) (ip : Dinode) (e : Dirent) : DiskM (Dinode × Bool) := do
  let (ip, off) ← emptyLoop sb ip.nslots ip 0
  let (ip, r) ← writei (balloc sb) inum ip (.kernel e.encode) off direntSize
  return (ip, r = direntSize)

end Xv6MallocLab.FileSystem
