import Xv6MallocLab.InodeContents

/-!
# The inode table

The upper half of fs.c: `itable` with its references and sleep-locks, and the calls on
inodes.  The calls run one at a time, so a lock that is already held stays held for
ever, which is the panic `deadlock`.
-/

namespace Xv6MallocLab.FileSystem

def ninode : ℕ := 50

abbrev ISlot := Fin ninode

/-- `struct inode`; there is one device.  The fields that live on disk are in `copy`. -/
structure Inode where
  inum : ℕ
  ref : ℤ
  valid : Bool
  locked : Bool
  copy : Dinode

structure Itable where
  disk : Disk
  inode : ISlot → Inode

abbrev InodeM (α : Type) := Fallible Itable Panic α

def Itable.setInode (s : Itable) (i : ISlot) (x : Inode) : Itable :=
  { s with inode := Function.update s.inode i x }

def Itable.setDisk (s : Itable) (d : Disk) : Itable := { s with disk := d }

def Inode.setRef (x : Inode) (ref : ℤ) : Inode := { x with ref := ref }

def Inode.setLocked (x : Inode) (locked : Bool) : Inode := { x with locked := locked }

def Inode.setCopy (x : Inode) (ip : Dinode) : Inode := { x with copy := ip }

def Inode.recycle (x : Inode) (inum : ℕ) : Inode := { x with inum := inum, ref := 1, valid := false }

def Inode.loaded (x : Inode) (ip : Dinode) : Inode :=
  { x with valid := true, locked := true, copy := ip }

def Inode.dropped (x : Inode) (ip : Dinode) : Inode :=
  { x with ref := x.ref - 1, valid := false, copy := ip }

variable (sb : Super)

def Itable.slotOf (s : Itable) (inum : ℕ) : Option ISlot :=
  (List.finRange ninode).find? fun i => 0 < (s.inode i).ref ∧ (s.inode i).inum = inum

def Itable.freeSlot (s : Itable) : Option ISlot :=
  (List.finRange ninode).find? fun i => (s.inode i).ref = 0

/-- `iget`: one more reference to the entry of `inum`, or an entry recycled for it. -/
def iget (inum : ℕ) : InodeM ISlot := do
  let s ← get
  match s.slotOf inum with
  | some i => do
      set (s.setInode i ((s.inode i).setRef ((s.inode i).ref + 1)))
      return i
  | none =>
    match s.freeSlot with
    | some i => do
        set (s.setInode i ((s.inode i).recycle inum))
        return i
    | none => throw .iget

def idup (i : ISlot) : InodeM Unit :=
  modify fun s => s.setInode i ((s.inode i).setRef ((s.inode i).ref + 1))

/-- `ilock`.  In one process a second lock would wait forever. -/
def ilock (i : ISlot) : InodeM Unit := do
  let s ← get
  if (s.inode i).ref < 1 then throw .ilock
  else if (s.inode i).locked then throw .deadlock
  else if (s.inode i).valid then set (s.setInode i ((s.inode i).setLocked true))
  else if (s.disk.dinode (s.inode i).inum).type = .free then throw .noType
  else set (s.setInode i ((s.inode i).loaded (s.disk.dinode (s.inode i).inum)))

def iunlock (i : ISlot) : InodeM Unit := do
  let s ← get
  if !(s.inode i).locked ∨ (s.inode i).ref < 1 then throw .iunlock
  else set (s.setInode i ((s.inode i).setLocked false))

def onDisk {α : Type} (m : DiskM α) : InodeM α := Fallible.zoom Itable.disk Itable.setDisk m

def Dinode.setType (ip : Dinode) (type : IType) : Dinode := { ip with type := type }

def freeInode (inum : ℕ) (ip : Dinode) : DiskM Dinode := do
  let ip ← itrunc inum ip
  iupdate inum (ip.setType .free)
  return ip.setType .free

/-- `iput`; the last reference to an inode without links frees it on the disk. -/
def iput (i : ISlot) : InodeM Unit := do
  let s ← get
  if (s.inode i).ref = 1 ∧ (s.inode i).valid ∧ (s.inode i).copy.nlink = 0 then
    if (s.inode i).locked then throw .deadlock
    else do
      let ip ← onDisk (freeInode (s.inode i).inum (s.inode i).copy)
      modify fun s => s.setInode i ((s.inode i).dropped ip)
  else set (s.setInode i ((s.inode i).setRef ((s.inode i).ref - 1)))

def iunlockput (i : ISlot) : InodeM Unit := do
  iunlock i
  iput i

def Dinode.fresh (type : IType) : Dinode where
  type := type
  major := 0
  minor := 0
  nlink := 0
  size := 0
  addrs := fun _ => 0

def Disk.freeInum (d : Disk) : Option ℕ :=
  (List.range' 1 (sb.ninodes - 1)).find? fun inum => (d.dinode inum).type = .free

/-- `ialloc`: the first free inode of the disk, or a null pointer. -/
def ialloc (type : IType) : InodeM (Option ISlot) := do
  let s ← get
  match s.disk.freeInum sb with
  | none => return none
  | some inum => do
      set (s.setDisk (s.disk.putInode inum (.fresh type)))
      let i ← iget inum
      return some i

def onCopy {α : Type} (i : ISlot) (f : ℕ → Dinode → DiskM (Dinode × α)) : InodeM α := do
  let s ← get
  let (ip, a) ← onDisk (f (s.inode i).inum (s.inode i).copy)
  modify fun s => s.setInode i ((s.inode i).setCopy ip)
  return a

def setLinks (i : ISlot) (nlink major minor : ℤ) : InodeM Unit :=
  onCopy i fun inum ip => do
    let ip : Dinode := { ip with nlink := nlink, major := major, minor := minor }
    iupdate inum ip
    return (ip, ())

/-- `dirlookup`: the inode with this name, and where its entry is. -/
def dirlookup (i : ISlot) (name : Name) : InodeM (Option (ISlot × ℕ)) := do
  let s ← get
  if (s.inode i).copy.type ≠ .dir then throw .dirlookupNotDir
  else do
    match ← onCopy i fun _ ip => lookupLoop sb name ip.nslots ip 0 with
    | none => return none
    | some (inum, off) => do
        let j ← iget inum
        return some (j, off)

/-- `dirlink`, which fails if the name is there or the write is short. -/
def dirlink (i : ISlot) (name : Name) (inum : ℕ) : InodeM Bool := do
  match ← dirlookup sb i name with
  | some (j, _) => do
      iput j
      return false
  | none => onCopy i fun dnum ip => putDirent sb dnum ip ⟨inum, name⟩

inductive Op
  | iget (inum : ℕ)
  | idup (i : ISlot)
  | ilock (i : ISlot)
  | iunlock (i : ISlot)
  | iput (i : ISlot)
  | ialloc (type : IType)
  | readi (i : ISlot) (off n : ℕ) (copy : ℕ → Bool)
  | writei (i : ISlot) (src : Source) (off n : ℕ)
  | itrunc (i : ISlot)
  | setLinks (i : ISlot) (nlink major minor : ℤ)
  | dirlookup (i : ISlot) (name : Name)
  | dirlink (i : ISlot) (name : Name) (inum : ℕ)

def perform : Op → InodeM Unit
  | .iget inum => do let _ ← iget inum
  | .idup i => idup i
  | .ilock i => ilock i
  | .iunlock i => iunlock i
  | .iput i => iput i
  | .ialloc type => do let _ ← ialloc sb type
  | .readi i off n copy => do let _ ← onCopy i fun _ ip => readi (balloc sb) ip off n copy
  | .writei i src off n => do let _ ← onCopy i fun inum ip => writei (balloc sb) inum ip src off n
  | .itrunc i => onCopy i fun inum ip => do return (← itrunc inum ip, ())
  | .setLinks i nlink major minor => setLinks i nlink major minor
  | .dirlookup i name => do let _ ← dirlookup sb i name
  | .dirlink i name inum => do let _ ← dirlink sb i name inum

/-- What the comments of fs.c ask of a caller: a reference for `idup` and `iput`, the
lock for the contents.  Inode numbers are below `ninodes`. -/
def Itable.admits (s : Itable) : Op → Prop
  | .iget inum => inum < sb.ninodes
  | .idup i => 0 < (s.inode i).ref
  | .ilock i => (s.inode i).inum < sb.ninodes
  | .iunlock _ | .ialloc _ => True
  | .iput i => 0 < (s.inode i).ref ∧ ((s.inode i).ref = 1 → (s.inode i).locked = false)
  | .readi i .. | .writei i .. | .itrunc i | .setLinks i .. | .dirlookup i _ | .dirlink i .. =>
    (s.inode i).locked = true

def boot (d : Disk) : Itable where
  disk := d
  inode := fun _ => { inum := 0, ref := 0, valid := false, locked := false, copy := .fresh .free }

inductive Reached (s0 : Itable) : Itable → Prop
  | refl : Reached s0 s0
  | step {s s' : Itable} (op : Op) (h : Reached s0 s) (hop : s.admits sb op)
      (hs : perform sb op s = .ok ((), s')) : Reached s0 s'

end Xv6MallocLab.FileSystem
