import Xv6MallocLab.FallibleState
import Xv6MallocLab.RadixTable

/-!
# Physical pages and user page tables

A page is known by its number and a page table is the tree `walk` descends, every
directory of it with the page that holds it.  The bytes in the pages are left out, and
so what is read from a file or from user memory is an input.
-/

namespace Xv6MallocLab.Paging

abbrev Page := ℕ

def pgsize : ℕ := 4096

def maxva : ℕ := 2 ^ 38

def trampolineVa : ℕ := maxva - pgsize

def trapframeVa : ℕ := trampolineVa - pgsize

def kernbase : Page := 0x80000

def phystop : Page := kernbase + 0x8000

def maxarg : ℕ := 32

def pgRoundDown (a : ℕ) : ℕ := a / pgsize * pgsize

def pgRoundUp (sz : ℕ) : ℕ := pgRoundDown ((sz + pgsize - 1) % 2 ^ 64)

/-- What the linker fixes: the first whole page after `end`, and `trampoline`. -/
structure Image where
  first : Page
  trampoline : Page
  kernbase_le : kernbase ≤ first

structure Perm where
  r : Bool
  w : Bool
  x : Bool
  u : Bool
  deriving DecidableEq, Repr

/-- A valid leaf entry. -/
structure Pte where
  page : Page
  perm : Perm
  deriving DecidableEq, Repr

abbrev Table := Radix 512 Pte 2

inductive Panic
  | kfree | walk | mappagesSize | remap
  | notAligned | unmapWalk | notMapped | notLeaf
  | freewalkLeaf | freewalkData
  | copyPte | copyNotPresent | uvmclear | loadseg
  | initExiting
  deriving DecidableEq, Repr

/-- `kmem`.  The stream `deny` is read by one `kalloc` call after the other: a call
may fail although pages are left. -/
structure Kmem where
  freelist : List Page
  deny : ℕ → Bool

abbrev Mem (α : Type) := Fallible Kmem Panic α

variable (im : Image)

def Image.managed (q : Page) : Prop := im.first ≤ q ∧ q < phystop

instance (q : Page) : Decidable (im.managed q) := inferInstanceAs (Decidable (_ ∧ _))

/-- `kfree` of a page between `end` and `PHYSTOP`. -/
def kfree (pa : Page) : Mem Unit := do
  if pa < im.first ∨ phystop ≤ pa then throw .kfree
  modify fun k => { k with freelist := pa :: k.freelist }

/-- `kalloc`: the first free page, unless the stream denies it. -/
def kalloc : Mem (Option Page) := do
  let k ← get
  let deny := fun i => k.deny (i + 1)
  match k.freelist with
  | r :: next =>
    if k.deny 0 then
      set ({ k with deny } : Kmem)
      return none
    else
      set ({ freelist := next, deny } : Kmem)
      return some r
  | [] =>
    set ({ k with deny } : Kmem)
    return none

def freerange (p : Page) : ℕ → Mem Unit
  | 0 => return
  | n + 1 => do
      kfree im p
      freerange (p + 1) n

/-- `kinit`: free every page between `end` and `PHYSTOP`. -/
def kinit : Mem Unit := freerange im im.first (phystop - im.first)

instance neZero_entries : NeZero 512 := ⟨by decide⟩

def px (level va : ℕ) : Fin 512 := Fin.ofNat 512 (va / 2 ^ (12 + 9 * level))

def walkFrom (alloc : Bool) : (level : ℕ) → Radix 512 Pte level → ℕ →
    Mem (Radix 512 Pte level × Bool)
  | 0, t, _ => return (t, true)
  | level + 1, t, va =>
    match Dir.entry t (px (level + 1) va) with
    | some c => do
        let (c, ok) ← walkFrom alloc level c va
        return (Dir.set t (px (level + 1) va) (some c), ok)
    | none =>
      if alloc then do
        match ← kalloc with
        | none => return (t, false)
        | some p => do
            let (c, ok) ← walkFrom alloc level (Radix.empty p level) va
            return (Dir.set t (px (level + 1) va) (some c), ok)
      else return (t, false)

/-- `walk`: the table with the pages it added, and whether it came to the end. -/
def walk (t : Table) (va : ℕ) (alloc : Bool) : Mem (Table × Bool) :=
  if maxva ≤ va then throw .walk else walkFrom alloc 2 t va

def pte (t : Table) (va : ℕ) : Option Pte := Radix.lookup 2 t (va / pgsize)

/-- A store through the pointer `walk` returns. -/
def setPte (t : Table) (va : ℕ) (e : Option Pte) : Table := Radix.store 2 t (va / pgsize) e

def walkaddr (t : Table) (va : ℕ) : Mem (Option Page) :=
  if maxva ≤ va then return none
  else do
    let (t, ok) ← walk t va false
    if !ok then return none
    else
      match pte t va with
      | none => return none
      | some e => if !e.perm.u then return none else return some e.page

/-- The loop of `mappages`, with `n` pages after this one. -/
def mapLoop (perm : Perm) : ℕ → ℕ → Page → Table → Mem (Table × Bool)
  | n, a, pa, t => do
      let (t, ok) ← walk t a true
      if !ok then return (t, false)
      else if (pte t a).isSome then throw .remap
      else
        let t := setPte t a (some ⟨pa, perm⟩)
        match n with
        | 0 => return (t, true)
        | n + 1 => mapLoop perm n (a + pgsize) (pa + 1) t

/-- `mappages`; the addresses are of type `uint64`. -/
def mappages (t : Table) (va size : ℕ) (pa : Page) (perm : Perm) : Mem (Table × Bool) :=
  if size = 0 then throw .mappagesSize
  else
    let a := pgRoundDown va
    let last := pgRoundDown ((va + size - 1) % 2 ^ 64)
    mapLoop perm ((last + 2 ^ 64 - a) % 2 ^ 64 / pgsize) a pa t

/-- The loop of `uvmunmap`, with `n` pages left from `a` on. -/
def unmapLoop (doFree : Bool) : ℕ → ℕ → Table → Mem Table
  | 0, _, t => return t
  | n + 1, a, t => do
      let (t, ok) ← walk t a false
      if !ok then throw .unmapWalk
      else
        match pte t a with
        | none => throw .notMapped
        | some e =>
          if e.perm = ⟨false, false, false, false⟩ then throw .notLeaf
          else do
            if doFree then kfree im e.page
            unmapLoop doFree n (a + pgsize) (setPte t a none)

def uvmunmap (t : Table) (va npages : ℕ) (doFree : Bool) : Mem Table :=
  if va % pgsize ≠ 0 then throw .notAligned
  else unmapLoop im doFree (((va + npages * pgsize) % 2 ^ 64 - va) / pgsize) va t

def uvmcreate : Mem (Option Table) := do
  match ← kalloc with
  | none => return none
  | some p => return some (Radix.empty p 2)

/-- `uvmfirst`, which looks neither whether `kalloc` nor whether `mappages` failed; the
kernel comes no further when it writes to the null page. -/
def uvmfirst (t : Table) : Mem (Option Table) := do
  match ← kalloc with
  | none => return none
  | some mem => do
      let (t, _) ← mappages t 0 pgsize mem ⟨true, true, true, true⟩
      return some t

/-- The value of an `int` assigned `n`, passed on as a `uint64`. -/
def asInt (n : ℕ) : ℕ := ((BitVec.ofNat 32 n).signExtend 64).toNat

/-- `uvmdealloc`: the table without the pages above, and the new size. -/
def uvmdealloc (t : Table) (oldsz newsz : ℕ) : Mem (Table × ℕ) :=
  if oldsz ≤ newsz then return (t, oldsz)
  else do
    if pgRoundUp newsz < pgRoundUp oldsz then
      let npages := asInt ((pgRoundUp oldsz - pgRoundUp newsz) / pgsize)
      let t ← uvmunmap im t (pgRoundUp newsz) npages true
      return (t, newsz)
    else return (t, newsz)

/-- The loop of `uvmalloc`, with `n` pages left from `a` on.  `walk` stops it at
`MAXVA`, long before `a` could wrap. -/
def allocLoop (oldsz : ℕ) (perm : Perm) : ℕ → ℕ → Table → Mem (Table × Bool)
  | 0, _, t => return (t, true)
  | n + 1, a, t => do
      match ← kalloc with
      | none => do
          let (t, _) ← uvmdealloc im t a oldsz
          return (t, false)
      | some mem => do
          let (t, ok) ← mappages t a pgsize mem perm
          if ok then allocLoop oldsz perm n (a + pgsize) t
          else do
            kfree im mem
            let (t, _) ← uvmdealloc im t a oldsz
            return (t, false)

/-- `uvmalloc`; size 0 tells that it failed. -/
def uvmalloc (t : Table) (oldsz newsz : ℕ) (xperm : Perm) : Mem (Table × ℕ) :=
  if newsz < oldsz then return (t, oldsz)
  else do
    let oldsz := pgRoundUp oldsz
    let (t, ok) ← allocLoop im oldsz { xperm with r := true, u := true }
      ((newsz - oldsz + pgsize - 1) / pgsize) oldsz t
    return (t, if ok then newsz else 0)

/-- `freewalk`.  An entry of a lowest page without permissions would be taken for a
page-table page. -/
def freewalk : (level : ℕ) → Radix 512 Pte level → Mem Unit
  | 0, t => do
      (List.finRange 512).forM fun i =>
        match Dir.entry t i with
        | none => return
        | some e => if e.perm.r || e.perm.w || e.perm.x then throw .freewalkLeaf
            else throw .freewalkData
      kfree im (Dir.page t)
  | level + 1, t => do
      (List.finRange 512).forM fun i =>
        match Dir.entry t i with
        | none => return
        | some c => freewalk level c
      kfree im (Dir.page t)

/-- `uvmfree`: the user's pages, then those of the table. -/
def uvmfree (t : Table) (sz : ℕ) : Mem Unit := do
  if 0 < sz then
    let t ← uvmunmap im t 0 (pgRoundUp sz / pgsize) true
    freewalk im 2 t
  else freewalk im 2 t

/-- The loop of `uvmcopy`, with `n` pages left from `i` on. -/
def copyLoop (old : Table) : ℕ → ℕ → Table → Mem (Table × Bool)
  | 0, _, new => return (new, true)
  | n + 1, i, new => do
      let (old', ok) ← walk old i false
      if !ok then throw .copyPte
      else
        match pte old' i with
        | none => throw .copyNotPresent
        | some e => do
            match ← kalloc with
            | none => do
                let new ← uvmunmap im new 0 (i / pgsize) true
                return (new, false)
            | some mem => do
                let (new, ok) ← mappages new i pgsize mem e.perm
                if ok then copyLoop old n (i + pgsize) new
                else do
                  kfree im mem
                  let new ← uvmunmap im new 0 (i / pgsize) true
                  return (new, false)

/-- `uvmcopy`; on failure the pages copied so far are freed again. -/
def uvmcopy (old new : Table) (sz : ℕ) : Mem (Table × Bool) :=
  copyLoop im old ((sz + pgsize - 1) / pgsize) 0 new

def Pte.clearU (e : Pte) : Pte := ⟨e.page, ⟨e.perm.r, e.perm.w, e.perm.x, false⟩⟩

/-- `uvmclear`: the page at `va` is no longer for the user. -/
def uvmclear (t : Table) (va : ℕ) : Mem Table := do
  let (t, ok) ← walk t va false
  if !ok then throw .uvmclear
  else return setPte t va ((pte t va).map Pte.clearU)

/-- `copyout` without the bytes: whether every page is the user's. -/
def copyout (t : Table) (dstva len : ℕ) : Mem Bool :=
  if _h : len = 0 then return true
  else do
    match ← walkaddr t (pgRoundDown dstva) with
    | none => return false
    | some _ =>
      copyout t (pgRoundDown dstva + pgsize)
        (len - min (pgsize - (dstva - pgRoundDown dstva)) len)
termination_by len
decreasing_by
  have hdown : dstva - pgRoundDown dstva < pgsize := by
    simp only [pgRoundDown, pgsize]
    omega
  omega

/-- `proc_pagetable`; what was mapped is undone on failure. -/
def procPagetable (tf : Page) : Mem (Option Table) := do
  match ← uvmcreate with
  | none => return none
  | some t => do
      let (t, ok) ← mappages t trampolineVa pgsize im.trampoline ⟨true, false, true, false⟩
      if !ok then do
        uvmfree im t 0
        return none
      else do
        let (t, ok) ← mappages t trapframeVa pgsize tf ⟨true, true, false, false⟩
        if !ok then do
          let t ← uvmunmap im t trampolineVa 1 false
          uvmfree im t 0
          return none
        else return some t

/-- `proc_freepagetable`, which frees neither trampoline nor trapframe. -/
def procFreepagetable (t : Table) (sz : ℕ) : Mem Unit := do
  let t ← uvmunmap im t trampolineVa 1 false
  let t ← uvmunmap im t trapframeVa 1 false
  uvmfree im t sz

/-- The fields of `struct elfhdr` that `exec` reads. -/
structure Elfhdr where
  magic : UInt32
  phoff : UInt64
  phnum : UInt16

/-- The fields of `struct proghdr` that `exec` reads. -/
structure Proghdr where
  type : UInt32
  flags : UInt32
  off : UInt64
  vaddr : UInt64
  filesz : UInt64
  memsz : UInt64

def elfMagic : UInt32 := 0x464C457F

def elfProgLoad : UInt32 := 1

/-- What `readi` makes of the file: the header, the program header at an offset,
and whether `n` bytes at an offset can be read. -/
structure ExecFile where
  elf : Option Elfhdr
  proghdr : ℕ → Option Proghdr
  read : ℕ → ℕ → Bool

def flags2perm (flags : UInt32) : Perm :=
  { r := false, w := flags &&& 2 != 0, x := flags &&& 1 != 0, u := false }

def segLoop (t : Table) (va : ℕ) (file : ExecFile) (offset sz : ℕ) : ℕ → ℕ → Mem Bool
  | 0, _ => return true
  | n + 1, i => do
      match ← walkaddr t ((va + i) % 2 ^ 64) with
      | none => throw .loadseg
      | some _ =>
        if file.read ((offset + i) % 2 ^ 32) (min (sz - i) pgsize) then
          segLoop t va file offset sz n (i + pgsize)
        else return false

/-- `loadseg`; `offset` and `sz` are of type `uint`. -/
def loadseg (t : Table) (va : ℕ) (file : ExecFile) (offset sz : ℕ) : Mem Bool :=
  segLoop t va file (offset % 2 ^ 32) (sz % 2 ^ 32) ((sz % 2 ^ 32 + pgsize - 1) / pgsize) 0

def proghdrSize : ℕ := 56

/-- The loop of `exec` over the program headers, with `n` left from offset `off`
on.  The answer is whether it came to the end. -/
def execLoop (file : ExecFile) : ℕ → ℕ → Table → ℕ → Mem (Table × ℕ × Bool)
  | 0, _, t, sz => return (t, sz, true)
  | n + 1, off, t, sz =>
    match file.proghdr off with
    | none => return (t, sz, false)
    | some ph =>
      if ph.type ≠ elfProgLoad then execLoop file n ((off + proghdrSize) % 2 ^ 32) t sz
      else if ph.memsz < ph.filesz then return (t, sz, false)
      else if ph.vaddr + ph.memsz < ph.vaddr then return (t, sz, false)
      else if ph.vaddr.toNat % pgsize ≠ 0 then return (t, sz, false)
      else do
        let (t, sz1) ← uvmalloc im t sz (ph.vaddr + ph.memsz).toNat (flags2perm ph.flags)
        if sz1 = 0 then return (t, sz, false)
        else do
          if ← loadseg t ph.vaddr.toNat file ph.off.toNat ph.filesz.toNat then
            execLoop file n ((off + proghdrSize) % 2 ^ 32) t sz1
          else return (t, sz1, false)

def pushDown (sp n : ℕ) : ℕ :=
  let sp := (sp + 2 ^ 64 - n) % 2 ^ 64
  sp - sp % 16

/-- The loop of `exec` that pushes the argument strings, whose lengths are given. -/
def pushArgs (t : Table) (stackbase : ℕ) : List ℕ → ℕ → ℕ → Mem (Option (ℕ × ℕ))
  | [], argc, sp => return some (argc, sp)
  | len :: rest, argc, sp =>
    if maxarg ≤ argc then return none
    else if pushDown sp (len + 1) < stackbase then return none
    else do
      if ← copyout t (pushDown sp (len + 1)) (len + 1) then
        pushArgs t stackbase rest (argc + 1) (pushDown sp (len + 1))
      else return none

def pushStack (t : Table) (sz : ℕ) (argv : List ℕ) : Mem Bool := do
  match ← pushArgs t (sz - pgsize) argv 0 sz with
  | none => return false
  | some (argc, sp) =>
    if pushDown sp ((argc + 1) * 8) < sz - pgsize then return false
    else copyout t (pushDown sp ((argc + 1) * 8)) ((argc + 1) * 8)

/-- `exec`, from the old image to the new one.  Every `goto bad` frees the new
table at its size so far. -/
def exec (tf : Page) (old : Table) (oldsz : ℕ) (file : Option ExecFile) (argv : List ℕ) :
    Mem (Option (Table × ℕ)) :=
  match file with
  | none => return none
  | some file =>
    match file.elf with
    | none => return none
    | some elf =>
      if elf.magic ≠ elfMagic then return none
      else do
        match ← procPagetable im tf with
        | none => return none
        | some t => do
            let (t, sz, ok) ← execLoop im file elf.phnum.toNat (elf.phoff.toNat % 2 ^ 32) t 0
            if !ok then do
              procFreepagetable im t sz
              return none
            else do
              let sz := pgRoundUp sz
              let (t, sz1) ← uvmalloc im t sz ((sz + 2 * pgsize) % 2 ^ 64)
                ⟨false, true, false, false⟩
              if sz1 = 0 then do
                procFreepagetable im t sz
                return none
              else do
                let t ← uvmclear t (sz1 - 2 * pgsize)
                if ← pushStack t sz1 argv then do
                  procFreepagetable im old oldsz
                  return some (t, sz1)
                else do
                  procFreepagetable im t sz1
                  return none

/-- What `sys_exec` finds in one place of the user's `argv`: `fetchaddr` fails, the
null pointer, or a string, whose length is missing when `fetchstr` fails. -/
inductive Uarg
  | bad
  | null
  | string (len : Option ℕ)

/-- The loop of `sys_exec` from entry `i` on, with `n` entries of `argv` left: whether
it came to the null pointer, the pages taken, and the lengths of the strings. -/
def fetchArgs (uargv : ℕ → Uarg) : ℕ → ℕ → Mem (Bool × List Page × List ℕ)
  | 0, _ => return (false, [], [])
  | n + 1, i =>
    match uargv i with
    | .bad => return (false, [], [])
    | .null => return (true, [], [])
    | .string len => do
        match ← kalloc, len with
        | none, _ => return (false, [], [])
        | some p, none => return (false, [p], [])
        | some p, some len => do
            let (ok, pages, lens) ← fetchArgs uargv n (i + 1)
            return (ok, p :: pages, len :: lens)

/-- `sys_exec`; the pages of the strings are freed on every path. -/
def sysExec (tf : Page) (old : Table) (oldsz : ℕ) (file : Option ExecFile) (uargv : ℕ → Uarg) :
    Mem (Option (Table × ℕ)) := do
  let (ok, pages, lens) ← fetchArgs uargv maxarg 0
  if ok then do
    let ret ← exec im tf old oldsz file lens
    pages.forM (kfree im)
    return ret
  else do
    pages.forM (kfree im)
    return none

end Xv6MallocLab.Paging
