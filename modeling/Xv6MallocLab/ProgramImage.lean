import Xv6MallocLab.PhysicalMemory

/-!
# exec

The file is any sequence of bytes and every `readi` may stop short.  Up to the commit
everything that is stored goes to pages of the new table, and wherever the call gives up
the size says what the new table maps.
-/

namespace Xv6MallocLab.PhysicalMemory

open ByteMemory Paging

structure File where
  size : ℕ
  data : Memory

/-- What a system call holds of the file system: transactions, inode locks, references. -/
structure Duties where
  outstanding : ℕ
  locks : ℕ
  refs : ℕ

/-- The state of a system call.  The stream `short` bounds what one `readi` call after
the other delivers. -/
structure World where
  ram : Ram
  duties : Duties
  short : ℕ → ℕ

abbrev ExecM (α : Type) := Fallible World Panic α

def onRam {α : Type} (m : RamM α) : ExecM α :=
  Fallible.zoom World.ram (fun w r => { w with ram := r }) m

/-- The registers that `exec` sets. -/
structure Trapframe where
  epc : ℕ
  sp : ℕ
  a1 : ℕ

/-- The fields of `struct proc` that a program image is made of, and those that `exec`
must leave alone. -/
structure Process where
  mem : Proc
  trapframe : Trapframe
  name : List UInt8
  cwd : ℕ
  ofile : ℕ → Option ℕ

def beginOp : ExecM Unit := modify fun w => { w with duties.outstanding := w.duties.outstanding + 1 }

def endOp : ExecM Unit := modify fun w => { w with duties.outstanding := w.duties.outstanding - 1 }

def iget : ExecM Unit := modify fun w => { w with duties.refs := w.duties.refs + 1 }

def ilock : ExecM Unit := modify fun w => { w with duties.locks := w.duties.locks + 1 }

def iunlockput : ExecM Unit := modify fun w =>
  { w with duties.locks := w.duties.locks - 1, duties.refs := w.duties.refs - 1 }

def readi (ip : File) (off n : ℕ) : ExecM ℕ := do
  let w ← get
  set { w with short := fun i => w.short (i + 1) }
  if ip.size < off ∨ (off + n) % 2 ^ 32 < off then return 0
  else return min (if ip.size < off + n then ip.size - off else n) (w.short 0)

def elfhdrSize : ℕ := 64

def File.elfhdr (ip : File) : Elfhdr where
  magic := .ofNat (load 4 ip.data 0)
  phoff := .ofNat (load 8 ip.data 32)
  phnum := .ofNat (load 2 ip.data 56)

def File.entry (ip : File) : ℕ := load 8 ip.data 24

def File.proghdr (ip : File) (off : ℕ) : Proghdr where
  type := .ofNat (load 4 ip.data off)
  flags := .ofNat (load 4 ip.data (off + 4))
  off := .ofNat (load 8 ip.data (off + 8))
  vaddr := .ofNat (load 8 ip.data (off + 16))
  filesz := .ofNat (load 8 ip.data (off + 32))
  memsz := .ofNat (load 8 ip.data (off + 40))

def segLoop (t : Table) (va : ℕ) (ip : File) (offset sz : ℕ) : ℕ → ℕ → ExecM Bool
  | 0, _ => return true
  | n + 1, i => do
      match ← onRam (onPages (walkaddr t ((va + i) % 2 ^ 64))) with
      | none => throw .loadseg
      | some pa => do
          let off := (offset + i) % 2 ^ 32
          let tot ← readi ip off (min (sz - i) pgsize)
          onRam (store fun phys => memmove phys (pa * pgsize) (fun j => ip.data (off + j)) tot)
          if tot = min (sz - i) pgsize then segLoop t va ip offset sz n (i + pgsize)
          else return false

/-- `loadseg`, with the bytes that `readi` delivers. -/
def loadseg (t : Table) (va : ℕ) (ip : File) (offset sz : ℕ) : ExecM Bool :=
  segLoop t va ip (offset % 2 ^ 32) (sz % 2 ^ 32) ((sz % 2 ^ 32 + pgsize - 1) / pgsize) 0

/-- A `goto bad`: the half-built table, its size, and whether `ip` is still locked. -/
structure Bad where
  pagetable : Option Table
  sz : ℕ
  ip : Bool

structure Loaded where
  pagetable : Table
  sz : ℕ
  entry : ℕ

section Source

variable (im : Image)

def execLoop (ip : File) : ℕ → ℕ → Table → ℕ → ExecM (Table × ℕ × Bool)
  | 0, _, t, sz => return (t, sz, true)
  | n + 1, off, t, sz => do
      let tot ← readi ip off proghdrSize
      if tot ≠ proghdrSize then return (t, sz, false)
      else
        let ph := ip.proghdr off
        if ph.type ≠ elfProgLoad then execLoop ip n ((off + proghdrSize) % 2 ^ 32) t sz
        else if ph.memsz < ph.filesz then return (t, sz, false)
        else if ph.vaddr + ph.memsz < ph.vaddr then return (t, sz, false)
        else if ph.vaddr.toNat % pgsize ≠ 0 then return (t, sz, false)
        else do
          let (t, sz1) ← onRam (uvmalloc im t sz (ph.vaddr + ph.memsz).toNat (flags2perm ph.flags))
          if sz1 = 0 then return (t, sz, false)
          else do
            if ← loadseg t ph.vaddr.toNat ip ph.off.toNat ph.filesz.toNat then
              execLoop ip n ((off + proghdrSize) % 2 ^ 32) t sz1
            else return (t, sz1, false)

/-- `exec` from `begin_op` to `uvmclear`; `ip` is what `namei` finds. -/
def image (p : Process) (ip : Option File) : ExecM (Except Bad Loaded) := do
  beginOp
  match ip with
  | none => do
      endOp
      return .error ⟨none, 0, false⟩
  | some ip => do
      iget
      ilock
      let tot ← readi ip 0 elfhdrSize
      if tot ≠ elfhdrSize then return .error ⟨none, 0, true⟩
      else if ip.elfhdr.magic ≠ elfMagic then return .error ⟨none, 0, true⟩
      else
        match ← onRam (onPages (procPagetable im p.mem.trapframe)) with
        | none => return .error ⟨none, 0, true⟩
        | some t => do
            let (t, sz, ok) ← execLoop im ip ip.elfhdr.phnum.toNat (ip.elfhdr.phoff.toNat % 2 ^ 32) t 0
            if !ok then return .error ⟨some t, sz, true⟩
            else do
              iunlockput
              endOp
              let sz := pgRoundUp sz
              let (t, sz1) ← onRam (uvmalloc im t sz ((sz + 2 * pgsize) % 2 ^ 64)
                ⟨false, true, false, false⟩)
              if sz1 = 0 then return .error ⟨some t, sz, false⟩
              else do
                let t ← onRam (onPages (uvmclear t (sz1 - 2 * pgsize)))
                return .ok ⟨t, sz1, ip.entry⟩

def copyout (t : Table) (dstva : ℕ) (src : Memory) (len : ℕ) : RamM Bool := do
  let r ← get
  let (phys, ok) := copyoutTo t dstva src len r.phys
  set { r with phys }
  return ok

def cstring (s : List UInt8) : Memory := fun j => (s ++ [0]).getD j 0

def wordBytes (ws : List ℕ) : Memory := fun j => .ofNat (ws.getD (j / 8) 0 / 256 ^ (j % 8))

def pushArgs (t : Table) (stackbase : ℕ) : List (List UInt8) → ℕ → List ℕ →
    RamM (Option (ℕ × List ℕ))
  | [], sp, ustack => return some (sp, ustack)
  | s :: rest, sp, ustack => do
      if maxarg ≤ ustack.length then return none
      else
        let sp := pushDown sp (s.length + 1)
        if sp < stackbase then return none
        else do
          if ← copyout t sp (cstring s) (s.length + 1) then
            pushArgs t stackbase rest sp (ustack ++ [sp])
          else return none

def pushStack (t : Table) (sz : ℕ) (argv : List (List UInt8)) : RamM (Option (ℕ × ℕ)) := do
  let stackbase := sz - pgsize
  match ← pushArgs t stackbase argv sz [] with
  | none => return none
  | some (sp, ustack) =>
    let argc := ustack.length
    let sp := pushDown sp ((argc + 1) * 8)
    if sp < stackbase then return none
    else do
      if ← copyout t sp (wordBytes (ustack ++ [0])) ((argc + 1) * 8) then return some (argc, sp)
      else return none

def build (p : Process) (ip : Option File) (argv : List (List UInt8)) :
    ExecM (Except Bad (Loaded × ℕ × ℕ)) := do
  match ← image im p ip with
  | .error b => return .error b
  | .ok l =>
    match ← onRam (pushStack l.pagetable l.sz argv) with
    | none => return .error ⟨some l.pagetable, l.sz, false⟩
    | some (argc, sp) => return .ok (l, argc, sp)

def bad (p : Process) (b : Bad) : ExecM (Process × ℤ) := do
  match b.pagetable with
  | none => pure ()
  | some t => onRam (onPages (procFreepagetable im t b.sz))
  if b.ip then do
    iunlockput
    endOp
  return (p, -1)

def lastElem (path : List UInt8) : List UInt8 := (path.reverse.takeWhile (· ≠ 47)).reverse

/-- The commit of `exec`; `p->name` has room for 15 characters. -/
def commit (p : Process) (l : Loaded) (path : List UInt8) (argc sp : ℕ) : ExecM (Process × ℤ) := do
  let old := p.mem
  let p := { p with
    mem := { p.mem with pagetable := l.pagetable, sz := l.sz }
    trapframe := ⟨l.entry, sp, sp⟩
    name := (lastElem path).take 15 }
  onRam (onPages (procFreepagetable im old.pagetable old.sz))
  return (p, argc)

/-- `exec`: the process with its new image, or with the old one and -1. -/
def exec (p : Process) (ip : Option File) (path : List UInt8) (argv : List (List UInt8)) :
    ExecM (Process × ℤ) := do
  match ← build im p ip argv with
  | .error b => bad im p b
  | .ok (l, argc, sp) => commit im p l path argc sp

end Source

variable {im : Image} {α : Type} {T : Page → ℕ} {t : Table} {n : ℕ} {top : ℕ → Option Pte}
  {w w' w'' : World} {r : Ram}

/-- The pages counted by `T` have their bytes, and nothing of the file system was taken
or given back. -/
structure World.Steady (T : Page → ℕ) (w w' : World) : Prop where
  keeps : w.ram.Keeps T w'.ram
  duties : w'.duties = w.duties

theorem World.Steady.refl (T : Page → ℕ) (w : World) : w.Steady T w := ⟨Ram.Keeps.refl T w.ram, rfl⟩

theorem World.Steady.trans (h : w.Steady T w') (h' : w'.Steady T w'') : w.Steady T w'' :=
  ⟨h.keeps.trans h'.keeps, h'.duties.trans h.duties⟩

theorem onRam_runs {m : RamM α} {Q : α → Ram → Prop} (h : Runs m w.ram Q) :
    Runs (onRam m) w fun a w' => Q a w'.ram ∧ w'.duties = w.duties :=
  Runs.zoom h fun _ _ hr => ⟨hr, rfl⟩

theorem store_runs (f : Memory → Memory) (r : Ram) :
    Runs (store f) r fun _ r' => r' = { r with phys := f r.phys } := ⟨(), _, rfl, rfl⟩

theorem readi_runs (ip : File) (off n : ℕ) (w : World) :
    Runs (readi ip off n) w fun tot w' =>
      tot ≤ n ∧ w'.ram = w.ram ∧ w'.duties = w.duties := by
  refine runs_get_bind (runs_set_bind ?_)
  split
  · exact .pure ⟨Nat.zero_le n, rfl, rfl⟩
  · refine .pure ⟨(min_le_left _ _).trans ?_, rfl, rfl⟩
    split
    · omega
    · exact le_rfl

theorem user_page_unused {k : Kmem} {c : ℕ → Option Pte} {i : ℕ} {e : Pte} {X : Page → ℕ}
    (h : Balanced im k (T + X)) (hX : mapped c (Finset.range n) ≤ X) (hi : i < n)
    (he : c i = some e) : T e.page = 0 := by
  have hone := h.le_one e.page
  have hpos := single_le_mapped (Finset.mem_range.2 hi) he
  have hle : mapped c (Finset.range n) e.page ≤ X e.page := hX e.page
  simp only [Pi.add_apply] at hone
  omega

theorem segLoop_runs (hlow : Low true (contents t) n top) (j : ℕ) (ip : File) (offset sz : ℕ)
    (p i : ℕ) (hp : j + i + p ≤ n) {w : World} (h : Balanced im w.ram.kmem (T + held t n)) :
    Runs (segLoop t (j * pgsize) ip offset sz p (i * pgsize)) w fun _ w' =>
      Balanced im w'.ram.kmem (T + held t n) ∧ w.Steady T w' := by
  have hn := hlow.held_le h
  induction p generalizing i w with
  | zero => exact .pure ⟨h, .refl T w⟩
  | succ p ih =>
    obtain ⟨e, he, -, hu⟩ := hlow.user (j + i) (by omega)
    have hva : (j * pgsize + i * pgsize) % 2 ^ 64 = (j + i) * pgsize := by
      simp only [pgsize]
      omega
    have hwithin : Within im T (T + held t n) := .of_le (le_add_of_nonneg_right zero_le)
    rw [segLoop, hva]
    refine .bind (onRam_runs (onPages_runs h hwithin (walkaddr_user (by omega) he (hu rfl)
      w.ram.kmem) ?_)) ?_
    · rintro _ k ⟨rfl, -⟩
      exact ⟨_, h, hwithin⟩
    rintro _ w1 ⟨⟨⟨hk1, rfl⟩, hkeep1⟩, hduties1⟩
    dsimp only
    refine .bind (readi_runs ip _ _ w1) ?_
    rintro tot w2 ⟨htot, hram2, hduties2⟩
    have hbal2 : Balanced im w2.ram.kmem (T + held t n) := by
      rw [hram2, hk1]
      exact h
    have hunused := user_page_unused hbal2 (mapped_le_held t n) (show j + i < n by omega) he
    have hlen : 0 + tot ≤ pgsize := by omega
    have hkeep3 := Ram.Keeps.memmove (r := w2.ram) hunused hlen fun d =>
      ip.data ((offset + i * pgsize) % 2 ^ 32 + d)
    rw [Nat.add_zero] at hkeep3
    refine .bind (onRam_runs (store_runs _ w2.ram)) ?_
    rintro _ w3 ⟨hram3, hduties3⟩
    have hbal3 : Balanced im w3.ram.kmem (T + held t n) := by
      rw [hram3]
      exact hbal2
    have hsteady : w.Steady T w3 := by
      refine ⟨?_, hduties3.trans (hduties2.trans hduties1)⟩
      rw [hram3]
      exact (hram2 ▸ hkeep1).trans hkeep3
    split
    · rw [← Nat.succ_mul]
      exact (ih (i + 1) (by omega) hbal3).mono fun _ w' h' => ⟨h'.1, hsteady.trans h'.2⟩
    · exact .pure ⟨hbal3, hsteady⟩

theorem loadseg_runs (hlow : Low true (contents t) n top) {va filesz : ℕ} (hva : va % pgsize = 0)
    (hend : va + filesz ≤ n * pgsize) (ip : File) (offset : ℕ)
    (h : Balanced im w.ram.kmem (T + held t n)) :
    Runs (loadseg t va ip offset filesz) w fun _ w' =>
      Balanced im w'.ram.kmem (T + held t n) ∧ w.Steady T w' := by
  obtain ⟨j, rfl, hp⟩ := exists_segment_pages hva hend
  have hloop := segLoop_runs hlow j ip (offset % 2 ^ 32) (filesz % 2 ^ 32) _ 0 hp h
  rwa [Nat.zero_mul] at hloop

theorem execLoop_runs (ip : File) (hroof : Roof top) (p off : ℕ) (t : Table) (sz : ℕ) {w : World}
    (hlow : Low true (contents t) (npages sz) top)
    (h : Balanced im w.ram.kmem (T + held t (npages sz))) :
    Runs (execLoop im ip p off t sz) w fun x w' =>
      Low true (contents x.1) (npages x.2.1) top ∧
        Balanced im w'.ram.kmem (T + held x.1 (npages x.2.1)) ∧ w.Steady T w' := by
  induction p generalizing off t sz w with
  | zero => exact .pure ⟨hlow, h, .refl T w⟩
  | succ p ih =>
    rw [execLoop]
    refine .bind (readi_runs ip off proghdrSize w) ?_
    rintro tot w1 ⟨-, hram1, hduties1⟩
    have hbal : Balanced im w1.ram.kmem (T + held t (npages sz)) := hram1 ▸ h
    have hsteady : w.Steady T w1 := ⟨hram1 ▸ Ram.Keeps.refl T w.ram, hduties1⟩
    dsimp only
    split
    · exact .pure ⟨hlow, hbal, hsteady⟩
    split
    · exact (ih _ t sz hlow hbal).mono fun x w' h' => ⟨h'.1, h'.2.1, hsteady.trans h'.2.2⟩
    split
    · exact .pure ⟨hlow, hbal, hsteady⟩
    split
    · exact .pure ⟨hlow, hbal, hsteady⟩
    split
    · exact .pure ⟨hlow, hbal, hsteady⟩
    rename_i hmem hwrap halign
    generalize ip.proghdr off = ph at *
    refine .bind (onRam_runs (uvmalloc_runs (flags2perm ph.flags) hroof hlow hbal)) ?_
    rintro ⟨t1, sz₁⟩ w2 ⟨⟨hsz, -, hlow1, hbal1, hkeep, -⟩, hduties2⟩
    dsimp only at hsz hlow1 hbal1 ⊢
    have hsteady2 : w.Steady T w2 := hsteady.trans
      ⟨hkeep.mono (le_add_of_nonneg_right zero_le), hduties2⟩
    by_cases hzero : sz₁ = 0
    · rw [if_pos hzero] at hlow1 hbal1 ⊢
      exact .pure ⟨hlow1, hbal1, hsteady2⟩
    · rw [if_neg hzero] at hlow1 hbal1 ⊢
      have hend := segment_end_le hmem hwrap (hsz.resolve_left hzero)
      refine .bind (loadseg_runs hlow1 (not_not.1 halign) hend ip ph.off.toNat hbal1) ?_
      rintro ok w3 ⟨hbal2, hsteady3⟩
      have hsteady' := hsteady2.trans hsteady3
      cases ok with
      | false => exact .pure ⟨hlow1, hbal2, hsteady'⟩
      | true =>
        exact (ih _ t1 sz₁ hlow1 hbal2).mono fun x w' h' => ⟨h'.1, h'.2.1, hsteady'.trans h'.2.2⟩

def Duties.opened (d : Duties) : Duties := ⟨d.outstanding + 1, d.locks + 1, d.refs + 1⟩

/-- The size of a half-built table is the size of the user space that it maps, and beside
that user space and its directories nothing was taken. -/
def Bad.Matches (im : Image) (T : Page → ℕ) (tf : Page) (b : Bad) (k : Kmem) : Prop :=
  match b.pagetable with
  | none => Balanced im k T
  | some t => Low false (contents t) (npages b.sz) (fixedTop im tf) ∧
      Balanced im k (T + held t (npages b.sz))

structure Loaded.Ready (im : Image) (T : Page → ℕ) (tf : Page) (l : Loaded) (k : Kmem) : Prop where
  low : Low false (contents l.pagetable) (npages l.sz) (fixedTop im tf)
  balanced : Balanced im k (T + held l.pagetable (npages l.sz))
  stack : ∃ m e, l.sz = (m + 2) * pgsize ∧ contents l.pagetable (m + 1) = some e ∧ e.perm.u = true

def Imaged (im : Image) (T : Page → ℕ) (tf : Page) (w : World) (x : Except Bad Loaded) (w' : World) :
    Prop :=
  w.ram.Keeps T w'.ram ∧
    match x with
    | .error b => w'.duties = (if b.ip then w.duties.opened else w.duties) ∧
        b.Matches im T tf w'.ram.kmem
    | .ok l => w'.duties = w.duties ∧ l.Ready im T tf w'.ram.kmem

variable {p : Process}

theorem Imaged.start {tf : Page} {x : Except Bad Loaded} (h : Imaged im T tf w' x w'')
    (hkeep : w.ram.Keeps T w'.ram) (hduties : w'.duties = w.duties) : Imaged im T tf w x w'' := by
  refine ⟨hkeep.trans h.1, ?_⟩
  rw [← hduties]
  exact h.2

theorem stack_runs {tf : Page} {m : ℕ} (hlow : Low true (contents t) m (fixedTop im tf))
    (h : Balanced im r.kmem (T + held t m)) :
    Runs (uvmalloc im t (m * pgsize) ((m * pgsize + 2 * pgsize) % 2 ^ 64) ⟨false, true, false, false⟩)
      r fun x r' => r.Keeps T r' ∧
        if x.2 = 0 then
          Low false (contents x.1) m (fixedTop im tf) ∧ Balanced im r'.kmem (T + held x.1 m)
        else x.2 = (m + 2) * pgsize ∧ Low true (contents x.1) (m + 2) (fixedTop im tf) ∧
          Balanced im r'.kmem (T + held x.1 (m + 2)) := by
  have hm := hlow.held_le h
  have hnew : (m * pgsize + 2 * pgsize) % 2 ^ 64 = (m + 2) * pgsize := by
    simp only [pgsize]
    omega
  have hlow' : Low true (contents t) (npages (m * pgsize)) (fixedTop im tf) := by rwa [npages_mul]
  have hbal : Balanced im r.kmem (T + held t (npages (m * pgsize))) := by rwa [npages_mul]
  rw [hnew]
  refine (uvmalloc_runs ⟨false, true, false, false⟩ roof_fixedTop hlow' hbal).mono ?_
  rintro ⟨t', sz⟩ r' ⟨hsz, -, hlow1, hbal1, hkeep, -⟩
  refine ⟨hkeep.mono (le_add_of_nonneg_right zero_le), ?_⟩
  dsimp only at hsz hlow1 hbal1 ⊢
  by_cases hzero : sz = 0
  · rw [if_pos hzero, npages_mul] at hlow1 hbal1
    rw [if_pos hzero]
    exact ⟨hlow1.weaken, hbal1⟩
  · have hsz' : sz = (m + 2) * pgsize := by
      rw [hsz.resolve_left hzero]
      exact max_eq_right (Nat.mul_le_mul_right _ (by omega))
    rw [if_neg hzero, hsz', npages_mul] at hlow1 hbal1
    rw [if_neg hzero]
    exact ⟨hsz', hlow1, hbal1⟩

theorem guard_runs {tf : Page} {m entry : ℕ} (hlow : Low true (contents t) m (fixedTop im tf))
    (h : Balanced im w.ram.kmem (T + held t m)) :
    Runs (do
      let (t, sz1) ← onRam (uvmalloc im t (m * pgsize) ((m * pgsize + 2 * pgsize) % 2 ^ 64)
        ⟨false, true, false, false⟩)
      if sz1 = 0 then return .error ⟨some t, m * pgsize, false⟩
      else do
        let t ← onRam (onPages (uvmclear t (sz1 - 2 * pgsize)))
        return .ok ⟨t, sz1, entry⟩ : ExecM (Except Bad Loaded)) w (Imaged im T tf w) := by
  refine .bind (onRam_runs (stack_runs hlow h)) ?_
  rintro ⟨t1, sz⟩ w1 ⟨⟨hkeep1, hstep⟩, hduties1⟩
  dsimp only at hstep ⊢
  by_cases hzero : sz = 0
  · rw [if_pos hzero] at hstep ⊢
    refine .pure ⟨hkeep1, hduties1, ?_⟩
    rw [Bad.Matches]
    dsimp only
    rwa [npages_mul]
  · rw [if_neg hzero] at hstep ⊢
    obtain ⟨hsz, hlow1, hbal1⟩ := hstep
    have hguard : sz - 2 * pgsize = m * pgsize := by rw [hsz, Nat.add_mul, Nat.add_sub_cancel]
    obtain ⟨e, he, -, hu⟩ := hlow1.user (m + 1) (by omega)
    rw [hguard]
    refine .bind (onRam_runs (onPages_runs (K := T) hbal1 (.of_le (le_add_of_nonneg_right zero_le))
      (uvmclear_runs (show m < m + 2 by omega) hlow1 hbal1) fun t' k hk =>
        ⟨_, hk.2.2.2, .of_le (le_add_of_nonneg_right zero_le)⟩)) ?_
    rintro t2 w2 ⟨⟨⟨hlow2, hsame, -, hbal2⟩, hkeep2⟩, hduties2⟩
    refine .pure ⟨hkeep1.trans hkeep2, hduties2.trans hduties1, ?_, ?_, m, e, hsz, ?_, hu rfl⟩
    · rw [hsz, npages_mul]
      exact hlow2
    · rw [hsz, npages_mul]
      exact hbal2
    · exact (hsame (m + 1) (by omega)).trans he

theorem image_runs (p : Process) (ip : Option File) (h : Balanced im w.ram.kmem T) :
    Runs (image im p ip) w (Imaged im T p.mem.trapframe w) := by
  unfold image
  refine runs_modify_bind ?_
  cases ip with
  | none => exact .pure ⟨Ram.Keeps.refl T w.ram, rfl, h⟩
  | some ip =>
    refine runs_modify_bind (runs_modify_bind ?_)
    refine .bind (readi_runs ip 0 elfhdrSize _) ?_
    rintro tot w1 ⟨-, hram1, hduties1⟩
    have hram1 : w1.ram = w.ram := hram1
    have hduties1 : w1.duties = w.duties.opened := hduties1
    have hkeep1 : w.ram.Keeps T w1.ram := hram1 ▸ Ram.Keeps.refl T w.ram
    have hbal1 : Balanced im w1.ram.kmem T := hram1 ▸ h
    split
    · exact .pure ⟨hkeep1, hduties1, hbal1⟩
    split
    · exact .pure ⟨hkeep1, hduties1, hbal1⟩
    refine .bind (onRam_runs (onPages_runs (K := T) hbal1 (.of_le le_rfl)
      (procPagetable_runs p.mem.trapframe hbal1) fun x k hk =>
        ⟨_, hk.2, .of_le (le_add_of_nonneg_right zero_le)⟩)) ?_
    rintro x w2 ⟨⟨⟨hcont, hbal2⟩, hkeep2⟩, hduties2⟩
    have hduties2 : w2.duties = w.duties.opened := hduties2.trans hduties1
    cases x with
    | none =>
      have hbal : Balanced im w2.ram.kmem T := by simpa using hbal2
      exact .pure ⟨hkeep1.trans hkeep2, hduties2, hbal⟩
    | some t0 =>
      have hlow0 : Low true (contents t0) (npages 0) (fixedTop im p.mem.trapframe) :=
        ⟨nofun, fun i _ => by rw [hcont t0 rfl]⟩
      have hbal0 : Balanced im w2.ram.kmem (T + held t0 (npages 0)) :=
        hbal2.congr (by simp [held, mapped])
      refine .bind (execLoop_runs ip roof_fixedTop ip.elfhdr.phnum.toNat
        (ip.elfhdr.phoff.toNat % 2 ^ 32) t0 0 hlow0 hbal0) ?_
      rintro ⟨t1, sz, ok⟩ w3 ⟨hlow1, hbal3, hsteady⟩
      dsimp only at hlow1 hbal3 ⊢
      have hkeep3 := (hkeep1.trans hkeep2).trans hsteady.keeps
      have hduties3 : w3.duties = w.duties.opened := hsteady.duties.trans hduties2
      cases ok with
      | false => exact .pure ⟨hkeep3, hduties3, hlow1.weaken, hbal3⟩
      | true =>
        simp only [Bool.not_true, Bool.false_eq_true, if_false,
          pgRoundUp_eq (le_of_npages (hlow1.held_le hbal3))]
        refine runs_modify_bind (runs_modify_bind (.mono (guard_runs hlow1 hbal3) ?_))
        refine fun x w' hx => hx.start hkeep3 ?_
        change Duties.mk _ _ _ = w.duties
        rw [hduties3]
        rfl

end Xv6MallocLab.PhysicalMemory
