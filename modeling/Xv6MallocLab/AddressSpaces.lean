import Xv6MallocLab.ExecImage
import Xv6MallocLab.ProcTable

/-!
# Processes and their memory

The processes with their page tables, sizes and trapframes, the pipes, and the calls
that take and give back pages; `kalloc` may fail at every call.  Which child `wait`
finds, and whether files and user memory are there, are inputs.
-/

namespace Xv6MallocLab.Paging

open ProcTable (Slot nproc initproc)

structure Proc where
  pagetable : Table
  sz : ℕ
  trapframe : Page
  zombie : Bool

structure Pipe where
  page : Page
  readopen : Bool
  writeopen : Bool

/-- `kernel` lists the pages taken at boot. -/
structure State where
  kmem : Kmem
  kernel : List Page
  proc : Slot → Option Proc
  pipes : List Pipe

variable (im : Image)

/-- `allocproc`, after it has found an `UNUSED` slot. -/
def allocproc : Mem (Option (Page × Table)) := do
  match ← kalloc with
  | none => return none
  | some tf => do
      match ← procPagetable im tf with
      | none => do
          kfree im tf
          return none
      | some t => return some (tf, t)

def freeproc (p : Proc) : Mem Unit := do
  kfree im p.trapframe
  procFreepagetable im p.pagetable p.sz

def fork (p : Proc) : Mem (Option Proc) := do
  match ← allocproc im with
  | none => return none
  | some (tf, t) => do
      let (t, ok) ← uvmcopy im p.pagetable t p.sz
      if ok then return some { pagetable := t, sz := p.sz, trapframe := tf, zombie := false }
      else do
        freeproc im { pagetable := t, sz := 0, trapframe := tf, zombie := false }
        return none

/-- `growproc`; the sum is one of `uint64`. -/
def growproc (p : Proc) (n : Int32) : Mem (Proc × Bool) := do
  let newsz := (((p.sz : ℤ) + n.toInt) % 2 ^ 64).toNat
  if 0 < n.toInt then
    let (t, sz) ← uvmalloc im p.pagetable p.sz newsz ⟨false, true, false, false⟩
    if sz = 0 then return ({ p with pagetable := t }, false)
    else return ({ p with pagetable := t, sz := sz }, true)
  else if n.toInt < 0 then
    let (t, sz) ← uvmdealloc im p.pagetable p.sz newsz
    return ({ p with pagetable := t, sz := sz }, true)
  else return (p, true)

/-- `userinit`: the first process, of one page. -/
def userinit : Mem (Option Proc) := do
  match ← allocproc im with
  | none => return none
  | some (tf, t) => do
      match ← uvmfirst t with
      | none => return none
      | some t => return some { pagetable := t, sz := pgsize, trapframe := tf, zombie := false }

def Pipe.shut (q : Pipe) (writable : Bool) : Pipe :=
  if writable then { q with writeopen := false } else { q with readopen := false }

def pipeclose (q : Pipe) (writable : Bool) : Mem (Option Pipe) := do
  if !(q.shut writable).readopen && !(q.shut writable).writeopen then do
    kfree im q.page
    return none
  else return some (q.shut writable)

/-- `sys_pipe`: `files` tells whether `pipealloc` got its two file structures, `fds`
whether the descriptors could be had and written to user memory. -/
def sysPipe (files fds : Bool) : Mem (Option Pipe) := do
  if !files then return none
  else
    match ← kalloc with
    | none => return none
    | some page => do
        let q : Pipe := { page, readopen := true, writeopen := true }
        if fds then return some q
        else
          match ← pipeclose im q false with
          | none => return none
          | some q => pipeclose im q true

namespace State

def running (s : State) (i : Slot) : Option Proc := (s.proc i).filter fun p => !p.zombie

def freeSlot (s : State) : Option Slot := (List.finRange nproc).find? fun i => (s.proc i).isNone

def setProc (s : State) (k : Kmem) (i : Slot) (p : Option Proc) : State :=
  { s with kmem := k, proc := Function.update s.proc i p }

def setPipes (s : State) (k : Kmem) (pipes : List Pipe) : State :=
  { s with kmem := k, pipes := pipes }

end State

inductive Call
  | fork (i : Slot)
  | exec (i : Slot) (file : Option ExecFile) (uargv : ℕ → Uarg)
  | sbrk (i : Slot) (n : Int32)
  | exit (i : Slot)
  | wait (i child : Slot) (copied : Bool)
  | pipe (i : Slot) (files fds : Bool)
  | pipeclose (j : ℕ) (writable : Bool)

def perform (s : State) : Call → Except Panic (Bool × State)
  | .fork i =>
    match s.running i, s.freeSlot with
    | some p, some np => do
        let (r, k) ← fork im p s.kmem
        return (r.isSome, s.setProc k np r)
    | _, _ => return (false, s)
  | .exec i file uargv =>
    match s.running i with
    | some p => do
        let (r, k) ← sysExec im p.trapframe p.pagetable p.sz file uargv s.kmem
        let (t, sz) := r.getD (p.pagetable, p.sz)
        return (r.isSome, s.setProc k i (some { p with pagetable := t, sz := sz }))
    | none => return (false, s)
  | .sbrk i n =>
    match s.running i with
    | some p => do
        let ((p, ok), k) ← growproc im p n s.kmem
        return (ok, s.setProc k i (some p))
    | none => return (false, s)
  | .exit i =>
    match s.running i with
    | some p =>
      if i = initproc then throw .initExiting
      else return (true, s.setProc s.kmem i (some { p with zombie := true }))
    | none => return (false, s)
  | .wait i child copied =>
    match s.running i, s.proc child with
    | some _, some p =>
      if p.zombie && copied then do
        let (_, k) ← freeproc im p s.kmem
        return (true, s.setProc k child none)
      else return (false, s)
    | _, _ => return (false, s)
  | .pipe i files fds =>
    match s.running i with
    | some _ => do
        let (r, k) ← sysPipe im files fds s.kmem
        return (r.isSome, s.setPipes k (r.toList ++ s.pipes))
    | none => return (false, s)
  | .pipeclose j writable =>
    match s.pipes[j]? with
    | some q => do
        let (r, k) ← pipeclose im q writable s.kmem
        return (true, s.setPipes k (r.toList ++ s.pipes.eraseIdx j))
    | none => return (false, s)

/-- `n` pages for the kernel itself: its page table, the kernel stacks, the disk's
rings.  The kernel comes no further when one is missing. -/
def takePages : ℕ → Mem (Option (List Page))
  | 0 => return some []
  | n + 1 => do
      match ← kalloc, ← takePages n with
      | some p, some ps => return some (p :: ps)
      | _, _ => return none

def boot (n : ℕ) (deny : ℕ → Bool) : Except Panic (Option State) := do
  let (_, k) ← kinit im { freelist := [], deny }
  let (kernel, k) ← takePages n k
  match kernel with
  | none => return none
  | some kernel => do
      let (p, k) ← userinit im k
      match p with
      | none => return none
      | some p =>
        return some
          { kmem := k, kernel, proc := Function.update (fun _ => none) initproc (some p), pipes := [] }

def Booted (s : State) : Prop :=
  ∃ n deny, boot im n deny = .ok (some s) ∧
    ∃ p, s.proc initproc = some p ∧ (contents p.pagetable 0).isSome

inductive Reached : State → Prop
  | boot {s : State} : Booted im s → Reached s
  | call {s s' : State} {c : Call} {ok : Bool} :
      Reached s → perform im s c = .ok (ok, s') → Reached s'

end Xv6MallocLab.Paging
