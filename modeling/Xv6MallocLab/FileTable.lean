import Xv6MallocLab.ProcTable

/-!
# The open-file table

`ftable`, the processes' descriptor tables and the pipes, under the calls that create
and drop references, with every error exit.  A pipe is known by the number of its
creation, and `frees` counts how often its page went back to the allocator.
-/

namespace Xv6MallocLab.FileTable

open Function

open ProcTable (Slot nproc)

def nfile : ℕ := 100

def nofile : ℕ := 16

abbrev FileIx := Fin nfile

abbrev Fd := Fin nofile

inductive FileType
  | none | pipe | inode | device
  deriving DecidableEq, Repr

/-- `struct file`; a pipe is known by its number. -/
structure File where
  type : FileType
  ref : ℤ
  readable : Bool
  writable : Bool
  pipe : ℕ

structure Pipe where
  readopen : Bool
  writeopen : Bool
  frees : ℕ

/-- `ofile` holds the descriptor tables of all processes, `live` the processes
that exist. -/
structure State where
  file : FileIx → File
  pipe : ℕ → Pipe
  npipes : ℕ
  ofile : Slot × Fd → Option FileIx
  live : Slot → Bool

inductive Panic
  | filedup | fileclose
  deriving DecidableEq, Repr

namespace State

def setFile (s : State) (f : FileIx) (x : File) : State :=
  { s with file := update s.file f x }

def setFd (s : State) (p : Slot) (fd : Fd) (x : Option FileIx) : State :=
  { s with ofile := update s.ofile (p, fd) x }

def freeFile (s : State) : Option FileIx := (List.finRange nfile).find? fun f => (s.file f).ref == 0

/-- `filealloc`: the first entry without references. -/
def filealloc (s : State) : Option FileIx × State :=
  match s.freeFile with
  | some f => (some f, s.setFile f { s.file f with ref := 1 })
  | none => (none, s)

def filedup (s : State) (f : FileIx) : Except Panic State :=
  if (s.file f).ref < 1 then .error .filedup
  else .ok (s.setFile f { s.file f with ref := (s.file f).ref + 1 })

def Pipe.close (q : Pipe) (writable : Bool) : Pipe :=
  let q := if writable then { q with writeopen := false } else { q with readopen := false }
  if !q.readopen && !q.writeopen then { q with frees := q.frees + 1 } else q

def pipeclose (s : State) (q : ℕ) (writable : Bool) : State :=
  { s with pipe := update s.pipe q (Pipe.close (s.pipe q) writable) }

/-- `fileclose`; the `iput` of an inode's file is not part of this state. -/
def fileclose (s : State) (f : FileIx) : Except Panic State :=
  if (s.file f).ref < 1 then .error .fileclose
  else if 0 < (s.file f).ref - 1 then
    .ok (s.setFile f { s.file f with ref := (s.file f).ref - 1 })
  else
    let ff := s.file f
    let s := s.setFile f { s.file f with ref := 0, type := .none }
    if ff.type = .pipe then .ok (s.pipeclose ff.pipe ff.writable) else .ok s

def pipeEnd (x : File) (q : ℕ) (writable : Bool) : File :=
  { x with type := .pipe, readable := !writable, writable := writable, pipe := q }

def newPipe (s : State) (rf wf : FileIx) : State :=
  let s := { s with
    pipe := update s.pipe s.npipes { readopen := true, writeopen := true, frees := 0 }
    npipes := s.npipes + 1 }
  let s := s.setFile rf (pipeEnd (s.file rf) (s.npipes - 1) false)
  s.setFile wf (pipeEnd (s.file wf) (s.npipes - 1) true)

/-- `pipealloc`; `memory` tells whether `kalloc` succeeds. -/
def pipealloc (s : State) (memory : Bool) : Except Panic (Option (FileIx × FileIx) × State) :=
  match s.filealloc with
  | (none, s) => .ok (none, s)
  | (some rf, s) =>
    match s.filealloc with
    | (none, s) => return (none, ← s.fileclose rf)
    | (some wf, s) =>
      if memory then .ok (some (rf, wf), s.newPipe rf wf)
      else do
        let s ← s.fileclose rf
        let s ← s.fileclose wf
        return (none, s)

def freeFd (s : State) (p : Slot) : Option Fd :=
  (List.finRange nofile).find? fun fd => s.ofile (p, fd) == none

/-- `fdalloc`: the first free descriptor of `p`. -/
def fdalloc (s : State) (p : Slot) (f : FileIx) : Option Fd × State :=
  match s.freeFd p with
  | some fd => (some fd, s.setFd p fd (some f))
  | none => (none, s)

/-- `sys_dup`; the descriptor is taken before `filedup` counts it. -/
def sysDup (s : State) (p : Slot) (fd : Fd) : Except Panic State :=
  match s.ofile (p, fd) with
  | none => .ok s
  | some f =>
    match s.fdalloc p f with
    | (none, s) => .ok s
    | (some _, s) => s.filedup f

def sysClose (s : State) (p : Slot) (fd : Fd) : Except Panic State :=
  match s.ofile (p, fd) with
  | none => .ok s
  | some f => (s.setFd p fd none).fileclose f

def openFile (x : File) (device readable writable : Bool) : File :=
  { x with
    type := if device then .device else .inode
    readable := readable
    writable := writable }

/-- `sys_open` once the inode is found or created; before that it only fails. -/
def sysOpen (s : State) (p : Slot) (device readable writable : Bool) : Except Panic State :=
  match s.filealloc with
  | (none, s) => .ok s
  | (some f, s) =>
    match s.fdalloc p f with
    | (none, s) => s.fileclose f
    | (some _, s) => .ok (s.setFile f (openFile (s.file f) device readable writable))

/-- `sys_pipe`; `copied` tells whether both `copyout`s succeed. -/
def sysPipe (s : State) (p : Slot) (memory copied : Bool) : Except Panic State := do
  match ← s.pipealloc memory with
  | (none, s) => return s
  | (some (rf, wf), s) =>
    match s.fdalloc p rf with
    | (none, s) => (← s.fileclose rf).fileclose wf
    | (some fd0, s) =>
      match s.fdalloc p wf with
      | (none, s) => (← (s.setFd p fd0 none).fileclose rf).fileclose wf
      | (some fd1, s) =>
        if copied then return s
        else (← ((s.setFd p fd0 none).setFd p fd1 none).fileclose rf).fileclose wf

def forkFd (p np : Slot) (s : State) (fd : Fd) : Except Panic State :=
  match s.ofile (p, fd) with
  | none => .ok s
  | some f => return (← s.filedup f).setFd np fd (some f)

def fork (s : State) (p np : Slot) : Except Panic State := do
  (List.finRange nofile).foldlM (forkFd p np) { s with live := update s.live np true }

def exitFd (p : Slot) (s : State) (fd : Fd) : Except Panic State :=
  match s.ofile (p, fd) with
  | none => .ok s
  | some f => return (← s.fileclose f).setFd p fd none

def exit (s : State) (p : Slot) : Except Panic State := do
  let s ← (List.finRange nofile).foldlM (exitFd p) s
  return { s with live := update s.live p false }

end State

inductive Call
  | open (device readable writable : Bool)
  | dup (fd : Fd)
  | close (fd : Fd)
  | pipe (memory copied : Bool)
  | fork (np : Slot)
  | exit

def State.call (s : State) (p : Slot) : Call → Except Panic State
  | .open device readable writable => s.sysOpen p device readable writable
  | .dup fd => s.sysDup p fd
  | .close fd => s.sysClose p fd
  | .pipe memory copied => s.sysPipe p memory copied
  | .fork np => s.fork p np
  | .exit => s.exit p

/-- `fork` takes a slot that no process has. -/
def State.admits (s : State) : Call → Prop
  | .fork np => s.live np = false
  | _ => True

def boot (init : Slot) : State where
  file := fun _ => { type := .none, ref := 0, readable := false, writable := false, pipe := 0 }
  pipe := fun _ => { readopen := false, writeopen := false, frees := 0 }
  npipes := 0
  ofile := fun _ => none
  live := fun p => p = init

inductive Reached : State → Prop
  | boot (init : Slot) : Reached (boot init)
  | call {s s' : State} {p : Slot} {c : Call} (h : Reached s) (hp : s.live p = true)
      (hc : s.admits c) (hs : s.call p c = .ok s') : Reached s'

end Xv6MallocLab.FileTable
