import Mathlib.Tactic

/-!
# The process table

`fork`, `exit`, `wait` and `kill` as the sections that run under `wait_lock` or a
process's own lock, each one step.  The scan of `allocproc` takes one lock after
another, so it may settle on any slot that is `UNUSED` when it is looked at.
-/

namespace Xv6MallocLab.ProcTable

open Function

def nproc : ℕ := 64

abbrev Slot := Fin nproc

/-- `enum procstate`. -/
inductive ProcState
  | unused | used | sleeping | runnable | running | zombie
  deriving DecidableEq, Repr

/-- What a process sleeps on: a table entry, as in `wait`, or something else. -/
inductive Chan
  | proc (p : Slot)
  | other (k : ℕ)
  deriving DecidableEq, Repr

/-- The fields of `struct proc` that these calls use.  A null pointer is
`none`; the two `int`s are machine words. -/
structure Proc where
  state : ProcState
  chan : Option Chan
  killed : Bool
  xstate : BitVec 32
  pid : BitVec 32
  parent : Option Slot

/-- `freeproc`: the fields are cleared and the slot is unused. -/
def freeproc (p : Proc) : Proc :=
  { p with
    pid := 0
    parent := none
    chan := none
    killed := false
    xstate := 0
    state := .unused }

inductive Position
  | user
  | forked (np : Slot) (pid : BitVec 32)
  | parented (np : Slot) (pid : BitVec 32)
  | waiting (addr : BitVec 64)

structure Delivery where
  parent : Slot
  pid : BitVec 32
  status : BitVec 32

/-- The table and `nextpid`.  `position` is where each process's kernel thread
stands; `forks` counts the pids `fork` took, `exits` and `deliveries` record what
`exit` left and `wait` returned. -/
structure Kernel where
  proc : Slot → Proc
  nextpid : BitVec 32
  position : Slot → Position
  forks : ℕ
  exits : List (BitVec 32 × BitVec 32)
  deliveries : List Delivery

def initproc : Slot := ⟨0, by decide⟩

def boot : Kernel :=
  { proc := fun c =>
      { state := if c = initproc then .runnable else .unused
        chan := none
        killed := false
        xstate := 0
        pid := if c = initproc then 1 else 0
        parent := none }
    nextpid := 2
    position := fun _ => .user
    forks := 0
    exits := []
    deliveries := [] }

namespace Kernel

def setProc (s : Kernel) (c : Slot) (p : Proc) : Kernel :=
  { s with proc := update s.proc c p }

def setPosition (s : Kernel) (i : Slot) (q : Position) : Kernel :=
  { s with position := update s.position i q }

/-- `allocproc` in the unused slot `c`, which gets the next pid. -/
def allocproc (s : Kernel) (c : Slot) : Kernel :=
  { s with
    proc := update s.proc c { s.proc c with pid := s.nextpid, state := .used }
    nextpid := s.nextpid + 1
    forks := s.forks + 1 }

/-- The first section of `fork`.  Without memory for the trapframe, the page
table or the copy of the parent, the slot is freed again. -/
def forkAlloc (s : Kernel) (i c : Slot) (memory : Bool) : Kernel :=
  if memory then
    (s.allocproc c).setPosition i (.forked c s.nextpid)
  else
    (s.allocproc c).setProc c (freeproc ((s.allocproc c).proc c))

/-- The second section of `fork`, under `wait_lock`. -/
def forkParent (s : Kernel) (i np : Slot) (pid : BitVec 32) : Kernel :=
  (s.setProc np { s.proc np with parent := some i }).setPosition i (.parented np pid)

/-- The last section of `fork`: the child may run. -/
def forkReady (s : Kernel) (i np : Slot) : Kernel :=
  (s.setProc np { s.proc np with state := .runnable }).setPosition i .user

/-- `wakeup(chan)` by the process in slot `i`, which it skips. -/
def wakeup (s : Kernel) (i : Slot) (chan : Option Chan) : Kernel :=
  { s with proc := fun j =>
      if j ≠ i ∧ (s.proc j).state = .sleeping ∧ (s.proc j).chan = chan then
        { s.proc j with state := .runnable }
      else s.proc j }

def isChild (s : Kernel) (i pp : Slot) : Bool := (s.proc pp).parent == some i

def haveKids (s : Kernel) (i : Slot) : Bool := (List.finRange nproc).any fun pp => s.isChild i pp

def adopt (s : Kernel) (i : Slot) : Kernel :=
  { s with proc := fun j =>
      if s.isChild i j then { s.proc j with parent := some initproc } else s.proc j }

/-- `reparent(p)`: `wakeup(initproc)` once or several times is the same. -/
def reparent (s : Kernel) (i : Slot) : Kernel :=
  if s.haveKids i then (s.adopt i).wakeup i (some (.proc initproc)) else s

/-- `exit` up to `sched`: the children go to `init`, and the parent is woken. -/
def exit (s : Kernel) (i : Slot) (status : BitVec 32) : Kernel :=
  let t := s.reparent i
  let t := t.wakeup i ((t.proc i).parent.map .proc)
  { t with
    proc := update t.proc i { t.proc i with xstate := status, state := .zombie }
    exits := t.exits ++ [((t.proc i).pid, status)] }

inductive WaitResult
  | reaped (pid : BitVec 32)
  | badAddress
  | noChildren
  | sleeps
  deriving DecidableEq

def zombieChild (s : Kernel) (i : Slot) : Option Slot :=
  (List.finRange nproc).find? fun pp => s.isChild i pp && (s.proc pp).state == .zombie

def reap (s : Kernel) (i pp : Slot) : Kernel :=
  { s with
    proc := update s.proc pp (freeproc (s.proc pp))
    position := update s.position i .user
    deliveries := s.deliveries ++ [⟨i, (s.proc pp).pid, (s.proc pp).xstate⟩] }

/-- One scan of `wait(addr)` under `wait_lock`, up to its return or its `sleep`;
`copied` tells whether `copyout` of the status succeeds. -/
def wait (s : Kernel) (i : Slot) (addr : BitVec 64) (copied : Bool) : Kernel × WaitResult :=
  match s.zombieChild i with
  | some pp =>
    if addr ≠ 0 && !copied then
      (s.setPosition i .user, .badAddress)
    else
      (s.reap i pp, .reaped (s.proc pp).pid)
  | none =>
    if !s.haveKids i || (s.proc i).killed then
      (s.setPosition i .user, .noChildren)
    else
      ((s.setProc i { s.proc i with chan := some (.proc i), state := .sleeping }).setPosition i
        (.waiting addr), .sleeps)

def mark (s : Kernel) (c : Slot) : Kernel :=
  s.setProc c
    { s.proc c with
      killed := true
      state := if (s.proc c).state = .sleeping then .runnable else (s.proc c).state }

def target (s : Kernel) (pid : BitVec 32) : Option Slot :=
  (List.finRange nproc).find? fun c => (s.proc c).pid == pid

/-- `kill`: the first process with this pid. -/
def kill (s : Kernel) (pid : BitVec 32) : Kernel × BitVec 32 :=
  match s.target pid with
  | some c => (s.mark c, 0)
  | none => (s, -1)

end Kernel

/-- One section of one process, or a step of the scheduler.  Calls of `kill` are
restricted to those `aim` admits. -/
inductive Step (aim : Kernel → BitVec 32 → Prop) : Kernel → Kernel → Prop
  | forkAlloc {s : Kernel} {i c : Slot} (memory : Bool) (hrun : (s.proc i).state = .running)
      (hpos : s.position i = .user) (hc : (s.proc c).state = .unused) :
      Step aim s (s.forkAlloc i c memory)
  | forkParent {s : Kernel} {i np : Slot} {pid : BitVec 32} (hrun : (s.proc i).state = .running)
      (hpos : s.position i = .forked np pid) : Step aim s (s.forkParent i np pid)
  | forkReady {s : Kernel} {i np : Slot} {pid : BitVec 32} (hrun : (s.proc i).state = .running)
      (hpos : s.position i = .parented np pid) : Step aim s (s.forkReady i np)
  | exit {s : Kernel} {i : Slot} (status : BitVec 32) (hrun : (s.proc i).state = .running)
      (hpos : s.position i = .user) (hi : i ≠ initproc) : Step aim s (s.exit i status)
  | wait {s : Kernel} {i : Slot} (addr : BitVec 64) (copied : Bool)
      (hrun : (s.proc i).state = .running)
      (hpos : s.position i = .user ∨ s.position i = .waiting addr) :
      Step aim s (s.wait i addr copied).1
  | kill {s : Kernel} {i : Slot} (pid : BitVec 32) (hrun : (s.proc i).state = .running)
      (hpos : s.position i = .user) (haim : aim s pid) : Step aim s (s.kill pid).1
  /-- `setkilled(myproc())` of `usertrap`. -/
  | setkilled {s : Kernel} {i : Slot} (hrun : (s.proc i).state = .running) :
      Step aim s (s.setProc i { s.proc i with killed := true })
  | schedule {s : Kernel} {i : Slot} (hrun : (s.proc i).state = .runnable) :
      Step aim s (s.setProc i { s.proc i with state := .running })
  | yield {s : Kernel} {i : Slot} (hrun : (s.proc i).state = .running) :
      Step aim s (s.setProc i { s.proc i with state := .runnable })
  /-- `sleep` in another call, such as a read of a pipe. -/
  | sleep {s : Kernel} {i : Slot} (k : ℕ) (hrun : (s.proc i).state = .running)
      (hpos : s.position i = .user) :
      Step aim s (s.setProc i { s.proc i with chan := some (.other k), state := .sleeping })
  /-- `sleep` coming back: `p->chan = 0`. -/
  | awake {s : Kernel} {i : Slot} (hrun : (s.proc i).state = .running) :
      Step aim s (s.setProc i { s.proc i with chan := none })
  | wakeup {s : Kernel} {i : Slot} (k : ℕ) (hrun : (s.proc i).state = .running) :
      Step aim s (s.wakeup i (some (.other k)))

inductive Reached (aim : Kernel → BitVec 32 → Prop) : Kernel → Prop
  | boot : Reached aim boot
  | step {s s' : Kernel} (h : Reached aim s) (hs : Step aim s s') : Reached aim s'

end Xv6MallocLab.ProcTable
