import Xv6MallocLab.BufferCache
import Xv6MallocLab.LogMachine

/-!
# Callers of the buffer cache

Any number of callers read, change, store and release buffers while the process
whose `end_op` is the last one runs `commit`; between any two instructions of
`commit`, everybody else may move.
-/

namespace Xv6MallocLab.BufferCache

open ByteMemory Function LogLayer

/-- The buffer pointers of `commit`'s helpers: `to`, `lbuf` and `buf` point at
blocks of the log, `from` and `dbuf` at home blocks. -/
inductive Reg
  | log
  | home
  deriving DecidableEq, Repr

inductive Instr
  | bget (r : Reg) (blockno : ℕ)
  | fill (r : Reg)
  | memmove (dst src : Reg)
  | putHead (r : Reg)
  | bwrite (r : Reg)
  | brelse (r : Reg)
  | bunpin (r : Reg)
  | clear
  | finish
  deriving DecidableEq, Repr

def bread (r : Reg) (blockno : ℕ) : List Instr := [.bget r blockno, .fill r]

def writeLogRound (start : ℕ) (entry : ℕ × ℕ) : List Instr :=
  bread .log (start + entry.2 + 1) ++ bread .home entry.1 ++
    [.memmove .log .home, .bwrite .log, .brelse .home, .brelse .log]

/-- `write_log`: each logged block, from the buffer of its home. -/
def writeLog (log : Log) : List Instr := log.lh.zipIdx.flatMap (writeLogRound log.start)

def writeHead (log : Log) : List Instr :=
  bread .log log.start ++ [.putHead .log, .bwrite .log, .brelse .log]

def installRound (start : ℕ) (entry : ℕ × ℕ) : List Instr :=
  bread .log (start + entry.2 + 1) ++ bread .home entry.1 ++
    [.memmove .home .log, .bwrite .home, .bunpin .home, .brelse .log, .brelse .home]

def installTrans (log : Log) : List Instr := log.lh.zipIdx.flatMap (installRound log.start)

/-- `commit`, and the last section of `end_op`. -/
def commitScript (log : Log) : List Instr :=
  (if 0 < log.n then
    writeLog log ++ writeHead log ++ installTrans log ++ [.clear] ++ writeHead log
  else
    []) ++ [.finish]

/-- `waiting` lists who sleeps on which buffer, `script` what the process inside
`commit` still has to do, and `stored` what was last stored for each block. -/
structure System where
  disk : ℕ → Memory
  cache : Bcache
  log : Log
  waiting : List (Owner × ℕ)
  script : List Instr
  regs : Reg → ℕ
  stored : ℕ → Memory

namespace System

def enter (s : System) (owner : Owner) (b : ℕ) (cache : Bcache) : System :=
  { s with cache := cache, waiting := (owner, b) :: s.waiting }

def leave (s : System) (owner : Owner) (b : ℕ) (cache : Bcache) : System :=
  { s with cache := cache, waiting := s.waiting.erase (owner, b) }

/-- The instruction of `commit`, without the advance to the next one: nothing
while the process sleeps. -/
def exec (s : System) : Instr → Except Panic (Option System)
  | .bget r blockno =>
    match BufferCache.bget s.cache rootDev blockno with
    | .ok (b, cache) => .ok (some { s.enter .commit b cache with regs := update s.regs r b })
    | .error panic => .error panic
  | .fill r =>
    match BufferCache.fill s.cache s.disk (s.regs r) .commit with
    | some cache => .ok (some (s.leave .commit (s.regs r) cache))
    | none => .ok none
  | .memmove dst src =>
    .ok (some { s with cache := modify s.cache (s.regs dst) (s.cache.buf (s.regs src)).data })
  | .putHead r =>
    .ok (some { s with
      cache := modify s.cache (s.regs r) (encodeHead s.log.lh (s.cache.buf (s.regs r)).data) })
  | .bwrite r =>
    match BufferCache.bwrite s.cache s.disk (s.regs r) .commit with
    | .ok disk => .ok (some { s with
        disk := disk
        stored := update s.stored (s.cache.buf (s.regs r)).blockno
          (s.cache.buf (s.regs r)).data })
    | .error panic => .error panic
  | .brelse r =>
    match BufferCache.brelse s.cache (s.regs r) .commit with
    | .ok cache => .ok (some { s with cache := cache })
    | .error panic => .error panic
  | .bunpin r => .ok (some { s with cache := BufferCache.bunpin s.cache (s.regs r) })
  | .clear => .ok (some { s with log := { s.log with lh := [] } })
  | .finish => .ok (some { s with log := { s.log with committing := false } })

end System

/-- One step.  A caller changes a buffer it holds right before it stores it.  In
a `sequential` run no caller's `bwrite` falls into the middle of a commit. -/
inductive Step (sequential : Bool) : System → System → Prop
  | bget {s : System} (pid blockno : ℕ) {b : ℕ} {cache : Bcache}
      (hget : bget s.cache rootDev blockno = .ok (b, cache)) :
      Step sequential s (s.enter (.caller pid) b cache)
  | fill {s : System} {pid b : ℕ} {cache : Bcache} (hwait : (.caller pid, b) ∈ s.waiting)
      (hfill : fill s.cache s.disk b (.caller pid) = some cache) :
      Step sequential s (s.leave (.caller pid) b cache)
  | bwrite {s : System} {pid b : ℕ} {data : Memory} {disk : ℕ → Memory} (hb : b < nbuf)
      (hquiet : sequential = true → s.script = [])
      (hwrite : bwrite (modify s.cache b data) s.disk b (.caller pid) = .ok disk) :
      Step sequential s { s with
        cache := modify s.cache b data
        disk := disk
        stored := update s.stored (s.cache.buf b).blockno data }
  | logWrite {s : System} {pid b : ℕ} {data : Memory} {log : Log} {pin : Bool} (hb : b < nbuf)
      (hheld : (s.cache.buf b).holder = some (.caller pid))
      (hhome : ¬ InLog s.log.start s.log.size (s.cache.buf b).blockno)
      (hsmall : (s.cache.buf b).blockno < 2 ^ 32)
      (hwrite : logWrite s.log (s.cache.buf b).blockno = .ok (log, pin)) :
      Step sequential s { s with
        cache := if pin then bpin (modify s.cache b data) b else modify s.cache b data
        log := log
        stored := update s.stored (s.cache.buf b).blockno data }
  | brelse {s : System} {pid b : ℕ} {cache : Bcache} (hb : b < nbuf)
      (hrelease : brelse s.cache b (.caller pid) = .ok cache) :
      Step sequential s { s with cache := cache }
  | beginOp {s : System} {log : Log} (hbegin : beginOp s.log = some log) :
      Step sequential s { s with log := log }
  | endOp {s : System} {log : Log} {commit : Bool} (hop : 1 ≤ s.log.outstanding)
      (hend : endOp s.log = .ok (log, commit)) :
      Step sequential s { s with log := log, script := if commit then commitScript log else s.script }
  | commit {s s' : System} {i : Instr} {rest : List Instr} (hscript : s.script = i :: rest)
      (hexec : s.exec i = .ok (some s')) : Step sequential s { s' with script := rest }

def boot (start size : ℕ) (disk : ℕ → Memory) : System where
  disk := disk
  cache := binit
  log := { start := start, size := size, outstanding := 0, committing := false, lh := [] }
  waiting := []
  script := []
  regs := fun _ => 0
  stored := disk

inductive Reached (sequential : Bool) (start size : ℕ) (disk : ℕ → Memory) : System → Prop
  | boot : Reached sequential start size disk (boot start size disk)
  | step {s s' : System} (hreached : Reached sequential start size disk s)
      (hstep : Step sequential s s') : Reached sequential start size disk s'

end Xv6MallocLab.BufferCache
