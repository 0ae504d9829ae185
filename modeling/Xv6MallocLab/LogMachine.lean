import Xv6MallocLab.Log
import Xv6MallocLab.LogGroups

/-!
# The log on its disk

One step is one call of `begin_op`, `log_write` or `end_op`, one round of a loop of
`write_log` or `install_trans`, one header write, a block that enters or leaves the
cache, or a crash, which keeps the disk and nothing else.
-/

namespace Xv6MallocLab.LogLayer

open ByteMemory Function

inductive Phase
  | idle
  | commit
  | writeLog (tail : ℕ)
  | installTrans (recovering : Bool) (tail : ℕ)
  | readHead
  deriving DecidableEq, Repr

def Phase.isRecovery : Phase → Bool
  | .installTrans recovering _ => recovering
  | .readHead => true
  | _ => false

/-- `running` and `next` name the operations: the calls between `begin_op` and
`end_op`, and the next one to begin. -/
structure Machine where
  disk : ℕ → Memory
  cache : ℕ → Option Memory
  pinned : List ℕ
  log : Log
  phase : Phase
  running : List ℕ
  next : ℕ

namespace Machine

def data (m : Machine) (blockno : ℕ) : Memory := (m.cache blockno).getD (m.disk blockno)

def bread (m : Machine) (blockno : ℕ) : Machine :=
  { m with cache := update m.cache blockno (some (m.data blockno)) }

def modify (m : Machine) (blockno : ℕ) (data : Memory) : Machine :=
  { m with cache := update m.cache blockno (some data) }

def bwrite (m : Machine) (blockno : ℕ) : Machine :=
  { m with disk := update m.disk blockno (m.data blockno) }

/-- One round of `write_log` and of `install_trans`: read both blocks, copy the
data and write the destination. -/
def copyBlock (m : Machine) (src dst : ℕ) : Machine :=
  let m := (m.bread src).bread dst
  (m.modify dst (m.data src)).bwrite dst

/-- `write_head`, through the buffer of the header block. -/
def writeHead (m : Machine) : Machine :=
  let m := m.bread m.log.start
  (m.modify m.log.start (encodeHead m.log.lh (m.data m.log.start))).bwrite m.log.start

/-- The next thing that `commit` or `recover_from_log` does, with the header
write that it makes visible. -/
def advance (m : Machine) : Option (List Event × Machine) :=
  match m.phase with
  | .idle => none
  | .commit =>
    if 0 < m.log.n then
      some ([], { m with phase := .writeLog 0 })
    else
      some ([], { m with log := { m.log with committing := false }, phase := .idle })
  | .writeLog tail =>
    match m.log.lh[tail]? with
    | some blockno =>
      some ([], { m.copyBlock blockno (m.log.start + tail + 1) with phase := .writeLog (tail + 1) })
    | none =>
      some ([.header m.log.n], { m.writeHead with phase := .installTrans false 0 })
  | .installTrans recovering tail =>
    match m.log.lh[tail]? with
    | some blockno =>
      some ([], { m.copyBlock (m.log.start + tail + 1) blockno with
        pinned := if recovering then m.pinned else m.pinned.erase blockno
        phase := .installTrans recovering (tail + 1) })
    | none =>
      some ([.header 0], { ({ m with log := { m.log with lh := [] } } : Machine).writeHead with
        log := { m.log with lh := [], committing := false }
        phase := .idle })
  | .readHead =>
    some ([], { m.bread m.log.start with
      log := { m.log with lh := decodeHead (m.data m.log.start) }
      phase := .installTrans true 0 })

def crash (m : Machine) : Machine where
  disk := m.disk
  cache := fun _ => none
  pinned := []
  log := { start := m.log.start, size := m.log.size, outstanding := 0, committing := false, lh := [] }
  phase := .readHead
  running := []
  next := m.next

end Machine

def InLog (start size blockno : ℕ) : Prop :=
  blockno = start ∨ start < blockno ∧ blockno < start + size

instance (start size blockno : ℕ) : Decidable (InLog start size blockno) :=
  inferInstanceAs (Decidable (_ ∨ _ ∧ _))

/-- `log_write` on one block after another, none of them of the log itself. -/
def logAll (log : Log) : List ℕ → Option Log
  | [] => some log
  | b :: bs =>
    if InLog log.start log.size b ∨ 2 ^ 32 ≤ b then none
    else match logWrite log b with
      | .ok (log, _) => logAll log bs
      | .error _ => none

theorem logAll_cons_eq_some_iff {log log' : Log} {b : ℕ} {bs : List ℕ} :
    logAll log (b :: bs) = some log' ↔ ¬ InLog log.start log.size b ∧ b < 2 ^ 32 ∧
      ∃ log1 pin, logWrite log b = .ok (log1, pin) ∧ logAll log1 bs = some log' := by
  rw [logAll]
  split_ifs with hb
  · exact ⟨nofun, fun ⟨hhome, hsmall, _⟩ => absurd hb (not_or.mpr ⟨hhome, not_le.mpr hsmall⟩)⟩
  · obtain ⟨hhome, hsmall⟩ := not_or.mp hb
    refine ⟨fun h => ⟨hhome, not_le.mp hsmall, ?_⟩, fun ⟨_, _, _, _, hwrite, h⟩ => ?_⟩
    · split at h
      · exact ⟨_, _, ‹_›, h⟩
      · cases h
    · rw [hwrite]
      exact h

/-- One step, with what is observed of it.  The block that `log_write` gets is
changed under the same buffer lock, and one that the cache recycles has no
reference, so it is not pinned. -/
inductive Step : Machine → List Event → Machine → Prop
  | beginOp {m : Machine} {log : Log} (hup : m.phase.isRecovery = false)
      (hbegin : beginOp m.log = some log) :
      Step m [.start m.next] { m with log := log, running := m.next :: m.running, next := m.next + 1 }
  | logWrite {m : Machine} {log : Log} {pin : Bool} {op blockno : ℕ} {data : Memory}
      (hop : op ∈ m.running) (hhome : ¬ InLog m.log.start m.log.size blockno)
      (hsmall : blockno < 2 ^ 32) (hwrite : logWrite m.log blockno = .ok (log, pin)) :
      Step m [.write op blockno data] { m.modify blockno data with
        log := log
        pinned := if pin then blockno :: m.pinned else m.pinned }
  | endOp {m : Machine} {log : Log} {commit : Bool} {op : ℕ} (hop : op ∈ m.running)
      (hend : endOp m.log = .ok (log, commit)) :
      Step m [.finish op] { m with
        log := log
        running := m.running.erase op
        phase := if commit then .commit else m.phase }
  | advance {m m' : Machine} {es : List Event} (hnext : m.advance = some (es, m')) : Step m es m'
  | fetch {m : Machine} (blockno : ℕ) : Step m [] (m.bread blockno)
  | recycle {m : Machine} {blockno : ℕ} (hfree : blockno ∉ m.pinned) :
      Step m [] { m with cache := update m.cache blockno none }
  | crash {m : Machine} : Step m [.crash] m.crash

/-- The machine at power-on; `recover_from_log` comes first. -/
def boot (start size : ℕ) (disk : ℕ → Memory) : Machine where
  disk := disk
  cache := fun _ => none
  pinned := []
  log := { start := start, size := size, outstanding := 0, committing := false, lh := [] }
  phase := .readHead
  running := []
  next := 0

/-- The machines a run reaches, with the events on the way. -/
inductive Reached (start size : ℕ) (disk : ℕ → Memory) : List Event → Machine → Prop
  | boot : Reached start size disk [] (boot start size disk)
  | step {history es : List Event} {m m' : Machine} (hreached : Reached start size disk history m)
      (hstep : Step m es m') : Reached start size disk (history ++ es) m'

end Xv6MallocLab.LogLayer
