import Mathlib.Data.List.DropRight
import Xv6MallocLab.RingWindow

/-!
# Console input

`consoleintr` edits a line in a ring of 128 bytes, under the lock from its start to its
end, and calls of `consoleread` take finished lines out of it.  The three indices are
32-bit numbers that wrap.
-/

namespace Xv6MallocLab.ConsoleInput

open Function List RingWindow

def inputBufSize : ℕ := 128

def ctrlD : UInt8 := 4
def ctrlH : UInt8 := 8
def newline : UInt8 := 10
def carriageReturn : UInt8 := 13
def ctrlP : UInt8 := 16
def ctrlU : UInt8 := 21
def delete : UInt8 := 127

structure Cons where
  buf : ℕ → UInt8
  r : UInt32
  w : UInt32
  e : UInt32

namespace Cons

def killLoop : ℕ → Cons → Cons
  | 0, c => c
  | k + 1, c =>
    if c.e ≠ c.w ∧ c.buf ((c.e - 1).toNat % inputBufSize) ≠ newline then
      killLoop k { c with e := c.e - 1 }
    else c

def push (c : Cons) (ch : UInt8) : Cons :=
  { c with
    buf := update c.buf (c.e.toNat % inputBufSize) ch
    e := c.e + 1 }

end Cons

/-- `consoleintr(c)`, without the echo. -/
def consoleintr (c : Cons) (ch : UInt8) : Cons :=
  if ch = ctrlP then c
  else if ch = ctrlU then c.killLoop (c.e - c.w).toNat
  else if ch = ctrlH ∨ ch = delete then
    if c.e ≠ c.w then { c with e := c.e - 1 } else c
  else if ch ≠ 0 ∧ c.e - c.r < 128 then
    let ch := if ch = carriageReturn then newline else ch
    let c := c.push ch
    if ch = newline ∨ ch = ctrlD ∨ c.e - c.r = 128 then { c with w := c.e } else c
  else c

/-- What the console is for: committed bytes, the line being edited, and all bytes that were
ever committed. -/
structure Queue where
  committed : List UInt8
  line : List UInt8
  arrived : List UInt8

namespace Queue

def full (q : Queue) : Prop := inputBufSize ≤ q.committed.length + q.line.length

instance (q : Queue) : Decidable q.full := inferInstanceAs (Decidable (_ ≤ _))

def commit (q : Queue) : Queue :=
  { committed := q.committed ++ q.line, line := [], arrived := q.arrived ++ q.line }

def input (q : Queue) (ch : UInt8) : Queue :=
  if ch = 0 ∨ ch = ctrlP then q
  else if ch = ctrlU then { q with line := q.line.rdropWhile (· != newline) }
  else if ch = ctrlH ∨ ch = delete then { q with line := q.line.dropLast }
  else if q.full then q
  else
    let ch := if ch = carriageReturn then newline else ch
    let q := { q with line := q.line ++ [ch] }
    if ch = newline ∨ ch = ctrlD ∨ q.full then q.commit else q

end Queue

namespace Cons

def committed (c : Cons) : List UInt8 := window c.buf inputBufSize c.r.toNat (c.w - c.r).toNat

def line (c : Cons) : List UInt8 := window c.buf inputBufSize c.w.toNat (c.e - c.w).toNat

structure Ordered (c : Cons) : Prop where
  written : (c.w - c.r).toNat ≤ (c.e - c.r).toNat
  room : (c.e - c.r).toNat ≤ inputBufSize

variable {c : Cons}

theorem Ordered.pending (h : c.Ordered) :
    (c.e - c.w).toNat + (c.w - c.r).toNat = (c.e - c.r).toNat := by
  have hle := h.written
  have hr := c.r.toNat_lt
  have hw := c.w.toNat_lt
  have he := c.e.toNat_lt
  rw [UInt32.toNat_sub, UInt32.toNat_sub] at hle
  rw [UInt32.toNat_sub, UInt32.toNat_sub, UInt32.toNat_sub]
  omega

theorem cell_eq (a n : UInt32) :
    n.toNat % inputBufSize = (a.toNat + (n - a).toNat) % inputBufSize := by
  have ha := a.toNat_lt
  have hn := n.toNat_lt
  rw [UInt32.toNat_sub, inputBufSize]
  omega

variable {a b : UInt32}

theorem sub_ne_zero : (a - b).toNat ≠ 0 ↔ a ≠ b := by
  have ha := a.toNat_lt
  have hb := b.toNat_lt
  rw [ne_eq, ne_eq, ← UInt32.toNat_inj, UInt32.toNat_sub]
  omega

theorem pred_sub (h : a ≠ b) : (a - 1 - b).toNat + 1 = (a - b).toNat := by
  have hpos := sub_ne_zero.2 h
  have ha := a.toNat_lt
  have hb := b.toNat_lt
  rw [UInt32.toNat_sub] at hpos
  rw [UInt32.toNat_sub, UInt32.toNat_sub, UInt32.toNat_sub]
  change (2 ^ 32 - b.toNat + (2 ^ 32 - 1 + a.toNat) % 2 ^ 32) % 2 ^ 32 + 1 = _
  omega

theorem succ_sub {k : ℕ} (hk : (a - b).toNat < k) (hsmall : k ≤ inputBufSize) :
    (a + 1 - b).toNat = (a - b).toNat + 1 := by
  have ha := a.toNat_lt
  have hb := b.toNat_lt
  rw [inputBufSize] at hsmall
  rw [UInt32.toNat_sub] at hk
  rw [UInt32.toNat_sub, UInt32.toNat_sub, UInt32.toNat_add]
  change (2 ^ 32 - b.toNat + (a.toNat + 1) % 2 ^ 32) % 2 ^ 32 = _
  omega

theorem length_committed (c : Cons) : c.committed.length = (c.w - c.r).toNat := window_length ..

theorem length_line (c : Cons) : c.line.length = (c.e - c.w).toNat := window_length ..

theorem Ordered.erase (h : c.Ordered) (hne : c.e ≠ c.w) : Ordered { c with e := c.e - 1 } := by
  have hpend := h.pending
  have hpos := sub_ne_zero.2 hne
  have her : c.e ≠ c.r := by
    intro heq
    have hzero := sub_ne_zero.not_left.2 heq
    omega
  have hpred := pred_sub her
  refine ⟨?_, ?_⟩
  · change (c.w - c.r).toNat ≤ (c.e - 1 - c.r).toNat
    omega
  · have hroom := h.room
    change (c.e - 1 - c.r).toNat ≤ _
    omega

theorem line_erase (hne : c.e ≠ c.w) :
    c.line = line { c with e := c.e - 1 } ++ [c.buf ((c.e - 1).toNat % inputBufSize)] := by
  rw [line, ← pred_sub hne, window_succ, ← cell_eq]
  rfl

section

variable (h : c.Ordered)

include h

theorem killLoop_spec {k : ℕ} (hk : (c.e - c.w).toNat = k) :
    (c.killLoop k).Ordered ∧ (c.killLoop k).committed = c.committed ∧
      (c.killLoop k).line = c.line.rdropWhile (· != newline) := by
  induction k generalizing c with
  | zero =>
    have hnil : c.line = [] := by rw [← length_eq_zero_iff, length_line, hk]
    rw [killLoop, hnil]
    exact ⟨h, rfl, rfl⟩
  | succ k ih =>
    have hne : c.e ≠ c.w := sub_ne_zero.1 (by omega)
    have hpred := pred_sub hne
    rw [killLoop, line_erase hne]
    by_cases hnl : c.buf ((c.e - 1).toNat % inputBufSize) = newline
    · rw [if_neg fun hc => hc.2 hnl, rdropWhile_concat_neg _ _ _ (by simp [hnl]), ← line_erase hne]
      exact ⟨h, rfl, rfl⟩
    · rw [if_pos ⟨hne, hnl⟩, rdropWhile_concat_pos _ _ _ (by simpa using hnl)]
      exact ih (h.erase hne) (by change (c.e - 1 - c.w).toNat = k; omega)

theorem Ordered.push (hroom : (c.e - c.r).toNat < inputBufSize) (ch : UInt8) :
    (c.push ch).Ordered := by
  have hle := h.written
  have hsucc := succ_sub hroom le_rfl
  refine ⟨?_, ?_⟩
  · change (c.w - c.r).toNat ≤ (c.e + 1 - c.r).toNat
    omega
  · change (c.e + 1 - c.r).toNat ≤ inputBufSize
    omega

theorem committed_push (hroom : (c.e - c.r).toNat < inputBufSize) (ch : UInt8) :
    (c.push ch).committed = c.committed := by
  change window (update c.buf (c.e.toNat % inputBufSize) ch) inputBufSize _ _ = _
  rw [cell_eq c.r c.e]
  exact window_update ch h.written hroom

theorem line_push (hroom : (c.e - c.r).toNat < inputBufSize) (ch : UInt8) :
    (c.push ch).line = c.line ++ [ch] := by
  have hpend := h.pending
  have hline : (c.e - c.w).toNat < inputBufSize := by omega
  change window (update c.buf (c.e.toNat % inputBufSize) ch) inputBufSize c.w.toNat
    (c.e + 1 - c.w).toNat = _
  rw [succ_sub hline le_rfl, cell_eq c.w c.e]
  exact window_push c.w.toNat ch hline

theorem Ordered.commit : Ordered { c with w := c.e } := ⟨le_rfl, h.room⟩

theorem committed_commit : committed { c with w := c.e } = c.committed ++ c.line := by
  have hpend := h.pending
  change window c.buf inputBufSize c.r.toNat (c.e - c.r).toNat = _
  rw [← hpend, Nat.add_comm, window_append]
  congr 1
  exact (window_congr (cell_eq c.r c.w) _).symm

end

theorem line_commit (c : Cons) : line { c with w := c.e } = [] := by
  rw [← length_eq_zero_iff, length_line]
  change (c.e - c.e).toNat = 0
  rw [UInt32.sub_self]
  rfl

theorem sub_succ (h : a ≠ b) : (a - (b + 1)).toNat + 1 = (a - b).toNat := by
  have hpos := sub_ne_zero.2 h
  have ha := a.toNat_lt
  have hb := b.toNat_lt
  rw [UInt32.toNat_sub] at hpos
  rw [UInt32.toNat_sub, UInt32.toNat_sub, UInt32.toNat_add]
  change (2 ^ 32 - (b.toNat + 1) % 2 ^ 32 + a.toNat) % 2 ^ 32 + 1 = _
  omega

theorem Ordered.take (h : c.Ordered) (hne : c.w ≠ c.r) : Ordered { c with r := c.r + 1 } := by
  have hle := h.written
  have hroom := h.room
  have hpos := sub_ne_zero.2 hne
  have her : c.e ≠ c.r := sub_ne_zero.1 (by omega)
  have hw := sub_succ hne
  have he := sub_succ her
  refine ⟨?_, ?_⟩
  · change (c.w - (c.r + 1)).toNat ≤ (c.e - (c.r + 1)).toNat
    omega
  · change (c.e - (c.r + 1)).toNat ≤ _
    omega

theorem committed_take (hne : c.w ≠ c.r) :
    c.committed = c.buf (c.r.toNat % inputBufSize) :: committed { c with r := c.r + 1 } := by
  have hcell : (c.r.toNat + 1) % inputBufSize = (c.r + 1).toNat % inputBufSize := by
    rw [UInt32.toNat_add]
    exact (Nat.mod_mod_of_dvd _ (by decide)).symm
  rw [committed, ← sub_succ hne, window_pop, window_congr hcell]
  rfl

end Cons

structure Holds (c : Cons) (q : Queue) : Prop where
  ordered : c.Ordered
  committed : q.committed = c.committed
  line : q.line = c.line

section Input

variable {c : Cons} {q : Queue}

section

variable (h : Holds c q)

include h

theorem Holds.length : q.committed.length + q.line.length = (c.e - c.r).toNat := by
  rw [h.committed, h.line, Cons.length_committed, Cons.length_line, Nat.add_comm]
  exact h.ordered.pending

theorem Holds.room_iff : c.e - c.r < 128 ↔ ¬q.full := by
  rw [Queue.full, h.length, not_le, UInt32.lt_iff_toNat_lt]
  rfl

theorem Holds.full_iff : c.e - c.r = 128 ↔ q.full := by
  have hroom := h.ordered.room
  rw [Queue.full, h.length, ← UInt32.toNat_inj]
  change (c.e - c.r).toNat = inputBufSize ↔ _
  omega

theorem Holds.push (hroom : ¬q.full) (ch : UInt8) :
    Holds (c.push ch) { q with line := q.line ++ [ch] } := by
  have hlt : (c.e - c.r).toNat < inputBufSize := by
    rw [← h.length]
    exact not_le.1 hroom
  refine ⟨h.ordered.push hlt ch, ?_, ?_⟩
  · rw [Cons.committed_push h.ordered hlt, ← h.committed]
  · rw [Cons.line_push h.ordered hlt, ← h.line]

theorem Holds.commit : Holds { c with w := c.e } q.commit := by
  refine ⟨h.ordered.commit, ?_, (Cons.line_commit c).symm⟩
  rw [Cons.committed_commit h.ordered, ← h.committed, ← h.line]
  rfl

theorem Holds.input (ch : UInt8) : Holds (consoleintr c ch) (q.input ch) := by
  unfold consoleintr Queue.input
  by_cases hp : ch = ctrlP
  · rw [if_pos hp, if_pos (.inr hp)]
    exact h
  · rw [if_neg hp]
    by_cases hzero : ch = 0
    · subst hzero
      rw [if_pos (Or.inl rfl), if_neg (by decide), if_neg (by decide), if_neg (by simp)]
      exact h
    · rw [if_neg (not_or.2 ⟨hzero, hp⟩)]
      by_cases hu : ch = ctrlU
      · rw [if_pos hu, if_pos hu]
        obtain ⟨hordered, hcommitted, hline⟩ := Cons.killLoop_spec h.ordered rfl
        exact ⟨hordered, by rw [hcommitted, ← h.committed], by rw [hline, ← h.line]⟩
      · rw [if_neg hu, if_neg hu]
        by_cases herase : ch = ctrlH ∨ ch = delete
        · rw [if_pos herase, if_pos herase]
          by_cases hne : c.e = c.w
          · rw [if_neg (not_not.2 hne)]
            have hnil : q.line = [] := by
              rw [← length_eq_zero_iff, h.line, Cons.length_line, hne, UInt32.sub_self]
              rfl
            refine ⟨h.ordered, h.committed, ?_⟩
            rw [← h.line, hnil]
            rfl
          · rw [if_pos hne]
            refine ⟨h.ordered.erase hne, h.committed, ?_⟩
            rw [h.line, Cons.line_erase hne, dropLast_concat]
        · rw [if_neg herase, if_neg herase]
          by_cases hfull : q.full
          · rw [if_pos hfull, if_neg fun hc => h.room_iff.1 hc.2 hfull]
            exact h
          · rw [if_neg hfull, if_pos ⟨hzero, h.room_iff.2 hfull⟩]
            dsimp only
            generalize (if ch = carriageReturn then newline else ch) = stored
            have hpush := h.push hfull stored
            simp only [hpush.full_iff]
            split_ifs
            · exact hpush.commit
            · exact hpush

end

end Input

/-- Where a process stands in `consoleread`: the variables `target` and `n`, and the bytes it
has copied out. -/
inductive Call
  | outside
  /-- At its `acquire`, or in `sleep`: it does not hold the lock. -/
  | wait (target n : ℤ) (bytes : List UInt8)
  | loop (target n : ℤ) (bytes : List UInt8)

inductive Event
  | typed (ch : UInt8)
  | took (t : ℕ) (ch : UInt8)
  | eof (t : ℕ)
  | returned (t : ℕ) (value : ℤ) (bytes : List UInt8)
deriving DecidableEq

structure System where
  cons : Cons
  lock : Option ℕ
  call : ℕ → Call
  killed : ℕ → Bool
  log : List Event

namespace System

def ret (s : System) (t : ℕ) (value : ℤ) (bytes : List UInt8) : System :=
  { s with
    lock := none
    call := update s.call t .outside
    log := s.log ++ [.returned t value bytes] }

def note (s : System) (ev : Event) : System := { s with log := s.log ++ [ev] }

/-- The next section of the `consoleread` that process `t` is in. -/
def run (s : System) (t : ℕ) : Option System :=
  match s.call t with
  | .outside => none
  | .wait target n bytes =>
    if s.lock = none then
      some { s with lock := some t, call := update s.call t (.loop target n bytes) }
    else none
  | .loop target n bytes =>
    if 0 < n then
      if s.cons.r = s.cons.w then
        if s.killed t then some (s.ret t (-1) bytes)
        else some { s with lock := none, call := update s.call t (.wait target n bytes) }
      else
        let c := s.cons.buf (s.cons.r.toNat % inputBufSize)
        let s := { s with cons := { s.cons with r := s.cons.r + 1 } }
        if c = ctrlD then
          if n < target then
            some ({ s with cons := { s.cons with r := s.cons.r - 1 } }.ret t (target - n) bytes)
          else some ((s.note (.eof t)).ret t (target - n) bytes)
        else
          let s := s.note (.took t c)
          if c = newline then some (s.ret t (target - (n - 1)) (bytes ++ [c]))
          else some { s with call := update s.call t (.loop target (n - 1) (bytes ++ [c])) }
    else some (s.ret t (target - n) bytes)

end System

inductive Step : System → System → Prop
  | intr {s : System} (ch : UInt8) (hlock : s.lock = none) :
      Step s ({ s with cons := consoleintr s.cons ch }.note (.typed ch))
  | read {s : System} {t : ℕ} (n : ℤ) (h : s.call t = .outside) :
      Step s { s with call := update s.call t (.wait n n []) }
  | run {s s' : System} {t : ℕ} (h : s.run t = some s') : Step s s'
  | kill {s : System} (t : ℕ) : Step s { s with killed := update s.killed t true }

def booted : System where
  cons := ⟨fun _ => 0, 0, 0, 0⟩
  lock := none
  call := fun _ => .outside
  killed := fun _ => false
  log := []

inductive Reached : System → Prop
  | booted : Reached booted
  | step {s s' : System} (h : Reached s) (hs : Step s s') : Reached s'

/-- The queue and the reads in progress, with the number of bytes they ask for and those they
have. -/
structure Discipline where
  queue : Queue
  reads : ℕ → Option (ℤ × List UInt8)
  log : List Event

namespace Discipline

def close (a : Discipline) (t : ℕ) (value : ℤ) (bytes : List UInt8) : Discipline :=
  { a with
    reads := update a.reads t none
    log := a.log ++ [.returned t value bytes] }

def pop (a : Discipline) (rest : List UInt8) (ev : Event) : Discipline :=
  { a with
    queue := { a.queue with committed := rest }
    log := a.log ++ [ev] }

inductive Step : Discipline → Discipline → Prop
  | typed {a : Discipline} (ch : UInt8) :
      Step a { a with queue := a.queue.input ch, log := a.log ++ [.typed ch] }
  | start {a : Discipline} {t : ℕ} (n : ℤ) (h : a.reads t = none) :
      Step a { a with reads := update a.reads t (some (n, [])) }
  | byte {a : Discipline} {t : ℕ} {n : ℤ} {bytes rest : List UInt8} {ch : UInt8}
      (h : a.reads t = some (n, bytes)) (hn : (bytes.length : ℤ) < n)
      (hq : a.queue.committed = ch :: rest) (hd : ch ≠ ctrlD) (hnl : ch ≠ newline) :
      Step a { a.pop rest (.took t ch) with
        reads := update a.reads t (some (n, bytes ++ [ch])) }
  | newline {a : Discipline} {t : ℕ} {n : ℤ} {bytes rest : List UInt8}
      (h : a.reads t = some (n, bytes)) (hn : (bytes.length : ℤ) < n)
      (hq : a.queue.committed = ConsoleInput.newline :: rest) :
      Step a ((a.pop rest (.took t ConsoleInput.newline)).close t (bytes.length + 1)
        (bytes ++ [ConsoleInput.newline]))
  /-- A control-D at the start of a read is the end of the file. -/
  | eof {a : Discipline} {t : ℕ} {n : ℤ} {rest : List UInt8}
      (h : a.reads t = some (n, [])) (hn : 0 < n) (hq : a.queue.committed = ctrlD :: rest) :
      Step a ((a.pop rest (.eof t)).close t 0 [])
  /-- A control-D after some bytes ends the read and stays for the next one. -/
  | keep {a : Discipline} {t : ℕ} {n : ℤ} {bytes rest : List UInt8}
      (h : a.reads t = some (n, bytes)) (hn : (bytes.length : ℤ) < n) (hsome : bytes ≠ [])
      (hq : a.queue.committed = ctrlD :: rest) : Step a (a.close t bytes.length bytes)
  | full {a : Discipline} {t : ℕ} {n : ℤ} {bytes : List UInt8}
      (h : a.reads t = some (n, bytes)) (hn : n ≤ bytes.length) :
      Step a (a.close t bytes.length bytes)
  | killed {a : Discipline} {t : ℕ} {n : ℤ} {bytes : List UInt8}
      (h : a.reads t = some (n, bytes)) (hq : a.queue.committed = []) :
      Step a (a.close t (-1) bytes)

inductive Reached : Discipline → Prop
  | start : Reached ⟨⟨[], [], []⟩, fun _ => none, []⟩
  | step {a a' : Discipline} (h : Reached a) (hs : Step a a') : Reached a'

end Discipline

def taken : List Event → List UInt8
  | [] => []
  | .took _ ch :: log => ch :: taken log
  | .eof _ :: log => ctrlD :: taken log
  | .typed _ :: log => taken log
  | .returned .. :: log => taken log

theorem taken_append (log log' : List Event) : taken (log ++ log') = taken log ++ taken log' := by
  induction log with
  | nil => rfl
  | cons ev log ih =>
    cases ev with
    | typed ch => exact ih
    | took t ch => exact congrArg (ch :: ·) ih
    | eof t => exact congrArg (ctrlD :: ·) ih
    | returned t value bytes => exact ih

/-- What is returned: the bytes of a line or a part of one, without a control-D. -/
def Returns (value : ℤ) (bytes : List UInt8) : Prop :=
  (value = -1 ∨ value = bytes.length) ∧ ctrlD ∉ bytes ∧ newline ∉ bytes.dropLast

namespace Discipline

/-- Committed bytes arrive in order, and every one is taken once. -/
structure Sound (a : Discipline) : Prop where
  fifo : a.queue.arrived = taken a.log ++ a.queue.committed
  reading : ∀ t n bytes, a.reads t = some (n, bytes) → ctrlD ∉ bytes ∧ newline ∉ bytes
  returned : ∀ t value bytes, Event.returned t value bytes ∈ a.log → Returns value bytes

variable {a a' : Discipline} {t : ℕ}

theorem input_fifo {q : Queue} {done : List UInt8}
    (h : q.arrived = done ++ q.committed) (ch : UInt8) :
    (q.input ch).arrived = done ++ (q.input ch).committed := by
  unfold Queue.input
  dsimp only
  generalize (if ch = carriageReturn then ConsoleInput.newline else ch) = stored
  split_ifs
  · exact h
  · exact h
  · exact h
  · exact h
  · rw [Queue.commit, h, append_assoc]
  · exact h

variable {bytes : List UInt8}

theorem Sound.close (h : a.Sound) {value : ℤ} (hreturns : Returns value bytes) :
    (a.close t value bytes).Sound := by
  refine ⟨?_, ?_, ?_⟩
  · rw [Discipline.close, taken_append, h.fifo]
    exact congrArg (· ++ _) (append_nil _).symm
  · intro u n bs hu
    rw [Discipline.close] at hu
    dsimp only at hu
    by_cases heq : u = t
    · subst heq
      rw [update_self] at hu
      cases hu
    · rw [update_of_ne heq] at hu
      exact h.reading u n bs hu
  · intro u v bs hmem
    rcases mem_append.1 hmem with hmem | hmem
    · exact h.returned u v bs hmem
    · cases mem_singleton.1 hmem
      exact hreturns

theorem Sound.pop (h : a.Sound) (ev : Event) {ch : UInt8} {rest : List UInt8}
    (hq : a.queue.committed = ch :: rest) (hev : taken [ev] = [ch])
    (hquiet : ∀ t value bytes, ev ≠ .returned t value bytes) : (a.pop rest ev).Sound := by
  refine ⟨?_, h.reading, ?_⟩
  · rw [Discipline.pop, taken_append, hev, append_assoc, singleton_append, ← hq]
    exact h.fifo
  · intro u v bs hmem
    rcases mem_append.1 hmem with hmem | hmem
    · exact h.returned u v bs hmem
    · exact absurd (mem_singleton.1 hmem).symm (hquiet u v bs)

theorem Sound.reads (h : a.Sound) {n : ℤ} (hbytes : ctrlD ∉ bytes ∧ newline ∉ bytes) :
    Sound { a with reads := update a.reads t (some (n, bytes)) } := by
  refine ⟨h.fifo, ?_, h.returned⟩
  intro u m bs hu
  dsimp only at hu
  by_cases heq : u = t
  · subst heq
    rw [update_self] at hu
    cases hu
    exact hbytes
  · rw [update_of_ne heq] at hu
    exact h.reading u m bs hu

theorem Sound.step (h : a.Sound) (hs : Step a a') : a'.Sound := by
  cases hs with
  | typed ch =>
    refine ⟨?_, h.reading, ?_⟩
    · rw [taken_append]
      exact input_fifo (h.fifo.trans (congrArg (· ++ _) (append_nil _).symm)) ch
    · intro u v bs hmem
      rcases mem_append.1 hmem with hmem | hmem
      · exact h.returned u v bs hmem
      · cases mem_singleton.1 hmem
  | start n hnone => exact h.reads ⟨not_mem_nil, not_mem_nil⟩
  | @byte t n bytes rest ch hreads hn hq hd hnl =>
    obtain ⟨hbd, hbn⟩ := h.reading _ _ _ hreads
    refine (h.pop (.took t ch) hq rfl fun _ _ _ heq => nomatch heq).reads ⟨?_, ?_⟩
    · rw [mem_append, mem_singleton, not_or]
      exact ⟨hbd, hd.symm⟩
    · rw [mem_append, mem_singleton, not_or]
      exact ⟨hbn, hnl.symm⟩
  | @newline t n bytes rest hreads hn hq =>
    obtain ⟨hbd, hbn⟩ := h.reading _ _ _ hreads
    refine (h.pop (.took t _) hq rfl fun _ _ _ heq => nomatch heq).close ⟨.inr ?_, ?_, ?_⟩
    · rw [length_append, length_singleton]
      rfl
    · rw [mem_append, mem_singleton, not_or]
      exact ⟨hbd, by decide⟩
    · rw [dropLast_concat]
      exact hbn
  | @eof t n rest hreads hn hq =>
    refine (h.pop (.eof t) hq rfl fun _ _ _ heq => nomatch heq).close ⟨.inr rfl, ?_, ?_⟩
    · exact not_mem_nil
    · exact not_mem_nil
  | keep hreads hn hsome hq =>
    obtain ⟨hbd, hbn⟩ := h.reading _ _ _ hreads
    exact h.close ⟨.inr rfl, hbd, fun hmem => hbn (mem_of_mem_dropLast hmem)⟩
  | full hreads hn =>
    obtain ⟨hbd, hbn⟩ := h.reading _ _ _ hreads
    exact h.close ⟨.inr rfl, hbd, fun hmem => hbn (mem_of_mem_dropLast hmem)⟩
  | killed hreads hq =>
    obtain ⟨hbd, hbn⟩ := h.reading _ _ _ hreads
    exact h.close ⟨.inl rfl, hbd, fun hmem => hbn (mem_of_mem_dropLast hmem)⟩

theorem Reached.sound (h : Reached a) : a.Sound := by
  induction h with
  | start => exact ⟨rfl, nofun, nofun⟩
  | step _ hs ih => exact ih.step hs

end Discipline

namespace Call

def read : Call → Option (ℤ × List UInt8)
  | outside => none
  | wait target _ bytes => some (target, bytes)
  | loop target _ bytes => some (target, bytes)

def Counts : Call → Prop
  | outside => True
  | wait target n bytes => target = n + bytes.length
  | loop target n bytes => target = n + bytes.length

end Call

structure Refines (s : System) (a : Discipline) : Prop where
  holds : Holds s.cons a.queue
  reads : a.reads = fun t => (s.call t).read
  counts : ∀ t, (s.call t).Counts
  log : a.log = s.log

section Simulation

variable {s s' : System} {a : Discipline} {t : ℕ}

variable {k : Call} {q : Queue}

theorem Refines.move (h : Refines s a) (hk : k.Counts) {c : Cons} (hholds : Holds c q)
    (lock : Option ℕ) (log : List Event) :
    Refines { s with cons := c, lock := lock, call := update s.call t k, log := log }
      { queue := q, reads := update a.reads t k.read, log := log } := by
  refine ⟨hholds, ?_, ?_, rfl⟩
  · funext u
    dsimp only
    by_cases hu : u = t
    · subst hu
      rw [update_self, update_self]
    · rw [update_of_ne hu, update_of_ne hu, h.reads]
  · intro u
    dsimp only
    by_cases hu : u = t
    · subst hu
      rw [update_self]
      exact hk
    · rw [update_of_ne hu]
      exact h.counts u

theorem Refines.stay (h : Refines s a) (hk : k.Counts) (hread : k.read = (s.call t).read)
    (lock : Option ℕ) : Refines { s with lock := lock, call := update s.call t k } a := by
  have hsame : update a.reads t k.read = a.reads := by
    rw [hread, h.reads]
    exact update_eq_self t _
  have hmove := h.move (t := t) hk h.holds lock s.log
  rw [hsame, ← h.log] at hmove
  rw [← h.log]
  exact hmove

theorem Holds.pop {c : Cons} (h : Holds c q) (hne : c.r ≠ c.w) :
    ∃ rest, q.committed = c.buf (c.r.toNat % inputBufSize) :: rest ∧
      Holds { c with r := c.r + 1 } { q with committed := rest } := by
  refine ⟨Cons.committed { c with r := c.r + 1 }, ?_, h.ordered.take hne.symm, rfl, h.line⟩
  rw [h.committed, Cons.committed_take hne.symm]

theorem Refines.run (h : Refines s a) (hrun : s.run t = some s') :
    ∃ a', (a' = a ∨ Discipline.Step a a') ∧ Refines s' a' := by
  have hcounts := h.counts t
  have hreads : a.reads t = (s.call t).read := by rw [h.reads]
  unfold System.run at hrun
  cases hcall : s.call t with
  | outside =>
    rw [hcall] at hrun
    cases hrun
  | wait target n bytes =>
    rw [hcall] at hrun hcounts
    dsimp only at hrun
    split_ifs at hrun with hlock
    cases hrun
    refine ⟨a, .inl rfl, h.stay (k := .loop target n bytes) hcounts ?_ _⟩
    exact (congrArg Call.read hcall).symm
  | loop target n bytes =>
    rw [hcall] at hrun hcounts hreads
    have htarget : target = n + bytes.length := hcounts
    have hvalue : target - n = bytes.length := by omega
    dsimp only at hrun
    by_cases hn : 0 < n
    · rw [if_pos hn] at hrun
      by_cases hempty : s.cons.r = s.cons.w
      · rw [if_pos hempty] at hrun
        split_ifs at hrun with hkilled
        · cases hrun
          have hnil : a.queue.committed = [] := by
            rw [h.holds.committed, ← length_eq_zero_iff, Cons.length_committed, hempty,
              UInt32.sub_self]
            rfl
          refine ⟨_, .inr (.killed hreads hnil), ?_⟩
          rw [Discipline.close, h.log]
          exact h.move (k := .outside) trivial h.holds none _
        · cases hrun
          refine ⟨a, .inl rfl, h.stay (k := .wait target n bytes) hcounts ?_ _⟩
          exact (congrArg Call.read hcall).symm
      · rw [if_neg hempty] at hrun
        obtain ⟨rest, hfront, hpop⟩ := h.holds.pop hempty
        set c := s.cons.buf (s.cons.r.toNat % inputBufSize) with hc
        split_ifs at hrun with hd hkeep hnl
        · cases hrun
          rw [hd] at hfront
          have hsome : bytes ≠ [] := by
            rintro rfl
            rw [length_nil] at htarget
            omega
          refine ⟨_, .inr (.keep hreads (by omega) hsome hfront), ?_⟩
          have hback : s.cons.r + 1 - 1 = s.cons.r := UInt32.add_sub_cancel ..
          rw [Discipline.close, h.log, System.ret, hback, hvalue]
          exact h.move (k := .outside) trivial h.holds none _
        · cases hrun
          rw [hd] at hfront
          obtain rfl : bytes = [] := by
            rw [← length_eq_zero_iff]
            omega
          have hpos : 0 < target := by
            rw [htarget, length_nil, Nat.cast_zero, add_zero]
            exact hn
          refine ⟨_, .inr (.eof hreads hpos hfront), ?_⟩
          rw [Discipline.close, Discipline.pop, h.log, System.ret, System.note, hvalue]
          exact h.move (k := .outside) trivial hpop none _
        · cases hrun
          rw [hnl] at hfront
          refine ⟨_, .inr (.newline hreads (by omega) hfront), ?_⟩
          have hlast : target - (n - 1) = bytes.length + 1 := by omega
          rw [Discipline.close, Discipline.pop, h.log, System.ret, System.note, hlast, hnl]
          exact h.move (k := .outside) trivial hpop none _
        · cases hrun
          refine ⟨_, .inr (.byte hreads (by omega) hfront hd hnl), ?_⟩
          rw [Discipline.pop, h.log, System.note]
          refine h.move (k := .loop target (n - 1) (bytes ++ [c])) ?_ hpop s.lock _
          change target = n - 1 + ((bytes ++ [c]).length : ℤ)
          rw [length_append, length_singleton]
          push_cast
          omega
    · rw [if_neg hn] at hrun
      cases hrun
      refine ⟨_, .inr (.full hreads (by omega)), ?_⟩
      rw [Discipline.close, h.log, System.ret, hvalue]
      exact h.move (k := .outside) trivial h.holds none _

theorem Refines.step (h : Refines s a) (hs : Step s s') :
    ∃ a', (a' = a ∨ Discipline.Step a a') ∧ Refines s' a' := by
  cases hs with
  | intr ch hlock =>
    refine ⟨_, .inr (.typed ch), h.holds.input ch, h.reads, h.counts, ?_⟩
    rw [h.log]
    rfl
  | @read t n hout =>
    refine ⟨_, .inr (.start (t := t) n ?_), ?_⟩
    · rw [h.reads]
      dsimp only
      rw [hout]
      rfl
    · rw [h.log]
      exact h.move (k := .wait n n []) (by simp [Call.Counts]) h.holds s.lock _
  | run hrun => exact h.run hrun
  | kill t => exact ⟨a, .inl rfl, h.holds, h.reads, h.counts, h.log⟩

theorem Reached.refines (h : Reached s) : ∃ a, Discipline.Reached a ∧ Refines s a := by
  induction h with
  | booted =>
    refine ⟨_, .start, ⟨⟨?_, ?_⟩, ?_, ?_⟩, rfl, fun _ => trivial, rfl⟩
    · exact le_rfl
    · decide
    · rfl
    · rfl
  | step _ hs ih =>
    obtain ⟨a, hreached, hrefines⟩ := ih
    obtain ⟨a', hstep, hrefines'⟩ := hrefines.step hs
    rcases hstep with rfl | hstep
    · exact ⟨a', hreached, hrefines'⟩
    · exact ⟨a', hreached.step hstep, hrefines'⟩

theorem Reached.counts (h : Reached s) (t : ℕ) : (s.call t).Counts := by
  obtain ⟨a, -, hrefines⟩ := h.refines
  exact hrefines.counts t

variable {target n : ℤ} {bytes rest : List UInt8} {c : UInt8}

end Simulation

end Xv6MallocLab.ConsoleInput
