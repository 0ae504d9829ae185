import Xv6MallocLab.ProcTable

/-!
# Sleep and wakeup

`sleep` takes the process's own lock before it drops `lk` and becomes `SLEEPING` under
it; `wakeup` looks at one process after another under that process's lock.  Each
`acquire` and `release`, with the accesses up to the next one, is a step.
-/

namespace Xv6MallocLab.SleepWakeup

open Function

open ProcTable (Slot ProcState nproc)

inductive Cause
  | sleep (again : Bool)
  | yield (again : Bool)
  deriving DecidableEq

inductive Place
  | out
  | inside
  /-- In `sleep(chan, lk)`, before `acquire(&p->lock)`. -/
  | sleepCall
  /-- In `sleep`, before `release(lk)`. -/
  | sleepLocked
  /-- In `sleep`, before `p->chan = chan; p->state = SLEEPING`. -/
  | sleepReady (chan : ℕ) (again : Bool)
  /-- In `yield`, before `p->state = RUNNABLE`. -/
  | yieldLocked (again : Bool)
  /-- In `sched`: the scheduler has not yet released `p->lock`. -/
  | switching (c : Cause)
  | gone (c : Cause)
  /-- Back from `sched`, holding `p->lock`. -/
  | resumed (c : Cause)
  /-- In `sleep`, before `acquire(lk)`. -/
  | reacquire
  /-- In `wakeup(chan)`, at the head of the loop. -/
  | scanning (k : ℕ)
  /-- In `wakeup(chan)`, holding the lock of process `k`. -/
  | examining (k : Slot)
  /-- In `kill` or a `wakeup` of another channel, holding the lock of process `k`. -/
  | poking (k : Slot)
  deriving DecidableEq

@[grind] def Cause.next : Cause → Place
  | .sleep again | .yield again => if again then .reacquire else .out

/-- A process.  `locked` is its `p->lock`; `signalled` records that a `wakeup`
issued after its last check of the condition has returned and the condition has
not been made false since. -/
structure Thread where
  place : Place
  state : ProcState
  chan : Option ℕ
  locked : Bool
  signalled : Bool

structure Machine where
  lk : Option Slot
  cond : Bool
  thread : Slot → Thread

namespace Machine

def set (s : Machine) (p : Slot) (t : Thread) : Machine :=
  { s with thread := update s.thread p t }

def goto (s : Machine) (p : Slot) (q : Place) : Machine := s.set p { s.thread p with place := q }

def hand (s : Machine) (owner : Option Slot) : Machine := { s with lk := owner }

def lockProc (s : Machine) (k : Slot) : Machine := s.set k { s.thread k with locked := true }

def unlockProc (s : Machine) (k : Slot) : Machine := s.set k { s.thread k with locked := false }

def rouse (s : Machine) (k : Slot) (b : Bool) : Machine :=
  s.set k { s.thread k with
    state := if (s.thread k).state = .sleeping ∧ b then .runnable else (s.thread k).state }

def withSignals (s : Machine) (f : Slot → Bool) : Machine :=
  { s with thread := fun q => { s.thread q with signalled := f q } }

/-- The assignment of the condition.  Making it false takes every signal back. -/
def assign (s : Machine) (b : Bool) : Machine :=
  { s.withSignals fun q => b && (s.thread q).signalled with cond := b }

/-- A `wakeup` of process `p` returns: if the condition is true now, every other
process has been signalled. -/
def signal (s : Machine) (p : Slot) : Machine :=
  (s.withSignals fun q => (s.cond && q ≠ p) || (s.thread q).signalled).goto p .inside

end Machine

/-- One step; `chan` is the channel and `lk` the lock the processes agree on. -/
inductive Step (chan : ℕ) : Machine → Machine → Prop
  | acquire {s : Machine} {p : Slot}
      (hp : (s.thread p).place = .out ∨ (s.thread p).place = .reacquire) (hlk : s.lk = none) :
      Step chan s ((s.goto p .inside).hand (some p))
  | release {s : Machine} {p : Slot} (hp : (s.thread p).place = .inside) :
      Step chan s ((s.goto p .out).hand none)
  | assign {s : Machine} {p : Slot} (b : Bool) (hp : (s.thread p).place = .inside) :
      Step chan s (s.assign b)
  /-- The process finds the condition false and calls `sleep`. -/
  | check {s : Machine} {p : Slot} (hp : (s.thread p).place = .inside) (hcond : s.cond = false) :
      Step chan s (s.set p { s.thread p with place := .sleepCall, signalled := false })
  | sleepLock {s : Machine} {p : Slot} (hp : (s.thread p).place = .sleepCall)
      (hfree : (s.thread p).locked = false) :
      Step chan s (s.set p { s.thread p with place := .sleepLocked, locked := true })
  | sleepRelease {s : Machine} {p : Slot} (hp : (s.thread p).place = .sleepLocked) :
      Step chan s ((s.goto p (.sleepReady chan true)).hand none)
  /-- `sleep` on another channel with another lock. -/
  | sleepOther {s : Machine} {p : Slot} {c : ℕ} (hc : c ≠ chan)
      (hp : (s.thread p).place = .out) (hfree : (s.thread p).locked = false) :
      Step chan s (s.set p { s.thread p with place := .sleepReady c false, locked := true })
  | fallAsleep {s : Machine} {p : Slot} {c : ℕ} {again : Bool}
      (hp : (s.thread p).place = .sleepReady c again) :
      Step chan s (s.set p { s.thread p with
        place := .switching (.sleep again), chan := some c, state := .sleeping })
  | yieldLock {s : Machine} {p : Slot} {again : Bool}
      (hp : (s.thread p).place = if again then .reacquire else .out)
      (hfree : (s.thread p).locked = false) :
      Step chan s (s.set p { s.thread p with place := .yieldLocked again, locked := true })
  | yieldSwitch {s : Machine} {p : Slot} {again : Bool}
      (hp : (s.thread p).place = .yieldLocked again) :
      Step chan s (s.set p { s.thread p with
        place := .switching (.yield again), state := .runnable })
  | schedRelease {s : Machine} {p : Slot} {c : Cause} (hp : (s.thread p).place = .switching c) :
      Step chan s (s.set p { s.thread p with place := .gone c, locked := false })
  | schedule {s : Machine} {p : Slot} {c : Cause} (hp : (s.thread p).place = .gone c)
      (hrun : (s.thread p).state = .runnable) (hfree : (s.thread p).locked = false) :
      Step chan s (s.set p { s.thread p with
        place := .resumed c, state := .running, locked := true })
  /-- The end of `sleep`: `p->chan = 0; release(&p->lock)`. -/
  | sleepEnd {s : Machine} {p : Slot} {again : Bool}
      (hp : (s.thread p).place = .resumed (.sleep again)) :
      Step chan s (s.set p { s.thread p with
        place := Cause.next (.sleep again), chan := none, locked := false })
  | yieldEnd {s : Machine} {p : Slot} {again : Bool}
      (hp : (s.thread p).place = .resumed (.yield again)) :
      Step chan s (s.set p { s.thread p with
        place := Cause.next (.yield again), locked := false })
  | wakeup {s : Machine} {p : Slot} (hp : (s.thread p).place = .inside) :
      Step chan s (s.goto p (.scanning 0))
  /-- `p != myproc()` fails. -/
  | scanSkip {s : Machine} {p : Slot} (hp : (s.thread p).place = .scanning p.val) :
      Step chan s (s.goto p (.scanning (p.val + 1)))
  | scanLock {s : Machine} {p k : Slot} (hp : (s.thread p).place = .scanning k.val) (hk : k ≠ p)
      (hfree : (s.thread k).locked = false) :
      Step chan s ((s.lockProc k).goto p (.examining k))
  | examine {s : Machine} {p k : Slot} (hp : (s.thread p).place = .examining k) :
      Step chan s (((s.rouse k ((s.thread k).chan = some chan)).goto p
        (.scanning (k.val + 1))).unlockProc k)
  | scanDone {s : Machine} {p : Slot} {k : ℕ} (hp : (s.thread p).place = .scanning k)
      (hk : nproc ≤ k) : Step chan s (s.signal p)
  | pokeLock {s : Machine} {p k : Slot} (hp : (s.thread p).place = .out) (hk : k ≠ p)
      (hfree : (s.thread k).locked = false) :
      Step chan s ((s.lockProc k).goto p (.poking k))
  | poke {s : Machine} {p k : Slot} (wake : Bool) (hp : (s.thread p).place = .poking k) :
      Step chan s (((s.rouse k wake).goto p .out).unlockProc k)

structure Machine.Initial (s : Machine) : Prop where
  lk : s.lk = none
  thread : ∀ p, (s.thread p).locked = false ∧ (s.thread p).chan = none ∧
    (s.thread p).signalled = false ∧
    (((s.thread p).place = .out ∧ (s.thread p).state = .running) ∨
      ((s.thread p).place = .gone (.yield false) ∧ (s.thread p).state ≠ .sleeping))

inductive Reached (chan : ℕ) : Machine → Prop
  | initial {s : Machine} (h : s.Initial) : Reached chan s
  | step {s s' : Machine} (h : Reached chan s) (hs : Step chan s s') : Reached chan s'

namespace Place

@[grind] def holdsLk : Place → Bool
  | .inside | .sleepCall | .sleepLocked | .scanning _ | .examining _ => true
  | _ => false

@[grind] def holdsOwn : Place → Bool
  | .sleepLocked | .sleepReady .. | .yieldLocked _ | .switching _ | .resumed _ => true
  | _ => false

@[grind] def touches : Place → Option Slot
  | .examining k | .poking k => some k
  | _ => none

@[grind] def progress : Place → Option ℕ
  | .scanning k => some k
  | .examining k => some k.val
  | _ => none

@[grind] def switched : Place → Bool
  | .switching _ | .gone _ => true
  | _ => false

theorem holdsLk_of_progress {q : Place} {k : ℕ} (h : q.progress = some k) : q.holdsLk = true := by
  cases q <;> simp_all [progress, holdsLk]

end Place

/-- The process sleeps on the channel, or has found the condition false and will. -/
@[grind] def Thread.Committed (chan : ℕ) (t : Thread) : Prop :=
  t.place = .sleepCall ∨ t.place = .sleepLocked ∨ (∃ again, t.place = .sleepReady chan again) ∨
    (t.state = .sleeping ∧ t.chan = some chan)

/-- Who holds which lock, and whom a scan may not have missed. -/
structure Invariant (chan : ℕ) (s : Machine) : Prop where
  lk : ∀ p, (s.thread p).place.holdsLk = true → s.lk = some p
  own : ∀ p, (s.thread p).place.holdsOwn = true →
    (s.thread p).locked = true ∧ ∀ q, (s.thread q).place.touches ≠ some p
  touch : ∀ p k, (s.thread p).place.touches = some k →
    k ≠ p ∧ (s.thread k).locked = true ∧ ∀ q, (s.thread q).place.touches = some k → q = p
  asleep : ∀ p, (s.thread p).state = .sleeping → (s.thread p).place.switched = true
  signal : ∀ p, (s.thread p).signalled = true → ¬ (s.thread p).Committed chan
  scan : ∀ p k, (s.thread p).place.progress = some k →
    ∀ q, q.val < k → q ≠ p → ¬ (s.thread q).Committed chan

/-- In `sleep` on the channel, before the process becomes `SLEEPING`. -/
def Place.settling (chan : ℕ) (q : Place) : Prop :=
  q = .sleepCall ∨ q = .sleepLocked ∨ ∃ again, q = .sleepReady chan again

variable {chan : ℕ} {s : Machine}

theorem not_committed {t : Thread} (hplace : ¬ t.place.settling chan) (hrun : t.state ≠ .sleeping) :
    ¬ t.Committed chan := by
  rintro (hc | hc | hc | hc)
  · exact hplace (.inl hc)
  · exact hplace (.inr (.inl hc))
  · exact hplace (.inr (.inr hc))
  · exact hrun hc.1

namespace Invariant

variable {chan : ℕ} {s s' : Machine} {p k : Slot}

theorem initial (h : s.Initial) : Invariant chan s := by
  have hplace : ∀ p, (s.thread p).place = .out ∨ (s.thread p).place = .gone (.yield false) :=
    fun p => (h.thread p).2.2.2.imp And.left And.left
  constructor
  case lk => grind -ring -linarith
  case own => grind -ring -linarith
  case touch => grind -ring -linarith
  case asleep =>
    intro p hp
    obtain ⟨-, -, -, ⟨-, hrun⟩ | ⟨-, hrun⟩⟩ := h.thread p
    · simp [hrun] at hp
    · exact absurd hp hrun
  case signal =>
    intro p hp
    simp [(h.thread p).2.2.1] at hp
  case scan => grind -ring -linarith

section

variable (h : Invariant chan s)

include h

theorem untouched_of_free (hk : (s.thread k).locked = false) (q : Slot) :
    (s.thread q).place.touches ≠ some k := by
  intro hq
  simp [(h.touch q k hq).2.1] at hk

theorem touch_spec (hp : (s.thread p).place.touches = some k) :
    k ≠ p ∧ (s.thread k).locked = true ∧ (s.thread k).place.holdsOwn = false ∧
      ∀ q, q ≠ p → (s.thread q).place.touches ≠ some k := by
  obtain ⟨hne, hlocked, honly⟩ := h.touch p k hp
  refine ⟨hne, hlocked, ?_, fun q hq hqk => hq (honly q hqk)⟩
  by_contra hown
  exact (h.own k (by simpa using hown)).2 p hp

variable {t : Thread} {q : Place}

theorem update {o : Option Slot} (hlk : t.place.holdsLk = true → o = some p)
    (howner : o = s.lk ∨ s.lk = none ∨ (s.thread p).place.holdsLk = true)
    (hown : t.place.holdsOwn = true →
      t.locked = true ∧ ∀ q, q ≠ p → (s.thread q).place.touches ≠ some p)
    (hlocked : t.locked = true ∨ ∀ q, q ≠ p → (s.thread q).place.touches ≠ some p)
    (htouch : ∀ k, t.place.touches = some k → k ≠ p ∧ (s.thread k).locked = true ∧
      (s.thread k).place.holdsOwn = false ∧ ∀ q, q ≠ p → (s.thread q).place.touches ≠ some k)
    (hasleep : t.state = .sleeping → t.place.switched = true) (hsignal : t.signalled = true →
      (s.thread p).signalled = true ∧ (t.Committed chan → (s.thread p).Committed chan))
    (hscan : ∀ k, t.place.progress = some k → ∀ q, q.val < k → q ≠ p →
      ¬ (s.thread q).Committed chan)
    (hcommit : t.Committed chan → (s.thread p).Committed chan ∨ (s.thread p).place.holdsLk = true) :
    Invariant chan ((s.set p t).hand o) := by
  have hthread : ∀ q, ((s.set p t).hand o).thread q = if q = p then t else s.thread q := by
    intro q
    simp [Machine.hand, Machine.set, update_apply]
  constructor
  case lk =>
    intro q hq
    rw [hthread] at hq
    change o = some q
    have := h.lk q
    have := h.lk p
    grind -ring -linarith
  case own =>
    intro q hq
    simp only [hthread] at hq ⊢
    have := h.own q
    grind -ring -linarith
  case touch =>
    intro q k hq
    simp only [hthread] at hq ⊢
    have := h.touch q k
    grind -ring -linarith
  case asleep =>
    intro q hq
    rw [hthread] at hq ⊢
    have := h.asleep q
    grind -ring -linarith
  case signal =>
    intro q hq
    rw [hthread] at hq ⊢
    have := h.signal q
    grind -ring -linarith
  case scan =>
    intro w k hw q hqk hqw
    simp only [hthread] at hw ⊢
    by_cases hwp : w = p
    · subst hwp
      rw [if_neg hqw]
      exact hscan k (by simpa using hw) q hqk hqw
    · rw [if_neg hwp] at hw
      have hq := h.scan w k hw q hqk hqw
      split_ifs with hqp
      · subst hqp
        intro hc
        -- a process that now goes to sleep holds `lk`, and so does the one that scans
        have hlkw := h.lk w (Place.holdsLk_of_progress hw)
        have hlkq := h.lk q ((hcommit hc).resolve_left hq)
        rw [hlkw] at hlkq
        exact hqw (Option.some.inj hlkq).symm
      · exact hq

theorem set (hlk : t.place.holdsLk = true → (s.thread p).place.holdsLk = true)
    (hown : t.place.holdsOwn = true →
      t.locked = true ∧ ((s.thread p).place.holdsOwn = true ∨ (s.thread p).locked = false))
    (hlocked : t.locked = (s.thread p).locked ∨ t.locked = true ∨
      (s.thread p).place.holdsOwn = true)
    (htouch : ∀ k, t.place.touches = some k → (s.thread p).place.touches = some k)
    (hasleep : t.state = .sleeping → t.place.switched = true) (hsignal : t.signalled = true →
      (s.thread p).signalled = true ∧ (t.Committed chan → (s.thread p).Committed chan))
    (hscan : ∀ k, t.place.progress = some k → ∀ q, q.val < k → q ≠ p →
      ¬ (s.thread q).Committed chan)
    (hcommit : t.Committed chan → (s.thread p).Committed chan ∨ (s.thread p).place.holdsLk = true) :
    Invariant chan (s.set p t) := by
  refine h.update (o := s.lk) (fun hin => h.lk p (hlk hin)) (.inl rfl) (fun ho => ?_) ?_
    (fun k hk => h.touch_spec (htouch k hk)) hasleep hsignal hscan hcommit
  · obtain ⟨hl, hold⟩ := hown ho
    refine ⟨hl, fun q _ => ?_⟩
    cases hold with
    | inl hown' => exact (h.own p hown').2 q
    | inr hfree => exact h.untouched_of_free hfree q
  · rcases hlocked with hl | hl | ho
    · by_cases hfree : (s.thread p).locked = true
      · exact .inl (hl.trans hfree)
      · exact .inr fun q _ => h.untouched_of_free (by simpa using hfree) q
    · exact .inl hl
    · exact .inr fun q _ => (h.own p ho).2 q

theorem withSignals {f : Slot → Bool} (hf : ∀ q, f q = true → ¬ (s.thread q).Committed chan) :
    Invariant chan (s.withSignals f) :=
  ⟨h.lk, h.own, h.touch, h.asleep, hf, h.scan⟩

theorem assign (b : Bool) : Invariant chan (s.assign b) := by
  have hsig := h.withSignals (f := fun q => b && (s.thread q).signalled) fun q hq =>
    h.signal q (by simp_all)
  exact { hsig with }

theorem not_sleeping (hp : (s.thread p).place = q) (hq : q.switched = false) :
    (s.thread p).state ≠ .sleeping := by
  intro hs
  simp [← hp, h.asleep p hs] at hq

theorem lookAt (hk : k ≠ p) (hfree : (s.thread k).locked = false) (hq : q.touches = some k)
    (hlk : q.holdsLk = (s.thread p).place.holdsLk)
    (hprogress : q.progress = (s.thread p).place.progress)
    (hrun : (s.thread p).place.switched = false) : Invariant chan ((s.lockProc k).goto p q) := by
  have hstill : (s.thread k).place.holdsOwn = false := by
    by_contra hown
    simp [(h.own k (by simpa using hown)).1] at hfree
  have hlocked : Invariant chan (s.lockProc k) := by
    refine h.set ?_ ?_ ?_ ?_ (h.asleep k) (fun hs => ⟨hs, id⟩) (h.scan k) .inl <;> grind -ring -linarith
  have hthread : ∀ r, (s.lockProc k).thread r =
      if r = k then { s.thread k with locked := true } else s.thread r := by
    intro r
    simp [Machine.lockProc, Machine.set, update_apply]
  have hplace : ∀ r, ((s.lockProc k).thread r).place = (s.thread r).place := by
    intro r
    rw [hthread]
    split_ifs with hr
    · rw [hr]
    · rfl
  have hsleep := h.not_sleeping rfl hrun
  refine hlocked.update (p := p) (o := s.lk) ?_ (.inl rfl) ?_ ?_ ?_ ?_ ?_ ?_ ?_
  · exact fun hin => h.lk p (hlk ▸ hin)
  · intro hown
    cases q <;> simp_all [Place.touches, Place.holdsOwn]
  · by_cases hl : (s.thread p).locked = true
    · exact .inl (by simp [hthread, hk.symm, hl])
    · refine .inr fun r _ => ?_
      rw [hplace]
      exact h.untouched_of_free (by simpa using hl) r
  · intro j hj
    obtain rfl : k = j := Option.some.inj (hq.symm.trans hj)
    refine ⟨hk, by simp [hthread], by rw [hplace]; exact hstill, fun r _ => ?_⟩
    rw [hplace]
    exact h.untouched_of_free hfree r
  · intro hs
    simp [hthread, hk.symm, hsleep] at hs
  · intro hs
    refine ⟨hs, fun hc => absurd hc ?_⟩
    simp only [hthread, hk.symm, if_false]
    grind -ring -linarith
  · intro j hj
    exact hlocked.scan p j (by rw [hplace, ← hprogress]; exact hj)
  · intro hc
    simp only [hthread, hk.symm, if_false] at hc
    grind -ring -linarith

theorem lookAway (hp : (s.thread p).place.touches = some k) {b : Bool} (hq : q.touches = none)
    (hown : q.holdsOwn = false) (hlk : q.holdsLk = true → (s.thread p).place.holdsLk = true)
    (hscan : ∀ j, q.progress = some j → ∀ r, r.val < j → r ≠ p →
      ¬ ((s.rouse k b).thread r).Committed chan)
    (hplace : q ≠ .sleepCall ∧ q ≠ .sleepLocked ∧ ∀ c b, q ≠ .sleepReady c b) :
    Invariant chan (((s.rouse k b).goto p q).unlockProc k) := by
  obtain ⟨hkp, hlocked, hstill, honly⟩ := h.touch_spec hp
  have hrun := h.not_sleeping (p := p) rfl (by
    cases hplace : (s.thread p).place <;> simp_all [Place.touches, Place.switched])
  have hroused : Invariant chan (s.rouse k b) := by
    refine h.set id (fun ho => ?_) (.inl rfl) (fun _ hj => hj) ?_ ?_ (h.scan k) ?_
    · simp [hstill] at ho
    · have := h.asleep k
      grind -ring -linarith
    · grind -ring -linarith
    · grind -ring -linarith
  have hpk : (s.rouse k b).thread p = s.thread p := by
    simp [Machine.rouse, Machine.set, hkp.symm]
  have hmoved : Invariant chan ((s.rouse k b).goto p q) := by
    refine hroused.set (by rw [hpk]; exact hlk) ?_ (.inl rfl) ?_ ?_ ?_ hscan ?_ <;>
      simp only [hpk] <;> grind -ring -linarith
  have hthread : ∀ r, (((s.rouse k b).goto p q).thread r).place =
      if r = p then q else (s.thread r).place := by
    intro r
    by_cases hr : r = p
    · simp [Machine.goto, Machine.set, hr]
    · by_cases hrk : r = k
      · subst hrk
        simp [Machine.goto, Machine.set, Machine.rouse, hr]
      · simp [Machine.goto, Machine.set, Machine.rouse, hr, hrk]
  refine hmoved.update (p := k) (o := s.lk) (hmoved.lk k) (.inl rfl) ?_ ?_ ?_ (hmoved.asleep k)
    (fun hs => ⟨hs, id⟩) (hmoved.scan k) .inl
  · intro ho
    have : (s.thread k).place.holdsOwn = true := by
      simpa [hthread, hkp] using ho
    simp [hstill] at this
  · refine .inr fun r _ => ?_
    rw [hthread]
    split_ifs with hr
    · simp [hq]
    · exact honly r hr
  · exact fun j hj => hmoved.touch_spec hj

theorem locked_or_untouched (p : Slot) :
    (s.thread p).locked = true ∨ ∀ q, q ≠ p → (s.thread q).place.touches ≠ some p := by
  by_cases hl : (s.thread p).locked = true
  · exact .inl hl
  · exact .inr fun q _ => h.untouched_of_free (by simpa using hl) q

/-- A step after which the process runs and is not on its way to sleep. -/
theorem set_awake (hrun : t.state ≠ .sleeping) (hplace : ¬ t.place.settling chan)
    (hsignal : t.signalled = (s.thread p).signalled)
    (hlk : t.place.holdsLk = true → (s.thread p).place.holdsLk = true)
    (hown : t.place.holdsOwn = true →
      t.locked = true ∧ ((s.thread p).place.holdsOwn = true ∨ (s.thread p).locked = false))
    (hlocked : t.locked = (s.thread p).locked ∨ t.locked = true ∨
      (s.thread p).place.holdsOwn = true)
    (htouch : ∀ k, t.place.touches = some k → (s.thread p).place.touches = some k)
    (hscan : ∀ k, t.place.progress = some k → ∀ q, q.val < k → q ≠ p →
      ¬ (s.thread q).Committed chan) : Invariant chan (s.set p t) :=
  have hnot := not_committed hplace hrun
  h.set hlk hown hlocked htouch (fun hs => absurd hs hrun)
    (fun hs => ⟨hsignal ▸ hs, fun hc => absurd hc hnot⟩) hscan fun hc => absurd hc hnot

/-- The end of `sleep` or `yield`, which releases `p->lock`. -/
theorem sched_end {c : Cause} (hp : (s.thread p).place = .resumed c) (hplace : t.place = c.next)
    (hstate : t.state = (s.thread p).state) (hsignal : t.signalled = (s.thread p).signalled) :
    Invariant chan (s.set p t) := by
  have hrun : t.state ≠ .sleeping := hstate ▸ h.not_sleeping hp rfl
  have hheld : (s.thread p).place.holdsOwn = true := by rw [hp]; rfl
  have hout : t.place = .reacquire ∨ t.place = .out := by
    rw [hplace]
    rcases c with (_ | _) | (_ | _)
    · exact .inr rfl
    · exact .inl rfl
    · exact .inr rfl
    · exact .inl rfl
  refine h.set_awake hrun ?_ hsignal ?_ ?_ (.inr (.inr hheld)) ?_ ?_
  all_goals rcases hout with h | h <;> rw [h] <;> nofun

theorem signal_done {k : ℕ} (hp : (s.thread p).place = .scanning k) (hk : nproc ≤ k) :
    Invariant chan (s.signal p) := by
  have hall : ∀ q, q ≠ p → ¬ (s.thread q).Committed chan := fun q hq =>
    h.scan p k (by rw [hp]; rfl) q (q.isLt.trans_le hk) hq
  have hsig : Invariant chan
      (s.withSignals fun q => (s.cond && q ≠ p) || (s.thread q).signalled) := by
    refine h.withSignals fun q hq => ?_
    by_cases hqp : q = p
    · exact h.signal q (by simpa [hqp] using hq)
    · exact hall q hqp
  have hrun := h.not_sleeping hp rfl
  have hin : (s.thread p).place.holdsLk = true := by rw [hp]; rfl
  exact hsig.set_awake hrun nofun rfl (fun _ => hin) nofun (.inl rfl) nofun nofun

/-- The scanning process goes on to `k`, having found nobody committed before. -/
theorem scan_on {k : ℕ} (hrun : (s.thread p).state ≠ .sleeping)
    (hin : (s.thread p).place.holdsLk = true)
    (hscan : ∀ q : Slot, q.val < k → q ≠ p → ¬ (s.thread q).Committed chan) :
    Invariant chan (s.goto p (.scanning k)) := by
  refine h.set_awake hrun nofun rfl (fun _ => hin) nofun (.inl rfl) nofun ?_
  rintro j ⟨⟩
  exact hscan

theorem step (hs : Step chan s s') : Invariant chan s' := by
  cases hs with
  | @acquire p hp hlk =>
    have hrun := h.not_sleeping (p := p) rfl (by
      rcases hp with hp | hp <;> rw [hp] <;> rfl)
    have hnot : ¬ { s.thread p with place := .inside }.Committed chan := not_committed nofun hrun
    refine h.update (fun _ => rfl) (.inr (.inl hlk)) nofun (h.locked_or_untouched p) nofun
      (fun hs => absurd hs hrun) (fun hs => ⟨hs, fun hc => absurd hc hnot⟩) nofun
      fun hc => absurd hc hnot
  | @release p hp =>
    have hrun := h.not_sleeping hp rfl
    have hnot : ¬ { s.thread p with place := .out }.Committed chan := not_committed nofun hrun
    have hin : (s.thread p).place.holdsLk = true := by rw [hp]; rfl
    refine h.update nofun (.inr (.inr hin)) nofun (h.locked_or_untouched p) nofun
      (fun hs => absurd hs hrun) (fun hs => ⟨hs, fun hc => absurd hc hnot⟩) nofun
      fun hc => absurd hc hnot
  | assign b hp => exact h.assign b
  | @check p hp hcond =>
    have hrun := h.not_sleeping hp rfl
    have hin : (s.thread p).place.holdsLk = true := by rw [hp]; rfl
    exact h.set (fun _ => hin) nofun (.inl rfl) nofun (fun hs => absurd hs hrun) nofun nofun
      fun _ => .inr hin
  | @sleepLock p hp hfree =>
    have hrun := h.not_sleeping hp rfl
    have hin : (s.thread p).place.holdsLk = true := by rw [hp]; rfl
    exact h.set (fun _ => hin) (fun _ => ⟨rfl, .inr hfree⟩) (.inr (.inl rfl)) nofun
      (fun hs => absurd hs hrun) (fun hs => ⟨hs, fun _ => .inl hp⟩) nofun fun _ => .inr hin
  | @sleepRelease p hp =>
    have hrun := h.not_sleeping hp rfl
    have hin : (s.thread p).place.holdsLk = true := by rw [hp]; rfl
    obtain ⟨hlocked, hfree⟩ := h.own p (by rw [hp]; rfl)
    exact h.update nofun (.inr (.inr hin)) (fun _ => ⟨hlocked, fun q _ => hfree q⟩) (.inl hlocked)
      nofun (fun hs => absurd hs hrun) (fun hs => ⟨hs, fun _ => .inr (.inl hp)⟩) nofun
      fun _ => .inr hin
  | @sleepOther p c hc hp hfree =>
    have hrun := h.not_sleeping hp rfl
    exact h.set_awake hrun (by simpa [Place.settling] using hc) rfl nofun
      (fun _ => ⟨rfl, .inr hfree⟩) (.inr (.inl rfl)) nofun nofun
  | @fallAsleep p c again hp =>
    have hheld : (s.thread p).place.holdsOwn = true := by rw [hp]; rfl
    have hback : Thread.Committed chan { s.thread p with
        place := .switching (.sleep again), chan := some c, state := .sleeping } →
        (s.thread p).Committed chan := by
      rintro (hc | hc | ⟨b, hc⟩ | ⟨-, hc⟩)
      · cases hc
      · cases hc
      · cases hc
      · cases hc
        exact .inr (.inr (.inl ⟨again, hp⟩))
    exact h.set nofun (fun _ => ⟨(h.own p hheld).1, .inl hheld⟩) (.inl rfl) nofun (fun _ => rfl)
      (fun hs => ⟨hs, hback⟩) nofun fun hc => .inl (hback hc)
  | @yieldLock p again hp hfree =>
    have hrun := h.not_sleeping hp (by cases again <;> rfl)
    exact h.set_awake hrun nofun rfl nofun (fun _ => ⟨rfl, .inr hfree⟩) (.inr (.inl rfl)) nofun nofun
  | @yieldSwitch p again hp =>
    have hheld : (s.thread p).place.holdsOwn = true := by rw [hp]; rfl
    exact h.set_awake nofun nofun rfl nofun (fun _ => ⟨(h.own p hheld).1, .inl hheld⟩) (.inl rfl)
      nofun nofun
  | @schedRelease p c hp =>
    have hheld : (s.thread p).place.holdsOwn = true := by rw [hp]; rfl
    have hback : Thread.Committed chan { s.thread p with place := .gone c, locked := false } →
        (s.thread p).Committed chan := by
      rintro (hc | hc | ⟨b, hc⟩ | hc)
      · cases hc
      · cases hc
      · cases hc
      · exact .inr (.inr (.inr hc))
    exact h.set nofun nofun (.inr (.inr hheld)) nofun (fun _ => rfl) (fun hs => ⟨hs, hback⟩) nofun
      fun hc => .inl (hback hc)
  | @schedule p c hp hrun hfree =>
    exact h.set_awake nofun nofun rfl nofun (fun _ => ⟨rfl, .inr hfree⟩) (.inr (.inl rfl)) nofun nofun
  | @sleepEnd p again hp => exact h.sched_end hp rfl rfl rfl
  | @yieldEnd p again hp => exact h.sched_end hp rfl rfl rfl
  | @wakeup p hp =>
    have hrun := h.not_sleeping hp rfl
    exact h.scan_on hrun (by rw [hp]; rfl) fun q hq => absurd hq (Nat.not_lt_zero _)
  | @scanSkip p hp =>
    have hrun := h.not_sleeping hp rfl
    refine h.scan_on hrun (by rw [hp]; rfl) fun q hq hne => h.scan p p.val (by rw [hp]; rfl) q ?_ hne
    have : q.val ≠ p.val := fun e => hne (Fin.ext e)
    omega
  | @scanLock p k hp hk hfree =>
    exact h.lookAt hk hfree rfl (by rw [hp]; rfl) (by rw [hp]; rfl) (by rw [hp]; rfl)
  | @examine p k hp =>
    refine h.lookAway (by rw [hp]; rfl) rfl rfl (by rw [hp]; simp [Place.holdsLk]) ?_ (by simp)
    have hscan := h.scan p k.val (by rw [hp]; rfl)
    have hlk := h.lk p (by rw [hp]; rfl)
    obtain ⟨-, -, hstill, -⟩ := h.touch_spec (p := p) (k := k) (by rw [hp]; rfl)
    intro j hj r hr hrp
    by_cases hrk : r = k
    · -- `k` itself neither holds `lk` nor its own lock, and if it slept it does not now
      subst hrk
      have hnolk := mt (h.lk r)
      simp only [Machine.rouse, Machine.set, update_self]
      grind -ring -linarith
    · have : (s.rouse k ((s.thread k).chan = some chan)).thread r = s.thread r := by
        simp [Machine.rouse, Machine.set, hrk]
      rw [this]
      refine hscan r ?_ hrp
      obtain rfl : k.val + 1 = j := Option.some.inj hj
      have : r.val ≠ k.val := fun e => hrk (Fin.ext e)
      omega
  | @scanDone p k hp hk => exact h.signal_done hp hk
  | @pokeLock p k hp hk hfree =>
    exact h.lookAt hk hfree rfl (by rw [hp]; rfl) (by rw [hp]; rfl) (by rw [hp]; rfl)
  | @poke p k wake hp =>
    exact h.lookAway (by rw [hp]; rfl) rfl rfl (by simp [Place.holdsLk]) nofun (by simp)

end

end Invariant

theorem Reached.invariant (h : Reached chan s) : Invariant chan s := by
  induction h with
  | initial h => exact Invariant.initial h
  | step _ hs ih => exact ih.step hs

theorem Reached.scan_completes (h : Reached chan s) {p : Slot} {k : ℕ}
    (hp : (s.thread p).place = .scanning k) (hk : k ≤ nproc)
    (hfree : ∀ q, (s.thread q).locked = false) (hcond : s.cond = true) :
    ∃ s', Reached chan s' ∧ ∀ q, q ≠ p → (s'.thread q).signalled = true := by
  -- the number of processes still to be looked at decreases
  induction hn : nproc - k generalizing s k with
  | zero =>
    refine ⟨_, h.step (.scanDone hp (by omega)), fun q hq => ?_⟩
    simp [Machine.signal, Machine.goto, Machine.set, Machine.withSignals, hcond, hq]
  | succ n ih =>
    by_cases hkp : k = p.val
    · subst hkp
      have hplace : ((s.goto p (.scanning (p.val + 1))).thread p).place =
          .scanning (p.val + 1) := by
        simp [Machine.goto, Machine.set]
      refine ih (h.step (.scanSkip hp)) hplace p.isLt ?_ hcond (by omega)
      intro q
      by_cases hq : q = p <;> simp [Machine.goto, Machine.set, hq, hfree]
    · have hlt : k < nproc := by omega
      have hne : (⟨k, hlt⟩ : Slot) ≠ p := fun e => hkp (congrArg Fin.val e)
      have hlook := h.step (.scanLock (k := ⟨k, hlt⟩) hp hne (hfree _))
      have haway := hlook.step (.examine (p := p) (k := ⟨k, hlt⟩)
        (by simp [Machine.goto, Machine.set]))
      refine ih haway ?_ hlt ?_ hcond (by omega)
      · simp [Machine.unlockProc, Machine.goto, Machine.set, hne.symm]
      · intro q
        by_cases hq : q = ⟨k, hlt⟩
        · simp [Machine.unlockProc, Machine.set, hq]
        · by_cases hqp : q = p
          · simp [Machine.unlockProc, Machine.goto, Machine.set, Machine.rouse,
              Machine.lockProc, hqp, hne.symm, hfree]
          · simp [Machine.unlockProc, Machine.goto, Machine.set, Machine.rouse,
              Machine.lockProc, hq, hqp, hfree]

/-- No process sleeps on the channel after a `wakeup` issued since its check of
the condition has returned, as long as the condition stays true. -/
theorem no_lost_wakeup {chan : ℕ} {s : Machine} (h : Reached chan s) (p : Slot)
    (hp : (s.thread p).signalled = true) :
    ¬ ((s.thread p).state = .sleeping ∧ (s.thread p).chan = some chan) :=
  fun hsleep => h.invariant.signal p hp (.inr (.inr (.inr hsleep)))

def twoRunning : Machine where
  lk := none
  cond := false
  thread := fun p =>
    { place := if p.val < 2 then .out else .gone (.yield false)
      state := if p.val < 2 then .running else .unused
      chan := none
      locked := false
      signalled := false }

theorem no_lost_wakeup_sleeper :
    ∃ (s : Machine) (p : Slot), Reached 0 s ∧ (s.thread p).signalled = true ∧
      ¬ ((s.thread p).state = .sleeping ∧ (s.thread p).chan = some 0) := by
  let a : Slot := ⟨0, by decide⟩
  let b : Slot := ⟨1, by decide⟩
  have hinit : twoRunning.Initial := by
    refine ⟨rfl, fun p => ⟨rfl, rfl, rfl, ?_⟩⟩
    by_cases hp : p.val < 2
    · exact .inl ⟨if_pos hp, if_pos hp⟩
    · exact .inr ⟨if_neg hp, by simp only [twoRunning, if_neg hp]; nofun⟩
  -- the first process goes to sleep
  have h0 : Reached 0 twoRunning := .initial hinit
  have h1 := h0.step (.acquire (p := a) (.inl rfl) rfl)
  have h2 := h1.step (.check (p := a) rfl rfl)
  have h3 := h2.step (.sleepLock (p := a) rfl rfl)
  have h4 := h3.step (.sleepRelease (p := a) rfl)
  have h5 := h4.step (.fallAsleep (p := a) rfl)
  have h6 := h5.step (.schedRelease (p := a) rfl)
  -- the second makes the condition true and calls `wakeup`
  have h7 := h6.step (.acquire (p := b) (.inl rfl) rfl)
  have h8 := h7.step (.assign (p := b) true rfl)
  have h9 := h8.step (.wakeup (p := b) rfl)
  obtain ⟨s, hs, hsignalled⟩ := h9.scan_completes (p := b) (k := 0) rfl (by decide) (by decide) rfl
  exact ⟨s, a, hs, hsignalled a (by decide), no_lost_wakeup hs a (hsignalled a (by decide))⟩

end Xv6MallocLab.SleepWakeup
