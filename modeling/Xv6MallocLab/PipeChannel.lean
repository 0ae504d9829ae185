import Xv6MallocLab.RingWindow

/-!
# Pipes

Calls of `pipewrite` and `piperead` by any number of processes move bytes one at a time
through a ring with two 32-bit counters that wrap, and let the lock go in `sleep`.  A
sleeping call may come back at any moment (`kill` wakes it too).
-/

namespace Xv6MallocLab.PipeChannel

open Function RingWindow

def pipeSize : ℕ := 512

/-- `struct pipe`; the counters are of type `uint`. -/
structure Pipe where
  data : ℕ → UInt8
  nread : UInt32
  nwrite : UInt32
  readopen : Bool
  writeopen : Bool

namespace Pipe

def full (p : Pipe) : Bool := p.nwrite == p.nread + 512

def empty (p : Pipe) : Bool := p.nread == p.nwrite

def put (p : Pipe) (ch : UInt8) : Pipe :=
  { p with
    data := update p.data (p.nwrite.toNat % pipeSize) ch
    nwrite := p.nwrite + 1 }

def front (p : Pipe) : UInt8 := p.data (p.nread.toNat % pipeSize)

def drop (p : Pipe) : Pipe := { p with nread := p.nread + 1 }

/-- What `pipealloc` puts in a fresh page; the bytes are left as they are. -/
def pipealloc (data : ℕ → UInt8) : Pipe :=
  { data := data, nread := 0, nwrite := 0, readopen := true, writeopen := true }

/-- `pipeclose`: `none` when the page goes back to the allocator. -/
def pipeclose (p : Pipe) (writable : Bool) : Option Pipe :=
  let p := if writable then { p with writeopen := false } else { p with readopen := false }
  if !p.readopen && !p.writeopen then none else some p

end Pipe

inductive Call
  | outside
  /-- `pipewrite` at its `acquire`, or in `sleep`: it does not hold the lock. -/
  | writeWait (n : ℤ) (src : ℕ → UInt8) (i : ℕ)
  | writeLoop (n : ℤ) (src : ℕ → UInt8) (i : ℕ)
  | readWait (n : ℤ)
  | readTest (n : ℤ)
  /-- In the copying loop of `piperead`, with the bytes at `addr` so far. -/
  | readLoop (n : ℤ) (i : ℕ) (got : List UInt8)

/-- One pipe and the processes that use it.  `stored` and `taken` record each
byte with the process that moved it, `sent` what a process's finished calls of
`pipewrite` stored, `received` what its finished calls of `piperead` copied out. -/
structure Channel where
  pipe : Pipe
  lock : Option ℕ
  call : ℕ → Call
  killed : ℕ → Bool
  stored : List (ℕ × UInt8)
  taken : List (ℕ × UInt8)
  sent : ℕ → List UInt8
  received : ℕ → List UInt8

def firstBytes (src : ℕ → UInt8) (i : ℕ) : List UInt8 := (List.range i).map src

namespace Channel

def place (s : Channel) (t : ℕ) (c : Call) (owner : Option ℕ) : Channel :=
  { s with call := update s.call t c, lock := owner }

def enter (s : Channel) (t : ℕ) (c : Call) : Channel := s.place t c s.lock

def acquire (s : Channel) (t : ℕ) (c : Call) : Option Channel :=
  if s.lock = none then some (s.place t c (some t)) else none

def release (s : Channel) (t : ℕ) (c : Call) : Channel := s.place t c none

/-- The call of process `t` returns, having stored `out` and copied out `got`. -/
def finish (s : Channel) (t : ℕ) (out got : List UInt8) : Channel :=
  { s with
    call := update s.call t .outside
    lock := none
    sent := update s.sent t (s.sent t ++ out)
    received := update s.received t (s.received t ++ got) }

def store (s : Channel) (t : ℕ) (n : ℤ) (src : ℕ → UInt8) (i : ℕ) : Channel :=
  { s with
    call := update s.call t (.writeLoop n src (i + 1))
    pipe := s.pipe.put (src i)
    stored := s.stored ++ [(t, src i)] }

def fetch (s : Channel) (t : ℕ) (n : ℤ) (i : ℕ) (got : List UInt8) : Channel :=
  { s with
    call := update s.call t (.readLoop n (i + 1) (got ++ [s.pipe.front]))
    pipe := s.pipe.drop
    taken := s.taken ++ [(t, s.pipe.front)] }

/-- The next step of process `t`, with the value its call returns if it ends
there. -/
def run (s : Channel) (t : ℕ) : Option (Channel × Option ℤ) :=
  match s.call t with
  | .outside => none
  | .writeWait n src i => (s.acquire t (.writeLoop n src i)).map (·, none)
  | .writeLoop n src i =>
    if (i : ℤ) < n then
      if !s.pipe.readopen || s.killed t then
        some (s.finish t (firstBytes src i) [], some (-1))
      else if s.pipe.full then
        some (s.release t (.writeWait n src i), none)
      else
        some (s.store t n src i, none)
    else
      some (s.finish t (firstBytes src i) [], some i)
  | .readWait n => (s.acquire t (.readTest n)).map (·, none)
  | .readTest n =>
    if s.pipe.empty && s.pipe.writeopen then
      if s.killed t then
        some (s.finish t [] [], some (-1))
      else
        some (s.release t (.readWait n), none)
    else
      some (s.enter t (.readLoop n 0 []), none)
  | .readLoop n i got =>
    if (i : ℤ) < n then
      if s.pipe.empty then
        some (s.finish t [] got, some i)
      else
        some (s.fetch t n i got, none)
    else
      some (s.finish t [] got, some i)

end Channel

inductive Step : Channel → Channel → Prop
  | write {s : Channel} {t : ℕ} (n : ℤ) (src : ℕ → UInt8) (h : s.call t = .outside) :
      Step s (s.enter t (.writeWait n src 0))
  | read {s : Channel} {t : ℕ} (n : ℤ) (h : s.call t = .outside) :
      Step s (s.enter t (.readWait n))
  | run {s s' : Channel} {t : ℕ} {r : Option ℤ} (h : s.run t = some (s', r)) : Step s s'
  | kill {s : Channel} (t : ℕ) : Step s { s with killed := update s.killed t true }
  | close {s : Channel} {w : Bool} {p : Pipe} (hlock : s.lock = none)
      (h : s.pipe.pipeclose w = some p) : Step s { s with pipe := p }

def opened (data : ℕ → UInt8) : Channel :=
  { pipe := Pipe.pipealloc data
    lock := none
    call := fun _ => .outside
    killed := fun _ => false
    stored := []
    taken := []
    sent := fun _ => []
    received := fun _ => [] }

inductive Reached : Channel → Prop
  | opened (data : ℕ → UInt8) : Reached (opened data)
  | step {s s' : Channel} (h : Reached s) (hs : Step s s') : Reached s'

namespace Pipe

variable {p : Pipe}

/-- The number of bytes in the ring: `nwrite - nread` modulo `2 ^ 32`. -/
def held (p : Pipe) : ℕ := (p.nwrite - p.nread).toNat

def contents (p : Pipe) : List UInt8 := window p.data pipeSize p.nread.toNat p.held

theorem held_eq (p : Pipe) : p.held = (2 ^ 32 - p.nread.toNat + p.nwrite.toNat) % 2 ^ 32 :=
  UInt32.toNat_sub p.nwrite p.nread

theorem full_iff (p : Pipe) : p.full = true ↔ p.held = pipeSize := by
  have hr := p.nread.toNat_lt
  have hw := p.nwrite.toNat_lt
  rw [full, beq_iff_eq, ← UInt32.toNat_inj, UInt32.toNat_add, held_eq, pipeSize]
  change _ = (_ + 512) % 2 ^ 32 ↔ _
  omega

theorem empty_iff (p : Pipe) : p.empty = true ↔ p.held = 0 := by
  have hr := p.nread.toNat_lt
  have hw := p.nwrite.toNat_lt
  rw [empty, beq_iff_eq, ← UInt32.toNat_inj, held_eq]
  omega

theorem contents_eq_nil_iff (p : Pipe) : p.contents = [] ↔ p.held = 0 := by
  rw [← List.length_eq_zero_iff, contents, window_length]

theorem nwrite_cell (p : Pipe) :
    p.nwrite.toNat % pipeSize = (p.nread.toNat + p.held) % pipeSize := by
  have hr := p.nread.toNat_lt
  have hw := p.nwrite.toNat_lt
  rw [held_eq, pipeSize]
  omega

theorem held_put (ch : UInt8) (h : p.held < pipeSize) : (p.put ch).held = p.held + 1 := by
  have hr := p.nread.toNat_lt
  have hw := p.nwrite.toNat_lt
  have hput : (p.put ch).held = (2 ^ 32 - p.nread.toNat + (p.nwrite.toNat + 1) % 2 ^ 32) % 2 ^ 32 :=
    held_eq _
  rw [held_eq, pipeSize] at h
  rw [hput, held_eq]
  omega

theorem held_drop (h : p.held ≠ 0) : p.drop.held + 1 = p.held := by
  have hr := p.nread.toNat_lt
  have hw := p.nwrite.toNat_lt
  have hdrop : p.drop.held = (2 ^ 32 - (p.nread.toNat + 1) % 2 ^ 32 + p.nwrite.toNat) % 2 ^ 32 :=
    held_eq _
  rw [held_eq] at h
  rw [hdrop, held_eq]
  omega

theorem contents_put (ch : UInt8) (h : p.held < pipeSize) :
    (p.put ch).contents = p.contents ++ [ch] := by
  rw [contents, held_put ch h]
  change window (update p.data (p.nwrite.toNat % pipeSize) ch) pipeSize p.nread.toNat _ = _
  rw [nwrite_cell]
  exact window_push p.nread.toNat ch h

theorem contents_drop (h : p.held ≠ 0) : p.contents = p.front :: p.drop.contents := by
  have hcell : (p.nread.toNat + 1) % pipeSize = (p.nread + 1).toNat % pipeSize := by
    rw [UInt32.toNat_add]
    exact (Nat.mod_mod_of_dvd _ (by decide)).symm
  rw [contents, ← held_drop h, window_pop, window_congr hcell]
  rfl

end Pipe

namespace Call

def holding : Call → Bool
  | .writeLoop .. | .readTest _ | .readLoop .. => true
  | .outside | .writeWait .. | .readWait _ => false

def progress : Call → List UInt8
  | .writeWait _ src i | .writeLoop _ src i => firstBytes src i
  | .outside | .readWait _ | .readTest _ | .readLoop .. => []

def got : Call → List UInt8
  | .readLoop _ _ got => got
  | .outside | .writeWait .. | .writeLoop .. | .readWait _ | .readTest _ => []

end Call

def bytesOf (t : ℕ) (moved : List (ℕ × UInt8)) : List UInt8 :=
  (moved.filter fun m => m.1 = t).map Prod.snd

theorem bytesOf_concat_self (t : ℕ) (moved : List (ℕ × UInt8)) (b : UInt8) :
    bytesOf t (moved ++ [(t, b)]) = bytesOf t moved ++ [b] := by
  simp [bytesOf]

variable {t : ℕ} {s s' : Channel} {n : ℤ}

theorem bytesOf_concat_of_ne {u : ℕ} (h : u ≠ t) (moved : List (ℕ × UInt8)) (b : UInt8) :
    bytesOf t (moved ++ [(u, b)]) = bytesOf t moved := by
  simp [bytesOf, h]

theorem firstBytes_succ (src : ℕ → UInt8) (i : ℕ) :
    firstBytes src (i + 1) = firstBytes src i ++ [src i] := by
  simp [firstBytes, List.range_succ]

/-- What process `t` has moved is what its calls say: the finished ones, and the one it is
in.  A read starts to copy only from a pipe with bytes or without writers. -/
structure Channel.Account (s : Channel) (t : ℕ) : Prop where
  sent : bytesOf t s.stored = s.sent t ++ (s.call t).progress
  received : bytesOf t s.taken = s.received t ++ (s.call t).got
  loop : ∀ n i got, s.call t = .readLoop n i got →
    got.length = i ∧ (i = 0 → s.pipe.held ≠ 0 ∨ s.pipe.writeopen = false)

structure Invariant (s : Channel) : Prop where
  capacity : s.pipe.held ≤ pipeSize
  queue : s.stored.map Prod.snd = s.taken.map Prod.snd ++ s.pipe.contents
  lock : ∀ t, (s.call t).holding = true → s.lock = some t
  account : ∀ t, s.Account t

/-- A step of process `t` leaves the calls and the bytes of the others alone. -/
structure Others (s s' : Channel) (t : ℕ) : Prop where
  call : ∀ u ≠ t, s'.call u = s.call u
  stored : ∀ u ≠ t, bytesOf u s'.stored = bytesOf u s.stored
  sent : ∀ u ≠ t, s'.sent u = s.sent u
  taken : ∀ u ≠ t, bytesOf u s'.taken = bytesOf u s.taken
  received : ∀ u ≠ t, s'.received u = s.received u

namespace Invariant

variable {s s' : Channel} {t : ℕ} {c : Call} {n : ℤ} {i : ℕ} {src : ℕ → UInt8} {got : List UInt8}

theorem opened (data : ℕ → UInt8) : Invariant (opened data) where
  capacity := by simp [PipeChannel.opened, Pipe.pipealloc, Pipe.held]
  queue := by simp [PipeChannel.opened, Pipe.pipealloc, Pipe.contents, Pipe.held]
  lock := nofun
  account := fun _ => ⟨rfl, rfl, nofun⟩

section

variable (hs : Invariant s)

include hs

theorem alone (h : s.lock = none ∨ (s.call t).holding = true) {u : ℕ} (hu : u ≠ t) :
    (s.call u).holding = false := by
  by_contra hin
  have hlock : s.lock = some u := hs.lock u (by simpa using hin)
  cases h with
  | inl hnone => simp [hnone] at hlock
  | inr ht =>
    rw [hs.lock t ht] at hlock
    exact hu (Option.some.inj hlock).symm

/-- The rule for a step of process `t`.  Either the others are not under the lock, or lock
and pipe stay as they are. -/
theorem advance (ho : Others s s' t)
    (hfree : (∀ u ≠ t, (s.call u).holding = false) ∨ s'.lock = s.lock ∧ s'.pipe = s.pipe)
    (hcapacity : s'.pipe.held ≤ pipeSize)
    (hqueue : s'.stored.map Prod.snd = s'.taken.map Prod.snd ++ s'.pipe.contents)
    (hlock : (s'.call t).holding = true → s'.lock = some t) (hself : s'.Account t) :
    Invariant s' := by
  refine ⟨hcapacity, hqueue, fun u hin => ?_, fun u => ?_⟩
  · by_cases hu : u = t
    · exact hu ▸ hlock (hu ▸ hin)
    · rw [ho.call u hu] at hin
      rcases hfree with hout | ⟨hsame, -⟩
      · simp [hout u hu] at hin
      · exact hsame.trans (hs.lock u hin)
  · by_cases hu : u = t
    · exact hu ▸ hself
    · obtain ⟨hsent, hreceived, hloop⟩ := hs.account u
      refine ⟨?_, ?_, fun n i got hcall => ?_⟩
      · rw [ho.stored u hu, ho.sent u hu, ho.call u hu, hsent]
      · rw [ho.taken u hu, ho.received u hu, ho.call u hu, hreceived]
      · rw [ho.call u hu] at hcall
        rcases hfree with hout | ⟨-, hpipe⟩
        · exact absurd (hout u hu) (by simp [hcall, Call.holding])
        · exact hpipe ▸ hloop n i got hcall

theorem place {owner : Option ℕ} (hfree : (∀ u ≠ t, (s.call u).holding = false) ∨ owner = s.lock)
    (hsame : c.progress = (s.call t).progress ∧ c.got = (s.call t).got)
    (howner : c.holding = true → owner = some t) (hloop : ∀ n i got, c = .readLoop n i got →
      got.length = i ∧ (i = 0 → s.pipe.held ≠ 0 ∨ s.pipe.writeopen = false)) :
    Invariant (s.place t c owner) := by
  have hcall : (s.place t c owner).call t = c := update_self ..
  refine hs.advance (t := t) ⟨fun u hu => update_of_ne hu .., fun _ _ => rfl, fun _ _ => rfl,
    fun _ _ => rfl, fun _ _ => rfl⟩ (hfree.imp id fun h => ⟨h, rfl⟩) hs.capacity hs.queue
    (fun h => howner (by rwa [hcall] at h))
    ⟨?_, ?_, fun n i got h => hloop n i got (hcall.symm.trans h)⟩
  · rw [hcall, hsame.1]
    exact (hs.account t).sent
  · rw [hcall, hsame.2]
    exact (hs.account t).received

theorem acquire (h : s.acquire t c = some s')
    (hsame : c.progress = (s.call t).progress ∧ c.got = (s.call t).got)
    (hc : ∀ n i got, c ≠ .readLoop n i got) : Invariant s' := by
  unfold Channel.acquire at h
  split_ifs at h with hnone
  cases h
  exact hs.place (.inl fun u hu => hs.alone (.inl hnone) hu) hsame (fun _ => rfl)
    fun n i got h => absurd h (hc n i got)

theorem release (hin : (s.call t).holding = true)
    (hsame : c.progress = (s.call t).progress ∧ c.got = (s.call t).got) (hc : c.holding = false) :
    Invariant (s.release t c) := by
  refine hs.place (.inl fun u hu => hs.alone (.inr hin) hu) hsame (fun h => ?_) fun n i got h => ?_
  · simp [hc] at h
  · simp [h, Call.holding] at hc

theorem finish (ht : s.call t = c) (hc : c.holding = true) :
    Invariant (s.finish t c.progress c.got) := by
  subst ht
  refine hs.advance ⟨?_, fun _ _ => rfl, ?_, fun _ _ => rfl, ?_⟩
    (.inl fun u hu => hs.alone (.inr hc) hu) hs.capacity hs.queue ?_ ⟨?_, ?_, ?_⟩
  iterate 3
    · intro u hu
      simp [Channel.finish, hu]
  · simp [Channel.finish, Call.holding]
  · simpa [Channel.finish, Call.progress] using (hs.account t).sent
  · simpa [Channel.finish, Call.got] using (hs.account t).received
  · simp [Channel.finish]

theorem store (ht : s.call t = .writeLoop n src i) (hroom : s.pipe.held ≠ pipeSize) :
    Invariant (s.store t n src i) := by
  have hlt : s.pipe.held < pipeSize := lt_of_le_of_ne hs.capacity hroom
  have hin : (s.call t).holding = true := by simp [ht, Call.holding]
  obtain ⟨hsent, hreceived, -⟩ := hs.account t
  rw [ht] at hsent hreceived
  refine hs.advance ⟨?_, ?_, fun _ _ => rfl, fun _ _ => rfl, fun _ _ => rfl⟩
    (.inl fun u hu => hs.alone (.inr hin) hu) ((Pipe.held_put (src i) hlt).trans_le hlt) ?_
    (fun _ => hs.lock t hin) ⟨?_, ?_, ?_⟩
  · intro u hu
    simp [Channel.store, hu]
  · intro u hu
    exact bytesOf_concat_of_ne (Ne.symm hu) ..
  · change (s.stored ++ [(t, src i)]).map Prod.snd = _ ++ (s.pipe.put (src i)).contents
    rw [Pipe.contents_put _ hlt, List.map_append, hs.queue, List.append_assoc]
    rfl
  · change bytesOf t (s.stored ++ [(t, src i)]) = _
    rw [bytesOf_concat_self, hsent]
    simp [Channel.store, Call.progress, firstBytes_succ]
  · simpa [Channel.store, Call.got] using hreceived
  · simp [Channel.store]

theorem fetch (ht : s.call t = .readLoop n i got) (hbytes : s.pipe.held ≠ 0) :
    Invariant (s.fetch t n i got) := by
  have hin : (s.call t).holding = true := by simp [ht, Call.holding]
  have hdrop := Pipe.held_drop hbytes
  have hcap := hs.capacity
  obtain ⟨hsent, hreceived, hloop⟩ := hs.account t
  rw [ht] at hsent hreceived
  refine hs.advance ⟨?_, fun _ _ => rfl, fun _ _ => rfl, ?_, fun _ _ => rfl⟩
    (.inl fun u hu => hs.alone (.inr hin) hu) ?_ ?_ (fun _ => hs.lock t hin) ⟨?_, ?_, ?_⟩
  · intro u hu
    simp [Channel.fetch, hu]
  · intro u hu
    exact bytesOf_concat_of_ne (Ne.symm hu) ..
  · change s.pipe.drop.held ≤ pipeSize
    omega
  · change s.stored.map Prod.snd = (s.taken ++ [(t, s.pipe.front)]).map Prod.snd ++ s.pipe.drop.contents
    rw [hs.queue, Pipe.contents_drop hbytes]
    simp
  · simpa [Channel.fetch, Call.progress] using hsent
  · change bytesOf t (s.taken ++ [(t, s.pipe.front)]) = _
    rw [bytesOf_concat_self, hreceived]
    simp [Channel.fetch, Call.got]
  · intro n' i' got' hcall
    simp only [Channel.fetch, update_self, Call.readLoop.injEq] at hcall
    obtain ⟨-, rfl, rfl⟩ := hcall
    simp [(hloop n i got ht).1]

theorem run {r : Option ℤ} (h : s.run t = some (s', r)) : Invariant s' := by
  unfold Channel.run at h
  split at h <;> rename_i ht
  · cases h
  · obtain ⟨s1, hacq, heq⟩ := Option.map_eq_some_iff.mp h
    cases heq
    exact hs.acquire hacq (by rw [ht]; exact ⟨rfl, rfl⟩) nofun
  · have hin : (s.call t).holding = true := by simp [ht, Call.holding]
    split_ifs at h with hlt hclosed hfull <;> cases h
    · exact hs.finish ht rfl
    · exact hs.release hin (by rw [ht]; exact ⟨rfl, rfl⟩) rfl
    · exact hs.store ht fun hheld => hfull ((Pipe.full_iff _).mpr hheld)
    · exact hs.finish ht rfl
  · obtain ⟨s1, hacq, heq⟩ := Option.map_eq_some_iff.mp h
    cases heq
    exact hs.acquire hacq (by rw [ht]; exact ⟨rfl, rfl⟩) nofun
  · have hin : (s.call t).holding = true := by simp [ht, Call.holding]
    split_ifs at h with hwait hkilled <;> cases h
    · exact hs.finish ht rfl
    · exact hs.release hin (by rw [ht]; exact ⟨rfl, rfl⟩) rfl
    · refine hs.place (.inr rfl) (by rw [ht]; exact ⟨rfl, rfl⟩) (fun _ => hs.lock t hin) ?_
      rintro _ _ _ ⟨⟩
      rw [Bool.and_eq_true, Pipe.empty_iff, not_and_or, Bool.not_eq_true] at hwait
      exact ⟨rfl, fun _ => hwait⟩
  · split_ifs at h with hlt hempty <;> cases h
    · exact hs.finish ht rfl
    · exact hs.fetch ht fun hheld => hempty ((Pipe.empty_iff _).mpr hheld)
    · exact hs.finish ht rfl

theorem close {w : Bool} {p : Pipe} (hlock : s.lock = none) (h : s.pipe.pipeclose w = some p) :
    Invariant { s with pipe := p } := by
  have hsame : p.data = s.pipe.data ∧ p.nread = s.pipe.nread ∧ p.nwrite = s.pipe.nwrite := by
    unfold Pipe.pipeclose at h
    cases w <;> simp only [Bool.false_eq_true, if_true, if_false] at h <;> split_ifs at h <;>
      cases h <;> exact ⟨rfl, rfl, rfl⟩
  have hheld : p.held = s.pipe.held := by simp [Pipe.held, hsame]
  refine ⟨hheld.trans_le hs.capacity, ?_, hs.lock, fun u => ?_⟩
  · have hcontents : p.contents = s.pipe.contents := by simp [Pipe.contents, hheld, hsame]
    exact hs.queue.trans (congrArg (s.taken.map Prod.snd ++ ·) hcontents.symm)
  · refine ⟨(hs.account u).sent, (hs.account u).received, fun n i got hu => ?_⟩
    have := hs.lock u (by simp [show s.call u = .readLoop n i got from hu, Call.holding])
    simp [hlock] at this

theorem start (ht : s.call t = .outside) (hc : c.progress = [] ∧ c.got = [])
    (hout : c.holding = false) : Invariant (s.enter t c) := by
  refine hs.place (.inr rfl) (by rw [ht]; exact hc) (fun h => ?_) fun n i got h => ?_
  · simp [hout] at h
  · simp [h, Call.holding] at hout

/-- Each section of a call keeps the invariant. -/
theorem step (h : Step s s') : Invariant s' := by
  cases h with
  | write n src ht => exact hs.start ht ⟨rfl, rfl⟩ rfl
  | read n ht => exact hs.start ht ⟨rfl, rfl⟩ rfl
  | run h => exact hs.run h
  | kill t =>
    refine ⟨hs.capacity, hs.queue, hs.lock, fun u => ?_⟩
    exact ⟨(hs.account u).sent, (hs.account u).received, (hs.account u).loop⟩
  | close hlock h => exact hs.close hlock h

end

end Invariant

theorem Reached.invariant (h : Reached s) : Invariant s := by
  induction h with
  | opened data => exact Invariant.opened data
  | step _ hs ih => exact ih.step hs

/-- Process `t` is in a call of `piperead` for `n` bytes. -/
def Reads (s : Channel) (t : ℕ) (n : ℤ) : Prop :=
  s.call t = .readWait n ∨ s.call t = .readTest n ∨ ∃ i got, s.call t = .readLoop n i got

/-- A call of `piperead` that returns `r` hands over `r` bytes, the ones it took; only a
killed one, which has none, returns -1. -/
theorem Invariant.read_returns {r : ℤ} (hs : Invariant s) (ht : Reads s t n)
    (h : s.run t = some (s', some r)) :
    s'.received t = s.received t ++ (s.call t).got ∧
      (r = (s.call t).got.length ∨ r = -1 ∧ s.killed t = true ∧ (s.call t).got = []) := by
  unfold Channel.run at h
  obtain ht | ht | ⟨i, got, ht⟩ := ht
  · simp [ht] at h
  · simp only [ht] at h
    split_ifs at h with hwait hkilled <;> simp only [Option.some.injEq, Prod.mk.injEq, reduceCtorEq,
      and_false] at h
    obtain ⟨rfl, rfl⟩ := h
    rw [ht]
    exact ⟨update_self .., .inr ⟨rfl, hkilled, rfl⟩⟩
  · have hcount := ((hs.account t).loop n i got ht).1
    simp only [ht] at h
    split_ifs at h <;> simp only [Option.some.injEq, Prod.mk.injEq, reduceCtorEq, and_false] at h
    all_goals
      obtain ⟨rfl, rfl⟩ := h
      rw [ht]
      exact ⟨update_self .., .inl (congrArg Nat.cast hcount.symm)⟩

theorem Invariant.read_zero (hs : Invariant s) (ht : Reads s t n)
    (h : s.run t = some (s', some 0)) : n ≤ 0 ∨ (s.pipe.held = 0 ∧ s.pipe.writeopen = false) := by
  unfold Channel.run at h
  obtain ht | ht | ⟨i, got, ht⟩ := ht
  · simp [ht] at h
  · simp only [ht] at h
    split_ifs at h <;> simp at h
  · simp only [ht] at h
    split_ifs at h with hlt hempty
    · obtain rfl : i = 0 := by simpa using congrArg Prod.snd (Option.some.inj h)
      have hheld := (Pipe.empty_iff _).mp hempty
      exact .inr ⟨hheld, (((hs.account t).loop n 0 got ht).2 rfl).resolve_left (not_not.mpr hheld)⟩
    · simp at h
    · obtain rfl : i = 0 := by simpa using congrArg Prod.snd (Option.some.inj h)
      exact .inl (by simpa using hlt)

/-- Pipes are FIFO channels of `pipeSize` bytes. -/
theorem pipe_fifo {s : Channel} (h : Reached s) :
    (s.pipe.nwrite - s.pipe.nread).toNat ≤ pipeSize ∧
      s.pipe.contents.length = (s.pipe.nwrite - s.pipe.nread).toNat ∧
      s.stored.map Prod.snd = s.taken.map Prod.snd ++ s.pipe.contents ∧
      (∀ t, bytesOf t s.stored = s.sent t ++ (s.call t).progress) ∧
      (∀ t, bytesOf t s.taken = s.received t ++ (s.call t).got) ∧
      (∀ t n i got, s.call t = .readLoop n i got → got.length = i) ∧
      (∀ t n s' r, Reads s t n → s.run t = some (s', some r) →
        s'.received t = s.received t ++ (s.call t).got ∧
          (r = (s.call t).got.length ∨ r = -1 ∧ s.killed t = true ∧ (s.call t).got = [])) ∧
      ∀ t n s', Reads s t n → s.run t = some (s', some 0) →
        n ≤ 0 ∨ (s.pipe.contents = [] ∧ s.pipe.writeopen = false) := by
  have hs := h.invariant
  refine ⟨hs.capacity, window_length _ _ _ _, hs.queue, fun t => (hs.account t).sent,
    fun t => (hs.account t).received, fun t n i got ht => ((hs.account t).loop n i got ht).1,
    fun t n s' r ht hrun => hs.read_returns ht hrun, fun t n s' ht hrun => ?_⟩
  rw [Pipe.contents_eq_nil_iff]
  exact hs.read_zero ht hrun

/-- Process 1 writes two bytes, and a read of one byte by process 2 is about to return. -/
theorem pipe_fifo_twoBytes :
    ∃ s s', Reached s ∧ s.stored = [(1, 65), (1, 66)] ∧ s.taken = [(2, 65)] ∧
      s.run 2 = some (s', some 1) ∧ s'.received 2 = [65] := by
  have h0 := Reached.opened fun _ => 0
  have h1 := h0.step (Step.write (t := 1) 2 (fun i => if i = 0 then 65 else 66) rfl)
  have h2 := h1.step (Step.run (t := 1) (r := none) rfl)
  have h3 := h2.step (Step.run (t := 1) (r := none) rfl)
  have h4 := h3.step (Step.run (t := 1) (r := none) rfl)
  have h5 := h4.step (Step.run (t := 1) (r := some 2) rfl)
  have h6 := h5.step (Step.read (t := 2) 1 rfl)
  have h7 := h6.step (Step.run (t := 2) (r := none) rfl)
  have h8 := h7.step (Step.run (t := 2) (r := none) rfl)
  have h9 := h8.step (Step.run (t := 2) (r := none) rfl)
  have hread := (pipe_fifo h9).2.2.2.2.2.2.1 2 1 _ 1 (.inr (.inr ⟨_, _, rfl⟩)) rfl
  exact ⟨_, _, h9, rfl, rfl, rfl, hread.1⟩

end Xv6MallocLab.PipeChannel
