import Xv6MallocLab.ByteMemory

/-!
# The user process seen by its allocators

The slot allocator and the K&R allocator share the byte memory and the break that `sbrk`
moves.  Whether the kernel grants the next extension is decided by an arbitrary oracle.
-/

namespace Xv6MallocLab

open ByteMemory

/-- How a program can fail to return.  `IMPOSSIBLE` prints a message and ends
the process with `exit(1)`; `diverge` stands for a loop that outruns the bound
given to it. -/
inductive Exit
  | impossible
  | diverge
  deriving DecidableEq, Repr

structure Process where
  mem : Memory
  base : ℕ
  bitmap : BitVec 64
  freep : ℕ
  brk : ℕ
  calls : ℕ
  refusals : ℕ
  grants : ℕ → Bool

abbrev Prog := EStateM Exit Process

namespace Prog

def mem : Prog Memory := do
  return (← get).mem

def poke32 (address value : ℕ) : Prog Unit :=
  modify fun s => { s with mem := store 4 s.mem address value }

def poke64 (address value : ℕ) : Prog Unit :=
  modify fun s => { s with mem := store 8 s.mem address value }

def impossible (condition : Prop) [Decidable condition] : Prog Unit :=
  if condition then throw .impossible else pure ()

@[simp] theorem run_mem (s : Process) : mem.run s = .ok s.mem s := rfl

@[simp] theorem run_poke32 (address value : ℕ) (s : Process) :
    (poke32 address value).run s =
      .ok () { s with mem := store 4 s.mem address value } := rfl

@[simp] theorem run_poke64 (address value : ℕ) (s : Process) :
    (poke64 address value).run s =
      .ok () { s with mem := store 8 s.mem address value } := rfl

variable {α β : Type} {x : Prog α} {f : α → Prog β} {s s' : Process} {a : α}

@[simp] theorem run_ite (condition : Prop) [Decidable condition] (x y : Prog α) (s : Process) :
    (if condition then x else y).run s =
      if condition then x.run s else y.run s := by
  split <;> rfl

@[simp] theorem run_map (f : α → β) (x : Prog α) (s : Process) :
    (f <$> x).run s =
      match x.run s with
      | .ok a s' => .ok (f a) s'
      | .error e s' => .error e s' := by
  change EStateM.map f x s = _
  cases hrun : x s <;> simp [EStateM.map, EStateM.run, hrun]

theorem run_bind_ok (hx : x.run s = .ok a s') : (x >>= f).run s = (f a).run s' := by
  rw [EStateM.run_bind, hx]

variable {e : Exit} {condition : Prop}

theorem run_bind_error (hx : x.run s = .error e s') : (x >>= f).run s = .error e s' := by
  rw [EStateM.run_bind, hx]

theorem run_bind_eq_ok {b : β} (hrun : (x >>= f).run s = .ok b s') :
    ∃ a s1, x.run s = .ok a s1 ∧ (f a).run s1 = .ok b s' := by
  cases hx : x.run s with
  | ok a s1 =>
    rw [run_bind_ok hx] at hrun
    exact ⟨a, s1, rfl, hrun⟩
  | error e s1 =>
    rw [EStateM.run_bind, hx] at hrun
    cases hrun

theorem run_impossible_of_not [Decidable condition] (hnot : ¬ condition) (s : Process) :
    (impossible condition).run s = .ok () s := by
  simp [impossible, hnot]

def final {α : Type} (x : Prog α) (s : Process) : Process :=
  match x.run s with
  | .ok _ s' => s'
  | .error _ s' => s'

theorem final_of_ok (hx : x.run s = .ok a s') : x.final s = s' := by
  rw [final, hx]

def value {α : Type} (x : Prog α) (s : Process) : Option α :=
  match x.run s with
  | .ok a _ => some a
  | .error _ _ => none

theorem run_of_value (hx : x.value s = some a) : x.run s = .ok a (x.final s) := by
  unfold value at hx
  unfold final
  cases hrun : x.run s with
  | ok b s' =>
    rw [hrun] at hx
    rw [Option.some.inj hx]
  | error e s' =>
    rw [hrun] at hx
    cases hx

theorem final_of_error (hx : x.run s = .error e s') : x.final s = s' := by
  rw [final, hx]

theorem final_bind (x : Prog α) (f : α → Prog β) (s : Process) :
    (∃ a, x.run s = .ok a (x.final s) ∧ (x >>= f).final s = (f a).final (x.final s)) ∨
      ((∃ e, x.run s = .error e (x.final s)) ∧ (x >>= f).final s = x.final s) := by
  cases hx : x.run s with
  | ok a s' =>
    left
    have hs := final_of_ok hx
    refine ⟨a, by rw [hs], ?_⟩
    rw [hs, final, run_bind_ok hx]
    rfl
  | error e s' =>
    right
    have hs := final_of_error hx
    refine ⟨⟨e, by rw [hs]⟩, ?_⟩
    rw [hs]
    apply final_of_error
    rw [EStateM.run_bind, hx]

def outer (s : Process) : ℕ × ℕ × ℕ × ℕ × ℕ × (ℕ → Bool) :=
  (s.base, s.freep, s.brk, s.calls, s.refusals, s.grants)

/-- A program that works on the memory and the bitmap only. -/
def Internal {α : Type} (x : Prog α) : Prop := ∀ s, outer (x.final s) = outer s

theorem final_bind_ok (hx : x.run s = .ok a s') : (x >>= f).final s = (f a).final s' := by
  rw [final, run_bind_ok hx]
  rfl

theorem outer_final_bind (x : Prog α) (hf : ∀ a, Internal (f a)) (s : Process) :
    outer ((x >>= f).final s) = outer (x.final s) := by
  rcases final_bind x f s with ⟨a, -, hfinal⟩ | ⟨-, hfinal⟩
  · rw [hfinal, hf a]
  · rw [hfinal]

theorem Internal.bind (hx : Internal x) (hf : ∀ a, Internal (f a)) : Internal (x >>= f) := by
  intro s
  rw [outer_final_bind x hf, hx]

theorem Internal.ite [Decidable condition] {y : Prog α} (hx : Internal x) (hy : Internal y) :
    Internal (if condition then x else y) := by
  split
  · exact hx
  · exact hy

theorem Internal.pure (a : α) : Internal (pure a : Prog α) := fun _ => rfl

theorem Internal.mem : Internal Prog.mem := fun _ => rfl

theorem Internal.poke32 (address value : ℕ) : Internal (Prog.poke32 address value) := fun _ => rfl

theorem Internal.poke64 (address value : ℕ) : Internal (Prog.poke64 address value) := fun _ => rfl

theorem Internal.impossible (condition : Prop) [Decidable condition] :
    Internal (Prog.impossible condition) := by
  unfold Prog.impossible
  exact Internal.ite (fun _ => rfl) (Internal.pure ())

end Prog

def minusOne : ℕ := 2 ^ 64 - 1

/-- Conversion of an unsigned argument to the `int` parameter of `sbrk`. -/
def toInt (n : ℕ) : ℤ := (BitVec.ofNat 32 n).toInt

/-- `sys_sbrk` with `growproc`: a refused extension changes nothing and returns `-1`,
and shrinking below zero is ignored by `uvmdealloc`. -/
def sbrk (n : ℤ) : Prog ℕ := do
  let s ← get
  if 0 < n then
    if s.grants s.calls ∧ s.brk + n.toNat < 2 ^ 64 then
      set { s with brk := s.brk + n.toNat, calls := s.calls + 1 }
      return s.brk
    else
      set { s with calls := s.calls + 1, refusals := s.refusals + 1 }
      return minusOne
  else
    set { s with brk := if 0 ≤ s.brk + n then (s.brk + n).toNat else s.brk }
    return s.brk

variable {n : ℕ}

theorem toInt_of_lt (hn : n < 2 ^ 31) : toInt n = n := by
  have hmod : n % 2 ^ 32 = n := Nat.mod_eq_of_lt (by omega)
  rw [toInt, BitVec.toInt_eq_toNat_cond, BitVec.toNat_ofNat, hmod, if_pos (by omega)]

theorem run_sbrk_pos (hpos : 0 < n) (hn : n < 2 ^ 31) (s : Process) :
    (sbrk (toInt n)).run s =
      if s.grants s.calls ∧ s.brk + n < 2 ^ 64 then
        .ok s.brk { s with brk := s.brk + n, calls := s.calls + 1 }
      else
        .ok minusOne
          { s with calls := s.calls + 1, refusals := s.refusals + 1 } := by
  rw [toInt_of_lt hn]
  simp only [sbrk, EStateM.run_bind, EStateM.run_get, Prog.run_ite, EStateM.run_set,
    EStateM.run_pure, Nat.cast_pos, hpos, if_true, Int.toNat_natCast]

variable {s : Process}

theorem run_sbrk_granted (hpos : 0 < n) (hn : n < 2 ^ 31)
    (hgrant : s.grants s.calls ∧ s.brk + n < 2 ^ 64) :
    (sbrk (toInt n)).run s = .ok s.brk { s with brk := s.brk + n, calls := s.calls + 1 } := by
  rw [run_sbrk_pos hpos hn, if_pos hgrant]

theorem run_sbrk_refused (hpos : 0 < n) (hn : n < 2 ^ 31)
    (hgrant : ¬ (s.grants s.calls ∧ s.brk + n < 2 ^ 64)) :
    (sbrk (toInt n)).run s =
      .ok minusOne { s with calls := s.calls + 1, refusals := s.refusals + 1 } := by
  rw [run_sbrk_pos hpos hn, if_neg hgrant]

end Xv6MallocLab
