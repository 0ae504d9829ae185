import Xv6MallocLab.UmmallocRuns

/-!
# Refused system calls

`malloc_brk` rewrites the sentinel and moves `base` before it asks the kernel, and does not
undo it; `mm_align_init` does not look at the result of `sbrk` at all.
-/

namespace Xv6MallocLab.Ummalloc

open ByteMemory CircularList Prog

attribute [local irreducible] load store

/-- Everything the allocator keeps is as it was: its two words, the members of
all lists in both directions, and the headers of the chunks. -/
structure Unchanged (L : Layout) (first : ℕ) (s s' : Process) : Prop where
  base : s'.base = s.base
  bitmap : s'.bitmap = s.bitmap
  next : ∀ i, 1 ≤ i → i ≤ 64 → ∀ k,
    (nodeNext s'.mem)^[k] (L.head i) = (nodeNext s.mem)^[k] (L.head i)
  prev : ∀ i, 1 ≤ i → i ≤ 64 → ∀ k,
    (nodePrev s'.mem)^[k] (L.head i) = (nodePrev s.mem)^[k] (L.head i)
  headers : ∀ a, IsChunk first s a ∨ a = s.base - 8 → load 8 s'.mem a = load 8 s.mem a

/-- A refused request is never undone, from whatever state, and `mm_init`
never returns `-1`. -/
theorem refused_never_atomic (L : Layout) (s : Process) :
    (∀ first size, s.refusals < ((mmMalloc L size).final s).refusals →
      ¬ ∃ s', (mmMalloc L size).run s = .ok 0 s' ∧ Unchanged L first s s') ∧
    (s.brk < maxVa → s.refusals < ((mmInit L).final s).refusals →
      ¬ ∃ s', (mmInit L).run s = .ok (-1) s') := by
  refine ⟨?_, ?_⟩
  · rintro first size hrefused ⟨s', hrun, hsame⟩
    rcases spoiling_mmMalloc (L := L) size s with heq | ⟨-, hbase⟩
    · omega
    · rw [final_of_ok hrun] at hbase
      exact hbase hsame.base
  · rintro hbrk - ⟨s', hrun⟩
    exact mmInit_ne_minusOne hbrk s' hrun

def refusedProcess : Process := { sampleProcess with grants := fun k => k != 1 }

def exhaustedProcess : Process := { sampleProcess with grants := fun _ => false }

theorem refused_sample :
    ¬ (∃ s', (mmMalloc sampleLayout 5000).run ((mmInit sampleLayout).final refusedProcess) =
        .ok 0 s' ∧ Unchanged sampleLayout 65536 ((mmInit sampleLayout).final refusedProcess) s') ∧
      ¬ ∃ s', (mmInit sampleLayout).run exhaustedProcess = .ok (-1) s' :=
  ⟨(refused_never_atomic sampleLayout ((mmInit sampleLayout).final refusedProcess)).1 65536 5000
      (by decide +kernel),
    (refused_never_atomic sampleLayout exhaustedProcess).2 (by decide) (by decide +kernel)⟩

theorem refused_run_eval :
    (session sampleLayout [5000, 5000]).value refusedProcess = some [0, 77824] ∧
      ((session sampleLayout [5000, 5000]).final refusedProcess).brk = 77824 ∧
      ((session sampleLayout [5000, 5000]).final refusedProcess).refusals = 1 ∧
      ((session sampleLayout [5000]).final refusedProcess).base = 77824 ∧
      ((session sampleLayout []).final refusedProcess).base = 69632 ∧
      (mmInit sampleLayout).value exhaustedProcess = some 0 ∧
      ((mmInit sampleLayout).final exhaustedProcess).refusals = 2 := by
  decide +kernel

/-- The first request of 5000 bytes is refused, but `base` has moved, and the second one
gets a block above the break.  With no memory at all `mm_init` returns `0`.  Memory has no
unmapped pages here: the machine may end the process inside such a call. -/
theorem refused_run :
    (∃ s2, (session sampleLayout [5000, 5000]).run refusedProcess = .ok [0, 77824] s2 ∧
      s2.refusals = 1 ∧ s2.brk ≤ 77824 ∧
      ((session sampleLayout [5000]).final refusedProcess).base ≠
        ((session sampleLayout []).final refusedProcess).base) ∧
    ∃ s1, (mmInit sampleLayout).run exhaustedProcess = .ok 0 s1 ∧ s1.refusals = 2 := by
  obtain ⟨hvalue, hbrk, hrefusals, hafter, hbefore, hinit, htwice⟩ := refused_run_eval
  refine ⟨⟨_, run_of_value hvalue, hrefusals, hbrk.le, ?_⟩, _, run_of_value hinit, htwice⟩
  rw [hafter, hbefore]
  decide

end Xv6MallocLab.Ummalloc
