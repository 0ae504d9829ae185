import Xv6MallocLab.UmallocRelease

/-!
# Growing the pool

`morecore` writes the size of a fresh block at the old break and gives it to `free`, which
joins it to the last free block or links it in behind it.
-/

namespace Xv6MallocLab.Umalloc

open ByteMemory CircularList List Prog

attribute [local irreducible] load store

variable {static low : ℕ}

theorem coreUnits_bounds {n : ℕ} (hn : 16 * n < 2 ^ 31) :
    n ≤ coreUnits n ∧ 1 ≤ coreUnits n ∧ coreUnits n * 16 < 2 ^ 31 := by
  unfold coreUnits
  split <;> omega

def coreState (s : Process) (nu : ℕ) : Process :=
  { s with
    brk := s.brk + nu * 16
    calls := s.calls + 1
    mem := store 4 s.mem (s.brk + 8) nu }

def refusedState (s : Process) : Process :=
  { s with calls := s.calls + 1, refusals := s.refusals + 1 }

section Grow

variable (P : Pool static low) {n nu : ℕ}

theorem Pool.shape_above (nu : ℕ) : P.arena.Shape static low (P.process.brk + nu * 16) :=
  P.shape.mono (Nat.le_add_right _ _)

theorem Pool.mem_above (nu : ℕ) : ∀ x ∈ P.arena.nodes static, ∀ y, x ≤ y → y < x + 16 →
    store 4 P.process.mem (P.process.brk + 8) nu y = P.process.mem y := by
  intro x hx y _ hy
  have hlt := P.node_lt hx
  exact store_apply_of_outside (by omega)

def Pool.raise (hspace : P.process.brk + nu * 16 < 2 ^ 64) : Pool static low :=
  P.move (coreState P.process nu) (P.shape_above nu) rfl hspace (P.mem_above nu)

theorem Pool.fresh_outside (hpos : 1 ≤ nu) :
    P.arena.Outside ⟨P.process.brk, nu⟩ low (P.process.brk + nu * 16) := by
  refine ⟨hpos, P.shape.low_le, ?_, ?_, ?_⟩
  · unfold Block.stop
    dsimp only
    omega
  · exact fun c hc => .inr (P.shape.free_inside hc).2.2
  · exact fun c hc => .inr (P.shape.inside c (mem_append_right _ hc)).2.2

theorem Rejoined.above {free free' : List Block} {b : Block} (hrejoined : Rejoined free b free')
    (hpos : 1 ≤ b.units) (hbelow : ∀ c ∈ free, 1 ≤ c.units ∧ c.stop ≤ b.addr) :
    free' = free ++ [b] ∨ ∃ init l, free = init ++ [l] ∧ l.stop = b.addr ∧
      free' = init ++ [⟨l.addr, l.units + b.units⟩] := by
  obtain ⟨before, after, b1, after1, rfl, -, hafter, hup, hdown⟩ := hrejoined
  have hnil : after = [] := by
    refine eq_nil_iff_forall_not_mem.mpr fun c hc => ?_
    have hle := hafter c hc
    have hin := hbelow c (by simp [hc])
    unfold Block.stop at hle hin
    omega
  subst hnil
  cases hup with
  | keep gap =>
    cases hdown with
    | keep gap => exact .inl (by simp)
    | @join init l touch => exact .inr ⟨init, l, by simp, touch, rfl⟩

theorem Pool.fresh_cases (hpos : 1 ≤ nu) {free' : List Block}
    (hrejoined : Rejoined P.arena.free ⟨P.process.brk, nu⟩ free') :
    free' = P.arena.free ++ [⟨P.process.brk, nu⟩] ∨ ∃ init l, P.arena.free = init ++ [l] ∧
      l.stop = P.process.brk ∧ free' = init ++ [⟨l.addr, l.units + nu⟩] :=
  hrejoined.above hpos fun _ hc => ⟨(P.shape.free_inside hc).1, (P.shape.free_inside hc).2.2⟩

theorem Pool.fresh_units_lt {free' : List Block} (hpos : 1 ≤ n)
    (hsmall : ∀ b ∈ P.arena.free, b.units + n < 2 ^ 32) (hn : n < 2 ^ 32)
    (hrejoined : Rejoined P.arena.free ⟨P.process.brk, n⟩ free') : ∀ c ∈ free', c.units < 2 ^ 32 := by
  intro c hc
  rcases P.fresh_cases hpos hrejoined with rfl | ⟨init, l, hfree, -, rfl⟩
  · rcases mem_append.mp hc with hc | hc
    · exact P.units_lt hc
    · rw [mem_singleton.mp hc]
      exact hn
  · rcases mem_append.mp hc with hc | hc
    · exact P.units_lt (by simp [hfree, hc])
    · rw [mem_singleton.mp hc]
      exact hsmall l (by simp [hfree])

/-- A fresh block at the old break has been released. -/
def Grown (P : Pool static low) (n : ℕ) (P' : Pool static low) : Prop :=
  16 * n < 2 ^ 31 ∧ ∃ hspace : P.process.brk + coreUnits n * 16 < 2 ^ 64,
    Released (P.raise hspace) ⟨P.process.brk, coreUnits n⟩ P'

/-- `morecore` is refused, or gives a fresh block to `free`. -/
theorem Pool.run_morecore (hn : 16 * n < 2 ^ 31) (hsmall : ∀ b ∈ P.arena.free, b.units < n) :
    (morecore n).run P.process = .ok 0 (refusedState P.process) ∨
      ∃ P' : Pool static low, (morecore n).run P.process = .ok P'.process.freep P'.process ∧
        Grown P n P' := by
  obtain ⟨hle, hpos, hlt⟩ := coreUnits_bounds hn
  have hbrk := P.space
  unfold morecore
  by_cases hgrant : P.process.grants P.process.calls ∧
      P.process.brk + coreUnits n * 16 < 2 ^ 64
  · right
    have hsize : units (P.raise hgrant.2).process.mem P.process.brk = coreUnits n :=
      load_store_of_lt (by omega)
    obtain ⟨P', hrun, hreleased⟩ := (P.raise hgrant.2).exists_release (P.fresh_outside hpos) hsize
      fun _ => P.fresh_units_lt hpos (fun b hb => by have := hsmall b hb; omega) (by omega)
    refine ⟨P', ?_, hn, hgrant.2, hreleased⟩
    have haddr : (P.process.brk + 16) % 2 ^ 64 = P.process.brk + 16 := Nat.mod_eq_of_lt (by omega)
    rw [run_bind_ok (run_sbrk_granted (by omega) hlt hgrant), if_neg (by unfold minusOne; omega),
      run_bind_ok (run_poke32 _ _ _), haddr]
    exact (run_bind_ok hrun).trans rfl
  · left
    rw [run_bind_ok (run_sbrk_refused (by omega) hlt hgrant), if_pos rfl]
    rfl

variable {P} {P' : Pool static low}

section

variable (hgrown : Grown P n P')

include hgrown

theorem Grown.taken : P'.arena.taken = P.arena.taken := by
  obtain ⟨-, hspace, hreleased⟩ := hgrown
  exact hreleased.taken

theorem Grown.brk : P'.process.brk = P.process.brk + coreUnits n * 16 := by
  obtain ⟨-, hspace, hreleased⟩ := hgrown
  rw [hreleased.process]
  rfl

theorem Grown.mem {x : ℕ} (hx : ∀ c ∈ P.arena.nodes static, x < c ∨ c + 16 ≤ x)
    (hbrk : x < P.process.brk ∨ P.process.brk + 16 ≤ x) : P'.process.mem x = P.process.mem x := by
  obtain ⟨-, hspace, hreleased⟩ := hgrown
  rw [hreleased.mem x hx hbrk]
  exact store_apply_of_outside (by omega)

theorem Grown.frame : Frame P P' := by
  obtain ⟨-, hpos, -⟩ := coreUnits_bounds hgrown.1
  have hbrk := hgrown.brk
  refine ⟨?_, by omega, ?_, ?_, ?_, ?_⟩
  · intro x hx
    have hlow := P.shape.low_le
    have hstatic : ¬ (static ≤ x ∧ x < static + 16) := fun h => hx (.inl h)
    have hhigh : ¬ (low ≤ x ∧ x < P'.process.brk) := fun h => hx (.inr h)
    refine hgrown.mem ?_ (by omega)
    intro c hc
    have hbounds := P.shape.node_bounds hc
    omega
  all_goals
    obtain ⟨-, hspace, hreleased⟩ := hgrown
    rw [hreleased.process]
    rfl

theorem Grown.free :
    (∃ b ∈ P'.arena.free, n ≤ b.units) ∧
      P'.arena.free.length ≤ P.arena.free.length + 1 := by
  obtain ⟨hle, hpos, -⟩ := coreUnits_bounds hgrown.1
  obtain ⟨-, hspace, hreleased⟩ := hgrown
  rcases P.fresh_cases hpos hreleased.rejoined with hfree | ⟨init, l, hold, -, hfree⟩
  · rw [hfree]
    exact ⟨⟨⟨P.process.brk, coreUnits n⟩, by simp, hle⟩, by simp⟩
  · rw [hfree, hold]
    exact ⟨⟨⟨l.addr, l.units + coreUnits n⟩, by simp, by dsimp only; omega⟩, by simp⟩

end

end Grow

end Xv6MallocLab.Umalloc
