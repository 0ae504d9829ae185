import Mathlib.Tactic

/-!
# Tallies

How often a value stands in a finite table, and how the number changes when one
cell is overwritten.
-/

namespace Xv6MallocLab

open Finset Function

variable {ι α : Type*} [Fintype ι] [DecidableEq ι] [DecidableEq α]

/-- How often `a` stands in the table `o`. -/
def tally (o : ι → α) (a : α) : ℕ := (univ.filter fun x => o x = a).card

omit [DecidableEq ι] in
theorem tally_eq_zero_iff {o : ι → α} {a : α} : tally o a = 0 ↔ ∀ x, o x ≠ a := by
  simp [tally, filter_eq_empty_iff]

omit [DecidableEq ι] in
theorem tally_pos_iff {o : ι → α} {a : α} : 0 < tally o a ↔ ∃ x, o x = a := by
  rw [Nat.pos_iff_ne_zero, Ne, tally_eq_zero_iff]
  push Not
  rfl

omit [DecidableEq ι] in
theorem tally_eq_sum (o : ι → α) (a : α) : tally o a = ∑ x, if o x = a then 1 else 0 := by
  rw [tally, card_filter]

omit [DecidableEq α] in
theorem sum_update_add {M : Type*} [AddCommMonoid M] (g : ι → α → M) (o : ι → α) (x : ι) (v : α) :
    (∑ y, g y (update o x v y)) + g x (o x) = (∑ y, g y (o y)) + g x v := by
  have hrest : ∑ y ∈ univ.erase x, g y (update o x v y) =
      ∑ y ∈ univ.erase x, g y (o y) := by
    refine sum_congr rfl fun y hy => ?_
    rw [update_of_ne (ne_of_mem_erase hy)]
  rw [← add_sum_erase _ _ (mem_univ x),
    ← add_sum_erase univ (fun y => g y (o y)) (mem_univ x), hrest,
    update_self, add_right_comm, add_comm (g x v), add_right_comm, add_comm (g x (o x))]

theorem tally_update (o : ι → α) (x : ι) (v a : α) :
    tally (update o x v) a + (if o x = a then 1 else 0) =
      tally o a + (if v = a then 1 else 0) := by
  rw [tally_eq_sum, tally_eq_sum]
  exact sum_update_add (fun _ b => if b = a then 1 else 0) o x v

end Xv6MallocLab
