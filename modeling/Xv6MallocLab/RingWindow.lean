import Mathlib.Tactic

/-!
# Windows of a ring buffer

The cell of a counter `c` is `c % size`, and a window is a list of cells in counter
order.  A window of fewer than `size` cells grows at its end by one store and shrinks at
its front by moving the start.
-/

namespace Xv6MallocLab.RingWindow

open Function List

variable {α : Type*}

/-- The cells of the counters `start, …, start + len - 1`. -/
def window (data : ℕ → α) (size start len : ℕ) : List α :=
  (List.range len).map fun k => data ((start + k) % size)

@[simp] theorem window_zero (data : ℕ → α) (size start : ℕ) : window data size start 0 = [] := rfl

@[simp] theorem window_length (data : ℕ → α) (size start len : ℕ) :
    (window data size start len).length = len := by
  simp [window]

theorem window_succ (data : ℕ → α) (size start len : ℕ) :
    window data size start (len + 1) =
      window data size start len ++ [data ((start + len) % size)] := by
  simp [window, range_succ]

variable {data : ℕ → α} {size start len : ℕ}

theorem window_congr {start' : ℕ} (h : start % size = start' % size) (len : ℕ) :
    window data size start len = window data size start' len := by
  unfold window
  refine map_congr_left fun k _ => ?_
  rw [Nat.add_mod, h, ← Nat.add_mod]

theorem window_pop (data : ℕ → α) (size start len : ℕ) :
    window data size start (len + 1) =
      data (start % size) :: window data size (start + 1) len := by
  induction len with
  | zero => simp [window_succ]
  | succ len ih =>
    rw [window_succ, ih, window_succ, cons_append,
      show start + 1 + len = start + (len + 1) by omega]

theorem cell_ne {i j : ℕ} (hi : i < j) (hj : j < i + size) :
    (start + i) % size ≠ (start + j) % size := by
  intro h
  have hmod : start + i ≡ start + j [MOD size] := h
  have hdvd : size ∣ j - i := by
    have := (Nat.modEq_iff_dvd' (by omega)).mp hmod
    rwa [show start + j - (start + i) = j - i by omega] at this
  exact absurd (Nat.le_of_dvd (by omega) hdvd) (by omega)

theorem window_update {k : ℕ} (x : α) (hlen : len ≤ k) (hk : k < size) :
    window (update data ((start + k) % size) x) size start len =
      window data size start len := by
  unfold window
  refine map_congr_left fun i hi => ?_
  have hi : i < len := mem_range.mp hi
  rw [update_of_ne (cell_ne (by omega) (by omega))]

theorem window_append (data : ℕ → α) (size start a b : ℕ) :
    window data size start (a + b) = window data size start a ++ window data size (start + a) b := by
  unfold window
  rw [range_add, map_append, map_map]
  congr 1
  refine map_congr_left fun k _ => ?_
  rw [comp_apply, Nat.add_assoc]

theorem window_push (start : ℕ) (x : α) (h : len < size) :
    window (update data ((start + len) % size) x) size start (len + 1) =
      window data size start len ++ [x] := by
  rw [window_succ, update_self, window_update x le_rfl h]

end Xv6MallocLab.RingWindow
