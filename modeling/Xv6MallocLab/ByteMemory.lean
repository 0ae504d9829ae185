import Mathlib.Tactic

/-!
# Byte-addressed memory

A memory assigns a byte to every address.  Words are little-endian and every access
is expressed through the bytes it covers, so accesses of different widths interact
as they do on the machine.
-/

namespace Xv6MallocLab.ByteMemory

open Function

abbrev Memory := ℕ → UInt8

/-- The word of `w` bytes at `a`. -/
def load : ℕ → Memory → ℕ → ℕ
  | 0, _, _ => 0
  | w + 1, m, a => (m a).toNat + 256 * load w m (a + 1)

/-- The lowest `w` bytes of `v` are written at `a`. -/
def store : ℕ → Memory → ℕ → ℕ → Memory
  | 0, m, _, _ => m
  | w + 1, m, a, v =>
    store w (update m a (UInt8.ofNat v)) (a + 1) (v / 256)

@[simp] theorem load_zero (m : Memory) (a : ℕ) : load 0 m a = 0 := rfl

theorem load_succ (w : ℕ) (m : Memory) (a : ℕ) :
    load (w + 1) m a = (m a).toNat + 256 * load w m (a + 1) := rfl

theorem store_succ (w : ℕ) (m : Memory) (a v : ℕ) :
    store (w + 1) m a v =
      store w (update m a (UInt8.ofNat v)) (a + 1) (v / 256) := rfl

variable {w a v : ℕ} {m : Memory}

theorem load_congr {m' : Memory} (hsame : ∀ b, a ≤ b → b < a + w → m' b = m b) :
    load w m' a = load w m a := by
  induction w generalizing a with
  | zero => rfl
  | succ w ih =>
    rw [load_succ, load_succ, hsame a le_rfl (by omega)]
    rw [ih (fun b hlow hhigh => hsame b (by omega) (by omega))]

theorem load_of_bytes (h : ∀ d < w, m (a + d) = UInt8.ofNat (v / 256 ^ d)) :
    load w m a = v % 256 ^ w := by
  induction w generalizing a v with
  | zero => simp [Nat.mod_one]
  | succ w ih =>
    have hfirst := h 0 (Nat.succ_pos w)
    have hrest : load w m (a + 1) = v / 256 % 256 ^ w := by
      apply ih
      intro d hd
      have := h (d + 1) (by omega)
      rw [Nat.div_div_eq_div_mul, ← pow_succ', Nat.add_assoc, Nat.add_comm 1 d]
      exact this
    rw [load_succ, hrest, show m a = _ from hfirst, pow_zero, Nat.div_one, UInt8.toNat_ofNat',
      pow_succ' 256, Nat.mod_mul]

theorem load_lt (w : ℕ) (m : Memory) (a : ℕ) : load w m a < 256 ^ w := by
  induction w generalizing a with
  | zero => simp
  | succ w ih =>
    have hbyte : (m a).toNat < 256 := (m a).toNat_lt
    have htail := ih (a + 1)
    rw [load_succ, pow_succ]
    omega

theorem store_apply_of_outside {b : ℕ} (hout : b < a ∨ a + w ≤ b) : store w m a v b = m b := by
  induction w generalizing m a v with
  | zero => rfl
  | succ w ih =>
    rw [store_succ, ih (by omega)]
    exact update_of_ne (by omega) _ _

theorem load_store_self (w : ℕ) (m : Memory) (a v : ℕ) :
    load w (store w m a v) a = v % 256 ^ w := by
  induction w generalizing m a v with
  | zero => simp [Nat.mod_one]
  | succ w ih =>
    rw [load_succ, store_succ, ih]
    rw [store_apply_of_outside (Or.inl (by omega))]
    rw [update_self, UInt8.toNat_ofNat', pow_succ' 256, Nat.mod_mul]

theorem load_store_of_lt (hv : v < 256 ^ w) : load w (store w m a v) a = v := by
  rw [load_store_self, Nat.mod_eq_of_lt hv]

theorem load_store_of_disjoint {k : ℕ} {b : ℕ} (hdisj : b + w ≤ a ∨ a + k ≤ b) :
    load w (store k m a v) b = load w m b := by
  apply load_congr
  intro c hlow hhigh
  exact store_apply_of_outside (by omega)

end Xv6MallocLab.ByteMemory
