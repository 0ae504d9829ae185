import Xv6MallocLab.Tally

/-!
# Radix tables

A table of height `n + 1` is a directory of `w` tables of height `n`, and a number selects
one entry of every directory on its way by its digits to the base `w`.  `dirs` counts the
directories that lie in a page.
-/

namespace Xv6MallocLab

open Function

structure Dir (w : ℕ) (α : Type) where
  page : ℕ
  entry : Fin w → Option α

namespace Dir

variable {w : ℕ} {α : Type}

def empty (p : ℕ) : Dir w α := ⟨p, fun _ => none⟩

def set (d : Dir w α) (i : Fin w) (e : Option α) : Dir w α :=
  { d with entry := update d.entry i e }

@[simp] theorem set_page (d : Dir w α) (i : Fin w) (e : Option α) : (d.set i e).page = d.page := rfl

@[simp] theorem set_entry (d : Dir w α) (i : Fin w) (e : Option α) :
    (d.set i e).entry = update d.entry i e := rfl

@[simp] theorem empty_entry (p : ℕ) (i : Fin w) : (empty p : Dir w α).entry i = none := rfl

theorem set_self {d : Dir w α} {i : Fin w} {e : Option α} (h : d.entry i = e) : d.set i e = d := by
  subst h
  simp [set]

/-- The page of the directory and those of its entries, which `f` counts. -/
def pages (f : α → ℕ → ℕ) (d : Dir w α) : ℕ → ℕ := Pi.single d.page 1 + ∑ i, (d.entry i).elim 0 f

@[simp] theorem pages_empty (f : α → ℕ → ℕ) (p : ℕ) :
    (empty p : Dir w α).pages f = Pi.single p 1 := by
  simp [pages, empty]

theorem pages_set (f : α → ℕ → ℕ) (d : Dir w α) (i : Fin w) (e : Option α) :
    (d.set i e).pages f + (d.entry i).elim 0 f = d.pages f + e.elim 0 f := by
  simp only [pages, set_page, set_entry, add_assoc,
    sum_update_add (fun _ (x : Option α) => x.elim 0 f) d.entry i e]

end Dir

abbrev Radix (w : ℕ) (α : Type) : ℕ → Type
  | 0 => Dir w α
  | n + 1 => Dir w (Radix w α n)

namespace Radix

variable {w : ℕ} [NeZero w] {α : Type}

def digit (w : ℕ) [NeZero w] (n k : ℕ) : Fin w := Fin.ofNat w (k / w ^ n)

def empty (p : ℕ) : (n : ℕ) → Radix w α n
  | 0 => (Dir.empty p : Dir w α)
  | n + 1 => (Dir.empty p : Dir w (Radix w α n))

def lookup : (n : ℕ) → Radix w α n → ℕ → Option α
  | 0, d, k => Dir.entry d (digit w 0 k)
  | n + 1, d, k => (Dir.entry d (digit w (n + 1) k)).bind fun c => lookup n c k

def Reaches : (n : ℕ) → Radix w α n → ℕ → Prop
  | 0, _, _ => True
  | n + 1, d, k => ∃ c, Dir.entry d (digit w (n + 1) k) = some c ∧ Reaches n c k

def store : (n : ℕ) → Radix w α n → ℕ → Option α → Radix w α n
  | 0, d, k, e => Dir.set d (digit w 0 k) e
  | n + 1, d, k, e =>
    match Dir.entry d (digit w (n + 1) k) with
    | some c => Dir.set d (digit w (n + 1) k) (some (store n c k e))
    | none => d

def dirs : (n : ℕ) → Radix w α n → ℕ → ℕ
  | 0, d => Dir.pages (fun _ => 0) d
  | n + 1, d => Dir.pages (dirs n) d

omit [NeZero w] in
@[simp] theorem dirs_empty (p n : ℕ) : dirs n (empty p n : Radix w α n) = Pi.single p 1 := by
  cases n with
  | zero => exact Dir.pages_empty _ p
  | succ n => exact Dir.pages_empty _ p

@[simp] theorem lookup_empty (p n k : ℕ) : lookup n (empty p n : Radix w α n) k = none := by
  cases n with
  | zero => rfl
  | succ n => rfl

theorem digit_eq_iff (n k l : ℕ) : digit w n k = digit w n l ↔ k / w ^ n % w = l / w ^ n % w := by
  simp [digit, Fin.ext_iff]

theorem mod_eq_iff (n k l : ℕ) :
    k % w ^ (n + 1) = l % w ^ (n + 1) ↔ digit w n k = digit w n l ∧ k % w ^ n = l % w ^ n := by
  have hw : 0 < w := Nat.pos_of_ne_zero (NeZero.ne w)
  have hpos : 0 < w ^ n := pow_pos hw n
  rw [digit_eq_iff, Nat.mod_pow_succ, Nat.mod_pow_succ]
  constructor
  · intro h
    have hlow : k % w ^ n = l % w ^ n := by
      have := congrArg (· % w ^ n) h
      simpa [Nat.add_mul_mod_self_left] using this
    refine ⟨?_, hlow⟩
    rw [hlow] at h
    exact Nat.eq_of_mul_eq_mul_left hpos (Nat.add_left_cancel h)
  · rintro ⟨hd, hlow⟩
    rw [hd, hlow]

theorem lookup_congr (n : ℕ) (d : Radix w α n) {k l : ℕ} (h : k % w ^ (n + 1) = l % w ^ (n + 1)) :
    lookup n d k = lookup n d l := by
  induction n with
  | zero => rw [lookup, lookup, ((mod_eq_iff 0 k l).1 h).1]
  | succ n ih =>
    obtain ⟨hd, hlow⟩ := (mod_eq_iff (n + 1) k l).1 h
    simp only [lookup, hd, fun c => ih c hlow]

theorem lookup_store (n : ℕ) (d : Radix w α n) {k : ℕ} (e : Option α) (h : Reaches n d k) (l : ℕ) :
    lookup n (store n d k e) l =
      if k % w ^ (n + 1) = l % w ^ (n + 1) then e else lookup n d l := by
  induction n with
  | zero =>
    simp only [lookup, store, mod_eq_iff, pow_zero, Nat.mod_one, and_true, Dir.set_entry,
      update_apply, eq_comm]
  | succ n ih =>
    obtain ⟨c, hc, hreach⟩ := h
    simp only [lookup, store, hc, Dir.set_entry, mod_eq_iff (n + 1) k l]
    by_cases hd : digit w (n + 1) k = digit w (n + 1) l
    · simp only [← hd, update_self, Option.bind_some, ih c hreach, true_and, hc]
    · rw [update_of_ne (Ne.symm hd)]
      simp [hd]

@[simp] theorem dirs_store (n : ℕ) (d : Radix w α n) (k : ℕ) (e : Option α) :
    dirs n (store n d k e) = dirs n d := by
  induction n with
  | zero =>
    have h := Dir.pages_set (fun _ => 0) (d : Dir w α) (digit w 0 k) e
    have hzero : ∀ o : Option α, o.elim 0 (fun _ => (0 : ℕ → ℕ)) = 0 := fun o => by cases o <;> rfl
    rw [hzero, hzero, add_zero, add_zero] at h
    exact h
  | succ n ih =>
    simp only [store]
    cases hk : Dir.entry d (digit w (n + 1) k) with
    | none => rfl
    | some c =>
      have h := Dir.pages_set (dirs n) d (digit w (n + 1) k) (some (store n c k e))
      rw [hk, Option.elim_some, Option.elim_some, ih c] at h
      exact add_right_cancel h

theorem reaches_of_lookup (n : ℕ) (d : Radix w α n) {k : ℕ} (h : (lookup n d k).isSome) :
    Reaches n d k := by
  induction n with
  | zero => trivial
  | succ n ih =>
    simp only [lookup] at h
    cases hk : Dir.entry d (digit w (n + 1) k) with
    | none => simp [hk] at h
    | some c => exact ⟨c, hk, ih c (by simpa [hk] using h)⟩

def Bare (n : ℕ) (d : Radix w α n) : Prop := ∀ k, lookup n d k = none

theorem bare_zero {d : Radix w α 0} (h : Bare 0 d) (i : Fin w) : Dir.entry d i = none := by
  have hi := h i
  rwa [lookup, show digit w 0 i = i by simp [digit]] at hi

theorem bare_succ {n : ℕ} {d : Radix w α (n + 1)} (h : Bare (n + 1) d) {i : Fin w}
    {c : Radix w α n} (hc : Dir.entry d i = some c) : Bare n c := by
  intro k
  have hw : 0 < w := Nat.pos_of_ne_zero (NeZero.ne w)
  have hpos : 0 < w ^ (n + 1) := pow_pos hw _
  -- the number with digit `i` on top of the lower digits of `k`
  have hk := h (k % w ^ (n + 1) + w ^ (n + 1) * i)
  have hdigit : digit w (n + 1) (k % w ^ (n + 1) + w ^ (n + 1) * i) = i := by
    simp only [digit]
    rw [Nat.add_mul_div_left _ _ hpos, Nat.div_eq_of_lt (Nat.mod_lt _ hpos), Nat.zero_add]
    simp
  simp only [lookup, hdigit, hc, Option.bind_some] at hk
  rw [← hk]
  exact lookup_congr n c (by simp [Nat.add_mul_mod_self_left])

end Radix

end Xv6MallocLab
