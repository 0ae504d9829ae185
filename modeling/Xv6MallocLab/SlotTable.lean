import Mathlib.Tactic

/-!
# Tables with empty slots

A list of slots, each empty or with a key and a value, as a finite map.  As long as no
key stands in two slots, filling an empty slot adds a key and emptying one takes its key
away.
-/

namespace Xv6MallocLab.SlotTable

open Function List

variable {κ ν : Type*}

abbrev Table (κ ν : Type*) := List (Option (κ × ν))

/-- No key stands in two slots. -/
def Distinct (t : Table κ ν) : Prop :=
  ∀ ⦃i j : ℕ⦄ ⦃e e' : κ × ν⦄, t[i]? = some (some e) → t[j]? = some (some e') → e.1 = e'.1 → i = j

structure Vacant (t : Table κ ν) (i : ℕ) : Prop where
  le : i ≤ t.length
  empty : ∀ e, t[i]? ≠ some (some e)

/-- Fill slot `i`, or the one behind the last. -/
def put (t : Table κ ν) (i : ℕ) (e : κ × ν) : Table κ ν := t.take i ++ some e :: t.drop (i + 1)

variable {t : Table κ ν} {i : ℕ} {k : κ} {v : ν}

theorem getElem?_put (hi : i ≤ t.length) (e : κ × ν) (j : ℕ) :
    (put t i e)[j]? = if j = i then some (some e) else t[j]? := by
  have hlen : (t.take i).length = i := by rw [length_take, min_eq_left hi]
  unfold put
  rcases lt_trichotomy j i with h | h | h
  · rw [getElem?_append_left (by omega), getElem?_take_of_lt h, if_neg (by omega)]
  · rw [getElem?_append_right (by omega), hlen, h, Nat.sub_self, if_pos rfl]
    rfl
  · obtain ⟨k, rfl⟩ : ∃ k, j = i + 1 + k := ⟨j - (i + 1), by omega⟩
    rw [getElem?_append_right (by omega), hlen, if_neg (by omega),
      show i + 1 + k - i = k + 1 by omega, getElem?_cons_succ, getElem?_drop]

theorem Distinct.put {e : κ × ν} (h : Distinct t) (hi : i ≤ t.length)
    (hnew : ∀ (j : ℕ) (v : ν), t[j]? ≠ some (some (e.1, v))) : Distinct (put t i e) := by
  intro j j' x x' hj hj' hkey
  rw [getElem?_put hi] at hj hj'
  split_ifs at hj hj' with h1 h2 h2
  · rw [h1, h2]
  · cases hj
    exact absurd (by rw [hj', hkey]) (hnew j' x'.2)
  · cases hj'
    exact absurd (by rw [hj, ← hkey]) (hnew j x.2)
  · exact h hj hj' hkey

theorem getElem?_set_none {j : ℕ} {e : κ × ν} :
    (t.set i none)[j]? = some (some e) ↔ j ≠ i ∧ t[j]? = some (some e) := by
  rw [getElem?_set]
  split_ifs with h1 h2
  · simp [h1]
  · simp [h1]
  · simp [Ne.symm h1]

theorem Distinct.erase (h : Distinct t) (i : ℕ) : Distinct (t.set i none) := by
  intro j j' x x' hj hj' hkey
  rw [getElem?_set_none] at hj hj'
  exact h hj.2 hj'.2 hkey

variable [DecidableEq κ]

/-- The value in the first slot with the key. -/
def lookup (t : Table κ ν) (k : κ) : Option ν :=
  t.findSome? fun s => s.bind fun e => if e.1 = k then some e.2 else none

theorem lookup_eq_none : lookup t k = none ↔ ∀ (i : ℕ) (v : ν), t[i]? ≠ some (some (k, v)) := by
  unfold lookup
  rw [findSome?_eq_none_iff]
  constructor
  · intro h i v hi
    have := h _ (mem_of_getElem? hi)
    simp at this
  · intro h s hs
    obtain ⟨i, hi⟩ := mem_iff_getElem?.1 hs
    rcases s with - | ⟨k', v⟩
    · rfl
    · refine if_neg ?_
      rintro rfl
      exact h i v hi

theorem exists_of_lookup (h : lookup t k = some v) : ∃ i : ℕ, t[i]? = some (some (k, v)) := by
  obtain ⟨s, hs, hbind⟩ := exists_of_findSome?_eq_some h
  obtain ⟨i, hi⟩ := mem_iff_getElem?.1 hs
  rcases s with - | ⟨k', v'⟩
  · cases hbind
  · change (if k' = k then some v' else none) = some v at hbind
    split_ifs at hbind with hk
    cases hbind
    exact ⟨i, hk ▸ hi⟩

theorem Distinct.lookup_eq_some (h : Distinct t) :
    lookup t k = some v ↔ ∃ i : ℕ, t[i]? = some (some (k, v)) := by
  refine ⟨exists_of_lookup, ?_⟩
  rintro ⟨i, hi⟩
  cases hv : lookup t k with
  | none => exact absurd hi (lookup_eq_none.1 hv i v)
  | some w =>
    obtain ⟨j, hj⟩ := exists_of_lookup hv
    obtain rfl := h hi hj rfl
    rw [hi] at hj
    cases hj
    rfl

theorem lookup_put (h : Distinct t) (hi : Vacant t i) (hnew : lookup t k = none) :
    lookup (put t i (k, v)) = update (lookup t) k (some v) := by
  have hput := h.put hi.le (e := (k, v)) (lookup_eq_none.1 hnew)
  funext k'
  refine Option.ext fun w => ?_
  rw [hput.lookup_eq_some]
  simp only [getElem?_put hi.le, update_apply]
  by_cases hk : k' = k
  · subst hk
    rw [if_pos rfl]
    constructor
    · rintro ⟨j, hj⟩
      split_ifs at hj with hji
      · cases hj
        rfl
      · exact absurd hj (lookup_eq_none.1 hnew j w)
    · rintro ⟨⟩
      exact ⟨i, if_pos rfl⟩
  · rw [if_neg hk, h.lookup_eq_some]
    constructor
    · rintro ⟨j, hj⟩
      split_ifs at hj with hji
      · cases hj
        exact absurd rfl hk
      · exact ⟨j, hj⟩
    · rintro ⟨j, hj⟩
      refine ⟨j, (if_neg ?_).trans hj⟩
      rintro rfl
      exact hi.empty _ hj

theorem lookup_erase (h : Distinct t) (hi : t[i]? = some (some (k, v))) :
    lookup (t.set i none) = update (lookup t) k none := by
  funext k'
  refine Option.ext fun w => ?_
  rw [(h.erase i).lookup_eq_some]
  simp only [getElem?_set_none, update_apply]
  by_cases hk : k' = k
  · subst hk
    rw [if_pos rfl]
    constructor
    · rintro ⟨j, hj, hjw⟩
      exact absurd (h hjw hi rfl) hj
    · exact nofun
  · rw [if_neg hk, h.lookup_eq_some]
    constructor
    · rintro ⟨j, -, hj⟩
      exact ⟨j, hj⟩
    · rintro ⟨j, hj⟩
      refine ⟨j, ?_, hj⟩
      rintro rfl
      rw [hi] at hj
      cases hj
      exact hk rfl

end Xv6MallocLab.SlotTable
