import Mathlib.Tactic

/-!
# Trees of pointers

Nodes hold, under every index, nothing or the name of another node.  `Apart` says that
different paths from a root lead to different nodes, so that what is reached is a tree.
-/

namespace Xv6MallocLab.PointerTree

open List

variable {ν ι : Type}

def follow (next : ν → ι → Option ν) (root : ν) (path : List ι) : Option ν := path.foldlM next root

/-- No two paths of at most `n` steps lead to the same node. -/
def Apart (next : ν → ι → Option ν) (root : ν) (n : ℕ) : Prop :=
  ∀ p q a, p.length ≤ n → q.length ≤ n →
    follow next root p = some a → follow next root q = some a → p = q

variable {next next' : ν → ι → Option ν} {root a b c : ν} {n : ℕ} {p q : List ι} {i : ι}

@[simp] theorem follow_nil (next : ν → ι → Option ν) (root : ν) : follow next root [] = some root := rfl

theorem follow_append (next : ν → ι → Option ν) (root : ν) (p q : List ι) :
    follow next root (p ++ q) = (follow next root p).bind fun a => follow next a q := by
  rw [follow, foldlM_append]
  rfl

theorem follow_concat (next : ν → ι → Option ν) (root : ν) (p : List ι) (i : ι) :
    follow next root (p ++ [i]) = (follow next root p).bind fun a => next a i := by
  rw [follow_append]
  congr 1
  funext a
  rw [follow, foldlM_cons]
  cases next a i with
  | none => rfl
  | some c => rfl

theorem follow_congr
    (hsame : ∀ p a i, p.length < n → follow next root p = some a → next' a i = next a i)
    (hq : q.length ≤ n) : follow next' root q = follow next root q := by
  induction q using List.reverseRecOn with
  | nil => rfl
  | append_singleton q j ih =>
    rw [length_append, length_singleton] at hq
    rw [follow_concat, follow_concat, ih (by omega)]
    cases hnode : follow next root q with
    | none => rfl
    | some a => exact hsame q a j (by omega) hnode

theorem Apart.congr (h : Apart next root n)
    (hsame : ∀ q, q.length ≤ n → follow next' root q = follow next root q) : Apart next' root n := by
  intro p q a hp hq hpa hqa
  rw [hsame p hp] at hpa
  rw [hsame q hq] at hqa
  exact h p q a hp hq hpa hqa

/-- `next'` is `next` with the new node `c` under the empty index `i` of the node that
`p` leads to. -/
structure Grafts (next next' : ν → ι → Option ν) (root : ν) (n : ℕ) (p : List ι) (i : ι) (c : ν) :
    Prop where
  short : p.length < n
  fresh : ∀ q, q.length ≤ n → follow next root q ≠ some c
  vacant : ∃ b, follow next root p = some b ∧ next b i = none ∧ next' b i = some c
  bare : ∀ j, next' c j = none
  same : ∀ q a j, q.length ≤ n → follow next root q = some a → (q ≠ p ∨ j ≠ i) → next' a j = next a j

namespace Grafts

variable [DecidableEq ι]

theorem follow_eq (h : Grafts next next' root n p i c) (hq : q.length ≤ n) :
    follow next' root q = if q = p ++ [i] then some c else follow next root q := by
  obtain ⟨b, hb, hnone, hsome⟩ := h.vacant
  induction q using List.reverseRecOn with
  | nil => simp
  | append_singleton q j ih =>
    rw [length_append, length_singleton] at hq
    rw [follow_concat, ih (by omega)]
    by_cases hnew : q = p ++ [i]
    · -- below the new node there is nothing, and there was nothing
      subst hnew
      have hlong : p ++ [i] ++ [j] ≠ p ++ [i] := fun heq => by
        simpa using congrArg List.length heq
      rw [if_pos rfl, if_neg hlong, follow_concat, follow_concat, hb]
      change next' c j = (next b i).bind _
      rw [h.bare, hnone]
      rfl
    · rw [if_neg hnew, follow_concat]
      by_cases hhere : q = p ∧ j = i
      · obtain ⟨rfl, rfl⟩ := hhere
        rw [if_pos rfl, hb]
        exact hsome
      · have hother : q ++ [j] ≠ p ++ [i] := by
          intro heq
          obtain ⟨hqp, hji⟩ := append_inj' heq rfl
          exact hhere ⟨hqp, by simpa using hji⟩
        rw [if_neg hother]
        cases hnode : follow next root q with
        | none => rfl
        | some a =>
          refine h.same q a j (by omega) hnode ?_
          by_contra hboth
          push Not at hboth
          exact hhere hboth

theorem follow_of_some (h : Grafts next next' root n p i c) (hq : q.length ≤ n)
    (hold : follow next root q = some a) : follow next' root q = some a := by
  rw [h.follow_eq hq]
  obtain ⟨b, hb, hnone, -⟩ := h.vacant
  have hne : q ≠ p ++ [i] := by
    rintro rfl
    rw [follow_concat, hb] at hold
    change next b i = some a at hold
    rw [hnone] at hold
    cases hold
  rw [if_neg hne, hold]

theorem apart (h : Grafts next next' root n p i c) (hapart : Apart next root n) :
    Apart next' root n := by
  intro q r a hq hr hqa hra
  rw [h.follow_eq hq] at hqa
  rw [h.follow_eq hr] at hra
  split at hqa
  · rename_i hqnew
    cases hqa
    split at hra
    · rename_i hrnew
      rw [hqnew, hrnew]
    · exact absurd hra (h.fresh r hr)
  · split at hra
    · cases hra
      exact absurd hqa (h.fresh q hq)
    · exact hapart q r a hq hr hqa hra

end Grafts

end Xv6MallocLab.PointerTree
