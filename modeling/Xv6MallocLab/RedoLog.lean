import Mathlib.Tactic

/-!
# Redo logs

A redo log holds the names of some blocks and a copy of what each is to become.  A store
that agrees with the target everywhere else can be completed from the log, and installing
copies, any number of times, never loses that.
-/

namespace Xv6MallocLab.RedoLog

open Function

variable {α β : Type*}

section Replay

variable [DecidableEq α]

def replay (updates : List (α × β)) (d : α → β) : α → β :=
  updates.foldl (fun d u => update d u.1 u.2) d

@[simp] theorem replay_nil (d : α → β) : replay [] d = d := rfl

theorem replay_append (us vs : List (α × β)) (d : α → β) :
    replay (us ++ vs) d = replay vs (replay us d) := List.foldl_append

theorem replay_concat (us : List (α × β)) (x : α) (v : β) (d : α → β) :
    replay (us ++ [(x, v)]) d = update (replay us d) x v := replay_append us [(x, v)] d

theorem replay_of_forall_ne {us : List (α × β)} {x : α} (hx : ∀ u ∈ us, u.1 ≠ x) (d : α → β) :
    replay us d x = d x := by
  induction us using List.reverseRecOn with
  | nil => rfl
  | append_singleton us u ih =>
    rw [replay_concat, update_of_ne (hx u (by simp)).symm]
    exact ih fun v hv => hx v (by simp [hv])

end Replay

/-- The store `d` becomes `target` on the blocks in `home` once the copies are
installed. -/
structure Redo (home : α → Prop) (target d : α → β) (names : List α) (copy : ℕ → β) : Prop where
  rest : ∀ x, home x → x ∉ names → d x = target x
  copies : ∀ i (hi : i < names.length), copy i = target names[i]

variable {home : α → Prop} {target d : α → β} {names : List α} {copy : ℕ → β}

def Installed (target d : α → β) (names : List α) (k : ℕ) : Prop :=
  ∀ i (hi : i < names.length), i < k → d names[i] = target names[i]

theorem redo_nil (hrest : ∀ x, home x → d x = target x) : Redo home target d [] copy :=
  ⟨fun x hx _ => hrest x hx, fun i hi => absurd hi (Nat.not_lt_zero i)⟩

theorem Redo.congr {d' : α → β} {copy' : ℕ → β} (hredo : Redo home target d names copy)
    (hhome : ∀ x, home x → d' x = d x) (hcopy : ∀ i, i < names.length → copy' i = copy i) :
    Redo home target d' names copy' := by
  refine ⟨fun x hx hmem => ?_, fun i hi => ?_⟩
  · rw [hhome x hx, hredo.rest x hx hmem]
  · rw [hcopy i hi, hredo.copies i hi]

theorem installed_zero : Installed target d names 0 := fun _ _ hi => absurd hi (Nat.not_lt_zero _)

variable [DecidableEq α]

theorem Redo.install (hredo : Redo home target d names copy) {k : ℕ} (hk : k < names.length) :
    Redo home target (update d names[k] (copy k)) names copy := by
  refine ⟨fun x hx hmem => ?_, hredo.copies⟩
  have hne : x ≠ names[k] := by
    rintro rfl
    exact hmem (List.getElem_mem hk)
  rw [update_of_ne hne, hredo.rest x hx hmem]

theorem Installed.step (hredo : Redo home target d names copy) {k : ℕ}
    (hdone : Installed target d names k) (hk : k < names.length) :
    Installed target (update d names[k] (copy k)) names (k + 1) := by
  intro i hi hik
  by_cases heq : names[i] = names[k]
  · rw [heq, update_self, hredo.copies k hk]
  · have hne : i ≠ k := by
      rintro rfl
      exact heq rfl
    rw [update_of_ne heq, hdone i hi (by omega)]

omit [DecidableEq α] in
theorem Redo.complete (hredo : Redo home target d names copy)
    (hdone : Installed target d names names.length) {x : α} (hx : home x) : d x = target x := by
  by_cases hmem : x ∈ names
  · obtain ⟨i, hi, rfl⟩ := List.getElem_of_mem hmem
    exact hdone i hi hi
  · exact hredo.rest x hx hmem

end Xv6MallocLab.RedoLog
