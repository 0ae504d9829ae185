import Mathlib.Tactic

/-!
# Slots, identifiers and last words

A table of slots holds individuals.  Each is born into an empty slot under an
identifier never used before, dies leaving a word, and stays until it is collected.
-/

namespace Xv6MallocLab.Lifecycle

open Function

abbrev Life (κ ν : Type*) := Option (κ × Option ν)

/-- Who lives in a slot, all identifiers used, the last words left and those collected. -/
structure Book (ι κ ν : Type*) where
  life : ι → Life κ ν
  used : Set κ
  deaths : List (κ × ν)
  collected : List (κ × ν)

namespace Book

variable {ι κ ν : Type*} [DecidableEq ι]

inductive Step : Book ι κ ν → Book ι κ ν → Prop
  | skip (b : Book ι κ ν) : Step b b
  | waste (b : Book ι κ ν) (k : κ) : Step b { b with used := insert k b.used }
  | birth (b : Book ι κ ν) (c : ι) (k : κ) (hc : b.life c = none) (hk : k ∉ b.used) :
      Step b { b with life := update b.life c (some (k, none)), used := insert k b.used }
  | death (b : Book ι κ ν) (c : ι) (k : κ) (v : ν) (hc : b.life c = some (k, none)) :
      Step b { b with
        life := update b.life c (some (k, some v))
        deaths := b.deaths ++ [(k, v)] }
  | collect (b : Book ι κ ν) (c : ι) (k : κ) (v : ν) (hc : b.life c = some (k, some v)) :
      Step b { b with
        life := update b.life c none
        collected := b.collected ++ [(k, v)] }

structure Sound (b : Book ι κ ν) : Prop where
  distinct : ∀ {c d k x y}, b.life c = some (k, x) → b.life d = some (k, y) → c = d
  lifeUsed : ∀ {c k x}, b.life c = some (k, x) → k ∈ b.used
  deathUsed : ∀ {k v}, (k, v) ∈ b.deaths → k ∈ b.used
  living : ∀ {c k}, b.life c = some (k, none) → ∀ v, (k, v) ∉ b.deaths
  dead : ∀ {c k v}, b.life c = some (k, some v) → (k, v) ∈ b.deaths ∧ ∀ w, (k, w) ∉ b.collected
  once : (b.deaths.map Prod.fst).Nodup
  collectedOnce : (b.collected.map Prod.fst).Nodup
  collectedDead : ∀ {k v}, (k, v) ∈ b.collected → (k, v) ∈ b.deaths

namespace Sound

variable {b b' : Book ι κ ν} {c d : ι} {k j : κ} {v w : ν}

omit [DecidableEq ι] in
theorem waste (h : Sound b) (k : κ) : Sound { b with used := insert k b.used } :=
  { h with
    lifeUsed := fun hc => Set.mem_insert_of_mem _ (h.lifeUsed hc)
    deathUsed := fun hd => Set.mem_insert_of_mem _ (h.deathUsed hd) }

theorem update_cases (hk : ∀ {e x}, e ≠ c → b.life e ≠ some (k, x)) {o x : Option ν} {e : ι}
    (he : update b.life c (some (k, o)) e = some (j, x)) :
    (e = c ∧ j = k ∧ x = o) ∨ (e ≠ c ∧ j ≠ k ∧ b.life e = some (j, x)) := by
  by_cases hec : e = c
  · subst hec
    have hpair : k = j ∧ o = x := by simpa using he
    exact .inl ⟨rfl, hpair.1.symm, hpair.2.symm⟩
  · rw [update_of_ne hec] at he
    exact .inr ⟨hec, fun hj => hk hec (hj ▸ he), he⟩

theorem distinct_update (h : Sound b) (hk : ∀ {e x}, e ≠ c → b.life e ≠ some (k, x))
    {o x y : Option ν} {e e' : ι}
    (he : update b.life c (some (k, o)) e = some (j, x))
    (he' : update b.life c (some (k, o)) e' = some (j, y)) : e = e' := by
  obtain ⟨rfl, rfl, -⟩ | ⟨-, hj, he⟩ := update_cases hk he <;>
    obtain ⟨rfl, hj', -⟩ | ⟨-, hj', he'⟩ := update_cases hk he'
  · rfl
  · exact absurd rfl hj'
  · exact absurd hj' hj
  · exact h.distinct he he'

theorem birth (h : Sound b) (c : ι) (hk : k ∉ b.used) :
    Sound { b with life := update b.life c (some (k, none)), used := insert k b.used } := by
  have hother : ∀ {e x}, e ≠ c → b.life e ≠ some (k, x) := fun _ he => hk (h.lifeUsed he)
  refine { h with distinct := h.distinct_update hother, lifeUsed := ?_, deathUsed := ?_,
                  living := ?_, dead := ?_ }
  · intro e j x he
    obtain ⟨-, rfl, -⟩ | ⟨-, -, he⟩ := update_cases hother he
    · exact Set.mem_insert _ _
    · exact Set.mem_insert_of_mem _ (h.lifeUsed he)
  · exact fun hd => Set.mem_insert_of_mem _ (h.deathUsed hd)
  · intro e j he v hv
    obtain ⟨-, rfl, -⟩ | ⟨-, -, he⟩ := update_cases hother he
    · exact hk (h.deathUsed hv)
    · exact h.living he v hv
  · intro e j v he
    obtain ⟨-, -, hx⟩ | ⟨-, -, he⟩ := update_cases hother he
    · cases hx
    · exact h.dead he

theorem death (h : Sound b) (hc : b.life c = some (k, none)) (v : ν) :
    Sound { b with
      life := update b.life c (some (k, some v))
      deaths := b.deaths ++ [(k, v)] } := by
  have hother : ∀ {e x}, e ≠ c → b.life e ≠ some (k, x) := fun hec he => hec (h.distinct he hc)
  have hold : ∀ {j w}, (j, w) ∈ b.deaths ++ [(k, v)] → (j, w) ∈ b.deaths ∨ (j = k ∧ w = v) := by
    intro j w hm
    simpa using hm
  refine { distinct := h.distinct_update hother, lifeUsed := ?_, deathUsed := ?_, living := ?_,
           dead := ?_, once := ?_, collectedOnce := h.collectedOnce, collectedDead := ?_ }
  · intro e j x he
    obtain ⟨-, rfl, -⟩ | ⟨-, -, he⟩ := update_cases hother he
    · exact h.lifeUsed hc
    · exact h.lifeUsed he
  · intro j w hm
    obtain hm | ⟨rfl, -⟩ := hold hm
    · exact h.deathUsed hm
    · exact h.lifeUsed hc
  · intro e j he w hm
    obtain ⟨-, -, hx⟩ | ⟨-, hj, he⟩ := update_cases hother he
    · cases hx
    · obtain hm | ⟨rfl, -⟩ := hold hm
      · exact h.living he w hm
      · exact hj rfl
  · intro e j w he
    obtain ⟨-, rfl, hx⟩ | ⟨-, -, he⟩ := update_cases hother he
    · cases hx
      exact ⟨by simp, fun w hw => h.living hc w (h.collectedDead hw)⟩
    · exact ⟨List.mem_append_left _ (h.dead he).1, (h.dead he).2⟩
  · rw [List.map_append]
    refine h.once.append (by simp) ?_
    simpa using fun w => h.living hc w
  · exact fun hm => List.mem_append_left _ (h.collectedDead hm)

theorem collect (h : Sound b) (hc : b.life c = some (k, some v)) :
    Sound { b with
      life := update b.life c none
      collected := b.collected ++ [(k, v)] } := by
  have hlife : ∀ {e j x}, update b.life c none e = some (j, x) →
      j ≠ k ∧ b.life e = some (j, x) := by
    intro e j x he
    by_cases hec : e = c
    · simp [hec] at he
    · rw [update_of_ne hec] at he
      exact ⟨fun hj => hec (h.distinct (hj ▸ he) hc), he⟩
  have hold : ∀ {j w}, (j, w) ∈ b.collected ++ [(k, v)] →
      (j, w) ∈ b.collected ∨ (j = k ∧ w = v) := by
    intro j w hm
    simpa using hm
  refine { distinct := ?_, lifeUsed := ?_, deathUsed := h.deathUsed, living := ?_, dead := ?_,
           once := h.once, collectedOnce := ?_, collectedDead := ?_ }
  · exact fun he he' => h.distinct (hlife he).2 (hlife he').2
  · exact fun he => h.lifeUsed (hlife he).2
  · exact fun he => h.living (hlife he).2
  · intro e j w he
    refine ⟨(h.dead (hlife he).2).1, fun w' hm => ?_⟩
    obtain hm | ⟨rfl, -⟩ := hold hm
    · exact (h.dead (hlife he).2).2 w' hm
    · exact (hlife he).1 rfl
  · rw [List.map_append]
    refine h.collectedOnce.append (by simp) ?_
    simpa using fun w => (h.dead hc).2 w
  · intro j w hm
    obtain hm | ⟨rfl, rfl⟩ := hold hm
    · exact h.collectedDead hm
    · exact (h.dead hc).1

/-- Every step keeps each last word single, and collected at most once. -/
theorem step (h : Sound b) (hs : Step b b') : Sound b' := by
  cases hs with
  | skip => exact h
  | waste k => exact h.waste k
  | birth c k hc hk => exact h.birth c hk
  | death c k v hc => exact h.death hc v
  | collect c k v hc => exact h.collect hc

end Sound
end Book
end Xv6MallocLab.Lifecycle
