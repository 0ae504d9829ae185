import Xv6MallocLab.UserProcess

/-!
# Runs of a process

`Along` says that every request starts in a state with a given property.  Refusals of the
kernel are only ever counted up.
-/

namespace Xv6MallocLab

open ByteMemory Prog

theorem outer_eq {s s' : Process} (h : outer s = outer s') :
    s.base = s'.base ∧ s.refusals = s'.refusals := by
  simp only [outer, Prod.mk.injEq] at h
  exact ⟨h.1, h.2.2.2.2.1⟩

/-- A call that never takes back a refusal. -/
def Lasting {α : Type} (x : Prog α) : Prop := ∀ s, s.refusals ≤ (x.final s).refusals

variable {α β : Type} {x : Prog α} {f : α → Prog β}

theorem Lasting.of_internal (hx : Internal x) : Lasting x := fun s => (outer_eq (hx s)).2.ge

theorem Lasting.bind (hx : Lasting x) (hf : ∀ a, Lasting (f a)) : Lasting (x >>= f) := by
  intro s
  rcases final_bind x f s with ⟨a, -, hfinal⟩ | ⟨-, hfinal⟩
  · rw [hfinal]
    exact (hx s).trans (hf a _)
  · rw [hfinal]
    exact hx s

theorem lasting_after (hf : ∀ a, Lasting (f a)) (s : Process) :
    (x.final s).refusals ≤ ((x >>= f).final s).refusals := by
  rcases final_bind x f s with ⟨a, -, hfinal⟩ | ⟨-, hfinal⟩
  · rw [hfinal]
    exact hf a _
  · rw [hfinal]

theorem sbrk_cases (n : ℤ) (s : Process) :
    (∃ s', (sbrk n).run s = .ok s.brk s' ∧ s'.base = s.base ∧ s'.refusals = s.refusals) ∨
      ∃ s', (sbrk n).run s = .ok minusOne s' ∧ s'.base = s.base ∧
        s'.refusals = s.refusals + 1 := by
  unfold sbrk
  rw [run_bind_ok (EStateM.run_get _), run_ite]
  split
  · rw [run_ite]
    split
    · exact .inl ⟨_, rfl, rfl, rfl⟩
    · exact .inr ⟨_, rfl, rfl, rfl⟩
  · exact .inl ⟨_, rfl, rfl, rfl⟩

theorem lasting_sbrk (n : ℤ) : Lasting (sbrk n) := by
  intro s
  rcases sbrk_cases n s with ⟨s', hrun, -, hsame⟩ | ⟨s', hrun, -, hmore⟩
  · rw [final_of_ok hrun, hsame]
  · rw [final_of_ok hrun, hmore]
    omega

theorem Lasting.ite {condition : Prop} [Decidable condition] {y : Prog α} (hx : Lasting x)
    (hy : Lasting y) : Lasting (if condition then x else y) := by
  split
  · exact hx
  · exact hy

section Serve

variable {ρ : Type} {serve : ρ → Prog ℕ}

/-- Serve the requests one after the other. -/
def serveAll (serve : ρ → Prog ℕ) : List ρ → Prog (List ℕ)
  | [] => return []
  | request :: rest => do
      let p ← serve request
      let ps ← serveAll serve rest
      return p :: ps

/-- Each request starts in a state with `P`. -/
def Along (serve : ρ → Prog ℕ) (P : Process → ρ → Prop) : List ρ → Process → Prop
  | [], _ => True
  | request :: rest, s =>
    P s request ∧ ∀ p s', (serve request).run s = .ok p s' → Along serve P rest s'

theorem along_of_forall {P : Process → ρ → Prop} {requests : List ρ}
    (hP : ∀ request ∈ requests, ∀ s, P s request) (s : Process) : Along serve P requests s := by
  induction requests generalizing s with
  | nil => trivial
  | cons request rest ih =>
    exact ⟨hP request (by simp) s, fun _ s' _ => ih (fun x hx => hP x (by simp [hx])) s'⟩

theorem lasting_serveAll (hserve : ∀ request, Lasting (serve request)) (requests : List ρ) :
    Lasting (serveAll serve requests) := by
  induction requests with
  | nil => exact Lasting.of_internal (.pure [])
  | cons request rest ih =>
    exact .bind (hserve request) fun p =>
      Lasting.bind ih fun ps => Lasting.of_internal (.pure (p :: ps))

variable {request : ρ} {rest : List ρ} {s s1 s2 : Process} {p : ℕ} {ps : List ℕ}

theorem granted_first (hserve : ∀ request, Lasting (serve request))
    (hgranted : ((serveAll serve (request :: rest)).final s).refusals = s.refusals) :
    ((serve request).final s).refusals ≤ s.refusals := by
  have hstep := lasting_after (fun p : ℕ => .bind (lasting_serveAll hserve rest) fun ps =>
    Lasting.of_internal (.pure (p :: ps))) (x := serve request) s
  have hfinal : (serve request >>= fun p => serveAll serve rest >>= fun ps =>
      Pure.pure (p :: ps)).final s = (serveAll serve (request :: rest)).final s := rfl
  rw [hfinal, hgranted] at hstep
  exact hstep

theorem granted_rest (hrun : (serve request).run s = .ok p s1)
    (hsame : s1.refusals = s.refusals)
    (hgranted : ((serveAll serve (request :: rest)).final s).refusals = s.refusals) :
    ((serveAll serve rest).final s1).refusals = s1.refusals := by
  have hseq : (serveAll serve (request :: rest)).final s =
      (serveAll serve rest >>= fun ps => Pure.pure (p :: ps)).final s1 := final_bind_ok hrun
  have hpure := outer_eq (outer_final_bind (serveAll serve rest)
    (fun ps => .pure (p :: ps)) s1)
  rw [← hpure.2, ← hseq, hgranted, hsame]

theorem run_serveAll_cons (hrun : (serve request).run s = .ok p s1)
    (hrest : (serveAll serve rest).run s1 = .ok ps s2) :
    (serveAll serve (request :: rest)).run s = .ok (p :: ps) s2 := by
  unfold serveAll
  rw [run_bind_ok hrun, run_bind_ok hrest]
  rfl

end Serve

end Xv6MallocLab
