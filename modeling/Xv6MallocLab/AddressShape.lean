import Xv6MallocLab.ProcMemory

/-!
# The shape of user address spaces

The entries of a process's table are its user pages, all distinct, and the two fixed pages;
and so no call runs into one of the panics of vm.c and exec.c.
-/

namespace Xv6MallocLab.Paging

open ProcTable (Slot initproc)

variable {im : Image} {s : State} {i : Slot} {p : Proc}

theorem Sound.pages_eq (h : Sound im s) (hp : s.proc i = some p) :
    pgRoundUp p.sz / pgsize = npages p.sz := by
  rw [pgRoundUp_eq (le_of_npages (h.npages_le hp)), Nat.mul_div_cancel _ pgsize_pos]

theorem contents_of_lt {t : Table} {v : ℕ} (h : v < span) : Radix.lookup 2 t v = contents t v :=
  (if_pos h).symm

theorem fixedTop_some {tf : Page} {v : ℕ} {e : Pte} (h : fixedTop im tf v = some e) :
    (v = trapframePage ∨ v = trampolinePage) ∧ e.perm.u = false := by
  simp only [fixedTop, Function.update_apply] at h
  split_ifs at h with htf htr
  · cases h
    exact ⟨Or.inl htf, rfl⟩
  · cases h
    exact ⟨Or.inr htr, rfl⟩

theorem Proc.Fit.isSome_iff (hfit : p.Fit im) (hn : npages p.sz ≤ 2 ^ 15) (v : ℕ) :
    (contents p.pagetable v).isSome ↔
      v < npages p.sz ∨ v = trapframePage ∨ v = trampolinePage := by
  constructor
  · intro hv
    obtain ⟨e, he⟩ := Option.isSome_iff_exists.1 hv
    by_cases hlt : v < npages p.sz
    · exact Or.inl hlt
    · rw [hfit.above v (by omega)] at he
      exact Or.inr (fixedTop_some he).1
  · rintro (hv | rfl | rfl)
    · obtain ⟨e, he, -⟩ := hfit.user v hv
      rw [he]
      rfl
    · rw [hfit.above _ (le_trans hn (by decide)), fixedTop_trapframe]
      rfl
    · rw [hfit.above _ (le_trans hn (by decide)), fixedTop_trampoline]
      rfl

theorem Sound.page_inj (h : Sound im s) (hp : s.proc i = some p) {v w : ℕ} {e e' : Pte}
    (hv : v < npages p.sz) (hw : w < npages p.sz) (he : contents p.pagetable v = some e)
    (he' : contents p.pagetable w = some e') (hpage : e.page = e'.page) : v = w := by
  refine page_inj_of_le_one (fun q => ?_) (Finset.mem_range.2 hv) (Finset.mem_range.2 hw) he he' hpage
  have hone := (h.balanced_rest hp).le_one q
  simp only [Pi.add_apply, Proc.pages, held] at hone
  omega

theorem Sound.lt_of_user (h : Sound im s) (hp : s.proc i = some p) {v : ℕ} {e : Pte}
    (he : contents p.pagetable v = some e) (hu : e.perm.u = true) : v < npages p.sz := by
  by_contra hlt
  rw [(h.fit i p hp).above v (by omega)] at he
  rw [(fixedTop_some he).2] at hu
  cases hu

/-- In every state that calls lead to: the valid leaf entries are the pages below the
size, `TRAPFRAME` and `TRAMPOLINE`, no other entry has `PTE_U`, and no call stops but
`exit` of the first process. -/
theorem user_space_shape {im : Image} {s : State} (h : Reached im s) :
    (∀ i p, s.proc i = some p →
      (∀ v < span, (Radix.lookup 2 p.pagetable v).isSome ↔
        v < pgRoundUp p.sz / pgsize ∨ v = trapframeVa / pgsize ∨ v = trampolineVa / pgsize) ∧
      (∀ v < pgRoundUp p.sz / pgsize, ∀ w < pgRoundUp p.sz / pgsize, ∀ e e',
        Radix.lookup 2 p.pagetable v = some e → Radix.lookup 2 p.pagetable w = some e' →
          e.page = e'.page → v = w) ∧
      (∀ v < span, ∀ e, Radix.lookup 2 p.pagetable v = some e → e.perm.u = true →
        v < pgRoundUp p.sz / pgsize)) ∧
    (∀ c e, perform im s c = .error e → e = .initExiting) := by
  have hsound := h.sound
  refine ⟨fun i p hp => ?_, fun c e hcall => ?_⟩
  · have hfit := hsound.fit i p hp
    have hn := hsound.npages_le hp
    have hspan : npages p.sz ≤ span := le_trans hn (by decide)
    rw [hsound.pages_eq hp, show trapframeVa / pgsize = trapframePage by decide,
      show trampolineVa / pgsize = trampolinePage by decide]
    refine ⟨fun v hv => ?_, fun v hv w hw e e' he he' hpage => ?_, fun v hv e he hu => ?_⟩
    · rw [contents_of_lt hv, hfit.isSome_iff hn]
    · rw [contents_of_lt (lt_of_lt_of_le hv hspan)] at he
      rw [contents_of_lt (lt_of_lt_of_le hw hspan)] at he'
      exact hsound.page_inj hp hv hw he he' hpage
    · rw [contents_of_lt hv] at he
      exact hsound.lt_of_user hp he hu
  · by_cases hc : c = .exit initproc
    · subst hc
      rcases perform_exit_init im s with hexit | hexit
      · rw [hexit] at hcall
        cases hcall
        rfl
      · rw [hexit] at hcall
        cases hcall
    · obtain ⟨ok, s', hcall', -⟩ := hsound.returns hc
      rw [hcall] at hcall'
      cases hcall'

/-- A child that runs a program of one page has this page, the guard page and the stack. -/
theorem user_space_shape_family : ∃ s p, Reached textImage s ∧ s.proc firstChild = some p ∧
    (∀ v < span, (Radix.lookup 2 p.pagetable v).isSome ↔
      v < 3 ∨ v = trapframeVa / pgsize ∨ v = trampolineVa / pgsize) ∧
    ∀ c e, perform textImage s c = .error e → e = .initExiting := by
  obtain ⟨s, _, hs, -, hcheck⟩ := reached_of_bootRun (f := fun s _ =>
    (s.proc firstChild).any fun p => pgRoundUp p.sz / pgsize = 3)
    (show ((bootRun textImage (fun _ => false) familyCalls).any _) = true by decide +kernel)
  obtain ⟨p, hp, hsz⟩ := (Option.any_eq_true ..).1 hcheck
  have hshape := user_space_shape hs
  have hpages := (hshape.1 _ p hp).1
  rw [of_decide_eq_true hsz] at hpages
  exact ⟨s, p, hs, hp, hpages, hshape.2⟩

end Xv6MallocLab.Paging
