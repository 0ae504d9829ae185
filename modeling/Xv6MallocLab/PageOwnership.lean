import Xv6MallocLab.ProcMemory

/-!
# Page ownership

Every page the allocator manages is on the free list once or held in one place: by the
kernel, by one process, or by a pipe.  The free list is thus determined by what is held.
-/

namespace Xv6MallocLab.Paging

open ProcTable (Slot nproc initproc)

variable {im : Image}

def Call.slot : Call → Option Slot
  | .exec i _ _ => some i
  | .sbrk i _ => some i
  | .exit i => some i
  | .wait _ child _ => some child
  | _ => none

def Elsewhere (i : Slot) (s s' : State) : Prop :=
  s'.kernel = s.kernel ∧ s'.pipes = s.pipes ∧ ∀ j, j ≠ i → s'.proc j = s.proc j

theorem Elsewhere.refl (i : Slot) (s : State) : Elsewhere i s s := ⟨rfl, rfl, fun _ _ => rfl⟩

variable {i : Slot} {s s' : State}

theorem Elsewhere.trans {s'' : State} (h : Elsewhere i s s') (h' : Elsewhere i s' s'') :
    Elsewhere i s s'' :=
  ⟨h'.1.trans h.1, h'.2.1.trans h.2.1, fun j hj => (h'.2.2 j hj).trans (h.2.2 j hj)⟩

theorem elsewhere_setProc (s : State) (k : Kmem) (i : Slot) (x : Option Proc) :
    Elsewhere i s (s.setProc k i x) :=
  ⟨rfl, rfl, fun _ hj => Function.update_of_ne hj ..⟩

variable {c : Call} {ok : Bool} {child : Slot}

theorem exists_of_bind {ε α β : Type} {x : Except ε α} {f : α → Except ε β} {b : β}
    (h : (x >>= f) = .ok b) : ∃ a, x = .ok a ∧ f a = .ok b := by
  cases x with
  | error e => cases h
  | ok a => exact ⟨a, rfl, h⟩

theorem perform_elsewhere (hc : c.slot = some i) (h : perform im s c = .ok (ok, s')) :
    Elsewhere i s s' := by
  cases c with
  | fork => cases hc
  | pipe => cases hc
  | pipeclose => cases hc
  | exec i file uargv =>
    cases hc
    cases hrun : s.running i with
    | none =>
      simp only [perform, hrun] at h
      cases h
      exact .refl i s
    | some p =>
      simp only [perform, hrun] at h
      obtain ⟨r, -, h⟩ := exists_of_bind h
      cases h
      exact elsewhere_setProc ..
  | sbrk i n =>
    cases hc
    cases hrun : s.running i with
    | none =>
      simp only [perform, hrun] at h
      cases h
      exact .refl i s
    | some p =>
      simp only [perform, hrun] at h
      obtain ⟨r, -, h⟩ := exists_of_bind h
      cases h
      exact elsewhere_setProc ..
  | exit i =>
    cases hc
    simp only [perform] at h
    split at h
    · split at h
      · cases h
      · cases h
        exact elsewhere_setProc ..
    · cases h
      exact .refl i s
  | wait j child copied =>
    cases hc
    simp only [perform] at h
    split at h
    · split at h
      · obtain ⟨r, -, h⟩ := exists_of_bind h
        cases h
        exact elsewhere_setProc ..
      · cases h
        exact .refl _ s
    · cases h
      exact .refl _ s

theorem fork_elsewhere (hfree : s.freeSlot = some child)
    (h : perform im s (.fork i) = .ok (ok, s')) : Elsewhere child s s' := by
  cases hrun : s.running i with
  | none =>
    simp only [perform, hrun] at h
    cases h
    exact .refl child s
  | some p =>
    simp only [perform, hrun, hfree] at h
    obtain ⟨r, -, h⟩ := exists_of_bind h
    cases h
    exact elsewhere_setProc ..

theorem wait_clears {copied : Bool} (h : perform im s (.wait i child copied) = .ok (true, s')) :
    s'.proc child = none := by
  simp only [perform] at h
  split at h
  · split at h
    · obtain ⟨r, -, h⟩ := exists_of_bind h
      cases h
      exact Function.update_self ..
    · cases h
  · cases h

inductive Lone (im : Image) (i : Slot) : State → State → Prop
  | refl (s : State) : Lone im i s s
  | exec {s s' s'' : State} {file : Option ExecFile} {uargv : ℕ → Uarg} {ok : Bool} :
      Lone im i s s' → perform im s' (.exec i file uargv) = .ok (ok, s'') → Lone im i s s''
  | sbrk {s s' s'' : State} {n : Int32} {ok : Bool} :
      Lone im i s s' → perform im s' (.sbrk i n) = .ok (ok, s'') → Lone im i s s''

theorem Lone.elsewhere (h : Lone im i s s') : Elsewhere i s s' := by
  induction h with
  | refl => exact .refl i s
  | exec _ hcall ih => exact ih.trans (perform_elsewhere rfl hcall)
  | sbrk _ hcall ih => exact ih.trans (perform_elsewhere rfl hcall)

theorem Lone.reached (h : Lone im i s s') (hs : Reached im s) : Reached im s' := by
  induction h with
  | refl => exact hs
  | exec _ hcall ih => exact ih.call hcall
  | sbrk _ hcall ih => exact ih.call hcall

theorem sum_single_apply (l : List Page) (q : Page) :
    (l.map fun p => (Pi.single p 1 : Page → ℕ)).sum q = l.count q := by
  induction l with
  | nil => rfl
  | cons p l ih =>
    rw [List.map_cons, List.sum_cons, Pi.add_apply, ih, List.count_cons, Pi.single_apply, add_comm]
    simp only [beq_iff_eq, eq_comm (a := q)]

theorem sum_pipes_apply (l : List Pipe) (q : Page) :
    (l.map Pipe.pages).sum q = (l.map Pipe.page).count q := by
  rw [← sum_single_apply, List.map_map]
  rfl

theorem owned_apply (s : State) (q : Page) : owned s q =
    s.kernel.count q + ∑ i, share (s.proc i) q + (s.pipes.map Pipe.page).count q := by
  simp only [owned, Pi.add_apply, sum_single_apply, sum_pipes_apply, Finset.sum_apply]

theorem Sound.length_eq (h : Sound im s) (h' : Sound im s') (howned : owned s' = owned s) :
    s'.kmem.freelist.length = s.kmem.freelist.length :=
  (h.balanced.perm (h'.balanced.congr howned)).length_eq

theorem Sound.unspent (h : Sound im s) (hcall : perform im s c = .ok (false, s')) :
    Unspent s s' c := by
  by_cases hc : c = .exit initproc
  · subst hc
    rcases perform_exit_init im s with hexit | hexit
    · rw [hexit] at hcall
      cases hcall
    · rw [hexit] at hcall
      cases hcall
      exact .refl _ _
  · obtain ⟨ok, s'', hcall', -, hback⟩ := h.returns hc
    rw [hcall] at hcall'
    cases hcall'
    exact hback rfl

/-- In every state that calls lead to, each managed page is in one place. A call that
returns -1 leaves the number of free pages, apart from the directories of a failed
`sbrk`; so do `fork`, `exit` of the child and `wait`. -/
theorem pages_owned_once {s : State} (h : Reached im s) :
    (∀ q, s.kmem.freelist.count q + (s.kernel.count q + ∑ i, share (s.proc i) q +
        (s.pipes.map Pipe.page).count q) = if im.managed q then 1 else 0) ∧
    (∀ c s', perform im s c = .ok (false, s') → (∀ i n, c ≠ .sbrk i n) →
      s'.kmem.freelist.length = s.kmem.freelist.length) ∧
    (∀ i n s', perform im s (.sbrk i n) = .ok (false, s') → ∀ q,
      s'.kmem.freelist.count q + tablePages s' i q =
        s.kmem.freelist.count q + tablePages s i q) ∧
    (∀ i child s1 s2 s3 s4, s.freeSlot = some child →
      perform im s (.fork i) = .ok (true, s1) → Lone im child s1 s2 →
      perform im s2 (.exit child) = .ok (true, s3) →
      perform im s3 (.wait i child true) = .ok (true, s4) →
      s4.kmem.freelist.length = s.kmem.freelist.length) := by
  have hsound := h.sound
  refine ⟨fun q => ?_, fun c s' hcall hc => ?_, fun i n s' hcall q => ?_, ?_⟩
  · rw [← owned_apply]
    exact hsound.balanced q
  · refine hsound.length_eq (h.call hcall).sound ?_
    have hback := hsound.unspent hcall
    cases c with
    | sbrk i n => exact absurd rfl (hc i n)
    | _ => exact hback
  · have hback := congrFun (hsound.unspent hcall) q
    have hbal := hsound.balanced q
    have hbal' := (h.call hcall).sound.balanced q
    simp only [Pi.add_apply] at hback
    omega
  · intro i child s1 s2 s3 s4 hfree hfork hlone hexit hwait
    have hs1 := h.call hfork
    have hs4 := ((hlone.reached hs1).call hexit).call hwait
    have helse : Elsewhere child s s4 :=
      (((fork_elsewhere hfree hfork).trans hlone.elsewhere).trans
        (perform_elsewhere rfl hexit)).trans (perform_elsewhere rfl hwait)
    have hproc : s4.proc = s.proc := by
      funext j
      by_cases hj : j = child
      · rw [hj, wait_clears hwait, freeSlot_eq hfree]
      · exact helse.2.2 j hj
    refine hsound.length_eq hs4.sound ?_
    simp only [owned, helse.1, helse.2.1, hproc]

/-- With two children and a pipe, memory has no room for a third child. -/
theorem pages_owned_once_family : ∃ s s', Reached textImage s ∧ (s.proc firstChild).isSome ∧
    s.pipes.length = 1 ∧
    (∀ q, s.kmem.freelist.count q + (s.kernel.count q + ∑ i, share (s.proc i) q +
      (s.pipes.map Pipe.page).count q) = if textImage.managed q then 1 else 0) ∧
    perform textImage s (.fork initproc) = .ok (false, s') ∧
    s'.kmem.freelist.length = s.kmem.freelist.length := by
  obtain ⟨s, p, hs, hp, hcheck⟩ := reached_of_bootRun (f := fun s _ =>
    (s.proc firstChild).isSome ∧ s.pipes.length = 1 ∧
      (perform textImage s (.fork initproc)).toOption.any fun r => !r.1)
    (show ((bootRun textImage (fun _ => false) familyCalls).any _) = true by decide +kernel)
  obtain ⟨hchild, hpipe, hfork⟩ := of_decide_eq_true hcheck
  obtain ⟨⟨ok, s'⟩, hcall, hok⟩ := ok_of_any hfork
  obtain rfl : ok = false := by simpa using hok
  have howned := pages_owned_once hs
  exact ⟨s, s', hs, hchild, hpipe, howned.1, hcall, howned.2.1 _ _ hcall nofun⟩

end Xv6MallocLab.Paging
