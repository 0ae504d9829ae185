import Xv6MallocLab.AddressSpaces

/-!
# What processes hold

The allocator is balanced against the pages that the kernel, the processes and the pipes
hold, and the page table of every process lays out a user space of its size.  Every call
returns and keeps that.
-/

namespace Xv6MallocLab.Paging

open Function List

open ProcTable (Slot nproc initproc)

variable {im : Image} {k : Kmem} {T : Page → ℕ}

def Proc.pages (p : Proc) : Page → ℕ := held p.pagetable (npages p.sz) + Pi.single p.trapframe 1

def share (o : Option Proc) : Page → ℕ := o.elim 0 Proc.pages

def Pipe.pages (q : Pipe) : Page → ℕ := Pi.single q.page 1

def owned (s : State) : Page → ℕ :=
  (s.kernel.map fun q => Pi.single q 1).sum + ∑ i, share (s.proc i) +
    (s.pipes.map Pipe.pages).sum

def Proc.Fit (im : Image) (p : Proc) : Prop :=
  Low false (contents p.pagetable) (npages p.sz) (fixedTop im p.trapframe)

structure Sound (im : Image) (s : State) : Prop where
  balanced : Balanced im s.kmem (owned s)
  fit : ∀ i p, s.proc i = some p → p.Fit im

theorem allocproc_runs (h : Balanced im k T) :
    Runs (allocproc im) k fun r k' =>
      (∀ tf t, r = some (tf, t) → contents t = fixedTop im tf) ∧
        Balanced im k' (T + r.elim 0 fun x => Radix.dirs 2 x.2 + Pi.single x.1 1) := by
  unfold allocproc
  refine .bind (kalloc_runs h) ?_
  intro r k1 hk1
  cases r with
  | none => exact .pure ⟨nofun, hk1⟩
  | some tf =>
    refine .bind (procPagetable_runs tf hk1) ?_
    rintro r k2 ⟨hcont, hk2⟩
    cases r with
    | none =>
      refine .bind (kfree_runs (by simpa using hk2)) fun _ k3 hk3 => ?_
      exact .pure ⟨nofun, by simpa using hk3⟩
    | some t =>
      refine .pure ⟨?_, hk2.congr ?_⟩
      · rintro _ _ ⟨⟩
        exact hcont t rfl
      · simp only [given_some, Option.elim_some]
        abel

variable {p : Proc} {s : State} {i : Slot}

theorem freeproc_runs (hfit : p.Fit im) (h : Balanced im k (T + p.pages)) :
    Runs (freeproc im p) k fun _ k' => Balanced im k' T := by
  refine .bind (kfree_runs (h.congr (add_assoc ..).symm)) fun _ k' hk' => ?_
  exact procFreepagetable_runs hfit hk'

theorem low_of_contents {t : Table} {tf : Page} (h : contents t = fixedTop im tf) :
    Low false (contents t) 0 (fixedTop im tf) :=
  ⟨nofun, fun i _ => by rw [h]⟩

theorem fork_runs (hfit : p.Fit im) (hsz : npages p.sz ≤ 2 ^ 15) (h : Balanced im k T) :
    Runs (fork im p) k fun r k' =>
      (∀ q, r = some q → q.Fit im) ∧ Balanced im k' (T + share r) := by
  unfold fork
  refine .bind (allocproc_runs h) ?_
  rintro r k1 ⟨hcont, hk1⟩
  cases r with
  | none => exact .pure ⟨nofun, hk1⟩
  | some x =>
    obtain ⟨tf, t⟩ := x
    have hlow := low_of_contents (hcont tf t rfl)
    have hbal : Balanced im k1 (T + Pi.single tf 1 + held t 0) := by
      refine hk1.congr ?_
      simp only [Option.elim_some, held, mapped, Finset.range_zero, Finset.sum_empty]
      abel
    refine .bind (uvmcopy_runs roof_fixedTop hfit hsz hlow hbal) ?_
    rintro ⟨t', ok⟩ k2 ⟨hlow', hbal'⟩
    cases ok with
    | true =>
      refine .pure ⟨?_, hbal'.congr ?_⟩
      · rintro q ⟨⟩
        exact hlow'
      · simp only [share, Option.elim_some, Proc.pages, if_true]
        abel
    | false =>
      have hfit' : Proc.Fit im ⟨t', 0, tf, false⟩ := by
        rw [Proc.Fit, npages_zero]
        exact hlow'
      refine .bind (freeproc_runs (T := T) hfit' (hbal'.congr ?_))
        fun _ k3 hk3 => .pure ⟨nofun, by simpa [share] using hk3⟩
      simp only [Proc.pages, Bool.false_eq_true, if_false, npages_zero]
      abel

theorem growproc_runs (n : Int32) (hfit : p.Fit im) (h : Balanced im k (T + p.pages)) :
    Runs (growproc im p n) k fun r k' =>
      r.1.Fit im ∧ Balanced im k' (T + r.1.pages) ∧
        (r.2 = false → r.1.pages + Radix.dirs 2 p.pagetable =
          p.pages + Radix.dirs 2 r.1.pagetable) := by
  have h' : Balanced im k (T + Pi.single p.trapframe 1 + held p.pagetable (npages p.sz)) := by
    refine h.congr ?_
    rw [Proc.pages]
    abel
  have hback : ∀ {k' : Kmem} {t : Table} {sz : ℕ},
      Balanced im k' (T + Pi.single p.trapframe 1 + held t (npages sz)) →
      Balanced im k' (T + Proc.pages { p with pagetable := t, sz := sz }) := by
    intro k' t sz hbal
    refine hbal.congr ?_
    rw [Proc.pages]
    abel
  unfold growproc
  dsimp only
  split
  · refine .bind (uvmalloc_runs ⟨false, true, false, false⟩ roof_fixedTop hfit h') ?_
    rintro ⟨t, sz⟩ k' ⟨-, hsame, hlow, hbal⟩
    dsimp only at hsame hlow hbal ⊢
    by_cases hzero : sz = 0
    · rw [if_pos hzero] at hlow hbal ⊢
      refine .pure ⟨hlow, hback hbal, fun _ => ?_⟩
      simp only [Proc.pages, held, mapped_congr fun i hi => hsame i (Finset.mem_range.1 hi)]
      abel
    · rw [if_neg hzero] at hlow hbal ⊢
      exact .pure ⟨hlow, hback hbal, fun h => by cases h⟩
  split
  · refine .bind (uvmdealloc_runs _ roof_fixedTop hfit h') ?_
    rintro ⟨t, sz⟩ k' ⟨-, hlow, -, hbal⟩
    exact .pure ⟨hlow, hback hbal, fun h => by cases h⟩
  · exact .pure ⟨hfit, h, fun h => by cases h⟩

def pipeShare (r : Option Pipe) : Page → ℕ := r.elim 0 Pipe.pages

theorem pipeclose_runs {q : Pipe} (writable : Bool) (h : Balanced im k (T + q.pages)) :
    Runs (pipeclose im q writable) k fun r k' => Balanced im k' (T + pipeShare r) := by
  have hpage : (q.shut writable).page = q.page := by cases writable <;> rfl
  unfold pipeclose
  split
  · exact .bind (kfree_runs h) fun _ k' hk' => .pure (by simpa [pipeShare] using hk')
  · exact .pure (h.congr (by simp [pipeShare, Pipe.pages, hpage]))

theorem sysPipe_runs (files fds : Bool) (h : Balanced im k T) :
    Runs (sysPipe im files fds) k fun r k' => Balanced im k' (T + pipeShare r) := by
  have hnone : ∀ {k}, Balanced im k T → Balanced im k (T + pipeShare none) :=
    fun h => by simpa [pipeShare] using h
  unfold sysPipe
  cases files with
  | false => exact .pure (hnone h)
  | true =>
    refine .bind (kalloc_runs h) ?_
    intro r k1 hk1
    cases r with
    | none => exact .pure (hnone (by simpa using hk1))
    | some page =>
      cases fds with
      | true => exact .pure hk1
      | false =>
        refine .bind (pipeclose_runs (q := ⟨page, true, true⟩) false hk1) ?_
        intro r k2 hk2
        cases r with
        | none => exact .pure hk2
        | some q => exact pipeclose_runs true hk2

def rest (s : State) (i : Slot) : Page → ℕ := owned (s.setProc s.kmem i none)

theorem owned_setProc (s : State) (k : Kmem) (i : Slot) (x : Option Proc) :
    owned (s.setProc k i x) = rest s i + share x := by
  have hsum := sum_update_add (fun _ o => share o) (update s.proc i none) i x
  rw [update_self, update_idem] at hsum
  simp only [owned, rest, State.setProc]
  rw [show share none = 0 from rfl, add_zero] at hsum
  rw [hsum]
  abel

theorem setProc_self {x : Option Proc} (h : s.proc i = x) (k : Kmem) :
    s.setProc k i x = { s with kmem := k } := by
  subst h
  simp [State.setProc]

theorem owned_eq (s : State) (i : Slot) : owned s = rest s i + share (s.proc i) := by
  rw [← owned_setProc s s.kmem i (s.proc i), setProc_self rfl]

theorem Sound.setProc (h : Sound im s) {k : Kmem} {x : Option Proc}
    (hbal : Balanced im k (rest s i + share x)) (hfit : ∀ p, x = some p → p.Fit im) :
    Sound im (s.setProc k i x) where
  balanced := hbal.congr (owned_setProc s k i x).symm
  fit j p hj := by
    simp only [State.setProc, update_apply] at hj
    split at hj
    · exact hfit p hj
    · exact h.fit j p hj

theorem Sound.balanced_rest (h : Sound im s) (hp : s.proc i = some p) :
    Balanced im s.kmem (rest s i + p.pages) :=
  h.balanced.congr (by rw [owned_eq s i, hp]; rfl)

theorem Sound.npages_le (h : Sound im s) (hp : s.proc i = some p) : npages p.sz ≤ 2 ^ 15 :=
  (h.fit i p hp).held_le (T := rest s i + Pi.single p.trapframe 1)
    ((h.balanced_rest hp).congr (by rw [Proc.pages]; abel))

theorem running_eq (h : s.running i = some p) : s.proc i = some p := by
  rw [State.running, Option.filter_eq_some_iff] at h
  exact h.1

theorem freeSlot_eq (h : s.freeSlot = some i) : s.proc i = none := by
  have := find?_some h
  simpa using this

def tablePages (s : State) (i : Slot) : Page → ℕ :=
  (s.proc i).elim 0 fun p => Radix.dirs 2 p.pagetable

/-- What may change when a call returns -1: nothing, and for `sbrk` the directories of
the caller. -/
def Unspent (s s' : State) : Call → Prop
  | .sbrk i _ => owned s' + tablePages s i = owned s + tablePages s' i
  | _ => owned s' = owned s

theorem Unspent.refl (s : State) (c : Call) : Unspent s s c := by
  cases c <;> exact rfl

/-- A call returns, in a sound state; only `exit` of the first process stops. -/
def Returns (im : Image) (s : State) (c : Call) : Prop :=
  ∃ ok s', perform im s c = .ok (ok, s') ∧ Sound im s' ∧ (ok = false → Unspent s s' c)

section

variable (h : Sound im s)

include h

theorem Returns.refused {c : Call} (hc : perform im s c = .ok (false, s)) : Returns im s c :=
  ⟨false, s, hc, h, fun _ => Unspent.refl s c⟩

theorem Sound.fork (i : Slot) : Returns im s (.fork i) := by
  cases hrun : s.running i with
  | none => exact .refused h (by simp only [perform, hrun]; rfl)
  | some p =>
    cases hfree : s.freeSlot with
    | none => exact .refused h (by simp only [perform, hrun, hfree]; rfl)
    | some np =>
      have hnp := freeSlot_eq hfree
      have hbal : Balanced im s.kmem (rest s np) := by
        refine h.balanced.congr ?_
        rw [owned_eq s np, hnp]
        exact add_zero _
      obtain ⟨r, k', hm, hfit, hbal'⟩ :=
        fork_runs (h.fit i p (running_eq hrun)) (h.npages_le (running_eq hrun)) hbal
      refine ⟨r.isSome, s.setProc k' np r, ?_, h.setProc hbal' hfit, ?_⟩
      · simp only [perform, hrun, hfree, hm]
        rfl
      · intro hr
        have hnone : r = none := by simpa using hr
        subst hnone
        change owned _ = owned s
        rw [owned_setProc, owned_eq s np, hnp]

theorem Sound.exec (i : Slot) (file : Option ExecFile) (uargv : ℕ → Uarg) :
    Returns im s (.exec i file uargv) := by
  cases hrun : s.running i with
  | none => exact .refused h (by simp only [perform, hrun]; rfl)
  | some p =>
    have hp := running_eq hrun
    have hbal : Balanced im s.kmem (rest s i + Pi.single p.trapframe 1 +
        held p.pagetable (npages p.sz)) := by
      refine (h.balanced_rest hp).congr ?_
      rw [Proc.pages]
      abel
    obtain ⟨r, k', hm, hfit, hbal'⟩ := sysExec_runs (h.fit i p hp) hbal file uargv
    refine ⟨r.isSome, s.setProc k' i (some { p with
      pagetable := (r.getD (p.pagetable, p.sz)).1, sz := (r.getD (p.pagetable, p.sz)).2 }),
      ?_, h.setProc (hbal'.congr ?_) ?_, ?_⟩
    · simp only [perform, hrun, hm]
      rfl
    · simp only [share, Option.elim_some, Proc.pages]
      abel
    · rintro q ⟨⟩
      exact hfit
    · intro hr
      have hnone : r = none := by simpa using hr
      subst hnone
      change owned _ = owned s
      rw [owned_setProc, owned_eq s i, hp]
      rfl

theorem Sound.sbrk (i : Slot) (n : Int32) : Returns im s (.sbrk i n) := by
  cases hrun : s.running i with
  | none => exact .refused h (by simp only [perform, hrun]; rfl)
  | some p =>
    have hp := running_eq hrun
    obtain ⟨⟨p', ok⟩, k', hm, hfit, hbal, hback⟩ :=
      growproc_runs n (h.fit i p hp) (h.balanced_rest hp)
    refine ⟨ok, s.setProc k' i (some p'), ?_, h.setProc hbal ?_, ?_⟩
    · simp only [perform, hrun, hm]
      rfl
    · rintro q ⟨⟩
      exact hfit
    · intro hok
      have htables : tablePages (s.setProc k' i (some p')) i = Radix.dirs 2 p'.pagetable := by
        simp [tablePages, State.setProc]
      have hold : tablePages s i = Radix.dirs 2 p.pagetable := by
        simp [tablePages, hp]
      change owned _ + tablePages s i = owned s + tablePages _ i
      rw [owned_setProc, htables, hold, owned_eq s i, hp]
      simp only [share, Option.elim_some, add_assoc, hback hok]

theorem Sound.exit (hi : i ≠ initproc) : Returns im s (.exit i) := by
  cases hrun : s.running i with
  | none => exact .refused h (by simp only [perform, hrun]; rfl)
  | some p =>
    have hp := running_eq hrun
    have hbal : Balanced im s.kmem (rest s i + share (some { p with zombie := true })) :=
      (h.balanced_rest hp).congr rfl
    refine ⟨true, s.setProc s.kmem i (some { p with zombie := true }), ?_, h.setProc hbal ?_,
      nofun⟩
    · simp only [perform, hrun, if_neg hi]
      rfl
    · rintro q ⟨⟩
      exact h.fit i p hp

theorem Sound.wait (i child : Slot) (copied : Bool) : Returns im s (.wait i child copied) := by
  cases hrun : s.running i with
  | none => exact .refused h (by simp only [perform, hrun]; rfl)
  | some q =>
    cases hp : s.proc child with
    | none => exact .refused h (by simp only [perform, hrun, hp]; rfl)
    | some p =>
      cases hz : p.zombie && copied with
      | false => exact .refused h (by simp [perform, hrun, hp, hz, pure, Except.pure])
      | true =>
        obtain ⟨_, k', hm, hbal⟩ := freeproc_runs (h.fit child p hp) (h.balanced_rest hp)
        refine ⟨true, s.setProc k' child none, ?_, h.setProc (by simpa [share] using hbal) nofun,
          nofun⟩
        simp only [perform, hrun, hp, hz, if_true, hm]
        rfl

end

theorem owned_setPipes (s : State) (k : Kmem) (pipes : List Pipe) :
    owned (s.setPipes k pipes) = owned (s.setPipes s.kmem []) + (pipes.map Pipe.pages).sum := by
  simp [owned, State.setPipes]

theorem owned_eq_pipes (s : State) :
    owned s = owned (s.setPipes s.kmem []) + (s.pipes.map Pipe.pages).sum :=
  owned_setPipes s s.kmem s.pipes

theorem sum_toList_append (r : Option Pipe) (l : List Pipe) :
    ((r.toList ++ l).map Pipe.pages).sum = (l.map Pipe.pages).sum + pipeShare r := by
  cases r with
  | none => simp [pipeShare]
  | some q => simp [pipeShare, add_comm]

theorem Sound.setPipes (h : Sound im s) {k : Kmem} {pipes : List Pipe}
    (hbal : Balanced im k (owned (s.setPipes k pipes))) : Sound im (s.setPipes k pipes) :=
  ⟨hbal, h.fit⟩

theorem Sound.pipe (h : Sound im s) (i : Slot) (files fds : Bool) :
    Returns im s (.pipe i files fds) := by
  cases hrun : s.running i with
  | none => exact .refused h (by simp only [perform, hrun]; rfl)
  | some p =>
    obtain ⟨r, k', hm, hbal⟩ := sysPipe_runs files fds h.balanced
    have howned : owned (s.setPipes k' (r.toList ++ s.pipes)) = owned s + pipeShare r := by
      rw [owned_setPipes, sum_toList_append, ← add_assoc, ← owned_eq_pipes]
    refine ⟨r.isSome, s.setPipes k' (r.toList ++ s.pipes), ?_,
      h.setPipes (hbal.congr howned.symm), ?_⟩
    · simp only [perform, hrun, hm]
      rfl
    · intro hr
      have hnone : r = none := by simpa using hr
      subst hnone
      change owned _ = owned s
      rw [howned]
      exact add_zero _

theorem Sound.pipeclose (h : Sound im s) (j : ℕ) (writable : Bool) :
    Returns im s (.pipeclose j writable) := by
  cases hj : s.pipes[j]? with
  | none => exact .refused h (by simp only [perform, hj]; rfl)
  | some q =>
    obtain ⟨hlt, hget⟩ := List.getElem?_eq_some_iff.1 hj
    have hperm := List.getElem_cons_eraseIdx_perm hlt
    rw [hget] at hperm
    have hsum : (s.pipes.map Pipe.pages).sum =
        ((s.pipes.eraseIdx j).map Pipe.pages).sum + q.pages := by
      rw [← (hperm.map Pipe.pages).sum_eq, map_cons, sum_cons, add_comm]
    obtain ⟨r, k', hm, hbal⟩ := pipeclose_runs writable (k := s.kmem) (q := q)
      (T := owned (s.setPipes s.kmem []) + ((s.pipes.eraseIdx j).map Pipe.pages).sum)
      (h.balanced.congr (by rw [owned_eq_pipes, hsum, add_assoc]))
    refine ⟨true, s.setPipes k' (r.toList ++ s.pipes.eraseIdx j), ?_,
      h.setPipes (hbal.congr ?_), nofun⟩
    · simp only [perform, hj, hm]
      rfl
    · rw [owned_setPipes s k', sum_toList_append, add_assoc]

theorem perform_exit_init (im : Image) (s : State) :
    perform im s (.exit initproc) = .error .initExiting ∨
    perform im s (.exit initproc) = .ok (false, s) := by
  simp only [perform]
  split
  · exact .inl rfl
  · exact .inr rfl

theorem Sound.returns (h : Sound im s) {c : Call} (hc : c ≠ .exit initproc) : Returns im s c := by
  cases c with
  | fork i => exact h.fork i
  | exec i file uargv => exact h.exec i file uargv
  | sbrk i n => exact h.sbrk i n
  | exit i => exact h.exit fun hi => hc (by rw [hi])
  | wait i child copied => exact h.wait i child copied
  | pipe i files fds => exact h.pipe i files fds
  | pipeclose j writable => exact h.pipeclose j writable

theorem freerange_runs (n : ℕ) {p : ℕ} {k : Kmem}
    (h : Balanced im k (T + ∑ q ∈ Finset.Ico p (p + n), Pi.single q 1)) :
    Runs (freerange im p n) k fun _ k' => Balanced im k' T := by
  induction n generalizing p k with
  | zero => exact .pure (by simpa using h)
  | succ n ih =>
    refine .bind (kfree_runs (T := T + ∑ q ∈ Finset.Ico (p + 1) (p + 1 + n), Pi.single q 1)
      (h.congr ?_)) fun _ k' hk' => ih hk'
    rw [Finset.sum_eq_sum_Ico_succ_bot (by omega), show p + (n + 1) = p + 1 + n by omega]
    abel

theorem kinit_runs (im : Image) (deny : ℕ → Bool) :
    Runs (kinit im) ⟨[], deny⟩ fun _ k' => Balanced im k' 0 := by
  refine freerange_runs (T := 0) _ fun q => ?_
  have hmem : q ∈ Finset.Ico im.first (im.first + (phystop - im.first)) ↔ im.managed q := by
    rw [Finset.mem_Ico, Image.managed]
    constructor <;> rintro ⟨h1, h2⟩ <;> refine ⟨h1, ?_⟩ <;> unfold Page at * <;> omega
  simp only [count_nil, zero_add, Finset.sum_apply, Pi.single_apply, Finset.sum_ite_eq, hmem]

theorem takePages_runs (n : ℕ) {k : Kmem} {T : Page → ℕ} (h : Balanced im k T) :
    Runs (takePages n) k fun r k' => ∀ ps, r = some ps →
      Balanced im k' (T + (ps.map fun q => Pi.single q 1).sum) := by
  induction n generalizing k T with
  | zero =>
    refine .pure ?_
    rintro _ ⟨⟩
    simpa using h
  | succ n ih =>
    refine .bind (kalloc_runs h) fun r k1 hk1 => .bind (ih hk1) fun r' k2 hk2 => ?_
    cases r with
    | none => exact .pure nofun
    | some p =>
      cases r' with
      | none => exact .pure nofun
      | some ps =>
        refine .pure ?_
        rintro _ ⟨⟩
        exact (hk2 ps rfl).congr (by simp [add_assoc])

theorem userinit_runs (h : Balanced im k T) :
    Runs (userinit im) k fun r k' => ∀ p, r = some p → (contents p.pagetable 0).isSome →
      p.Fit im ∧ Balanced im k' (T + p.pages) := by
  unfold userinit
  refine .bind (allocproc_runs h) ?_
  rintro r k1 ⟨hcont, hk1⟩
  cases r with
  | none => exact .pure fun p h => by cases h
  | some x =>
    obtain ⟨tf, t⟩ := x
    have hlow := low_of_contents (hcont tf t rfl)
    unfold uvmfirst
    refine .bind (.bind (kalloc_runs hk1) (R := fun r k' => ∀ t', r = some t' →
      (contents t' 0).isSome → Low false (contents t') 1 (fixedTop im tf) ∧
        Balanced im k' (T + Pi.single tf 1 + held t' 1)) ?_) ?_
    · intro r k2 hk2
      cases r with
      | none => exact .pure fun t' h => by cases h
      | some mem =>
        have hbal : Balanced im k2 (T + Pi.single tf 1 + held t 0 + Pi.single mem 1) := by
          refine hk2.congr ?_
          simp only [Option.elim_some, given_some, held, mapped, Finset.range_zero,
            Finset.sum_empty]
          abel
        have hperm : Perm.Fits false ⟨true, true, true, true⟩ := ⟨rfl, fun h => by cases h⟩
        have hgrow := grow_runs hperm roof_fixedTop hlow hbal
        rw [Nat.zero_mul] at hgrow
        refine .bind hgrow ?_
        rintro ⟨t', ok⟩ k3 hstep
        refine .pure ?_
        rintro _ ⟨⟩ hsome
        cases ok with
        | false =>
          rw [if_neg (by simp)] at hstep
          rw [hstep.1, hcont tf t rfl, roof_fixedTop 0 (by decide)] at hsome
          cases hsome
        | true =>
          rw [if_pos rfl] at hstep
          exact ⟨hstep.1, hstep.2.2⟩
    · intro r k2 hk2
      cases r with
      | none => exact .pure fun p h => by cases h
      | some t' =>
        refine .pure ?_
        rintro _ ⟨⟩ hsome
        obtain ⟨hlow', hbal⟩ := hk2 t' rfl hsome
        have hone : npages pgsize = 1 := by decide
        refine ⟨?_, hbal.congr ?_⟩
        · rw [Proc.Fit]
          dsimp only
          rwa [hone]
        · simp only [Proc.pages, hone]
          abel

theorem Booted.sound (h : Booted im s) : Sound im s := by
  obtain ⟨n, deny, hboot, p, hp, hsome⟩ := h
  obtain ⟨_, k0, hk0, hbal0⟩ := kinit_runs im deny
  obtain ⟨r, k1, hk1, hbal1⟩ := takePages_runs n hbal0
  simp only [boot, hk0, bind, Except.bind, hk1] at hboot
  cases r with
  | none => cases hboot
  | some kernel =>
    obtain ⟨r', k2, hk2, hinit⟩ := userinit_runs (hbal1 kernel rfl)
    simp only [hk2] at hboot
    cases r' with
    | none => cases hboot
    | some p' =>
      cases hboot
      simp only [update_self, Option.some.injEq] at hp
      subst hp
      obtain ⟨hfit, hbal⟩ := hinit p' rfl hsome
      refine ⟨hbal.congr ?_, ?_⟩
      · have hsum := sum_update_add (fun (_ : Slot) o => share o) (fun _ => none) initproc
          (some p')
        simp only [share, Option.elim_none, Finset.sum_const_zero, add_zero, zero_add] at hsum
        simp only [owned, share, hsum, Option.elim_some, map_nil, sum_nil, add_zero, zero_add]
      · intro i q hq
        simp only [update_apply] at hq
        split at hq
        · cases hq
          exact hfit
        · cases hq

theorem Reached.sound (h : Reached im s) : Sound im s := by
  induction h with
  | boot h => exact h.sound
  | @call s s' c ok _ hcall ih =>
    by_cases hc : c = .exit initproc
    · subst hc
      rcases perform_exit_init im s with h | h
      · rw [h] at hcall
        cases hcall
      · rw [h] at hcall
        cases hcall
        exact ih
    · obtain ⟨ok', s'', hcall', hsound, -⟩ := ih.returns hc
      rw [hcall] at hcall'
      cases hcall'
      exact hsound

/-- A run from boot: the state after the calls `cs`, if the kernel comes so far. -/
def bootRun (im : Image) (deny : ℕ → Bool) (cs : List Call) : Option State := do
  let s ← (boot im 2 deny).toOption.join
  let p ← s.proc initproc
  guard (contents p.pagetable 0).isSome
  cs.foldlM (fun s c => (perform im s c).toOption.map Prod.snd) s

theorem reached_of_bootRun {f : State → Proc → Bool} {deny : ℕ → Bool} {cs : List Call}
    (h : ((bootRun im deny cs).any fun s => (s.proc initproc).any (f s)) = true) :
    ∃ s p, Reached im s ∧ s.proc initproc = some p ∧ f s p = true := by
  have hcalls : ∀ (cs : List Call) (s s' : State), Reached im s →
      cs.foldlM (fun s c => (perform im s c).toOption.map Prod.snd) s = some s' → Reached im s' := by
    intro cs
    induction cs with
    | nil =>
      rintro s _ hs ⟨⟩
      exact hs
    | cons c cs ih =>
      intro s s' hs hrun
      obtain ⟨s1, hcall, hrest⟩ := Option.bind_eq_some_iff.1 hrun
      obtain ⟨⟨ok, _⟩, hperform, rfl⟩ := Option.map_eq_some_iff.1 hcall
      exact ih _ s' (hs.call (ok_of_toOption hperform)) hrest
  obtain ⟨s', hrun, hs'⟩ := (Option.any_eq_true ..).1 h
  obtain ⟨p', hp', hf⟩ := (Option.any_eq_true ..).1 hs'
  obtain ⟨s, hboot, hrun⟩ := Option.bind_eq_some_iff.1 hrun
  obtain ⟨p, hp, hrun⟩ := Option.bind_eq_some_iff.1 hrun
  obtain ⟨_, hguard, hrun⟩ := Option.bind_eq_some_iff.1 hrun
  have hsome : (contents p.pagetable 0).isSome := by
    by_contra hnone
    rw [guard, if_neg hnone] at hguard
    cases hguard
  have hbooted := ok_of_toOption (Option.join_eq_some_iff.1 hboot)
  exact ⟨s', p', hcalls cs s s' (.boot ⟨2, deny, hbooted, p, hp, hsome⟩) hrun, hp', hf⟩

def smallImage : Image := ⟨phystop - 12, kernbase, by decide⟩

def textImage : Image := ⟨phystop - 32, kernbase, by decide⟩

/-- A program of one page of text. -/
def textFile : ExecFile where
  elf := some ⟨elfMagic, 64, 1⟩
  proghdr := fun _ => some ⟨elfProgLoad, 5, 0, 0, 4096, 4096⟩
  read := fun _ _ => true

def firstChild : Slot := ⟨1, by decide⟩

/-- The first process forks, the child runs the program, and then there are a pipe and a
second child. -/
def familyCalls : List Call :=
  [.fork initproc, .exec firstChild (some textFile) fun _ => .null, .pipe initproc true true,
    .fork initproc]

end Xv6MallocLab.Paging
