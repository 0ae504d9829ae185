import Xv6MallocLab.Paging

/-!
# Counting pages

The allocator is balanced against a count `T` of the pages in use when every page it
manages is once on the free list or once in `T`, and no other page is in either.
-/

namespace Xv6MallocLab.Paging

open Finset Function

variable (im : Image)

def Balanced (k : Kmem) (T : Page → ℕ) : Prop :=
  ∀ q, k.freelist.count q + T q = if im.managed q then 1 else 0

variable {im} {k : Kmem} {T T' : Page → ℕ}

namespace Balanced

theorem congr (h : Balanced im k T) (hT : T = T') : Balanced im k T' := hT ▸ h

theorem le_one (h : Balanced im k T) (q : Page) : T q ≤ 1 := by
  have := h q
  split at this <;> omega

theorem managed_of_pos (h : Balanced im k T) {q : Page} (hq : 0 < T q) : im.managed q := by
  have := h q
  split at this
  · assumption
  · omega

theorem perm {k' : Kmem} (h : Balanced im k T) (h' : Balanced im k' T) :
    k'.freelist.Perm k.freelist := by
  rw [List.perm_iff_count]
  intro q
  have h1 := h q
  have h2 := h' q
  omega

end Balanced

def given (r : Option Page) : Page → ℕ := r.elim 0 fun p => Pi.single p 1

@[simp] theorem given_none : given none = 0 := rfl

@[simp] theorem given_some (p : Page) : given (some p) = Pi.single p 1 := rfl

theorem kalloc_runs (h : Balanced im k T) :
    Runs kalloc k fun r k' => Balanced im k' (T + given r) := by
  obtain ⟨freelist, deny⟩ := k
  cases freelist with
  | nil => exact ⟨none, _, rfl, by simpa [Balanced] using h⟩
  | cons r next =>
    cases hd : deny 0 with
    | true =>
      refine ⟨none, ⟨r :: next, fun i => deny (i + 1)⟩, ?_, by simpa [Balanced] using h⟩
      change (if deny 0 = true then _ else _ : Mem (Option Page)) _ = _
      rw [if_pos hd]
      rfl
    | false =>
      refine ⟨some r, ⟨next, fun i => deny (i + 1)⟩, ?_, ?_⟩
      · change (if deny 0 = true then _ else _ : Mem (Option Page)) _ = _
        rw [if_neg (by simp [hd])]
        rfl
      · intro q
        have hq := h q
        simp only [List.count_cons, beq_iff_eq] at hq
        simp only [given_some, Pi.add_apply, Pi.single_apply, eq_comm (a := q)]
        omega

theorem kfree_runs {p : Page} (h : Balanced im k (T + Pi.single p 1)) :
    Runs (kfree im p) k fun _ k' => Balanced im k' T := by
  have hm : im.managed p := h.managed_of_pos (by simp)
  have hguard : ¬(p < im.first ∨ phystop ≤ p) :=
    not_or.2 ⟨not_lt.2 hm.1, not_le.2 hm.2⟩
  refine ⟨(), ⟨p :: k.freelist, k.deny⟩, ?_, ?_⟩
  · simp only [kfree, hguard, if_false]
    rfl
  · intro q
    have hq := h q
    simp only [Pi.add_apply, Pi.single_apply] at hq
    simp only [List.count_cons, beq_iff_eq, eq_comm (a := p)]
    omega

theorem px_eq_digit (level va : ℕ) : px level va = Radix.digit 512 level (va / pgsize) := by
  have hpow : (2 : ℕ) ^ (12 + 9 * level) = pgsize * 512 ^ level := by
    rw [pow_add, pow_mul]
    rfl
  rw [px, Radix.digit, hpow, Nat.div_div_eq_div_mul]

section Walk

open Radix

variable {level : ℕ} {t : Radix 512 Pte level}

theorem walkFrom_false (level : ℕ) (t : Radix 512 Pte level) (va : ℕ) (k : Kmem) :
    Runs (walkFrom false level t va) k fun r k' =>
      k' = k ∧ r.1 = t ∧ (Reaches level t (va / pgsize) → r.2 = true) := by
  induction level with
  | zero => exact .pure ⟨rfl, rfl, fun _ => rfl⟩
  | succ level ih =>
    simp only [walkFrom]
    cases hc : Dir.entry t (px (level + 1) va) with
    | none =>
      refine .pure ⟨rfl, rfl, ?_⟩
      rintro ⟨c, hc', -⟩
      rw [← px_eq_digit, hc] at hc'
      cases hc'
    | some c =>
      refine .bind (ih c) ?_
      rintro ⟨_, ok⟩ k' ⟨rfl, rfl, hok⟩
      refine .pure ⟨rfl, Dir.set_self hc, ?_⟩
      rintro ⟨c', hc', hreach⟩
      rw [← px_eq_digit, hc] at hc'
      cases hc'
      exact hok hreach

theorem dirs_hang (d : Radix 512 Pte (level + 1)) {i : Fin 512} (hi : Dir.entry d i = none)
    (c : Radix 512 Pte level) :
    dirs (level + 1) (Dir.set d i (some c)) = dirs (level + 1) d + dirs level c := by
  have h := Dir.pages_set (dirs level) d i (some c)
  rwa [hi, Option.elim_none, add_zero] at h

theorem dirs_split (d : Radix 512 Pte (level + 1)) (i : Fin 512) (c : Radix 512 Pte level) :
    dirs (level + 1) (Dir.set d i (some c)) =
      dirs (level + 1) (Dir.set d i none) + dirs level c := by
  have h := dirs_hang (Dir.set d i none) (i := i) (by simp) c
  have hset : Dir.set (Dir.set d i none) i (some c) = Dir.set d i (some c) := by
    simp [Dir.set]
  rwa [hset] at h

theorem lookup_exchange (d : Radix 512 Pte (level + 1)) (i : Fin 512) (c : Radix 512 Pte level)
    (h : ∀ j, lookup level c j = (Dir.entry d i).bind fun c => lookup level c j) (j : ℕ) :
    lookup (level + 1) (Dir.set d i (some c)) j = lookup (level + 1) d j := by
  simp only [lookup, Dir.set_entry]
  by_cases hi : digit 512 (level + 1) j = i
  · rw [hi, update_self, Option.bind_some, h j]
  · rw [update_of_ne hi]

theorem walkFrom_true (level : ℕ) (t : Radix 512 Pte level) (va : ℕ) {k : Kmem} {T : Page → ℕ}
    (h : Balanced im k (T + dirs level t)) :
    Runs (walkFrom true level t va) k fun r k' =>
      Balanced im k' (T + dirs level r.1) ∧ (∀ j, lookup level r.1 j = lookup level t j) ∧
        (r.2 = true → Reaches level r.1 (va / pgsize)) := by
  induction level generalizing T k with
  | zero => exact .pure ⟨h, fun _ => rfl, fun _ => trivial⟩
  | succ level ih =>
    simp only [walkFrom]
    have hreach : ∀ c : Radix 512 Pte level, Reaches level c (va / pgsize) →
        Reaches (level + 1) (Dir.set t (px (level + 1) va) (some c)) (va / pgsize) :=
      fun c hc => ⟨c, by rw [← px_eq_digit, Dir.set_entry, update_self], hc⟩
    cases hc : Dir.entry t (px (level + 1) va) with
    | some c =>
      -- the rest of the table is counted beside the child
      have hsplit := dirs_split t (px (level + 1) va) c
      rw [Dir.set_self hc] at hsplit
      refine .bind (ih c (h.congr (by rw [hsplit, ← add_assoc]))) ?_
      rintro ⟨c', ok⟩ k' ⟨hbal, hlook, hok⟩
      refine .pure ⟨?_, ?_, fun h => hreach c' (hok h)⟩
      · exact hbal.congr (by rw [dirs_split t _ c', ← add_assoc])
      · exact lookup_exchange t _ c' fun j => by rw [hlook j, hc, Option.bind_some]
    | none =>
      refine .bind (kalloc_runs h) ?_
      rintro r k' hk
      cases r with
      | none => exact .pure ⟨by simpa using hk, fun _ => rfl, fun h => by cases h⟩
      | some p =>
        rw [given_some, ← dirs_empty p level] at hk
        refine .bind (ih (empty p level) hk) ?_
        rintro ⟨c, ok⟩ k'' ⟨hbal, hlook, hok⟩
        refine .pure ⟨?_, ?_, fun h => hreach c (hok h)⟩
        · exact hbal.congr (by rw [dirs_hang t hc, add_assoc])
        · exact lookup_exchange t _ c fun j => by rw [hlook j, hc, lookup_empty, Option.bind_none]

end Walk

def span : ℕ := 512 ^ 3

def contents (t : Table) (i : ℕ) : Option Pte := if i < span then Radix.lookup 2 t i else none

theorem pgsize_pos : 0 < pgsize := by decide

variable {i : ℕ} {t : Table}

theorem mul_pgsize_lt_maxva : i * pgsize < maxva ↔ i < 2 ^ 26 := by
  simp only [maxva, pgsize]
  omega

theorem lt_span (h : i < 2 ^ 26) : i < span := lt_of_lt_of_le h (by decide)

@[simp] theorem pte_mul (h : i < 2 ^ 26) : pte t (i * pgsize) = contents t i := by
  rw [pte, contents, Nat.mul_div_cancel _ pgsize_pos, if_pos (lt_span h)]

theorem contents_setPte (h : i < 2 ^ 26) (hreach : Radix.Reaches 2 t i) (e : Option Pte) :
    contents (setPte t (i * pgsize) e) = update (contents t) i e := by
  funext j
  have hi := lt_span h
  rw [setPte, Nat.mul_div_cancel _ pgsize_pos]
  by_cases hj : j < span
  · rw [contents, if_pos hj, Radix.lookup_store 2 t e hreach,
      Nat.mod_eq_of_lt (show i < 512 ^ (2 + 1) from hi),
      Nat.mod_eq_of_lt (show j < 512 ^ (2 + 1) from hj), update_apply, contents,
      if_pos hj]
    simp only [eq_comm]
  · rw [contents, if_neg hj, update_of_ne (by omega), contents, if_neg hj]

theorem reaches_of_contents {e : Pte} (h : contents t i = some e) : Radix.Reaches 2 t i := by
  refine Radix.reaches_of_lookup 2 t ?_
  simp only [contents] at h
  split at h
  · simp [h]
  · cases h

@[simp] theorem dirs_setPte (t : Table) (va : ℕ) (e : Option Pte) :
    Radix.dirs 2 (setPte t va e) = Radix.dirs 2 t := Radix.dirs_store 2 t _ e

@[simp] theorem contents_empty (p : Page) : contents (Radix.empty p 2) = fun _ => none := by
  funext i
  rw [contents, Radix.lookup_empty, ite_self]

theorem walk_found {e : Pte} (hi : i < 2 ^ 26) (h : contents t i = some e) (k : Kmem) :
    Runs (walk t (i * pgsize) false) k fun r k' => k' = k ∧ r = (t, true) := by
  rw [walk, if_neg (not_le.2 (mul_pgsize_lt_maxva.2 hi))]
  refine (walkFrom_false 2 t (i * pgsize) k).mono ?_
  rintro ⟨t', ok⟩ k' ⟨rfl, rfl, hok⟩
  rw [Nat.mul_div_cancel _ pgsize_pos] at hok
  exact ⟨rfl, by rw [show ok = true from hok (reaches_of_contents h)]⟩

theorem walk_alloc (hi : i < 2 ^ 26) (h : Balanced im k (T + Radix.dirs 2 t)) :
    Runs (walk t (i * pgsize) true) k fun r k' =>
      Balanced im k' (T + Radix.dirs 2 r.1) ∧ contents r.1 = contents t ∧
        (r.2 = true → Radix.Reaches 2 r.1 i) := by
  rw [walk, if_neg (not_le.2 (mul_pgsize_lt_maxva.2 hi))]
  refine (walkFrom_true 2 t (i * pgsize) h).mono ?_
  rintro ⟨t', ok⟩ k' ⟨hbal, hlook, hok⟩
  rw [Nat.mul_div_cancel _ pgsize_pos] at hok
  refine ⟨hbal, ?_, hok⟩
  funext j
  simp only [contents, hlook j]

theorem mappages_page (t : Table) (i : ℕ) (pa : Page) (perm : Perm) (hi : i < 2 ^ 52) :
    mappages t (i * pgsize) pgsize pa perm = mapLoop perm 0 (i * pgsize) pa t := by
  have hdown : pgRoundDown (i * pgsize) = i * pgsize := by
    rw [pgRoundDown, Nat.mul_div_cancel _ pgsize_pos]
  have hlast : pgRoundDown ((i * pgsize + pgsize - 1) % 2 ^ 64) = i * pgsize := by
    simp only [pgRoundDown, pgsize]
    omega
  have hone : (i * pgsize + 2 ^ 64 - i * pgsize) % 2 ^ 64 / pgsize = 0 := by
    rw [Nat.add_sub_cancel_left]
    rfl
  simp only [mappages, pgsize_pos.ne', if_false, hdown, hlast, hone]

theorem mappages_runs (pa : Page) (perm : Perm) (hi : i < 2 ^ 26) (hnone : contents t i = none)
    (h : Balanced im k (T + Radix.dirs 2 t)) :
    Runs (mappages t (i * pgsize) pgsize pa perm) k fun r k' =>
      Balanced im k' (T + Radix.dirs 2 r.1) ∧
        contents r.1 = if r.2 then update (contents t) i (some ⟨pa, perm⟩)
          else contents t := by
  rw [mappages_page t i pa perm (by omega)]
  unfold mapLoop
  refine .bind (walk_alloc hi h) ?_
  rintro ⟨t', ok⟩ k' ⟨hbal, hcont, hreach⟩
  cases ok with
  | false => exact .pure ⟨hbal, hcont⟩
  | true =>
    simp only [Bool.not_true, Bool.false_eq_true, if_false, pte_mul hi, hcont, hnone,
      Option.isSome_none]
    refine .pure ⟨by rwa [dirs_setPte], ?_⟩
    rw [contents_setPte hi (hreach rfl), hcont, if_pos rfl]

def target (o : Option Pte) : Page → ℕ := o.elim 0 fun e => Pi.single e.page 1

@[simp] theorem target_some (e : Pte) : target (some e) = Pi.single e.page 1 := rfl

def mapped (c : ℕ → Option Pte) (s : Finset ℕ) : Page → ℕ := ∑ i ∈ s, target (c i)

def Readable (c : ℕ → Option Pte) (s : Finset ℕ) : Prop :=
  ∀ i ∈ s, ∃ e, c i = some e ∧ e.perm.r = true

def Leaves (c : ℕ → Option Pte) (s : Finset ℕ) : Prop :=
  ∀ i ∈ s, ∃ e, c i = some e ∧ e.perm ≠ ⟨false, false, false, false⟩

theorem Readable.leaves {c : ℕ → Option Pte} {s : Finset ℕ} (h : Readable c s) : Leaves c s := by
  intro i hi
  obtain ⟨e, he, hr⟩ := h i hi
  refine ⟨e, he, fun heq => ?_⟩
  simp [heq] at hr

def cleared (c : ℕ → Option Pte) (i n : ℕ) : ℕ → Option Pte :=
  fun j => if i ≤ j ∧ j < i + n then none else c j

theorem mapped_congr {c c' : ℕ → Option Pte} {s : Finset ℕ} (h : ∀ i ∈ s, c i = c' i) :
    mapped c s = mapped c' s :=
  sum_congr rfl fun i hi => by rw [h i hi]

theorem cleared_succ (c : ℕ → Option Pte) (i n : ℕ) :
    cleared (update c i none) (i + 1) n = cleared c i (n + 1) := by
  funext j
  simp only [cleared, update_apply]
  split_ifs <;> first | rfl | omega

theorem unmapLoop_runs (doFree : Bool) (n i : ℕ) (t : Table) {k : Kmem} {T : Page → ℕ}
    (hi : i + n ≤ 2 ^ 26) (hleaf : Leaves (contents t) (Finset.Ico i (i + n)))
    (h : Balanced im k (T + Radix.dirs 2 t +
      if doFree then mapped (contents t) (Finset.Ico i (i + n)) else 0)) :
    Runs (unmapLoop im doFree n (i * pgsize) t) k fun t' k' =>
      Balanced im k' (T + Radix.dirs 2 t') ∧ contents t' = cleared (contents t) i n := by
  induction n generalizing i t k with
  | zero =>
    refine .pure ⟨?_, ?_⟩
    · simpa [mapped] using h
    · funext j
      exact (if_neg (by omega)).symm
  | succ n ih =>
    have hmem : i ∈ Finset.Ico i (i + (n + 1)) := by simp
    obtain ⟨e, he, hperm⟩ := hleaf i hmem
    have hilt : i < 2 ^ 26 := by omega
    have hcont := contents_setPte hilt (reaches_of_contents he) none
    have hrest : Leaves (contents (setPte t (i * pgsize) none))
        (Finset.Ico (i + 1) (i + 1 + n)) := by
      intro j hj
      simp only [mem_Ico] at hj
      rw [hcont, update_of_ne (by omega)]
      exact hleaf j (by simp only [mem_Ico]; omega)
    have hmapped : mapped (contents t) (Finset.Ico i (i + (n + 1))) = Pi.single e.page 1 +
        mapped (contents (setPte t (i * pgsize) none)) (Finset.Ico (i + 1) (i + 1 + n)) := by
      rw [mapped, sum_eq_sum_Ico_succ_bot (by omega), he, target_some,
        show i + (n + 1) = i + 1 + n by omega]
      congr 1
      refine mapped_congr fun j hj => ?_
      simp only [mem_Ico] at hj
      rw [hcont, update_of_ne (by omega)]
    have hnext : ∀ k1, Balanced im k1 (T + Radix.dirs 2 (setPte t (i * pgsize) none) +
        if doFree then mapped (contents (setPte t (i * pgsize) none))
          (Finset.Ico (i + 1) (i + 1 + n)) else 0) →
        Runs (unmapLoop im doFree n (i * pgsize + pgsize) (setPte t (i * pgsize) none)) k1
          fun t' k' => Balanced im k' (T + Radix.dirs 2 t') ∧
            contents t' = cleared (contents t) i (n + 1) := by
      intro k1 h1
      rw [← Nat.succ_mul]
      refine (ih (i + 1) _ (by omega) hrest h1).mono ?_
      rintro t' k' ⟨hbal, hc⟩
      exact ⟨hbal, by rw [hc, hcont, cleared_succ]⟩
    unfold unmapLoop
    refine .bind (walk_found hilt he k) ?_
    rintro _ _ ⟨rfl, rfl⟩
    simp only [Bool.not_true, Bool.false_eq_true, if_false, pte_mul hilt, he, hperm]
    cases doFree with
    | false => exact hnext _ (by simpa using h)
    | true =>
      simp only [if_true]
      refine .bind (kfree_runs (T := T + Radix.dirs 2 t +
        mapped (contents (setPte t (i * pgsize) none)) (Finset.Ico (i + 1) (i + 1 + n))) ?_) ?_
      · refine h.congr ?_
        rw [if_pos rfl, hmapped]
        abel
      · intro _ k1 hk1
        exact hnext k1 (by simpa using hk1)

theorem uvmunmap_runs (doFree : Bool) {n : ℕ} (hi : i + n ≤ 2 ^ 26)
    (hleaf : Leaves (contents t) (Finset.Ico i (i + n))) (h : Balanced im k (T + Radix.dirs 2 t +
      if doFree then mapped (contents t) (Finset.Ico i (i + n)) else 0)) :
    Runs (uvmunmap im t (i * pgsize) n doFree) k fun t' k' =>
      Balanced im k' (T + Radix.dirs 2 t') ∧ contents t' = cleared (contents t) i n := by
  have hcount : ((i * pgsize + n * pgsize) % 2 ^ 64 - i * pgsize) / pgsize = n := by
    simp only [pgsize]
    omega
  rw [uvmunmap, if_neg (by simp [Nat.mul_mod_left]), hcount]
  exact unmapLoop_runs doFree n i t hi hleaf h

theorem forM_runs {ι : Type} (l : List ι) (f : ι → Mem PUnit) (share : ι → Page → ℕ)
    (hf : ∀ i ∈ l, ∀ {k T}, Balanced im k (T + share i) → Runs (f i) k fun _ k' => Balanced im k' T)
    (h : Balanced im k (T + (l.map share).sum)) :
    Runs (l.forM f) k fun _ k' => Balanced im k' T := by
  induction l generalizing k with
  | nil => exact .pure (by simpa using h)
  | cons i l ih =>
    change Runs (f i >>= fun _ => l.forM f) k _
    refine .bind (hf i List.mem_cons_self (T := T + (l.map share).sum) (h.congr ?_)) ?_
    · rw [List.map_cons, List.sum_cons]
      abel
    · intro _ k' hk'
      exact ih (fun j hj => hf j (List.mem_cons_of_mem i hj)) hk'

theorem freewalk_runs (level : ℕ) (t : Radix 512 Pte level) {k : Kmem} {T : Page → ℕ}
    (hbare : Radix.Bare level t) (h : Balanced im k (T + Radix.dirs level t)) :
    Runs (freewalk im level t) k fun _ k' => Balanced im k' T := by
  induction level generalizing T k with
  | zero =>
    have hloop : Balanced im k (T + Pi.single (Dir.page t) 1 +
        ((List.finRange 512).map fun _ => (0 : Page → ℕ)).sum) := by
      refine h.congr ?_
      have hzero : ∀ o : Option Pte, o.elim 0 (fun _ => (0 : Page → ℕ)) = 0 :=
        fun o => by cases o <;> rfl
      rw [← Fin.sum_univ_def, sum_const_zero, add_zero]
      simp only [Radix.dirs, Dir.pages, hzero, sum_const_zero, add_zero]
    refine .bind (forM_runs _ _ (fun _ => 0) ?_ hloop) fun _ _ hk => kfree_runs hk
    intro i _ k T hk
    rw [Radix.bare_zero hbare i]
    exact .pure (by simpa using hk)
  | succ level ih =>
    have hloop : Balanced im k (T + Pi.single (Dir.page t) 1 +
        ((List.finRange 512).map fun i => (Dir.entry t i).elim 0 (Radix.dirs level)).sum) := by
      refine h.congr ?_
      rw [← Fin.sum_univ_def, add_assoc]
      rfl
    refine .bind (forM_runs _ _ (fun i => (Dir.entry t i).elim 0 (Radix.dirs level)) ?_ hloop)
      fun _ _ hk => kfree_runs hk
    intro i _ k T hk
    cases hc : Dir.entry t i with
    | none => exact .pure (by simpa [hc] using hk)
    | some c => exact ih c (Radix.bare_succ hbare hc) (by simpa [hc] using hk)

theorem bare_of_contents (h : ∀ i, contents t i = none) : Radix.Bare 2 t := by
  intro i
  have hi := h (i % span)
  rw [contents, if_pos (Nat.mod_lt _ (by decide))] at hi
  rw [← hi]
  exact Radix.lookup_congr 2 t (by simp [span])

/-- No call of `kalloc` is refused, and `n` pages are free. -/
def Stocked (k : Kmem) (n : ℕ) : Prop := (∀ i, k.deny i = false) ∧ n ≤ k.freelist.length

/-- With `c` pages to take from, `m` does not fail, and takes no more than these. -/
def Grants {α : Type} (m : Mem α) (ok : α → Bool) (c : ℕ) : Prop :=
  ∀ n k a k', m k = .ok (a, k') → Stocked k (n + c) → ok a = true ∧ Stocked k' n

namespace Grants

variable {α β : Type} {m : Mem α} {f : α → Mem β} {ok : α → Bool} {ok' : β → Bool} {c c' : ℕ}

theorem pure {a : α} (h : ok a = true) : Grants (Pure.pure a) ok 0 := by
  rintro n k _ _ ⟨⟩ hk
  exact ⟨h, hk⟩

theorem throw (e : Panic) : Grants (MonadExcept.throw e) ok c := by
  rintro n k _ _ ⟨⟩

theorem mono (h : Grants m ok c) (hc : c ≤ c') : Grants m ok c' := by
  intro n k a k' hm hk
  obtain ⟨hok, hk'⟩ := h (n + (c' - c)) k a k' hm ⟨hk.1, by have := hk.2; omega⟩
  exact ⟨hok, hk'.1, by have := hk'.2; omega⟩

theorem bind (hm : Grants m ok c) (hf : ∀ a, ok a = true → Grants (f a) ok' c') :
    Grants (m >>= f) ok' (c' + c) := by
  intro n k b k' h hk
  obtain ⟨a, t, hma, hfa⟩ := bind_ok h
  obtain ⟨hok, ht⟩ := hm (n + c') k a t hma (by rwa [add_assoc])
  exact hf a hok n t b k' hfa ht

end Grants

theorem grants_kalloc : Grants kalloc Option.isSome 1 := by
  rintro n ⟨freelist, deny⟩ a k' h hk
  cases freelist with
  | nil => exact absurd hk.2 (by simp)
  | cons p next =>
    change (if deny 0 = true then _ else _ : Mem (Option Page)) _ = _ at h
    rw [show deny 0 = false from hk.1 0, if_neg (by decide)] at h
    cases h
    exact ⟨rfl, fun i => hk.1 (i + 1), by simpa using hk.2⟩

theorem grants_walkFrom (level : ℕ) (t : Radix 512 Pte level) (va : ℕ) :
    Grants (walkFrom true level t va) Prod.snd level := by
  induction level with
  | zero => exact .pure rfl
  | succ level ih =>
    simp only [walkFrom]
    have hchild : ∀ c, Grants (walkFrom true level c va >>= fun r =>
        return (Dir.set t (px (level + 1) va) (some r.1), r.2)) Prod.snd level :=
      fun c => .mono (.bind (ih c) fun a hok => .pure hok) (zero_add level).le
    cases Dir.entry t (px (level + 1) va) with
    | some c => exact (hchild c).mono (Nat.le_succ level)
    | none =>
      refine grants_kalloc.bind fun o ho => ?_
      cases o with
      | none => cases ho
      | some p => exact hchild _

theorem grants_mapLoop (perm : Perm) (n a : ℕ) (pa : Page) (t : Table) :
    Grants (mapLoop perm n a pa t) Prod.snd (2 * (n + 1)) := by
  have hwalk : ∀ t a, Grants (walk t a true) Prod.snd 2 := by
    intro t a
    unfold walk
    split
    · exact .throw _
    · exact grants_walkFrom 2 t a
  induction n generalizing a pa t with
  | zero =>
    unfold mapLoop
    refine (hwalk t a).bind ?_
    rintro ⟨t, ok⟩ rfl
    dsimp only
    split
    · exact absurd ‹_› (by decide)
    · split
      · exact .throw _
      · exact .pure rfl
  | succ n ih =>
    unfold mapLoop
    refine (hwalk t a).bind ?_
    rintro ⟨t, ok⟩ rfl
    dsimp only
    split
    · exact absurd ‹_› (by decide)
    · split
      · exact .throw _
      · exact ih _ _ _

end Xv6MallocLab.Paging
