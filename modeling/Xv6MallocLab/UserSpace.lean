import Xv6MallocLab.PageCounts

/-!
# User address spaces

A page table lays out a user space of `n` pages under a fixed part `top` when the page
numbers below `n` are mapped readable and the others are as in `top`.  Every function of
vm.c is stated as a change of `n`.
-/

namespace Xv6MallocLab.Paging

open Finset Function

variable {im : Image} {k : Kmem} {T : Page → ℕ} {t : Table} {n m : ℕ} {c top : ℕ → Option Pte}
  {acc : Bool}

def Perm.Fits (acc : Bool) (p : Perm) : Prop := p.r = true ∧ (acc = true → p.u = true)

/-- `n` user pages from page number 0 on, and `top` above them. -/
structure Low (acc : Bool) (c : ℕ → Option Pte) (n : ℕ) (top : ℕ → Option Pte) : Prop where
  user : ∀ i < n, ∃ e, c i = some e ∧ e.perm.Fits acc
  above : ∀ i, n ≤ i → c i = top i

def held (t : Table) (n : ℕ) : Page → ℕ := Radix.dirs 2 t + mapped (contents t) (range n)

def trapframePage : ℕ := 2 ^ 26 - 2

def trampolinePage : ℕ := 2 ^ 26 - 1

theorem trapframeVa_eq : trapframeVa = trapframePage * pgsize := by decide

theorem trampolineVa_eq : trampolineVa = trampolinePage * pgsize := by decide

def Roof (top : ℕ → Option Pte) : Prop := ∀ i < trapframePage, top i = none

variable {i sz : ℕ} {e : Pte}

variable {s : Finset ℕ} {perm : Perm} {oldsz : ℕ} {old : Table} {oldtop : ℕ → Option Pte}

theorem page_inj_of_le_one (h : ∀ q, mapped c s q ≤ 1) {j : ℕ} {e' : Pte} (hi : i ∈ s)
    (hj : j ∈ s) (he : c i = some e) (he' : c j = some e') (hp : e.page = e'.page) : i = j := by
  by_contra hne
  have hsub : ({i, j} : Finset ℕ) ⊆ s := by
    intro x hx
    simp only [mem_insert, mem_singleton] at hx
    rcases hx with rfl | rfl <;> assumption
  have hle : ∑ x ∈ ({i, j} : Finset ℕ), target (c x) e.page ≤ ∑ x ∈ s, target (c x) e.page :=
    Finset.sum_le_sum_of_subset hsub
  have hone := h e.page
  rw [mapped, Finset.sum_apply] at hone
  rw [Finset.sum_pair hne, he, he'] at hle
  simp only [target_some, hp, Pi.single_eq_same] at hle hone
  omega

theorem single_le_mapped (hi : i ∈ s) (he : c i = some e) : 0 < mapped c s e.page := by
  rw [mapped, Finset.sum_apply]
  refine Finset.sum_pos' (fun _ _ => Nat.zero_le _) ⟨i, hi, ?_⟩
  rw [he, target_some, Pi.single_eq_same]
  exact Nat.one_pos

theorem card_le_of_mapped (hsome : ∀ i < n, ∃ e, c i = some e)
    (h : Balanced im k (T + mapped c (range n))) : n ≤ 2 ^ 15 := by
  have hone : ∀ q, mapped c (range n) q ≤ 1 := fun q =>
    le_trans (Nat.le_add_left _ _) (h.le_one q)
  let page : ℕ → Page := fun i => ((c i).elim 0 Pte.page)
  have hpage : ∀ i < n, ∃ e, c i = some e ∧ page i = e.page := by
    intro i hi
    obtain ⟨e, he⟩ := hsome i hi
    exact ⟨e, he, by simp [page, he]⟩
  have hmaps : Set.MapsTo page (range n) (Finset.Ico kernbase phystop) := by
    intro i hi
    rw [coe_range, Set.mem_Iio] at hi
    obtain ⟨e, he, hp⟩ := hpage i hi
    have hm := h.managed_of_pos (q := e.page)
      (lt_of_lt_of_le (single_le_mapped (mem_range.2 hi) he) (Nat.le_add_left _ _))
    rw [hp, coe_Ico, Set.mem_Ico]
    exact ⟨le_trans im.kernbase_le hm.1, hm.2⟩
  have hinj : Set.InjOn page (range n) := by
    intro i hi j hj hij
    rw [coe_range, Set.mem_Iio] at hi hj
    obtain ⟨e, he, hp⟩ := hpage i hi
    obtain ⟨e', he', hp'⟩ := hpage j hj
    exact page_inj_of_le_one hone (mem_range.2 hi) (mem_range.2 hj) he he'
      (by rw [← hp, ← hp', hij])
  have hcard := card_le_card_of_injOn page hmaps hinj
  rw [card_range, Nat.card_Ico] at hcard
  exact hcard

theorem Low.card_le (hlow : Low acc c n top) (h : Balanced im k (T + mapped c (range n))) :
    n ≤ 2 ^ 15 := by
  refine card_le_of_mapped (fun i hi => ?_) h
  obtain ⟨e, he, -⟩ := hlow.user i hi
  exact ⟨e, he⟩

theorem Low.held_le (hlow : Low acc (contents t) n top) (h : Balanced im k (T + held t n)) :
    n ≤ 2 ^ 15 :=
  hlow.card_le (h.congr (by rw [held, ← add_assoc]))

def npages (sz : ℕ) : ℕ := (sz + pgsize - 1) / pgsize

@[simp] theorem npages_zero : npages 0 = 0 := by decide

@[simp] theorem npages_mul (i : ℕ) : npages (i * pgsize) = i := by
  simp only [npages, pgsize]
  omega

theorem npages_mono {a b : ℕ} (h : a ≤ b) : npages a ≤ npages b := Nat.div_le_div_right (by omega)

theorem pgRoundUp_eq (h : sz ≤ 2 ^ 63) : pgRoundUp sz = npages sz * pgsize := by
  simp only [pgRoundUp, pgRoundDown, npages, pgsize]
  omega

theorem le_of_npages_le (h : npages sz ≤ m) : sz ≤ m * pgsize := by
  simp only [npages, pgsize] at *
  omega

theorem le_of_npages (h : npages sz ≤ 2 ^ 15) : sz ≤ 2 ^ 63 :=
  le_trans (le_of_npages_le h) (by decide)

theorem asInt_of_lt (h : i ≤ 2 ^ 15) : asInt i = i := by
  have hmsb : (BitVec.ofNat 32 i).msb = false := by
    rw [BitVec.msb_eq_false_iff_two_mul_lt, BitVec.toNat_ofNat]
    omega
  rw [asInt, BitVec.signExtend_eq_setWidth_of_msb_false hmsb, BitVec.toNat_setWidth,
    BitVec.toNat_ofNat]
  omega

theorem mapped_range_succ (c : ℕ → Option Pte) (n : ℕ) (e : Pte) :
    mapped (update c n (some e)) (range (n + 1)) =
      mapped c (range n) + Pi.single e.page 1 := by
  rw [mapped, sum_range_succ, update_self, target_some]
  congr 1
  refine mapped_congr fun i hi => ?_
  rw [update_of_ne (mem_range.1 hi).ne]

theorem Low.push (hlow : Low acc c n top) (hr : e.perm.Fits acc) :
    Low acc (update c n (some e)) (n + 1) top where
  user i hi := by
    rcases Nat.lt_succ_iff_lt_or_eq.1 hi with hi | rfl
    · rw [update_of_ne hi.ne]
      exact hlow.user i hi
    · exact ⟨e, update_self .., hr⟩
  above i hi := by
    rw [update_of_ne (by omega)]
    exact hlow.above i (by omega)

theorem grow_runs {mem : Page} (hr : perm.Fits acc) (hroof : Roof top)
    (hlow : Low acc (contents t) n top) (h : Balanced im k (T + held t n + Pi.single mem 1)) :
    Runs (mappages t (n * pgsize) pgsize mem perm) k fun r k' =>
      if r.2 then
        Low acc (contents r.1) (n + 1) top ∧
          contents r.1 = update (contents t) n (some ⟨mem, perm⟩) ∧
          Balanced im k' (T + held r.1 (n + 1))
      else contents r.1 = contents t ∧ Balanced im k' (T + held r.1 n + Pi.single mem 1) := by
  have hn : n ≤ 2 ^ 15 :=
    hlow.held_le (T := T + Pi.single mem 1) (h.congr (add_right_comm ..))
  have hnone : contents t n = none := by
    rw [hlow.above n le_rfl]
    exact hroof n (lt_of_le_of_lt hn (by decide))
  refine (mappages_runs (T := T + mapped (contents t) (range n) + Pi.single mem 1)
    mem perm (lt_of_le_of_lt hn (by decide)) hnone (h.congr ?_)).mono ?_
  · rw [held]
    abel
  · rintro ⟨t', ok⟩ k' ⟨hbal, hcont⟩
    cases ok with
    | false =>
      simp only [Bool.false_eq_true, if_false] at hcont ⊢
      refine ⟨hcont, hbal.congr ?_⟩
      rw [held, hcont]
      abel
    | true =>
      simp only [if_true] at hcont ⊢
      refine ⟨hcont ▸ hlow.push hr, hcont, hbal.congr ?_⟩
      rw [held, hcont, mapped_range_succ]
      abel

theorem Low.cut (hlow : Low acc c n top) (hmn : m ≤ n) (hroof : Roof top) (hn : n ≤ trapframePage) :
    Low acc (cleared c m (n - m)) m top where
  user i hi := by
    rw [cleared, if_neg (by omega)]
    exact hlow.user i (by omega)
  above i hi := by
    by_cases hin : i < n
    · rw [cleared, if_pos (by omega), hroof i (by omega)]
    · rw [cleared, if_neg (by omega)]
      exact hlow.above i (by omega)

theorem shrink_runs (hmn : m ≤ n) (hroof : Roof top) (hlow : Low acc (contents t) n top)
    (h : Balanced im k (T + held t n)) :
    Runs (uvmunmap im t (m * pgsize) (n - m) true) k fun t' k' =>
      Low acc (contents t') m top ∧ (∀ i < m, contents t' i = contents t i) ∧
        Balanced im k' (T + held t' m) := by
  have hn := hlow.held_le h
  have htf : n ≤ trapframePage := le_trans hn (by decide)
  have hread : Readable (contents t) (Finset.Ico m (m + (n - m))) := by
    intro i hi
    obtain ⟨e, he, hfits⟩ := hlow.user i (by rw [mem_Ico] at hi; omega)
    exact ⟨e, he, hfits.1⟩
  have hsame : ∀ i < m, cleared (contents t) m (n - m) i = contents t i :=
    fun i hi => if_neg (by omega)
  refine (uvmunmap_runs (T := T + mapped (contents t) (range m)) true
    (by rw [trapframePage] at htf; omega) hread.leaves (h.congr ?_)).mono ?_
  · rw [if_pos rfl, Nat.add_sub_cancel' hmn, held, mapped, range_eq_Ico,
      ← sum_Ico_consecutive _ (Nat.zero_le m) hmn, ← range_eq_Ico, ← mapped, ← mapped]
    abel
  · rintro t' k' ⟨hbal, hcont⟩
    refine ⟨hcont ▸ hlow.cut hmn hroof htf, fun i hi => by rw [hcont, hsame i hi],
      hbal.congr ?_⟩
    rw [held, hcont, mapped_congr (c := cleared _ _ _)
      fun i hi => hsame i (mem_range.1 hi)]
    abel

theorem uvmdealloc_runs (newsz : ℕ) (hroof : Roof top)
    (hlow : Low acc (contents t) (npages oldsz) top)
    (h : Balanced im k (T + held t (npages oldsz))) :
    Runs (uvmdealloc im t oldsz newsz) k fun r k' =>
      r.2 = min oldsz newsz ∧ Low acc (contents r.1) (npages r.2) top ∧
        (∀ i < npages r.2, contents r.1 i = contents t i) ∧
        Balanced im k' (T + held r.1 (npages r.2)) := by
  have hn := hlow.held_le h
  rw [uvmdealloc]
  by_cases hle : oldsz ≤ newsz
  · rw [if_pos hle]
    exact .pure ⟨(min_eq_left hle).symm, hlow, fun _ _ => rfl, h⟩
  · have hlt : newsz ≤ oldsz := by omega
    have hmono := npages_mono hlt
    rw [if_neg hle, pgRoundUp_eq (le_of_npages hn), pgRoundUp_eq (le_of_npages (hmono.trans hn)),
      ← Nat.sub_mul, Nat.mul_div_cancel _ pgsize_pos, asInt_of_lt (by omega)]
    by_cases hpages : npages newsz < npages oldsz
    · rw [if_pos (Nat.mul_lt_mul_of_pos_right hpages pgsize_pos)]
      refine .bind (shrink_runs hmono hroof hlow h) ?_
      rintro t' k' ⟨hlow', hsame, hbal⟩
      exact .pure ⟨(min_eq_right hlt).symm, hlow', hsame, hbal⟩
    · have heq : npages newsz = npages oldsz := by omega
      rw [if_neg (by rw [heq]; exact lt_irrefl _)]
      refine .pure ⟨(min_eq_right hlt).symm, ?_⟩
      rw [heq]
      exact ⟨hlow, fun _ _ => rfl, h⟩

theorem allocLoop_runs (hr : perm.Fits acc) (hroof : Roof top) (n : ℕ) (t : Table) {k : Kmem}
    (hmi : m ≤ i) (hlow : Low acc (contents t) i top) (h : Balanced im k (T + held t i)) :
    Runs (allocLoop im (m * pgsize) perm n (i * pgsize) t) k fun r k' =>
      Low acc (contents r.1) (if r.2 then i + n else m) top ∧
        (∀ j < m, contents r.1 j = contents t j) ∧
        Balanced im k' (T + held r.1 (if r.2 then i + n else m)) := by
  induction n generalizing i t k with
  | zero => exact .pure ⟨hlow, fun _ _ => rfl, h⟩
  | succ n ih =>
    -- what the two failure exits have in common
    have hback : ∀ (t' : Table) (k' : Kmem), contents t' = contents t →
        Balanced im k' (T + held t' i) →
        Runs (do
          let r ← uvmdealloc im t' (i * pgsize) (m * pgsize)
          return (r.1, false) : Mem (Table × Bool)) k' fun r k' =>
            Low acc (contents r.1) (if r.2 then i + (n + 1) else m) top ∧
              (∀ j < m, contents r.1 j = contents t j) ∧
              Balanced im k' (T + held r.1 (if r.2 then i + (n + 1) else m)) := by
      intro t' k' hcont hbal
      have hlowi : Low acc (contents t') (npages (i * pgsize)) top := by rwa [npages_mul, hcont]
      rw [← npages_mul i] at hbal
      refine .bind (uvmdealloc_runs (m * pgsize) hroof hlowi hbal) ?_
      rintro ⟨t'', sz⟩ k'' ⟨hsz, hlow', hsame, hbal'⟩
      have hsz' : sz = m * pgsize := by
        rw [show sz = min (i * pgsize) (m * pgsize) from hsz]
        exact min_eq_right (Nat.mul_le_mul_right _ hmi)
      subst hsz'
      simp only [npages_mul] at hlow' hsame hbal'
      exact .pure ⟨hlow', fun j hj => by rw [hsame j hj, hcont], hbal'⟩
    unfold allocLoop
    refine .bind (kalloc_runs h) ?_
    intro r k1 hk1
    cases r with
    | none => exact hback t k1 rfl (by simpa using hk1)
    | some mem =>
      refine .bind (grow_runs hr hroof hlow hk1) ?_
      rintro ⟨t', ok⟩ k2 hstep
      cases ok with
      | false =>
        obtain ⟨hcont, hbal⟩ := hstep
        exact .bind (kfree_runs hbal) fun _ k3 hk3 => hback t' k3 hcont hk3
      | true =>
        obtain ⟨hlow', hcont, hbal⟩ := hstep
        rw [← Nat.succ_mul]
        refine (ih t' (by omega) hlow' hbal).mono ?_
        rintro ⟨t'', ok⟩ k4 ⟨hlow'', hsame, hbal'⟩
        rw [show i + 1 + n = i + (n + 1) by omega] at hlow'' hbal'
        refine ⟨hlow'', fun j hj => ?_, hbal'⟩
        rw [hsame j hj, show contents t' = _ from hcont, update_of_ne (by omega)]

theorem npages_count {newsz : ℕ} (h : oldsz ≤ newsz) :
    npages oldsz + (newsz - npages oldsz * pgsize + pgsize - 1) / pgsize = npages newsz := by
  have hmono := npages_mono h
  simp only [npages, pgsize] at *
  omega

theorem uvmalloc_runs {newsz : ℕ} (xperm : Perm) (hroof : Roof top)
    (hlow : Low acc (contents t) (npages oldsz) top)
    (h : Balanced im k (T + held t (npages oldsz))) :
    Runs (uvmalloc im t oldsz newsz xperm) k fun r k' =>
      (r.2 = 0 ∨ r.2 = max oldsz newsz) ∧
        (∀ i < npages oldsz, contents r.1 i = contents t i) ∧
        Low acc (contents r.1) (npages (if r.2 = 0 then oldsz else r.2)) top ∧
        Balanced im k' (T + held r.1 (npages (if r.2 = 0 then oldsz else r.2))) := by
  have hn := hlow.held_le h
  rw [uvmalloc]
  by_cases hlt : newsz < oldsz
  · rw [if_pos hlt]
    refine .pure ⟨.inr (max_eq_left hlt.le).symm, fun _ _ => rfl, ?_⟩
    simp only [ite_self]
    exact ⟨hlow, h⟩
  · have hmax : max oldsz newsz = newsz := max_eq_right (by omega)
    rw [if_neg hlt, pgRoundUp_eq (le_of_npages hn)]
    refine .bind (allocLoop_runs (m := npages oldsz) ⟨rfl, fun _ => rfl⟩ hroof _ t le_rfl hlow h) ?_
    rintro ⟨t', ok⟩ k' ⟨hlow', hsame, hbal⟩
    rw [npages_count (not_lt.1 hlt)] at hlow' hbal
    cases ok with
    | false => exact .pure ⟨.inl rfl, hsame, hlow', hbal⟩
    | true =>
      refine .pure ⟨.inr hmax.symm, hsame, ?_⟩
      simp only [if_true] at hlow' hbal ⊢
      by_cases hzero : newsz = 0
      · have hold : oldsz = 0 := by omega
        subst hzero hold
        exact ⟨hlow', hbal⟩
      · rw [if_neg hzero]
        exact ⟨hlow', hbal⟩

theorem copyLoop_runs {total : ℕ} (hroof : Roof top) (hold : Low acc (contents old) total oldtop)
    (htotal : total ≤ 2 ^ 15) (n : ℕ) (new : Table) {k : Kmem} (hin : i + n = total)
    (hlow : Low acc (contents new) i top) (h : Balanced im k (T + held new i)) :
    Runs (copyLoop im old n (i * pgsize) new) k fun r k' =>
      Low acc (contents r.1) (if r.2 then total else 0) top ∧
        Balanced im k' (T + held r.1 (if r.2 then total else 0)) := by
  induction n generalizing i new k with
  | zero =>
    rw [add_zero] at hin
    subst hin
    exact .pure ⟨hlow, h⟩
  | succ n ih =>
    obtain ⟨e, he, hfits⟩ := hold.user i (by omega)
    have hilt : i < 2 ^ 26 := by omega
    have hback : ∀ (t' : Table) (k' : Kmem), contents t' = contents new →
        Balanced im k' (T + held t' i) →
        Runs (do
          let new ← uvmunmap im t' 0 (i * pgsize / pgsize) true
          return (new, false) : Mem (Table × Bool)) k' fun r k' =>
            Low acc (contents r.1) (if r.2 then total else 0) top ∧
              Balanced im k' (T + held r.1 (if r.2 then total else 0)) := by
      intro t' k' hcont hbal
      rw [Nat.mul_div_cancel _ pgsize_pos]
      have hshrink := shrink_runs (Nat.zero_le i) hroof (hcont ▸ hlow) hbal
      rw [zero_mul, Nat.sub_zero] at hshrink
      refine .bind hshrink ?_
      rintro t'' k'' ⟨hlow', -, hbal'⟩
      exact .pure ⟨hlow', hbal'⟩
    unfold copyLoop
    refine .bind (walk_found hilt he k) ?_
    rintro _ _ ⟨rfl, rfl⟩
    simp only [Bool.not_true, Bool.false_eq_true, if_false, pte_mul hilt, he]
    refine .bind (kalloc_runs h) ?_
    intro r k1 hk1
    cases r with
    | none => exact hback new k1 rfl (by simpa using hk1)
    | some mem =>
      refine .bind (grow_runs hfits hroof hlow hk1) ?_
      rintro ⟨t', ok⟩ k2 hstep
      cases ok with
      | false =>
        obtain ⟨hcont, hbal⟩ := hstep
        exact .bind (kfree_runs hbal) fun _ k3 hk3 => hback t' k3 hcont hk3
      | true =>
        obtain ⟨hlow', -, hbal⟩ := hstep
        rw [← Nat.succ_mul]
        exact ih t' (by omega) hlow' hbal

theorem uvmcopy_runs {new : Table} (hroof : Roof top)
    (hold : Low acc (contents old) (npages sz) oldtop) (hsz : npages sz ≤ 2 ^ 15)
    (hlow : Low acc (contents new) 0 top) (h : Balanced im k (T + held new 0)) :
    Runs (uvmcopy im old new sz) k fun r k' =>
      Low acc (contents r.1) (if r.2 then npages sz else 0) top ∧
        Balanced im k' (T + held r.1 (if r.2 then npages sz else 0)) := by
  have hloop := copyLoop_runs hroof hold hsz (npages sz) new (zero_add _) hlow h
  rwa [zero_mul] at hloop

theorem uvmfree_runs (hlow : Low acc (contents t) (npages sz) fun _ => none)
    (h : Balanced im k (T + held t (npages sz))) :
    Runs (uvmfree im t sz) k fun _ k' => Balanced im k' T := by
  have hfree : ∀ (t' : Table) (k' : Kmem), Low acc (contents t') 0 (fun _ => none) →
      Balanced im k' (T + held t' 0) → Runs (freewalk im 2 t') k' fun _ k' => Balanced im k' T := by
    intro t' k' hlow' hbal
    refine freewalk_runs 2 t' (bare_of_contents fun i => hlow'.above i (Nat.zero_le i)) ?_
    exact hbal.congr (by simp [held, mapped])
  rw [uvmfree]
  by_cases hsz : 0 < sz
  · have hshrink := shrink_runs (Nat.zero_le _) (fun _ _ => rfl) hlow h
    rw [zero_mul, Nat.sub_zero] at hshrink
    rw [if_pos hsz, pgRoundUp_eq (le_of_npages (hlow.held_le h)), Nat.mul_div_cancel _ pgsize_pos]
    refine .bind hshrink ?_
    rintro t' k' ⟨hlow', -, hbal⟩
    exact hfree t' k' hlow' hbal
  · have hzero : sz = 0 := by omega
    subst hzero
    rw [if_neg hsz]
    rw [npages_zero] at hlow h
    exact hfree t k hlow h

def fixedTop (im : Image) (tf : Page) : ℕ → Option Pte :=
  update
    (update (fun _ => none) trampolinePage
      (some ⟨im.trampoline, ⟨true, false, true, false⟩⟩))
    trapframePage (some ⟨tf, ⟨true, true, false, false⟩⟩)

variable {tf : Page}

theorem roof_fixedTop : Roof (fixedTop im tf) := by
  intro i hi
  have hne : i ≠ trampolinePage := by
    simp only [trapframePage, trampolinePage] at *
    omega
  rw [fixedTop, update_of_ne hi.ne, update_of_ne hne]

theorem trapframePage_lt : trapframePage < 2 ^ 26 := by decide

theorem trampolinePage_lt : trampolinePage < 2 ^ 26 := by decide

@[simp] theorem fixedTop_trapframe : fixedTop im tf trapframePage =
    some ⟨tf, ⟨true, true, false, false⟩⟩ := update_self ..

@[simp] theorem fixedTop_trampoline : fixedTop im tf trampolinePage =
    some ⟨im.trampoline, ⟨true, false, true, false⟩⟩ := by
  rw [fixedTop, update_of_ne (by decide), update_self]

theorem unfix_runs (hi : i < 2 ^ 26) (he : contents t i = some e) (hr : e.perm.r = true)
    (h : Balanced im k (T + Radix.dirs 2 t)) :
    Runs (uvmunmap im t (i * pgsize) 1 false) k fun t' k' =>
      Balanced im k' (T + Radix.dirs 2 t') ∧
        contents t' = update (contents t) i none := by
  refine (uvmunmap_runs false (by omega) (Readable.leaves ?_) (by simpa using h)).mono ?_
  · intro j hj
    obtain rfl : j = i := by
      rw [mem_Ico] at hj
      omega
    exact ⟨e, he, hr⟩
  · rintro t' k' ⟨hbal, hcont⟩
    refine ⟨hbal, ?_⟩
    rw [hcont]
    funext j
    rw [cleared, update_apply]
    exact if_congr (by omega) rfl rfl

theorem procPagetable_runs (tf : Page) (h : Balanced im k T) :
    Runs (procPagetable im tf) k fun r k' =>
      (∀ t, r = some t → contents t = fixedTop im tf) ∧
        Balanced im k' (T + r.elim 0 (Radix.dirs 2)) := by
  have hfail : ∀ (t : Table) (k : Kmem), contents t = (fun _ => none) →
      Balanced im k (T + Radix.dirs 2 t) →
      Runs (do
        uvmfree im t 0
        return none : Mem (Option Table)) k fun r k' =>
          (∀ t, r = some t → contents t = fixedTop im tf) ∧
            Balanced im k' (T + r.elim 0 (Radix.dirs 2)) := by
    intro t k hcont hbal
    have hlow : Low false (contents t) (npages 0) fun _ => none :=
      ⟨fun i hi => absurd hi (Nat.not_lt_zero i), fun i _ => by rw [hcont]⟩
    refine .bind (uvmfree_runs (T := T) hlow (hbal.congr (by simp [held, mapped]))) ?_
    intro _ k' hk'
    exact .pure ⟨(fun t h => by cases h), by simpa using hk'⟩
  unfold procPagetable uvmcreate
  refine .bind (.bind (kalloc_runs h) (P := _)
    (R := fun r k' => (∀ t, r = some t → contents t = fun _ => none) ∧
      Balanced im k' (T + r.elim 0 (Radix.dirs 2))) ?_) ?_
  · intro r k1 hk1
    cases r with
    | none => exact .pure ⟨(fun t h => by cases h), hk1⟩
    | some p =>
      refine .pure ⟨?_, by simpa using hk1⟩
      rintro t ⟨⟩
      exact contents_empty p
  · rintro r k1 ⟨hnew, hk1⟩
    cases r with
    | none => exact .pure ⟨(fun t h => by cases h), hk1⟩
    | some t0 =>
      have hcont0 := hnew t0 rfl
      dsimp only
      rw [trampolineVa_eq]
      refine .bind (mappages_runs im.trampoline ⟨true, false, true, false⟩ trampolinePage_lt
        (by rw [hcont0]) hk1) ?_
      rintro ⟨t1, ok⟩ k2 ⟨hbal1, hcont1⟩
      cases ok with
      | false => exact hfail t1 k2 (by rw [hcont1]; exact hcont0) hbal1
      | true =>
        simp only [if_true, hcont0] at hcont1
        dsimp only [Bool.not_true]
        rw [if_neg (by decide), trapframeVa_eq]
        refine .bind (mappages_runs tf ⟨true, true, false, false⟩ trapframePage_lt
          (by rw [hcont1, update_of_ne (by decide)]) hbal1) ?_
        rintro ⟨t2, ok⟩ k3 ⟨hbal2, hcont2⟩
        cases ok with
        | false =>
          simp only [Bool.false_eq_true, if_false] at hcont2
          refine .bind (unfix_runs trampolinePage_lt
            (by rw [hcont2, hcont1, update_self]) rfl hbal2) ?_
          rintro t3 k4 ⟨hbal3, hcont3⟩
          refine hfail t3 k4 ?_ hbal3
          rw [hcont3, hcont2, hcont1, update_idem, update_eq_self]
        | true =>
          refine .pure ⟨?_, hbal2⟩
          rintro t ⟨⟩
          rw [hcont2, if_pos rfl, hcont1, fixedTop]

theorem Low.lift (hlow : Low acc c n top) (hi : n ≤ i) :
    Low acc (update c i none) n (update top i none) where
  user j hj := by
    rw [update_of_ne (by omega)]
    exact hlow.user j hj
  above j hj := by
    rw [update_apply, update_apply, hlow.above j hj]

theorem fixedTop_cleared : update (update (fixedTop im tf) trampolinePage none)
    trapframePage none = fun _ => none := by
  funext i
  simp only [fixedTop, update_apply]
  split_ifs <;> rfl

theorem held_of_contents {t' : Table} (h : ∀ i < n, contents t' i = contents t i) :
    held t' n = Radix.dirs 2 t' + mapped (contents t) (range n) := by
  rw [held, mapped_congr fun i hi => h i (mem_range.1 hi)]

theorem procFreepagetable_runs (hlow : Low acc (contents t) (npages sz) (fixedTop im tf))
    (h : Balanced im k (T + held t (npages sz))) :
    Runs (procFreepagetable im t sz) k fun _ k' => Balanced im k' T := by
  have hn := hlow.held_le h
  have htf : npages sz ≤ trapframePage := le_trans hn (by decide)
  have htr : npages sz ≤ trampolinePage := le_trans hn (by decide)
  unfold procFreepagetable
  rw [trampolineVa_eq, trapframeVa_eq]
  refine .bind (unfix_runs (T := T + mapped (contents t) (range (npages sz)))
    trampolinePage_lt (by rw [hlow.above _ htr, fixedTop_trampoline]) rfl (h.congr ?_)) ?_
  · rw [held]
    abel
  rintro t1 k1 ⟨hbal1, hcont1⟩
  refine .bind (unfix_runs trapframePage_lt (by rw [hcont1, update_of_ne (by decide),
    hlow.above _ htf, fixedTop_trapframe]) rfl hbal1) ?_
  rintro t2 k2 ⟨hbal2, hcont2⟩
  have hlow2 : Low acc (contents t2) (npages sz) fun _ => none := by
    rw [hcont2, hcont1, ← fixedTop_cleared]
    exact (hlow.lift htr).lift htf
  refine uvmfree_runs hlow2 (hbal2.congr ?_)
  rw [held_of_contents (t := t) fun i hi => ?_]
  · abel
  · rw [hcont2, hcont1, update_of_ne (by omega), update_of_ne (by omega)]

end Xv6MallocLab.Paging
