import Xv6MallocLab.ByteMemory
import Xv6MallocLab.AddressShape

/-!
# Copies between the kernel and user addresses

`copyout` and `copyin` ask `walkaddr` for each page of the range and stop at the first page that
it refuses, with everything before it copied.  `reach` counts the bytes before the first refused
address.
-/

namespace Xv6MallocLab.Paging

open ByteMemory Function

def userPage (t : Table) (va : ℕ) : Option Page :=
  if maxva ≤ va then none
  else
    match pte t va with
    | none => none
    | some e => if !e.perm.u then none else some e.page

theorem walkaddr_eq (t : Table) (va : ℕ) (k : Kmem) : walkaddr t va k = .ok (userPage t va, k) := by
  have hrun : Runs (walkaddr t va) k fun r k' => r = userPage t va ∧ k' = k := by
    rw [walkaddr, userPage]
    split
    · exact .pure ⟨rfl, rfl⟩
    · rename_i hva
      rw [walk, if_neg hva]
      refine .bind (walkFrom_false 2 t va k) ?_
      rintro ⟨t', ok⟩ k' ⟨rfl, rfl, hok⟩
      cases hpte : pte t' va with
      | none =>
        cases ok with
        | false => exact .pure ⟨rfl, rfl⟩
        | true =>
          simp only [hpte, Bool.not_true, Bool.false_eq_true, if_false]
          exact .pure ⟨rfl, rfl⟩
      | some e =>
        cases hok (Radix.reaches_of_lookup 2 t' (by rw [pte] at hpte; rw [hpte]; rfl))
        simp only [hpte, Bool.not_true, Bool.false_eq_true, if_false]
        split
        · exact .pure ⟨rfl, rfl⟩
        · exact .pure ⟨rfl, rfl⟩
  obtain ⟨r, k', hrun, rfl, rfl⟩ := hrun
  exact hrun

def memmove (phys : Memory) (dst : ℕ) (src : Memory) (n : ℕ) : Memory :=
  fun a => if dst ≤ a ∧ a < dst + n then src (a - dst) else phys a

def copyoutTo (t : Table) (dstva : ℕ) (src : Memory) (len : ℕ) (phys : Memory) : Memory × Bool :=
  if _h : len = 0 then (phys, true)
  else
    match userPage t (pgRoundDown dstva) with
    | none => (phys, false)
    | some pa =>
      let n := min (pgsize - (dstva - pgRoundDown dstva)) len
      copyoutTo t (pgRoundDown dstva + pgsize) (fun j => src (n + j)) (len - n)
        (memmove phys (pa * pgsize + (dstva - pgRoundDown dstva)) src n)
termination_by len
decreasing_by
  have hdown : dstva - pgRoundDown dstva < pgsize := by
    simp only [pgRoundDown, pgsize]
    omega
  omega

theorem copyoutTo_zero (t : Table) (dstva : ℕ) (src phys : Memory) :
    copyoutTo t dstva src 0 phys = (phys, true) := by
  rw [copyoutTo, dif_pos rfl]

/-- The two models of `copyout` give the same answer. -/
theorem copyout_eq (t : Table) (dstva : ℕ) (src : Memory) (len : ℕ) (phys : Memory) (k : Kmem) :
    copyout t dstva len k = .ok ((copyoutTo t dstva src len phys).2, k) := by
  induction dstva, src, len, phys using copyoutTo.induct t with
  | case1 dstva src phys =>
    rw [copyout, copyoutTo]
    rfl
  | case2 dstva src len phys hlen hnone =>
    rw [copyout, dif_neg hlen, copyoutTo, dif_neg hlen, bind_of_ok (walkaddr_eq t _ k), hnone]
    rfl
  | case3 dstva src len phys hlen pa hpa n ih =>
    rw [copyout, dif_neg hlen, copyoutTo, dif_neg hlen, bind_of_ok (walkaddr_eq t _ k), hpa]
    exact ih

def paddr (t : Table) (va : ℕ) : Option ℕ := (userPage t va).map fun pa => pa * pgsize + va % pgsize

def Reach (t : Table) (dstva a : ℕ) : Prop := ∀ a', dstva ≤ a' → a' ≤ a → (userPage t a').isSome

theorem userPage_congr (t : Table) {a b : ℕ} (h : a / pgsize = b / pgsize) :
    userPage t a = userPage t b := by
  have hmax : maxva ≤ a ↔ maxva ≤ b := by
    simp only [maxva, pgsize] at *
    omega
  rw [userPage, userPage, pte, pte, h]
  simp only [hmax]

theorem div_pgRoundDown (a : ℕ) : pgRoundDown a / pgsize = a / pgsize :=
  Nat.mul_div_cancel _ pgsize_pos

/-- How many of `len` bytes at `va` are accessible, up to the first that is not. -/
def reach (t : Table) : ℕ → ℕ → ℕ
  | _, 0 => 0
  | va, len + 1 => if (userPage t va).isSome then reach t (va + 1) len + 1 else 0

/-- The bytes at `va` that are mapped become those of `src`. -/
def storeUser (t : Table) (va : ℕ) (src : Memory) : ℕ → Memory → Memory
  | 0, phys => phys
  | k + 1, phys =>
    match paddr t (va + k) with
    | some q => update (storeUser t va src k phys) q (src k)
    | none => storeUser t va src k phys

def loadUser (t : Table) (phys : Memory) (va : ℕ) : UInt8 :=
  match paddr t va with
  | some q => phys q
  | none => 0

/-- `copyin` to `buf` at `o`, page by page. -/
def copyinFrom (t : Table) (phys : Memory) (srcva len : ℕ) (buf : Memory) (o : ℕ) : Memory × Bool :=
  if _h : len = 0 then (buf, true)
  else
    match userPage t (pgRoundDown srcva) with
    | none => (buf, false)
    | some pa =>
      let n := min (pgsize - (srcva - pgRoundDown srcva)) len
      copyinFrom t phys (pgRoundDown srcva + pgsize) (len - n)
        (memmove buf o (fun j => phys (pa * pgsize + (srcva - pgRoundDown srcva) + j)) n) (o + n)
termination_by len
decreasing_by
  have hdown : srcva - pgRoundDown srcva < pgsize := by
    simp only [pgRoundDown, pgsize]
    omega
  omega

variable {t : Table}

theorem reach_le (t : Table) (va len : ℕ) : reach t va len ≤ len := by
  induction len generalizing va with
  | zero => exact le_rfl
  | succ len ih =>
    rw [reach]
    split
    · exact Nat.succ_le_succ (ih (va + 1))
    · exact Nat.zero_le _

variable {va n len j k q : ℕ} {pa : Page}

theorem reach_add (h : ∀ j < n, (userPage t (va + j)).isSome) (len : ℕ) :
    reach t va (n + len) = n + reach t (va + n) len := by
  induction n generalizing va with
  | zero => rw [zero_add, zero_add, add_zero]
  | succ n ih =>
    have hrest : ∀ j < n, (userPage t (va + 1 + j)).isSome := fun j hj => by
      rw [add_assoc, add_comm 1 j]
      exact h (j + 1) (Nat.succ_lt_succ hj)
    rw [Nat.succ_add, reach, if_pos (by simpa using h 0 (Nat.succ_pos n)), ih hrest,
      show va + 1 + n = va + (n + 1) by omega]
    omega

theorem isSome_of_lt_reach (h : j < reach t va len) : (userPage t (va + j)).isSome := by
  induction len generalizing va j with
  | zero => exact absurd h (Nat.not_lt_zero j)
  | succ len ih =>
    rw [reach] at h
    split_ifs at h with hva
    · cases j with
      | zero => exact hva
      | succ j =>
        rw [show va + (j + 1) = va + 1 + j by omega]
        exact ih (by omega)
    · exact absurd h (Nat.not_lt_zero j)

theorem reach_eq_self (h : ∀ j < len, (userPage t (va + j)).isSome) : reach t va len = len := by
  have := reach_add h 0
  simpa [reach] using this

theorem reach_eq_iff (t : Table) (va len : ℕ) :
    reach t va len = len ↔ ∀ j < len, (userPage t (va + j)).isSome := by
  refine ⟨fun h j hj => ?_, reach_eq_self⟩
  rw [← h] at hj
  exact isSome_of_lt_reach hj

theorem reach_of_none (h : userPage t va = none) : reach t va len = 0 := by
  cases len with
  | zero => rfl
  | succ len => rw [reach, h, if_neg (by simp)]

theorem reach_of_lt {m : ℕ} (h : reach t va m < m) (len : ℕ) :
    reach t va (m + len) = reach t va m := by
  induction m generalizing va with
  | zero => exact absurd h (Nat.not_lt_zero _)
  | succ m ih =>
    rw [Nat.succ_add, reach]
    rw [reach] at h ⊢
    split_ifs at h ⊢ with hva
    · rw [ih (by omega)]
    · rfl

theorem storeUser_congr {src src' : Memory} (h : ∀ j < k, src j = src' j) (phys : Memory) :
    storeUser t va src k phys = storeUser t va src' k phys := by
  induction k with
  | zero => rfl
  | succ k ih => rw [storeUser, storeUser, ih fun j hj => h j (by omega), h k (by omega)]

theorem storeUser_indep (src : Memory) (h : ∃ j < k, paddr t (va + j) = some q)
    (phys phys' : Memory) : storeUser t va src k phys q = storeUser t va src k phys' q := by
  induction k with
  | zero =>
    obtain ⟨j, hj, -⟩ := h
    exact absurd hj (Nat.not_lt_zero j)
  | succ k ih =>
    rw [storeUser, storeUser]
    have hrest : paddr t (va + k) ≠ some q → ∃ j < k, paddr t (va + j) = some q := by
      intro hne
      obtain ⟨j, hj, hq⟩ := h
      refine ⟨j, lt_of_le_of_ne (Nat.le_of_lt_succ hj) ?_, hq⟩
      rintro rfl
      exact hne hq
    cases hk : paddr t (va + k) with
    | none => exact ih (hrest (by rw [hk]; exact nofun))
    | some q' =>
      dsimp only
      by_cases hq : q = q'
      · rw [hq, update_self, update_self]
      · rw [update_of_ne hq, update_of_ne hq]
        refine ih (hrest ?_)
        rw [hk]
        exact fun heq => hq (Option.some.inj heq).symm

theorem storeUser_outside (src phys : Memory) (h : ∀ j < k, paddr t (va + j) ≠ some q) :
    storeUser t va src k phys q = phys q := by
  induction k with
  | zero => rfl
  | succ k ih =>
    have hrest := ih fun j hj => h j (by omega)
    rw [storeUser]
    cases hk : paddr t (va + k) with
    | none => exact hrest
    | some q' =>
      have hne : q ≠ q' := by
        rintro rfl
        exact h k (by omega) hk
      exact (update_of_ne hne _ _).trans hrest

theorem storeUser_apply (src phys : Memory) (hj : j < k) (hq : paddr t (va + j) = some q)
    (hone : ∀ i < k, paddr t (va + i) = some q → i = j) : storeUser t va src k phys q = src j := by
  induction k with
  | zero => exact absurd hj (Nat.not_lt_zero j)
  | succ k ih =>
    rw [storeUser]
    by_cases hlast : j = k
    · subst hlast
      rw [hq]
      dsimp only
      rw [update_self]
    · have hrest := ih (by omega) fun i hi hiq => hone i (by omega) hiq
      cases hk : paddr t (va + k) with
      | none => exact hrest
      | some q' =>
        have hne : q ≠ q' := by
          rintro rfl
          exact hlast (hone k (by omega) hk).symm
        exact (update_of_ne hne _ _).trans hrest

theorem storeUser_add (t : Table) (va : ℕ) (src : Memory) (n k : ℕ) (phys : Memory) :
    storeUser t va src (n + k) phys =
      storeUser t (va + n) (fun j => src (n + j)) k (storeUser t va src n phys) := by
  induction k with
  | zero => rfl
  | succ k ih =>
    rw [← add_assoc, storeUser, storeUser, ← ih, add_assoc]

theorem paddr_page (hpa : userPage t (pgRoundDown va) = some pa)
    (hj : j < pgsize - (va - pgRoundDown va)) :
    userPage t (va + j) = some pa ∧
      paddr t (va + j) = some (pa * pgsize + (va - pgRoundDown va + j)) := by
  have hsame : (va + j) / pgsize = va / pgsize ∧ (va + j) % pgsize = va - pgRoundDown va + j := by
    simp only [pgRoundDown, pgsize] at *
    omega
  rw [paddr, userPage_congr t (hsame.1.trans (div_pgRoundDown va).symm), hpa, hsame.2]
  exact ⟨rfl, rfl⟩

theorem storeUser_page (src phys : Memory) (hpa : userPage t (pgRoundDown va) = some pa)
    (hn : n ≤ pgsize - (va - pgRoundDown va)) :
    storeUser t va src n phys = memmove phys (pa * pgsize + (va - pgRoundDown va)) src n := by
  induction n with
  | zero => exact (funext fun a => if_neg (by omega)).symm
  | succ n ih =>
    rw [storeUser, (paddr_page hpa (by omega)).2, ih (by omega)]
    funext a
    simp only [memmove, update_apply]
    by_cases ha : a = pa * pgsize + (va - pgRoundDown va + n)
    · rw [if_pos ha, if_pos (by omega)]
      congr 1
      omega
    · rw [if_neg ha]
      exact if_congr (by omega) rfl rfl

theorem isSome_of_page (hpa : userPage t (pgRoundDown va) = some pa)
    (hn : n ≤ pgsize - (va - pgRoundDown va)) : ∀ j < n, (userPage t (va + j)).isSome := by
  intro j hj
  rw [(paddr_page hpa (by omega)).1]
  rfl

/-- Where the page of `va` is mapped, the rest starts on the next page. -/
theorem reach_page (hpa : userPage t (pgRoundDown va) = some pa)
    (hn : n = min (pgsize - (va - pgRoundDown va)) len) :
    reach t va len = n + reach t (pgRoundDown va + pgsize) (len - n) := by
  have hle : n ≤ pgsize - (va - pgRoundDown va) := hn ▸ min_le_left _ _
  have hrest : reach t (pgRoundDown va + pgsize) (len - n) = reach t (va + n) (len - n) := by
    by_cases h : len ≤ pgsize - (va - pgRoundDown va)
    · rw [hn, min_eq_right h, Nat.sub_self]
      rfl
    · congr 1
      simp only [pgRoundDown, pgsize] at *
      omega
  rw [hrest, ← reach_add (isSome_of_page hpa hle), Nat.add_sub_cancel' (hn ▸ min_le_right _ _)]

theorem reach_noPage (hnone : userPage t (pgRoundDown va) = none) : reach t va len = 0 :=
  reach_of_none (by rw [← hnone]; exact userPage_congr t (div_pgRoundDown va).symm)

theorem copyoutTo_eq (t : Table) (va : ℕ) (src : Memory) (len : ℕ) (phys : Memory) :
    copyoutTo t va src len phys =
      (storeUser t va src (reach t va len) phys, decide (reach t va len = len)) := by
  induction va, src, len, phys using copyoutTo.induct t with
  | case1 va src phys =>
    rw [copyoutTo_zero]
    rfl
  | case2 va src len phys hlen hnone =>
    rw [copyoutTo, dif_neg hlen, hnone, reach_noPage hnone, decide_eq_false (Ne.symm hlen)]
    rfl
  | case3 va src len phys hlen pa hpa n ih =>
    have hn : n ≤ pgsize - (va - pgRoundDown va) := min_le_left _ _
    have hle : n ≤ len := min_le_right _ _
    rw [copyoutTo, dif_neg hlen, hpa]
    dsimp only
    rw [ih, reach_page (n := n) hpa rfl]
    refine Prod.ext ?_ (decide_eq_decide.2 (by omega))
    dsimp only
    rw [storeUser_add, storeUser_page src phys hpa hn]
    by_cases hlast : len ≤ pgsize - (va - pgRoundDown va)
    · rw [show len - n = 0 by omega]
      rfl
    · rw [show va + n = pgRoundDown va + pgsize by simp only [n, pgRoundDown, pgsize] at *; omega]

theorem loadUser_page (phys : Memory) (hpa : userPage t (pgRoundDown va) = some pa)
    (hn : n ≤ pgsize - (va - pgRoundDown va)) (hj : j < n) :
    loadUser t phys (va + j) = phys (pa * pgsize + (va - pgRoundDown va) + j) := by
  rw [loadUser, (paddr_page hpa (hj.trans_le hn)).2, add_assoc]

theorem memmove_zero (buf : Memory) (o : ℕ) (src : Memory) : memmove buf o src 0 = buf :=
  funext fun a => if_neg (by omega)

theorem memmove_add {buf src src' : Memory} {o : ℕ} (h : ∀ j < n, src' j = src j) :
    memmove (memmove buf o src' n) (o + n) (fun j => src (n + j)) k = memmove buf o src (n + k) := by
  funext a
  simp only [memmove]
  by_cases h1 : o ≤ a ∧ a < o + n
  · rw [if_neg (by omega), if_pos h1, if_pos (by omega)]
    exact h _ (by omega)
  · rw [if_neg h1]
    by_cases h2 : o + n ≤ a ∧ a < o + n + k
    · rw [if_pos h2, if_pos (by omega)]
      congr 1
      omega
    · rw [if_neg h2, if_neg (by omega)]

theorem copyinFrom_eq (t : Table) (phys : Memory) (va len : ℕ) (buf : Memory) (o : ℕ) :
    copyinFrom t phys va len buf o =
      (memmove buf o (fun j => loadUser t phys (va + j)) (reach t va len),
        decide (reach t va len = len)) := by
  induction va, len, buf, o using copyinFrom.induct t phys with
  | case1 va buf o =>
    have hzero : reach t va 0 = 0 := rfl
    rw [copyinFrom, dif_pos rfl, hzero, memmove_zero]
    rfl
  | case2 va len buf o hlen hnone =>
    rw [copyinFrom, dif_neg hlen, hnone, reach_noPage hnone, decide_eq_false (Ne.symm hlen),
      memmove_zero]
  | case3 va len buf o hlen pa hpa n ih =>
    have hn : n ≤ pgsize - (va - pgRoundDown va) := min_le_left _ _
    have hle : n ≤ len := min_le_right _ _
    rw [copyinFrom, dif_neg hlen, hpa]
    dsimp only
    rw [ih, reach_page (n := n) hpa rfl]
    refine Prod.ext ?_ (decide_eq_decide.2 (by omega))
    dsimp only
    by_cases hlast : len ≤ pgsize - (va - pgRoundDown va)
    · rw [show len - n = 0 by omega]
      change memmove _ _ _ 0 = memmove _ _ _ (n + 0)
      rw [← memmove_add fun j hj => (loadUser_page phys hpa hn hj).symm, memmove_zero, memmove_zero]
    · rw [show pgRoundDown va + pgsize = va + n by simp only [n, pgRoundDown, pgsize] at *; omega,
        ← memmove_add fun j hj => (loadUser_page phys hpa hn hj).symm]
      simp only [add_assoc]

end Xv6MallocLab.Paging
