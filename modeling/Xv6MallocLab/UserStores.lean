import Xv6MallocLab.UserCopies

/-!
# Stores of the kernel through user addresses

`walkaddr` looks at `PTE_V` and `PTE_U` only, so `copyout` also stores to pages that are mapped
without `PTE_W`.
-/

namespace Xv6MallocLab.Paging

open ByteMemory
open ProcTable (Slot initproc)

variable {a dstva q : ℕ}

theorem lt_reach_iff (t : Table) (va len j : ℕ) :
    j < reach t va len ↔ j < len ∧ Reach t va (va + j) := by
  constructor
  · intro hj
    refine ⟨hj.trans_le (reach_le ..), fun a hlo hhi => ?_⟩
    obtain ⟨i, rfl⟩ := Nat.exists_eq_add_of_le hlo
    exact isSome_of_lt_reach (lt_of_le_of_lt (Nat.le_of_add_le_add_left hhi) hj)
  · rintro ⟨hj, hreach⟩
    obtain ⟨k, rfl⟩ := Nat.exists_eq_add_of_le (Nat.succ_le_of_lt hj)
    rw [reach_add fun i hi => hreach (va + i) (by omega) (by omega)]
    omega

theorem copyoutTo_ok_iff (t : Table) (dstva : ℕ) (src : Memory) (len : ℕ) (phys : Memory) :
    (copyoutTo t dstva src len phys).2 = true ↔
      ∀ a, dstva ≤ a → a < dstva + len → (userPage t a).isSome := by
  rw [copyoutTo_eq, decide_eq_true_iff, reach_eq_iff]
  refine ⟨fun h a hlo hhi => ?_, fun h j hj => h _ (Nat.le_add_right ..) (Nat.add_lt_add_left hj _)⟩
  obtain ⟨j, rfl⟩ := Nat.exists_eq_add_of_le hlo
  exact h j (Nat.lt_of_add_lt_add_left hhi)

theorem copyoutTo_frame (t : Table) (dstva : ℕ) (src : Memory) (len : ℕ) (phys : Memory)
    (h : ∀ a, dstva ≤ a → a < dstva + len → Reach t dstva a → paddr t a ≠ some q) :
    (copyoutTo t dstva src len phys).1 q = phys q := by
  rw [copyoutTo_eq]
  refine storeUser_outside _ _ fun j hj => ?_
  obtain ⟨hlt, hreach⟩ := (lt_reach_iff ..).1 hj
  exact h _ (Nat.le_add_right ..) (Nat.add_lt_add_left hlt _) hreach

theorem storeUser_fill (t : Table) (va : ℕ) (b : UInt8) (k : ℕ) :
    storeUser t va (fun _ => b) k (fun _ => b) = fun _ => b := by
  induction k with
  | zero => rfl
  | succ k ih =>
    rw [storeUser, ih]
    split
    · exact Function.update_eq_self ..
    · rfl

theorem copyoutTo_const (t : Table) (dstva : ℕ) (b : UInt8) (len : ℕ) (phys : Memory)
    (hlo : dstva ≤ a) (hhi : a < dstva + len) (hreach : Reach t dstva a) (hq : paddr t a = some q) :
    (copyoutTo t dstva (fun _ => b) len phys).1 q = b := by
  obtain ⟨j, rfl⟩ := Nat.exists_eq_add_of_le hlo
  have hj := (lt_reach_iff ..).2 ⟨Nat.lt_of_add_lt_add_left hhi, hreach⟩
  rw [copyoutTo_eq]
  dsimp only
  rw [storeUser_indep _ ⟨j, hj, hq⟩ phys fun _ => b, storeUser_fill]

/-- A call leaves every page mapped without `PTE_W` as it is, and fails if its range
touches one. -/
structure Respects (t : Table) (dstva : ℕ) (src : Memory) (len : ℕ) (phys : Memory) : Prop where
  same : ∀ v < span, ∀ e, Radix.lookup 2 t v = some e → e.perm.w = false → ∀ o < pgsize,
    (copyoutTo t dstva src len phys).1 (e.page * pgsize + o) = phys (e.page * pgsize + o)
  refuses : ∀ a, dstva ≤ a → a < dstva + len → a < maxva → ∀ e, pte t a = some e →
    e.perm.w = false → (copyoutTo t dstva src len phys).2 = false

def Writable (t : Table) (dstva len : ℕ) : Prop :=
  ∀ a, dstva ≤ a → a < dstva + len → Reach t dstva a → ∀ e, pte t a = some e → e.perm.w = true

theorem userPage_some {t : Table} {pa : Page} (h : userPage t a = some pa) :
    a < maxva ∧ ∃ e, pte t a = some e ∧ e.perm.u = true ∧ e.page = pa := by
  unfold userPage at h
  split at h
  · cases h
  · rename_i hmax
    cases hpte : pte t a with
    | none =>
      rw [hpte] at h
      cases h
    | some e =>
      rw [hpte] at h
      cases hu : e.perm.u with
      | false => simp [hu] at h
      | true =>
        simp [hu] at h
        exact ⟨not_le.1 hmax, e, rfl, hu, h⟩

theorem page_of_address (pa : ℕ) {o : ℕ} (ho : o < pgsize) : (pa * pgsize + o) / pgsize = pa := by
  rw [Nat.mul_comm, Nat.mul_add_div pgsize_pos, Nat.div_eq_of_lt ho, Nat.add_zero]

theorem exists_byte_ne (x : UInt8) : ∃ b : UInt8, b ≠ x := by
  by_cases h : x = 0
  · exact ⟨1, by rw [h]; decide⟩
  · exact ⟨0, Ne.symm h⟩

variable {im : Image} {s : State} {i : Slot} {p : Proc}

theorem page_lt_span (h : a < maxva) : a / pgsize < span := by
  apply lt_span
  simp only [maxva, pgsize] at *
  omega

theorem Sound.entry_unique (h : Sound im s) (him : im.trampoline < im.first) (hp : s.proc i = some p)
    {v w : ℕ} {e e' : Pte} (hv : v < span) (hw : w < span)
    (he : Radix.lookup 2 p.pagetable v = some e) (hu : e.perm.u = true)
    (he' : Radix.lookup 2 p.pagetable w = some e') (hnw : e'.perm.w = false)
    (hpage : e.page = e'.page) : v = w := by
  rw [contents_of_lt hv] at he
  rw [contents_of_lt hw] at he'
  have hvlt := h.lt_of_user hp he hu
  by_cases hwlt : w < npages p.sz
  · exact h.page_inj hp hvlt hwlt he he' hpage
  · -- above the user space only the trampoline is without `PTE_W`, and it is no managed page
    exfalso
    have htop := he'
    rw [(h.fit i p hp).above w (by omega)] at htop
    have htramp : e'.page = im.trampoline := by
      simp only [fixedTop, Function.update_apply] at htop
      split_ifs at htop
      · cases htop
        cases hnw
      · cases htop
        rfl
    have hmanaged : im.managed e.page := by
      refine (h.balanced_rest hp).managed_of_pos ?_
      have hpos := single_le_mapped (Finset.mem_range.2 hvlt) he
      simp only [Pi.add_apply, Proc.pages, held]
      omega
    have := hmanaged.1
    rw [hpage, htramp] at this
    exact absurd this (not_le.2 him)

/-- `copyout` respects the pages without `PTE_W`, whatever it copies, if and only if
every address of the range that it can reach has `PTE_W`. -/
theorem copyout_respects_iff (him : im.trampoline < im.first) (h : Reached im s)
    (hp : s.proc i = some p) (dstva len : ℕ) (phys : Memory) :
    (∀ src, Respects p.pagetable dstva src len phys) ↔ Writable p.pagetable dstva len := by
  have hsound := h.sound
  constructor
  · intro hall a hlo hhi hreach e he
    by_contra hw
    have hw : e.perm.w = false := by simpa using hw
    obtain ⟨pa, hpa⟩ := Option.isSome_iff_exists.1 (hreach a hlo le_rfl)
    obtain ⟨hmax, e', he', -, rfl⟩ := userPage_some hpa
    rw [he] at he'
    cases he'
    -- a byte that differs from what is there
    obtain ⟨b, hb⟩ := exists_byte_ne (phys (e.page * pgsize + a % pgsize))
    have hsame := (hall fun _ => b).same (a / pgsize) (page_lt_span hmax) e he hw (a % pgsize)
      (Nat.mod_lt _ pgsize_pos)
    rw [copyoutTo_const p.pagetable dstva b len phys hlo hhi hreach (by rw [paddr, hpa]; rfl)] at hsame
    exact hb hsame
  · intro hwritable src
    refine ⟨fun v hv e he hw o ho => ?_, fun a hlo hhi hmax e he hw => ?_⟩
    · refine copyoutTo_frame _ _ _ _ _ fun a hlo hhi hreach hq => ?_
      obtain ⟨pa, hpa⟩ := Option.isSome_iff_exists.1 (hreach a hlo le_rfl)
      obtain ⟨hmax, e', he', hu, rfl⟩ := userPage_some hpa
      rw [paddr, hpa, Option.map_some, Option.some.injEq] at hq
      have hpage : e'.page = e.page := by
        rw [← page_of_address e'.page (Nat.mod_lt a pgsize_pos), hq, page_of_address e.page ho]
      obtain rfl := hsound.entry_unique him hp (page_lt_span hmax) hv he' hu he hw hpage
      have hwr := hwritable a hlo hhi hreach e' he'
      rw [pte] at he'
      rw [he'] at he
      cases he
      rw [hw] at hwr
      cases hwr
    · by_contra hok
      have hok : (copyoutTo p.pagetable dstva src len phys).2 = true := by simpa using hok
      rw [copyoutTo_ok_iff] at hok
      have hwr := hwritable a hlo hhi (fun a' h1 h2 => hok a' h1 (by omega)) e he
      rw [hw] at hwr
      cases hwr

theorem textImage_runs : ∃ s p, Reached textImage s ∧ s.proc initproc = some p ∧
    ∃ e, pte p.pagetable 0 = some e ∧ e.perm.u = true ∧ e.perm.w = false := by
  obtain ⟨s, p, hs, hp, hcheck⟩ := reached_of_bootRun (f := fun _ p =>
    (pte p.pagetable 0).any fun e => e.perm.u ∧ e.perm.w = false)
    (show ((bootRun textImage (fun _ => false) [.exec initproc (some textFile) fun _ => .null]).any _) =
      true by decide +kernel)
  obtain ⟨e, he, hperm⟩ := (Option.any_eq_true ..).1 hcheck
  exact ⟨s, p, hs, hp, e, he, of_decide_eq_true hperm⟩

theorem copyout_respects_iff_text : ∃ s p, Reached textImage s ∧ s.proc initproc = some p ∧
    ¬∀ src, Respects p.pagetable 0 src 1 fun _ => 0 := by
  obtain ⟨s, p, hs, hp, e, he, hu, hw⟩ := textImage_runs
  refine ⟨s, p, hs, hp, fun hall => ?_⟩
  have hwritable := (copyout_respects_iff (by decide) hs hp 0 1 _).1 hall
  have hreach : Reach p.pagetable 0 0 := by
    intro a' _ hle
    rw [Nat.le_zero.1 hle, userPage, if_neg (by decide), he]
    simp [hu]
  have := hwritable 0 le_rfl (by decide) hreach e he
  rw [hw] at this
  cases this

/-- `copyout` to the text of a process succeeds and changes it. -/
theorem copyout_changes_text : ∃ s p e, Reached textImage s ∧ s.proc initproc = some p ∧
    pte p.pagetable 0 = some e ∧ e.perm.w = false ∧
    ∀ phys b, (copyoutTo p.pagetable 0 (fun _ => b) 1 phys).2 = true ∧
      (copyoutTo p.pagetable 0 (fun _ => b) 1 phys).1 (e.page * pgsize) = b := by
  obtain ⟨s, p, hs, hp, e, he, hu, hw⟩ := textImage_runs
  refine ⟨s, p, e, hs, hp, he, hw, fun phys b => ?_⟩
  have hpage : userPage p.pagetable 0 = some e.page := by
    rw [userPage, if_neg (by decide), he]
    simp [hu]
  have hsome : ∀ a < 1, (userPage p.pagetable a).isSome := by
    intro a ha
    rw [Nat.lt_one_iff.1 ha, hpage]
    rfl
  refine ⟨(copyoutTo_ok_iff ..).2 fun a _ ha => hsome a (by omega), ?_⟩
  have hq : paddr p.pagetable 0 = some (e.page * pgsize) := by
    rw [paddr, hpage, Option.map_some, Nat.zero_mod, Nat.add_zero]
  exact copyoutTo_const _ 0 b 1 phys le_rfl Nat.one_pos (fun a _ ha => hsome a (by omega)) hq

end Xv6MallocLab.Paging
