import Xv6MallocLab.UserSpace

/-!
# Building the image of a program

`exec` on any file: segments in any order and overlapping, with sizes that wrap, and
a failure at any point.  While segments are loaded every page of the new image is
accessible from user space, which is what `loadseg` relies on.
-/

namespace Xv6MallocLab.Paging

open Function

variable {im : Image} {k : Kmem} {T : Page → ℕ} {t : Table} {n : ℕ} {c top : ℕ → Option Pte}
  {acc : Bool} {tf : Page}

theorem walkaddr_same (t : Table) (va : ℕ) (k : Kmem) :
    Runs (walkaddr t va) k fun _ k' => k' = k := by
  rw [walkaddr]
  split
  · exact .pure rfl
  · rename_i hva
    rw [walk, if_neg hva]
    refine .bind (walkFrom_false 2 t va k) ?_
    rintro ⟨t', ok⟩ k' ⟨rfl, rfl, -⟩
    cases ok with
    | false => exact .pure rfl
    | true =>
      dsimp only [Bool.not_true]
      rw [if_neg (by decide)]
      split
      · exact .pure rfl
      · split <;> exact .pure rfl

theorem copyout_same (t : Table) (dstva len : ℕ) (k : Kmem) :
    Runs (copyout t dstva len) k fun _ k' => k' = k := by
  induction dstva, len using copyout.induct with
  | case1 dstva =>
    rw [copyout]
    exact .pure rfl
  | case2 dstva len hlen ih =>
    rw [copyout, dif_neg hlen]
    refine .bind (walkaddr_same t _ k) ?_
    rintro r k' rfl
    cases r with
    | none => exact .pure rfl
    | some _ => exact ih

theorem pushArgs_same (t : Table) (stackbase : ℕ) (argv : List ℕ) (argc sp : ℕ) (k : Kmem) :
    Runs (pushArgs t stackbase argv argc sp) k fun _ k' => k' = k := by
  induction argv generalizing argc sp with
  | nil => exact .pure rfl
  | cons len rest ih =>
    rw [pushArgs]
    split
    · exact .pure rfl
    split
    · exact .pure rfl
    refine .bind (copyout_same t _ _ k) ?_
    rintro ok k' rfl
    cases ok with
    | false => exact .pure rfl
    | true => exact ih _ _

theorem pushStack_same (t : Table) (sz : ℕ) (argv : List ℕ) (k : Kmem) :
    Runs (pushStack t sz argv) k fun _ k' => k' = k := by
  unfold pushStack
  refine .bind (pushArgs_same t _ argv 0 sz k) ?_
  rintro r k' rfl
  cases r with
  | none => exact .pure rfl
  | some p =>
    dsimp only
    split
    · exact .pure rfl
    · exact copyout_same t _ _ _

variable {i va filesz oldsz : ℕ} {e : Pte} {ph : Proghdr} {old : Table}

theorem walkaddr_user (hi : i < 2 ^ 26) (he : contents t i = some e) (hu : e.perm.u = true)
    (k : Kmem) : Runs (walkaddr t (i * pgsize)) k fun r k' => k' = k ∧ r = some e.page := by
  rw [walkaddr, if_neg (not_le.2 (mul_pgsize_lt_maxva.2 hi))]
  refine .bind (walk_found hi he k) ?_
  rintro _ _ ⟨rfl, rfl⟩
  simp only [Bool.not_true, Bool.false_eq_true, if_false, pte_mul hi, he, hu]
  exact .pure ⟨rfl, rfl⟩

theorem segLoop_runs (hlow : Low true (contents t) n top) (hn : n ≤ 2 ^ 15) (j : ℕ)
    (file : ExecFile) (offset sz : ℕ) (p i : ℕ) (hp : j + i + p ≤ n) (k : Kmem) :
    Runs (segLoop t (j * pgsize) file offset sz p (i * pgsize)) k fun _ k' => k' = k := by
  induction p generalizing i with
  | zero => exact .pure rfl
  | succ p ih =>
    obtain ⟨e, he, -, hu⟩ := hlow.user (j + i) (by omega)
    have hva : (j * pgsize + i * pgsize) % 2 ^ 64 = (j + i) * pgsize := by
      simp only [pgsize]
      omega
    rw [segLoop, hva]
    refine .bind (walkaddr_user (by omega) he (hu rfl) k) ?_
    rintro _ _ ⟨rfl, rfl⟩
    dsimp only
    split
    · rw [← Nat.succ_mul]
      exact ih (i + 1) (by omega)
    · exact .pure rfl

theorem exists_segment_pages (hva : va % pgsize = 0) (hend : va + filesz ≤ n * pgsize) :
    ∃ j, va = j * pgsize ∧ j + 0 + (filesz % 2 ^ 32 + pgsize - 1) / pgsize ≤ n := by
  obtain ⟨j, rfl⟩ : ∃ j, va = j * pgsize :=
    ⟨va / pgsize, by rw [Nat.div_mul_cancel (Nat.dvd_of_mod_eq_zero hva)]⟩
  refine ⟨j, rfl, ?_⟩
  have := Nat.mod_le filesz (2 ^ 32)
  simp only [pgsize] at *
  omega

theorem loadseg_runs (hlow : Low true (contents t) n top) (hn : n ≤ 2 ^ 15)
    (hva : va % pgsize = 0) (hend : va + filesz ≤ n * pgsize) (file : ExecFile) (offset : ℕ)
    (k : Kmem) : Runs (loadseg t va file offset filesz) k fun _ k' => k' = k := by
  obtain ⟨j, rfl, hp⟩ := exists_segment_pages hva hend
  have hloop := segLoop_runs hlow hn j file (offset % 2 ^ 32) (filesz % 2 ^ 32) _ 0 hp k
  rwa [Nat.zero_mul] at hloop

theorem mapped_update_same {s : Finset ℕ} {e' : Pte} (he : c i = some e)
    (hpage : e'.page = e.page) : mapped (update c i (some e')) s = mapped c s := by
  refine Finset.sum_congr rfl fun j _ => ?_
  by_cases hj : j = i
  · rw [hj, update_self, he, target_some, target_some, hpage]
  · rw [update_of_ne hj]

theorem uvmclear_runs (hi : i < n) (hlow : Low acc (contents t) n top)
    (h : Balanced im k (T + held t n)) :
    Runs (uvmclear t (i * pgsize)) k fun t' k' =>
      Low false (contents t') n top ∧ (∀ j, j ≠ i → contents t' j = contents t j) ∧
        mapped (contents t') (Finset.range n) = mapped (contents t) (Finset.range n) ∧
        Balanced im k' (T + held t' n) := by
  have hn := hlow.held_le h
  have hilt : i < 2 ^ 26 := by omega
  obtain ⟨e, he, hr, -⟩ := hlow.user i hi
  unfold uvmclear
  refine .bind (walk_found hilt he k) ?_
  rintro _ _ ⟨rfl, rfl⟩
  simp only [Bool.not_true, Bool.false_eq_true, if_false, pte_mul hilt, he, Option.map_some]
  have hcont := contents_setPte hilt (reaches_of_contents he) (some e.clearU)
  have hmapped : ∀ s, mapped (contents (setPte t (i * pgsize) (some e.clearU))) s =
      mapped (contents t) s := by
    intro s
    rw [hcont, mapped_update_same he (show e.clearU.page = e.page from rfl)]
  refine .pure ⟨⟨fun j hj => ?_, fun j hj => ?_⟩, fun j hj => ?_, hmapped _, ?_⟩
  · rw [hcont, update_apply]
    split
    · exact ⟨_, rfl, hr, nofun⟩
    · obtain ⟨e', he', hr', -⟩ := hlow.user j hj
      exact ⟨e', he', hr', nofun⟩
  · rw [hcont, update_of_ne (by omega)]
    exact hlow.above j hj
  · rw [hcont, update_of_ne hj]
  · refine h.congr ?_
    rw [held, held, dirs_setPte, hmapped]

theorem segment_end (hmem : ¬ph.memsz < ph.filesz) (hwrap : ¬ph.vaddr + ph.memsz < ph.vaddr) :
    ph.vaddr.toNat + ph.filesz.toNat ≤ (ph.vaddr + ph.memsz).toNat := by
  rw [UInt64.lt_iff_toNat_lt] at hmem hwrap
  rw [UInt64.toNat_add] at hwrap ⊢
  have := ph.vaddr.toNat_lt
  have := ph.memsz.toNat_lt
  omega

theorem segment_end_le {sz sz' : ℕ} (hmem : ¬ph.memsz < ph.filesz)
    (hwrap : ¬ph.vaddr + ph.memsz < ph.vaddr) (hsz : sz' = max sz (ph.vaddr + ph.memsz).toNat) :
    ph.vaddr.toNat + ph.filesz.toNat ≤ npages sz' * pgsize := by
  refine (segment_end hmem hwrap).trans (le_trans ?_ (le_of_npages_le le_rfl))
  rw [hsz]
  exact le_max_right _ _

/-- At every exit of the loop, the pages taken are those of the new table. -/
theorem execLoop_runs (file : ExecFile) (hroof : Roof top) (p off : ℕ) (t : Table) (sz : ℕ)
    {k : Kmem} (hlow : Low true (contents t) (npages sz) top)
    (h : Balanced im k (T + held t (npages sz))) :
    Runs (execLoop im file p off t sz) k fun r k' =>
      Low true (contents r.1) (npages r.2.1) top ∧
        Balanced im k' (T + held r.1 (npages r.2.1)) := by
  induction p generalizing off t sz k with
  | zero => exact .pure ⟨hlow, h⟩
  | succ p ih =>
    rw [execLoop]
    cases file.proghdr off with
    | none => exact .pure ⟨hlow, h⟩
    | some ph =>
      dsimp only
      split
      · exact ih _ t sz hlow h
      split
      · exact .pure ⟨hlow, h⟩
      split
      · exact .pure ⟨hlow, h⟩
      split
      · exact .pure ⟨hlow, h⟩
      rename_i hmem hwrap halign
      refine .bind (uvmalloc_runs (flags2perm ph.flags) hroof hlow h) ?_
      rintro ⟨t1, sz1⟩ k1 ⟨hsz, -, hlow1, hbal1⟩
      dsimp only at hsz hlow1 hbal1 ⊢
      by_cases hzero : sz1 = 0
      · rw [if_pos hzero] at hlow1 hbal1 ⊢
        exact .pure ⟨hlow1, hbal1⟩
      · rw [if_neg hzero] at hlow1 hbal1 ⊢
        have hend := segment_end_le hmem hwrap (hsz.resolve_left hzero)
        refine .bind (loadseg_runs hlow1 (hlow1.held_le hbal1) (not_not.1 halign) hend file
          ph.off.toNat k1) ?_
        rintro ok k2 rfl
        cases ok with
        | false => exact .pure ⟨hlow1, hbal1⟩
        | true => exact ih _ t1 sz1 hlow1 hbal1

theorem Low.weaken (hlow : Low acc c n top) : Low false c n top where
  user i hi := by
    obtain ⟨e, he, hr, -⟩ := hlow.user i hi
    exact ⟨e, he, hr, nofun⟩
  above := hlow.above

/-- On every path the image that is left owns its pages, and no others are missing. -/
theorem exec_runs (hold : Low false (contents old) (npages oldsz) (fixedTop im tf))
    (h : Balanced im k (T + held old (npages oldsz))) (file : Option ExecFile) (argv : List ℕ) :
    Runs (exec im tf old oldsz file argv) k fun r k' =>
      Low false (contents (r.getD (old, oldsz)).1) (npages (r.getD (old, oldsz)).2)
          (fixedTop im tf) ∧
        Balanced im k' (T + held (r.getD (old, oldsz)).1 (npages (r.getD (old, oldsz)).2)) := by
  have hroof : Roof (fixedTop im tf) := roof_fixedTop
  -- every `goto bad` after the new table exists
  have hbad : ∀ {acc : Bool} (t : Table) (sz : ℕ) (k : Kmem),
      Low acc (contents t) (npages sz) (fixedTop im tf) →
      Balanced im k (T + held old (npages oldsz) + held t (npages sz)) →
      Runs (do
        procFreepagetable im t sz
        return none : Mem (Option (Table × ℕ))) k fun r k' =>
          Low false (contents (r.getD (old, oldsz)).1) (npages (r.getD (old, oldsz)).2)
              (fixedTop im tf) ∧
            Balanced im k' (T + held (r.getD (old, oldsz)).1
              (npages (r.getD (old, oldsz)).2)) := by
    intro acc t sz k hlow hbal
    exact .bind (procFreepagetable_runs hlow hbal) fun _ k' hk' => .pure ⟨hold, hk'⟩
  unfold exec
  cases file with
  | none => exact .pure ⟨hold, h⟩
  | some file =>
    dsimp only
    cases file.elf with
    | none => exact .pure ⟨hold, h⟩
    | some elf =>
      dsimp only
      split
      · exact .pure ⟨hold, h⟩
      refine .bind (procPagetable_runs tf h) ?_
      rintro r k1 ⟨hcont, hk1⟩
      cases r with
      | none => exact .pure ⟨hold, hk1⟩
      | some t0 =>
        have hlow0 : Low true (contents t0) (npages 0) (fixedTop im tf) :=
          ⟨nofun, fun i _ => by rw [hcont t0 rfl]⟩
        have hbal0 : Balanced im k1 (T + held old (npages oldsz) + held t0 (npages 0)) :=
          hk1.congr (by simp [held, mapped])
        refine .bind (execLoop_runs file hroof elf.phnum.toNat (elf.phoff.toNat % 2 ^ 32)
          t0 0 hlow0 hbal0) ?_
        rintro ⟨t1, sz, ok⟩ k2 ⟨hlow1, hbal1⟩
        dsimp only at hlow1 hbal1 ⊢
        cases ok with
        | false => exact hbad t1 sz k2 hlow1 hbal1
        | true =>
          have hn := hlow1.held_le hbal1
          have hround : pgRoundUp sz = npages sz * pgsize := pgRoundUp_eq (le_of_npages hn)
          have hnew : (npages sz * pgsize + 2 * pgsize) % 2 ^ 64 = (npages sz + 2) * pgsize := by
            simp only [pgsize]
            omega
          rw [← npages_mul (npages sz)] at hlow1 hbal1
          simp only [Bool.not_true, Bool.false_eq_true, if_false, hround, hnew]
          refine .bind (uvmalloc_runs ⟨false, true, false, false⟩ hroof hlow1 hbal1) ?_
          rintro ⟨t2, sz2⟩ k3 ⟨hsz, -, hlow2, hbal2⟩
          dsimp only at hsz hlow2 hbal2 ⊢
          by_cases hzero : sz2 = 0
          · rw [if_pos hzero] at hlow2 hbal2 ⊢
            exact hbad t2 _ k3 hlow2 hbal2
          · rw [if_neg hzero] at hlow2 hbal2 ⊢
            have hsz2 : sz2 = (npages sz + 2) * pgsize := by
              rw [hsz.resolve_left hzero]
              exact max_eq_right (Nat.mul_le_mul_right _ (by omega))
            have hguard : sz2 - 2 * pgsize = npages sz * pgsize := by
              rw [hsz2, Nat.add_mul, Nat.add_sub_cancel]
            have hin : npages sz < npages sz2 := by
              rw [hsz2, npages_mul]
              omega
            rw [hguard]
            refine .bind (uvmclear_runs hin hlow2 hbal2) ?_
            rintro t3 k4 ⟨hlow3, -, -, hbal3⟩
            refine .bind (pushStack_same t3 sz2 argv k4) ?_
            rintro ok k5 rfl
            cases ok with
            | false => exact hbad t3 sz2 _ hlow3 hbal3
            | true =>
              refine .bind (procFreepagetable_runs hold
                (hbal3.congr (add_right_comm ..))) ?_
              exact fun _ k6 hk6 => .pure ⟨hlow3, hk6⟩

theorem fetchArgs_runs (uargv : ℕ → Uarg) (p i : ℕ) {k : Kmem} {T : Page → ℕ}
    (h : Balanced im k T) :
    Runs (fetchArgs uargv p i) k fun r k' =>
      Balanced im k' (T + (r.2.1.map fun q => Pi.single q 1).sum) := by
  induction p generalizing i k T with
  | zero => exact .pure (by simpa using h)
  | succ p ih =>
    rw [fetchArgs]
    cases uargv i with
    | bad => exact .pure (by simpa using h)
    | null => exact .pure (by simpa using h)
    | string len =>
      refine .bind (kalloc_runs h) ?_
      intro r k1 hk1
      cases r with
      | none => exact .pure (by simpa using hk1)
      | some q =>
        cases len with
        | none => exact .pure (by simpa using hk1)
        | some len =>
          refine .bind (ih (i + 1) hk1) ?_
          rintro ⟨ok, pages, lens⟩ k2 hk2
          exact .pure (hk2.congr (by simp [add_assoc]))

theorem freePages_runs (pages : List Page)
    (h : Balanced im k (T + (pages.map fun q => Pi.single q 1).sum)) :
    Runs (pages.forM (kfree im)) k fun _ k' => Balanced im k' T :=
  forM_runs pages (kfree im) (fun q => Pi.single q 1) (fun _ _ {_ _} hk => kfree_runs hk) h

theorem sysExec_runs (hold : Low false (contents old) (npages oldsz) (fixedTop im tf))
    (h : Balanced im k (T + held old (npages oldsz))) (file : Option ExecFile) (uargv : ℕ → Uarg) :
    Runs (sysExec im tf old oldsz file uargv) k fun r k' =>
      Low false (contents (r.getD (old, oldsz)).1) (npages (r.getD (old, oldsz)).2)
          (fixedTop im tf) ∧
        Balanced im k' (T + held (r.getD (old, oldsz)).1 (npages (r.getD (old, oldsz)).2)) := by
  unfold sysExec
  refine .bind (fetchArgs_runs uargv maxarg 0 h) ?_
  rintro ⟨ok, pages, lens⟩ k1 hk1
  dsimp only at hk1 ⊢
  cases ok with
  | false => exact .bind (freePages_runs pages hk1) fun _ k' hk' => .pure ⟨hold, hk'⟩
  | true =>
    refine .bind (exec_runs hold (hk1.congr (add_right_comm ..)) file lens) ?_
    rintro r k2 ⟨hlow, hbal⟩
    refine .bind (freePages_runs pages (hbal.congr (add_right_comm ..))) ?_
    exact fun _ k3 hk3 => .pure ⟨hlow, hk3⟩

end Xv6MallocLab.Paging
