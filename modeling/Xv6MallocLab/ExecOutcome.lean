import Xv6MallocLab.ArgumentStack

/-!
# What exec leaves

`exec` returns -1 and everything is as it was, or it has put the new image in the place
of the old one, with the arguments on its stack.  The pages of the process and of all
others are counted by `T`.
-/

namespace Xv6MallocLab.PhysicalMemory

open ByteMemory Finset Paging

variable {im : Image} {T : Page → ℕ} {t : Table} {w w' : World} {r r' : Ram} {p : Process}
  {argv : List (List UInt8)}

variable {tf : Page} {l : Loaded} {k : Kmem} {n sz : ℕ} {acc : Bool}

theorem Loaded.Ready.sz_eq (h : l.Ready im T tf k) :
    ∃ j e, l.sz = (j + 1) * pgsize ∧ j < 2 ^ 26 ∧ 0 < j ∧ j < npages l.sz ∧
      contents l.pagetable j = some e ∧ e.perm.u = true := by
  obtain ⟨m, e, hsz, he, hu⟩ := h.stack
  have hn := h.low.held_le h.balanced
  rw [hsz, npages_mul] at hn
  refine ⟨m + 1, e, hsz, by omega, by omega, ?_, he, hu⟩
  rw [hsz, npages_mul]
  omega

theorem OnlyBelow.keeps {q : Page} (h : OnlyBelow (q * pgsize) pgsize r.phys r'.phys) (hq : T q = 0) :
    r.Keeps T r' := by
  intro a ha
  refine h a ?_
  by_contra hin
  have hpage : a / pgsize = q := Nat.div_eq_of_lt_le (by omega) (by rw [add_mul]; omega)
  rw [hpage, hq] at ha
  exact lt_irrefl 0 ha

theorem mapped_below_unused {X : Page → ℕ} {j : ℕ} {e : Pte} (h : Balanced im k (X + held t n))
    (hj : j < n) (he : contents t j = some e) : mapped (contents t) (range j) e.page = 0 := by
  have hone := h.le_one e.page
  have hle : mapped (contents t) (range (j + 1)) e.page ≤
      mapped (contents t) (range n) e.page := mapped_mono _ hj e.page
  have hsucc : mapped (contents t) (range (j + 1)) =
      mapped (contents t) (range j) + target (contents t j) := sum_range_succ _ j
  rw [hsucc, he, target_some, Pi.add_apply, Pi.single_eq_same] at hle
  simp only [held, Pi.add_apply] at hone
  omega

theorem Loaded.Ready.pushStack (h : l.Ready im T tf w.ram.kmem) (hcount : argv.length < maxarg)
    (hlen : ∀ s ∈ argv, s.length < pgsize) :
    Runs (onRam (pushStack l.pagetable l.sz argv)) w fun x w' =>
      l.Ready im T tf w'.ram.kmem ∧ w.Steady T w' ∧
        (∀ va < l.sz - pgsize,
          userByte l.pagetable w'.ram.phys va = userByte l.pagetable w.ram.phys va) ∧
        (pgsize < argBytes argv → x = none) ∧
        (argBytes argv ≤ pgsize → x = some (argv.length, l.sz - argBytes argv) ∧
          Arguments l.pagetable w'.ram.phys l.sz argv (l.sz - argBytes argv) (pointers argv l.sz)) := by
  obtain ⟨j, e, hsz, hj, hpos, hin, he, hu⟩ := h.sz_eq
  have hunused := user_page_unused h.balanced (mapped_le_held l.pagetable _) hin he
  rw [hsz]
  refine (onRam_runs (pushStack_runs hj hpos he hu hcount hlen w.ram)).mono ?_
  rintro x w' ⟨hstack, hduties⟩
  refine ⟨hstack.kmem ▸ h, ⟨hstack.below.keeps hunused, hduties⟩, fun va hva => ?_, hstack.full,
    fun hfits => ⟨(hstack.fits hfits).1, hstack.arguments hj he hu hfits⟩⟩
  have hbelow := hstack.below.keeps (mapped_below_unused h.balanced hin he)
  have hva' : va / pgsize < j := by
    rw [add_mul, one_mul, Nat.add_sub_cancel] at hva
    exact Nat.div_lt_of_lt_mul (by rwa [mul_comm])
  exact userByte_keeps (T := 0) hva' rfl (by rwa [zero_add])

theorem procFreepagetable_keeps (hlow : Low acc (contents t) (npages sz) (fixedTop im tf))
    (h : Balanced im w.ram.kmem (T + held t (npages sz))) :
    Runs (onRam (onPages (procFreepagetable im t sz))) w fun _ w' =>
      Balanced im w'.ram.kmem T ∧ w.Steady T w' := by
  refine (onRam_runs (onPages_runs (K := T) h (.of_le (le_add_of_nonneg_right zero_le))
    (procFreepagetable_runs hlow h) fun _ k hk => ⟨_, hk, .of_le le_rfl⟩)).mono ?_
  rintro _ w' ⟨⟨hbal, hkeep⟩, hduties⟩
  exact ⟨hbal, hkeep, hduties⟩

theorem bad_runs {b : Bad} {d : Duties} (hmatches : b.Matches im T p.mem.trapframe w.ram.kmem)
    (hduties : w.duties = if b.ip then d.opened else d) :
    Runs (bad im p b) w fun x w' =>
      x = (p, -1) ∧ Balanced im w'.ram.kmem T ∧ w.ram.Keeps T w'.ram ∧ w'.duties = d := by
  have hrest : ∀ w1 : World, Balanced im w1.ram.kmem T → w.Steady T w1 →
      Runs (do
        if b.ip then do
          iunlockput
          endOp
        return (p, -1) : ExecM (Process × ℤ)) w1 fun x w' =>
          x = (p, -1) ∧ Balanced im w'.ram.kmem T ∧ w.ram.Keeps T w'.ram ∧ w'.duties = d := by
    intro w1 hbal hsteady
    have hduties1 := hsteady.duties.trans hduties
    cases hip : b.ip with
    | false =>
      rw [hip] at hduties1
      exact .pure ⟨rfl, hbal, hsteady.keeps, hduties1⟩
    | true =>
      rw [hip] at hduties1
      refine runs_modify_bind (runs_modify_bind (.pure ⟨rfl, hbal, hsteady.keeps, ?_⟩))
      change Duties.mk _ _ _ = d
      rw [hduties1]
      rfl
  unfold bad
  rw [Bad.Matches] at hmatches
  cases hb : b.pagetable with
  | none =>
    rw [hb] at hmatches
    exact hrest w hmatches (.refl T w)
  | some t =>
    rw [hb] at hmatches
    refine .bind (procFreepagetable_keeps hmatches.1 hmatches.2) ?_
    rintro _ w1 ⟨hbal, hsteady⟩
    exact hrest w1 hbal hsteady

/-- What `build` comes to: `bad` with a table that its size describes, or the new image
with the arguments on its stack. -/
def Built (im : Image) (T : Page → ℕ) (tf : Page) (argv : List (List UInt8)) (w : World)
    (x : Except Bad (Loaded × ℕ × ℕ)) (w' : World) : Prop :=
  w.ram.Keeps T w'.ram ∧
    match x with
    | .error b => w'.duties = (if b.ip then w.duties.opened else w.duties) ∧
        b.Matches im T tf w'.ram.kmem
    | .ok (l, argc, sp) => w'.duties = w.duties ∧ l.Ready im T tf w'.ram.kmem ∧
        argc = argv.length ∧ Arguments l.pagetable w'.ram.phys l.sz argv sp (pointers argv l.sz)

theorem build_runs (ip : Option File) (hcount : argv.length < maxarg)
    (hlen : ∀ s ∈ argv, s.length < pgsize) (h : Balanced im w.ram.kmem T) :
    Runs (build im p ip argv) w (Built im T p.mem.trapframe argv w) := by
  unfold build
  refine .bind (image_runs p ip h) ?_
  rintro x w1 ⟨hkeep1, hx⟩
  cases x with
  | error b => exact .pure ⟨hkeep1, hx⟩
  | ok l =>
    obtain ⟨hduties1, hready⟩ := hx
    refine .bind (hready.pushStack hcount hlen) ?_
    rintro y w2 ⟨hready2, hsteady, -, hfull, hfits⟩
    have hkeep2 := hkeep1.trans hsteady.keeps
    have hduties2 := hsteady.duties.trans hduties1
    by_cases hargs : argBytes argv ≤ pgsize
    · obtain ⟨rfl, harguments⟩ := hfits hargs
      exact .pure ⟨hkeep2, hduties2, hready2, rfl, harguments⟩
    · obtain rfl := hfull (not_le.1 hargs)
      exact .pure ⟨hkeep2, hduties2, hready2.low, hready2.balanced⟩

theorem isSome_iff_of_low (hlow : Low acc (contents t) n (fixedTop im tf)) (i : ℕ) :
    (contents t i).isSome ↔ i < n ∨ i = trapframePage ∨ i = trampolinePage := by
  rcases Nat.lt_or_ge i n with hi | hi
  · obtain ⟨e, he, -⟩ := hlow.user i hi
    exact iff_of_true (by rw [he]; rfl) (.inl hi)
  · rw [hlow.above i hi]
    simp only [fixedTop, Function.update_apply]
    split_ifs <;> simp_all

theorem process_pages (p : Proc) (T : Page → ℕ) :
    T + p.pages = T + Pi.single p.trapframe 1 + held p.pagetable (npages p.sz) := by
  rw [Proc.pages]
  abel

theorem commit_runs (hfit : p.mem.Fit im)
    (h : l.Ready im (T + p.mem.pages) p.mem.trapframe w.ram.kmem) (path : List UInt8)
    (argc sp : ℕ) :
    Runs (commit im p l path argc sp) w fun x w' =>
      x.2 = argc ∧ x.1.mem.pagetable = l.pagetable ∧ x.1.mem.sz = l.sz ∧
        x.1.trapframe = ⟨l.entry, sp, sp⟩ ∧
        ∀ va < l.sz, userByte l.pagetable w'.ram.phys va = userByte l.pagetable w.ram.phys va := by
  have hbal := h.balanced
  rw [process_pages] at hbal
  refine .bind (procFreepagetable_keeps hfit (hbal.congr (add_right_comm ..))) ?_
  rintro _ w' ⟨-, hsteady⟩
  refine .pure ⟨rfl, rfl, rfl, rfl, fun va hva => ?_⟩
  exact userByte_keeps (div_lt_npages hva) rfl
    (hsteady.keeps.mono (add_le_add le_rfl (mapped_le_held _ _)))

/-- Wherever a `kalloc` or a `readi` fails: `exec` returns, and if it returns -1 then
the process and its memory are as they were, no lock, reference or transaction is left,
and the free list has the pages it had. -/
theorem exec_all_or_nothing (ip : Option File) (path : List UInt8) (hcount : argv.length < maxarg)
    (hlen : ∀ s ∈ argv, s.length < pgsize) (hfit : p.mem.Fit im)
    (h : Balanced im w.ram.kmem (T + p.mem.pages)) :
    (∀ b w1, build im p ip argv w = .ok (.error b, w1) → ∀ t, b.pagetable = some t →
      ∀ i, (contents t i).isSome ↔ i < npages b.sz ∨ i = trapframePage ∨ i = trampolinePage) ∧
    Runs (exec im p ip path argv) w fun x w' => x.2 = -1 →
      x.1 = p ∧
      (∀ va < npages p.mem.sz * pgsize, userByte p.mem.pagetable w'.ram.phys va =
        userByte p.mem.pagetable w.ram.phys va) ∧
      (∀ o < pgsize, w'.ram.phys (p.mem.trapframe * pgsize + o) =
        w.ram.phys (p.mem.trapframe * pgsize + o)) ∧
      w'.duties = w.duties ∧
      w'.ram.kmem.freelist.Perm w.ram.kmem.freelist ∧ w'.ram.kmem.freelist.Nodup := by
  have hbuild := build_runs (p := p) ip hcount hlen h
  constructor
  · intro b w1 hb t ht i
    obtain ⟨-, -, hmatches⟩ := hbuild.of_eq hb
    rw [Bad.Matches, ht] at hmatches
    exact isSome_iff_of_low hmatches.1 i
  · unfold exec
    refine .bind hbuild ?_
    rintro x w1 ⟨hkeep1, hx⟩
    cases x with
    | error b =>
      obtain ⟨hduties, hmatches⟩ := hx
      refine (bad_runs hmatches hduties).mono ?_
      rintro y w' ⟨rfl, hbal, hkeep, hduties'⟩ -
      have hkeep' := hkeep1.trans hkeep
      refine ⟨rfl, fun va hva => ?_, fun o ho => ?_, hduties', h.perm hbal, ?_⟩
      · have hva' : va / pgsize < npages p.mem.sz := Nat.div_lt_of_lt_mul (by rwa [mul_comm])
        refine userByte_keeps (T := T) hva' rfl (hkeep'.mono (add_le_add le_rfl ?_))
        exact (mapped_le_held _ _).trans (le_add_of_nonneg_right zero_le)
      · refine hkeep' _ ?_
        rw [page_of_address _ ho]
        simp [Proc.pages]
      · rw [List.nodup_iff_count_le_one]
        intro q
        have := hbal q
        split at this <;> omega
    | ok l =>
      obtain ⟨l, argc, sp⟩ := l
      obtain ⟨-, hready, -, -⟩ := hx
      refine (commit_runs hfit hready path argc sp).mono ?_
      rintro y w' ⟨hret, -⟩ hfail
      rw [hret] at hfail
      exact absurd hfail (by omega)

open ProcTable (initproc)

def plainProcess (mem : Proc) : Process := ⟨mem, ⟨0, 0, 0⟩, [], 1, fun _ => none⟩

def plainWorld (r : Ram) : World := ⟨r, ⟨0, 0, 0⟩, fun _ => 2 ^ 32⟩

def emptyProgram : File := ⟨64, ByteMemory.store 4 (fun _ => 0) 0 0x464C457F⟩

def clearRam (k : Kmem) : Ram := ⟨k, fun _ => 0, fun _ _ => 0⟩

/-- The last page that `exec` asks for, the second one of the stack, is refused. -/
theorem exec_all_or_nothing_refused : ∃ s p w', Reached textImage s ∧ s.proc initproc = some p ∧
    exec textImage (plainProcess p) (some emptyProgram) [115, 104] [[104, 105]]
      (plainWorld (clearRam s.kmem)) = .ok ((plainProcess p, -1), w') ∧
    w'.duties = ⟨0, 0, 0⟩ ∧ w'.ram.kmem.freelist.Perm s.kmem.freelist := by
  obtain ⟨s, p, hs, hp, hcheck⟩ := reached_of_bootRun (f := fun s p =>
    (exec textImage (plainProcess p) (some emptyProgram) [115, 104] [[104, 105]]
      (plainWorld (clearRam s.kmem))).toOption.any fun x => x.1.2 = -1)
    (show ((bootRun textImage (fun i => i = 15) []).any _) = true by decide +kernel)
  obtain ⟨⟨⟨q, r⟩, w'⟩, hexec, hfail⟩ := ok_of_any hcheck
  obtain rfl : r = -1 := of_decide_eq_true hfail
  have hall := (exec_all_or_nothing (p := plainProcess p) (w := plainWorld (clearRam s.kmem))
    (some emptyProgram) [115, 104] (by decide) (by decide) (hs.sound.fit _ p hp)
    (hs.sound.balanced_rest hp)).2.of_eq hexec rfl
  obtain ⟨rfl, -, -, hduties, hfree, -⟩ := hall
  exact ⟨s, p, w', hs, hp, hexec, hduties, hfree⟩

theorem Arguments.congr {phys phys' : Memory} {sp : ℕ} {ptrs : List ℕ}
    (h : Arguments t phys sz argv sp ptrs)
    (hsame : ∀ va < sz, userByte t phys' va = userByte t phys va) :
    Arguments t phys' sz argv sp ptrs := by
  have hpieces := h.inside
  refine ⟨h.aligned, h.count, fun i hi => ?_, ?_, h.disjoint, h.inside, h.user⟩
  · rw [← h.words i hi]
    have hend := (hpieces _ List.mem_cons_self).2
    refine load_congr fun b _ hb => ?_
    dsimp only at hend
    rw [userMem, userMem, hsame b (by omega)]
  · have hstrings := h.strings
    rw [List.forall₂_iff_zip] at hstrings ⊢
    refine ⟨hstrings.1, fun {s q} hmem d hd => ?_⟩
    have hend := (hpieces _ (List.mem_cons_of_mem _ (List.mem_map_of_mem hmem))).2
    dsimp only at hend
    rw [hsame _ (by omega), hstrings.2 hmem d hd]

/-- Once the image is loaded, `exec` returns -1 if and only if the arguments take more
than a page in this layout. Otherwise they are in the last page, with `sp` and `a1` at
the pointers. -/
theorem exec_argument_stack (ip : Option File) (path : List UInt8) (hcount : argv.length < maxarg)
    (hlen : ∀ s ∈ argv, s.length < pgsize) (hfit : p.mem.Fit im)
    (h : Balanced im w.ram.kmem (T + p.mem.pages)) :
    ∃ x w1 y w', image im p ip w = .ok (x, w1) ∧ exec im p ip path argv w = .ok (y, w') ∧
      match x with
      | .error _ => y.2 = -1
      | .ok l => if argBytes argv ≤ pgsize then
            y.2 = argv.length ∧ y.1.mem.pagetable = l.pagetable ∧ y.1.mem.sz = l.sz ∧
            y.1.trapframe.a1 = y.1.trapframe.sp ∧ y.1.trapframe.sp = l.sz - argBytes argv ∧
            (∃ ptrs, Arguments l.pagetable w'.ram.phys l.sz argv y.1.trapframe.sp ptrs) ∧
            ∀ va < l.sz - pgsize,
              userByte l.pagetable w'.ram.phys va = userByte l.pagetable w1.ram.phys va
          else y.2 = -1 := by
  obtain ⟨x, w1, hx, -, hresult⟩ := image_runs p ip h
  have hbuild : build im p ip argv w = _ := bind_of_ok hx
  cases x with
  | error b =>
    obtain ⟨hduties, hmatches⟩ := hresult
    obtain ⟨y, w', hy, rfl, -⟩ := bad_runs hmatches hduties
    have hexec : exec im p ip path argv w = _ := bind_of_ok hbuild
    exact ⟨_, w1, _, w', hx, hexec.trans hy, rfl⟩
  | ok l =>
    obtain ⟨hduties, hready⟩ := hresult
    obtain ⟨z, w2, hz, hready2, -, hbelow, hfull, hfits⟩ := hready.pushStack hcount hlen
    replace hbuild := hbuild.trans (bind_of_ok hz)
    by_cases hargs : argBytes argv ≤ pgsize
    · obtain ⟨rfl, harguments⟩ := hfits hargs
      obtain ⟨y, w', hy, hret, htable, hsz, htf, hsame⟩ := commit_runs hfit hready2 path argv.length
        (l.sz - argBytes argv)
      have hexec : exec im p ip path argv w = _ := bind_of_ok hbuild
      refine ⟨_, w1, y, w', hx, hexec.trans hy, ?_⟩
      dsimp only
      rw [if_pos hargs, htf]
      refine ⟨hret, htable, hsz, rfl, rfl, ⟨_, harguments.congr hsame⟩, fun va hva => ?_⟩
      rw [hsame va (by omega), hbelow va hva]
    · obtain rfl := hfull (not_le.1 hargs)
      have hmatches : Bad.Matches im (T + p.mem.pages) p.mem.trapframe
          ⟨some l.pagetable, l.sz, false⟩ w2.ram.kmem := ⟨hready2.low, hready2.balanced⟩
      obtain ⟨y, w', hy, rfl, -⟩ := bad_runs (p := p) (d := w2.duties) hmatches rfl
      have hexec : exec im p ip path argv w = _ := bind_of_ok hbuild
      refine ⟨_, w1, _, w', hx, hexec.trans hy, ?_⟩
      dsimp only
      rw [if_neg hargs]

/-- The one argument is `hi`. -/
theorem exec_argument_stack_first : ∃ s p y w' q, Reached textImage s ∧ s.proc initproc = some p ∧
    exec textImage (plainProcess p) (some emptyProgram) [115, 104] [[104, 105]]
      (plainWorld (clearRam s.kmem)) = .ok (y, w') ∧
    y.2 = 1 ∧ y.1.trapframe.sp = 8160 ∧ y.1.trapframe.a1 = 8160 ∧
    load 8 (userMem y.1.mem.pagetable w'.ram.phys) 8160 = q ∧
    load 8 (userMem y.1.mem.pagetable w'.ram.phys) 8168 = 0 ∧
    ∀ d ≤ 2, userByte y.1.mem.pagetable w'.ram.phys (q + d) = some ([104, 105, 0].getD d 0) := by
  obtain ⟨s, p, hs, hp, hcheck⟩ := reached_of_bootRun (f := fun s p =>
    (image textImage (plainProcess p) (some emptyProgram) (plainWorld (clearRam s.kmem))).toOption.any
      fun x => x.1.toOption.any fun l => l.sz = 8192)
    (show ((bootRun textImage (fun _ => false) []).any _) = true by decide +kernel)
  obtain ⟨⟨x0, w0⟩, himage, hloaded⟩ := ok_of_any hcheck
  obtain ⟨l, rfl, hsz⟩ := ok_of_any hloaded
  have hcount : ([[104, 105]] : List (List UInt8)).length < maxarg := by decide
  obtain ⟨x, w1, y, w', hx, hy, hresult⟩ := exec_argument_stack (p := plainProcess p)
    (w := plainWorld (clearRam s.kmem)) (some emptyProgram) [115, 104] hcount (by decide)
    (hs.sound.fit _ p hp) (hs.sound.balanced_rest hp)
  rw [himage] at hx
  cases hx
  dsimp only at hresult
  rw [if_pos (by decide)] at hresult
  obtain ⟨hret, htable, -, ha1, hsp, ⟨ptrs, hargs⟩, -⟩ := hresult
  have hsp' : y.1.trapframe.sp = 8160 := by
    rw [hsp, of_decide_eq_true hsz]
    decide
  obtain ⟨q, rfl⟩ := List.length_eq_one_iff.1 hargs.count
  have hwords := hargs.words
  rw [hsp', ← htable] at hwords
  have hstring := (List.forall₂_cons.1 hargs.strings).1
  rw [← htable] at hstring
  refine ⟨s, p, y, w', q, hs, hp, hy, hret, hsp', ha1.trans hsp', hwords 0 (by decide),
    hwords 1 (by decide), fun d hd => (hstring d hd).trans ?_⟩
  interval_cases d <;> rfl

end Xv6MallocLab.PhysicalMemory
