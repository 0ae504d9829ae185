import Xv6MallocLab.UserStores

/-!
# The bytes of the physical pages

The functions of vm.c and proc.c that store to user pages, over the page tables of
`Paging` and a memory of bytes.  What `kalloc` and `kfree` fill a page with is never
read as data, so it is left open.
-/

namespace Xv6MallocLab.PhysicalMemory

open ByteMemory Finset Function Paging

/-- The memory.  The stream `junk` has the bytes the allocator's fills leave. -/
structure Ram where
  kmem : Kmem
  phys : Memory
  junk : ℕ → Memory

abbrev RamM (α : Type) := Fallible Ram Panic α

def Ram.settle (r : Ram) (k : Kmem) : Ram where
  kmem := k
  phys a :=
    if a / pgsize ∈ r.kmem.freelist ∨ a / pgsize ∈ k.freelist then r.junk 0 a else r.phys a
  junk i := r.junk (i + 1)

/-- A function that touches the bytes of no page in use. -/
def onPages {α : Type} (m : Mem α) : RamM α := Fallible.zoom Ram.kmem Ram.settle m

def store (f : Memory → Memory) : RamM Unit := modify fun r => { r with phys := f r.phys }

def memset (phys : Memory) (dst : ℕ) (c : UInt8) (n : ℕ) : Memory := memmove phys dst (fun _ => c) n

section Source

variable (im : Image)

def allocLoop (oldsz : ℕ) (perm : Perm) : ℕ → ℕ → Table → RamM (Table × Bool)
  | 0, _, t => return (t, true)
  | n + 1, a, t => do
      match ← onPages kalloc with
      | none => do
          let (t, _) ← onPages (uvmdealloc im t a oldsz)
          return (t, false)
      | some mem => do
          store fun phys => memset phys (mem * pgsize) 0 pgsize
          let (t, ok) ← onPages (mappages t a pgsize mem perm)
          if ok then allocLoop oldsz perm n (a + pgsize) t
          else do
            onPages (kfree im mem)
            let (t, _) ← onPages (uvmdealloc im t a oldsz)
            return (t, false)

/-- `uvmalloc`, which zeroes the pages it maps. -/
def uvmalloc (t : Table) (oldsz newsz : ℕ) (xperm : Perm) : RamM (Table × ℕ) :=
  if newsz < oldsz then return (t, oldsz)
  else do
    let oldsz := pgRoundUp oldsz
    let (t, ok) ← allocLoop im oldsz { xperm with r := true, u := true }
      ((newsz - oldsz + pgsize - 1) / pgsize) oldsz t
    return (t, if ok then newsz else 0)

/-- `growproc`, with the bytes of memory. -/
def growproc (p : Proc) (n : Int32) : RamM (Proc × Bool) := do
  let newsz := (((p.sz : ℤ) + n.toInt) % 2 ^ 64).toNat
  if 0 < n.toInt then
    let (t, sz) ← uvmalloc im p.pagetable p.sz newsz ⟨false, true, false, false⟩
    if sz = 0 then return ({ p with pagetable := t }, false)
    else return ({ p with pagetable := t, sz := sz }, true)
  else if n.toInt < 0 then
    let (t, sz) ← onPages (uvmdealloc im p.pagetable p.sz newsz)
    return ({ p with pagetable := t, sz := sz }, true)
  else return (p, true)

/-- `sys_sbrk`: the old size, or -1. -/
def sysSbrk (p : Proc) (n : Int32) : RamM (Proc × ℤ) := do
  let addr := p.sz
  let (p, ok) ← growproc im p n
  if ok then return (p, addr) else return (p, -1)

end Source

/-! ## The page tables alone

Without the bytes, every function does to the allocator and to the tables what the
function of that name in `Paging` does. -/

section Projection

variable {α β γ δ : Type} {im : Image}

theorem projects_onPages (m : Mem α) : Projects Ram.kmem id (onPages m) m := .zoom (fun _ _ => rfl) m

theorem onPages_ok {m : Mem α} {a : α} {r r' : Ram} (h : onPages m r = .ok (a, r')) :
    m r.kmem = .ok (a, r'.kmem) := by
  simp only [onPages, Fallible.zoom] at h
  split at h
  · cases h
    assumption
  · cases h

theorem projects_store {f : α → β} {g : Memory → Memory} {k : Unit → RamM α} {m' : Mem β}
    (hk : Projects Ram.kmem f (k ()) m') : Projects Ram.kmem f (PhysicalMemory.store g >>= k) m' :=
  fun r => hk { r with phys := g r.phys }

theorem allocLoop_projects (oldsz : ℕ) (perm : Perm) (n a : ℕ) (t : Table) :
    Projects Ram.kmem id (allocLoop im oldsz perm n a t) (Paging.allocLoop im oldsz perm n a t) := by
  induction n generalizing a t with
  | zero => exact .pure _ _
  | succ n ih =>
    unfold allocLoop Paging.allocLoop
    refine .bind (projects_onPages _) fun o => ?_
    cases o with
    | none => exact .bind (projects_onPages _) fun x => .pure _ _
    | some mem =>
      refine projects_store (.bind (projects_onPages _) ?_)
      rintro ⟨t', ok⟩
      cases ok with
      | true => exact ih _ _
      | false =>
        exact .bind (projects_onPages _) fun _ => .bind (projects_onPages _) fun x => .pure _ _

theorem uvmalloc_projects (t : Table) (oldsz newsz : ℕ) (xperm : Perm) :
    Projects Ram.kmem id (uvmalloc im t oldsz newsz xperm) (Paging.uvmalloc im t oldsz newsz xperm) := by
  unfold uvmalloc Paging.uvmalloc
  split
  · exact .pure _ _
  · exact .bind (allocLoop_projects _ _ _ _ _) fun x => .pure _ _

/-- Without the bytes, `growproc` is what `Paging` has for it. -/
theorem growproc_projects (p : Proc) (n : Int32) :
    Projects Ram.kmem id (growproc im p n) (Paging.growproc im p n) := by
  unfold growproc Paging.growproc
  dsimp only
  split
  · refine .bind (uvmalloc_projects _ _ _ _) ?_
    rintro ⟨t, sz⟩
    dsimp only [id]
    split
    · exact .pure _ _
    · exact .pure _ _
  · split
    · exact .bind (projects_onPages _) fun x => .pure _ _
    · exact .pure _ _

end Projection

variable {im : Image} {α : Type} {r r' r'' : Ram} {K T : Page → ℕ} {t : Table} {n m : ℕ}
  {top : ℕ → Option Pte} {acc : Bool}

def Ram.Keeps (K : Page → ℕ) (r r' : Ram) : Prop := ∀ a, 0 < K (a / pgsize) → r'.phys a = r.phys a

theorem Ram.Keeps.refl (K : Page → ℕ) (r : Ram) : r.Keeps K r := fun _ _ => rfl

theorem Ram.Keeps.trans (h : r.Keeps K r') (h' : r'.Keeps K r'') : r.Keeps K r'' :=
  fun a ha => (h' a ha).trans (h a ha)

variable {K' : Page → ℕ} {q : Page} {oldsz i va : ℕ} {t' : Table} {perm : Perm}

theorem Ram.Keeps.mono (h : r.Keeps K r') (hK : K' ≤ K) : r.Keeps K' r' :=
  fun a ha => h a (lt_of_lt_of_le ha (hK _))

def Within (im : Image) (K T : Page → ℕ) : Prop := ∀ q, im.managed q → 0 < K q → 0 < T q

theorem Within.of_le (h : K ≤ T) : Within im K T := fun q _ hq => lt_of_lt_of_le hq (h q)

theorem Within.add {T' : Page → ℕ} (h : Within im K T) (h' : K' ≤ T') :
    Within im (K + K') (T + T') := by
  intro q hq hpos
  have hle : K' q ≤ T' q := h' q
  have hK := h q hq
  simp only [Pi.add_apply] at hpos ⊢
  omega

theorem Within.mono_right (h : Within im K T) (X : Page → ℕ) : Within im K (T + X) :=
  fun q hq hpos => lt_of_lt_of_le (h q hq hpos) (Nat.le_add_right _ _)

theorem not_free {k : Kmem} (h : Balanced im k T) (hK : Within im K T) (hq : 0 < K q) :
    q ∉ k.freelist := by
  intro hmem
  have hbal := h q
  have hpos := List.count_pos_iff.2 hmem
  split at hbal
  · have := hK q ‹_› hq
    omega
  · omega

theorem onPages_runs {mem : Mem α} {Q : α → Kmem → Prop} (h : Balanced im r.kmem T)
    (hK : Within im K T) (hm : Runs mem r.kmem Q)
    (hQ : ∀ a k, Q a k → ∃ T', Balanced im k T' ∧ Within im K T') :
    Runs (onPages mem) r fun a r' => Q a r'.kmem ∧ r.Keeps K r' := by
  refine Runs.zoom hm fun a k hk => ⟨hk, fun x hx => ?_⟩
  obtain ⟨T', hbal, hK'⟩ := hQ a k hk
  exact if_neg (not_or.2 ⟨not_free h hK hx, not_free hbal hK' hx⟩)

theorem Ram.Keeps.memmove (hq : K q = 0) {o len : ℕ} (hlen : o + len ≤ pgsize) (src : Memory) :
    r.Keeps K { r with phys := memmove r.phys (q * pgsize + o) src len } := by
  intro a ha
  refine if_neg ?_
  rintro ⟨hlo, hhi⟩
  have hpage : a / pgsize = q := by
    obtain ⟨d, rfl⟩ := Nat.exists_eq_add_of_le ((Nat.le_add_right _ o).trans hlo)
    exact page_of_address q (by omega)
  rw [hpage, hq] at ha
  exact lt_irrefl 0 ha

theorem Ram.Keeps.fill (hq : K q = 0) (src : Memory) :
    r.Keeps K { r with phys := Paging.memmove r.phys (q * pgsize) src pgsize } := by
  simpa only [add_zero] using Ram.Keeps.memmove (r := r) hq (zero_add pgsize).le src

def Zeroed (c : ℕ → Option Pte) (phys : Memory) (j : ℕ) : Prop :=
  ∃ e, c j = some e ∧ ∀ o < pgsize, phys (e.page * pgsize + o) = 0

theorem Zeroed.keeps {c c' : ℕ → Option Pte} {j : ℕ} {e : Pte} (he : c j = some e)
    (hzero : Zeroed c r.phys j) (hsame : c' j = c j) (hK : 0 < K e.page) (hkeep : r.Keeps K r') :
    Zeroed c' r'.phys j := by
  obtain ⟨e', he', hbytes⟩ := hzero
  rw [he] at he'
  cases he'
  refine ⟨e, hsame.trans he, fun o ho => ?_⟩
  rw [hkeep _ (by rwa [page_of_address _ ho])]
  exact hbytes o ho

theorem mapped_mono (c : ℕ → Option Pte) (h : m ≤ n) : mapped c (range m) ≤ mapped c (range n) :=
  sum_le_sum_of_subset (range_mono h)

theorem mapped_le_held (t : Table) (n : ℕ) : mapped (contents t) (range n) ≤ held t n :=
  le_add_of_nonneg_left zero_le

theorem uvmdealloc_keeps (newsz : ℕ) (hroof : Roof top)
    (hlow : Low acc (contents t) (npages oldsz) top)
    (h : Balanced im r.kmem (T + held t (npages oldsz))) :
    Runs (onPages (uvmdealloc im t oldsz newsz)) r fun x r' =>
      (x.2 = min oldsz newsz ∧ Low acc (contents x.1) (npages x.2) top ∧
        (∀ i < npages x.2, contents x.1 i = contents t i) ∧
        Balanced im r'.kmem (T + held x.1 (npages x.2))) ∧
      r.Keeps (T + mapped (contents t) (range (npages (min oldsz newsz)))) r' := by
  refine onPages_runs h ?_ (uvmdealloc_runs newsz hroof hlow h) ?_
  · exact .of_le (add_le_add le_rfl
      ((mapped_mono _ (npages_mono (min_le_left _ _))).trans (mapped_le_held t _)))
  · rintro ⟨t', sz⟩ k ⟨hsz, -, hsame, hbal⟩
    dsimp only at hsz hsame hbal
    refine ⟨_, hbal, .of_le (add_le_add le_rfl ?_)⟩
    rw [← hsz, ← mapped_congr fun j hj => hsame j (mem_range.1 hj)]
    exact mapped_le_held t' _

theorem dealloc_runs (hroof : Roof top) (hmi : m ≤ i) (hlow : Low acc (contents t) i top)
    (hcont : contents t' = contents t) (h : Balanced im r.kmem (T + held t' i)) :
    Runs (do
      let (t, _) ← onPages (uvmdealloc im t' (i * pgsize) (m * pgsize))
      return (t, false) : RamM (Table × Bool)) r fun x r' =>
        x.2 = false ∧ Low acc (contents x.1) m top ∧ (∀ j < m, contents x.1 j = contents t j) ∧
          Balanced im r'.kmem (T + held x.1 m) ∧
          r.Keeps (T + mapped (contents t) (range m)) r' := by
  have hlow' : Low acc (contents t') (npages (i * pgsize)) top := by rwa [npages_mul, hcont]
  have hbal : Balanced im r.kmem (T + held t' (npages (i * pgsize))) := by rwa [npages_mul]
  have hmin : min (i * pgsize) (m * pgsize) = m * pgsize :=
    min_eq_right (Nat.mul_le_mul_right _ hmi)
  refine .bind (uvmdealloc_keeps (m * pgsize) hroof hlow' hbal) ?_
  rintro ⟨t'', sz⟩ r' ⟨⟨hsz, hlow'', hsame, hbal'⟩, hkeep⟩
  rw [hmin] at hsz hkeep
  dsimp only at hsz hlow'' hsame hbal'
  rw [hsz, npages_mul] at hlow'' hsame hbal'
  rw [npages_mul, hcont] at hkeep
  exact .pure ⟨rfl, hlow'', fun j hj => by rw [hsame j hj, hcont], hbal', hkeep⟩

/-- What the loop of `uvmalloc` comes to, from `i` pages on: `n` pages of zeros more, or
the `m` pages there were. -/
structure Grows (im : Image) (T : Page → ℕ) (acc : Bool) (top : ℕ → Option Pte) (m i n : ℕ)
    (t : Table) (r : Ram) (x : Table × Bool) (r' : Ram) : Prop where
  low : Low acc (contents x.1) (if x.2 then i + n else m) top
  same : ∀ j < if x.2 then i else m, contents x.1 j = contents t j
  balanced : Balanced im r'.kmem (T + held x.1 (if x.2 then i + n else m))
  keeps : r.Keeps (T + mapped (contents t) (range (if x.2 then i else m))) r'
  zeroed : x.2 = true → ∀ j, i ≤ j → j < i + n → Zeroed (contents x.1) r'.phys j

theorem clear_runs {mem : Page} (hr : perm.Fits acc) (hroof : Roof top)
    (hlow : Low acc (contents t) n top) (h : Balanced im r.kmem (T + held t n + Pi.single mem 1)) :
    Runs (do
      store fun phys => memset phys (mem * pgsize) 0 pgsize
      onPages (mappages t (n * pgsize) pgsize mem perm) : RamM (Table × Bool)) r fun x r' =>
        (if x.2 then
          Low acc (contents x.1) (n + 1) top ∧
            contents x.1 = update (contents t) n (some ⟨mem, perm⟩) ∧
            Balanced im r'.kmem (T + held x.1 (n + 1)) ∧ Zeroed (contents x.1) r'.phys n
        else
          contents x.1 = contents t ∧ Balanced im r'.kmem (T + held x.1 n + Pi.single mem 1)) ∧
        r.Keeps (T + mapped (contents t) (range n)) r' := by
  have hmem : (T + mapped (contents t) (range n)) mem = 0 := by
    have hone := h.le_one mem
    simp only [held, Pi.add_apply, Pi.single_eq_same] at hone ⊢
    omega
  have hstore := Ram.Keeps.fill (r := r) hmem fun _ => 0
  refine runs_modify_bind (.mono (onPages_runs (K := T + mapped (contents t) (range n) +
    Pi.single mem 1) h ?_ (grow_runs hr hroof hlow h) ?_) ?_)
  · exact .of_le (add_le_add (add_le_add le_rfl (mapped_le_held t n)) le_rfl)
  · rintro ⟨t', ok⟩ k hstep
    cases ok with
    | false =>
      obtain ⟨hcont, hbal⟩ := hstep
      refine ⟨_, hbal, .of_le (add_le_add (add_le_add le_rfl ?_) le_rfl)⟩
      rw [← hcont]
      exact mapped_le_held t' n
    | true =>
      obtain ⟨-, hcont, hbal⟩ := hstep
      refine ⟨_, hbal, .of_le ?_⟩
      rw [add_assoc, ← mapped_range_succ (contents t) n ⟨mem, perm⟩, ← hcont]
      exact add_le_add le_rfl (mapped_le_held t' (n + 1))
  · rintro ⟨t', ok⟩ r' ⟨hstep, hkeep⟩
    refine ⟨?_, hstore.trans (hkeep.mono (le_add_of_nonneg_right zero_le))⟩
    cases ok with
    | false => exact hstep
    | true =>
      obtain ⟨hlow', hcont, hbal⟩ := hstep
      refine ⟨hlow', hcont, hbal, ⟨mem, perm⟩, by rw [hcont, update_self], fun o ho => ?_⟩
      rw [hkeep _ (by simp [page_of_address _ ho])]
      exact if_pos ⟨Nat.le_add_right _ _, Nat.add_lt_add_left ho _⟩

theorem allocLoop_runs (hr : perm.Fits acc) (hroof : Roof top) (n : ℕ) (t : Table) {r : Ram}
    (hmi : m ≤ i) (hlow : Low acc (contents t) i top) (h : Balanced im r.kmem (T + held t i)) :
    Runs (allocLoop im (m * pgsize) perm n (i * pgsize) t) r (Grows im T acc top m i n t r) := by
  induction n generalizing i t r with
  | zero =>
    exact .pure ⟨hlow, fun _ _ => rfl, h, Ram.Keeps.refl _ r, fun _ j h1 h2 => by omega⟩
  | succ n ih =>
    have hle : T + mapped (contents t) (range i) ≤ T + held t i :=
      add_le_add le_rfl (mapped_le_held t i)
    have hcut : T + mapped (contents t) (range m) ≤ T + mapped (contents t) (range i) :=
      add_le_add le_rfl (mapped_mono _ hmi)
    -- what the two failure exits have in common
    have hback : ∀ (t' : Table) (r1 : Ram), contents t' = contents t →
        Balanced im r1.kmem (T + held t' i) →
        r.Keeps (T + mapped (contents t) (range m)) r1 →
        Runs (do
          let (t, _) ← onPages (uvmdealloc im t' (i * pgsize) (m * pgsize))
          return (t, false) : RamM (Table × Bool)) r1 (Grows im T acc top m i (n + 1) t r) := by
      intro t' r1 hcont hbal hkeep
      refine (dealloc_runs hroof hmi hlow hcont hbal).mono ?_
      rintro ⟨t'', ok⟩ r2 ⟨rfl, hlow', hsame, hbal', hkeep'⟩
      exact ⟨hlow', hsame, hbal', hkeep.trans hkeep', nofun⟩
    unfold allocLoop
    refine .bind (onPages_runs h (.of_le hle) (kalloc_runs h) fun x k hk =>
      ⟨_, hk, .of_le (hle.trans (le_add_of_nonneg_right zero_le))⟩) ?_
    rintro x r1 ⟨hk1, hkeep1⟩
    cases x with
    | none => exact hback t r1 rfl (by simpa using hk1) (hkeep1.mono hcut)
    | some mem =>
      dsimp only
      rw [← bind_assoc]
      refine .bind (clear_runs hr hroof hlow hk1) ?_
      rintro ⟨t', ok⟩ r2 ⟨hstep, hkeep2⟩
      cases ok with
      | false =>
        obtain ⟨hcont, hbal⟩ := hstep
        have hle' : T + mapped (contents t) (range i) ≤ T + held t' i := by
          rw [← hcont]
          exact add_le_add le_rfl (mapped_le_held t' i)
        refine .bind (onPages_runs hbal (.of_le (hle'.trans (le_add_of_nonneg_right zero_le)))
          (kfree_runs hbal) fun _ k hk => ⟨_, hk, .of_le hle'⟩) ?_
        rintro _ r3 ⟨hk3, hkeep3⟩
        exact hback t' r3 hcont hk3 (((hkeep1.trans hkeep2).trans hkeep3).mono hcut)
      | true =>
        obtain ⟨hlow', hcont, hbal, hzero⟩ := hstep
        dsimp only at hlow' hcont hbal hzero
        have hmap : mapped (contents t') (range (i + 1)) =
            mapped (contents t) (range i) + Pi.single mem 1 := by
          rw [hcont, mapped_range_succ]
        have hbelow : ∀ j < i, contents t' j = contents t j := by
          intro j hj
          rw [hcont, update_of_ne hj.ne]
        rw [← Nat.succ_mul, if_pos rfl]
        refine (ih t' (by omega) hlow' hbal).mono ?_
        rintro ⟨t'', ok⟩ r3 ⟨hlow3, hsame3, hbal3, hkeep3, hzero3⟩
        rw [show i + 1 + n = i + (n + 1) by omega] at hlow3 hbal3 hzero3
        dsimp only at hlow3 hsame3 hbal3 hkeep3 hzero3
        have hkeep12 := hkeep1.trans hkeep2
        cases ok with
        | false =>
          rw [if_neg (by decide), mapped_congr fun j hj => hbelow j
            (lt_of_lt_of_le (mem_range.1 hj) hmi)] at hkeep3
          refine ⟨hlow3, fun j hj => ?_, hbal3, (hkeep12.mono hcut).trans hkeep3, nofun⟩
          rw [hsame3 j hj, hbelow j (lt_of_lt_of_le hj hmi)]
        | true =>
          rw [if_pos rfl, hmap, ← add_assoc] at hkeep3
          refine ⟨hlow3, fun j hj => ?_, hbal3, hkeep12.trans (hkeep3.mono
            (le_add_of_nonneg_right zero_le)), fun _ j hlo hhi => ?_⟩
          · rw [hsame3 j (Nat.lt_succ_of_lt hj), hbelow j hj]
          · rcases Nat.lt_or_eq_of_le hlo with hlt | rfl
            · exact hzero3 rfl j hlt hhi
            · refine hzero.keeps (by rw [hcont, update_self]) (hsame3 i (Nat.lt_succ_self i))
                ?_ hkeep3
              simp

structure Extends (im : Image) (T : Page → ℕ) (acc : Bool) (top : ℕ → Option Pte)
    (t : Table) (oldsz newsz : ℕ) (r : Ram) (x : Table × ℕ) (r' : Ram) : Prop where
  size : x.2 = 0 ∨ x.2 = max oldsz newsz
  same : ∀ i < npages oldsz, contents x.1 i = contents t i
  low : Low acc (contents x.1) (npages (if x.2 = 0 then oldsz else x.2)) top
  balanced : Balanced im r'.kmem (T + held x.1 (npages (if x.2 = 0 then oldsz else x.2)))
  keeps : r.Keeps (T + mapped (contents t) (range (npages oldsz))) r'
  zeroed : ∀ j, npages oldsz ≤ j → j < npages x.2 → Zeroed (contents x.1) r'.phys j

theorem uvmalloc_runs {newsz : ℕ} (xperm : Perm) (hroof : Roof top)
    (hlow : Low acc (contents t) (npages oldsz) top)
    (h : Balanced im r.kmem (T + held t (npages oldsz))) :
    Runs (uvmalloc im t oldsz newsz xperm) r (Extends im T acc top t oldsz newsz r) := by
  have hn := hlow.held_le h
  -- the tables are as without the bytes
  have htables := (uvmalloc_projects t oldsz newsz xperm).runs (Paging.uvmalloc_runs xperm hroof hlow h)
  suffices hbytes : Runs (uvmalloc im t oldsz newsz xperm) r fun x r' =>
      r.Keeps (T + mapped (contents t) (range (npages oldsz))) r' ∧
        ∀ j, npages oldsz ≤ j → j < npages x.2 → Zeroed (contents x.1) r'.phys j from
    (htables.and hbytes).mono fun x r' h => ⟨h.1.1, h.1.2.1, h.1.2.2.1, h.1.2.2.2, h.2.1, h.2.2⟩
  rw [uvmalloc]
  by_cases hlt : newsz < oldsz
  · rw [if_pos hlt]
    exact .pure ⟨Ram.Keeps.refl _ r, fun j h1 h2 => absurd h2 (not_lt.2 h1)⟩
  · rw [if_neg hlt, pgRoundUp_eq (le_of_npages hn)]
    refine .bind (allocLoop_runs (m := npages oldsz) ⟨rfl, fun _ => rfl⟩ hroof _ t le_rfl hlow h) ?_
    rintro ⟨t', ok⟩ r' ⟨-, -, -, hkeep, hzero⟩
    rw [npages_count (not_lt.1 hlt)] at hzero
    rw [ite_self] at hkeep
    refine .pure ⟨hkeep, fun j hlo hj => ?_⟩
    cases ok with
    | false => simp at hj
    | true => exact hzero rfl j hlo hj

def userByte (t : Table) (phys : Memory) (va : ℕ) : Option UInt8 :=
  (contents t (va / pgsize)).map fun e => phys (e.page * pgsize + va % pgsize)

theorem userByte_keeps (hva : va / pgsize < n)
    (hsame : contents t' (va / pgsize) = contents t (va / pgsize))
    (hkeep : r.Keeps (T + mapped (contents t) (range n)) r') :
    userByte t' r'.phys va = userByte t r.phys va := by
  rw [userByte, userByte, hsame]
  cases he : contents t (va / pgsize) with
  | none => rfl
  | some e =>
    have hpos := single_le_mapped (mem_range.2 hva) he
    rw [Option.map_some, Option.map_some, hkeep]
    rw [page_of_address _ (Nat.mod_lt _ pgsize_pos), Pi.add_apply]
    omega

theorem Zeroed.userByte {phys : Memory} (h : Zeroed (contents t) phys (va / pgsize)) :
    userByte t phys va = some 0 := by
  obtain ⟨e, he, hzero⟩ := h
  rw [PhysicalMemory.userByte, he, Option.map_some, hzero _ (Nat.mod_lt _ pgsize_pos)]

/-- What `sbrk` reports is what has happened: it fails and leaves everything, or it
returns the old size, the size is larger by `n`, the bytes below both sizes are left and
the new pages are zero. -/
def Reports (p : Proc) (n : Int32) (r : Ram) (x : Proc × ℤ) (r' : Ram) : Prop :=
  (x.2 = -1 ∧ x.1.sz = p.sz ∧ contents x.1.pagetable = contents p.pagetable ∧
    ∀ va < npages p.sz * pgsize,
      userByte x.1.pagetable r'.phys va = userByte p.pagetable r.phys va) ∨
  (x.2 = p.sz ∧ (x.1.sz : ℤ) = p.sz + n.toInt ∧
    (∀ va < min p.sz x.1.sz,
      userByte x.1.pagetable r'.phys va = userByte p.pagetable r.phys va) ∧
    ∀ va, pgRoundUp p.sz ≤ va → va < npages x.1.sz * pgsize →
      userByte x.1.pagetable r'.phys va = some 0)

variable {p : Proc} {d : Int32}

theorem div_lt_npages {sz : ℕ} (h : va < sz) : va / pgsize < npages sz := by
  simp only [npages, pgsize]
  omega

theorem sz_le (hn : npages p.sz ≤ 2 ^ 15) : p.sz ≤ 2 ^ 27 := by
  refine (le_of_npages_le hn).trans ?_
  decide

theorem sbrk_grow (hd : 0 < d.toInt) (hfit : p.Fit im) (h : Balanced im r.kmem (T + p.pages)) :
    Runs (sysSbrk im p d) r (Reports p d r) := by
  have h' : Balanced im r.kmem (T + Pi.single p.trapframe 1 + held p.pagetable (npages p.sz)) :=
    h.congr (by rw [Proc.pages]; abel)
  have hn := hfit.held_le h'
  have hsz := sz_le hn
  have hnew : (((p.sz : ℤ) + d.toInt) % 2 ^ 64).toNat = p.sz + d.toInt.toNat := by
    have := d.toInt_lt
    omega
  unfold sysSbrk growproc
  simp only [hd, if_true, hnew]
  rw [bind_assoc]
  refine .bind (uvmalloc_runs ⟨false, true, false, false⟩ roof_fixedTop hfit h') ?_
  rintro ⟨t, sz⟩ r' ⟨hsize, hsame, hlow, -, hkeep, hzero⟩
  dsimp only at hsize hsame hlow hkeep hzero ⊢
  by_cases hz : sz = 0
  · rw [if_pos hz] at hlow ⊢
    refine .pure (.inl ⟨rfl, rfl, ?_, fun va hva => ?_⟩)
    · funext j
      rcases Nat.lt_or_ge j (npages p.sz) with hj | hj
      · exact hsame j hj
      · rw [hlow.above j hj, hfit.above j hj]
    · have hva' : va / pgsize < npages p.sz := Nat.div_lt_of_lt_mul (by rwa [mul_comm])
      exact userByte_keeps hva' (hsame _ hva') hkeep
  · have hmax : sz = p.sz + d.toInt.toNat := by
      rw [hsize.resolve_left hz]
      exact max_eq_right (Nat.le_add_right _ _)
    rw [if_neg hz]
    refine .pure (.inr ⟨rfl, ?_, fun va hva => ?_, fun va hlo hhi => ?_⟩)
    · dsimp only
      omega
    · have hva' := div_lt_npages (lt_of_lt_of_le hva (min_le_left _ _))
      exact userByte_keeps hva' (hsame _ hva') hkeep
    · refine Zeroed.userByte (hzero _ ?_ (Nat.div_lt_of_lt_mul (by rwa [mul_comm])))
      rw [pgRoundUp_eq (le_of_npages hn)] at hlo
      exact (Nat.le_div_iff_mul_le pgsize_pos).2 hlo

theorem sbrk_shrink (hd : d.toInt < 0) (hpos : 0 ≤ (p.sz : ℤ) + d.toInt) (hfit : p.Fit im)
    (h : Balanced im r.kmem (T + p.pages)) : Runs (sysSbrk im p d) r (Reports p d r) := by
  have h' : Balanced im r.kmem (T + Pi.single p.trapframe 1 + held p.pagetable (npages p.sz)) :=
    h.congr (by rw [Proc.pages]; abel)
  have hn := hfit.held_le h'
  have hsz := sz_le hn
  obtain ⟨newsz, hnew⟩ := Int.eq_ofNat_of_zero_le hpos
  have hmod : (((p.sz : ℤ) + d.toInt) % 2 ^ 64).toNat = newsz := by omega
  have hlt : newsz < p.sz := by omega
  unfold sysSbrk growproc
  simp only [hd, if_true, if_neg (not_lt.2 hd.le), hmod]
  rw [bind_assoc]
  refine .bind (uvmdealloc_keeps newsz roof_fixedTop hfit h') ?_
  rintro ⟨t, sz⟩ r' ⟨⟨hsize, -, hsame, -⟩, hkeep⟩
  rw [min_eq_right hlt.le] at hsize hkeep
  obtain rfl : sz = newsz := hsize
  refine .pure (.inr ⟨rfl, hnew.symm, fun va hva => ?_, fun va hlo hhi => ?_⟩)
  · have hva' := div_lt_npages (lt_of_lt_of_le hva (min_le_right _ _))
    exact userByte_keeps hva' (hsame _ hva') hkeep
  · -- no page of the smaller space lies above the old size
    rw [pgRoundUp_eq (le_of_npages hn)] at hlo
    have := Nat.mul_le_mul_right pgsize (npages_mono hlt.le)
    exact absurd (lt_of_le_of_lt hlo hhi) (not_lt.2 this)

theorem sbrk_below (hneg : (p.sz : ℤ) + d.toInt < 0) (hsz : p.sz ≤ 2 ^ 27) (r : Ram) :
    Runs (sysSbrk im p d) r fun x r' => x = (p, (p.sz : ℤ)) ∧ r'.kmem = r.kmem := by
  have hd : d.toInt < 0 := by omega
  have hlarge : p.sz ≤ (((p.sz : ℤ) + d.toInt) % 2 ^ 64).toNat := by
    have := d.le_toInt
    omega
  unfold sysSbrk growproc
  simp only [hd, if_true, if_neg (not_lt.2 hd.le)]
  rw [bind_assoc, uvmdealloc, if_pos hlarge]
  exact ⟨_, _, rfl, rfl, rfl⟩

/-- For every process and every `n`: what `sbrk` reports is what has happened if and only
if the size would not become negative. -/
theorem sbrk_reports_iff (n : Int32) (hfit : p.Fit im) (h : Balanced im r.kmem (T + p.pages)) :
    Runs (sysSbrk im p n) r (Reports p n r) ↔ 0 ≤ (p.sz : ℤ) + n.toInt := by
  have h' : Balanced im r.kmem (T + Pi.single p.trapframe 1 + held p.pagetable (npages p.sz)) :=
    h.congr (by rw [Proc.pages]; abel)
  have hsz := sz_le (hfit.held_le h')
  constructor
  · intro hrun
    by_contra hneg
    obtain ⟨x, r', hx, rfl, -⟩ := sbrk_below (not_le.1 hneg) hsz r
    rcases hrun.of_eq hx with ⟨hret, -⟩ | ⟨-, hsize, -⟩
    · dsimp only at hret
      omega
    · dsimp only at hsize
      omega
  · intro hpos
    rcases lt_trichotomy n.toInt 0 with hneg | hzero | hgrow
    · exact sbrk_shrink hneg hpos hfit h
    · unfold sysSbrk growproc
      rw [hzero]
      refine .pure (.inr ⟨rfl, by rw [hzero, add_zero], fun _ _ => rfl, fun va hlo hhi => ?_⟩)
      rw [pgRoundUp_eq (le_of_npages (hfit.held_le h'))] at hlo
      exact absurd hhi (not_lt.2 hlo)
    · exact sbrk_grow hgrow hfit h

open ProcTable (initproc)

theorem textImage_boots : ∃ s p, Reached textImage s ∧ s.proc initproc = some p ∧ p.sz = pgsize := by
  obtain ⟨s, p, hs, hp, hsz⟩ := reached_of_bootRun (f := fun _ p => p.sz = pgsize)
    (show ((bootRun textImage (fun _ => false) []).any _) = true by decide +kernel)
  exact ⟨s, p, hs, hp, of_decide_eq_true hsz⟩

theorem sbrk_reports_iff_first : ∃ s p, Reached textImage s ∧ s.proc initproc = some p ∧
    ∀ r : Ram, r.kmem = s.kmem →
      (Runs (sysSbrk textImage p 4096) r (Reports p 4096 r) ↔ 0 ≤ (p.sz : ℤ) + 4096) := by
  obtain ⟨s, p, hs, hp, -⟩ := textImage_boots
  refine ⟨s, p, hs, hp, fun r hr => ?_⟩
  have hbal := hs.sound.balanced_rest hp
  rw [← hr] at hbal
  exact sbrk_reports_iff 4096 (hs.sound.fit _ p hp) hbal

/-- A request to go below 0 leaves the size as it is, and succeeds. -/
theorem sbrk_returns_below_zero : ∃ s p, Reached textImage s ∧ s.proc initproc = some p ∧
    p.sz = 4096 ∧ ∀ r : Ram, ∃ r', sysSbrk textImage p (-4097) r = .ok ((p, 4096), r') := by
  obtain ⟨s, p, hs, hp, hsz⟩ := textImage_boots
  refine ⟨s, p, hs, hp, hsz, fun r => ?_⟩
  have hneg : (p.sz : ℤ) + (-4097 : Int32).toInt < 0 := by
    rw [hsz]
    decide
  obtain ⟨x, r', hx, rfl, -⟩ : Runs (sysSbrk textImage p (-4097)) r _ :=
    sbrk_below hneg (by rw [hsz]; decide) r
  refine ⟨r', hx.trans ?_⟩
  rw [hsz]
  rfl

end Xv6MallocLab.PhysicalMemory
