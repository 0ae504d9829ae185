import Xv6MallocLab.PhysicalMemory

/-!
# The copy of an address space

`uvmcopy` with the bytes it copies and the words it takes entries apart with.  The
loop has given the child a fresh page with the parent's bytes and flags for every page
it has come past, and no page of the parent has changed.
-/

namespace Xv6MallocLab.PhysicalMemory

open ByteMemory Finset Function List Paging

def pa2pte (pa : ℕ) : ℕ := pa >>> 12 <<< 10

def pte2pa (w : ℕ) : ℕ := w >>> 10 <<< 12

def pteFlags (w : ℕ) : ℕ := w &&& 0x3FF

def Perm.bits (p : Perm) : ℕ := cond p.r 2 0 ||| cond p.w 4 0 ||| cond p.x 8 0 ||| cond p.u 16 0

def Perm.ofBits (flags : ℕ) : Perm :=
  ⟨flags.testBit 1, flags.testBit 2, flags.testBit 3, flags.testBit 4⟩

def Pte.word (e : Pte) : ℕ := pa2pte (e.page * pgsize) ||| (Perm.bits e.perm ||| 1)

theorem Perm.bits_lt (p : Perm) : Perm.bits p ||| 1 < 2 ^ 10 := by
  obtain ⟨r, w, x, u⟩ := p
  revert r w x u
  decide

theorem Perm.ofBits_bits (p : Perm) : Perm.ofBits (Perm.bits p ||| 1) = p := by
  obtain ⟨r, w, x, u⟩ := p
  revert r w x u
  decide

theorem Pte.word_eq (e : Pte) : Pte.word e = e.page * 2 ^ 10 + (Perm.bits e.perm ||| 1) := by
  have hpage : pa2pte (e.page * pgsize) = e.page <<< 10 := by
    rw [pa2pte, Nat.shiftRight_eq_div_pow, show pgsize = 2 ^ 12 from rfl,
      Nat.mul_div_cancel _ (by decide)]
  rw [Pte.word, hpage, ← Nat.shiftLeft_add_eq_or_of_lt (Perm.bits_lt e.perm), Nat.shiftLeft_eq]

theorem pte2pa_word (e : Pte) : pte2pa (Pte.word e) = e.page * pgsize := by
  have hdiv : (e.page * 2 ^ 10 + (Perm.bits e.perm ||| 1)) / 2 ^ 10 = e.page := by
    rw [mul_comm, Nat.mul_add_div (by decide), Nat.div_eq_of_lt (Perm.bits_lt e.perm), add_zero]
  rw [pte2pa, Pte.word_eq, Nat.shiftRight_eq_div_pow, hdiv, Nat.shiftLeft_eq]
  rfl

theorem ofBits_pteFlags_word (e : Pte) : Perm.ofBits (pteFlags (Pte.word e)) = e.perm := by
  have hmod : (e.page * 2 ^ 10 + (Perm.bits e.perm ||| 1)) % 2 ^ 10 = Perm.bits e.perm ||| 1 := by
    have := Perm.bits_lt e.perm
    omega
  rw [pteFlags, Pte.word_eq, show 0x3FF = 2 ^ 10 - 1 from rfl, Nat.and_two_pow_sub_one_eq_mod, hmod,
    Perm.ofBits_bits]

section Source

variable (im : Image)

def copyErr (old new : Table) (i : ℕ) : RamM (Table × Table × Bool) := do
  let new ← onPages (uvmunmap im new 0 (i / pgsize) true)
  return (old, new, false)

/-- The loop of `uvmcopy`, with `n` pages left from `i` on.  It returns both tables and
whether it came to the end. -/
def copyLoop (old : Table) : ℕ → ℕ → Table → RamM (Table × Table × Bool)
  | 0, _, new => return (old, new, true)
  | n + 1, i, new => do
      let (old, ok) ← onPages (walk old i false)
      if !ok then throw .copyPte
      else
        match pte old i with
        | none => throw .copyNotPresent
        | some e => do
            let pa := pte2pa (Pte.word e)
            let flags := pteFlags (Pte.word e)
            match ← onPages kalloc with
            | none => copyErr im old new i
            | some mem => do
                store fun phys => memmove phys (mem * pgsize) (fun j => phys (pa + j)) pgsize
                let (new, ok) ← onPages (mappages new i pgsize mem (Perm.ofBits flags))
                if ok then copyLoop old n (i + pgsize) new
                else do
                  onPages (kfree im mem)
                  copyErr im old new i

/-- `uvmcopy`, with the bytes of the pages it copies. -/
def uvmcopy (old new : Table) (sz : ℕ) : RamM (Table × Table × Bool) :=
  copyLoop im old ((sz + pgsize - 1) / pgsize) 0 new

end Source

variable {k k' : Kmem} {im : Image} {α : Type} {m : Mem α}

theorem walk_false_same {t t' : Table} {va : ℕ} {ok : Bool}
    (h : walk t va false k = .ok ((t', ok), k')) : t' = t := by
  unfold walk at h
  split at h
  · cases h
  · exact ((walkFrom_false 2 t va k).of_eq h).2.1

theorem copyLoop_projects (old : Table) (n i : ℕ) (new : Table) :
    Projects Ram.kmem Prod.snd (copyLoop im old n i new) (Paging.copyLoop im old n i new) := by
  have herr : ∀ (old new : Table) (i : ℕ), Projects Ram.kmem Prod.snd (copyErr im old new i) (do
      let new ← Paging.uvmunmap im new 0 (i / pgsize) true
      return (new, false)) :=
    fun old new i => .bind (projects_onPages _) fun t => .pure _ _
  induction n generalizing i new with
  | zero => exact .pure _ _
  | succ n ih =>
    unfold copyLoop Paging.copyLoop
    refine .bind_of (projects_onPages _) ?_
    rintro r ⟨old', ok⟩ r' hwalk
    obtain rfl := walk_false_same (onPages_ok hwalk)
    cases ok with
    | false => exact .throw _ _
    | true =>
      simp only [id, Bool.not_true, Bool.false_eq_true, if_false]
      cases pte old' i with
      | none => exact .throw _ _
      | some e =>
        simp only [ofBits_pteFlags_word]
        refine .bind (projects_onPages _) fun o => ?_
        cases o with
        | none => exact herr _ _ _
        | some mem =>
          refine projects_store (.bind (projects_onPages _) ?_)
          rintro ⟨t, ok⟩
          cases ok with
          | true => exact ih _ _
          | false => exact .bind (projects_onPages _) fun _ => herr _ _ _

theorem uvmcopy_projects {im : Image} (old new : Table) (sz : ℕ) :
    Projects Ram.kmem Prod.snd (uvmcopy im old new sz) (Paging.uvmcopy im old new sz) :=
  copyLoop_projects old _ 0 new

theorem grants_copyLoop (old : Table) (n i : ℕ) (new : Table) (hi : i + n ≤ 2 ^ 52) :
    Grants (Paging.copyLoop im old n (i * pgsize) new) Prod.snd (3 * n) := by
  induction n generalizing i new with
  | zero => exact .pure rfl
  | succ n ih =>
    have hwalk : Grants (walk old (i * pgsize) false) (fun _ => true) 0 := by
      unfold walk
      split
      · exact .throw _
      · intro m k x k' hx hk
        obtain ⟨rfl, -⟩ := (walkFrom_false 2 old (i * pgsize) k).of_eq hx
        exact ⟨rfl, hk⟩
    unfold Paging.copyLoop
    refine .mono (.bind hwalk fun x _ => ?_) (show 3 * n + 2 + 1 + 0 ≤ 3 * (n + 1) by omega)
    dsimp only
    split
    · exact .throw _
    · split
      · exact .throw _
      · refine grants_kalloc.bind fun o ho => ?_
        cases o with
        | none => cases ho
        | some mem =>
          dsimp only
          rw [mappages_page new i mem _ (by omega)]
          refine (grants_mapLoop _ 0 _ _ _).bind ?_
          rintro ⟨t, ok⟩ rfl
          have hnext := ih (i + 1) t (by omega)
          rwa [add_mul, one_mul] at hnext

def Takes {α : Type} (m : Mem α) : Prop := ∀ k a k', m k = .ok (a, k') → k'.freelist ⊆ k.freelist

theorem Takes.pure (a : α) : Takes (Pure.pure a : Mem α) := by
  rintro k a k' ⟨⟩
  exact fun _ h => h

theorem Takes.throw (e : Panic) : Takes (MonadExcept.throw e : Mem α) := by
  rintro k a k' ⟨⟩

theorem Takes.bind {β : Type} {f : α → Mem β} (hm : Takes m) (hf : ∀ a, Takes (f a)) :
    Takes (m >>= f) := by
  intro k b k' h
  obtain ⟨a, t, hma, hfa⟩ := bind_ok h
  exact fun q hq => hm k a t hma (hf a t b k' hfa hq)

theorem takes_kalloc : Takes kalloc := by
  rintro ⟨freelist, deny⟩ a k' h
  cases freelist with
  | nil =>
    cases h
    exact fun _ h => h
  | cons p next =>
    change (if deny 0 = true then _ else _ : Mem (Option Page)) _ = _ at h
    split at h
    · cases h
      exact fun _ h => h
    · cases h
      exact subset_cons_self p next

theorem kalloc_mem {p : Page} (h : kalloc k = .ok (some p, k')) : p ∈ k.freelist := by
  obtain ⟨freelist, deny⟩ := k
  cases freelist with
  | nil => cases h
  | cons q next =>
    change (if deny 0 = true then _ else _ : Mem (Option Page)) _ = _ at h
    split at h
    · cases h
    · cases h
      exact mem_cons_self

theorem takes_walkFrom (alloc : Bool) (level : ℕ) (t : Radix 512 Pte level) (va : ℕ) :
    Takes (walkFrom alloc level t va) := by
  induction level with
  | zero => exact .pure _
  | succ level ih =>
    simp only [walkFrom]
    split
    · exact .bind (ih _) fun x => .pure _
    · split
      · refine .bind takes_kalloc fun o => ?_
        cases o with
        | none => exact .pure _
        | some p => exact .bind (ih _) fun x => .pure _
      · exact .pure _

theorem takes_walk (t : Table) (va : ℕ) (alloc : Bool) : Takes (walk t va alloc) := by
  unfold walk
  split
  · exact .throw _
  · exact takes_walkFrom alloc 2 t va

theorem takes_mapLoop (perm : Perm) (n a : ℕ) (pa : Page) (t : Table) :
    Takes (mapLoop perm n a pa t) := by
  induction n generalizing a pa t with
  | zero =>
    unfold mapLoop
    refine .bind (takes_walk t a true) fun x => ?_
    dsimp only
    split
    · exact .pure _
    · split
      · exact .throw _
      · exact .pure _
  | succ n ih =>
    unfold mapLoop
    refine .bind (takes_walk t a true) fun x => ?_
    dsimp only
    split
    · exact .pure _
    · split
      · exact .throw _
      · exact ih _ _ _

theorem takes_mappages (t : Table) (va size : ℕ) (pa : Page) (perm : Perm) :
    Takes (mappages t va size pa perm) := by
  unfold mappages
  split
  · exact .throw _
  · exact takes_mapLoop _ _ _ _ _

theorem Takes.runs {Q : α → Kmem → Prop} (hm : Takes m) (h : Runs m k Q) :
    Runs m k fun a k' => Q a k' ∧ k'.freelist ⊆ k.freelist := by
  obtain ⟨a, k', ha, hQ⟩ := h
  exact ⟨a, k', ha, hQ, hm k a k' ha⟩

/-- Page number `j` of `c'` is a page of `free` with the bytes and the flags that `c` has
there. -/
def CopyAt (c : ℕ → Option Pte) (phys : Memory) (free : List Page) (c' : ℕ → Option Pte)
    (phys' : Memory) (j : ℕ) : Prop :=
  ∃ e e', c j = some e ∧ c' j = some e' ∧ e'.perm = e.perm ∧ e'.page ∈ free ∧
    ∀ o < pgsize, phys' (e'.page * pgsize + o) = phys (e.page * pgsize + o)

def Present (K : Page → ℕ) (c : ℕ → Option Pte) (n : ℕ) : Prop :=
  ∀ i < n, ∃ e, c i = some e ∧ e.perm ≠ ⟨false, false, false, false⟩ ∧ 0 < K e.page

structure Copying (im : Image) (T K : Page → ℕ) (base : ℕ → Option Pte) (old : Table) (r0 : Ram)
    (i : ℕ) (new : Table) (r : Ram) : Prop where
  copied : ∀ j < i, CopyAt (contents old) r0.phys r0.kmem.freelist (contents new) r.phys j
  above : ∀ j, i ≤ j → contents new j = base j
  taken : r.kmem.freelist ⊆ r0.kmem.freelist
  keeps : r0.Keeps K r
  balanced : Balanced im r.kmem (T + held new i)

def Duplicated (im : Image) (T K : Page → ℕ) (base : ℕ → Option Pte) (old : Table) (r0 : Ram)
    (n : ℕ) (x : Table × Table × Bool) (r : Ram) : Prop :=
  x.1 = old ∧
    if x.2.2 then Copying im T K base old r0 n x.2.1 r
    else contents x.2.1 = base ∧ r0.Keeps K r ∧ Balanced im r.kmem (T + Radix.dirs 2 x.2.1)

section Loop

variable {im : Image} {T K : Page → ℕ} {base : ℕ → Option Pte} {old new : Table} {r0 r : Ram}
  {total i : ℕ}

theorem Copying.le (h : Copying im T K base old r0 i new r) : i ≤ 2 ^ 15 := by
  have hbal : Balanced im r.kmem (T + Radix.dirs 2 new + mapped (contents new) (range i)) :=
    h.balanced.congr (by rw [held, add_assoc])
  refine card_le_of_mapped (fun j hj => ?_) hbal
  obtain ⟨-, e', -, he', -⟩ := h.copied j hj
  exact ⟨e', he'⟩

variable {r' : Ram}

theorem CopyAt.keeps {c c' c'' : ℕ → Option Pte} {phys : Memory} {free : List Page} {j : ℕ}
    {r : Ram} (h : CopyAt c phys free c' r.phys j) (hsame : c'' j = c' j) (hj : j < i)
    (hkeep : r.Keeps (K + mapped c' (range i)) r') : CopyAt c phys free c'' r'.phys j := by
  obtain ⟨e, e', he, he', hperm, hfree, hbytes⟩ := h
  refine ⟨e, e', he, hsame.trans he', hperm, hfree, fun o ho => ?_⟩
  have hpos := single_le_mapped (mem_range.2 hj) he'
  rw [hkeep _ (by rw [page_of_address _ ho, Pi.add_apply]; omega), hbytes o ho]

theorem Copying.leaves (h : Copying im T K base old r0 i new r) (hpres : Present K (contents old) total)
    (hi : i ≤ total) : Leaves (contents new) (Finset.Ico 0 (0 + i)) := by
  intro j hj
  rw [mem_Ico, zero_add] at hj
  obtain ⟨e, e', he, he', hperm, -⟩ := h.copied j hj.2
  obtain ⟨e0, he0, hleaf, -⟩ := hpres j (by omega)
  rw [he] at he0
  cases he0
  exact ⟨e', he', hperm ▸ hleaf⟩

theorem copyErr_runs (hK : Within im K T) (hbase : ∀ j < total, base j = none) {new' : Table}
    (h : Copying im T K base old r0 i new r) (hpres : Present K (contents old) total)
    (hi : i ≤ total) (hcont : contents new' = contents new)
    (hbal : Balanced im r'.kmem (T + held new' i)) (hkeep : r0.Keeps K r') :
    Runs (copyErr im old new' (i * pgsize)) r' (Duplicated im T K base old r0 total) := by
  have hle := h.le
  have hleaf := h.leaves hpres hi
  rw [← hcont] at hleaf
  have hrun := uvmunmap_runs (T := T) true (by omega) hleaf (hbal.congr (by
    rw [if_pos rfl, held, zero_add, range_eq_Ico, add_assoc]))
  rw [zero_mul] at hrun
  unfold copyErr
  rw [Nat.mul_div_cancel _ pgsize_pos]
  refine .bind (onPages_runs hbal (hK.mono_right _) hrun fun t k hk =>
    ⟨_, hk.1, hK.mono_right _⟩) ?_
  rintro t r'' ⟨⟨hbal', hcleared⟩, hkeep'⟩
  refine .pure ⟨rfl, ?_, hkeep.trans hkeep', hbal'⟩
  dsimp only
  rw [hcleared, hcont]
  funext j
  rw [cleared]
  split
  · exact (hbase j (by omega)).symm
  · exact h.above j (by omega)

theorem round_runs (hK : Within im K T) (hbase : base i = none)
    (h : Copying im T K base old r0 i new r) {e : Pte} (he : contents old i = some e)
    (hused : 0 < K e.page) {mem : Page} {r1 : Ram} (hmem : mem ∈ r0.kmem.freelist)
    (htaken : r1.kmem.freelist ⊆ r0.kmem.freelist)
    (hbal : Balanced im r1.kmem (T + held new i + Pi.single mem 1))
    (hkeep : r.Keeps (K + mapped (contents new) (range i)) r1) :
    Runs (do
      store fun phys => memmove phys (mem * pgsize) (fun j => phys (e.page * pgsize + j)) pgsize
      onPages (mappages new (i * pgsize) pgsize mem e.perm) : RamM (Table × Bool)) r1 fun x r' =>
        if x.2 then Copying im T K base old r0 (i + 1) x.1 r'
        else contents x.1 = contents new ∧ r0.Keeps K r' ∧
          Balanced im r'.kmem (T + held x.1 i + Pi.single mem 1) := by
  have hi : i < 2 ^ 26 := lt_of_le_of_lt h.le (by decide)
  have hnone : contents new i = none := by
    rw [h.above i le_rfl, hbase]
  have hone := hbal.le_one mem
  have hmanaged := hbal.managed_of_pos (q := mem) (by simp)
  have hunused : (K + mapped (contents new) (range i)) mem = 0 := by
    have := hK mem hmanaged
    simp only [held, Pi.add_apply, Pi.single_eq_same] at hone ⊢
    omega
  have hfill := Ram.Keeps.fill (r := r1) hunused fun j => r1.phys (e.page * pgsize + j)
  have hrun := (takes_mappages new (i * pgsize) pgsize mem e.perm).runs (mappages_runs
    (T := T + (mapped (contents new) (range i) + Pi.single mem 1)) mem e.perm hi hnone
    (hbal.congr (by rw [held]; abel)))
  have hwithin : ∀ X : Page → ℕ, Within im
      (K + (mapped (contents new) (range i) + Pi.single mem 1))
      (T + (mapped (contents new) (range i) + Pi.single mem 1) + X) := by
    intro X
    rw [add_assoc]
    exact hK.add (le_add_of_nonneg_right zero_le)
  refine runs_modify_bind (.mono (onPages_runs (hbal.congr (by rw [held]; abel))
    (hwithin (Radix.dirs 2 new)) hrun fun x k hk => ⟨_, hk.1.1, hwithin _⟩) ?_)
  rintro ⟨t, ok⟩ r2 ⟨⟨⟨hbal2, hcont⟩, htaken2⟩, hkeep2⟩
  rw [← add_assoc] at hkeep2
  have hkeep12 := (hkeep.trans hfill).trans (hkeep2.mono (le_add_of_nonneg_right zero_le))
  have hkeepK := h.keeps.trans (hkeep12.mono (le_add_of_nonneg_right zero_le))
  cases ok with
  | false =>
    dsimp only at hbal2 hcont
    rw [if_neg (by decide)] at hcont
    refine ⟨hcont, hkeepK, hbal2.congr ?_⟩
    rw [held, hcont]
    abel
  | true =>
    dsimp only at hbal2 hcont
    rw [if_pos rfl] at hcont
    refine ⟨fun j hj => ?_, fun j hj => ?_, fun q hq => htaken (htaken2 hq), hkeepK, ?_⟩
    · rcases Nat.lt_succ_iff_lt_or_eq.1 hj with hj | rfl
      · refine (h.copied j hj).keeps ?_ hj hkeep12
        rw [hcont, update_of_ne hj.ne]
      · refine ⟨e, ⟨mem, e.perm⟩, he, by rw [hcont, update_self], rfl, hmem, fun o ho => ?_⟩
        have hparent : r1.phys (e.page * pgsize + o) = r0.phys (e.page * pgsize + o) := by
          have hpage := page_of_address e.page ho
          rw [hkeep _ (by rw [hpage, Pi.add_apply]; omega), h.keeps _ (by rwa [hpage])]
        rw [hkeep2 _ (by simp [page_of_address _ ho]), ← hparent]
        refine (if_pos ⟨Nat.le_add_right _ _, Nat.add_lt_add_left ho _⟩).trans ?_
        rw [Nat.add_sub_cancel_left]
    · rw [hcont, update_of_ne (by omega)]
      exact h.above j (by omega)
    · refine hbal2.congr ?_
      rw [held, hcont, mapped_range_succ]
      abel

theorem copyLoop_runs (hK : Within im K T) (hbase : ∀ j < total, base j = none)
    (hpres : Present K (contents old) total) (n : ℕ) (hin : i + n = total)
    (h : Copying im T K base old r0 i new r) :
    Runs (copyLoop im old n (i * pgsize) new) r (Duplicated im T K base old r0 total) := by
  induction n generalizing i new r with
  | zero =>
    obtain rfl : i = total := hin
    exact .pure ⟨rfl, h⟩
  | succ n ih =>
    obtain ⟨e, he, hleaf, hused⟩ := hpres i (by omega)
    have hi : i < 2 ^ 26 := lt_of_le_of_lt h.le (by decide)
    have hheld := mapped_le_held new i
    have hwithin : Within im (K + mapped (contents new) (range i)) (T + held new i) :=
      hK.add hheld
    unfold copyLoop
    refine .bind (onPages_runs h.balanced hwithin (walk_found hi he r.kmem) ?_) ?_
    · rintro _ k ⟨rfl, -⟩
      exact ⟨_, h.balanced, hwithin⟩
    rintro _ r1 ⟨⟨hsame, rfl⟩, hkeep1⟩
    have hbal1 : Balanced im r1.kmem (T + held new i) := hsame ▸ h.balanced
    simp only [Bool.not_true, Bool.false_eq_true, if_false, pte_mul hi, he, pte2pa_word,
      ofBits_pteFlags_word]
    have hkalloc : Runs kalloc r1.kmem fun x k =>
        Balanced im k (T + held new i + given x) ∧ k.freelist ⊆ r1.kmem.freelist ∧
          ∀ p, x = some p → p ∈ r1.kmem.freelist := by
      obtain ⟨x, k, hx, hk⟩ := kalloc_runs hbal1
      refine ⟨x, k, hx, hk, takes_kalloc _ _ _ hx, ?_⟩
      rintro p rfl
      exact kalloc_mem hx
    refine .bind (onPages_runs hbal1 hwithin hkalloc ?_) ?_
    · rintro x k ⟨hk, -⟩
      refine ⟨_, hk, ?_⟩
      rw [add_assoc]
      exact hK.add (hheld.trans (le_add_of_nonneg_right zero_le))
    rintro x r2 ⟨⟨hbal2, htaken2, hmem⟩, hkeep2⟩
    have hkeep := hkeep1.trans hkeep2
    have hkeepK := h.keeps.trans (hkeep.mono (le_add_of_nonneg_right zero_le))
    have htaken : r2.kmem.freelist ⊆ r0.kmem.freelist :=
      fun q hq => h.taken (hsame ▸ htaken2 hq)
    cases x with
    | none =>
      exact copyErr_runs hK hbase h hpres (by omega) rfl (by simpa using hbal2) hkeepK
    | some mem =>
      dsimp only
      rw [← bind_assoc]
      refine .bind (round_runs hK (hbase i (by omega)) h he hused
        (h.taken (hsame ▸ hmem mem rfl)) htaken hbal2
        hkeep) ?_
      rintro ⟨t, ok⟩ r3 hstep
      cases ok with
      | true =>
        rw [← Nat.succ_mul]
        exact ih (by omega) hstep
      | false =>
        obtain ⟨hcont, hkeep3, hbal3⟩ := hstep
        dsimp only
        rw [if_neg (by decide)]
        refine .bind (onPages_runs (K := K) hbal3 ?_ (kfree_runs hbal3) fun _ k hk =>
          ⟨_, hk, ?_⟩) ?_
        · rw [add_assoc]
          exact hK.mono_right _
        · exact hK.mono_right _
        rintro _ r4 ⟨hk4, hkeep4⟩
        exact copyErr_runs hK hbase h hpres (by omega) hcont hk4 (hkeep3.trans hkeep4)

end Loop

structure Apart (c c' : ℕ → Option Pte) (n : ℕ) : Prop where
  inj : ∀ i < n, ∀ j < n, ∀ e e', c' i = some e → c' j = some e' → e.page = e'.page → i = j
  parent : ∀ i < n, ∀ j < n, ∀ e e', c' i = some e → c j = some e' → e.page ≠ e'.page

section Uvmcopy

open Classical in
noncomputable def inUse (r : Ram) (new : Table) (q : Page) : ℕ :=
  if q ∉ r.kmem.freelist ∧ Radix.dirs 2 new q = 0 then 1 else 0

variable {im : Image} {T : Page → ℕ} {old new : Table} {r : Ram} {sz : ℕ}

theorem inUse_pos {q : Page} (hfree : q ∉ r.kmem.freelist) (hdirs : Radix.dirs 2 new q = 0) :
    0 < inUse r new q := by
  rw [inUse, if_pos ⟨hfree, hdirs⟩]
  exact Nat.one_pos

theorem within_inUse (h : Balanced im r.kmem (T + Radix.dirs 2 new)) :
    Within im (inUse r new) T := by
  intro q hq hpos
  have hbal := h q
  rw [inUse] at hpos
  split at hpos
  · rename_i hused
    rw [count_eq_zero.2 hused.1, if_pos hq, Pi.add_apply, hused.2] at hbal
    omega
  · exact absurd hpos (lt_irrefl 0)

/-- However `kalloc` fails: the child has for every page of the range a page that was
free, with the parent's bytes and flags; or it has no entry in the range and every page
is free again, its new directories apart.  With three pages free for every page to copy
and no `kalloc` refused, it has them. -/
theorem uvmcopy_duplicates
    (hpres : ∀ i < npages sz, ∃ e, contents old i = some e ∧
      e.perm ≠ ⟨false, false, false, false⟩)
    (hparent : ∀ i < npages sz, ∀ e, contents old i = some e →
      e.page ∉ r.kmem.freelist ∧ Radix.dirs 2 new e.page = 0)
    (hnew : ∀ i < npages sz, contents new i = none) (h : Balanced im r.kmem (T + Radix.dirs 2 new)) :
    Runs (uvmcopy im old new sz) r fun x r' =>
      x.1 = old ∧ (Stocked r.kmem (3 * npages sz) → x.2.2 = true) ∧
      (∀ va < npages sz * pgsize, userByte old r'.phys va = userByte old r.phys va) ∧
      if x.2.2 then
        (∀ i < npages sz, CopyAt (contents old) r.phys r.kmem.freelist (contents x.2.1) r'.phys i) ∧
          Apart (contents old) (contents x.2.1) (npages sz)
      else
        (∀ i < npages sz, contents x.2.1 i = none) ∧
          ∀ q ∈ r.kmem.freelist, q ∈ r'.kmem.freelist ∨ 0 < Radix.dirs 2 x.2.1 q := by
  have hpresent : Present (inUse r new) (contents old) (npages sz) := by
    intro i hi
    obtain ⟨e, he, hleaf⟩ := hpres i hi
    obtain ⟨hfree, hdirs⟩ := hparent i hi e he
    exact ⟨e, he, hleaf, inUse_pos hfree hdirs⟩
  have hstart : Copying im T (inUse r new) (contents new) old r 0 new r :=
    ⟨nofun, fun _ _ => rfl, fun _ hq => hq, Ram.Keeps.refl _ r, h.congr (by simp [held, mapped])⟩
  have hrun := copyLoop_runs (within_inUse h) hnew hpresent (npages sz) (zero_add _) hstart
  rw [zero_mul] at hrun
  obtain ⟨⟨old', t, ok⟩, r', hx, hold, hresult⟩ := hrun
  refine ⟨_, r', hx, hold, fun hs => ?_, ?_⟩
  · have hle : npages sz ≤ Paging.span := by
      by_contra hlt
      obtain ⟨e, he, -⟩ := hpres Paging.span (not_le.1 hlt)
      rw [contents, if_neg (lt_irrefl _)] at he
      cases he
    have htree := @copyLoop_projects im old (npages sz) 0 new r
    rw [hx] at htree
    have hsmall : Paging.span ≤ 2 ^ 52 := by decide
    exact (grants_copyLoop old (npages sz) 0 new (by omega) 0 _ _ _ htree.symm (by rwa [zero_add])).1
  have hbytes : r.Keeps (inUse r new) r' →
      ∀ va < npages sz * pgsize, userByte old r'.phys va = userByte old r.phys va := by
    intro hkeep va hva
    obtain ⟨e, he, -, hpos⟩ := hpresent (va / pgsize)
      (Nat.div_lt_of_lt_mul (by rwa [mul_comm]))
    rw [userByte, userByte, he, Option.map_some, Option.map_some,
      hkeep _ (by rwa [page_of_address _ (Nat.mod_lt _ pgsize_pos)])]
  cases ok with
  | true =>
    have hcopy : Copying im T (inUse r new) (contents new) old r (npages sz) t r' := hresult
    refine ⟨hbytes hcopy.keeps, hcopy.copied, ?_, ?_⟩
    · intro i hi j hj e e' he he' hpage
      refine page_inj_of_le_one (s := Finset.range (npages sz)) (fun q => ?_)
        (Finset.mem_range.2 hi) (Finset.mem_range.2 hj) he he' hpage
      have := hcopy.balanced.le_one q
      simp only [held, Pi.add_apply] at this
      dsimp only
      omega
    · intro i hi j hj e e' he he' hpage
      obtain ⟨-, e1, -, he1, -, hfree, -⟩ := hcopy.copied i hi
      rw [show contents t i = _ from he] at he1
      cases he1
      exact (hparent j hj e' he').1 (hpage ▸ hfree)
  | false =>
    obtain ⟨hcont, hkeep, hbal⟩ := hresult
    refine ⟨hbytes hkeep, fun i hi => ?_, fun q hq => ?_⟩
    · rw [show contents t = _ from hcont]
      exact hnew i hi
    · have h1 := h q
      have h2 := hbal q
      have hpos := count_pos_iff.2 hq
      by_contra hnot
      obtain ⟨hnfree, hndir⟩ := not_or.1 hnot
      rw [count_eq_zero.2 hnfree] at h2
      simp only [Pi.add_apply] at h1 h2 hndir
      omega

end Uvmcopy

open ProcTable (initproc)

theorem uvmcopy_duplicates_first : ∃ s p tf t k, Reached textImage s ∧ s.proc initproc = some p ∧
    allocproc textImage s.kmem = .ok (some (tf, t), k) ∧
    ∀ phys junk, Runs (uvmcopy textImage p.pagetable t p.sz) ⟨⟨k.freelist, fun _ => false⟩, phys, junk⟩
      fun x r' => x.1 = p.pagetable ∧ x.2.2 = true ∧
        CopyAt (contents p.pagetable) phys k.freelist (contents x.2.1) r'.phys 0 := by
  obtain ⟨s, p, hs, hp, hcheck⟩ := reached_of_bootRun (f := fun s p =>
    p.sz = pgsize ∧ (allocproc textImage s.kmem).toOption.any fun r =>
      r.1.isSome && decide (3 ≤ r.2.freelist.length))
    (show ((bootRun textImage (fun _ => false) []).any _) = true by decide +kernel)
  obtain ⟨hsz, halloc⟩ := of_decide_eq_true hcheck
  obtain ⟨⟨r, k⟩, hchild, hfound⟩ := ok_of_any halloc
  obtain ⟨hsome, hfree⟩ := (Bool.and_eq_true _ _).mp hfound
  obtain ⟨⟨tf, t⟩, rfl⟩ := Option.isSome_iff_exists.1 hsome
  have hsound := hs.sound
  have hfit := hsound.fit _ p hp
  obtain ⟨hcont, hbal⟩ := (allocproc_runs hsound.balanced).of_eq hchild
  have hbal' : Balanced textImage ⟨k.freelist, fun _ => false⟩
      (owned s + Pi.single tf 1 + Radix.dirs 2 t) :=
    Balanced.congr hbal (by simp only [Option.elim_some]; abel)
  have hone : npages p.sz = 1 := by
    rw [hsz]
    decide
  refine ⟨s, p, tf, t, k, hs, hp, hchild, fun phys junk => ?_⟩
  refine .mono (uvmcopy_duplicates (fun i hi => ?_) (fun i hi e he => ?_) (fun i hi => ?_)
    hbal') fun x r' h => ?_
  · obtain ⟨e, he, hr, -⟩ := hfit.user i hi
    refine ⟨e, he, fun hperm => ?_⟩
    rw [hperm] at hr
    cases hr
  · have hpos : 0 < owned s e.page := by
      have := single_le_mapped (mem_range.2 hi) he
      rw [owned_eq s initproc, hp]
      simp only [share, Option.elim_some, Proc.pages, held, Pi.add_apply]
      omega
    have hone := hbal'.le_one e.page
    simp only [Pi.add_apply] at hone
    exact ⟨not_free hbal' (.of_le le_rfl) (by simp only [Pi.add_apply]; omega), by omega⟩
  · have hle : npages p.sz ≤ trapframePage := le_trans (hsound.npages_le hp) (by decide)
    rw [hcont tf t rfl]
    exact roof_fixedTop i (lt_of_lt_of_le hi hle)
  · obtain ⟨hold, hok, -, hresult⟩ := h
    have hcopied := hok ⟨fun _ => rfl, by rw [hone]; exact of_decide_eq_true hfree⟩
    rw [if_pos hcopied] at hresult
    exact ⟨hold, hcopied, hresult.1 0 (by omega)⟩

end Xv6MallocLab.PhysicalMemory
