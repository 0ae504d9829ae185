import Xv6MallocLab.PointerTree
import Xv6MallocLab.UserStores

/-!
# Page tables as words of memory

`walk`, `walkaddr`, `mappages` and `uvmunmap` on the bytes of physical memory.
`translate` is what the hardware reads from the table, and the table is a tree of
pointers when its pages differ.
-/

namespace Xv6MallocLab.PageTable

open ByteMemory Function List PointerTree
open Paging (pgsize maxva Image Kmem Panic memmove)

def PGSIZE : UInt64 := 4096

def MAXVA : UInt64 := (1 : UInt64) <<< (9 + 9 + 9 + 12 - 1 : UInt64)

def pgRoundDown (a : UInt64) : UInt64 := a &&& ~~~(PGSIZE - 1)

def pteV : UInt64 := (1 : UInt64) <<< (0 : UInt64)

def pteU : UInt64 := (1 : UInt64) <<< (4 : UInt64)

def pteR : UInt64 := (1 : UInt64) <<< (1 : UInt64)

def pteW : UInt64 := (1 : UInt64) <<< (2 : UInt64)

def pteX : UInt64 := (1 : UInt64) <<< (3 : UInt64)

def pa2pte (pa : UInt64) : UInt64 := (pa >>> 12) <<< 10

def pte2pa (pte : UInt64) : UInt64 := (pte >>> 10) <<< 12

def pteFlags (pte : UInt64) : UInt64 := pte &&& 0x3FF

def px (level : ℕ) (va : UInt64) : UInt64 := (va >>> UInt64.ofNat (12 + 9 * level)) &&& 0x1FF

/-- The bytes of physical memory, and the allocator. -/
structure Ram where
  phys : Memory
  kmem : Kmem

abbrev RamM (α : Type) := Fallible Ram Panic α

def word (phys : Memory) (p : UInt64) : UInt64 := UInt64.ofNat (load 8 phys p.toNat)

def assign (p v : UInt64) : RamM Unit :=
  modify fun s => { s with phys := store 8 s.phys p.toNat v.toNat }

def fill (dst : UInt64) (c : UInt8) : RamM Unit :=
  modify fun s => { s with phys := memmove s.phys dst.toNat (fun _ => c) pgsize }

def onKmem {α : Type} (m : Paging.Mem α) : RamM α :=
  Fallible.zoom Ram.kmem (fun s k => { s with kmem := k }) m

/-- `kalloc`: a page filled with 5, or 0. -/
def kalloc : RamM UInt64 := do
  match ← onKmem Paging.kalloc with
  | none => return 0
  | some r => do
      fill (UInt64.ofNat (r * pgsize)) 5
      return UInt64.ofNat (r * pgsize)

/-- `kfree`: fill the page with 1 and link it in the free list. -/
def kfree (im : Image) (pa : UInt64) : RamM Unit := do
  if pa % PGSIZE ≠ 0 then throw .kfree
  let s ← get
  onKmem (Paging.kfree im (pa.toNat / pgsize))
  fill pa 1
  assign pa (UInt64.ofNat (s.kmem.freelist.headD 0 * pgsize))

/-- The loop of `walk` from `level` on, which may add table pages. -/
def walkLoop (alloc : Bool) (va : UInt64) : ℕ → UInt64 → RamM UInt64
  | 0, pagetable => return pagetable + 8 * px 0 va
  | level + 1, pagetable => do
      let pte := pagetable + 8 * px (level + 1) va
      let s ← get
      if word s.phys pte &&& pteV ≠ 0 then walkLoop alloc va level (pte2pa (word s.phys pte))
      else if !alloc then return 0
      else do
        let pagetable ← kalloc
        if pagetable = 0 then return 0
        else do
          fill pagetable 0
          assign pte (pa2pte pagetable ||| pteV)
          walkLoop alloc va level pagetable

/-- `walk`: the address of the lowest entry for `va`, or 0. -/
def walk (pagetable va : UInt64) (alloc : Bool) : RamM UInt64 :=
  if MAXVA ≤ va then throw .walk else walkLoop alloc va 2 pagetable

/-- `walkaddr`: the page at `va`, or 0 if it is not the user's. -/
def walkaddr (pagetable va : UInt64) : RamM UInt64 := do
  if MAXVA ≤ va then return 0
  else do
    let pte ← walk pagetable va false
    if pte = 0 then return 0
    else do
      let s ← get
      if word s.phys pte &&& pteV = 0 then return 0
      else if word s.phys pte &&& pteU = 0 then return 0
      else return pte2pa (word s.phys pte)

/-- The loop of `mappages`.  It ends within `fuel` steps, since `walk` panics at
`MAXVA`. -/
def mapLoop (pagetable last perm : UInt64) : (fuel : ℕ) → (a pa : UInt64) → RamM ℤ
  | 0, _, _ => throw .walk
  | fuel + 1, a, pa => do
      let pte ← walk pagetable a true
      if pte = 0 then return -1
      else do
        let s ← get
        if word s.phys pte &&& pteV ≠ 0 then throw .remap
        else do
          assign pte (pa2pte pa ||| perm ||| pteV)
          if a = last then return 0
          else mapLoop pagetable last perm fuel (a + PGSIZE) (pa + PGSIZE)

def steps : ℕ := 2 ^ 26 + 1

/-- `mappages`: entries for the pages of `size` bytes at `va`, or -1 without memory. -/
def mappages (pagetable va size pa perm : UInt64) : RamM ℤ :=
  if size = 0 then throw .mappagesSize
  else mapLoop pagetable (pgRoundDown (va + size - 1)) perm steps (pgRoundDown va) pa

def unmapLoop (im : Image) (pagetable stop : UInt64) (doFree : Bool) :
    (fuel : ℕ) → (a : UInt64) → RamM Unit
  | 0, _ => throw .walk
  | fuel + 1, a =>
    if a < stop then do
      let pte ← walk pagetable a false
      if pte = 0 then throw .unmapWalk
      else do
        let s ← get
        if word s.phys pte &&& pteV = 0 then throw .notMapped
        else if pteFlags (word s.phys pte) = pteV then throw .notLeaf
        else do
          if doFree then kfree im (pte2pa (word s.phys pte))
          assign pte 0
          unmapLoop im pagetable stop doFree fuel (a + PGSIZE)
    else return

/-- `uvmunmap`: clear `npages` leaf entries; `doFree` frees their pages. -/
def uvmunmap (im : Image) (pagetable va npages : UInt64) (doFree : Bool) : RamM Unit :=
  if va % PGSIZE ≠ 0 then throw .notAligned
  else unmapLoop im pagetable (va + npages * PGSIZE) doFree steps va

def slot (t : UInt64) (i : Fin 512) : UInt64 := t + 8 * UInt64.ofNat i

def index (level : ℕ) (va : UInt64) : Fin 512 := Paging.px level va.toNat

def next (phys : Memory) (t : UInt64) (i : Fin 512) : Option UInt64 :=
  if word phys (slot t i) &&& pteV ≠ 0 then some (pte2pa (word phys (slot t i))) else none

abbrev table (phys : Memory) (root : UInt64) (p : List (Fin 512)) : Option UInt64 :=
  follow (next phys) root p

/-- The address of the lowest entry for `va`, if the upper ones are valid. -/
def entry (phys : Memory) (root va : UInt64) : Option UInt64 :=
  (table phys root [index 2 va, index 1 va]).map fun t => slot t (index 0 va)

/-- The valid entry for `va`: its page and its permissions. -/
def translate (phys : Memory) (root va : UInt64) : Option UInt64 :=
  (entry phys root va).bind fun e => if word phys e &&& pteV ≠ 0 then some (word phys e) else none

/-- The entry `e` as the page and the permissions it holds. -/
def readPte (e : UInt64) : Paging.Pte where
  page := (pte2pa e).toNat / pgsize
  perm := ⟨e &&& pteR ≠ 0, e &&& pteW ≠ 0, e &&& pteX ≠ 0, e &&& pteU ≠ 0⟩

/-- The tree of the table at `t`, as the pages of memory hold it. -/
def readTable (phys : Memory) : (level : ℕ) → UInt64 → Radix 512 Paging.Pte level
  | 0, t => (⟨t.toNat / pgsize, fun i => (next phys t i).map fun _ => readPte (word phys (slot t i))⟩ :
      Dir 512 Paging.Pte)
  | level + 1, t => (⟨t.toNat / pgsize, fun i => (next phys t i).map (readTable phys level)⟩ :
      Dir 512 (Radix 512 Paging.Pte level))

/-- A three-level table in pages of memory, none of them at the null pointer. -/
structure Placed (phys : Memory) (root : UInt64) : Prop where
  aligned : root.toNat % pgsize = 0
  nonnull : ∀ p, p.length ≤ 2 → table phys root p ≠ some 0

structure Tables (phys : Memory) (root : UInt64) : Prop extends Placed phys root where
  apart : Apart (next phys) root 2

/-- The pages `kalloc` has to give are used nowhere in the table, and none twice. -/
structure Fresh (s : Ram) (root : UInt64) : Prop where
  nodup : s.kmem.freelist.Nodup
  page : ∀ r ∈ s.kmem.freelist, 0 < r ∧ r < 2 ^ 52
  unused : ∀ r ∈ s.kmem.freelist, ∀ p, p.length ≤ 2 →
    table s.phys root p ≠ some (UInt64.ofNat (r * pgsize))

theorem toNat_PGSIZE : PGSIZE.toNat = 4096 := rfl

theorem toNat_MAXVA : MAXVA.toNat = 2 ^ 38 := rfl

theorem toNat_pgRoundDown (a : UInt64) : (pgRoundDown a).toNat = a.toNat / 4096 * 4096 := by
  have hmask : (~~~(PGSIZE - 1)).toNat = 2 ^ 64 - (4095 + 1) := rfl
  have hlow : ∀ i, Nat.testBit 4095 i = decide (i < 12) := Nat.testBit_two_pow_sub_one 12
  rw [pgRoundDown, UInt64.toNat_and, hmask]
  apply Nat.eq_of_testBit_eq
  intro i
  rw [Nat.testBit_and, Nat.testBit_two_pow_sub_succ (by norm_num), hlow,
    show 4096 = 2 ^ 12 from rfl, Nat.testBit_mul_two_pow]
  by_cases hi : 12 ≤ i
  · have htop : a.toNat.testBit i → i < 64 := by
      intro hbit
      by_contra hge
      have hlt : a.toNat < 2 ^ i :=
        lt_of_lt_of_le a.toNat_lt (Nat.pow_le_pow_right (by norm_num) (by omega))
      rw [Nat.testBit_lt_two_pow hlt] at hbit
      cases hbit
    rw [Nat.testBit_div_two_pow, Nat.sub_add_cancel hi]
    cases hbit : a.toNat.testBit i with
    | false => simp
    | true => simp [hi, htop hbit]
  · simp [hi]
    omega

theorem toNat_pa2pte (pa : UInt64) : (pa2pte pa).toNat = pa.toNat / 4096 * 1024 := by
  have hpa := pa.toNat_lt
  rw [pa2pte, UInt64.toNat_shiftLeft, UInt64.toNat_shiftRight]
  simp only [UInt64.reduceToNat, Nat.reduceMod, Nat.shiftRight_eq_div_pow, Nat.shiftLeft_eq]
  omega

theorem toNat_pte2pa (pte : UInt64) : (pte2pa pte).toNat = pte.toNat / 1024 % 2 ^ 52 * 4096 := by
  have hpte := pte.toNat_lt
  rw [pte2pa, UInt64.toNat_shiftLeft, UInt64.toNat_shiftRight]
  simp only [UInt64.reduceToNat, Nat.reduceMod, Nat.shiftRight_eq_div_pow, Nat.shiftLeft_eq]
  omega

variable {level : ℕ} {f : UInt64}

theorem toNat_px (h : level ≤ 2) (va : UInt64) : (px level va).toNat = index level va := by
  have hshift : (UInt64.ofNat (12 + 9 * level)).toNat % 64 = 12 + 9 * level := by
    rw [UInt64.toNat_ofNat']
    omega
  rw [px, UInt64.toNat_and, UInt64.toNat_shiftRight, hshift]
  simp only [UInt64.reduceToNat]
  rw [show 511 = 2 ^ 9 - 1 from rfl, Nat.and_two_pow_sub_one_eq_mod, Nat.shiftRight_eq_div_pow]
  rfl

theorem add_px (h : level ≤ 2) (t va : UInt64) : t + 8 * px level va = slot t (index level va) := by
  rw [slot, ← toNat_px h va, UInt64.ofNat_toNat]

theorem pteFlags_toNat (x : UInt64) : (pteFlags x).toNat = x.toNat % 1024 := by
  rw [pteFlags, UInt64.toNat_and]
  exact Nat.and_two_pow_sub_one_eq_mod x.toNat 10

theorem toNat_pa2pte_or (pa : UInt64) (hf : f.toNat < 1024) :
    (pa2pte pa ||| f).toNat = pa.toNat / 4096 * 1024 + f.toNat := by
  rw [UInt64.toNat_or, toNat_pa2pte, show 1024 = 2 ^ 10 from rfl, ← Nat.shiftLeft_eq,
    Nat.shiftLeft_add_eq_or_of_lt hf]

theorem pte2pa_pa2pte_or (pa : UInt64) (hf : f.toNat < 1024) :
    pte2pa (pa2pte pa ||| f) = pgRoundDown pa := by
  have hpa := pa.toNat_lt
  apply UInt64.toNat_inj.mp
  rw [toNat_pte2pa, toNat_pa2pte_or pa hf, toNat_pgRoundDown]
  omega

theorem pteFlags_pa2pte_or (pa : UInt64) (hf : f.toNat < 1024) :
    pteFlags (pa2pte pa ||| f) = f := by
  apply UInt64.toNat_inj.mp
  rw [pteFlags_toNat, toNat_pa2pte_or pa hf]
  omega

theorem or_pteV_and (x : UInt64) : (x ||| pteV) &&& pteV ≠ 0 := by
  intro h
  have hbit := congrArg UInt64.toNat h
  rw [UInt64.toNat_and, UInt64.toNat_or] at hbit
  have htest := congrArg (fun n => Nat.testBit n 0) hbit
  simp only [Nat.testBit_and, Nat.testBit_or, show Nat.testBit pteV.toNat 0 = true from rfl,
    Bool.or_true, Bool.and_true] at htest
  cases htest

theorem not_MAXVA_le {va : UInt64} (hva : va.toNat < maxva) : ¬ MAXVA ≤ va := by
  rw [UInt64.le_iff_toNat_le, toNat_MAXVA]
  exact not_le.mpr hva

section Words

variable {phys : Memory} {t u p v : UInt64} {i j : Fin 512}

theorem toNat_slot (ht : t.toNat % 4096 = 0) (i : Fin 512) : (slot t i).toNat = t.toNat + 8 * i := by
  have hlt := t.toNat_lt
  have hi := i.isLt
  rw [slot, UInt64.toNat_add, UInt64.toNat_mul, UInt64.toNat_ofNat']
  simp only [UInt64.reduceToNat]
  omega

theorem slot_inj (ht : t.toNat % 4096 = 0) (hu : u.toNat % 4096 = 0) (h : slot t i = slot u j) :
    t = u ∧ i = j := by
  have heq := congrArg UInt64.toNat h
  have hi := i.isLt
  have hj := j.isLt
  rw [toNat_slot ht, toNat_slot hu] at heq
  refine ⟨UInt64.toNat_inj.mp (by omega), Fin.ext (by omega)⟩

theorem word_congr {phys' : Memory} (h : ∀ k < 8, phys' (p.toNat + k) = phys (p.toNat + k)) :
    word phys' p = word phys p := by
  rw [word, word, load_congr]
  intro b hlo hhi
  obtain ⟨k, rfl⟩ := Nat.exists_eq_add_of_le hlo
  exact h k (by omega)

theorem word_store_self (phys : Memory) (p v : UInt64) : word (store 8 phys p.toNat v.toNat) p = v := by
  rw [word, load_store_of_lt v.toNat_lt, UInt64.ofNat_toNat]

theorem word_store_slot (ht : t.toNat % 4096 = 0) (hu : u.toNat % 4096 = 0) (hne : u ≠ t ∨ j ≠ i)
    (phys : Memory) (v : ℕ) :
    word (store 8 phys (slot t i).toNat v) (slot u j) = word phys (slot u j) := by
  have hi := i.isLt
  have hj := j.isLt
  rw [word, word, load_store_of_disjoint]
  rw [toNat_slot ht, toNat_slot hu]
  by_cases htu : u = t
  · have hij : (j : ℕ) ≠ i := by
      intro heq
      rcases hne with hne | hne
      · exact hne htu
      · exact hne (Fin.ext heq)
    subst htu
    omega
  · have hne : u.toNat ≠ t.toNat := fun heq => htu (UInt64.toNat_inj.mp heq)
    omega

theorem word_of_page {phys' : Memory} (ht : t.toNat % 4096 = 0) (hu : u.toNat % 4096 = 0)
    (hne : u ≠ t) (h : ∀ b, b < t.toNat ∨ t.toNat + 4096 ≤ b → phys' b = phys b) (j : Fin 512) :
    word phys' (slot u j) = word phys (slot u j) := by
  have hj := j.isLt
  have hne : u.toNat ≠ t.toNat := fun heq => hne (UInt64.toNat_inj.mp heq)
  apply word_congr
  intro k hk
  apply h
  rw [toNat_slot hu]
  omega

theorem memmove_outside (phys src : Memory) {dst n b : ℕ} (h : b < dst ∨ dst + n ≤ b) :
    memmove phys dst src n b = phys b := if_neg (by omega)

theorem word_fill_zero (ht : t.toNat % 4096 = 0) (phys : Memory) (i : Fin 512) :
    word (memmove phys t.toNat (fun _ => 0) pgsize) (slot t i) = 0 := by
  have hi := i.isLt
  have hzero : load 8 (memmove phys t.toNat (fun _ => 0) pgsize) (slot t i).toNat = 0 % 256 ^ 8 := by
    apply load_of_bytes
    intro d hd
    rw [toNat_slot ht, memmove, if_pos (by simp only [pgsize]; omega), Nat.zero_div]
    rfl
  rw [word, hzero]
  rfl

end Words

section Tables

variable {phys phys' : Memory} {root t u va a b : UInt64} {p q : List (Fin 512)} {i j : Fin 512}

theorem table_aligned (h : root.toNat % 4096 = 0) (ht : table phys root p = some t) :
    t.toNat % 4096 = 0 := by
  rcases p.eq_nil_or_concat' with rfl | ⟨p, i, rfl⟩
  · cases ht
    exact h
  · rw [table, follow_concat] at ht
    cases hu : follow (next phys) root p with
    | none =>
      rw [hu] at ht
      cases ht
    | some u =>
      rw [hu] at ht
      change next phys u i = some t at ht
      rw [next] at ht
      split at ht
      · cases ht
        rw [toNat_pte2pa]
        omega
      · cases ht

theorem table_concat (ht : table phys root p = some t) (hu : next phys t i = some u) :
    table phys root (p ++ [i]) = some u := by
  rw [table, follow_concat, show follow (next phys) root p = some t from ht]
  exact hu

def SameWords (phys phys' : Memory) (root : UInt64) : Prop :=
  ∀ p t i, p.length ≤ 2 → table phys root p = some t → word phys' (slot t i) = word phys (slot t i)

theorem next_congr (h : word phys' (slot t i) = word phys (slot t i)) :
    next phys' t i = next phys t i := by
  rw [next, next, h]

section

variable (h : SameWords phys phys' root)

include h

theorem SameWords.table (hq : q.length ≤ 2) : table phys' root q = PageTable.table phys root q :=
  follow_congr (fun p t i hp ht => next_congr (h p t i (by omega) ht)) hq

theorem SameWords.placed (ht : Placed phys root) :
    Placed phys' root where
  aligned := ht.aligned
  nonnull p hp := by
    rw [h.table hp]
    exact ht.nonnull p hp

theorem SameWords.tables (ht : Tables phys root) :
    Tables phys' root where
  toPlaced := h.placed ht.toPlaced
  apart := ht.apart.congr fun _ hq => h.table hq

theorem SameWords.entry (va : UInt64) : entry phys' root va = PageTable.entry phys root va := by
  rw [PageTable.entry, PageTable.entry, h.table (by simp)]

theorem SameWords.translate (va : UInt64) :
    translate phys' root va = PageTable.translate phys root va := by
  rw [PageTable.translate, PageTable.translate, h.entry]
  cases ht : PageTable.table phys root [index 2 va, index 1 va] with
  | none => simp [PageTable.entry, ht]
  | some t =>
    have hword := h _ t (index 0 va) (by simp) ht
    simp [PageTable.entry, ht, hword]

end

theorem sameWords_of_page (h : root.toNat % 4096 = 0) (hu : u.toNat % 4096 = 0)
    (hfree : ∀ p, p.length ≤ 2 → table phys root p ≠ some u)
    (hsame : ∀ b, b < u.toNat ∨ u.toNat + 4096 ≤ b → phys' b = phys b) :
    SameWords phys phys' root := by
  intro p t i hp ht
  refine word_of_page hu (table_aligned h ht) ?_ hsame i
  rintro rfl
  exact hfree p hp ht

theorem page_eq_of_index (ha : a.toNat < maxva) (hb : b.toNat < maxva)
    (h : ∀ level ≤ 2, index level a = index level b) : a.toNat / 4096 = b.toNat / 4096 := by
  have h0 := congrArg Fin.val (h 0 (by omega))
  have h1 := congrArg Fin.val (h 1 (by omega))
  have h2 := congrArg Fin.val (h 2 (by omega))
  simp only [index, Paging.px, Fin.ofNat, maxva] at h0 h1 h2 ha hb
  omega

section

variable (h : a.toNat / 4096 = b.toNat / 4096)

include h

theorem index_congr (level : ℕ) : index level a = index level b := by
  have hdiv : ∀ x : ℕ, x / 2 ^ (12 + 9 * level) = x / 4096 / 2 ^ (9 * level) := by
    intro x
    rw [Nat.div_div_eq_div_mul, pow_add]
    rfl
  rw [index, index, Paging.px, Paging.px, hdiv, hdiv, h]

theorem entry_congr : entry phys root a = entry phys root b := by
  rw [entry, entry, index_congr h, index_congr h, index_congr h]

theorem translate_congr : translate phys root a = translate phys root b := by
  rw [translate, translate, entry_congr h]

end

variable {e : UInt64}

theorem entry_eq_some (he : entry phys root va = some e) :
    ∃ t, table phys root [index 2 va, index 1 va] = some t ∧ e = slot t (index 0 va) := by
  rw [entry] at he
  obtain ⟨t, ht, rfl⟩ := Option.map_eq_some_iff.mp he
  exact ⟨t, ht, rfl⟩

theorem entry_of_table (ht : table phys root [index 2 va, index 1 va] = some t) :
    entry phys root va = some (slot t (index 0 va)) :=
  congrArg (Option.map _) ht

theorem entry_of_none (ht : table phys root [index 2 va, index 1 va] = none) :
    entry phys root va = none :=
  congrArg (Option.map _) ht

theorem translate_of_entry (he : entry phys root va = some e) :
    translate phys root va = if word phys e &&& pteV ≠ 0 then some (word phys e) else none := by
  rw [translate, he, Option.bind_some]

theorem translate_of_none (he : entry phys root va = none) : translate phys root va = none := by
  rw [translate, he, Option.bind_none]

theorem Tables.entry_inj (h : Tables phys root) (ha : a.toNat < maxva) (hb : b.toNat < maxva)
    (hae : entry phys root a = some e) (hbe : entry phys root b = some e) :
    a.toNat / 4096 = b.toNat / 4096 := by
  obtain ⟨t, ht, rfl⟩ := entry_eq_some hae
  obtain ⟨u, hu, heq⟩ := entry_eq_some hbe
  obtain ⟨rfl, h0⟩ := slot_inj (table_aligned h.aligned ht) (table_aligned h.aligned hu) heq
  have hpath := h.apart _ _ t (by simp) (by simp) ht hu
  simp only [List.cons.injEq, and_true] at hpath
  apply page_eq_of_index ha hb
  intro level hlevel
  interval_cases level
  · exact h0
  · exact hpath.2
  · exact hpath.1

theorem Placed.slot_ne_zero (h : Placed phys root) (hp : p.length ≤ 2)
    (ht : table phys root p = some t) (i : Fin 512) : slot t i ≠ 0 := by
  intro hzero
  have hnat := congrArg UInt64.toNat hzero
  rw [toNat_slot (table_aligned h.aligned ht)] at hnat
  have ht0 : t = 0 := UInt64.toNat_inj.mp (by simpa using (Nat.add_eq_zero_iff.mp hnat).1)
  subst ht0
  exact h.nonnull p hp ht

theorem Placed.entry_ne_zero (h : Placed phys root) (he : entry phys root va = some e) : e ≠ 0 := by
  obtain ⟨t, ht, rfl⟩ := entry_eq_some he
  exact h.slot_ne_zero (by simp) ht _

theorem table_store_entry (h : Tables phys root) (he : entry phys root a = some e) (v : ℕ)
    (hq : q.length ≤ 2) : table (store 8 phys e.toNat v) root q = table phys root q := by
  obtain ⟨t, ht, rfl⟩ := entry_eq_some he
  have hal := table_aligned h.aligned ht
  refine follow_congr ?_ hq
  intro p u j hp hu
  apply next_congr
  apply word_store_slot hal (table_aligned h.aligned hu)
  left
  rintro rfl
  have hlen := congrArg List.length (h.apart _ _ u (by omega) (by simp) hu ht)
  simp only [length_cons, length_nil] at hlen
  omega

theorem Tables.store_entry (h : Tables phys root) (he : entry phys root a = some e) (v : ℕ) :
    Tables (store 8 phys e.toNat v) root where
  aligned := h.aligned
  apart := h.apart.congr fun _ hq => table_store_entry h he v hq
  nonnull p hp := by
    rw [table_store_entry h he v hp]
    exact h.nonnull p hp

theorem entry_store_entry (h : Tables phys root) (he : entry phys root a = some e) (v : ℕ)
    (b : UInt64) : entry (store 8 phys e.toNat v) root b = entry phys root b := by
  rw [entry, entry, table_store_entry h he v (by simp)]

theorem translate_store_entry (h : Tables phys root) (he : entry phys root a = some e)
    (ha : a.toNat < maxva) (hb : b.toNat < maxva) (v : UInt64) :
    translate (store 8 phys e.toNat v.toNat) root b =
      if b.toNat / 4096 = a.toNat / 4096 then if v &&& pteV ≠ 0 then some v else none
      else translate phys root b := by
  have hentry := entry_store_entry h he v.toNat b
  by_cases hpage : b.toNat / 4096 = a.toNat / 4096
  · have hbe := hentry.trans ((entry_congr hpage).trans he)
    rw [if_pos hpage, translate_of_entry hbe, word_store_self]
  · rw [if_neg hpage]
    cases hbe : entry phys root b with
    | none => rw [translate_of_none (hentry.trans hbe), translate_of_none hbe]
    | some e' =>
      have hother : word (store 8 phys e.toNat v.toNat) e' = word phys e' := by
        obtain ⟨t, ht, rfl⟩ := entry_eq_some he
        obtain ⟨u, hu, rfl⟩ := entry_eq_some hbe
        apply word_store_slot (table_aligned h.aligned ht) (table_aligned h.aligned hu)
        by_contra hsame
        push Not at hsame
        rw [hsame.1, hsame.2] at hbe
        exact hpage (h.entry_inj hb ha hbe he)
      rw [translate_of_entry (hentry.trans hbe), translate_of_entry hbe, hother]

def way (va : UInt64) : (level : ℕ) → List (Fin 512)
  | 0 => []
  | level + 1 => index (level + 1) va :: way va level

theorem lookup_readTable (phys : Memory) (va : UInt64) (level : ℕ) (t : UInt64) :
    Radix.lookup level (readTable phys level t) (va.toNat / pgsize) =
      (table phys t (way va level)).bind fun u =>
        (next phys u (index 0 va)).map fun _ => readPte (word phys (slot u (index 0 va))) := by
  induction level generalizing t with
  | zero =>
    change (readTable phys 0 t).entry _ = _
    rw [← Paging.px_eq_digit]
    rfl
  | succ level ih =>
    have hstep : table phys t (way va (level + 1)) =
        (next phys t (index (level + 1) va)).bind fun u => table phys u (way va level) := rfl
    change ((readTable phys (level + 1) t).entry _).bind _ = _
    rw [← Paging.px_eq_digit, hstep]
    change ((next phys t (index (level + 1) va)).map (readTable phys level)).bind _ = _
    cases next phys t (index (level + 1) va) with
    | none => rfl
    | some u => exact ih u

theorem pte_readTable (phys : Memory) (root va : UInt64) :
    Paging.pte (readTable phys 2 root) va.toNat = (translate phys root va).map readPte := by
  rw [Paging.pte, lookup_readTable]
  cases ht : table phys root (way va 2) with
  | none =>
    rw [translate_of_none (entry_of_none ht)]
    rfl
  | some u =>
    rw [translate_of_entry (entry_of_table ht), Option.bind_some, next]
    by_cases hvalid : word phys (slot u (index 0 va)) &&& pteV ≠ 0
    · rw [if_pos hvalid, if_pos hvalid, Option.map_some, Option.map_some]
    · rw [if_neg hvalid, if_neg hvalid, Option.map_none, Option.map_none]

theorem readTable_bare {level : ℕ} (h : ∀ j, next phys u j = none) :
    readTable phys level u = Radix.empty (u.toNat / pgsize) level := by
  cases level with
  | zero =>
    rw [readTable, Radix.empty, Dir.empty, Dir.mk.injEq]
    exact ⟨rfl, funext fun j => by rw [h j]; rfl⟩
  | succ level =>
    rw [readTable, Radix.empty, Dir.empty, Dir.mk.injEq]
    exact ⟨rfl, funext fun j => by rw [h j]; rfl⟩

/-- No word differs but those that paths through `p` lead to. -/
def Elsewhere (root : UInt64) (p : List (Fin 512)) (phys phys' : Memory) : Prop :=
  ∀ q t j, q.length ≤ 2 → table phys root q = some t → ¬ p <+: q ++ [j] →
    word phys' (slot t j) = word phys (slot t j)

theorem Elsewhere.mono (h : Elsewhere root q phys phys') (hpq : p <+: q) :
    Elsewhere root p phys phys' :=
  fun r t j hr ht hp => h r t j hr ht fun hq => hp (hpq.trans hq)

theorem readTable_congr {level : ℕ} (hlevel : p.length + level ≤ 2) (ht : table phys root p = some t)
    (h : ∀ q u j, p <+: q → q.length ≤ 2 → table phys root q = some u →
      word phys' (slot u j) = word phys (slot u j)) :
    readTable phys' level t = readTable phys level t := by
  induction level generalizing p t with
  | zero =>
    rw [readTable, readTable, Dir.mk.injEq]
    refine ⟨rfl, funext fun i => ?_⟩
    have hword := h p t i prefix_rfl (by omega) ht
    rw [next_congr hword, hword]
  | succ level ih =>
    rw [readTable, readTable, Dir.mk.injEq]
    refine ⟨rfl, funext fun i => ?_⟩
    rw [next_congr (h p t i prefix_rfl (by omega) ht)]
    cases hnext : next phys t i with
    | none => rfl
    | some u =>
      have hlen : (p ++ [i]).length + level ≤ 2 := by
        simp
        omega
      exact congrArg some (ih hlen (table_concat ht hnext)
        fun q v j hp => h q v j ((prefix_append p [i]).trans hp))

theorem Elsewhere.readTable {level : ℕ} (h : Elsewhere root (p ++ [i]) phys phys')
    (hlevel : p.length + level = 1) (ht : table phys root p = some t) :
    readTable phys' (level + 1) t = Dir.set (PageTable.readTable phys (level + 1) t) i
      ((next phys' t i).map (PageTable.readTable phys' level)) := by
  rw [PageTable.readTable, PageTable.readTable, Dir.set, Dir.mk.injEq]
  refine ⟨rfl, funext fun j => ?_⟩
  by_cases hj : j = i
  · rw [hj, update_self]
  · -- a path through the entry `j` of the node does not go through its entry `i`
    have hoff : ∀ q, p ++ [j] <+: q → ¬ p ++ [i] <+: q := by
      intro q hjq hiq
      have heq := (prefix_of_prefix_length_le hjq hiq (by simp)).eq_of_length (by simp)
      exact hj (by simpa using heq)
    rw [update_of_ne hj, next_congr (h p t j (by omega) ht (hoff _ prefix_rfl))]
    change _ = (next phys t j).map (PageTable.readTable phys level)
    cases hnext : next phys t j with
    | none => rfl
    | some u =>
      have hlen : (p ++ [j]).length + level ≤ 2 := by
        simp
        omega
      exact congrArg some (readTable_congr hlen (table_concat ht hnext) fun q v k hq hlen hv =>
        h q v k hlen hv (hoff _ (hq.trans (prefix_append q [k]))))

theorem Elsewhere.store {level : ℕ} (h : Elsewhere root (p ++ way va level ++ [index 0 va]) phys phys')
    (hlevel : p.length + level = 2) (ht : table phys root p = some t)
    (hu : table phys t (way va level) = some u) :
    PageTable.readTable phys' level t =
      Radix.store level (PageTable.readTable phys level t) (va.toNat / pgsize)
        ((next phys' u (index 0 va)).map fun _ => readPte (word phys' (slot u (index 0 va)))) := by
  induction level generalizing p t with
  | zero =>
    cases hu
    rw [Radix.store, ← Paging.px_eq_digit, PageTable.readTable, PageTable.readTable, Dir.set,
      Dir.mk.injEq]
    refine ⟨rfl, funext fun j => ?_⟩
    by_cases hj : j = Paging.px 0 va.toNat
    · rw [hj, update_self]
      rfl
    · have hword := h p u j (by omega) ht (by simpa [way, index] using Ne.symm hj)
      rw [next_congr hword, hword, update_of_ne hj]
  | succ level ih =>
    obtain ⟨v, hv, hu⟩ := Option.bind_eq_some_iff.mp
      (show (next phys t (index (level + 1) va)).bind (fun v => table phys v (way va level)) = _ from hu)
    have hpath : p ++ way va (level + 1) = p ++ [index (level + 1) va] ++ way va level := by
      simp [way]
    rw [hpath] at h
    have hnext : next phys' t (index (level + 1) va) = some v := by
      rw [next_congr (h p t _ (by omega) ht ?_), hv]
      intro hpre
      have hlen := hpre.length_le
      simp at hlen
    have hhere := h.mono ((prefix_append _ (way va level)).trans (prefix_append _ [index 0 va]))
    have hentry : Dir.entry (PageTable.readTable phys (level + 1) t) (Paging.px (level + 1) va.toNat) =
        some (PageTable.readTable phys level v) := congrArg (Option.map _) hv
    rw [hhere.readTable (by omega) ht, hnext, Option.map_some,
      ih h (by simp; omega) (table_concat ht hv) hu, Radix.store, ← Paging.px_eq_digit, hentry]
    rfl

end Tables

theorem walkLoop_false (va : UInt64) (hlevel : level ≤ 2) (t : UInt64) (s : Ram) :
    walkLoop false va level t s =
      .ok (((table s.phys t (way va level)).map fun u => slot u (index 0 va)).getD 0, s) := by
  induction level generalizing t with
  | zero =>
    rw [walkLoop, add_px (by omega)]
    rfl
  | succ level ih =>
    have hstep : table s.phys t (way va (level + 1)) =
        (next s.phys t (index (level + 1) va)).bind fun u => table s.phys u (way va level) := rfl
    rw [walkLoop, add_px hlevel, bind_of_ok rfl, hstep, next]
    split
    · exact ih (by omega) _
    · rfl

/-- `walk` without `alloc` returns the address of the entry, or null where a table is missing. -/
theorem walk_false {va : UInt64} (hva : va.toNat < maxva) (root : UInt64) (s : Ram) :
    walk root va false s = .ok ((entry s.phys root va).getD 0, s) := by
  rw [walk, if_neg (not_MAXVA_le hva)]
  exact walkLoop_false va le_rfl root s

section Walk

variable {s s' s'' : Ram} {root t va a b : UInt64} {p q : List (Fin 512)} {i : Fin 512}

/-- `s'` has the page-table pages of `s` and new ones, which are clear. -/
structure Grown (root : UInt64) (s s' : Ram) : Prop where
  tables : Tables s'.phys root
  fresh : Fresh s' root
  keeps : ∀ q t, q.length ≤ 2 → table s.phys root q = some t → table s'.phys root q = some t
  lowest : ∀ q t i, q.length = 2 → table s'.phys root q = some t →
    (table s.phys root q = some t ∧ word s'.phys (slot t i) = word s.phys (slot t i)) ∨
      (table s.phys root q = none ∧ word s'.phys (slot t i) = 0)

/-- A refused `kalloc` only uses up one answer of the allocator. -/
theorem Grown.idle (h : Tables s.phys root) (hf : Fresh s root) (hphys : s'.phys = s.phys)
    (hlist : s'.kmem.freelist = s.kmem.freelist) : Grown root s s' := by
  obtain ⟨phys, freelist, deny⟩ := s'
  subst hphys hlist
  exact ⟨h, ⟨hf.nodup, hf.page, hf.unused⟩, fun _ _ _ ht => ht, fun _ _ _ _ ht => .inl ⟨ht, rfl⟩⟩

theorem Grown.none_of_none (h : Grown root s s') (hq : q.length ≤ 2)
    (hnone : table s'.phys root q = none) : table s.phys root q = none := by
  cases hold : table s.phys root q with
  | none => rfl
  | some u =>
    rw [h.keeps q u hq hold] at hnone
    cases hnone

theorem Grown.trans (h : Grown root s s') (h' : Grown root s' s'') : Grown root s s'' where
  tables := h'.tables
  fresh := h'.fresh
  keeps q t hq ht := h'.keeps q t hq (h.keeps q t hq ht)
  lowest q t i hq ht := by
    rcases h'.lowest q t i hq ht with ⟨ht', hword⟩ | ⟨hnone, hword⟩
    · rcases h.lowest q t i hq ht' with ⟨hold, hword'⟩ | ⟨hold, hword'⟩
      · exact .inl ⟨hold, hword.trans hword'⟩
      · exact .inr ⟨hold, hword.trans hword'⟩
    · exact .inr ⟨h.none_of_none hq.le hnone, hword⟩

theorem Grown.entry {e : UInt64} (h : Grown root s s') (he : entry s.phys root va = some e) :
    entry s'.phys root va = some e := by
  obtain ⟨t, ht, rfl⟩ := entry_eq_some he
  exact entry_of_table (h.keeps _ t (by simp) ht)

/-- New tables are clear, so no page becomes mapped by adding them. -/
theorem Grown.translate (h : Grown root s s') (va : UInt64) :
    translate s'.phys root va = PageTable.translate s.phys root va := by
  cases ht : table s'.phys root [index 2 va, index 1 va] with
  | none =>
    have hold := h.none_of_none (by simp) ht
    rw [translate_of_none (entry_of_none hold), translate_of_none (entry_of_none ht)]
  | some t =>
    rw [translate_of_entry (entry_of_table ht)]
    rcases h.lowest _ t (index 0 va) (by simp) ht with ⟨hold, hword⟩ | ⟨hold, hword⟩
    · rw [translate_of_entry (entry_of_table hold), hword]
    · rw [translate_of_none (entry_of_none hold), hword]
      rfl

theorem kalloc_runs (s : Ram) :
    Runs kalloc s fun r s' =>
      (Paging.kalloc s.kmem = .ok (none, s'.kmem) ∧ r = 0 ∧
        s'.phys = s.phys ∧ s'.kmem.freelist = s.kmem.freelist) ∨
        ∃ c, Paging.kalloc s.kmem = .ok (some c, s'.kmem) ∧
          s.kmem.freelist = c :: s'.kmem.freelist ∧ r = UInt64.ofNat (c * pgsize) ∧
          s'.phys = memmove s.phys r.toNat (fun _ => 5) pgsize := by
  have hzoom : ∀ x k, Paging.kalloc s.kmem = .ok (x, k) →
      onKmem Paging.kalloc s = .ok (x, { s with kmem := k }) := by
    intro x k hk
    rw [onKmem, Fallible.zoom, hk]
  cases hlist : s.kmem.freelist with
  | nil =>
    have hrun : Paging.kalloc s.kmem = .ok (none, ⟨[], fun i => s.kmem.deny (i + 1)⟩) := by
      rw [Paging.kalloc, bind_of_ok rfl, hlist]
      rfl
    exact ⟨0, _, bind_of_ok (hzoom _ _ hrun), .inl ⟨hrun, rfl, rfl, rfl⟩⟩
  | cons c rest =>
    cases hdeny : s.kmem.deny 0 with
    | true =>
      have hrun : Paging.kalloc s.kmem = .ok (none, ⟨c :: rest, fun i => s.kmem.deny (i + 1)⟩) := by
        rw [Paging.kalloc, bind_of_ok rfl, hlist]
        simp only [hdeny, if_true]
        rfl
      exact ⟨0, _, bind_of_ok (hzoom _ _ hrun), .inl ⟨hrun, rfl, rfl, rfl⟩⟩
    | false =>
      have hrun : Paging.kalloc s.kmem = .ok (some c, ⟨rest, fun i => s.kmem.deny (i + 1)⟩) := by
        rw [Paging.kalloc, bind_of_ok rfl, hlist]
        simp only [hdeny]
        rfl
      exact ⟨_, _, bind_of_ok (hzoom _ _ hrun), .inr ⟨c, hrun, rfl, rfl, rfl⟩⟩

variable {r : ℕ}

theorem toNat_page (h : r < 2 ^ 52) : (UInt64.ofNat (r * pgsize)).toNat = r * 4096 := by
  rw [UInt64.toNat_ofNat', pgsize]
  omega

theorem page_ne_zero (hpos : 0 < r) (h : r < 2 ^ 52) : UInt64.ofNat (r * pgsize) ≠ 0 := by
  intro hzero
  have hnat := congrArg UInt64.toNat hzero
  rw [toNat_page h, UInt64.toNat_zero] at hnat
  omega

theorem page_inj {r' : ℕ} (h : r < 2 ^ 52) (h' : r' < 2 ^ 52)
    (heq : UInt64.ofNat (r * pgsize) = UInt64.ofNat (r' * pgsize)) : r = r' := by
  have hnat := congrArg UInt64.toNat heq
  rw [toNat_page h, toNat_page h'] at hnat
  omega

def graft (phys : Memory) (e u : UInt64) : Memory :=
  store 8 (memmove (memmove phys u.toNat (fun _ => 5) pgsize) u.toNat (fun _ => 0) pgsize) e.toNat
    (pa2pte u ||| pteV).toNat

theorem grafts (h : Tables s.phys root) (hp : p.length < 2) (ht : table s.phys root p = some t)
    (hnone : next s.phys t i = none) {u : UInt64} (hu : u.toNat % 4096 = 0)
    (hfree : ∀ q, q.length ≤ 2 → table s.phys root q ≠ some u) :
    Grafts (next s.phys) (next (graft s.phys (slot t i) u)) root 2 p i u ∧
      (∀ j, word (graft s.phys (slot t i) u) (slot u j) = 0) ∧
      ∀ q v j, q.length ≤ 2 → table s.phys root q = some v → (q ≠ p ∨ j ≠ i) →
        word (graft s.phys (slot t i) u) (slot v j) = word s.phys (slot v j) := by
  have hta := table_aligned h.aligned ht
  have hut : u ≠ t := by
    rintro rfl
    exact hfree p hp.le ht
  have hclear : ∀ j, word (graft s.phys (slot t i) u) (slot u j) = 0 := by
    intro j
    rw [graft, word_store_slot hta hu (.inl hut), word_fill_zero hu]
  have hsame : ∀ q v j, q.length ≤ 2 → table s.phys root q = some v → (q ≠ p ∨ j ≠ i) →
      word (graft s.phys (slot t i) u) (slot v j) = word s.phys (slot v j) := by
    intro q v j hq hv hne
    have hva := table_aligned h.aligned hv
    have hvu : v ≠ u := by
      rintro rfl
      exact hfree q hq hv
    have hvt : v ≠ t ∨ j ≠ i := by
      rcases hne with hne | hne
      · left
        rintro rfl
        exact hne (h.apart q p v hq hp.le hv ht)
      · exact .inr hne
    rw [graft, word_store_slot hta hva hvt]
    apply word_of_page hu hva hvu
    intro b hb
    have hout : b < u.toNat ∨ u.toNat + pgsize ≤ b := hb
    rw [memmove_outside _ _ hout, memmove_outside _ _ hout]
  refine ⟨⟨hp, hfree, ⟨t, ht, hnone, ?_⟩, ?_, ?_⟩, hclear, hsame⟩
  · have hflag : pteV.toNat < 1024 := by decide
    have hround : pgRoundDown u = u := by
      apply UInt64.toNat_inj.mp
      rw [toNat_pgRoundDown]
      omega
    rw [next, graft, word_store_self, if_pos (or_pteV_and _), pte2pa_pa2pte_or u hflag, hround]
  · intro j
    rw [next, hclear j]
    rfl
  · intro q v j hq hv hne
    exact next_congr (hsame q v j hq hv hne)

theorem Grown.graft (s' : Ram) (h : Tables s.phys root) (hf : Fresh s root) (hp : p.length < 2)
    (ht : table s.phys root p = some t) (hnone : next s.phys t i = none) {c : ℕ}
    (hlist : s.kmem.freelist = c :: s'.kmem.freelist)
    (hphys : s'.phys = PageTable.graft s.phys (slot t i) (UInt64.ofNat (c * pgsize))) :
    Grown root s s' ∧ table s'.phys root (p ++ [i]) = some (UInt64.ofNat (c * pgsize)) ∧
      Elsewhere root (p ++ [i]) s.phys s'.phys ∧
      ∀ j, next s'.phys (UInt64.ofNat (c * pgsize)) j = none := by
  have hc : c ∈ s.kmem.freelist := by
    rw [hlist]
    exact mem_cons_self
  have hnodup := hf.nodup
  rw [hlist] at hnodup
  obtain ⟨hcpos, hclt⟩ := hf.page c hc
  have hu := toNat_page hclt
  obtain ⟨hgraft, hclear, hsame⟩ := grafts h hp ht hnone (by omega) (hf.unused c hc)
  rw [← hphys] at hgraft hclear hsame
  have hrest : ∀ r ∈ s'.kmem.freelist, r ∈ s.kmem.freelist := by
    intro r hr
    rw [hlist]
    exact mem_cons_of_mem c hr
  refine ⟨⟨⟨⟨h.aligned, ?_⟩, hgraft.apart h.apart⟩, ⟨hnodup.of_cons, ?_, ?_⟩, ?_, ?_⟩, ?_, ?_,
    hgraft.bare⟩
  · intro q hq hzero
    rw [table, hgraft.follow_eq hq] at hzero
    split at hzero
    · exact page_ne_zero hcpos hclt (Option.some.inj hzero)
    · exact h.nonnull q hq hzero
  · intro r hr
    exact hf.page r (hrest r hr)
  · intro r hr q hq hsome
    rw [table, hgraft.follow_eq hq] at hsome
    split at hsome
    · have heq := page_inj hclt (hf.page r (hrest r hr)).2 (Option.some.inj hsome)
      subst heq
      exact (nodup_cons.mp hnodup).1 hr
    · exact hf.unused r (hrest r hr) q hq hsome
  · intro q v hq hv
    exact hgraft.follow_of_some hq hv
  · intro q v j hq hv
    rw [table, hgraft.follow_eq hq.le] at hv
    split at hv
    · rename_i hnew
      cases hv
      right
      refine ⟨?_, hclear j⟩
      rw [hnew, table, follow_concat, show follow (next s.phys) root p = some t from ht]
      exact hnone
    · left
      refine ⟨hv, hsame q v j hq.le hv (.inl ?_)⟩
      rintro rfl
      omega
  · rw [table, hgraft.follow_eq (by simpa using hp), if_pos rfl]
  · intro q v j hq hv hoff
    refine hsame q v j hq hv ?_
    by_contra hhere
    push Not at hhere
    rw [hhere.1, hhere.2] at hoff
    exact hoff prefix_rfl

/-- The walk below the node `t` that `p` leads to: only what lies below it has changed,
and on the tree of the table `walk` does the same. -/
structure Walked (root va : UInt64) (p : List (Fin 512)) (level : ℕ) (t : UInt64)
    (s : Ram) (r : UInt64) (s' : Ram) : Prop where
  grown : Grown root s s'
  elsewhere : Elsewhere root p s.phys s'.phys
  reads : Paging.walkFrom true level (readTable s.phys level t) va.toNat s.kmem =
    .ok ((readTable s'.phys level t, decide (r ≠ 0)), s'.kmem)
  found : r = 0 ∨ ∃ u, table s'.phys root (p ++ way va level) = some u ∧ r = slot u (index 0 va)

theorem Elsewhere.child {u : UInt64} {level : ℕ} (h : Elsewhere root (p ++ [i]) s.phys s'.phys)
    (hg : Grown root s s') (hlevel : p.length + level = 1) (ht : table s.phys root p = some t)
    (hu : table s'.phys root (p ++ [i]) = some u) :
    PageTable.readTable s'.phys (level + 1) t = Dir.set (PageTable.readTable s.phys (level + 1) t) i
      (some (PageTable.readTable s'.phys level u)) := by
  have ht' := hg.keeps p t (by omega) ht
  rw [table, follow_concat, show follow (next s'.phys) root p = some t from ht'] at hu
  rw [h.readTable hlevel ht, show next s'.phys t i = some u from hu]
  rfl

theorem walkLoop_true {level : ℕ} (hlevel : p.length + level = 2) (h : Tables s.phys root)
    (hf : Fresh s root) (ht : table s.phys root p = some t) :
    Runs (walkLoop true va level t) s (Walked root va p level t s) := by
  induction level generalizing s t p with
  | zero =>
    have hne := h.slot_ne_zero (by omega) ht (index 0 va)
    rw [walkLoop, add_px (by omega)]
    refine .pure ⟨.idle h hf rfl rfl, fun _ _ _ _ _ _ => rfl, ?_, .inr ⟨t, ?_, rfl⟩⟩
    · rw [decide_eq_true hne]
      rfl
    · rw [way, append_nil]
      exact ht
  | succ level ih =>
    have hpath : p ++ way va (level + 1) = (p ++ [index (level + 1) va]) ++ way va level := by
      simp [way]
    have hlen : (p ++ [index (level + 1) va]).length + level = 2 := by
      simp
      omega
    have hbelow := prefix_append p [index (level + 1) va]
    have hentry : Dir.entry (readTable s.phys (level + 1) t) (Paging.px (level + 1) va.toNat) =
        (next s.phys t (index (level + 1) va)).map (readTable s.phys level) := rfl
    rw [walkLoop, add_px (by omega)]
    apply runs_get_bind
    by_cases hvalid : word s.phys (slot t (index (level + 1) va)) &&& pteV ≠ 0
    · rw [if_pos hvalid]
      have hnext : next s.phys t (index (level + 1) va) = some _ := if_pos hvalid
      have hchild := table_concat ht hnext
      refine .mono (ih hlen h hf hchild) ?_
      rintro r s' ⟨hgrown, helse, hreads, hfound⟩
      refine ⟨hgrown, helse.mono hbelow, ?_, by rwa [hpath]⟩
      rw [hnext] at hentry
      rw [Paging.walkFrom, hentry, helse.child hgrown (by omega) ht (hgrown.keeps _ _ (by omega) hchild)]
      exact bind_of_ok hreads
    · rw [if_neg hvalid]
      have hnone : next s.phys t (index (level + 1) va) = none := if_neg hvalid
      rw [hnone] at hentry
      refine .bind (kalloc_runs s) ?_
      rintro r s1 (⟨hkalloc, rfl, hphys, hlist⟩ | ⟨c, hkalloc, hlist, hr, hphys⟩)
      · refine .pure ⟨.idle h hf hphys hlist, fun _ _ _ _ _ _ => by rw [hphys], ?_, .inl rfl⟩
        rw [Paging.walkFrom, hentry, hphys]
        exact bind_of_ok hkalloc
      · have hc : c ∈ s.kmem.freelist := by
          rw [hlist]
          exact mem_cons_self
        obtain ⟨hcpos, hclt⟩ := hf.page c hc
        have hne : r ≠ 0 := by
          rw [hr]
          exact page_ne_zero hcpos hclt
        rw [if_neg hne]
        apply runs_modify_bind
        apply runs_modify_bind
        obtain ⟨hgrown, hnew, helse, hbare⟩ := Grown.graft
          ⟨graft s.phys (slot t (index (level + 1) va)) r, s1.kmem⟩ h hf (by omega) ht hnone hlist
          (congrArg (graft s.phys (slot t (index (level + 1) va))) hr)
        rw [← hr] at hnew hbare
        dsimp only
        rw [hphys]
        change Runs _ (⟨graft s.phys (slot t (index (level + 1) va)) r, s1.kmem⟩ : Ram) _
        refine .mono (ih hlen hgrown.tables hgrown.fresh hnew) ?_
        rintro e s3 ⟨hgrown', helse', hreads, hfound⟩
        have hall := hgrown.trans hgrown'
        have helse2 : Elsewhere root (p ++ [index (level + 1) va]) s.phys s3.phys :=
          fun q u j hq hu hoff => (helse' q u j hq (hgrown.keeps q u hq hu) hoff).trans
            (helse q u j hq hu hoff)
        have hpage : r.toNat / pgsize = c := by
          rw [hr, toNat_page hclt]
          exact Nat.mul_div_cancel c (by norm_num)
        refine ⟨hall, helse2.mono hbelow, ?_, by rwa [hpath]⟩
        rw [readTable_bare hbare, hpage] at hreads
        rw [Paging.walkFrom, hentry, helse2.child hall (by omega) ht (hgrown'.keeps _ _ (by omega) hnew)]
        exact (bind_of_ok hkalloc).trans (bind_of_ok hreads)

theorem walk_true (hva : va.toNat < maxva) (h : Tables s.phys root) (hf : Fresh s root) :
    Runs (walk root va true) s (Walked root va [] 2 root s) := by
  rw [walk, if_neg (not_MAXVA_le hva)]
  exact walkLoop_true rfl h hf rfl

theorem Walked.entry {r : UInt64} (h : Walked root va [] 2 root s r s') :
    r = 0 ∨ entry s'.phys root va = some r := by
  rcases h.found with hzero | ⟨u, hu, rfl⟩
  · exact .inl hzero
  · exact .inr (entry_of_table hu)

theorem Walked.granted {r : UInt64} {n : ℕ} (h : Walked root va [] 2 root s r s')
    (hs : Paging.Stocked s.kmem (n + 2)) : r ≠ 0 ∧ Paging.Stocked s'.kmem n := by
  obtain ⟨hok, hs'⟩ := Paging.grants_walkFrom 2 _ _ n _ _ _ h.reads hs
  exact ⟨of_decide_eq_true hok, hs'⟩

theorem Walked.walk {r : UInt64} (h : Walked root va [] 2 root s r s') (hva : va.toNat < maxva) :
    Paging.walk (readTable s.phys 2 root) va.toNat true s.kmem =
      .ok ((readTable s'.phys 2 root, decide (r ≠ 0)), s'.kmem) := by
  rw [Paging.walk, if_neg (not_le.mpr hva)]
  exact h.reads

end Walk

end Xv6MallocLab.PageTable
