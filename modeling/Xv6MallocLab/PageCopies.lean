import Xv6MallocLab.PageTableMaps
import Xv6MallocLab.UserCopies

/-!
# Copies between the kernel and user memory

`copyout`, `copyin` and `copyinstr` on the words of a page table: every page of the range
is looked up in the memory that the copy itself changes.  A kernel buffer is a memory of
its own, apart from the pages of the table and of the process.
-/

namespace Xv6MallocLab.PageTable

open ByteMemory Function PointerTree
open Paging (pgsize maxva Image Kmem Panic memmove userPage paddr copyoutTo copyinFrom storeUser
  loadUser reach)

/-- How many of `len` bytes at `va` lie on its page. -/
def piece (va len : UInt64) : UInt64 :=
  if len < PGSIZE - (va - pgRoundDown va) then len else PGSIZE - (va - pgRoundDown va)

def move (dst : UInt64) (src : Memory) (n : UInt64) : RamM Unit :=
  modify fun s => { s with phys := memmove s.phys dst.toNat src n.toNat }

theorem toNat_offset (va : UInt64) : (va - pgRoundDown va).toNat = va.toNat % 4096 := by
  have hround := toNat_pgRoundDown va
  rw [UInt64.toNat_sub_of_le va _ (UInt64.le_iff_toNat_le.mpr (by omega)), hround]
  omega

theorem toNat_piece (va len : UInt64) :
    (piece va len).toNat = min (4096 - va.toNat % 4096) len.toNat := by
  have hoff := toNat_offset va
  have hrest : (PGSIZE - (va - pgRoundDown va)).toNat = 4096 - va.toNat % 4096 := by
    rw [UInt64.toNat_sub_of_le _ _ (UInt64.le_iff_toNat_le.mpr (by rw [hoff, toNat_PGSIZE]; omega)),
      hoff, toNat_PGSIZE]
  rw [piece]
  split
  · rename_i hlt
    rw [UInt64.lt_iff_toNat_lt, hrest] at hlt
    omega
  · rename_i hge
    rw [UInt64.lt_iff_toNat_lt, hrest] at hge
    rw [hrest]
    omega

theorem toNat_sub_piece (va len : UInt64) :
    (len - piece va len).toNat = len.toNat - min (4096 - va.toNat % 4096) len.toNat := by
  have hpiece := toNat_piece va len
  rw [UInt64.toNat_sub_of_le _ _ (UInt64.le_iff_toNat_le.mpr (by omega)), hpiece]

theorem sub_piece_lt (va : UInt64) {len : UInt64} (h : len ≠ 0) :
    (len - piece va len).toNat < len.toNat := by
  have hne : len.toNat ≠ 0 := fun hzero => h (UInt64.toNat_inj.mp hzero)
  rw [toNat_sub_piece]
  omega

/-- `copyout`, page by page; -1 at a page that is not the user's. -/
def copyout (pagetable dstva : UInt64) (src : Memory) (len : UInt64) : RamM ℤ :=
  if _h : len = 0 then return 0
  else do
    let va0 := pgRoundDown dstva
    let pa0 ← walkaddr pagetable va0
    if pa0 = 0 then return -1
    else do
      let n := piece dstva len
      move (pa0 + (dstva - va0)) src n
      copyout pagetable (va0 + PGSIZE) (fun j => src (n.toNat + j)) (len - n)
termination_by len.toNat
decreasing_by exact sub_piece_lt dstva _h

/-- `copyin` to `buf`, from `dst` on. -/
def copyin (pagetable : UInt64) (buf : Memory) (dst : ℕ) (srcva len : UInt64) : RamM (Memory × ℤ) :=
  if _h : len = 0 then return (buf, 0)
  else do
    let va0 := pgRoundDown srcva
    let pa0 ← walkaddr pagetable va0
    if pa0 = 0 then return (buf, -1)
    else do
      let n := piece srcva len
      let s ← get
      let buf := memmove buf dst (fun j => s.phys ((pa0 + (srcva - va0)).toNat + j)) n.toNat
      copyin pagetable buf (dst + n.toNat) (va0 + PGSIZE) (len - n)
termination_by len.toNat
decreasing_by exact sub_piece_lt srcva _h

structure Scan where
  buf : Memory
  dst : ℕ
  max : UInt64
  gotNull : Bool

/-- The inner loop of `copyinstr`, over `n` bytes of a page. -/
def scanPage (phys : Memory) : (n : ℕ) → (p : ℕ) → Memory → ℕ → UInt64 → Scan
  | 0, _, buf, dst, max => ⟨buf, dst, max, false⟩
  | n + 1, p, buf, dst, max =>
    if phys p = 0 then ⟨update buf dst 0, dst, max, true⟩
    else scanPage phys n (p + 1) (update buf dst (phys p)) (dst + 1) (max - 1)

theorem scanPage_max {phys : Memory} {n p dst : ℕ} {buf : Memory} {max : UInt64}
    (h : (scanPage phys n p buf dst max).gotNull = false) :
    (scanPage phys n p buf dst max).max = max - UInt64.ofNat n := by
  induction n generalizing p buf dst max with
  | zero => simp [scanPage]
  | succ n ih =>
    rw [scanPage] at h ⊢
    split at h
    · cases h
    · rename_i hbyte
      rw [if_neg hbyte, ih h, UInt64.ofNat_add]
      grind

/-- `copyinstr`: up to the zero byte, or -1 after `max` bytes. -/
def copyinstr (pagetable : UInt64) (buf : Memory) (dst : ℕ) (srcva max : UInt64) :
    RamM (Memory × ℤ) :=
  if _h : max = 0 then return (buf, -1)
  else do
    let va0 := pgRoundDown srcva
    let pa0 ← walkaddr pagetable va0
    if pa0 = 0 then return (buf, -1)
    else do
      let s ← get
      let c := scanPage s.phys (piece srcva max).toNat (pa0 + (srcva - va0)).toNat buf dst max
      if _hnull : c.gotNull then return (c.buf, 0)
      else copyinstr pagetable c.buf c.dst (va0 + PGSIZE) c.max
termination_by max.toNat
decreasing_by
  have hrest := scanPage_max (eq_false_of_ne_true _hnull)
  rw [UInt64.ofNat_toNat] at hrest
  rw [hrest]
  exact sub_piece_lt srcva _h

section Read

variable {root : UInt64}

theorem pte2pa_page (e : UInt64) : UInt64.ofNat ((pte2pa e).toNat / pgsize * pgsize) = pte2pa e := by
  have hmul : (pte2pa e).toNat / pgsize * pgsize = (pte2pa e).toNat := by
    rw [toNat_pte2pa]
    exact congrArg (· * 4096) (Nat.mul_div_cancel _ (by norm_num))
  rw [hmul, UInt64.ofNat_toNat]

theorem walkaddr_run {s : Ram} (h : Placed s.phys root) (va : UInt64) :
    walkaddr root va s =
      .ok (((userPage (readTable s.phys 2 root) va.toNat).map fun q => UInt64.ofNat (q * pgsize)).getD 0,
        s) := by
  rw [walkaddr, userPage]
  by_cases hva : MAXVA ≤ va
  · have hva' : maxva ≤ va.toNat := UInt64.le_iff_toNat_le.mp hva
    rw [if_pos hva, if_pos hva']
    rfl
  · have hva' : va.toNat < maxva := by
      rw [UInt64.le_iff_toNat_le] at hva
      exact not_le.mp hva
    rw [if_neg hva, if_neg (not_le.mpr hva'), bind_of_ok (walk_false hva' root s), pte_readTable]
    cases he : entry s.phys root va with
    | none =>
      rw [translate_of_none he]
      rfl
    | some e =>
      rw [Option.getD_some, if_neg (h.entry_ne_zero he), bind_of_ok rfl, translate_of_entry he]
      by_cases hvalid : word s.phys e &&& pteV ≠ 0
      · rw [if_neg hvalid, if_pos hvalid, Option.map_some]
        by_cases huser : word s.phys e &&& pteU = 0
        · have hu : (readPte (word s.phys e)).perm.u = false := by simp [readPte, huser]
          simp only [huser, hu, Bool.not_false, if_true]
          rfl
        · have hu : (readPte (word s.phys e)).perm.u = true := by simp [readPte, huser]
          simp only [huser, hu, Bool.not_true, Bool.false_eq_true, if_false]
          exact congrArg (fun pa => Except.ok (pa, s)) (pte2pa_page _).symm
      · rw [if_pos (not_not.mp hvalid), if_neg hvalid]
        rfl

end Read

/-- The pages behind the addresses of a table: distinct, none at 0, and none of the
table itself. -/
structure Leaves (phys : Memory) (root : UInt64) : Prop where
  distinct : ∀ a b e e', a < MAXVA → b < MAXVA → translate phys root a = some e →
    translate phys root b = some e' → pte2pa e = pte2pa e' → pgRoundDown a = pgRoundDown b
  ne_zero : ∀ a e, a < MAXVA → translate phys root a = some e → pte2pa e ≠ 0
  data : ∀ a e p, a < MAXVA → translate phys root a = some e → p.length ≤ 2 →
    table phys root p ≠ some (pte2pa e)

section Pages

variable {s : Ram} {phys phys' : Memory} {root va a b : UInt64} {q : ℕ}

theorem Leaves.congr (hl : Leaves phys root) (h : SameWords phys phys' root) : Leaves phys' root where
  distinct a b e e' ha hb hae hbe := by
    rw [h.translate] at hae hbe
    exact hl.distinct a b e e' ha hb hae hbe
  ne_zero a e ha hae := by
    rw [h.translate] at hae
    exact hl.ne_zero a e ha hae
  data a e p ha hae hp := by
    rw [h.translate] at hae
    rw [h.table hp]
    exact hl.data a e p ha hae hp

theorem userPage_readTable (h : userPage (readTable phys 2 root) a.toNat = some q) :
    a.toNat < maxva ∧ ∃ e, translate phys root a = some e ∧ e &&& pteU ≠ 0 ∧
      q = (pte2pa e).toNat / 4096 := by
  rw [userPage] at h
  split at h
  · cases h
  · rename_i hlt
    refine ⟨not_le.mp hlt, ?_⟩
    rw [pte_readTable] at h
    cases he : translate phys root a with
    | none =>
      rw [he] at h
      cases h
    | some e =>
      rw [he, Option.map_some] at h
      refine ⟨e, rfl, ?_⟩
      by_cases huser : e &&& pteU = 0
      · simp [readPte, huser] at h
      · simp only [readPte, huser, ne_eq, not_false_eq_true, decide_true, Bool.not_true,
          Bool.false_eq_true, if_false, Option.some.injEq] at h
        exact ⟨huser, h.symm⟩

structure Page (s : Ram) (root va : UInt64) (q : ℕ) (pa0 : UInt64) : Prop where
  walk : walkaddr root (pgRoundDown va) s = .ok (pa0, s)
  ne_zero : pa0 ≠ 0
  start : (pa0 + (va - pgRoundDown va)).toNat = q * pgsize + (va.toNat - Paging.pgRoundDown va.toNat)
  next : (pgRoundDown va + PGSIZE).toNat = Paging.pgRoundDown va.toNat + pgsize
  other : ∀ phys', (∀ b, b < q * 4096 ∨ q * 4096 + 4096 ≤ b → phys' b = s.phys b) →
    SameWords s.phys phys' root

theorem pgRoundDown_toNat (va : UInt64) : (pgRoundDown va).toNat = Paging.pgRoundDown va.toNat :=
  toNat_pgRoundDown va

theorem page_of_userPage (h : Placed s.phys root) (hl : Leaves s.phys root)
    (hq : userPage (readTable s.phys 2 root) (Paging.pgRoundDown va.toNat) = some q) :
    ∃ pa0, Page s root va q pa0 := by
  rw [← pgRoundDown_toNat] at hq
  obtain ⟨hlt, e, he, -, rfl⟩ := userPage_readTable hq
  have hmax : pgRoundDown va < MAXVA := UInt64.lt_iff_toNat_lt.mpr hlt
  have hpa := toNat_pte2pa e
  have hround := toNat_pgRoundDown va
  have hmul : (pte2pa e).toNat / 4096 * 4096 = (pte2pa e).toNat := by
    rw [hpa]
    omega
  refine ⟨pte2pa e, ?_, hl.ne_zero _ e hmax he, ?_, ?_, ?_⟩
  · rw [walkaddr_run h, hq]
    exact congrArg (fun pa => Except.ok (pa, s)) (pte2pa_page e)
  · have hoff := toNat_offset va
    have hlt := (pte2pa e).toNat_lt
    rw [UInt64.toNat_add, hoff]
    simp only [pgsize, Paging.pgRoundDown]
    omega
  · rw [toNat_add_PGSIZE hlt, pgRoundDown_toNat]
    rfl
  · intro phys' hsame
    rw [hmul] at hsame
    exact sameWords_of_page h.aligned (by omega) (fun p hp => hl.data _ e p hmax he hp) hsame

theorem walkaddr_of_none (h : Placed s.phys root)
    (hq : userPage (readTable s.phys 2 root) (Paging.pgRoundDown va.toNat) = none) :
    walkaddr root (pgRoundDown va) s = .ok (0, s) := by
  rw [walkaddr_run h, pgRoundDown_toNat, hq]
  rfl

theorem min_piece (va len : UInt64) :
    min (pgsize - (va.toNat - Paging.pgRoundDown va.toNat)) len.toNat = (piece va len).toNat := by
  rw [toNat_piece]
  simp only [pgsize, Paging.pgRoundDown]
  omega

theorem toNat_len_sub_piece (va len : UInt64) :
    (len - piece va len).toNat = len.toNat - (piece va len).toNat := by
  rw [toNat_sub_piece, toNat_piece]

theorem outside_of_page (va len : UInt64) {q b : ℕ} (hb : b < q * 4096 ∨ q * 4096 + 4096 ≤ b) :
    b < q * pgsize + (va.toNat - Paging.pgRoundDown va.toNat) ∨
      q * pgsize + (va.toNat - Paging.pgRoundDown va.toNat) + (piece va len).toNat ≤ b := by
  have hle : (piece va len).toNat ≤ 4096 - va.toNat % 4096 := by
    rw [toNat_piece]
    exact min_le_left _ _
  have hoff : va.toNat - Paging.pgRoundDown va.toNat = va.toNat % 4096 := by
    rw [Paging.pgRoundDown, pgsize]
    omega
  rw [hoff, show pgsize = 4096 from rfl]
  generalize q * 4096 = page at hb ⊢
  omega

def status (ok : Bool) : ℤ := if ok then 0 else -1

theorem copyout_run (s : Ram) (h : Placed s.phys root) (hl : Leaves s.phys root)
    (dstva : UInt64) (src : Memory)
    (len : UInt64) :
    copyout root dstva src len s =
      .ok (status (copyoutTo (readTable s.phys 2 root) dstva.toNat src len.toNat s.phys).2,
        { s with phys :=
          (copyoutTo (readTable s.phys 2 root) dstva.toNat src len.toNat s.phys).1 }) := by
  induction hn : len.toNat using Nat.strong_induction_on generalizing s dstva src len with
  | _ n ih =>
    subst hn
    by_cases hlen : len = 0
    · subst hlen
      rw [copyout, dif_pos rfl, UInt64.toNat_zero, Paging.copyoutTo_zero]
      rfl
    · have hlen' : len.toNat ≠ 0 := fun hzero => hlen (UInt64.toNat_inj.mp hzero)
      rw [copyout, dif_neg hlen, copyoutTo, dif_neg hlen']
      cases hq : userPage (readTable s.phys 2 root) (Paging.pgRoundDown dstva.toNat) with
      | none =>
        rw [bind_of_ok (walkaddr_of_none h hq), if_pos rfl]
        rfl
      | some q =>
        obtain ⟨pa0, hpage⟩ := page_of_userPage h hl hq
        rw [bind_of_ok hpage.walk, if_neg hpage.ne_zero, bind_of_ok rfl]
        dsimp only
        rw [hpage.start, min_piece]
        generalize hphys : memmove s.phys _ src (piece dstva len).toNat = phys1
        have hsame : SameWords s.phys phys1 root := by
          apply hpage.other
          intro b hb
          rw [← hphys]
          exact memmove_outside _ _ (outside_of_page dstva len hb)
        rw [ih _ (sub_piece_lt dstva hlen) ⟨phys1, s.kmem⟩ (hsame.placed h) (hl.congr hsame)
          (pgRoundDown dstva + PGSIZE) _ _ rfl]
        dsimp only
        rw [readTable_congr (p := []) (by simp) rfl fun q t j _ => hsame q t j, hpage.next,
          toNat_len_sub_piece]

theorem copyin_run (h : Placed s.phys root) (hl : Leaves s.phys root) (buf : Memory) (dst : ℕ)
    (srcva len : UInt64) :
    copyin root buf dst srcva len s =
      .ok (((copyinFrom (readTable s.phys 2 root) s.phys srcva.toNat len.toNat buf dst).1,
        status (copyinFrom (readTable s.phys 2 root) s.phys srcva.toNat len.toNat buf dst).2), s) := by
  induction hn : len.toNat using Nat.strong_induction_on generalizing buf dst srcva len with
  | _ n ih =>
    subst hn
    by_cases hlen : len = 0
    · subst hlen
      rw [copyin, dif_pos rfl, UInt64.toNat_zero, copyinFrom, dif_pos rfl]
      rfl
    · have hlen' : len.toNat ≠ 0 := fun hzero => hlen (UInt64.toNat_inj.mp hzero)
      rw [copyin, dif_neg hlen, copyinFrom, dif_neg hlen']
      cases hq : userPage (readTable s.phys 2 root) (Paging.pgRoundDown srcva.toNat) with
      | none =>
        rw [bind_of_ok (walkaddr_of_none h hq), if_pos rfl]
        rfl
      | some q =>
        obtain ⟨pa0, hpage⟩ := page_of_userPage h hl hq
        rw [bind_of_ok hpage.walk, if_neg hpage.ne_zero, bind_of_ok rfl]
        dsimp only
        rw [hpage.start, min_piece, ih _ (sub_piece_lt srcva hlen) _ _ _ _ rfl, hpage.next,
          toNat_len_sub_piece]

def copyStr (byte : ℕ → Option UInt8) : (max : ℕ) → (a : ℕ) → Memory → ℕ → Memory × Bool
  | 0, _, buf, _ => (buf, false)
  | max + 1, a, buf, dst =>
    match byte a with
    | none => (buf, false)
    | some c =>
      if c = 0 then (update buf dst 0, true)
      else copyStr byte max (a + 1) (update buf dst c) (dst + 1)

variable {byte : ℕ → Option UInt8}

theorem copyStr_page {n max a p dst : ℕ} {buf : Memory} (c : UInt64) (hn : n ≤ max)
    (hbyte : ∀ j < n, byte (a + j) = some (phys (p + j))) :
    copyStr byte max a buf dst =
      if (scanPage phys n p buf dst c).gotNull then ((scanPage phys n p buf dst c).buf, true)
      else copyStr byte (max - n) (a + n) (scanPage phys n p buf dst c).buf
        (scanPage phys n p buf dst c).dst := by
  induction n generalizing max a p dst buf c with
  | zero => simp [scanPage]
  | succ n ih =>
    obtain ⟨max, rfl⟩ : ∃ m, max = m + 1 := ⟨max - 1, by omega⟩
    have hfirst := hbyte 0 (Nat.succ_pos n)
    rw [add_zero, add_zero] at hfirst
    rw [copyStr, hfirst, scanPage]
    dsimp only
    by_cases hnul : phys p = 0
    · rw [if_pos hnul, if_pos hnul, if_pos rfl]
    · have hrest : ∀ j < n, byte (a + 1 + j) = some (phys (p + 1 + j)) := by
        intro j hj
        rw [add_assoc, add_comm 1 j, hbyte (j + 1) (by omega), add_assoc, add_comm 1 j]
      rw [if_neg hnul, if_neg hnul, ih (c - 1) (by omega) hrest, add_assoc, add_comm 1 n,
        show max + 1 - (n + 1) = max - n by omega]

theorem copyinstr_run (h : Placed s.phys root) (hl : Leaves s.phys root) (buf : Memory) (dst : ℕ)
    (srcva max : UInt64) (hbyte : byte = fun a => (paddr (readTable s.phys 2 root) a).map s.phys) :
    copyinstr root buf dst srcva max s =
      .ok (((copyStr byte max.toNat srcva.toNat buf dst).1,
        status (copyStr byte max.toNat srcva.toNat buf dst).2), s) := by
  induction hn : max.toNat using Nat.strong_induction_on generalizing buf dst srcva max with
  | _ n ih =>
    subst hn
    by_cases hmax : max = 0
    · subst hmax
      rw [copyinstr, dif_pos rfl, UInt64.toNat_zero]
      rfl
    · have hmax' : max.toNat ≠ 0 := fun hzero => hmax (UInt64.toNat_inj.mp hzero)
      rw [copyinstr, dif_neg hmax]
      cases hq : userPage (readTable s.phys 2 root) (Paging.pgRoundDown srcva.toNat) with
      | none =>
        have hnone : byte srcva.toNat = none := by
          rw [hbyte]
          dsimp only
          rw [paddr, Paging.userPage_congr _ (Paging.div_pgRoundDown srcva.toNat).symm, hq]
          rfl
        obtain ⟨m, hm⟩ : ∃ m, max.toNat = m + 1 := ⟨max.toNat - 1, by omega⟩
        rw [bind_of_ok (walkaddr_of_none h hq), if_pos rfl, hm, copyStr, hnone]
        rfl
      | some q =>
        obtain ⟨pa0, hpage⟩ := page_of_userPage h hl hq
        rw [bind_of_ok hpage.walk, if_neg hpage.ne_zero, bind_of_ok rfl]
        rw [hpage.start]
        have hle : (piece srcva max).toNat ≤ max.toNat := by
          rw [toNat_piece]
          exact min_le_right _ _
        have hin : ∀ j < (piece srcva max).toNat, byte (srcva.toNat + j) =
            some (s.phys (q * pgsize + (srcva.toNat - Paging.pgRoundDown srcva.toNat) + j)) := by
          intro j hj
          rw [← min_piece] at hj
          rw [hbyte]
          dsimp only
          rw [(Paging.paddr_page hq (by omega)).2, add_assoc]
          rfl
        rw [copyStr_page max hle hin]
        generalize hscan : scanPage s.phys (piece srcva max).toNat _ buf dst max = c
        cases hnull : c.gotNull with
        | true =>
          rw [dif_pos rfl, if_pos rfl]
          rfl
        | false =>
          have hrest : c.max = max - piece srcva max := by
            rw [← hscan] at hnull ⊢
            rw [scanPage_max hnull, UInt64.ofNat_toNat]
          rw [dif_neg Bool.false_ne_true, if_neg Bool.false_ne_true, hrest,
            ih _ (sub_piece_lt srcva hmax) _ _ _ _ rfl, hpage.next, toNat_len_sub_piece]
          -- the string goes on at the next page, unless `max` is used up
          by_cases hlast : max.toNat - (piece srcva max).toNat = 0
          · rw [hlast, copyStr, copyStr]
          · have hnext : srcva.toNat + (piece srcva max).toNat =
                Paging.pgRoundDown srcva.toNat + pgsize := by
              rw [toNat_piece] at hlast ⊢
              simp only [Paging.pgRoundDown, pgsize]
              omega
            rw [hnext]

end Pages

section Strings

variable {byte : ℕ → Option UInt8} {max a dst k : ℕ} {buf : Memory}

def Ends (byte : ℕ → Option UInt8) (a k : ℕ) : Prop :=
  byte (a + k) = some 0 ∧ ∀ j < k, ∃ c, byte (a + j) = some c ∧ c ≠ 0

theorem Ends.tail (h : Ends byte a (k + 1)) : Ends byte (a + 1) k := by
  obtain ⟨hnul, hbefore⟩ := h
  refine ⟨?_, fun j hj => ?_⟩
  · rw [add_assoc, add_comm 1 k]
    exact hnul
  · rw [add_assoc, add_comm 1 j]
    exact hbefore (j + 1) (by omega)

theorem copyStr_of_ends (hk : k < max) (h : Ends byte a k) :
    copyStr byte max a buf dst = (memmove buf dst (fun j => (byte (a + j)).getD 0) (k + 1), true) := by
  induction k generalizing max a dst buf with
  | zero =>
    obtain ⟨max, rfl⟩ : ∃ m, max = m + 1 := ⟨max - 1, by omega⟩
    have hnul : byte a = some 0 := h.1
    rw [copyStr, hnul]
    refine Prod.ext (funext fun x => ?_) rfl
    simp only [if_true, memmove, update_apply]
    by_cases hx : x = dst
    · rw [if_pos hx, if_pos (by omega), hx, Nat.sub_self, add_zero, hnul]
      rfl
    · rw [if_neg hx, if_neg (by omega)]
  | succ k ih =>
    obtain ⟨max, rfl⟩ : ∃ m, max = m + 1 := ⟨max - 1, by omega⟩
    obtain ⟨c, hc, hne⟩ := h.2 0 (by omega)
    rw [add_zero] at hc
    rw [copyStr, hc]
    dsimp only
    rw [if_neg hne, ih (by omega) h.tail]
    refine Prod.ext (funext fun x => ?_) rfl
    simp only [memmove, update_apply]
    by_cases hx : x = dst
    · rw [if_neg (by omega), if_pos hx, if_pos (by omega), hx, Nat.sub_self, add_zero, hc]
      rfl
    · by_cases hin : dst + 1 ≤ x ∧ x < dst + 1 + (k + 1)
      · rw [if_pos hin, if_pos (by omega), show a + 1 + (x - (dst + 1)) = a + (x - dst) by omega]
      · rw [if_neg hin, if_neg hx, if_neg (by omega)]

theorem ends_of_copyStr (h : (copyStr byte max a buf dst).2 = true) : ∃ k < max, Ends byte a k := by
  induction max generalizing a dst buf with
  | zero => cases h
  | succ max ih =>
    rw [copyStr] at h
    cases hbyte : byte a with
    | none =>
      rw [hbyte] at h
      cases h
    | some c =>
      rw [hbyte] at h
      dsimp only at h
      by_cases hnul : c = 0
      · exact ⟨0, by omega, hnul ▸ hbyte, fun j hj => absurd hj (Nat.not_lt_zero j)⟩
      · rw [if_neg hnul] at h
        obtain ⟨k, hk, hend, hbefore⟩ := ih h
        refine ⟨k + 1, by omega, ?_, fun j hj => ?_⟩
        · rw [← hend, add_assoc, add_comm 1 k]
        · cases j with
          | zero => exact ⟨c, hbyte, hnul⟩
          | succ j =>
            obtain ⟨c', hc', hne⟩ := hbefore j (by omega)
            exact ⟨c', by rw [← hc', add_assoc, add_comm 1 j], hne⟩

theorem copyStr_outside {x : ℕ} (hx : x < dst ∨ dst + max ≤ x) :
    (copyStr byte max a buf dst).1 x = buf x := by
  induction max generalizing a dst buf with
  | zero => rfl
  | succ max ih =>
    have hne : x ≠ dst := by omega
    rw [copyStr]
    split
    · rfl
    · split
      · exact update_of_ne hne _ _
      · rw [ih (by omega), update_of_ne hne]

end Strings

/-- The physical address behind a user address: it is below `MAXVA`, in a page that is
mapped with `PTE_V` and `PTE_U`. -/
def userAddr (phys : Memory) (root : UInt64) (a : ℕ) : Option ℕ :=
  if a < maxva then
    (translate phys root (UInt64.ofNat a)).bind fun e =>
      if e &&& pteU ≠ 0 then some ((pte2pa e).toNat + a % pgsize) else none
  else none

def userByte (phys : Memory) (root : UInt64) (a : ℕ) : Option UInt8 := (userAddr phys root a).map phys

section Bytes

variable {s s' : Ram} {phys phys' : Memory} {root va : UInt64} {a b q : ℕ}

theorem toNat_ofNat_of_lt (h : a < maxva) : (UInt64.ofNat a).toNat = a := by
  simp only [maxva] at h
  rw [UInt64.toNat_ofNat']
  omega

theorem userAddr_eq_some (h : userAddr phys root a = some q) :
    a < maxva ∧ ∃ e, translate phys root (UInt64.ofNat a) = some e ∧ e &&& pteU ≠ 0 ∧
      q = (pte2pa e).toNat + a % pgsize := by
  rw [userAddr] at h
  split at h
  · rename_i hlt
    obtain ⟨e, he, hq⟩ := Option.bind_eq_some_iff.mp h
    split at hq
    · rename_i huser
      cases hq
      exact ⟨hlt, e, he, huser, rfl⟩
    · cases hq
  · cases h

theorem paddr_readTable (phys : Memory) (root : UInt64) (a : ℕ) :
    paddr (readTable phys 2 root) a = userAddr phys root a := by
  rw [paddr, userPage, userAddr]
  by_cases hlt : a < maxva
  · have hpte := pte_readTable phys root (UInt64.ofNat a)
    rw [toNat_ofNat_of_lt hlt] at hpte
    rw [if_neg (not_le.mpr hlt), if_pos hlt, hpte]
    cases translate phys root (UInt64.ofNat a) with
    | none => rfl
    | some e =>
      have hmul : (pte2pa e).toNat / pgsize * pgsize = (pte2pa e).toNat := by
        rw [toNat_pte2pa]
        exact congrArg (· * 4096) (Nat.mul_div_cancel _ (by norm_num))
      by_cases huser : e &&& pteU = 0
      · simp [readPte, huser]
      · simp [readPte, huser, hmul]
  · rw [if_pos (not_lt.mp hlt), if_neg hlt]
    rfl

theorem isSome_userPage (phys : Memory) (root : UInt64) (a : ℕ) :
    (userPage (readTable phys 2 root) a).isSome = (userAddr phys root a).isSome := by
  rw [← paddr_readTable, paddr, Option.isSome_map]

theorem Leaves.userAddr_inj (hl : Leaves phys root) (ha : userAddr phys root a = some q)
    (hb : userAddr phys root b = some q) : a = b := by
  obtain ⟨halt, e, he, -, hq⟩ := userAddr_eq_some ha
  obtain ⟨hblt, e', he', -, hq'⟩ := userAddr_eq_some hb
  have hpa := toNat_pte2pa e
  have hpa' := toNat_pte2pa e'
  have ham := toNat_ofNat_of_lt halt
  have hbm := toNat_ofNat_of_lt hblt
  simp only [pgsize] at hq hq'
  have hpage : pte2pa e = pte2pa e' := UInt64.toNat_inj.mp (by omega)
  have hround := hl.distinct _ _ e e' (UInt64.lt_iff_toNat_lt.mpr (by rw [ham]; exact halt))
    (UInt64.lt_iff_toNat_lt.mpr (by rw [hbm]; exact hblt)) he he' hpage
  rw [pgRoundDown_eq_iff, ham, hbm] at hround
  rw [hpage] at hq
  omega

theorem Leaves.sameWords (h : Placed phys root) (hl : Leaves phys root)
    (hsame : ∀ q, (∀ a, userAddr phys root a ≠ some q) → phys' q = phys q) :
    SameWords phys phys' root := by
  intro p t i hp ht
  have hta := table_aligned h.aligned ht
  apply word_congr
  intro k hk
  apply hsame
  intro a ha
  obtain ⟨halt, e, he, -, hq⟩ := userAddr_eq_some ha
  have hmax : UInt64.ofNat a < MAXVA :=
    UInt64.lt_iff_toNat_lt.mpr (by rw [toNat_ofNat_of_lt halt]; exact halt)
  apply hl.data _ e p hmax he hp
  rw [ht]
  have hpa := toNat_pte2pa e
  have hi := i.isLt
  rw [toNat_slot hta] at hq
  simp only [pgsize] at hq
  exact congrArg some (UInt64.toNat_inj.mp (by omega))

theorem SameWords.userAddr (h : SameWords phys phys' root) (a : ℕ) :
    userAddr phys' root a = PageTable.userAddr phys root a := by
  rw [PageTable.userAddr, PageTable.userAddr, h.translate]

structure CopiesOut (root dstva : UInt64) (src : Memory) (len : UInt64) (s : Ram) (r : ℤ) (s' : Ram) :
    Prop where
  result : r = 0 ∨ r = -1
  success : r = 0 ↔ ∀ j < len.toNat, (userAddr s.phys root (dstva.toNat + j)).isSome
  moved : r = 0 → ∀ j < len.toNat, userByte s'.phys root (dstva.toNat + j) = some (src j)
  frame : ∀ q, (∀ j < len.toNat, userAddr s.phys root (dstva.toNat + j) ≠ some q) →
    s'.phys q = s.phys q

structure CopiesIn (root srcva len : UInt64) (buf : Memory) (dst : ℕ) (s : Ram) (r : ℤ) (buf' : Memory) :
    Prop where
  result : r = 0 ∨ r = -1
  success : r = 0 ↔ ∀ j < len.toNat, (userAddr s.phys root (srcva.toNat + j)).isSome
  moved : r = 0 → ∀ j < len.toNat, userByte s.phys root (srcva.toNat + j) = some (buf' (dst + j))
  frame : ∀ x, x < dst ∨ dst + len.toNat ≤ x → buf' x = buf x

structure CopiesStr (root srcva max : UInt64) (buf : Memory) (dst : ℕ)
    (s : Ram) (r : ℤ) (buf' : Memory) :
    Prop where
  result : r = 0 ∨ r = -1
  success : r = 0 ↔ ∃ k < max.toNat, Ends (userByte s.phys root) srcva.toNat k
  string : ∀ k < max.toNat, Ends (userByte s.phys root) srcva.toNat k →
    (∀ j ≤ k, userByte s.phys root (srcva.toNat + j) = some (buf' (dst + j))) ∧
      ∀ x, x < dst ∨ dst + k < x → buf' x = buf x
  frame : ∀ x, x < dst ∨ dst + max.toNat ≤ x → buf' x = buf x

theorem status_result (ok : Bool) : status ok = 0 ∨ status ok = -1 := by
  cases ok with
  | false => exact .inr rfl
  | true => exact .inl rfl

theorem status_eq_zero {ok : Bool} : status ok = 0 ↔ ok = true := by
  cases ok with
  | false => simp [status]
  | true => simp [status]

theorem status_reach (phys : Memory) (root : UInt64) (va len : ℕ) :
    status (decide (reach (readTable phys 2 root) va len = len)) = 0 ↔
      ∀ j < len, (userAddr phys root (va + j)).isSome := by
  rw [status_eq_zero, decide_eq_true_iff, Paging.reach_eq_iff]
  simp only [isSome_userPage]

theorem copyin_copies (h : Placed s.phys root) (hl : Leaves s.phys root) (buf : Memory) (dst : ℕ)
    (srcva len : UInt64) :
    ∃ r buf', copyin root buf dst srcva len s = .ok ((buf', r), s) ∧
      CopiesIn root srcva len buf dst s r buf' := by
  refine ⟨_, _, copyin_run h hl buf dst srcva len, ?_⟩
  rw [Paging.copyinFrom_eq]
  dsimp only
  have hle := Paging.reach_le (readTable s.phys 2 root) srcva.toNat len.toNat
  refine ⟨status_result _, status_reach _ _ _ _, ?_, ?_⟩
  · intro hok j hj
    have hall := (status_reach _ _ _ _).mp hok j hj
    rw [status_eq_zero, decide_eq_true_iff] at hok
    obtain ⟨q, hq⟩ := Option.isSome_iff_exists.mp hall
    rw [memmove, if_pos (by omega), Nat.add_sub_cancel_left, loadUser, paddr_readTable, userByte, hq]
    rfl
  · intro x hx
    exact memmove_outside _ _ (by omega)

theorem copyout_copies (h : Placed s.phys root) (hl : Leaves s.phys root) (dstva : UInt64) (src : Memory)
    (len : UInt64) :
    ∃ r s', copyout root dstva src len s = .ok (r, s') ∧ CopiesOut root dstva src len s r s' ∧
      Placed s'.phys root ∧ Leaves s'.phys root := by
  refine ⟨_, _, copyout_run s h hl dstva src len, ?_⟩
  rw [Paging.copyoutTo_eq]
  dsimp only
  generalize hphys : storeUser (readTable s.phys 2 root) dstva.toNat src _ s.phys = phys'
  have hle := Paging.reach_le (readTable s.phys 2 root) dstva.toNat len.toNat
  have hframe : ∀ q, (∀ j < len.toNat, userAddr s.phys root (dstva.toNat + j) ≠ some q) →
      phys' q = s.phys q := by
    intro q hq
    rw [← hphys]
    apply Paging.storeUser_outside
    intro j hj
    rw [paddr_readTable]
    exact hq j (by omega)
  have hsame : SameWords s.phys phys' root :=
    hl.sameWords h fun q hq => hframe q fun j _ => hq (dstva.toNat + j)
  refine ⟨⟨status_result _, status_reach _ _ _ _, ?_, hframe⟩, hsame.placed h, hl.congr hsame⟩
  intro hok j hj
  have hall := (status_reach _ _ _ _).mp hok j hj
  rw [status_eq_zero, decide_eq_true_iff] at hok
  obtain ⟨q, hq⟩ := Option.isSome_iff_exists.mp hall
  have hstored : phys' q = src j := by
    rw [← hphys]
    apply Paging.storeUser_apply _ _ (by omega)
    · rw [paddr_readTable]
      exact hq
    · intro i hi hiq
      rw [paddr_readTable] at hiq
      have heq := hl.userAddr_inj hiq hq
      omega
  rw [userByte, hsame.userAddr, hq]
  exact congrArg some hstored

theorem copyinstr_copies (h : Placed s.phys root) (hl : Leaves s.phys root) (buf : Memory) (dst : ℕ)
    (srcva max : UInt64) :
    ∃ r buf', copyinstr root buf dst srcva max s = .ok ((buf', r), s) ∧
      CopiesStr root srcva max buf dst s r buf' := by
  have hbyte : userByte s.phys root = fun a => (paddr (readTable s.phys 2 root) a).map s.phys := by
    funext a
    rw [userByte, paddr_readTable]
  refine ⟨_, _, copyinstr_run h hl buf dst srcva max hbyte, status_result _, ?_, ?_, ?_⟩
  · rw [status_eq_zero]
    refine ⟨ends_of_copyStr, ?_⟩
    rintro ⟨k, hk, hend⟩
    rw [copyStr_of_ends hk hend]
  · intro k hk hend
    rw [copyStr_of_ends hk hend]
    refine ⟨?_, ?_⟩
    · intro j hj
      dsimp only
      rw [memmove, if_pos (by omega), Nat.add_sub_cancel_left]
      by_cases hlast : j = k
      · rw [hlast, hend.1]
        rfl
      · obtain ⟨c, hc, -⟩ := hend.2 j (by omega)
        rw [hc]
        rfl
    · intro x hx
      dsimp only
      apply memmove_outside
      omega
  · intro x hx
    exact copyStr_outside hx

end Bytes

/-- The copies go page by page and do what copies byte by byte do. -/
theorem user_copies_are_bytewise {s : Ram} {root : UInt64} (h : Placed s.phys root)
    (hl : Leaves s.phys root) :
    (∀ (dstva : UInt64) (src : Memory) (len : UInt64),
      ∃ r s', copyout root dstva src len s = .ok (r, s') ∧ CopiesOut root dstva src len s r s' ∧
        (r = 0 → ∀ buf dst, ∃ buf', copyin root buf dst dstva len s' = .ok ((buf', 0), s') ∧
          ∀ j < len.toNat, buf' (dst + j) = src j)) ∧
    (∀ (buf : Memory) (dst : ℕ) (srcva len : UInt64),
      ∃ r buf', copyin root buf dst srcva len s = .ok ((buf', r), s) ∧
        CopiesIn root srcva len buf dst s r buf') ∧
    ∀ (buf : Memory) (dst : ℕ) (srcva max : UInt64),
      ∃ r buf', copyinstr root buf dst srcva max s = .ok ((buf', r), s) ∧
        CopiesStr root srcva max buf dst s r buf' := by
  refine ⟨?_, fun buf dst srcva len => copyin_copies h hl buf dst srcva len,
    fun buf dst srcva max => copyinstr_copies h hl buf dst srcva max⟩
  intro dstva src len
  obtain ⟨r, s', hrun, hout, hplaced, hleaves⟩ := copyout_copies h hl dstva src len
  refine ⟨r, s', hrun, hout, ?_⟩
  intro hok buf dst
  obtain ⟨r', buf', hin, hcopied⟩ := copyin_copies hplaced hleaves buf dst dstva len
  have hmoved := hout.moved hok
  have hzero : r' = 0 := by
    rw [hcopied.success]
    intro j hj
    have hsome : (userByte s'.phys root (dstva.toNat + j)).isSome := by rw [hmoved j hj]; rfl
    rwa [userByte, Option.isSome_map] at hsome
  subst hzero
  refine ⟨buf', hin, fun j hj => ?_⟩
  have hread := hcopied.moved rfl j hj
  rw [hmoved j hj] at hread
  exact (Option.some.inj hread).symm

def onePage : Ram where
  phys := store 8 (store 8 (store 8 blank.phys (slot 0x1000 0).toNat (pa2pte 0x2000 ||| pteV).toNat)
    (slot 0x2000 0).toNat (pa2pte 0x3000 ||| pteV).toNat)
    (slot 0x3000 3).toNat (pa2pte 0x80000000 ||| (pteU ||| pteW ||| pteR) ||| pteV).toNat
  kmem := blank.kmem

variable {t : UInt64}

theorem word_onePage (ht : t.toNat % 4096 = 0) (i : Fin 512) :
    word onePage.phys (slot t i) =
      if t = 0x3000 ∧ i = 3 then pa2pte 0x80000000 ||| (pteU ||| pteW ||| pteR) ||| pteV
      else if t = 0x2000 ∧ i = 0 then pa2pte 0x3000 ||| pteV
      else if t = 0x1000 ∧ i = 0 then pa2pte 0x2000 ||| pteV else 0 := by
  rw [onePage]
  dsimp only
  by_cases h3 : t = 0x3000 ∧ i = 3
  · rw [if_pos h3, h3.1, h3.2, word_store_self]
  · rw [if_neg h3, word_store_slot rfl ht (by tauto)]
    by_cases h2 : t = 0x2000 ∧ i = 0
    · rw [if_pos h2, h2.1, h2.2, word_store_self]
    · rw [if_neg h2, word_store_slot rfl ht (by tauto)]
      by_cases h1 : t = 0x1000 ∧ i = 0
      · rw [if_pos h1, h1.1, h1.2, word_store_self]
      · rw [if_neg h1, word_store_slot rfl ht (by tauto), word_blank]

theorem word_onePage_leaf : word onePage.phys (slot 0x3000 3) =
    pa2pte 0x80000000 ||| (pteU ||| pteW ||| pteR) ||| pteV := word_store_self _ _ _

theorem next_onePage_zero (ht : t = 0x1000 ∨ t = 0x2000) :
    next onePage.phys t 0 = some (t + 0x1000) := by
  rcases ht with rfl | rfl
  · rw [next, word_onePage rfl]
    decide
  · rw [next, word_onePage rfl]
    decide

theorem next_onePage {i : Fin 512} {u : UInt64} (ht : t = 0x1000 ∨ t = 0x2000)
    (h : next onePage.phys t i = some u) : i = 0 ∧ u = t + 0x1000 := by
  by_cases hi : i = 0
  · rw [hi, next_onePage_zero ht] at h
    exact ⟨hi, (Option.some.inj h).symm⟩
  · rcases ht with rfl | rfl
    · rw [next, word_onePage rfl] at h
      simp [hi] at h
    · rw [next, word_onePage rfl] at h
      simp [hi] at h

theorem table_onePage {p : List (Fin 512)} (hp : p.length ≤ 2)
    (ht : table onePage.phys 0x1000 p = some t) :
    p = [] ∧ t = 0x1000 ∨ p = [0] ∧ t = 0x2000 ∨ p = [0, 0] ∧ t = 0x3000 := by
  rcases p with _ | ⟨i, p⟩
  · cases ht
    exact .inl ⟨rfl, rfl⟩
  · obtain ⟨u, hu, hrest⟩ := Option.bind_eq_some_iff.mp (show
      (next onePage.phys 0x1000 i).bind (fun u => table onePage.phys u p) = some t from ht)
    obtain ⟨rfl, rfl⟩ := next_onePage (.inl rfl) hu
    rcases p with _ | ⟨j, p⟩
    · cases hrest
      exact .inr (.inl ⟨rfl, rfl⟩)
    · obtain ⟨v, hv, hlast⟩ := Option.bind_eq_some_iff.mp (show
        (next onePage.phys 0x2000 j).bind (fun u => table onePage.phys u p) = some t from hrest)
      obtain ⟨rfl, rfl⟩ := next_onePage (.inr rfl) hv
      rcases p with _ | ⟨k, p⟩
      · cases hlast
        exact .inr (.inr ⟨rfl, rfl⟩)
      · simp at hp

theorem onePage_placed : Placed onePage.phys 0x1000 where
  aligned := rfl
  nonnull p hp hpt := by
    rcases table_onePage hp hpt with ⟨-, h⟩ | ⟨-, h⟩ | ⟨-, h⟩ <;> exact absurd h (by decide)

theorem translate_onePage {a e : UInt64} (ha : a < MAXVA)
    (he : translate onePage.phys 0x1000 a = some e) :
    pgRoundDown a = 0x3000 ∧ pte2pa e = 0x80000000 := by
  rw [UInt64.lt_iff_toNat_lt] at ha
  rw [translate] at he
  obtain ⟨w, hw, he⟩ := Option.bind_eq_some_iff.mp he
  obtain ⟨t, ht, rfl⟩ := entry_eq_some hw
  rcases table_onePage (by simp) ht with ⟨h, -⟩ | ⟨h, -⟩ | ⟨h, rfl⟩
  · exact absurd h (by simp)
  · exact absurd h (by simp)
  · simp only [List.cons.injEq, and_true] at h
    by_cases h0 : index 0 a = 3
    · rw [h0] at he
      refine ⟨?_, ?_⟩
      · have hround : pgRoundDown a = pgRoundDown 0x3000 := by
          rw [pgRoundDown_eq_iff]
          apply page_eq_of_index ha (by decide)
          intro level hlevel
          interval_cases level
          · rw [h0]
            rfl
          · rw [h.2]
            rfl
          · rw [h.1]
            rfl
        rw [hround]
        decide
      · rw [word_onePage_leaf, if_pos (or_pteV_and _)] at he
        cases he
        decide
    · rw [word_onePage rfl] at he
      simp [h0] at he

theorem onePage_leaves : Leaves onePage.phys 0x1000 where
  distinct a b e e' ha hb hae hbe _ :=
    (translate_onePage ha hae).1.trans (translate_onePage hb hbe).1.symm
  ne_zero a e ha hae := by
    rw [(translate_onePage ha hae).2]
    decide
  data a e p ha hae hp hpt := by
    rw [(translate_onePage ha hae).2] at hpt
    rcases table_onePage hp hpt with ⟨-, h⟩ | ⟨-, h⟩ | ⟨-, h⟩ <;> exact absurd h (by decide)

theorem userAddr_onePage {a : ℕ} (ha : a / 4096 = 3) : (userAddr onePage.phys 0x1000 a).isSome := by
  have hlt : a < maxva := by
    simp only [maxva]
    omega
  have hnat := toNat_ofNat_of_lt hlt
  have htable : table onePage.phys 0x1000 [index 2 0x3000, index 1 0x3000] = some 0x3000 :=
    table_concat (p := [0]) (table_concat (p := []) rfl (next_onePage_zero (.inl rfl)))
      (next_onePage_zero (.inr rfl))
  have he : entry onePage.phys 0x1000 0x3000 = some (slot 0x3000 3) := entry_of_table htable
  have hpage : translate onePage.phys 0x1000 (UInt64.ofNat a) = translate onePage.phys 0x1000 0x3000 :=
    translate_congr (by rw [hnat, ha]; rfl)
  rw [userAddr, if_pos hlt, hpage, translate_of_entry he, word_onePage_leaf, if_pos (or_pteV_and _)]
  rfl

/-- Up to the end of the page the bytes are written; one byte more and the copy fails. -/
theorem user_copies_are_bytewise_onePage :
    (∃ s', copyout 0x1000 0x3fe0 (fun _ => 7) 32 onePage = .ok (0, s') ∧
      ∀ j < 32, userByte s'.phys 0x1000 (0x3fe0 + j) = some 7) ∧
    ∃ s', copyout 0x1000 0x3fe0 (fun _ => 7) 33 onePage = .ok (-1, s') := by
  have hcopy := (user_copies_are_bytewise onePage_placed onePage_leaves).1 0x3fe0 fun _ => 7
  constructor
  · obtain ⟨r, s', hrun, hout, -⟩ := hcopy 32
    obtain rfl : r = 0 := hout.success.mpr fun j hj => userAddr_onePage (by
      change j < 32 at hj
      change (0x3fe0 + j) / 4096 = 3
      omega)
    exact ⟨s', hrun, hout.moved rfl⟩
  · obtain ⟨r, s', hrun, hout, -⟩ := hcopy 33
    obtain rfl : r = -1 := hout.result.resolve_left fun hok => by
      obtain ⟨q, hq⟩ := Option.isSome_iff_exists.mp (hout.success.mp hok 32 (by decide))
      obtain ⟨-, e, he, -⟩ := userAddr_eq_some hq
      exact absurd (translate_onePage (by decide) he).1 (by decide)
    exact ⟨s', hrun⟩

end Xv6MallocLab.PageTable
