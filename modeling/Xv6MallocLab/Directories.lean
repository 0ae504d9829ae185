import Mathlib.Data.List.TakeWhile
import Xv6MallocLab.FileBytes
import Xv6MallocLab.SlotTable

/-!
# Directories as maps

The bytes of a directory are entries of 16 bytes, and the entries are a table with empty
slots.  `strncmp` and `strncpy` see of a name what stands before the first zero byte
among its first `DIRSIZ`.
-/

namespace Xv6MallocLab.FileSystem

open ByteMemory Function SlotTable

variable (sb : Super)

/-- `strncmp` from index `i` on. -/
def strncmp (p q : Memory) : ℕ → ℕ → ℤ
  | _, 0 => 0
  | i, n + 1 =>
    if p i ≠ 0 ∧ p i = q i then strncmp p q (i + 1) n else ((p i).toNat : ℤ) - (q i).toNat

def namecmp (s t : Memory) : ℤ := strncmp s t 0 dirsiz

/-- The bytes `strncpy` writes: zeroes after the end of `t`. -/
def strncpy (t : Memory) : ℕ → ℕ → List UInt8
  | _, 0 => []
  | i, n + 1 => if t i = 0 then List.replicate (n + 1) 0 else t i :: strncpy t (i + 1) n

def cstr (p : Memory) : ℕ → ℕ → Name
  | _, 0 => []
  | i, n + 1 => if p i = 0 then [] else p i :: cstr p (i + 1) n

def key (name : Memory) : Name := cstr name 0 dirsiz

theorem strncmp_eq_zero {p q : Memory} (i n : ℕ) : strncmp p q i n = 0 ↔ cstr p i n = cstr q i n := by
  induction n generalizing i with
  | zero => exact ⟨fun _ => rfl, fun _ => rfl⟩
  | succ n ih =>
    unfold strncmp cstr
    by_cases hsame : p i = q i
    · by_cases hzero : p i = 0
      · rw [if_neg fun h => h.1 hzero, if_pos hzero, if_pos (hsame ▸ hzero), hsame]
        simp
      · rw [if_pos ⟨hzero, hsame⟩, if_neg hzero, if_neg (hsame ▸ hzero), ih, hsame]
        simp
    · have hne : ((p i).toNat : ℤ) - (q i).toNat ≠ 0 := by
        intro h
        apply hsame
        apply UInt8.toNat_inj.1
        omega
      rw [if_neg fun h => hsame h.2]
      refine ⟨fun h => absurd h hne, fun h => ?_⟩
      split_ifs at h with h1 h2
      · exact absurd (h1.trans h2.symm) hsame
      · exact absurd (List.cons.inj h).1 hsame

theorem cstr_eq (p : Memory) (i n : ℕ) :
    cstr p i n = ((List.range n).map fun j => p (i + j)).takeWhile (· != 0) := by
  induction n generalizing i with
  | zero => rfl
  | succ n ih =>
    have hshift : (List.range n).map ((fun j => p (i + j)) ∘ Nat.succ) =
        (List.range n).map fun j => p (i + 1 + j) := by
      refine List.map_congr_left fun j _ => ?_
      simp only [comp_apply]
      congr 1
      omega
    rw [cstr, List.range_succ_eq_map, List.map_cons, List.map_map, hshift, Nat.add_zero]
    by_cases hzero : p i = 0
    · rw [if_pos hzero, List.takeWhile_cons_of_neg (by simp [hzero])]
    · rw [if_neg hzero, List.takeWhile_cons_of_pos (by simp [hzero]), ih]
      rfl

theorem length_cstr_le (p : Memory) (i n : ℕ) : (cstr p i n).length ≤ n := by
  rw [cstr_eq]
  have h := (List.takeWhile_prefix (l := (List.range n).map fun j => p (i + j)) (· != 0)).length_le
  simpa using h

theorem cstr_ne_zero {p : Memory} {i n : ℕ} {c : UInt8} (hc : c ∈ cstr p i n) : c ≠ 0 := by
  rw [cstr_eq] at hc
  simpa using List.mem_takeWhile_imp hc

theorem strncpy_getD (t : Memory) (i n j : ℕ) :
    (strncpy t i n).getD j 0 = (cstr t i n).getD j 0 := by
  induction n generalizing i j with
  | zero => rfl
  | succ n ih =>
    unfold strncpy cstr
    split_ifs with hzero
    · rw [List.getD_eq_getElem?_getD, List.getElem?_replicate]
      split_ifs <;> rfl
    · cases j with
      | zero => rfl
      | succ j => exact ih (i + 1) j

def dirlookupLoop (name : Memory) : ℕ → Dinode → ℕ → DiskM (Dinode × Option (ℕ × ℕ))
  | 0, dp, _ => return (dp, none)
  | c + 1, dp, off => do
      let (dp, r, de) ← readi (balloc sb) dp off direntSize fun _ => true
      if r ≠ direntSize then throw .dirlookupRead
      else if load 2 de 0 = 0 then dirlookupLoop name c dp (off + direntSize)
      else if namecmp name (fun i => de (2 + i)) = 0 then return (dp, some (load 2 de 0, off))
      else dirlookupLoop name c dp (off + direntSize)

def direntBytes (name : Memory) (inum : ℕ) : Memory :=
  store 2 (fun i => if i < 2 then 0 else (strncpy name 0 dirsiz).getD (i - 2) 0) 0 inum

/-- What `dirlink` does to the directory; false is -1.  The reference to an inode of that
name is left out, which it takes and gives back. -/
def linkEntry (dnum : ℕ) (dp : Dinode) (name : Memory) (inum : ℕ) : DiskM (Dinode × Bool) := do
  match ← dirlookupLoop sb name dp.nslots dp 0 with
  | (dp, some _) => return (dp, false)
  | (dp, none) => do
      let (dp, off) ← emptyLoop sb dp.nslots dp 0
      let (dp, r) ← writei (balloc sb) dnum dp (.kernel (direntBytes name inum)) off direntSize
      return (dp, r = direntSize)

def clearEntry (dnum : ℕ) (dp : Dinode) (off : ℕ) : DiskM Dinode := do
  let (dp, r) ← writei (balloc sb) dnum dp (.kernel fun _ => 0) off direntSize
  if r ≠ direntSize then throw .unlinkWritei else return dp

theorem dirlookupLoop_eq (name : Memory) (c : ℕ) (dp : Dinode) (off : ℕ) :
    dirlookupLoop sb name c dp off = lookupLoop sb (key name) c dp off := by
  induction c generalizing dp off with
  | zero => rfl
  | succ c ih =>
    unfold dirlookupLoop lookupLoop readDirent
    rw [bind_assoc]
    refine bind_congr fun x => ?_
    obtain ⟨dp, r, de⟩ := x
    dsimp only
    by_cases hr : r ≠ direntSize
    · rw [if_pos hr, if_pos hr]
      rfl
    · rw [if_neg hr, if_neg hr, pure_bind]
      have hname : namecmp name (fun i => de (2 + i)) = 0 ↔ key name = (Dirent.decode de 0).name := by
        rw [namecmp, strncmp_eq_zero, key, cstr_eq (fun i => de (2 + i)), Dirent.decode]
        simp only [Nat.zero_add]
      have hinum : (Dirent.decode de 0).inum = load 2 de 0 := rfl
      dsimp only
      rw [← hinum]
      by_cases hzero : (Dirent.decode de 0).inum = 0
      · rw [if_pos hzero, if_neg fun h => h.1 hzero, ih]
      · rw [if_neg hzero]
        by_cases hn : namecmp name (fun i => de (2 + i)) = 0
        · rw [if_pos hn, if_pos ⟨hzero, hname.1 hn⟩]
        · rw [if_neg hn, if_neg fun h => hn (hname.2 h.2), ih]

theorem direntBytes_eq (name : Memory) (inum : ℕ) :
    direntBytes name inum = Dirent.encode ⟨inum, key name⟩ := by
  have htake : (key name).take dirsiz = key name := List.take_of_length_le (length_cstr_le _ _ _)
  unfold direntBytes Dirent.encode
  dsimp only
  rw [htake]
  congr 1
  funext i
  rw [strncpy_getD]
  rfl

section Entries

variable {sb} {d d' : Disk} {ip : Dinode} {dnum : ℕ}

def Dinode.entry (block : ℕ → Memory) (ip : Dinode) (k : ℕ) : Dirent :=
  Dirent.decode (ip.byteAt block) (direntSize * k)

def Dirent.slot (e : Dirent) : Option (Name × ℕ) := if e.inum = 0 then none else some (e.name, e.inum)

def Disk.table (d : Disk) (dnum : ℕ) : Table Name ℕ :=
  (List.range ((d.dinode dnum).size / direntSize)).map fun k =>
    ((d.dinode dnum).entry d.block k).slot

structure WellFormed (d : Disk) (dnum : ℕ) : Prop where
  whole : (d.dinode dnum).size % direntSize = 0
  distinct : Distinct (d.table dnum)

theorem getElem?_table (k : ℕ) : (d.table dnum)[k]? =
    if k < (d.dinode dnum).size / direntSize then some ((d.dinode dnum).entry d.block k).slot
    else none := by
  unfold Disk.table
  rw [List.getElem?_map]
  split_ifs with hk
  · rw [List.getElem?_range hk]
    rfl
  · rw [List.getElem?_eq_none (by simpa using hk)]
    rfl

theorem decode_congr {m m' : Memory} {a a' : ℕ} (h : ∀ i < direntSize, m (a + i) = m' (a' + i)) :
    Dirent.decode m a = Dirent.decode m' a' := by
  have hname : ((List.range dirsiz).map fun i => m (a + 2 + i)) =
      (List.range dirsiz).map fun i => m' (a' + 2 + i) := by
    refine List.map_congr_left fun i hi => ?_
    have hlt : i < dirsiz := List.mem_range.1 hi
    rw [Nat.add_assoc, Nat.add_assoc]
    exact h (2 + i) (by simp only [dirsiz, direntSize] at *; omega)
  have h0 := h 0 (by decide)
  have h1 := h 1 (by decide)
  rw [Nat.add_zero, Nat.add_zero] at h0
  unfold Dirent.decode
  rw [hname, load_succ, load_succ, load_succ 1 m', load_succ 0 m', h0, h1]
  rfl

theorem slot_eq_some {e : Dirent} {name : Name} {v : ℕ} :
    e.slot = some (name, v) ↔ e.inum ≠ 0 ∧ e.name = name ∧ e.inum = v := by
  unfold Dirent.slot
  split_ifs with h
  · simp [h]
  · simp [h]

variable (sb) (hfull : ip.Full d.block ip.size) (hsmall : ip.size ≤ maxfile * bsize)

include hfull hsmall

variable {k c : ℕ}

theorem readDirent_found (p : Panic) (hk : direntSize * (k + 1) ≤ ip.size) :
    readDirent sb ip (direntSize * k) p d = .ok ((ip, ip.entry d.block k), d) := by
  have hmax : maxfile * bsize < 2 ^ 32 := by decide
  have hsum : direntSize * (k + 1) = direntSize * k + direntSize := Nat.mul_succ ..
  obtain ⟨r, m, hrun, hres⟩ := readi_found hfull hsmall (direntSize * k) direntSize fun _ => true
  obtain ⟨hcount, hbytes⟩ := hres (fun _ => rfl) (by omega)
  have hlen : min direntSize (ip.size - direntSize * k) = direntSize := by omega
  rw [hlen] at hcount hbytes
  unfold readDirent
  rw [bind_of_ok (hrun _)]
  dsimp only
  rw [hcount, if_neg (not_not.2 rfl), Dinode.entry]
  have hde : Dirent.decode m 0 = Dirent.decode (ip.byteAt d.block) (direntSize * k) := by
    apply decode_congr
    intro i hi
    rw [Nat.zero_add]
    exact hbytes i hi
  rw [hde]
  rfl

theorem lookupLoop_found (name : Name) (hc : direntSize * (k + c) = ip.size) :
    ∃ r, lookupLoop sb name c ip (direntSize * k) d = .ok ((ip, r), d) ∧
      (r = none → ∀ i, k ≤ i → i < k + c → ∀ v, (ip.entry d.block i).slot ≠ some (name, v)) ∧
      ∀ v off, r = some (v, off) →
        ∃ i, i < k + c ∧ off = direntSize * i ∧ (ip.entry d.block i).slot = some (name, v) := by
  induction c generalizing k with
  | zero => exact ⟨none, rfl, fun _ i hlo hhi => absurd hhi (Nat.not_lt.2 hlo),
      fun _ _ h => by cases h⟩
  | succ c ih =>
    have hread := readDirent_found sb hfull hsmall .dirlookupRead (k := k)
      (by rw [← hc]; exact Nat.mul_le_mul_left _ (by omega))
    unfold lookupLoop
    rw [bind_of_ok hread]
    dsimp only
    by_cases hmatch : (ip.entry d.block k).inum ≠ 0 ∧ name = (ip.entry d.block k).name
    · rw [if_pos hmatch]
      refine ⟨some ((ip.entry d.block k).inum, direntSize * k), rfl, (fun h => by cases h), ?_⟩
      rintro v off ⟨⟩
      exact ⟨k, by omega, rfl, slot_eq_some.2 ⟨hmatch.1, hmatch.2.symm, rfl⟩⟩
    · rw [if_neg hmatch]
      obtain ⟨r, hrun, hnone, hsome⟩ := ih (k := k + 1) (by rw [← hc]; congr 1; omega)
      refine ⟨r, hrun, fun hr i hlo hhi v hslot => ?_, fun v off hr => ?_⟩
      · rcases Nat.eq_or_lt_of_le hlo with rfl | hlt
        · obtain ⟨hne, hname, -⟩ := slot_eq_some.1 hslot
          exact hmatch ⟨hne, hname.symm⟩
        · exact hnone hr i hlt (by omega) v hslot
      · obtain ⟨i, hi, hoff, hslot⟩ := hsome v off hr
        exact ⟨i, by omega, hoff, hslot⟩

theorem emptyLoop_found (hc : direntSize * (k + c) = ip.size) :
    ∃ i ≤ k + c, emptyLoop sb c ip (direntSize * k) d = .ok ((ip, direntSize * i), d) ∧
      (i < k + c → (ip.entry d.block i).slot = none) := by
  induction c generalizing k with
  | zero => exact ⟨k, le_rfl, rfl, fun h => absurd h (lt_irrefl k)⟩
  | succ c ih =>
    have hread := readDirent_found sb hfull hsmall .dirlinkRead (k := k)
      (by rw [← hc]; exact Nat.mul_le_mul_left _ (by omega))
    unfold emptyLoop
    rw [bind_of_ok hread]
    dsimp only
    by_cases hzero : (ip.entry d.block k).inum = 0
    · rw [if_pos hzero]
      exact ⟨k, by omega, rfl, fun _ => if_pos hzero⟩
    · rw [if_neg hzero]
      obtain ⟨i, hi, hrun, hslot⟩ := ih (k := k + 1) (by rw [← hc]; congr 1; omega)
      exact ⟨i, by omega, hrun, fun hlt => hslot (by omega)⟩

theorem isdiremptyLoop_found (hc : direntSize * (k + c) = ip.size) :
    ∃ ok, isdiremptyLoop sb c ip (direntSize * k) d = .ok ((ip, ok), d) ∧
      (ok = true ↔ ∀ i, k ≤ i → i < k + c → (ip.entry d.block i).slot = none) := by
  induction c generalizing k with
  | zero => exact ⟨true, rfl, iff_of_true rfl fun i hlo hhi => absurd hhi (Nat.not_lt.2 hlo)⟩
  | succ c ih =>
    have hread := readDirent_found sb hfull hsmall .isdiremptyRead (k := k)
      (by rw [← hc]; exact Nat.mul_le_mul_left _ (by omega))
    unfold isdiremptyLoop
    rw [bind_of_ok hread]
    dsimp only
    by_cases hzero : (ip.entry d.block k).inum = 0
    · rw [if_neg (not_not.2 hzero)]
      obtain ⟨ok, hrun, hok⟩ := ih (k := k + 1) (by rw [← hc]; congr 1; omega)
      refine ⟨ok, hrun, hok.trans ⟨fun h i hlo hhi => ?_, fun h i hlo hhi => h i (by omega) (by omega)⟩⟩
      rcases Nat.eq_or_lt_of_le hlo with rfl | hlt
      · exact if_pos hzero
      · exact h i hlt (by omega)
    · rw [if_pos hzero]
      refine ⟨false, rfl, iff_of_false Bool.false_ne_true fun h => ?_⟩
      have hslot := h k le_rfl (by omega)
      rw [Dirent.slot, if_neg hzero] at hslot
      cases hslot

end Entries

section Changes

variable {sb} {d d' : Disk} {dnum : ℕ}

theorem WellFormed.size_eq (h : WellFormed d dnum) :
    direntSize * ((d.dinode dnum).size / direntSize) = (d.dinode dnum).size :=
  Nat.mul_div_cancel' (Nat.dvd_of_mod_eq_zero h.whole)

theorem WellFormed.nslots (h : WellFormed d dnum) :
    (d.dinode dnum).nslots = (d.dinode dnum).size / direntSize := by
  have hsize := h.size_eq
  unfold Dinode.nslots
  simp only [direntSize] at *
  omega

theorem length_table : (d.table dnum).length = (d.dinode dnum).size / direntSize := by
  simp [Disk.table]

/-- One entry of the directory has become what `m` spells out, maybe a new one at the end. -/
structure EntrySet (d : Disk) (dnum i : ℕ) (m : Memory) (d' : Disk) : Prop where
  size : (d'.dinode dnum).size = max (d.dinode dnum).size (direntSize * i + direntSize)
  this : (d'.dinode dnum).entry d'.block i = Dirent.decode m 0
  other : ∀ k, k ≠ i → direntSize * (k + 1) ≤ (d.dinode dnum).size →
    (d'.dinode dnum).entry d'.block k = (d.dinode dnum).entry d.block k

structure EntriesKept (d : Disk) (dnum : ℕ) (d' : Disk) : Prop where
  size : (d'.dinode dnum).size = (d.dinode dnum).size
  entry : ∀ k, direntSize * (k + 1) ≤ (d.dinode dnum).size →
    (d'.dinode dnum).entry d'.block k = (d.dinode dnum).entry d.block k

theorem slot_le {k : ℕ} (hk : k < (d.dinode dnum).size / direntSize) :
    direntSize * (k + 1) ≤ (d.dinode dnum).size :=
  (Nat.mul_le_mul_left _ hk).trans (Nat.mul_div_le _ _)

theorem EntriesKept.table (h : EntriesKept d dnum d') : d'.table dnum = d.table dnum := by
  refine List.ext_getElem? fun k => ?_
  rw [getElem?_table, getElem?_table, h.size]
  split_ifs with hk
  · rw [h.entry k (slot_le hk)]
  · rfl

theorem EntriesKept.wellFormed (h : EntriesKept d dnum d') (hwf : WellFormed d dnum) :
    WellFormed d' dnum :=
  ⟨by rw [h.size]; exact hwf.whole, by rw [h.table]; exact hwf.distinct⟩

variable {i : ℕ} {m : Memory}

section

variable (h : EntrySet d dnum i m d')

include h

theorem EntrySet.whole (hwf : WellFormed d dnum) : (d'.dinode dnum).size % direntSize = 0 := by
  have hsize := h.size
  have hold := hwf.whole
  rw [hsize]
  simp only [direntSize] at *
  omega

theorem EntrySet.getElem?_table (hi : i ≤ (d.dinode dnum).size / direntSize) (k : ℕ) :
    (d'.table dnum)[k]? =
      if k = i then some (Dirent.decode m 0).slot else (d.table dnum)[k]? := by
  have hcount : (d'.dinode dnum).size / direntSize =
      max ((d.dinode dnum).size / direntSize) (i + 1) := by
    have := h.size
    simp only [direntSize] at *
    omega
  rw [FileSystem.getElem?_table, hcount]
  by_cases hki : k = i
  · rw [if_pos hki, if_pos (by omega), hki, h.this]
  · rw [if_neg hki, FileSystem.getElem?_table]
    by_cases hk : k < (d.dinode dnum).size / direntSize
    · rw [if_pos (by omega), if_pos hk, h.other k hki (slot_le hk)]
    · rw [if_neg (by omega), if_neg hk]

theorem EntrySet.table_put {e : Name × ℕ} (hi : i ≤ (d.dinode dnum).size / direntSize)
    (he : (Dirent.decode m 0).slot = some e) : d'.table dnum = put (d.table dnum) i e := by
  refine List.ext_getElem? fun k => ?_
  rw [h.getElem?_table hi, getElem?_put (by rwa [length_table]), he]

theorem EntrySet.table_erase (hi : i < (d.dinode dnum).size / direntSize)
    (he : (Dirent.decode m 0).slot = none) : d'.table dnum = (d.table dnum).set i none := by
  refine List.ext_getElem? fun k => ?_
  rw [h.getElem?_table hi.le, List.getElem?_set, he]
  by_cases hk : k = i
  · rw [if_pos hk, if_pos hk.symm, if_pos (by rwa [length_table])]
  · rw [if_neg hk, if_neg (Ne.symm hk)]

end

theorem writeEntry_runs (h : Stored sb d) (hlt : dnum < sb.ninodes)
    (halloc : (d.dinode dnum).type ≠ .free) (m : Memory)
    (hi : i ≤ (d.dinode dnum).size / direntSize) :
    Runs (writei (balloc sb) dnum (d.dinode dnum) (.kernel m) (direntSize * i) direntSize) d
      fun r d' => Stored sb d' ∧ d'.dinode dnum = r.1 ∧ r.1.type = (d.dinode dnum).type ∧
        (r.2 = direntSize ∧ EntrySet d dnum i m d' ∨ r.2 ≠ direntSize ∧ EntriesKept d dnum d' ∧
          i = (d.dinode dnum).size / direntSize ∧
          (d'.exhausted sb ∨ maxfile * bsize < direntSize * i + direntSize)) := by
  have hsrc : ¬(Source.kernel m).Faulty := by
    rintro ⟨t, ht⟩
    cases ht
  refine .mono (writei_runs (.kernel m) (direntSize * i) direntSize rfl
    (h.tidy.inOrder hlt halloc)) ?_
  rintro ⟨ip', r⟩ d' ⟨horder, off', hw, hres⟩
  dsimp only at horder hw hres ⊢
  have hself : d'.dinode dnum = ip' := by rw [hw.dinode, update_self]
  have hsmall := (h.noHoles dnum hlt halloc).small
  have hstart : direntSize * i ≤ (d.dinode dnum).size :=
    (Nat.mul_le_mul_left _ hi).trans (Nat.mul_div_le _ _)
  refine ⟨(h.tidy.of_written hlt halloc horder hw).stored, hself, by rw [hw.inode], ?_⟩
  -- entries that the write has not come to
  have hkeep : ∀ k, direntSize * (k + 1) ≤ (d.dinode dnum).size → off' ≤ direntSize * i ∨ k ≠ i →
      off' ≤ direntSize * i + direntSize →
      ip'.entry d'.block k = (d.dinode dnum).entry d.block k := by
    intro k hk hcase hend
    apply decode_congr
    intro j hj
    refine hw.outside _ ?_ fun hin => ?_
    · simp only [direntSize] at *
      omega
    · have hlow := hin.2.resolve_right hsrc
      have hhigh := hin.1
      simp only [direntSize] at *
      omega
  rcases hres with ⟨rfl, -, hout, rfl, rfl⟩ | ⟨tot, rfl, -, hend, hprog, hshort⟩
  · have hfull : maxfile * bsize < direntSize * i + direntSize := by
      by_contra hle
      exact hout ⟨hstart, Nat.not_lt.1 hle⟩
    refine .inr ⟨by decide, ⟨rfl, fun _ _ => rfl⟩, ?_, .inr hfull⟩
    by_contra hne
    have := slot_le (lt_of_le_of_ne hi hne)
    rw [Nat.mul_succ] at this
    omega
  · have hcount := hprog.count
    have hlow := hprog.low
    have hhigh := hprog.high
    -- entries do not cross blocks, so the write stops before or after this one
    have hall : off' = direntSize * i ∨ off' = direntSize * i + direntSize := by
      rcases hprog.stop with hs | hs | hs
      · exact .inl hs
      · simp only [direntSize, bsize] at *
        omega
      · exact .inr hs
    rcases hall with rfl | rfl
    · have hshort' : tot < direntSize := by
        simp only [direntSize] at *
        omega
      obtain ⟨hnone, hplace⟩ := hshort hsrc hshort'
      refine .inr ⟨by omega, ⟨?_, fun k hk => ?_⟩, ?_, .inl hnone⟩
      · rw [hself, hw.inode]
        exact max_eq_left hstart
      · rw [hself]
        exact hkeep k hk (.inl le_rfl) (Nat.le_add_right _ _)
      · -- an entry below the size has its block
        by_contra hne
        refine horder.full (direntSize * i / bsize) ?_ hplace
        have hslot := slot_le (lt_of_le_of_ne hi hne)
        have hdiv := Nat.div_mul_le_self (direntSize * i) bsize
        have hsize : (d.dinode dnum).size ≤ ip'.size := by
          rw [hw.inode]
          exact le_max_left _ _
        simp only [direntSize] at *
        omega
    · refine .inl ⟨by simp only [direntSize] at *; omega, ?_, ?_, fun k hki hk => ?_⟩
      · rw [hself, hw.inode]
      · rw [hself]
        apply decode_congr
        intro j hj
        rw [hw.inside _ (Nat.le_add_right _ _) (Nat.add_lt_add_left hj _), Nat.add_sub_cancel_left,
          Nat.zero_add]
        rfl
      · rw [hself]
        exact hkeep k hk (.inr hki) le_rfl

theorem decode_encode {e : Dirent} (hinum : e.inum < 65536) (hlen : e.name.length ≤ dirsiz)
    (hne : ∀ c ∈ e.name, c ≠ 0) : Dirent.decode e.encode 0 = e := by
  have hname : ((List.range dirsiz).map fun i => e.encode (0 + 2 + i)) =
      e.name ++ List.replicate (dirsiz - e.name.length) 0 := by
    apply List.ext_getElem
    · simp only [List.length_map, List.length_range, List.length_append, List.length_replicate]
      omega
    · intro i hi _
      have hi' : i < dirsiz := by simpa using hi
      rw [List.getElem_map, List.getElem_range, Dirent.encode,
        store_apply_of_outside (by omega), if_neg (by omega), List.take_of_length_le hlen,
        List.getElem_append, List.getD_eq_getElem?_getD, show 0 + 2 + i - 2 = i by omega]
      split_ifs with h
      · rw [List.getElem?_eq_getElem h]
        rfl
      · rw [List.getElem?_eq_none (by omega), List.getElem_replicate]
        rfl
  have hload : load 2 e.encode 0 = e.inum := load_store_of_lt hinum
  have hdrop : (List.replicate (dirsiz - e.name.length) (0 : UInt8)).takeWhile (· != 0) = [] := by
    cases dirsiz - e.name.length <;> rfl
  unfold Dirent.decode
  rw [hname, hload, List.takeWhile_append_of_pos (by simpa using hne), hdrop, List.append_nil]

theorem slot_direntBytes (name : Memory) {inum : ℕ} (hpos : 1 ≤ inum) (hlt : inum < 65536) :
    (Dirent.decode (direntBytes name inum) 0).slot = some (key name, inum) := by
  rw [direntBytes_eq, decode_encode hlt (length_cstr_le _ _ _) fun c => cstr_ne_zero]
  exact if_neg (Nat.one_le_iff_ne_zero.1 hpos)

end Changes

section Calls

variable {sb} {d : Disk} {dnum : ℕ} (h : Stored sb d) (hlt : dnum < sb.ninodes)
  (halloc : (d.dinode dnum).type ≠ .free) (hwf : WellFormed d dnum)

include h hlt halloc hwf

theorem dirlookup_found (name : Memory) :
    ∃ r, dirlookupLoop sb name (d.dinode dnum).nslots (d.dinode dnum) 0 d =
        .ok ((d.dinode dnum, r), d) ∧
      r.map Prod.fst = lookup (d.table dnum) (key name) ∧
      ∀ v off, r = some (v, off) →
        ∃ i : ℕ, off = direntSize * i ∧ (d.table dnum)[i]? = some (some (key name, v)) := by
  have hno := h.noHoles dnum hlt halloc
  obtain ⟨r, hrun, hnone, hsome⟩ := lookupLoop_found sb hno.full hno.small (key name)
    (k := 0) (c := (d.dinode dnum).nslots) (by rw [hwf.nslots, Nat.zero_add, hwf.size_eq])
  rw [Nat.zero_add, hwf.nslots] at hnone hsome
  have hslot : ∀ v off, r = some (v, off) →
      ∃ i : ℕ, off = direntSize * i ∧ (d.table dnum)[i]? = some (some (key name, v)) := by
    intro v off hr
    obtain ⟨i, hi, hoff, hentry⟩ := hsome v off hr
    exact ⟨i, hoff, by rw [getElem?_table, if_pos hi, hentry]⟩
  refine ⟨r, by rw [dirlookupLoop_eq]; exact hrun, ?_, hslot⟩
  cases hr : r with
  | none =>
    refine (lookup_eq_none.2 fun i v hi => ?_).symm
    rw [getElem?_table] at hi
    split_ifs at hi with hk
    exact hnone hr i (Nat.zero_le i) hk v (Option.some.inj hi)
  | some x =>
    obtain ⟨i, -, hi⟩ := hslot x.1 x.2 hr
    exact (hwf.distinct.lookup_eq_some.2 ⟨i, hi⟩).symm

structure Linked (sb : Super) (d : Disk) (dnum : ℕ) (k : Name) (inum : ℕ) (ok : Bool) (d' : Disk) :
    Prop where
  present : lookup (d.table dnum) k ≠ none → ok = false ∧ d' = d
  added : ok = true → lookup (d.table dnum) k = none ∧
    lookup (d'.table dnum) = update (lookup (d.table dnum)) k (some inum)
  failed : ok = false → d'.table dnum = d.table dnum
  room : lookup (d.table dnum) k = none → ok = false →
    d'.exhausted sb ∨ maxfile * bsize < (d.dinode dnum).size + direntSize

theorem linkEntry_runs (name : Memory) {inum : ℕ} (hpos : 1 ≤ inum) (hinum : inum < 65536) :
    Runs (linkEntry sb dnum (d.dinode dnum) name inum) d fun r d' =>
      Stored sb d' ∧ d'.dinode dnum = r.1 ∧ r.1.type = (d.dinode dnum).type ∧ WellFormed d' dnum ∧
        Linked sb d dnum (key name) inum r.2 d' := by
  have hno := h.noHoles dnum hlt halloc
  obtain ⟨r, hrun, hlook, hslot⟩ := dirlookup_found h hlt halloc hwf name
  unfold linkEntry
  refine runs_bind_of_ok hrun ?_
  cases r with
  | some x =>
    rw [Option.map_some] at hlook
    apply Runs.pure
    refine ⟨h, rfl, rfl, hwf, fun _ => ⟨rfl, rfl⟩, nofun, fun _ => rfl, fun hnone => ?_⟩
    rw [hnone] at hlook
    cases hlook
  | none =>
    rw [Option.map_none] at hlook
    obtain ⟨i, hi, hempty, hvacant⟩ := emptyLoop_found sb hno.full hno.small (k := 0)
      (c := (d.dinode dnum).nslots) (by rw [hwf.nslots, Nat.zero_add, hwf.size_eq])
    rw [Nat.zero_add, hwf.nslots] at hi hvacant
    have hvac : Vacant (d.table dnum) i := by
      refine ⟨by rwa [length_table], fun e he => ?_⟩
      rw [getElem?_table] at he
      split_ifs at he with hk
      rw [hvacant hk] at he
      cases he
    refine runs_bind_of_ok hempty ?_
    dsimp only
    refine .bind (writeEntry_runs h hlt halloc (direntBytes name inum) hi) ?_
    rintro ⟨ip', w⟩ d' ⟨hstored, hdinode, htype, hres⟩
    apply Runs.pure
    refine ⟨hstored, hdinode, htype, ?_⟩
    rcases hres with ⟨hw, hset⟩ | ⟨hw, hkept, hlast, hroom⟩
    · -- the entry is there
      have hput := hset.table_put hi (slot_direntBytes name hpos hinum)
      have hnew := lookup_eq_none.1 hlook.symm
      refine ⟨⟨hset.whole hwf, ?_⟩, fun hne => absurd hlook.symm hne, fun _ => ⟨hlook.symm, ?_⟩,
        fun hno => ?_, fun _ hno => ?_⟩
      · rw [hput]
        exact hwf.distinct.put hvac.le hnew
      · rw [hput]
        exact lookup_put hwf.distinct hvac hlook.symm
      · exact absurd hw (of_decide_eq_false hno)
      · exact absurd hw (of_decide_eq_false hno)
    · refine ⟨hkept.wellFormed hwf, fun hne => absurd hlook.symm hne,
        fun hyes => absurd (of_decide_eq_true hyes) hw, fun _ => hkept.table, fun _ _ => ?_⟩
      rw [hlast, hwf.size_eq] at hroom
      exact hroom

theorem clearEntry_runs {k : Name} {v i : ℕ} (hi : (d.table dnum)[i]? = some (some (k, v))) :
    Runs (clearEntry sb dnum (d.dinode dnum) (direntSize * i)) d fun ip' d' =>
      Stored sb d' ∧ d'.dinode dnum = ip' ∧ ip'.type = (d.dinode dnum).type ∧ WellFormed d' dnum ∧
        lookup (d'.table dnum) = update (lookup (d.table dnum)) k none := by
  have hk : i < (d.dinode dnum).size / direntSize := by
    by_contra hk
    rw [getElem?_table, if_neg hk] at hi
    cases hi
  unfold clearEntry
  refine .bind (writeEntry_runs h hlt halloc (fun _ => 0) hk.le) ?_
  rintro ⟨ip', w⟩ d' ⟨hstored, hdinode, htype, hres⟩
  rcases hres with ⟨hw, hset⟩ | ⟨-, -, hlast, -⟩
  · have herase := hset.table_erase hk rfl
    dsimp only
    rw [if_neg (not_not.2 hw)]
    apply Runs.pure
    refine ⟨hstored, hdinode, htype, ⟨hset.whole hwf, ?_⟩, ?_⟩
    · rw [herase]
      exact hwf.distinct.erase i
    · rw [herase]
      exact lookup_erase hwf.distinct hi
  · exact absurd hlast hk.ne

end Calls

/-- The disks that insertions and removals in directory `dnum` lead to; an insertion may
have failed. -/
inductive Edited (dnum : ℕ) (d : Disk) : Disk → Prop
  | refl : Edited dnum d d
  | link {d1 d2 : Disk} {name : Memory} {inum : ℕ} {dp : Dinode} {ok : Bool}
      (h : Edited dnum d d1) (hpos : 1 ≤ inum) (hinum : inum < 65536)
      (hrun : linkEntry sb dnum (d1.dinode dnum) name inum d1 = .ok ((dp, ok), d2)) :
      Edited dnum d d2
  | unlink {d1 d2 : Disk} {name : Memory} {v off : ℕ} {dp : Dinode} (h : Edited dnum d d1)
      (hlook : dirlookupLoop sb name (d1.dinode dnum).nslots (d1.dinode dnum) 0 d1 =
        .ok ((d1.dinode dnum, some (v, off)), d1))
      (hrun : clearEntry sb dnum (d1.dinode dnum) off d1 = .ok (dp, d2)) : Edited dnum d d2

/-- The directory is a map, and `dirlookup` looks names up in it. -/
structure MapOf (d : Disk) (dnum : ℕ) : Prop where
  wellFormed : WellFormed d dnum
  finds : ∀ name : Memory, ∃ r,
    dirlookupLoop sb name (d.dinode dnum).nslots (d.dinode dnum) 0 d = .ok ((d.dinode dnum, r), d) ∧
      r.map Prod.fst = lookup (d.table dnum) (key name)

section Runs

variable {sb} {d d' : Disk} {dnum : ℕ}

structure Directory (sb : Super) (d : Disk) (dnum : ℕ) : Prop where
  stored : Stored sb d
  inum : dnum < sb.ninodes
  type : (d.dinode dnum).type = .dir
  wellFormed : WellFormed d dnum

namespace Directory

variable (h : Directory sb d dnum)

include h

theorem alloc : (d.dinode dnum).type ≠ .free := by
  rw [h.type]
  decide

theorem mapOf : MapOf sb d dnum := by
  refine ⟨h.wellFormed, fun name => ?_⟩
  obtain ⟨r, hrun, hlook, -⟩ := dirlookup_found h.stored h.inum h.alloc h.wellFormed name
  exact ⟨r, hrun, hlook⟩

theorem link (name : Memory) {inum : ℕ} (hpos : 1 ≤ inum) (hinum : inum < 65536) :
    Runs (linkEntry sb dnum (d.dinode dnum) name inum) d fun r d' =>
      Directory sb d' dnum ∧ Linked sb d dnum (key name) inum r.2 d' := by
  refine (linkEntry_runs h.stored h.inum h.alloc h.wellFormed name hpos hinum).mono ?_
  rintro r d' ⟨hstored, hself, htype, hwf, hlinked⟩
  exact ⟨⟨hstored, h.inum, by rw [hself, htype, h.type], hwf⟩, hlinked⟩

theorem clear {name : Memory} {v off : ℕ}
    (hlook : dirlookupLoop sb name (d.dinode dnum).nslots (d.dinode dnum) 0 d =
      .ok ((d.dinode dnum, some (v, off)), d)) :
    Runs (clearEntry sb dnum (d.dinode dnum) off) d fun _ d' =>
      Directory sb d' dnum ∧
        lookup (d'.table dnum) = update (lookup (d.table dnum)) (key name) none := by
  obtain ⟨r, hrun, -, hslot⟩ := dirlookup_found h.stored h.inum h.alloc h.wellFormed name
  rw [hlook] at hrun
  cases hrun
  obtain ⟨i, rfl, hi⟩ := hslot v off rfl
  refine (clearEntry_runs h.stored h.inum h.alloc h.wellFormed hi).mono ?_
  rintro ip' d' ⟨hstored, hself, htype, hwf, herase⟩
  exact ⟨⟨hstored, h.inum, by rw [hself, htype, h.type], hwf⟩, herase⟩

theorem of_edited (hed : Edited sb dnum d d') : Directory sb d' dnum := by
  induction hed with
  | refl => exact h
  | link _ hpos hinum hrun ih => exact ((ih.link _ hpos hinum).of_eq hrun).1
  | unlink _ hlook hrun ih => exact ((ih.clear hlook).of_eq hrun).1

end Directory

/-- After any insertions and removals the directory is a map that `dirlookup` looks up,
`dirlink` adds to and the clearing of an entry takes from. -/
theorem directories_are_maps (h : Directory sb d dnum) (hed : Edited sb dnum d d') (name : Memory)
    {inum : ℕ} (hpos : 1 ≤ inum) (hinum : inum < 65536) :
    MapOf sb d' dnum ∧
    Runs (linkEntry sb dnum (d'.dinode dnum) name inum) d' (fun r d'' =>
      MapOf sb d'' dnum ∧ Linked sb d' dnum (key name) inum r.2 d'') ∧
    ∀ v off, dirlookupLoop sb name (d'.dinode dnum).nslots (d'.dinode dnum) 0 d' =
        .ok ((d'.dinode dnum, some (v, off)), d') →
      Runs (clearEntry sb dnum (d'.dinode dnum) off) d' fun _ d'' => MapOf sb d'' dnum ∧
        lookup (d''.table dnum) = update (lookup (d'.table dnum)) (key name) none := by
  have h' := h.of_edited hed
  refine ⟨h'.mapOf, ?_, fun v off hlook => ?_⟩
  · exact (h'.link name hpos hinum).mono fun r d'' hq => ⟨hq.1.mapOf, hq.2⟩
  · exact (h'.clear hlook).mono fun _ d'' hq => ⟨hq.1.mapOf, hq.2⟩

/-- After any insertions and removals `isdirempty` finds a directory empty if and only if
no slot behind the first two holds a name. -/
theorem isdirempty_exact (h : Directory sb d dnum) (hed : Edited sb dnum d d') :
    ∃ ok, isdirempty sb (d'.dinode dnum) d' = .ok ((d'.dinode dnum, ok), d') ∧
      (ok = true ↔ ∀ i ≥ 2, ∀ e, (d'.table dnum)[i]? ≠ some (some e)) := by
  have h' := h.of_edited hed
  have hno := h'.stored.noHoles dnum h'.inum h'.alloc
  have hslots := h'.wellFormed.nslots
  have hsize := h'.wellFormed.size_eq
  by_cases htwo : 2 ≤ (d'.dinode dnum).nslots
  · obtain ⟨ok, hrun, hok⟩ := isdiremptyLoop_found sb hno.full hno.small (k := 2)
      (c := (d'.dinode dnum).nslots - 2) (by rw [Nat.add_sub_cancel' htwo, hslots, hsize])
    rw [Nat.add_sub_cancel' htwo, hslots] at hok
    refine ⟨ok, by rw [isdirempty, Nat.mul_comm]; exact hrun, hok.trans ?_⟩
    refine forall₂_congr fun i _ => ?_
    rw [getElem?_table]
    split_ifs with hi
    · simp only [hi, forall_const, ne_eq, Option.some.injEq]
      exact Option.eq_none_iff_forall_ne_some
    · simp [hi]
  · refine ⟨true, ?_, iff_of_true rfl fun i hi e => ?_⟩
    · rw [isdirempty, Nat.sub_eq_zero_of_le (by omega)]
      rfl
    · rw [getElem?_table, if_neg (by omega)]
      exact (Option.some_ne_none _).symm

end Runs

def emptyDir : Disk where
  bitmap := fun b => b < 2
  dinode := fun inum => if inum = 1 then .fresh .dir else .fresh .free
  block := fun _ _ => 0

theorem emptyDir_place (inum p : ℕ) : (emptyDir.dinode inum).place emptyDir.block p = 0 := by
  by_cases h : inum = 1 <;> simp [emptyDir, h, Dinode.place, Dinode.fresh]

theorem emptyDir_size (inum : ℕ) : (emptyDir.dinode inum).size = 0 := by
  by_cases h : inum = 1 <;> simp [emptyDir, h, Dinode.fresh]

theorem emptyDir_image : Image smallSuper emptyDir := by
  refine ⟨⟨⟨fun inum _ _ p _ hne => absurd (emptyDir_place ..) hne,
    fun inum _ _ p _ _ _ _ _ _ hne => absurd (emptyDir_place ..) hne⟩, fun b hb hbit => ?_⟩,
    fun b hb => decide_eq_true hb, fun inum _ _ => ⟨fun bn hbn => ?_, ?_⟩⟩
  · have hlo : 2 ≤ b := hb.1
    have hlt : b < 2 := of_decide_eq_true hbit
    omega
  · rw [emptyDir_size] at hbn
    exact absurd hbn (Nat.not_lt_zero _)
  · rw [emptyDir_size]
    exact Nat.zero_le _

theorem emptyDir_directory : Directory smallSuper emptyDir 1 := by
  refine ⟨emptyDir_image.stored, by decide, rfl, rfl, fun i j e e' hi => ?_⟩
  cases hi

def letter (c : UInt8) : Memory := fun i => if i = 0 then c else 0

def linked (c : UInt8) (d : Disk) : Disk :=
  match linkEntry smallSuper 1 (d.dinode 1) (letter c) 1 d with
  | .ok (_, d') => d'
  | .error _ => d

/-- The names `a`, `b` and `c` for inode 1. -/
def threeNames : Disk := linked 99 (linked 98 (linked 97 emptyDir))

/-- The last of them is removed. -/
def twoNames : Disk :=
  match clearEntry smallSuper 1 (threeNames.dinode 1) 32 threeNames with
  | .ok (_, d') => d'
  | .error _ => threeNames

theorem twoNames_edited : Edited smallSuper 1 emptyDir twoNames := by
  have hlink : ∀ {c d}, Edited smallSuper 1 emptyDir d →
      linkEntry smallSuper 1 (d.dinode 1) (letter c) 1 d =
        .ok (((linked c d).dinode 1, true), linked c d) →
      Edited smallSuper 1 emptyDir (linked c d) :=
    fun h hrun => .link h le_rfl (by decide) hrun
  have hthree : Edited smallSuper 1 emptyDir threeNames := hlink (hlink (hlink .refl rfl) rfl) rfl
  have hlook : dirlookupLoop smallSuper (letter 99) (threeNames.dinode 1).nslots
      (threeNames.dinode 1) 0 threeNames = .ok ((threeNames.dinode 1, some (1, 32)), threeNames) := rfl
  have hclear : clearEntry smallSuper 1 (threeNames.dinode 1) 32 threeNames =
      .ok (twoNames.dinode 1, twoNames) := rfl
  exact .unlink hthree hlook hclear

theorem directories_are_maps_edited :
    lookup (twoNames.table 1) [98] = some 1 ∧ lookup (twoNames.table 1) [99] = none ∧
      Runs (linkEntry smallSuper 1 (twoNames.dinode 1) (letter 99) 1) twoNames fun r d' =>
        MapOf smallSuper d' 1 ∧ Linked smallSuper twoNames 1 (key (letter 99)) 1 r.2 d' :=
  ⟨by decide, by decide,
    (directories_are_maps emptyDir_directory twoNames_edited (letter 99) le_rfl (by decide)).2.1⟩

theorem isdirempty_exact_edited :
    isdirempty smallSuper (twoNames.dinode 1) twoNames =
      .ok ((twoNames.dinode 1, true), twoNames) := by
  obtain ⟨ok, hrun, hok⟩ := isdirempty_exact emptyDir_directory twoNames_edited
  have htable : twoNames.table 1 = [some ([97], 1), some ([98], 1), none] := by decide
  rw [hrun, hok.2]
  intro i hi e
  rw [htable]
  match i, hi with
  | 2, _ => exact nofun
  | i + 3, _ => exact nofun

end Xv6MallocLab.FileSystem
