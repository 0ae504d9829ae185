import Xv6MallocLab.FileBytes
import Xv6MallocLab.PipeReads
import Xv6MallocLab.UserCopies

/-!
# Reads into user memory

`readi` with `user_dst` and `fileread` on top of it.  The count is an `int` for `fileread`
and a `uint` for `readi`: a negative one becomes a large one, which is then cut to what the
file has left.
-/

namespace Xv6MallocLab.FileSystem

open ByteMemory
open Paging (Table userPage paddr copyoutTo copyoutTo_eq reach storeUser)

variable (sb : Super)

structure UserDisk where
  disk : Disk
  phys : Memory

abbrev UserM (α : Type) := Fallible UserDisk Panic α

def UserDisk.setDisk (s : UserDisk) (d : Disk) : UserDisk := { s with disk := d }

def UserDisk.setPhys (s : UserDisk) (phys : Memory) : UserDisk := { s with phys := phys }

def onFs {α : Type} (m : DiskM α) : UserM α := Fallible.zoom UserDisk.disk UserDisk.setDisk m

def eitherCopyout (t : Table) (dst : ℕ) (src : Memory) (len : ℕ) : UserM Bool := do
  let s ← get
  let r := copyoutTo t dst src len s.phys
  set (s.setPhys r.1)
  return r.2

/-- The loop of `readi`, with `c` blocks left.  A user address that is not refused is far
below 2^64. -/
def readUserLoop (alloc : DiskM ℕ) (t : Table) : ℕ → Dinode → ℕ → ℕ → ℕ → ℕ → UserM (Dinode × ℤ)
  | 0, ip, _, _, _, tot => return (ip, tot)
  | c + 1, ip, dst, off, n, tot => do
      let (ip, addr) ← onFs (bmap alloc ip (off / bsize))
      if addr = 0 then return (ip, tot)
      else do
        let s ← get
        let m := min (n - tot) (bsize - off % bsize)
        let ok ← eitherCopyout t dst (fun j => s.disk.block addr (off % bsize + j)) m
        if ok then readUserLoop alloc t c ip (dst + m) (off + m) n (tot + m)
        else return (ip, -1)

/-- `readi` to a user address; -1 if `either_copyout` fails. -/
def readUser (alloc : DiskM ℕ) (t : Table) (ip : Dinode) (dst off n : ℕ) : UserM (Dinode × ℤ) :=
  if ip.size < off ∨ (off + n) % 2 ^ 32 < off then return (ip, 0)
  else
    let n := if ip.size < off + n then ip.size - off else n
    readUserLoop alloc t (nblocks off n) ip dst off n 0

structure InodeFile where
  readable : Bool
  off : ℕ

/-- `fileread` of an inode file; `n` is an `int`, and `readi` takes a `uint`. -/
def fileread (t : Table) (f : InodeFile) (ip : Dinode) (addr : ℕ) (n : ℤ) :
    UserM (Dinode × InodeFile × ℤ) :=
  if !f.readable then return (ip, f, -1)
  else do
    let (ip, r) ← readUser (balloc sb) t ip addr f.off (n % 2 ^ 32).toNat
    if 0 < r then return (ip, { f with off := (f.off + r.toNat) % 2 ^ 32 }, r)
    else return (ip, f, r)

variable {sb} {t : Table} {ip : Dinode} {s : UserDisk}

theorem readUserLoop_found (alloc : DiskM ℕ) {lim : ℕ} (hlim : lim ≤ maxfile * bsize)
    (hfull : ip.Full s.disk.block lim) (c dst off n tot : ℕ) (hc : c = nblocks off (n - tot))
    (hend : off + (n - tot) ≤ lim) (htot : tot ≤ n) :
    readUserLoop alloc t c ip dst off n tot s =
      .ok ((ip, if reach t dst (n - tot) = n - tot then (n : ℤ) else -1),
        s.setPhys (storeUser t dst (fun j => ip.byteAt s.disk.block (off + j))
          (reach t dst (n - tot)) s.phys)) := by
  induction c generalizing dst off tot s with
  | zero =>
    have hdone : n - tot = 0 := by
      by_contra hr
      rw [nblocks, if_neg hr] at hc
      omega
    obtain rfl : tot = n := by omega
    rw [hdone]
    rfl
  | succ c ih =>
    have hr := nblocks_pos_iff hc
    have hstart : off / bsize * bsize < lim := by
      have := Nat.div_mul_le_self off bsize
      omega
    have hne := hfull _ hstart
    have hbn := index_lt hstart hlim
    set m := piece off (n - tot) with hm
    have hle : m ≤ n - tot := Nat.min_le_left _ _
    obtain ⟨len, hlen⟩ := Nat.exists_eq_add_of_le hle
    have hbmap : onFs (bmap alloc ip (off / bsize)) s =
        .ok ((ip, ip.place s.disk.block (off / bsize)), s) := by
      unfold onFs Fallible.zoom
      rw [bmap_found alloc hbn hne]
      rfl
    -- the bytes of the block are those of the file
    have hbytes : ∀ j < m, s.disk.block (ip.place s.disk.block (off / bsize)) (off % bsize + j) =
        ip.byteAt s.disk.block (off + j) := by
      intro j hj
      obtain ⟨hdiv, hmod⟩ := div_of_mem_piece off (n - tot) (o := off + j) (by omega) (by omega)
      rw [Dinode.byteAt, hdiv, if_neg hne, hmod, Nat.add_sub_cancel_left]
    unfold readUserLoop
    rw [bind_of_ok hbmap]
    dsimp only
    rw [if_neg hne, bind_of_ok (a := s) (t := s) rfl]
    change (eitherCopyout t dst _ m >>= _ : UserM _) s = _
    have hcopy : eitherCopyout t dst
        (fun j => s.disk.block (ip.place s.disk.block (off / bsize)) (off % bsize + j)) m s =
        .ok (decide (reach t dst m = m), s.setPhys
          (storeUser t dst (fun j => ip.byteAt s.disk.block (off + j)) (reach t dst m) s.phys)) := by
      unfold eitherCopyout
      rw [bind_of_ok (a := s) (t := s) rfl, copyoutTo_eq,
        Paging.storeUser_congr fun j hj => hbytes j (hj.trans_le (Paging.reach_le t dst m))]
      rfl
    rw [bind_of_ok hcopy]
    by_cases hall : reach t dst m = m
    · have hsome : ∀ j < m, (userPage t (dst + j)).isSome := fun j hj =>
        Paging.isSome_of_lt_reach (hall.symm ▸ hj)
      have hreach : reach t dst (n - tot) = m + reach t (dst + m) len := by
        rw [hlen, Paging.reach_add hsome]
      have hrest : n - (tot + m) = len := by omega
      rw [decide_eq_true hall, if_pos rfl, hall]
      change readUserLoop alloc t c ip (dst + m) (off + m) n (tot + m) _ = _
      have hnext := ih (s := s.setPhys
          (storeUser t dst (fun j => ip.byteAt s.disk.block (off + j)) m s.phys)) hfull
        (dst + m) (off + m) (tot + m)
        (by rw [hrest, nblocks_step hc, ← hm, hlen, Nat.add_sub_cancel_left]) (by omega) (by omega)
      have hiff : (m + reach t (dst + m) len = n - tot) = (reach t (dst + m) len = len) := by
        rw [hlen, Nat.add_left_cancel_iff]
      have hshift : (fun j => ip.byteAt s.disk.block (off + (m + j))) =
          fun j => ip.byteAt s.disk.block (off + m + j) := by
        simp only [Nat.add_assoc]
      rw [hnext, hrest, hreach, Paging.storeUser_add, hshift]
      simp only [hiff]
      rfl
    · have hlt : reach t dst m < m := lt_of_le_of_ne (Paging.reach_le t dst m) hall
      have hreach : reach t dst (n - tot) = reach t dst m := by rw [hlen, Paging.reach_of_lt hlt]
      rw [decide_eq_false hall, if_neg (by simp), hreach, if_neg (by omega)]
      rfl

def readLen (size off n : ℕ) : ℕ :=
  if size < off ∨ (off + n) % 2 ^ 32 < off then 0 else min n (size - off)

theorem readUser_found (alloc : DiskM ℕ) (hfull : ip.Full s.disk.block ip.size)
    (hsmall : ip.size ≤ maxfile * bsize) (dst off n : ℕ) :
    readUser alloc t ip dst off n s =
      .ok ((ip, if reach t dst (readLen ip.size off n) = readLen ip.size off n then
          (readLen ip.size off n : ℤ) else -1),
        s.setPhys (storeUser t dst (fun j => ip.byteAt s.disk.block (off + j))
          (reach t dst (readLen ip.size off n)) s.phys)) := by
  by_cases hout : ip.size < off ∨ (off + n) % 2 ^ 32 < off
  · rw [readUser, readLen, if_pos hout, if_pos hout]
    rfl
  · -- the test against the size leaves the shorter of the two lengths
    have hlen : (if ip.size < off + n then ip.size - off else n) = min n (ip.size - off) := by
      split <;> omega
    rw [readUser, readLen, if_neg hout, if_neg hout]
    change readUserLoop alloc t (nblocks off (if ip.size < off + n then ip.size - off else n)) ip dst
      off (if ip.size < off + n then ip.size - off else n) 0 s = _
    rw [hlen]
    have hloop := readUserLoop_found alloc (t := t) hsmall hfull _ dst off (min n (ip.size - off)) 0
      rfl (by omega) (Nat.zero_le _)
    exact hloop

/-- `k` bytes of the file, no more than were asked for, stand at the user address; `r` is
-1 or `k`, and the offset has moved by it if it is positive. -/
structure Delivers (t : Table) (addr : ℕ) (n : ℤ) (off : ℕ) (bytes phys : Memory) (r : ℤ) (off' : ℕ)
    (phys' : Memory) : Prop where
  stored : ∃ k : ℕ, (k : ℤ) ≤ max n 0 ∧ (∀ j < k, (userPage t (addr + j)).isSome) ∧
    phys' = storeUser t addr bytes k phys ∧ (r = -1 ∨ r = k)
  offset : (off' : ℤ) = if 0 < r then off + r else off

/-- The call returns, leaves the file as it is, and delivers what was asked for, whatever
the memory holds. -/
def ReadsWell (sb : Super) (t : Table) (f : InodeFile) (ip : Dinode) (d : Disk) (addr : ℕ) (n : ℤ) :
    Prop :=
  ∀ phys, Runs (fileread sb t f ip addr n) ⟨d, phys⟩ fun x s' =>
    x.1 = ip ∧ s'.disk = d ∧
      Delivers t addr n f.off (fun j => ip.byteAt d.block (f.off + j)) phys x.2.2 x.2.1.off s'.phys

section

variable {f : InodeFile} {d : Disk} {addr : ℕ} {n : ℤ}

theorem fileread_found (sb : Super) (hread : f.readable = true) (hfull : ip.Full d.block ip.size)
    (hsmall : ip.size ≤ maxfile * bsize) (addr : ℕ) (n : ℤ) (phys : Memory)
    {len : ℕ} (hlen : len = readLen ip.size f.off (n % 2 ^ 32).toNat) :
    Runs (fileread sb t f ip addr n) ⟨d, phys⟩ fun x s' =>
      x.1 = ip ∧ s'.disk = d ∧ x.2.2 = (if reach t addr len = len then (len : ℤ) else -1) ∧
        (x.2.1.off : ℤ) = (if 0 < x.2.2 then f.off + x.2.2 else f.off) ∧
        s'.phys = storeUser t addr (fun j => ip.byteAt d.block (f.off + j)) (reach t addr len) phys := by
  have hrun := readUser_found (t := t) (s := ⟨d, phys⟩) (balloc sb) hfull hsmall addr f.off
    (n % 2 ^ 32).toNat
  rw [← hlen] at hrun
  have hroom : 0 < len → f.off + len ≤ ip.size := by
    rw [hlen, readLen]
    split_ifs <;> omega
  have hmax : maxfile * bsize < 2 ^ 32 := by decide
  unfold fileread
  rw [if_neg (by simp [hread])]
  refine runs_bind_of_ok hrun ?_
  dsimp only
  by_cases hall : reach t addr len = len
  · rw [if_pos hall]
    by_cases hpos : 0 < len
    · rw [if_pos (by omega)]
      refine .pure ⟨rfl, rfl, rfl, ?_, rfl⟩
      dsimp only
      rw [if_pos (by omega), Int.toNat_natCast, Nat.mod_eq_of_lt (by have := hroom hpos; omega)]
      push_cast
      rfl
    · rw [if_neg (by omega)]
      refine .pure ⟨rfl, rfl, rfl, ?_, rfl⟩
      dsimp only
      rw [if_neg (by omega)]
  · rw [if_neg hall, if_neg (by decide)]
    exact .pure ⟨rfl, rfl, rfl, rfl, rfl⟩

theorem readLen_of_nonneg {size off : ℕ} (h : 0 ≤ n) (hhi : n < 2 ^ 31) :
    (readLen size off (n % 2 ^ 32).toNat : ℤ) ≤ n := by
  have hn : (n % 2 ^ 32).toNat = n.toNat := by rw [Int.emod_eq_of_lt h (by omega)]
  rw [hn, readLen]
  split_ifs <;> omega

theorem readLen_of_neg {size off : ℕ} (h : n < 0) (hlo : -2 ^ 31 ≤ n) (hsize : size < 2 ^ 31)
    (hoff : off < 2 ^ 32) :
    readLen size off (n % 2 ^ 32).toNat = if 0 ≤ (off : ℤ) + n then 0 else size - off := by
  have hn : n % 2 ^ 32 = 2 ^ 32 + n := by omega
  obtain ⟨m, hm⟩ : ∃ m : ℕ, (2 ^ 32 + n) = m := ⟨(2 ^ 32 + n).toNat, by omega⟩
  rw [hn, hm, Int.toNat_natCast, readLen]
  split_ifs <;> omega

/-- A read delivers what was asked for if and only if the file is not readable, the count
is not negative, nothing is left at the offset, the offset is no less than what the count
lacks to 0, or the first user address is refused. -/
theorem fileread_delivers_iff (hfull : ip.Full d.block ip.size)
    (hsmall : ip.size ≤ maxfile * bsize) (hoff : f.off < 2 ^ 32) (hlo : -2 ^ 31 ≤ n) (hhi : n < 2 ^ 31) :
    ReadsWell sb t f ip d addr n ↔
      f.readable = false ∨ 0 ≤ n ∨ ip.size ≤ f.off ∨ 0 ≤ (f.off : ℤ) + n ∨ userPage t addr = none := by
  have hmax : maxfile * bsize < 2 ^ 31 := by decide
  have hsize : ip.size < 2 ^ 31 := hsmall.trans_lt hmax
  have hneg (hn : n < 0) := readLen_of_neg hn hlo hsize hoff
  set len := readLen ip.size f.off (n % 2 ^ 32).toNat with hlen
  constructor
  · intro h
    by_contra hcon
    simp only [not_or, not_le, Bool.not_eq_false] at hcon
    obtain ⟨hread, hn, hleft, hwrap, hpage⟩ := hcon
    have hpos : 0 < reach t addr len := by
      obtain ⟨k, hk⟩ : ∃ k, len = k + 1 := by
        refine ⟨ip.size - f.off - 1, ?_⟩
        rw [hneg hn, if_neg (by omega)]
        omega
      rw [hk, reach, if_pos (Option.isSome_iff_ne_none.2 hpage)]
      exact Nat.succ_pos _
    obtain ⟨pa, hpa⟩ := Option.ne_none_iff_exists'.1 hpage
    have hq : paddr t (addr + 0) = some (pa * Paging.pgsize + addr % Paging.pgsize) := by
      rw [Nat.add_zero, paddr, hpa]
      rfl
    -- memory that differs from what the call stores there
    set q := pa * Paging.pgsize + addr % Paging.pgsize
    set bytes : Memory := fun j => ip.byteAt d.block (f.off + j)
    obtain ⟨b, hb⟩ := Paging.exists_byte_ne (storeUser t addr bytes (reach t addr len) (fun _ => 0) q)
    obtain ⟨x, s', hrun, -, -, -, -, hphys⟩ :=
      fileread_found (t := t) (f := f) sb hread hfull hsmall addr n (fun _ => b) hlen
    obtain ⟨-, -, hdel⟩ := (h fun _ => b).of_eq hrun
    obtain ⟨k, hk, -, hstored, -⟩ := hdel.stored
    obtain rfl : k = 0 := by omega
    have hval := congrFun (hphys.symm.trans hstored) q
    rw [Paging.storeUser_indep bytes ⟨0, hpos, hq⟩ _ fun _ => 0] at hval
    exact hb hval.symm
  · intro h phys
    cases hread : f.readable with
    | false =>
      unfold fileread
      rw [hread, if_pos (by decide)]
      exact .pure ⟨rfl, rfl, ⟨0, le_max_right _ _, fun j hj => absurd hj (Nat.not_lt_zero j), rfl,
        Or.inl rfl⟩, rfl⟩
    | true =>
      have hbound : (reach t addr len : ℤ) ≤ max n 0 := by
        have hle := Paging.reach_le t addr len
        by_cases hn : 0 ≤ n
        · have hcount : (len : ℤ) ≤ n := readLen_of_nonneg hn hhi
          omega
        · have hzero : reach t addr len = 0 := by
            have hcount := hneg (not_le.1 hn)
            rcases h with h | h | h | h | h
            · rw [hread] at h
              cases h
            · exact absurd h hn
            · split_ifs at hcount <;> omega
            · rw [if_pos h] at hcount
              omega
            · exact Paging.reach_of_none h
          omega
      refine (fileread_found (t := t) sb hread hfull hsmall addr n phys hlen).mono ?_
      rintro ⟨ip', f', r⟩ s' ⟨hip, hdisk, hr, hmoved, hphys⟩
      refine ⟨hip, hdisk, ⟨reach t addr len, hbound, fun j hj => Paging.isSome_of_lt_reach hj, hphys,
        ?_⟩, hmoved⟩
      dsimp only at hr ⊢
      rw [hr]
      split_ifs with hall
      · rw [hall]
        exact .inr rfl
      · exact .inl rfl

end

def byteDisk : Disk := (smallRun 2).disk

theorem byteDisk_noHoles : NoHoles byteDisk 1 :=
  ((smallRun_reached (.inr rfl)).sound (boot_sound smallDisk_image.tidy)).tidy.noHoles 1 (by decide)
    nofun

theorem fileread_delivers_iff_byte : ∃ s x, Paging.Reached Paging.smallImage s ∧
    s.proc ProcTable.initproc = some x ∧
    ReadsWell smallSuper x.pagetable ⟨true, 0⟩ (byteDisk.dinode 1) byteDisk 4095 1 := by
  obtain ⟨s, x, hs, hx, -, -⟩ := PipeChannel.smallImage_page
  refine ⟨s, x, hs, hx, (fileread_delivers_iff byteDisk_noHoles.full byteDisk_noHoles.small
    (by decide) (by decide) (by decide)).2 (.inr (.inl (by decide)))⟩

/-- A read of -1 bytes at offset 0 delivers the byte, returns 1 and moves the offset. -/
theorem fileread_negative_delivers : ∃ s x q, Paging.Reached Paging.smallImage s ∧
    s.proc ProcTable.initproc = some x ∧ paddr x.pagetable 4095 = some q ∧
    ∀ phys, Runs (fileread smallSuper x.pagetable ⟨true, 0⟩ (byteDisk.dinode 1) 4095 (-1))
      ⟨byteDisk, phys⟩ fun y s' =>
        y.2.2 = 1 ∧ y.2.1.off = 1 ∧ s'.phys = Function.update phys q 7 := by
  obtain ⟨s, x, hs, hx, hfirst, -⟩ := PipeChannel.smallImage_page
  obtain ⟨q, hq⟩ := Option.isSome_iff_exists.1 (PipeChannel.paddr_isSome.trans hfirst)
  have hone : reach x.pagetable 4095 1 = 1 := by rw [reach, if_pos hfirst]; rfl
  refine ⟨s, x, q, hs, hx, hq, fun phys => ?_⟩
  have hlen : 1 = readLen (byteDisk.dinode 1).size 0 ((-1) % 2 ^ 32 : ℤ).toNat := by decide
  refine .mono (fileread_found (f := ⟨true, 0⟩) smallSuper rfl byteDisk_noHoles.full
    byteDisk_noHoles.small 4095 (-1) phys hlen) ?_
  rintro y s' ⟨-, -, hr, hoff, hphys⟩
  rw [hone, if_pos rfl] at hr
  rw [hr] at hoff
  rw [hone, storeUser, Nat.add_zero, hq] at hphys
  refine ⟨hr, ?_, hphys⟩
  exact Int.natCast_inj.1 hoff

end Xv6MallocLab.FileSystem
