import Xv6MallocLab.UserStores

/-!
# The two `memmove`s

The kernel's `memmove` copies downwards when the source begins before the destination and
reaches into it, the user library's whenever the source does not begin behind it.  Pointers
have 64 bits, and the one behind the last byte may be 0.
-/

namespace Xv6MallocLab.Memmove

open ByteMemory Function

section Cells

variable {α : Type*} {m m' : ℕ → α} {dst src lo hi : ℕ}

/-- The cells `lo` to `hi` of the destination have what was in the source, and no other
cell has changed. -/
structure Moved (m : ℕ → α) (dst src lo hi : ℕ) (m' : ℕ → α) : Prop where
  inside : ∀ i, lo ≤ i → i < hi → m' (dst + i) = m (src + i)
  outside : ∀ a, a < dst + lo ∨ dst + hi ≤ a → m' a = m a

theorem Moved.refl (m : ℕ → α) (dst src k : ℕ) : Moved m dst src k k m where
  inside i hlo hhi := absurd hhi (by omega)
  outside _ _ := rfl

theorem Moved.up (h : Moved m dst src lo hi m') (hle : lo ≤ hi)
    (hintact : src + hi < dst + lo ∨ dst + hi ≤ src + hi) :
    Moved m dst src lo (hi + 1) (update m' (dst + hi) (m' (src + hi))) where
  inside i hlo hhi := by
    by_cases hi' : i = hi
    · rw [hi', update_self, h.outside _ hintact]
    · rw [update_of_ne (by omega), h.inside i hlo (by omega)]
  outside a ha := by
    rw [update_of_ne (by omega), h.outside a (by omega)]

theorem Moved.down (h : Moved m dst src (lo + 1) hi m') (hlt : lo < hi)
    (hintact : src + lo < dst + (lo + 1) ∨ dst + hi ≤ src + lo) :
    Moved m dst src lo hi (update m' (dst + lo) (m' (src + lo))) where
  inside i hlo hhi := by
    by_cases hi' : i = lo
    · rw [hi', update_self, h.outside _ hintact]
    · rw [update_of_ne (by omega), h.inside i (by omega) hhi]
  outside a ha := by
    rw [update_of_ne (by omega), h.outside a (by omega)]

theorem Moved.unique {m'' : ℕ → α} (h : Moved m dst src 0 hi m') (h' : Moved m dst src 0 hi m'') :
    m' = m'' := by
  funext a
  by_cases ha : dst ≤ a ∧ a < dst + hi
  · obtain ⟨i, rfl⟩ := Nat.exists_eq_add_of_le ha.1
    rw [h.inside i (Nat.zero_le i) (by omega), h'.inside i (Nat.zero_le i) (by omega)]
  · rw [h.outside a (by omega), h'.outside a (by omega)]

end Cells

def copyByte (m : Memory) (d s : UInt64) : Memory := update m d.toNat (m s.toNat)

/-- The loop of `memmove` that copies upwards. -/
def copyUp (m : Memory) (d s : UInt64) : ℕ → Memory
  | 0 => m
  | n + 1 => copyUp (copyByte m d s) (d + 1) (s + 1) n

/-- The loop that copies downwards from the ends `d` and `s`. -/
def copyDown (m : Memory) (d s : UInt64) : ℕ → Memory
  | 0 => m
  | n + 1 => copyDown (copyByte m (d - 1) (s - 1)) (d - 1) (s - 1) n

/-- `memmove` of string.c: downwards if `dst` lies inside the source. -/
def kernelMemmove (m : Memory) (dst src : UInt64) (n : UInt32) : UInt64 × Memory :=
  if n = 0 then (dst, m)
  else if src < dst ∧ dst < src + n.toUInt64 then
    (dst, copyDown m (dst + n.toUInt64) (src + n.toUInt64) n.toNat)
  else (dst, copyUp m dst src n.toNat)

/-- `memmove` of ulib.c, whose `n` is an `int`. -/
def userMemmove (m : Memory) (dst src : UInt64) (n : Int32) : UInt64 × Memory :=
  if dst < src then (dst, copyUp m dst src n.toNatClampNeg)
  else
    (dst, copyDown m (dst + n.toInt64.toUInt64) (src + n.toInt64.toUInt64) n.toNatClampNeg)

/-- Both ranges of `n` bytes end at the end of the address space or before it. -/
def InRange (dst src : UInt64) (n : ℕ) : Prop := dst.toNat + n ≤ 2 ^ 64 ∧ src.toNat + n ≤ 2 ^ 64

theorem add_ofNat_succ (p : UInt64) (k : ℕ) : p + UInt64.ofNat (k + 1) = p + UInt64.ofNat k + 1 := by
  rw [UInt64.ofNat_add, UInt64.add_assoc]
  rfl

theorem toNat_add_ofNat {p : UInt64} {k : ℕ} (h : p.toNat + k < 2 ^ 64) :
    (p + UInt64.ofNat k).toNat = p.toNat + k := by
  rw [UInt64.toNat_add, UInt64.toNat_ofNat', Nat.add_mod_mod, Nat.mod_eq_of_lt h]

section Loops

variable {m m' : Memory} {d s : UInt64} {n k : ℕ}

theorem copyByte_add (m : Memory) (h : InRange d s n) (hk : k < n) :
    copyByte m (d + UInt64.ofNat k) (s + UInt64.ofNat k) =
      update m (d.toNat + k) (m (s.toNat + k)) := by
  obtain ⟨hd, hs⟩ := h
  rw [copyByte, toNat_add_ofNat (by omega), toNat_add_ofNat (by omega)]

/-- With the first `k` bytes moved the loop moves the other ones: byte `k` of the source is
behind what has been written, or the ranges are apart. -/
theorem moved_copyUp (h : InRange d s n) (hdir : d ≤ s ∨ s.toNat + n ≤ d.toNat) (r : ℕ)
    (hr : k + r = n) (hm : Moved m d.toNat s.toNat 0 k m') :
    Moved m d.toNat s.toNat 0 n (copyUp m' (d + UInt64.ofNat k) (s + UInt64.ofNat k) r) := by
  induction r generalizing k m' with
  | zero =>
    rw [← hr]
    exact hm
  | succ r ih =>
    rw [UInt64.le_iff_toNat_le] at hdir
    rw [copyUp, copyByte_add m' h (by omega), ← add_ofNat_succ, ← add_ofNat_succ]
    exact ih (by omega) (hm.up (Nat.zero_le k) (by omega))

/-- With the bytes from `k` on moved the loop moves the first `k`: byte `k - 1` of the
source is before what has been written. -/
theorem moved_copyDown (h : InRange d s n) (hdir : s ≤ d) (hk : k ≤ n)
    (hm : Moved m d.toNat s.toNat k n m') :
    Moved m d.toNat s.toNat 0 n (copyDown m' (d + UInt64.ofNat k) (s + UInt64.ofNat k) k) := by
  induction k generalizing m' with
  | zero => exact hm
  | succ k ih =>
    rw [UInt64.le_iff_toNat_le] at hdir
    rw [copyDown, add_ofNat_succ, add_ofNat_succ, UInt64.add_sub_cancel, UInt64.add_sub_cancel,
      copyByte_add m' h (by omega)]
    exact ih (by omega) (hm.down (by omega) (by omega))

end Loops

section Functions

variable (m : Memory) {dst src : UInt64}

def Moves (m : Memory) (dst src : UInt64) (n : ℕ) (r : UInt64 × Memory) : Prop :=
  r.1 = dst ∧ Moved m dst.toNat src.toNat 0 n r.2

theorem moves_copyUp {n : ℕ} (h : InRange dst src n) (hdir : dst ≤ src ∨ src.toNat + n ≤ dst.toNat) :
    Moves m dst src n (dst, copyUp m dst src n) := by
  have hloop := moved_copyUp h hdir n (Nat.zero_add n) (Moved.refl m _ _ 0)
  rw [show UInt64.ofNat 0 = 0 from rfl, UInt64.add_zero, UInt64.add_zero] at hloop
  exact ⟨rfl, hloop⟩

theorem moves_copyDown {n : ℕ} (h : InRange dst src n) (hdir : src ≤ dst) :
    Moves m dst src n (dst, copyDown m (dst + UInt64.ofNat n) (src + UInt64.ofNat n) n) :=
  ⟨rfl, moved_copyDown h hdir le_rfl (Moved.refl m _ _ n)⟩

theorem kernelMemmove_moves {n : UInt32} (h : InRange dst src n.toNat) :
    Moves m dst src n.toNat (kernelMemmove m dst src n) := by
  rw [kernelMemmove, ← UInt64.ofNat_uInt32ToNat]
  split_ifs with hzero hback
  · rw [hzero]
    exact ⟨rfl, Moved.refl m _ _ 0⟩
  · exact moves_copyDown m h (UInt64.le_of_lt hback.1)
  · apply moves_copyUp m h
    by_contra hcon
    rw [not_or, UInt64.not_le, not_le] at hcon
    obtain ⟨hlt, hreach⟩ := hcon
    -- the source ends before the destination does, so its end is a pointer that the test
    -- of the code compares as it should
    refine hback ⟨hlt, ?_⟩
    have hend := h.1
    rw [UInt64.lt_iff_toNat_lt] at hlt ⊢
    rwa [toNat_add_ofNat (by omega)]

theorem toNat_eq_of_nonneg {w : ℕ} {x : BitVec w} (h : 0 ≤ x.toInt) : (x.toNat : ℤ) = x.toInt := by
  have hlt := x.isLt
  rw [BitVec.toInt_eq_toNat_cond] at h ⊢
  split_ifs at h ⊢
  · rfl
  · omega

theorem toNat_toUInt32 {n : Int32} (hn : 0 ≤ n) : n.toUInt32.toNat = n.toNatClampNeg := by
  have hval : (n.toUInt32.toNat : ℤ) = n.toInt := toNat_eq_of_nonneg (Int32.le_iff_toInt_le.1 hn)
  rw [← Int32.toNat_toInt]
  omega

theorem toUInt64_toInt64 {n : Int32} (hn : 0 ≤ n) :
    n.toInt64.toUInt64 = UInt64.ofNat n.toNatClampNeg := by
  have hpos : 0 ≤ n.toInt64.toInt := by
    rw [Int32.toInt_toInt64]
    exact Int32.le_iff_toInt_le.1 hn
  have hval : (n.toInt64.toUInt64.toNat : ℤ) = n.toInt64.toInt := toNat_eq_of_nonneg hpos
  rw [Int32.toInt_toInt64] at hval
  have hnat : n.toInt64.toUInt64.toNat = n.toNatClampNeg := by
    rw [← Int32.toNat_toInt]
    omega
  rw [← hnat, UInt64.ofNat_toNat]

theorem userMemmove_moves {n : Int32} (hn : 0 ≤ n) (h : InRange dst src n.toNatClampNeg) :
    Moves m dst src n.toNatClampNeg (userMemmove m dst src n) := by
  rw [userMemmove, toUInt64_toInt64 hn]
  split_ifs with hup
  · exact moves_copyUp m h (Or.inl (UInt64.le_of_lt hup))
  · exact moves_copyDown m h (UInt64.not_lt.1 hup)

theorem Moves.unique {m : Memory} {n : ℕ} {r r' : UInt64 × Memory} (h : Moves m dst src n r)
    (h' : Moves m dst src n r') : r = r' :=
  Prod.ext (h.1.trans h'.1.symm) (h.2.unique h'.2)

/-- The `memmove` that the copies between kernel and user memory are written with. -/
theorem kernelMemmove_eq {n : UInt32} (h : InRange dst src n.toNat) :
    kernelMemmove m dst src n =
      (dst, Paging.memmove m dst.toNat (fun i => m (src.toNat + i)) n.toNat) := by
  apply (kernelMemmove_moves m h).unique
  refine ⟨rfl, fun i _ hi => ?_, fun a ha => ?_⟩
  · dsimp only [Paging.memmove]
    rw [if_pos (by omega), Nat.add_sub_cancel_left]
  · exact if_neg (by omega)

end Functions

/-- However ranges that do not wrap around overlap, both functions move the bytes. -/
theorem memmoves_move_bytes (m : Memory) (dst src : UInt64) :
    (∀ n : UInt32, InRange dst src n.toNat → Moves m dst src n.toNat (kernelMemmove m dst src n)) ∧
      (∀ n : Int32, 0 ≤ n → InRange dst src n.toNatClampNeg →
        Moves m dst src n.toNatClampNeg (userMemmove m dst src n)) ∧
      ∀ n : Int32, 0 ≤ n → InRange dst src n.toNatClampNeg →
        userMemmove m dst src n = kernelMemmove m dst src n.toUInt32 := by
  refine ⟨fun n h => kernelMemmove_moves m h, fun n hn h => userMemmove_moves m hn h, ?_⟩
  intro n hn h
  have huser := userMemmove_moves m hn h
  rw [← toNat_toUInt32 hn] at h huser
  exact huser.unique (kernelMemmove_moves m h)

theorem memmoves_move_bytes_up :
    InRange 1 0 3 ∧ Moves (fun a => UInt8.ofNat a) 1 0 3 (kernelMemmove (fun a => UInt8.ofNat a) 1 0 3) ∧
      userMemmove (fun a => UInt8.ofNat a) 1 0 3 = kernelMemmove (fun a => UInt8.ofNat a) 1 0 3 := by
  have hrange : InRange 1 0 3 := ⟨by decide, by decide⟩
  obtain ⟨hkernel, -, hsame⟩ := memmoves_move_bytes (fun a => UInt8.ofNat a) 1 0
  exact ⟨hrange, hkernel 3 hrange, hsame 3 (by decide) hrange⟩

end Xv6MallocLab.Memmove
