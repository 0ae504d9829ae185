import Xv6MallocLab.UmmallocAlloc

/-!
# Bit arithmetic of the slot allocator

The header word packs a multiple of eight with three flag bits, slots are found through
the lowest set bit of the bitmap, and logarithms are computed by five halving rounds.
-/

namespace Xv6MallocLab.Ummalloc

open ByteMemory

theorem and_fullMask (k f : ℕ) (hf : f < 8) : (8 * k + f) &&& fullMask = f := by
  have hmask : fullMask = 2 ^ 3 - 1 := rfl
  rw [hmask, Nat.and_two_pow_sub_one_eq_mod]
  omega

theorem and_sizeMask (k f : ℕ) (hf : f < 8) (hk : 8 * k + f < 2 ^ 32) :
    (8 * k + f) &&& sizeMask = 8 * k := by
  have hword : 8 * k + f = 8 * k ||| f := Nat.two_pow_add_eq_or_of_lt (i := 3) hf k
  have hlow : f &&& sizeMask = 0 := by
    interval_cases f <;> rfl
  have hhigh : 8 * k &&& sizeMask = 8 * k := by
    have hmask : sizeMask = (2 ^ 29 - 1) <<< 3 := rfl
    have hshift : 8 * k = k <<< 3 := by rw [Nat.shiftLeft_eq]; omega
    rw [hmask, hshift, ← Nat.shiftLeft_and_distrib, Nat.and_two_pow_sub_one_eq_mod,
      Nat.mod_eq_of_lt (by omega)]
  rw [hword, Nat.and_or_distrib_right, hlow, hhigh, Nat.or_zero]

theorem or_flags (k f g : ℕ) (hf : f < 8) (hg : g < 8) : (8 * k + f) ||| g = 8 * k + (f ||| g) := by
  have hor : f ||| g < 2 ^ 3 := Nat.or_lt_two_pow hf hg
  rw [show 8 * k + f = 8 * k ||| f from Nat.two_pow_add_eq_or_of_lt (i := 3) hf k, Nat.or_assoc]
  exact (Nat.two_pow_add_eq_or_of_lt (i := 3) hor k).symm

theorem flags_or (k f : ℕ) (hf : f < 8) : f ||| 8 * k = 8 * k + f := by
  rw [Nat.or_comm]
  exact (Nat.two_pow_add_eq_or_of_lt (i := 3) hf k).symm

/-- What the halving rounds maintain: the remaining bits are the argument
without its low `t` bits, and they vanish only if nothing was shifted out. -/
structure RoundInvariant (y bound : ℕ) (state : ℕ × ℕ) : Prop where
  shifted : y / 2 ^ state.1 = state.2
  small : state.2 < 2 ^ bound
  nonzero : state.2 = 0 → state.1 = 0

variable {y index : ℕ} {mask : BitVec 64}

theorem RoundInvariant.round {state : ℕ × ℕ} (shift : ℕ)
    (hround : RoundInvariant y (2 * shift) state) :
    RoundInvariant y shift (log2Round shift state) := by
  obtain ⟨t, x⟩ := state
  have hsmall : x < 2 ^ shift * 2 ^ shift := by
    have hlt := hround.small
    rwa [two_mul, pow_add] at hlt
  have hpos : 0 < 2 ^ shift := Nat.two_pow_pos shift
  by_cases hx : x >>> shift = 0
  · have hlt : x < 2 ^ shift := by
      rw [Nat.shiftRight_eq_div_pow] at hx
      exact (Nat.div_eq_zero_iff_lt hpos).mp hx
    have heq : log2Round shift (t, x) = (t, x) := by simp [log2Round, hx]
    rw [heq]
    exact ⟨hround.shifted, hlt, hround.nonzero⟩
  · have heq : log2Round shift (t, x) = (t + shift, x / 2 ^ shift) := by
      rw [← Nat.shiftRight_eq_div_pow]
      simp only [log2Round, ne_eq, hx, not_false_eq_true, if_true]
    rw [heq]
    refine ⟨?_, (Nat.div_lt_iff_lt_mul hpos).mpr hsmall, ?_⟩
    · change y / 2 ^ (t + shift) = x / 2 ^ shift
      rw [pow_add, ← Nat.div_div_eq_div_mul]
      exact congrArg (· / 2 ^ shift) hround.shifted
    · intro hzero
      exact absurd hzero (by rwa [Nat.shiftRight_eq_div_pow] at hx)

variable {x j size : ℕ}

theorem log2Ceil64_bounds (hy : (x + 2 ^ 64 - 1) % 2 ^ 64 = y) :
    y < 2 ^ log2Ceil64 x ∧
      (y ≠ 0 → 0 < log2Ceil64 x ∧ 2 ^ (log2Ceil64 x - 1) ≤ y) := by
  have hlt : y < 2 ^ 64 := by
    rw [← hy]
    exact Nat.mod_lt _ (Nat.two_pow_pos 64)
  have hstart : RoundInvariant y (2 * 32) (0, y) :=
    ⟨by simp, hlt, fun _ => rfl⟩
  have hdone := ((((hstart.round 32).round 16).round 8).round 4).round 2
  obtain ⟨t, r, hstate⟩ : ∃ t r, log2Round 2 (log2Round 4 (log2Round 8
      (log2Round 16 (log2Round 32 (0, y))))) = (t, r) := ⟨_, _, rfl⟩
  rw [hstate] at hdone
  obtain ⟨hshifted, hsmall, hnonzero⟩ := hdone
  simp only at hshifted hsmall hnonzero
  have hvalue : log2Ceil64 x = t + r + (if r < 3 then 1 else 0) - 1 := by
    simp only [log2Ceil64, hy, hstate]
  have hpos : 0 < 2 ^ t := Nat.two_pow_pos t
  have hlow : 2 ^ t * r ≤ y := by
    rw [← hshifted]
    exact Nat.mul_div_le y (2 ^ t)
  have hhigh : y < 2 ^ t * (r + 1) := by
    rw [← hshifted]
    exact Nat.lt_mul_div_succ y hpos
  interval_cases r
  · have ht : t = 0 := hnonzero rfl
    subst ht
    simp only [hvalue] at hhigh ⊢
    exact ⟨by simpa using hhigh, fun hne => by omega⟩
  · have hr : log2Ceil64 x = t + 1 := by simp [hvalue]
    rw [hr, pow_succ, Nat.add_sub_cancel]
    exact ⟨by omega, fun _ => ⟨by omega, by omega⟩⟩
  · have hr : log2Ceil64 x = t + 2 := by simp [hvalue]
    rw [hr, pow_add, show t + 2 - 1 = t + 1 from rfl, pow_succ]
    exact ⟨by omega, fun _ => ⟨by omega, by omega⟩⟩
  · have hr : log2Ceil64 x = t + 2 := by simp [hvalue]
    rw [hr, pow_add, show t + 2 - 1 = t + 1 from rfl, pow_succ]
    exact ⟨by omega, fun _ => ⟨by omega, by omega⟩⟩

theorem log2Floor64_eq (hpos : x ≠ 0) (hlt : x < 2 ^ 64) : log2Floor64 x = x.log2 := by
  have hwrap : ((x + 1) % 2 ^ 64 + 2 ^ 64 - 1) % 2 ^ 64 = x := by omega
  obtain ⟨hhigh, hlow⟩ := log2Ceil64_bounds hwrap
  obtain ⟨hr, hle⟩ := hlow hpos
  have hlog : x.log2 = log2Ceil64 ((x + 1) % 2 ^ 64) - 1 := by
    rw [Nat.log2_eq_iff hpos]
    exact ⟨hle, by rwa [Nat.sub_add_cancel hr]⟩
  have hbound : x.log2 < 64 := (Nat.log2_lt hpos).mpr hlt
  rw [log2Floor64]
  omega

theorem log2Ceil64_two_pow (hj : j < 64) : log2Ceil64 (2 ^ j) = j := by
  have hcheck : ∀ j < 64, log2Ceil64 (2 ^ j) = j := by decide
  exact hcheck j hj

theorem log2Ceil64_isLeast (hpos : x ≠ 0) (hlt : x < 2 ^ 64) :
    IsLeast {r | x ≤ 2 ^ r} (log2Ceil64 x) := by
  have hpred : (x + 2 ^ 64 - 1) % 2 ^ 64 = x - 1 := by omega
  obtain ⟨hhigh, hlow⟩ := log2Ceil64_bounds hpred
  refine ⟨by change x ≤ _; omega, fun r hr => ?_⟩
  change x ≤ 2 ^ r at hr
  by_contra hless
  by_cases hone : x - 1 = 0
  · have hzero : log2Ceil64 x = 0 := by
      rw [show x = 2 ^ 0 by omega, log2Ceil64_two_pow (by decide)]
    omega
  · obtain ⟨hr0, hle⟩ := hlow hone
    have hmono : 2 ^ r ≤ 2 ^ (log2Ceil64 x - 1) := Nat.pow_le_pow_right (by decide) (by omega)
    omega

theorem log2Floor64_isGreatest (hpos : x ≠ 0) (hlt : x < 2 ^ 64) :
    IsGreatest {j | x.testBit j = true} (log2Floor64 x) := by
  rw [log2Floor64_eq hpos hlt]
  refine ⟨Nat.testBit_log2 hpos, fun j hj => ?_⟩
  exact (Nat.le_log2 hpos).2 (Nat.ge_two_pow_of_testBit hj)

theorem getLsbD_bitAt (hindex : index < 64) : (bitAt index).getLsbD j = decide (j = index) := by
  rw [bitAt, Nat.mod_eq_of_lt hindex, ← BitVec.twoPow_eq, BitVec.getLsbD_twoPow]
  grind

theorem toNat_bitAt (hj : j < 64) : (bitAt j).toNat = 2 ^ j := by
  rw [bitAt, Nat.mod_eq_of_lt hj, ← BitVec.twoPow_eq, BitVec.toNat_twoPow_of_lt hj]

theorem getLsbD_lowbit :
    (mask &&& -mask).getLsbD j = true ↔
      mask.getLsbD j = true ∧ ∀ i < j, mask.getLsbD i = false := by
  simp only [BitVec.getLsbD_and, BitVec.getLsbD_neg]
  have hj : mask.getLsbD j = true → j < 64 := BitVec.lt_of_getLsbD
  grind

theorem lowbit_eq (hne : mask ≠ 0) :
    ∃ j < 64, mask.getLsbD j = true ∧ (∀ i < j, mask.getLsbD i = false) ∧
      mask &&& -mask = bitAt j := by
  classical
  have hex : ∃ j, mask.getLsbD j = true := by
    by_contra hnone
    apply hne
    apply BitVec.eq_of_getLsbD_eq
    intro j _
    rw [BitVec.ofNat_eq_ofNat, BitVec.getLsbD_zero]
    exact Bool.eq_false_iff.mpr fun hset => hnone ⟨j, hset⟩
  have hspec := Nat.find_spec hex
  have hmin : ∀ i < Nat.find hex, mask.getLsbD i = false :=
    fun i hi => Bool.eq_false_iff.mpr (Nat.find_min hex hi)
  have hlt : Nat.find hex < 64 := BitVec.lt_of_getLsbD hspec
  refine ⟨Nat.find hex, hlt, hspec, hmin, ?_⟩
  apply BitVec.eq_of_getLsbD_eq
  intro j _
  rw [Bool.eq_iff_iff, getLsbD_lowbit, getLsbD_bitAt hlt, decide_eq_true_eq]
  constructor
  · rintro ⟨hset, hbelow⟩
    by_contra hother
    rcases Nat.lt_or_gt_of_ne hother with hless | hmore
    · rw [hmin j hless] at hset
      exact Bool.false_ne_true hset
    · rw [hbelow _ hmore] at hspec
      exact Bool.false_ne_true hspec
  · rintro rfl
    exact ⟨hspec, hmin⟩

theorem bitAt_ne_zero (hj : j < 64) : bitAt j ≠ 0 := by
  intro hzero
  have hnat := toNat_bitAt hj
  rw [hzero] at hnat
  exact absurd hnat (Nat.two_pow_pos _).ne

theorem nextFree_zero (index : ℕ) : nextFree 0 index = 0 := by
  unfold nextFree
  simp

theorem nextFree_cases (bitmap : BitVec 64) (hindex : index < 63) :
    (nextFree bitmap index = 0 ∧ ∀ j, index < j → bitmap.getLsbD j = false) ∨
      (nextFree bitmap index ≠ 0 ∧
        ∃ j, index < j ∧ j < 64 ∧ bitmap.getLsbD j = true ∧
          (∀ i, index < i → i < j → bitmap.getLsbD i = false) ∧
          log2Ceil64 (nextFree bitmap index).toNat = j) := by
  unfold nextFree
  dsimp only
  have hshift : (index + 1) % 64 = index + 1 := Nat.mod_eq_of_lt (by omega)
  have hmask : ∀ i, (bitmap &&& (BitVec.allOnes 64 <<< ((index + 1) % 64))).getLsbD i =
      (decide (index < i) && bitmap.getLsbD i) := by
    intro i
    rw [hshift, BitVec.getLsbD_and, BitVec.getLsbD_shiftLeft, BitVec.getLsbD_allOnes]
    by_cases hi : i < 64
    · simp only [hi, decide_true, Bool.true_and]
      grind
    · simp [BitVec.getLsbD_of_ge bitmap i (by omega)]
  generalize bitmap &&& (BitVec.allOnes 64 <<< ((index + 1) % 64)) = mask at hmask ⊢
  by_cases hzero : mask = 0
  · left
    refine ⟨by simp [hzero], ?_⟩
    intro j hj
    have hbit := hmask j
    simpa [hzero, hj] using hbit.symm
  · right
    obtain ⟨j, hj, hset, hmin, heq⟩ := lowbit_eq hzero
    rw [heq, toNat_bitAt hj, log2Ceil64_two_pow hj]
    rw [hmask, Bool.and_eq_true, decide_eq_true_eq] at hset
    refine ⟨bitAt_ne_zero hj, j, hset.1, hj, hset.2, ?_, rfl⟩
    intro i hi hlt
    have hbit := hmin i hlt
    rwa [hmask, decide_eq_true hi, Bool.true_and] at hbit

/-- The slot search, and the logarithms it rests on, for all words. -/
theorem slot_search_exact (bitmap x : BitVec 64) :
    (∀ index < 63,
      (nextFree bitmap index = 0 ↔ ∀ j, index < j → bitmap.getLsbD j = false) ∧
      (nextFree bitmap index ≠ 0 → IsLeast {j | index < j ∧ bitmap.getLsbD j = true}
        (log2Ceil64 (nextFree bitmap index).toNat))) ∧
    (x = 0 → log2Ceil64 x.toNat = 64) ∧
    (x ≠ 0 → IsLeast {r | x.toNat ≤ 2 ^ r} (log2Ceil64 x.toNat) ∧
      IsGreatest {j | x.getLsbD j = true} (log2Floor64 x.toNat)) := by
  refine ⟨fun index hindex => ?_, ?_, fun hx => ?_⟩
  · rcases nextFree_cases bitmap hindex with ⟨hzero, hnone⟩ | ⟨hne, j, hj, hlt, hset, hmin, hlog⟩
    · exact ⟨⟨fun _ => hnone, fun _ => hzero⟩, fun hne => absurd hzero hne⟩
    · refine ⟨⟨fun hzero => absurd hzero hne, fun hnone => ?_⟩, fun _ => ?_⟩
      · rw [hnone j hj] at hset
        cases hset
      · rw [hlog]
        refine ⟨⟨hj, hset⟩, fun i hi => ?_⟩
        by_contra hless
        have hclear := hmin i hi.1 (by omega)
        rw [hi.2] at hclear
        cases hclear
  · rintro rfl
    rfl
  · have hpos : x.toNat ≠ 0 := fun h => hx (BitVec.eq_of_toNat_eq h)
    exact ⟨log2Ceil64_isLeast hpos x.isLt, log2Floor64_isGreatest hpos x.isLt⟩

theorem slot_search_exact_sample :
    IsLeast {j | 2 < j ∧ (0b101100#64).getLsbD j = true} (log2Ceil64 (nextFree 0b101100#64 2).toNat) ∧
      IsGreatest {j | (BitVec.allOnes 64).getLsbD j = true} (log2Floor64 (BitVec.allOnes 64).toNat) :=
  ⟨((slot_search_exact 0b101100#64 (BitVec.allOnes 64)).1 2 (by decide)).2 (by decide),
    ((slot_search_exact 0b101100#64 (BitVec.allOnes 64)).2.2 (by decide)).2⟩

/-- At the last slot the shift count wraps to zero, and any set bit of the
bitmap is taken. -/
theorem nextFree_last {bitmap : BitVec 64} (hne : bitmap ≠ 0) :
    nextFree bitmap 63 ≠ 0 ∧ log2Ceil64 (nextFree bitmap 63).toNat < 64 := by
  have hall : bitmap &&& (BitVec.allOnes 64 <<< ((63 + 1) % 64)) = bitmap := by
    change bitmap &&& (BitVec.allOnes 64 <<< 0) = bitmap
    rw [BitVec.shiftLeft_zero, BitVec.and_allOnes]
  obtain ⟨j, hj, -, -, heq⟩ := lowbit_eq hne
  unfold nextFree
  dsimp only
  rw [hall, heq, toNat_bitAt hj, log2Ceil64_two_pow hj]
  exact ⟨bitAt_ne_zero hj, hj⟩

def slotIndex (size : ℕ) : ℕ :=
  if size ≤ 512 then (size - 1) / 16
  else if size > 4096 then
    if size < 6144 then 48 else (size - 1) / 4096 + 48
  else if size ≤ 640 then (size + 1535) / 64 else 34 + (size - 513) / 256

theorem run_getIndex (hsize : 32 < size) (s : Process) :
    (getIndex size).run s = .ok (slotIndex size) s := by
  unfold getIndex slotIndex
  split_ifs <;> simp_all [Prog.run_impossible_of_not]

theorem slotIndex_bounds (hlow : 48 ≤ size) (hhigh : size ≤ 65536) :
    2 ≤ slotIndex size ∧ slotIndex size < 64 := by
  unfold slotIndex
  split_ifs <;> omega

theorem lt_of_slotIndex_lt {size' : ℕ} (h : slotIndex size < slotIndex size') : size < size' := by
  unfold slotIndex at h
  split_ifs at h <;> omega

theorem chunkSize_eq (size : UInt32) :
    (chunkSize size).toNat =
      ((size.toNat + 7) % 2 ^ 32 / 8 * 8 + 8) % 2 ^ 32 := by
  have hmask : (~~~ (7 : UInt32)).toNat = sizeMask := by decide
  have hseven : (7 : UInt32).toNat = 7 := rfl
  have height : (8 : UInt32).toNat = 8 := rfl
  rw [chunkSize, UInt32.toNat_add, UInt32.toNat_and, UInt32.toNat_add, hmask, hseven, height]
  have hsplit : (size.toNat + 7) % 2 ^ 32 =
      8 * ((size.toNat + 7) % 2 ^ 32 / 8) + (size.toNat + 7) % 2 ^ 32 % 8 := by omega
  rw [hsplit, and_sizeMask _ _ (by omega) (by omega)]
  omega

theorem chunkSize_mod (size : UInt32) : (chunkSize size).toNat % 8 = 0 := by
  rw [chunkSize_eq]
  omega

theorem chunkSize_of_lt {size : UInt32} (hsize : size.toNat + 15 < 2 ^ 32) :
    (chunkSize size).toNat = (size.toNat + 7) / 8 * 8 + 8 := by
  rw [chunkSize_eq]
  omega

end Xv6MallocLab.Ummalloc
