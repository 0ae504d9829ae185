import Xv6MallocLab.UmmallocPaths

/-!
# Fast pages

A page is a chunk in use whose first bytes hold a list node, the number of free cells and
two words with one bit per cell.  A page whose last cell is handed out moves from
`slots[1]` to `fast_full`.
-/

namespace Xv6MallocLab.Ummalloc

open ByteMemory CircularList List Prog

attribute [local irreducible] load store

variable {L : Layout} {first : ℕ}

namespace Arena.Shape

variable {A : Arena} {held : Set ℕ} {base : ℕ}

theorem interior_header (hA : A.Shape held first base) {c d : Chunk} (hc : c ∈ A.chunks)
    (hd : d ∈ A.chunks) {x : ℕ} (hx : d.addr ≤ x) (hx' : x < d.addr + 8) :
    ¬ (c.addr + 24 ≤ x ∧ x < c.addr + c.size) := by
  have hsize := hA.size_cases hd
  rcases hA.apart hc hd with rfl | hlt | hlt
  · omega
  · omega
  · omega

theorem interior_node (hA : A.Shape held first base) (hL : L.Below first) {c : Chunk}
    (hc : c ∈ A.chunks) {x : ℕ} (hx : A.NodeByte L x) :
    ¬ (c.addr + 24 ≤ x ∧ x < c.addr + c.size) := by
  obtain ⟨i, hi, hi', n, hn, hlow, hhigh⟩ := hx
  have := hA.node_page hL (hA.ring_nodeAt hi hi' hn) hc
  unfold Chunk.node at this
  omega

end Arena.Shape

variable {A : Arena} {held : Set ℕ} {m : Memory} {x n k : ℕ}

theorem Arena.Stored.interior {s : Process} (hS : A.Stored L s) (hA : A.Shape held first s.base)
    (hL : L.Below first) {c : Chunk} (hc : c ∈ A.chunks)
    (hsame : ∀ x, ¬ (c.addr + 24 ≤ x ∧ x < c.addr + c.size) → m x = s.mem x) :
    A.Stored L { s with mem := m } := by
  refine hS.rewrite rfl rfl ?_ ?_ ?_ hS.room hS.space
  · intro x hx
    exact hsame x (hA.interior_node hL hc hx)
  · intro d hd
    rw [← hS.size d hd]
    exact load_congr fun x hlow hhigh =>
      hsame x (hA.interior_header hc hd (by omega) (by omega))
  · intro d hd
    rw [← hS.prev d hd]
    exact load_congr fun x hlow hhigh =>
      hsame x (hA.interior_header hc hd (by omega) (by omega))

theorem Arena.Shape.regroup {A' : Arena} {base : ℕ} (hA : A.Shape held first base)
    (hchunks : A'.chunks = A.chunks) (hslots : ∀ i, 2 ≤ i → i < 64 → A'.bins i = A.bins i)
    (hpage : ∀ n, A'.IsPage n →
      ∃ addr size, A.Has addr size true ∧ addr ∉ held ∧ n = addr + 8 ∧ 4144 ≤ size)
    (hdisjoint : ∀ n ∈ A'.bins 1, n ∉ A'.bins 64) (hnodup : ∀ i, (A'.bins i).Nodup) :
    A'.Shape held first base := by
  have hhas : ∀ addr size used, A'.Has addr size used ↔ A.Has addr size used := by
    intro addr size used
    unfold Arena.Has
    rw [hchunks]
  refine ⟨hchunks ▸ hA.chain, hchunks ▸ hA.start, hchunks ▸ hA.top, hA.aligned, ?_, ?_,
    hdisjoint, hnodup⟩
  · intro i hi hi' n
    rw [hslots i hi hi', hA.free_iff i hi hi']
    simp only [hhas]
  · intro n hn
    obtain ⟨addr, size, hused, hout, hnode, hsize⟩ := hpage n hn
    exact ⟨addr, size, (hhas _ _ _).mpr hused, hout, hnode, hsize⟩

theorem Arena.Shape.used_fresh {base addr size : ℕ} (hA : A.Shape held first base)
    (hL : L.Below first) (hhas : A.Has addr size true) (hnew : ¬ A.IsPage (addr + 8)) {j : ℕ}
    (hj : 1 ≤ j) (hj' : j ≤ 64) : addr + 8 ∉ L.head j :: A.bins j := by
  obtain ⟨c, hc, rfl, rfl, hused⟩ := hhas
  intro hmem
  rcases mem_cons.mp hmem with heq | hin
  · have := hL.head_le hj'
    have := hA.first_le hc
    omega
  · by_cases hone : j = 1
    · subst hone
      exact hnew (.inl hin)
    by_cases hlast : j = 64
    · subst hlast
      exact hnew (.inr hin)
    obtain ⟨addr, size, hfree, -, haddr, -⟩ :=
      (hA.free_iff j (by omega) (by omega) _).mp hin
    obtain rfl : c.addr = addr := by omega
    exact Bool.noConfusion (hA.has_unique hfree ⟨c, hc, rfl, rfl, hused⟩).2

def pageMem (m : Memory) (p : ℕ) : Memory :=
  store 8 (store 8 (store 8 m (p + 16) (64 + 64)) (p + 24) minusOne) (p + 32) minusOne

theorem pageMem_apply {p : ℕ} (hout : x < p + 16 ∨ p + 40 ≤ x) : pageMem m p x = m x := by
  unfold pageMem
  simp (disch := omega) only [store_apply_of_outside]

theorem load_pageMem_count (m : Memory) (p : ℕ) : load 8 (pageMem m p) (p + 16) = 128 := by
  unfold pageMem
  rw [load_store_of_disjoint (by omega), load_store_of_disjoint (by omega),
    load_store_of_lt (by norm_num)]

theorem freeCells_pageMem (m : Memory) (p : ℕ) : freeCells (pageMem m p) p = Finset.range 128 := by
  have hfirst : load 8 (pageMem m p) (p + 24) = 2 ^ 64 - 1 := by
    unfold pageMem
    rw [load_store_of_disjoint (by omega), load_store_of_lt (by norm_num [minusOne])]
    rfl
  have hsecond : load 8 (pageMem m p) (p + 32) = 2 ^ 64 - 1 := by
    unfold pageMem
    rw [load_store_of_lt (by norm_num [minusOne])]
    rfl
  unfold freeCells
  apply Finset.filter_true_of_mem
  intro k hk
  have hk : k < 128 := Finset.mem_range.mp hk
  have hcase : k / 64 = 0 ∨ k / 64 = 1 := by omega
  rcases hcase with hdiv | hdiv
  · rw [hdiv, mul_zero, add_zero, hfirst, Nat.testBit_two_pow_sub_one, decide_eq_true_iff]
    exact Nat.mod_lt k (by omega)
  · rw [hdiv, mul_one, add_assoc, hsecond, Nat.testBit_two_pow_sub_one, decide_eq_true_iff]
    exact Nat.mod_lt k (by omega)

section AddPage

variable (h : Heap L first) {addr size : ℕ}

def addPageState (L : Layout) (p : ℕ) (s : Process) : Process :=
  { pushState L 1 p s with mem := pageMem (pushState L 1 p s).mem p }

theorem Heap.addPage_bytes (hhas : h.arena.Has addr size true) (hsize : 4144 ≤ size)
    (hnew : ¬ h.arena.IsPage (addr + 8)) {x : ℕ} (hx : h.arena.PageByte x) :
    (addPageState L (addr + 8) h.process).mem x = h.process.mem x := by
  obtain ⟨c, hc, rfl, rfl, hused⟩ := hhas
  have hnode : h.arena.NodeAt L (c.addr + 8) := Or.inr ⟨c, hc, by omega, rfl⟩
  have hpush := h.stored.push_bytes h.shape h.below le_rfl (by omega) hnode hx
  refine Eq.trans (pageMem_apply ?_) hpush
  obtain ⟨n, hn, hlow, hhigh⟩ := hx
  obtain ⟨_, _, ⟨d, hd, rfl, rfl, -⟩, -, rfl, hpage⟩ := h.shape.page n hn
  rcases h.shape.apart hc hd with rfl | hlt | hlt
  · exact absurd hn hnew
  · omega
  · omega

theorem Arena.Shape.addPage {A : Arena} {held : Set ℕ} {base : ℕ} (hA : A.Shape held first base)
    (hhas : A.Has addr size true) (hout : addr ∉ held) (hsize : 4144 ≤ size)
    (hnew : ¬ A.IsPage (addr + 8)) : (A.put 1 (addr + 8)).Shape held first base := by
  have hfast := A.put_bins_self 1 (addr + 8)
  have hother : ∀ i, i ≠ 1 → (A.put 1 (addr + 8)).bins i = A.bins i :=
    fun i => A.put_bins_of_ne (addr + 8)
  refine hA.regroup rfl (fun i hi _ => hother i (by omega)) ?_ ?_ ?_
  · intro n hn
    rw [Arena.IsPage, hfast, hother 64 (by omega), mem_cons, or_assoc] at hn
    rcases hn with rfl | hn
    · exact ⟨addr, size, hhas, hout, rfl, hsize⟩
    · exact hA.page n hn
  · intro n hn
    rw [hfast, mem_cons] at hn
    rw [hother 64 (by omega)]
    rcases hn with rfl | hn
    · exact fun hin => hnew (.inr hin)
    · exact hA.page_disjoint n hn
  · intro i
    by_cases hi : i = 1
    · subst hi
      rw [hfast]
      exact nodup_cons.mpr ⟨fun hin => hnew (.inl hin), hA.nodup 1⟩
    · rw [hother i hi]
      exact hA.nodup i

theorem Heap.addPage_stored (hhas : h.arena.Has addr size true) (hout : addr ∉ h.held)
    (hsize : 4144 ≤ size) (hnew : ¬ h.arena.IsPage (addr + 8)) :
    (h.arena.put 1 (addr + 8)).Stored L (addPageState L (addr + 8) h.process) := by
  have hshape := h.shape.addPage hhas hout hsize hnew
  obtain ⟨c, hc, rfl, rfl, hused⟩ := hhas
  have hnode : h.arena.NodeAt L (c.addr + 8) := Or.inr ⟨c, hc, by omega, rfl⟩
  have hbit : ∀ j, 2 ≤ j → j < 64 → (h.process.bitmap.getLsbD j = true ↔
      (h.arena.put 1 (c.addr + 8)).bins j ≠ []) := by
    intro j hj hj'
    rw [h.arena.put_bins_of_ne _ (by omega)]
    exact h.stored.bit j hj hj'
  have hpush := h.stored.push h.shape h.below le_rfl (by omega) hnode
    (fun j hj hj' => h.shape.used_fresh h.below ⟨c, hc, rfl, rfl, hused⟩ hnew hj hj') hbit
  exact hpush.interior hshape h.below hc fun x hx => pageMem_apply (by omega)

theorem Heap.addPage_counted (hhas : h.arena.Has addr size true) (hsize : 4144 ≤ size)
    (hnew : ¬ h.arena.IsPage (addr + 8)) :
    (h.arena.put 1 (addr + 8)).Counted (addPageState L (addr + 8) h.process).mem := by
  have hbytes := fun x => h.addPage_bytes hhas hsize hnew (x := x)
  have hold := h.counted.congr rfl rfl hbytes
  have hcount : load 8 (addPageState L (addr + 8) h.process).mem (addr + 8 + 16) = 128 :=
    load_pageMem_count _ _
  refine ⟨?_, ?_, ?_⟩
  · intro n hn
    rw [Arena.IsPage, h.arena.put_bins_self, h.arena.put_bins_of_ne _ (by omega),
      mem_cons, or_assoc] at hn
    rcases hn with rfl | hn
    · rw [hcount, addPageState, freeCells_pageMem, Finset.card_range]
    · exact hold.count n hn
  · intro n hn
    rw [h.arena.put_bins_self, mem_cons] at hn
    rcases hn with rfl | hn
    · rw [hcount]
      omega
    · exact hold.count_pos n hn
  · intro n hn
    rw [h.arena.put_bins_of_ne _ (by omega)] at hn
    exact hold.count_zero n hn

def Heap.addPage (hhas : h.arena.Has addr size true) (hout : addr ∉ h.held)
    (hsize : 4144 ≤ size) (hnew : ¬ h.arena.IsPage (addr + 8)) : Heap L first where
  arena := h.arena.put 1 (addr + 8)
  held := h.held
  process := addPageState L (addr + 8) h.process
  below := h.below
  shape := h.shape.addPage hhas hout hsize hnew
  stored := h.addPage_stored hhas hout hsize hnew
  counted := h.addPage_counted hhas hsize hnew

end AddPage

theorem testBit_clearBit64 {word b : ℕ} (hword : word < 2 ^ 64) (hb : b < 64) (j : ℕ) :
    (clearBit64 word b).testBit j = (word.testBit j && decide (j ≠ b)) := by
  rw [clearBit64, BitVec.testBit_toNat, getLsbD_clear hb, BitVec.getLsbD_ofNat]
  by_cases hj : j < 64
  · simp [hj]
  · have hlarge : word.testBit j = false :=
      Nat.testBit_lt_two_pow (hword.trans_le (Nat.pow_le_pow_right (by omega) (by omega)))
    simp [hlarge]

def clearMem (m : Memory) (n k : ℕ) : Memory :=
  store 8 m (n + 24 + 8 * (k / 64))
    (clearBit64 (load 8 m (n + 24 + 8 * (k / 64))) (k % 64))

theorem clearMem_apply (hk : k < 128) (hout : x < n + 24 ∨ n + 40 ≤ x) : clearMem m n k x = m x :=
  store_apply_of_outside (by omega)

theorem freeCells_clearMem (hk : k < 128) :
    freeCells (clearMem m n k) n = (freeCells m n).erase k := by
  ext j
  simp only [freeCells, Finset.mem_erase, Finset.mem_filter, Finset.mem_range]
  by_cases hj : j < 128
  · have hword : load 8 m (n + 24 + 8 * (k / 64)) < 2 ^ 64 := load_lt 8 m _
    by_cases hsame : j / 64 = k / 64
    · have hclear := testBit_clearBit64 hword (Nat.mod_lt k (by omega)) (j % 64)
      have hlt : clearBit64 (load 8 m (n + 24 + 8 * (k / 64))) (k % 64) < 256 ^ 8 :=
        BitVec.isLt _
      rw [hsame, clearMem, load_store_of_lt hlt, hclear]
      have hiff : j % 64 ≠ k % 64 ↔ j ≠ k := by omega
      simp [hj, hiff, and_comm]
    · rw [clearMem, load_store_of_disjoint (by omega)]
      have hne : j ≠ k := by
        rintro rfl
        exact hsame rfl
      simp [hj, hne]
  · simp [hj]

theorem mem_freeCells :
    k ∈ freeCells m n ↔ k < 128 ∧ (load 8 m (n + 24 + 8 * (k / 64))).testBit (k % 64) = true := by
  simp [freeCells]

theorem freeCells_nonempty (hcard : 0 < (freeCells m n).card) :
    load 8 m (n + 24) ≠ 0 ∨ load 8 m (n + 32) ≠ 0 := by
  obtain ⟨k, hk⟩ := Finset.card_pos.mp hcard
  obtain ⟨hlt, hbit⟩ := mem_freeCells.mp hk
  have hcase : k / 64 = 0 ∨ k / 64 = 1 := by omega
  rcases hcase with hdiv | hdiv
  · left
    intro hzero
    rw [hdiv, mul_zero, add_zero, hzero, Nat.zero_testBit] at hbit
    exact Bool.noConfusion hbit
  · right
    intro hzero
    rw [hdiv, mul_one, add_assoc, hzero, Nat.zero_testBit] at hbit
    exact Bool.noConfusion hbit

theorem fastMap_eq (hlow : 8 ≤ n) (hlt : n < 2 ^ 64) (i : ℕ) : fastMap n i = n + 16 + 8 * i := by
  rw [fastMap, listPack_eq hlow hlt, packData_eq (by omega)]
  omega

theorem run_fastTake {s : Process} (hlow : 8 ≤ n) (hlt : n < 2 ^ 64)
    (hcard : 0 < (freeCells s.mem n).card) :
    ∃ k ∈ freeCells s.mem n,
      (fastTake n).run s = .ok (some k) { s with mem := clearMem s.mem n k } := by
  have hword1 : load 8 s.mem (n + 24) < 2 ^ 64 := load_lt 8 s.mem _
  have hword2 : load 8 s.mem (n + 32) < 2 ^ 64 := load_lt 8 s.mem _
  have hmap1 : fastMap n 1 = n + 24 := fastMap_eq hlow hlt 1
  have hmap2 : fastMap n 2 = n + 32 := fastMap_eq hlow hlt 2
  unfold fastTake
  rw [run_bind_ok (run_mem _), hmap1, run_ite]
  by_cases hfirst : load 8 s.mem (n + 24) ≠ 0
  · have hlog : (load 8 s.mem (n + 24)).log2 < 64 := (Nat.log2_lt hfirst).mpr hword1
    refine ⟨(load 8 s.mem (n + 24)).log2, mem_freeCells.mpr ⟨by omega, ?_⟩, ?_⟩
    · rw [Nat.div_eq_of_lt hlog, Nat.mod_eq_of_lt hlog, mul_zero, add_zero]
      exact Nat.testBit_log2 hfirst
    · rw [if_pos hfirst, log2Floor64_eq hfirst hword1, run_bind_ok (run_poke64 _ _ _),
        clearMem, Nat.div_eq_of_lt hlog, Nat.mod_eq_of_lt hlog, mul_zero, add_zero]
      rfl
  · have hsecond : load 8 s.mem (n + 32) ≠ 0 :=
      (freeCells_nonempty hcard).resolve_left hfirst
    have hlog : (load 8 s.mem (n + 32)).log2 < 64 := (Nat.log2_lt hsecond).mpr hword2
    have hdiv : ((load 8 s.mem (n + 32)).log2 + 64) / 64 = 1 := by omega
    have hmod : ((load 8 s.mem (n + 32)).log2 + 64) % 64 = (load 8 s.mem (n + 32)).log2 := by
      omega
    refine ⟨(load 8 s.mem (n + 32)).log2 + 64, mem_freeCells.mpr ⟨by omega, ?_⟩, ?_⟩
    · rw [hdiv, hmod, mul_one, add_assoc]
      exact Nat.testBit_log2 hsecond
    · rw [if_neg hfirst, run_bind_ok (run_mem _), hmap2, run_ite,
        if_pos hsecond, log2Floor64_eq hsecond hword2, run_bind_ok (run_poke64 _ _ _),
        clearMem, hdiv, hmod, mul_one, add_assoc]
      rfl

section Move

variable {A : Arena} {held : Set ℕ} {s : Process} {n : ℕ}

def Arena.moveFull (A : Arena) (n : ℕ) : Arena := (A.take 1 n).put 64 n

theorem Arena.moveFull_fast (A : Arena) (n : ℕ) : (A.moveFull n).bins 1 = (A.bins 1).erase n := by
  rw [Arena.moveFull, Arena.put_bins_of_ne _ _ (by omega), Arena.take_bins_self]

theorem Arena.moveFull_full (A : Arena) (n : ℕ) : (A.moveFull n).bins 64 = n :: A.bins 64 := by
  rw [Arena.moveFull, Arena.put_bins_self, Arena.take_bins_of_ne _ _ (by omega)]

def moveState (L : Layout) (n : ℕ) (s : Process) : Process :=
  pushState L 64 n { s with mem := linkMem s.mem (nodePrev s.mem n) (nodeNext s.mem n) }

variable {base : ℕ}

theorem Arena.Shape.unlinkFast (hA : A.Shape held first base) :
    (A.take 1 n).Shape held first base := by
  have hsub : ∀ p, p ∈ (A.take 1 n).bins 1 → p ∈ A.bins 1 := by
    intro p hp
    rw [A.take_bins_self] at hp
    exact mem_of_mem_erase hp
  have hother : ∀ i, i ≠ 1 → (A.take 1 n).bins i = A.bins i := fun i => A.take_bins_of_ne n
  refine hA.regroup rfl (fun i hi _ => hother i (by omega)) ?_ ?_ ?_
  · intro p hp
    rw [Arena.IsPage, hother 64 (by omega)] at hp
    exact hA.page p (hp.imp (hsub p) id)
  · intro p hp
    rw [hother 64 (by omega)]
    exact hA.page_disjoint p (hsub p hp)
  · intro i
    by_cases hi : i = 1
    · subst hi
      rw [A.take_bins_self]
      exact (hA.nodup 1).erase n
    · rw [hother i hi]
      exact hA.nodup i

theorem Arena.Shape.moveFull (hA : A.Shape held first base) (hn : n ∈ A.bins 1) :
    (A.moveFull n).Shape held first base := by
  refine hA.regroup rfl ?_ ?_ ?_ ?_
  · intro i hi hi'
    rw [Arena.moveFull, Arena.put_bins_of_ne _ _ (by omega), Arena.take_bins_of_ne _ _ (by omega)]
  · intro p hp
    rw [Arena.IsPage, A.moveFull_fast, A.moveFull_full, mem_cons] at hp
    rcases hp with hp | rfl | hp
    · exact hA.page p (.inl (mem_of_mem_erase hp))
    · exact hA.page p (.inl hn)
    · exact hA.page p (.inr hp)
  · intro p hp
    rw [A.moveFull_fast, (hA.nodup 1).mem_erase_iff] at hp
    rw [A.moveFull_full, mem_cons, not_or]
    exact ⟨hp.1, hA.page_disjoint p hp.2⟩
  · intro i
    by_cases hfast : i = 1
    · subst hfast
      rw [A.moveFull_fast]
      exact (hA.nodup 1).erase n
    by_cases hfull : i = 64
    · subst hfull
      rw [A.moveFull_full]
      exact nodup_cons.mpr ⟨hA.page_disjoint n hn, hA.nodup 64⟩
    rw [Arena.moveFull, Arena.put_bins_of_ne _ _ hfull, Arena.take_bins_of_ne _ _ hfast]
    exact hA.nodup i

theorem Arena.Stored.unlinkFast (hS : A.Stored L s) (hA : A.Shape held first s.base)
    (hL : L.Below first) (hn : n ∈ A.bins 1) :
    (A.take 1 n).Stored L
      { s with mem := linkMem s.mem (nodePrev s.mem n) (nodeNext s.mem n) } := by
  refine hS.unlink hA hL le_rfl (by omega) hn ?_
  intro j hj hj'
  rw [A.take_bins_of_ne n (by omega)]
  exact hS.bit j hj hj'

theorem Arena.Shape.unlinkFast_fresh (hA : A.Shape held first base) (hL : L.Below first)
    (hn : n ∈ A.bins 1) {j : ℕ} (hj : 1 ≤ j) (hj' : j ≤ 64) :
    n ∉ L.head j :: (A.take 1 n).bins j := by
  obtain ⟨addr, size, hhas, -, rfl, -⟩ := hA.page n (.inl hn)
  refine hA.unlinkFast.used_fresh hL hhas ?_ hj hj'
  rw [Arena.IsPage, A.take_bins_self, A.take_bins_of_ne _ (by omega), not_or,
    (hA.nodup 1).mem_erase_iff]
  exact ⟨fun hin => hin.1 rfl, hA.page_disjoint _ hn⟩

theorem Arena.Shape.page_nodeAt (hA : A.Shape held first base) (hn : n ∈ A.bins 1) :
    A.NodeAt L n := hA.mem_nodeAt le_rfl (by omega) hn

theorem Arena.Stored.moveFull (hS : A.Stored L s) (hA : A.Shape held first s.base)
    (hL : L.Below first) (hn : n ∈ A.bins 1) : (A.moveFull n).Stored L (moveState L n s) := by
  refine (hS.unlinkFast hA hL hn).push hA.unlinkFast hL (by omega) le_rfl
    (hA.page_nodeAt hn) (fun j hj hj' => hA.unlinkFast_fresh hL hn hj hj') ?_
  intro j hj hj'
  rw [Arena.put_bins_of_ne _ _ (by omega), A.take_bins_of_ne n (by omega)]
  exact hS.bit j hj hj'

theorem moveState_bytes (hS : A.Stored L s) (hA : A.Shape held first s.base)
    (hL : L.Below first) (hn : n ∈ A.bins 1) {x : ℕ} (hx : A.PageByte x) :
    (moveState L n s).mem x = s.mem x := by
  have hnode : A.NodeAt L n := hA.page_nodeAt hn
  obtain ⟨p, hp, hlow, hhigh⟩ := hx
  have hheadAt : A.NodeAt L (L.head 64) := Or.inl ⟨64, le_rfl, rfl⟩
  have hfirstAt := hA.unlinkFast.ring_nodeAt (L := L) (n := nodeNext (linkMem s.mem
      (nodePrev s.mem n) (nodeNext s.mem n)) (L.head 64)) (by omega) le_rfl
    ((hS.unlinkFast hA hL hn).ring 64 (by omega) le_rfl).next_head_mem
  have hbyte : A.PageByte x := ⟨p, hp, hlow, hhigh⟩
  have hnodeByte := hA.node_bytes hL hnode hbyte
  refine Eq.trans ?_ (hS.unlink_bytes hA hL le_rfl (by omega) hn hbyte)
  exact (linkMem_apply (hA.node_bytes hL hheadAt hbyte) hnodeByte).trans
    (linkMem_apply hnodeByte (hA.node_bytes hL hfirstAt hbyte))

theorem moveState_confined (hS : A.Stored L s) (hA : A.Shape held first s.base)
    (hL : L.Below first) (hn : n ∈ A.bins 1) {x : ℕ} (hx : x ∉ Footprint L first s.base) :
    (moveState L n s).mem x = s.mem x := by
  obtain ⟨hprevMem, hnextMem⟩ := hS.neighbours le_rfl (by omega) hn
  refine Eq.trans (pushState_confined (hS.unlinkFast hA hL hn) hA.unlinkFast (by omega) le_rfl
    (hA.page_nodeAt hn) hx) ?_
  exact linkMem_apply
    (hA.node_footprint (hA.ring_nodeAt le_rfl (by omega) hprevMem) hx)
    (hA.node_footprint (hA.ring_nodeAt le_rfl (by omega) hnextMem) hx)

end Move

def countMem (m : Memory) (n : ℕ) : Memory := store 8 m (n + 16) (load 8 m (n + 16) + 2 ^ 64 - 1)

theorem countMem_apply (hout : x < n + 16 ∨ n + 24 ≤ x) : countMem m n x = m x :=
  store_apply_of_outside (by omega)

theorem load_countMem (hpos : 0 < load 8 m (n + 16)) :
    load 8 (countMem m n) (n + 16) = load 8 m (n + 16) - 1 := by
  have hlt : load 8 m (n + 16) < 2 ^ 64 := load_lt 8 m _
  rw [countMem, load_store_self]
  omega

def cellMem (m : Memory) (n k : ℕ) : Memory :=
  store 4 (store 4 (clearMem m n k) (n + 40 + 32 * k) k) (n + 40 + 32 * k + 4) 35

theorem cellMem_apply (hk : k < 128) (hout : x < n + 24 ∨ n + 4136 ≤ x) :
    cellMem m n k x = m x := by
  unfold cellMem
  rw [store_apply_of_outside (by omega), store_apply_of_outside (by omega),
    clearMem_apply hk (by omega)]

theorem freeCells_cellMem (hk : k < 128) :
    freeCells (cellMem m n k) n = (freeCells m n).erase k := by
  rw [← freeCells_clearMem hk]
  apply freeCells_congr
  · simp (disch := omega) only [cellMem, load_store_of_disjoint]
  · simp (disch := omega) only [cellMem, load_store_of_disjoint]

/-- Page `n` has counted down, and has moved to the full list if that was its
last free cell. -/
structure Recounted (h : Heap L first) (n : ℕ) (A : Arena) (s : Process) : Prop where
  chunks : A.chunks = h.arena.chunks
  shape : A.Shape h.held first h.process.base
  stored : A.Stored L s
  pages : ∀ p, A.IsPage p ↔ h.arena.IsPage p
  fast : ∀ p ∈ A.bins 1, p ∈ h.arena.bins 1 ∧ (p = n → 1 < load 8 h.process.mem (n + 16))
  full : ∀ p ∈ A.bins 64, p ∈ h.arena.bins 64 ∨ p = n ∧ load 8 h.process.mem (n + 16) = 1
  bytes : ∀ x, h.arena.PageByte x → s.mem x = countMem h.process.mem n x
  confined : ∀ x, x ∉ Footprint L first h.process.base → s.mem x = h.process.mem x
  same : s = { h.process with mem := s.mem }

section Cell

variable (h : Heap L first) {n : ℕ} {rest : List ℕ}

theorem Heap.page_bounds (hn : h.arena.IsPage n) :
    8 ≤ n ∧ first + 8 ≤ n ∧ n + 4144 ≤ h.process.base := by
  obtain ⟨_, _, ⟨c, hc, rfl, rfl, -⟩, -, rfl, hsize⟩ := h.shape.page n hn
  have hfirst := h.shape.first_le hc
  have hend := h.shape.end_le hc
  omega

theorem Heap.countMem_confined (hn : h.arena.IsPage n) {x : ℕ}
    (hx : x ∉ Footprint L first h.process.base) : countMem h.process.mem n x = h.process.mem x := by
  obtain ⟨-, hlow, hhigh⟩ := h.page_bounds hn
  have hout : ¬ (first ≤ x ∧ x < h.process.base) := fun hin => hx (.inl hin)
  exact countMem_apply (by omega)

theorem Heap.countMem_stored (hn : h.arena.IsPage n) :
    h.arena.Stored L { h.process with mem := countMem h.process.mem n } := by
  obtain ⟨_, _, ⟨c, hc, rfl, rfl, -⟩, -, rfl, hsize⟩ := h.shape.page n hn
  exact h.stored.interior h.shape h.below hc fun x hx => countMem_apply (by omega)

theorem recounted_cases (hfirst : h.arena.bins 1 = n :: rest) :
    ∃ A s, Recounted h n A s ∧ ∀ next : Unit → Prog ℕ,
      (if load 8 (countMem h.process.mem n) (n + 16) = 0 then do
          let node ← listPop (L.slot 1)
          let r ← listPush L.fastFull node
          next r
        else next ()).run { h.process with mem := countMem h.process.mem n } =
        (next ()).run s := by
  have hmem : n ∈ h.arena.bins 1 := by simp [hfirst]
  have hpage : h.arena.IsPage n := Or.inl hmem
  have hpos := h.counted.count_pos n hmem
  have hstored := h.countMem_stored hpage
  simp only [load_countMem hpos, run_ite]
  by_cases hlast : load 8 h.process.mem (n + 16) - 1 = 0
  · refine ⟨h.arena.moveFull n, moveState L n { h.process with mem := countMem h.process.mem n },
      ⟨rfl, h.shape.moveFull hmem, hstored.moveFull h.shape h.below hmem, ?_, ?_, ?_, ?_, ?_,
        rfl⟩, ?_⟩
    · intro p
      rw [Arena.IsPage, Arena.IsPage, h.arena.moveFull_fast, h.arena.moveFull_full,
        (h.shape.nodup 1).mem_erase_iff, mem_cons]
      constructor
      · rintro (⟨-, hp⟩ | rfl | hp)
        · exact .inl hp
        · exact hpage
        · exact .inr hp
      · rintro (hp | hp)
        · by_cases heq : p = n
          · exact .inr (.inl heq)
          · exact .inl ⟨heq, hp⟩
        · exact .inr (.inr hp)
    · intro p hp
      rw [h.arena.moveFull_fast, (h.shape.nodup 1).mem_erase_iff] at hp
      exact ⟨hp.2, fun heq => absurd heq hp.1⟩
    · intro p hp
      rw [h.arena.moveFull_full, mem_cons] at hp
      rcases hp with rfl | hp
      · exact .inr ⟨rfl, by omega⟩
      · exact .inl hp
    · intro x hx
      exact moveState_bytes hstored h.shape h.below hmem hx
    · intro x hx
      exact (moveState_confined hstored h.shape h.below hmem hx).trans
        (h.countMem_confined hpage hx)
    · intro next
      have hring := hstored.ring 1 le_rfl (by omega)
      rw [hfirst, Layout.head_of_lt (by omega)] at hring
      have hnext : nodeNext (countMem h.process.mem n) (L.slot 1) = n := hring.next_head
      have hring' : Ring (nodeNext (countMem h.process.mem n)) (nodePrev (countMem h.process.mem n))
          (L.slot 1) ([] ++ n :: rest) := hring
      have hprev : nodePrev (countMem h.process.mem n) n = L.slot 1 := hring'.links_member.1
      rw [if_pos hlast, run_bind_ok (run_listPop _ _), hnext,
        run_bind_ok (run_listPush _ _ _), moveState, pushState]
      dsimp only
      rw [hprev]
      rfl
  · refine ⟨h.arena, { h.process with mem := countMem h.process.mem n },
      ⟨rfl, h.shape, hstored, fun _ => Iff.rfl, ?_, fun p hp => .inl hp, fun _ _ => rfl,
        fun x hx => h.countMem_confined hpage hx, rfl⟩, fun next => by rw [if_neg hlast]⟩
    intro p hp
    exact ⟨hp, fun _ => by omega⟩

variable {p k : ℕ} {A : Arena} {s : Process}

theorem Heap.other_page (hn : h.arena.IsPage n) (hp : h.arena.IsPage p) (hne : p ≠ n) :
    p + 4144 ≤ n ∨ n + 4144 ≤ p := by
  obtain ⟨_, _, ⟨c, hc, rfl, rfl, -⟩, -, rfl, hsize⟩ := h.shape.page n hn
  obtain ⟨_, _, ⟨d, hd, rfl, rfl, -⟩, -, rfl, hsize'⟩ := h.shape.page p hp
  rcases h.shape.apart hc hd with rfl | hlt | hlt
  · exact absurd rfl hne
  · omega
  · omega

structure CellTaken (h h' : Heap L first) (n k : ℕ) : Prop where
  page : h.arena.IsPage n
  free : k ∈ freeCells h.process.mem n
  chunks : h'.arena.chunks = h.arena.chunks
  held : h'.held = h.held
  pages : ∀ p, h'.arena.IsPage p ↔ h.arena.IsPage p
  cells : freeCells h'.process.mem n = (freeCells h.process.mem n).erase k
  others : ∀ p, h.arena.IsPage p → p ≠ n →
    freeCells h'.process.mem p = freeCells h.process.mem p
  confined : ∀ x, x ∉ Footprint L first h.process.base → h'.process.mem x = h.process.mem x
  same : h'.process = { h.process with mem := h'.process.mem }

variable {h}

theorem Recounted.base_eq (R : Recounted h n A s) : s.base = h.process.base := by
  rw [R.same]

theorem Recounted.word (R : Recounted h n A s) {o : ℕ} (hp : h.arena.IsPage p) (ho : 16 ≤ o)
    (ho' : o + 8 ≤ 40) : load 8 s.mem (p + o) = load 8 (countMem h.process.mem n) (p + o) :=
  load_congr fun x hlow hhigh => R.bytes x ⟨p, hp, by omega, by omega⟩

theorem Recounted.other (R : Recounted h n A s) (hn : h.arena.IsPage n) {o : ℕ} (hk : k < 128)
    (hp : h.arena.IsPage p) (hne : p ≠ n) (ho : 16 ≤ o) (ho' : o + 8 ≤ 40) :
    load 8 (cellMem s.mem n k) (p + o) = load 8 h.process.mem (p + o) := by
  have hapart := h.other_page hn hp hne
  calc load 8 (cellMem s.mem n k) (p + o) = load 8 s.mem (p + o) :=
        load_congr fun x hlow hhigh => cellMem_apply hk (by omega)
    _ = load 8 (countMem h.process.mem n) (p + o) := R.word hp ho ho'
    _ = load 8 h.process.mem (p + o) :=
        load_congr fun x hlow hhigh => countMem_apply (by omega)

theorem Recounted.freeCells (R : Recounted h n A s) (hn : h.arena.IsPage n) :
    freeCells s.mem n = freeCells h.process.mem n := by
  apply freeCells_congr
  · rw [R.word hn (by omega) (by omega), countMem, load_store_of_disjoint (by omega)]
  · rw [R.word hn (by omega) (by omega), countMem, load_store_of_disjoint (by omega)]

theorem Recounted.count (R : Recounted h n A s) (hn : n ∈ h.arena.bins 1) (hk : k < 128) :
    load 8 (cellMem s.mem n k) (n + 16) = load 8 h.process.mem (n + 16) - 1 := by
  rw [← load_countMem (h.counted.count_pos n hn), ← R.word (.inl hn) le_rfl (by omega)]
  exact load_congr fun x hlow hhigh => cellMem_apply hk (by omega)

def Recounted.result {A : Arena} {s : Process} (R : Recounted h n A s)
    (hn : n ∈ h.arena.bins 1) {k : ℕ} (hfree : k ∈ Ummalloc.freeCells h.process.mem n) :
    Heap L first where
  arena := A
  held := h.held
  process := { s with mem := cellMem s.mem n k }
  below := h.below
  shape := by
    change A.Shape h.held first s.base
    rw [R.base_eq]
    exact R.shape
  stored := by
    have hk := (mem_freeCells.mp hfree).1
    obtain ⟨_, _, ⟨c, hc, rfl, rfl, -⟩, -, rfl, hsize⟩ := h.shape.page n (.inl hn)
    have hshape := R.shape
    rw [← R.base_eq] at hshape
    exact R.stored.interior hshape h.below (by rw [R.chunks]; exact hc)
      fun x hx => cellMem_apply hk (by omega)
  counted := by
    have hk := (mem_freeCells.mp hfree).1
    have hpage : h.arena.IsPage n := Or.inl hn
    have hcount := R.count hn hk
    refine ⟨?_, ?_, ?_⟩
    · intro p hp
      have hp' := (R.pages p).mp hp
      by_cases heq : p = n
      · subst heq
        rw [hcount, freeCells_cellMem hk, R.freeCells hpage, Finset.card_erase_of_mem hfree,
          h.counted.count p hpage]
      · rw [freeCells_congr (R.other hpage hk hp' heq (by omega) (by omega))
          (R.other hpage hk hp' heq (by omega) (by omega)),
          R.other hpage hk hp' heq le_rfl (by omega)]
        exact h.counted.count p hp'
    · intro p hp
      obtain ⟨hp', hmore⟩ := R.fast p hp
      by_cases heq : p = n
      · have := hmore heq
        rw [heq, hcount]
        omega
      · rw [R.other hpage hk (.inl hp') heq le_rfl (by omega)]
        exact h.counted.count_pos p hp'
    · intro p hp
      rcases R.full p hp with hp' | ⟨rfl, hone⟩
      · have hne : p ≠ n := by
          rintro rfl
          exact h.shape.page_disjoint p hn hp'
        rw [R.other hpage hk (.inr hp') hne le_rfl (by omega)]
        exact h.counted.count_zero p hp'
      · rw [hcount, hone]

theorem Recounted.taken (R : Recounted h n A s) (hn : n ∈ h.arena.bins 1)
    (hfree : k ∈ Ummalloc.freeCells h.process.mem n) : CellTaken h (R.result hn hfree) n k := by
  have hk := (mem_freeCells.mp hfree).1
  have hpage : h.arena.IsPage n := Or.inl hn
  refine ⟨hpage, hfree, R.chunks, rfl, R.pages, ?_, ?_, ?_, ?_⟩
  · rw [← R.freeCells hpage]
    exact freeCells_cellMem hk
  · intro p hp hne
    exact freeCells_congr (R.other hpage hk hp hne (by omega) (by omega))
      (R.other hpage hk hp hne (by omega) (by omega))
  · intro x hx
    obtain ⟨-, hlow, hhigh⟩ := h.page_bounds hpage
    have hout : ¬ (first ≤ x ∧ x < h.process.base) := fun hin => hx (.inl hin)
    exact (cellMem_apply hk (by omega)).trans (R.confined x hx)
  · have hsame := R.same
    change { s with mem := cellMem s.mem n k } =
      { h.process with mem := cellMem s.mem n k }
    rw [hsame]

theorem taken_fastAllocate (h : Heap L first) (hfirst : h.arena.bins 1 = n :: rest) :
    ∃ k h', (fastAllocate L).run h.process = .ok (n + 40 + 32 * k + 8) h'.process ∧
      CellTaken h h' n k := by
  have hmem : n ∈ h.arena.bins 1 := by simp [hfirst]
  obtain ⟨hlow, -, hhigh⟩ := h.page_bounds (.inl hmem)
  have hbase := h.base_lt
  have hpos := h.counted.count_pos n hmem
  have hnext : nodeNext h.process.mem (L.slot 1) = n := by
    have hring := h.stored.ring 1 le_rfl (by omega)
    rw [hfirst, Layout.head_of_lt (by omega)] at hring
    exact hring.next_head
  have hnot : ¬ listEmpty h.process.mem (L.slot 1) = true := by
    rw [listEmpty_iff h le_rfl (by omega), hfirst]
    exact cons_ne_nil _ _
  have hmap : ∀ i, fastMap n i = n + 16 + 8 * i := fastMap_eq hlow (by omega)
  obtain ⟨A, s, R, hmove⟩ := recounted_cases h hfirst
  have hcard : 0 < (freeCells s.mem n).card := by
    rw [R.freeCells (.inl hmem), ← h.counted.count n (.inl hmem)]
    exact hpos
  obtain ⟨k, hk, htake⟩ := run_fastTake hlow (by omega) hcard
  rw [R.freeCells (.inl hmem)] at hk
  have hlt := (mem_freeCells.mp hk).1
  refine ⟨k, R.result hmem hk, ?_, R.taken hmem hk⟩
  unfold fastAllocate
  dsimp only
  rw [run_bind_ok (run_mem _), run_ite, if_neg hnot,
    run_bind_ok (run_mem _), hnext, run_bind_ok (run_mem _),
    run_bind_ok (run_impossible_of_not (by rw [hmap]; exact hpos.ne') _),
    run_bind_ok (run_mem _), run_bind_ok (run_poke64 _ _ _),
    run_bind_ok (run_mem _), hmap 0, hmap 3]
  refine (hmove _).trans ?_
  rw [run_bind_ok htake]
  dsimp only
  rw [show (n + 16 + 8 * 3 + k * 32) % 2 ^ 64 = n + 40 + 32 * k by omega,
    run_bind_ok (run_packSetPrev _ _ _),
    run_bind_ok (run_packSetInfo (by decide) (by decide) _), packData_eq (by omega)]
  rfl

end Cell

end Xv6MallocLab.Ummalloc
