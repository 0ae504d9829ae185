import Xv6MallocLab.UmmallocFastPages
import Xv6MallocLab.UmmallocKernelCalls

/-!
# Requests

A request takes an idle heap to an idle heap.  `Owned` says where a pointer handed out
earlier lives: in a chunk in use that is not a fast page, or in a cell of a fast page whose
bit is cleared.
-/

namespace Xv6MallocLab.Ummalloc

open ByteMemory CircularList

attribute [local irreducible] load store

variable {L : Layout} {first : ℕ}

open Prog

structure Evolves (h h' : Heap L first) : Prop where
  kept : ∀ addr size, size ≠ 0 → h.arena.Has addr size true → h'.arena.Has addr size true
  pages : ∀ n, h.arena.IsPage n → h'.arena.IsPage n
  plain : ∀ addr size, size ≠ 0 → h.arena.Has addr size true → ¬ h.arena.IsPage (addr + 8) →
    ¬ h'.arena.IsPage (addr + 8)
  cells : ∀ n, h.arena.IsPage n → freeCells h'.process.mem n ⊆ freeCells h.process.mem n
  confined : ∀ x, x ∉ Footprint L first h'.process.base → h'.process.mem x = h.process.mem x
  base_le : h.process.base ≤ h'.process.base
  grown : h'.process.base + h.process.brk = h.process.base + h'.process.brk
  freep : h'.process.freep = h.process.freep
  refusals : h'.process.refusals = h.process.refusals
  grants : h'.process.grants = h.process.grants

theorem Evolves.refl (h : Heap L first) : Evolves h h :=
  ⟨fun _ _ _ hhas => hhas, fun _ hn => hn, fun _ _ _ _ hn => hn, fun _ _ => subset_rfl,
    fun _ _ => rfl, le_rfl, rfl, rfl, rfl, rfl⟩

variable {h h' : Heap L first} {n k p need need' size addr : ℕ}

theorem Evolves.trans {h1 h2 : Heap L first} (e : Evolves h h1) (f : Evolves h1 h2) :
    Evolves h h2 := by
  refine ⟨?_, fun n hn => f.pages n (e.pages n hn), ?_, ?_, ?_, e.base_le.trans f.base_le, ?_,
    f.freep.trans e.freep, f.refusals.trans e.refusals, f.grants.trans e.grants⟩
  · intro addr size hsize hhas
    exact f.kept addr size hsize (e.kept addr size hsize hhas)
  · intro addr size hsize hhas hplain
    exact f.plain addr size hsize (e.kept addr size hsize hhas)
      (e.plain addr size hsize hhas hplain)
  · intro n hn
    exact (f.cells n (e.pages n hn)).trans (e.cells n hn)
  · intro x hx
    rw [f.confined x hx, e.confined x fun hin => hx (Footprint.mono f.base_le hin)]
  · have := e.grown
    have := f.grown
    omega

theorem Frame.isPage (f : Frame h h') (n : ℕ) : h'.arena.IsPage n ↔ h.arena.IsPage n := by
  rw [Arena.IsPage, Arena.IsPage, f.fast, f.full]

theorem Frame.freeCells (f : Frame h h') (hn : h.arena.IsPage n) :
    freeCells h'.process.mem n = freeCells h.process.mem n := by
  apply freeCells_congr
  · exact load_congr fun x hlow hhigh => f.bytes x ⟨n, hn, by omega, by omega⟩
  · exact load_congr fun x hlow hhigh => f.bytes x ⟨n, hn, by omega, by omega⟩

theorem Frame.evolves (f : Frame h h') (hidle : h.held = ∅) : Evolves h h' := by
  refine ⟨?_, fun n hn => (f.isPage n).mpr hn, fun _ _ _ _ hplain hn =>
    hplain ((f.isPage _).mp hn), fun n hn => (f.freeCells hn).subset, f.confined, f.base_le,
    f.grown, f.freep, f.refusals, f.grants⟩
  intro addr size hsize hhas
  exact (f.kept addr size hsize hhas (by rw [hidle]; exact Set.notMem_empty _)).1

theorem CellTaken.evolves (t : CellTaken h h' n k) : Evolves h h' := by
  have hhas : ∀ addr size used, h'.arena.Has addr size used ↔ h.arena.Has addr size used := by
    intro addr size used
    rw [Arena.Has, Arena.Has, t.chunks]
  have hbase : h'.process.base = h.process.base := by rw [t.same]
  refine ⟨fun addr size _ hold => (hhas addr size true).mpr hold, fun p hp => (t.pages p).mpr hp,
    fun addr size _ _ hplain hp => hplain ((t.pages _).mp hp), ?_, ?_, hbase.ge, ?_, ?_, ?_, ?_⟩
  · intro p hp
    by_cases heq : p = n
    · rw [heq, t.cells]
      exact Finset.erase_subset _ _
    · exact (t.others p hp heq).subset
  · rw [hbase]
    exact t.confined
  · rw [t.same]
  · rw [t.same]
  · rw [t.same]
  · rw [t.same]

def InChunk (h : Heap L first) (p need : ℕ) : Prop :=
  ∃ addr size, p = addr + 8 ∧ h.arena.Has addr size true ∧ size ≠ 0 ∧ need ≤ size ∧
    ¬ h.arena.IsPage (addr + 8)

def InCell (h : Heap L first) (p need : ℕ) : Prop :=
  ∃ n k, h.arena.IsPage n ∧ k < 128 ∧ k ∉ freeCells h.process.mem n ∧
    p = n + 40 + 32 * k + 8 ∧ need ≤ 32

def Owned (h : Heap L first) (p need : ℕ) : Prop := InChunk h p need ∨ InCell h p need

theorem Owned.evolves (e : Evolves h h') (howned : Owned h p need) : Owned h' p need := by
  rcases howned with ⟨addr, size, hp, hhas, hsize, hneed, hplain⟩ | ⟨n, k, hn, hk, hfree, hp, hneed⟩
  · exact .inl ⟨addr, size, hp, e.kept addr size hsize hhas, hsize, hneed,
      e.plain addr size hsize hhas hplain⟩
  · exact .inr ⟨n, k, e.pages n hn, hk, fun hin => hfree (e.cells n hn hin), hp, hneed⟩

theorem Owned.mono (hle : need' ≤ need) (howned : Owned h p need) : Owned h p need' := by
  rcases howned with ⟨addr, size, hp, hhas, hsize, hneed, hplain⟩ | ⟨n, k, hn, hk, hfree, hp, hneed⟩
  · exact .inl ⟨addr, size, hp, hhas, hsize, hle.trans hneed, hplain⟩
  · exact .inr ⟨n, k, hn, hk, hfree, hp, hle.trans hneed⟩

theorem Owned.bounds (howned : Owned h p need) :
    first + 8 ≤ p ∧ p + need ≤ h.process.base ∧ p % 8 = 0 := by
  rcases howned with ⟨addr, size, rfl, ⟨c, hc, rfl, rfl, -⟩, hsize, hneed, -⟩ |
    ⟨n, k, hn, hk, -, rfl, hneed⟩
  · have hfirst := h.shape.first_le hc
    have hend := h.shape.end_le hc
    have hmod := h.shape.addr_mod hc
    omega
  · obtain ⟨-, hlow, hhigh⟩ := h.page_bounds hn
    obtain ⟨_, _, ⟨c, hc, rfl, rfl, -⟩, -, rfl, -⟩ := h.shape.page n hn
    have hmod := h.shape.addr_mod hc
    omega

theorem InCell.not_chunk (hn : h.arena.IsPage n) (hk : k < 128) {used : Bool} :
    ¬ h.arena.Has (n + 40 + 32 * k) size used := by
  rintro ⟨c, hc, haddr, -, -⟩
  obtain ⟨_, _, ⟨d, hd, rfl, rfl, -⟩, -, rfl, hsize⟩ := h.shape.page n hn
  rcases h.shape.apart hc hd with rfl | hlt | hlt
  · omega
  · omega
  · omega

theorem Owned.fit {used : Bool} (howned : Owned h (addr + 8) need)
    (hhas : h.arena.Has addr size used) : need ≤ size := by
  rcases howned with ⟨addr', size', hp, hhas', -, hneed, -⟩ | ⟨n, k, hn, hk, -, hp, -⟩
  · obtain rfl : addr = addr' := by omega
    rw [(h.shape.has_unique hhas hhas').1]
    exact hneed
  · obtain rfl : addr = n + 40 + 32 * k := by omega
    exact absurd hhas (InCell.not_chunk hn hk)

theorem Owned.disjoint {q : ℕ} (hp : Owned h p need) (hq : Owned h q need') (hne : p ≠ q) :
    p + need ≤ q ∨ q + need' ≤ p := by
  rcases hp with ⟨a, m, rfl, ⟨c, hc, rfl, rfl, -⟩, hm, hneed, hplain⟩ |
    ⟨n, k, hn, hk, -, rfl, hneed⟩
  · rcases hq with ⟨b, m', rfl, ⟨d, hd, rfl, rfl, -⟩, hm', hneed', -⟩ |
      ⟨n', k', hn', hk', -, rfl, hneed'⟩
    · rcases h.shape.apart hc hd with rfl | hlt | hlt
      · exact absurd rfl hne
      · omega
      · omega
    · obtain ⟨_, _, ⟨d, hd, rfl, rfl, -⟩, -, rfl, hsize⟩ := h.shape.page n' hn'
      rcases h.shape.apart hc hd with rfl | hlt | hlt
      · exact absurd hn' hplain
      · omega
      · omega
  · rcases hq with ⟨b, m', rfl, ⟨d, hd, rfl, rfl, -⟩, hm', hneed', hplain'⟩ |
      ⟨n', k', hn', hk', -, rfl, hneed'⟩
    · obtain ⟨_, _, ⟨c, hc, rfl, rfl, -⟩, -, rfl, hsize⟩ := h.shape.page n hn
      rcases h.shape.apart hc hd with rfl | hlt | hlt
      · exact absurd hn hplain'
      · omega
      · omega
    · by_cases heq : n' = n
      · subst heq
        omega
      · have := h.other_page hn hn' heq
        omega

/-- Pointer `p` was handed out for a block of `need` bytes that nobody owned
before. -/
structure Handed (h : Heap L first) (need p : ℕ) (h' : Heap L first) : Prop where
  evolves : Evolves h h'
  idle : h'.held = ∅
  owned : Owned h' p need
  fresh : ∀ need', ¬ Owned h p need'

theorem Handed.after {h0 : Heap L first} (e : Evolves h0 h) (hh : Handed h need p h') :
    Handed h0 need p h' :=
  ⟨e.trans hh.evolves, hh.idle, hh.owned, fun need' ho => hh.fresh need' (ho.evolves e)⟩

theorem Handed.mono (hle : need' ≤ need) (hh : Handed h need p h') : Handed h need' p h' :=
  ⟨hh.evolves, hh.idle, hh.owned.mono hle, hh.fresh⟩

theorem Served.not_used (hidle : h.held = ∅) (hserved : Served h need p h') (hp : p = addr + 8)
    (hn : n ≠ 0) : ¬ h.arena.Has addr n true := by
  obtain ⟨addr', size, hp', -, -, -, hfresh⟩ := hserved.block
  obtain rfl : addr = addr' := by omega
  intro hhas
  have hin := hfresh n hn hhas
  rw [hidle] at hin
  exact Set.notMem_empty _ hin

theorem Served.not_page (hidle : h.held = ∅) (hserved : Served h need p h') :
    ¬ h.arena.IsPage p := by
  intro hpage
  obtain ⟨addr, size, hhas, -, hp, hsize⟩ := h.shape.page p hpage
  exact hserved.not_used hidle hp (by omega) hhas

theorem Served.handed (hidle : h.held = ∅) (hserved : Served h need p h') : Handed h need p h' := by
  have hevolves := hserved.frame.evolves hidle
  have hplain := hserved.not_page hidle
  obtain ⟨addr, size, rfl, hneed, hlarge, hhas, -⟩ := hserved.block
  refine ⟨hevolves, hserved.idle, .inl ⟨addr, size, rfl, hhas, by omega, hneed, ?_⟩, ?_⟩
  · rw [hserved.frame.isPage]
    exact hplain
  · rintro need' (⟨addr', size', haddr, hhas', hsize', -, -⟩ | ⟨n, k, hn, hk, -, hp, -⟩)
    · exact hserved.not_used hidle haddr hsize' hhas'
    · obtain rfl : addr = n + 40 + 32 * k := by omega
      exact InCell.not_chunk (hevolves.pages n hn) hk hhas

theorem CellTaken.handed (hidle : h.held = ∅) (t : CellTaken h h' n k) :
    Handed h 32 (n + 40 + 32 * k + 8) h' := by
  have hk := (mem_freeCells.mp t.free).1
  refine ⟨t.evolves, t.held.trans hidle, .inr ⟨n, k, (t.pages n).mpr t.page, hk, ?_, rfl,
    le_rfl⟩, ?_⟩
  · rw [t.cells]
    exact Finset.notMem_erase k _
  · rintro need' (⟨addr, size, haddr, hhas, -, -, -⟩ | ⟨n', k', hn', hk', hfree, hp, -⟩)
    · obtain rfl : addr = n + 40 + 32 * k := by omega
      exact InCell.not_chunk t.page hk hhas
    · by_cases heq : n' = n
      · subst heq
        obtain rfl : k' = k := by omega
        exact hfree t.free
      · have := h.other_page t.page hn' heq
        omega

theorem Heap.addPage_isPage (h : Heap L first) (hhas : h.arena.Has addr size true)
    (hout : addr ∉ h.held) (hsize : 4144 ≤ size) (hnew : ¬ h.arena.IsPage (addr + 8)) (p : ℕ) :
    (h.addPage hhas hout hsize hnew).arena.IsPage p ↔ p = addr + 8 ∨ h.arena.IsPage p := by
  change (h.arena.put 1 (addr + 8)).IsPage p ↔ _
  rw [Arena.IsPage, h.arena.put_bins_self, h.arena.put_bins_of_ne _ (by omega), List.mem_cons,
    or_assoc]
  rfl

theorem Heap.addPage_cells (h : Heap L first) (hhas : h.arena.Has addr size true)
    (hsize : 4144 ≤ size) (hnew : ¬ h.arena.IsPage (addr + 8)) (hn : h.arena.IsPage n) :
    freeCells (addPageState L (addr + 8) h.process).mem n = freeCells h.process.mem n := by
  have hword : ∀ o, 16 ≤ o → o + 8 ≤ 40 →
      load 8 (addPageState L (addr + 8) h.process).mem (n + o) = load 8 h.process.mem (n + o) :=
    fun o ho ho' => load_congr fun x hlow hhigh =>
      h.addPage_bytes hhas hsize hnew ⟨n, hn, by omega, by omega⟩
  exact freeCells_congr (hword 24 (by omega) (by omega)) (hword 32 (by omega) (by omega))

theorem Served.addPage_evolves {h1 : Heap L first} (hidle : h.held = ∅)
    (hserved : Served h need (addr + 8) h1) (hhas : h1.arena.Has addr size true)
    (hout : addr ∉ h1.held) (hsize : 4144 ≤ size) (hnew : ¬ h1.arena.IsPage (addr + 8)) :
    Evolves h (h1.addPage hhas hout hsize hnew) := by
  have e := hserved.frame.evolves hidle
  have hpage := h1.addPage_isPage hhas hout hsize hnew
  refine ⟨e.kept, fun n hn => (hpage n).mpr (.inr (e.pages n hn)), ?_, ?_, ?_, e.base_le,
    e.grown, e.freep, e.refusals, e.grants⟩
  · intro a m hm hold hplain hin
    rcases (hpage _).mp hin with heq | hin
    · exact hserved.not_used hidle (by omega) hm hold
    · exact e.plain a m hm hold hplain hin
  · intro n hn
    change freeCells (addPageState L (addr + 8) h1.process).mem n ⊆ _
    rw [h1.addPage_cells hhas hsize hnew (e.pages n hn)]
    exact e.cells n hn
  · intro x hx
    have hx : x ∉ Footprint L first h1.process.base := hx
    obtain ⟨c, hc, rfl, rfl, -⟩ := hhas
    have hnode : h1.arena.NodeAt L (c.addr + 8) := Or.inr ⟨c, hc, by omega, rfl⟩
    have hfirst := h1.shape.first_le hc
    have hend := h1.shape.end_le hc
    have hout : ¬ (first ≤ x ∧ x < h1.process.base) := fun hin => hx (.inl hin)
    refine Eq.trans (pageMem_apply (by omega)) ?_
    exact (pushState_confined h1.stored h1.shape le_rfl (by omega) hnode hx).trans
      (e.confined x hx)

def Answers (h : Heap L first) (need : ℕ) (path : Prog ℕ) : Prop :=
  h.process.refusals < (path.final h.process).refusals ∨
    ∃ p h', path.run h.process = .ok p h'.process ∧ Handed h need p h'

/-- Page `n` is in front of `slots[1]`: it was there already, or it is a chunk
just obtained from `malloc_huge`. -/
structure Opened (h : Heap L first) (n : ℕ) (h1 : Heap L first) : Prop where
  evolves : Evolves h h1
  idle : h1.held = ∅
  pages : ∀ p, h1.arena.IsPage p ↔ h.arena.IsPage p ∨ p = n
  old : ∀ p, h.arena.IsPage p → freeCells h1.process.mem p = freeCells h.process.mem p
  new : ¬ h.arena.IsPage n → freeCells h1.process.mem n = Finset.range 128
  origin : listEmpty h.process.mem (L.slot 1) = false ∧ h.arena.IsPage n ∨
    listEmpty h.process.mem (L.slot 1) = true ∧ ¬ h.arena.IsPage n ∧
      (mallocHuge L (4096 + 48)).value h.process = some n

theorem mallocFast_cases (h : Heap L first) (hidle : h.held = ∅) :
    h.process.refusals < ((mallocFast L).final h.process).refusals ∨
      ∃ n k h1 h', (mallocFast L).run h.process = .ok (n + 40 + 32 * k + 8) h'.process ∧
        Opened h n h1 ∧ CellTaken h1 h' n k := by
  cases hbins : h.arena.bins 1 with
  | cons n rest =>
    obtain ⟨k, h', hrun, htaken⟩ := taken_fastAllocate h hbins
    have hpage : h.arena.IsPage n := Or.inl (by simp [hbins])
    have hnot : ¬ listEmpty h.process.mem (L.slot 1) = true := by
      rw [listEmpty_iff h le_rfl (by omega), hbins]
      exact List.cons_ne_nil _ _
    refine .inr ⟨n, k, h, h', ?_, ⟨Evolves.refl h, hidle, ?_, fun _ _ => rfl,
      fun hnew => absurd hpage hnew, .inl ⟨Bool.eq_false_iff.mpr hnot, hpage⟩⟩, htaken⟩
    · have hreserve : (fastBinReserve L).run h.process = .ok () h.process := by
        unfold fastBinReserve
        rw [run_bind_ok (run_mem _), run_ite, if_neg hnot]
        rfl
      unfold mallocFast
      rw [run_bind_ok hreserve]
      exact hrun
    · intro p
      constructor
      · exact .inl
      · rintro (hp | rfl)
        · exact hp
        · exact hpage
  | nil =>
    have hempty := (listEmpty_iff h (i := 1) le_rfl (by omega)).mpr hbins
    rcases supply_mallocHuge h hidle (show 4096 < 4096 + 48 by omega) (by omega) (by omega)
        (by omega) with hrefused | ⟨p, h1, hrun, -, hserved, -⟩
    · left
      have htail : Internal (do
          listPush (L.slot 1) 0
          Prog.poke64 (fastMap 0 0) (64 + 64)
          Prog.poke64 (fastMap 0 1) minusOne
          Prog.poke64 (fastMap 0 2) minusOne) :=
        Internal.bind (internal_listPush _ _) fun _ => .bind (Internal.poke64 _ _) fun _ =>
          Internal.bind (Internal.poke64 _ _) fun _ => Internal.poke64 _ _
      have hreserve : outer ((fastBinReserve L).final h.process) =
          outer (refusedState h.process (4096 + 48)) := by
        rw [← htail (refusedState h.process (4096 + 48))]
        unfold fastBinReserve
        rw [Prog.final_bind_ok (run_mem _), if_pos hempty, Prog.final_bind_ok hrefused]
      have hall := outer_final_bind (fastBinReserve L) (fun _ => internal_fastAllocate L) h.process
      have hcount := (outer_eq (hall.trans hreserve)).2
      change h.process.refusals < ((mallocFast L).final h.process).refusals
      exact hcount ▸ Nat.lt_succ_self _
    · have hplain := hserved.not_page hidle
      obtain ⟨addr, size, rfl, hneed, -, hhas, -⟩ := hserved.block
      have hout : addr ∉ h1.held := by
        rw [hserved.idle]
        exact Set.notMem_empty _
      have hnew : ¬ h1.arena.IsPage (addr + 8) := by
        rw [hserved.frame.isPage]
        exact hplain
      let h2 := h1.addPage hhas hout (by omega) hnew
      have hbins2 : h2.arena.bins 1 = (addr + 8) :: h1.arena.bins 1 :=
        h1.arena.put_bins_self 1 _
      obtain ⟨k, h', htake, htaken⟩ := taken_fastAllocate h2 hbins2
      refine .inr ⟨addr + 8, k, h2, h', ?_,
        ⟨hserved.addPage_evolves hidle hhas hout (by omega) hnew, hserved.idle, ?_, ?_, ?_,
          Or.inr ⟨hempty, hplain, ?_⟩⟩, htaken⟩
      · have hlow : addr + 8 + 8 ≤ h1.process.base := by
          obtain ⟨c, hc, rfl, rfl, -⟩ := hhas
          have := h1.shape.end_le hc
          omega
        have hbase := h1.base_lt
        have hmap : ∀ i, fastMap (addr + 8) i = addr + 8 + 16 + 8 * i :=
          fastMap_eq (by omega) (by omega)
        have hreserve : (fastBinReserve L).run h.process = .ok () h2.process := by
          unfold fastBinReserve
          rw [run_bind_ok (run_mem _), run_ite, if_pos hempty, run_bind_ok hrun]
          dsimp only
          rw [run_bind_ok (run_listPush _ _ _), hmap, hmap, hmap,
            run_bind_ok (run_poke64 _ _ _), run_bind_ok (run_poke64 _ _ _),
            run_poke64, ← Layout.head_of_lt (by omega)]
          rfl
        unfold mallocFast
        rw [run_bind_ok hreserve]
        exact htake
      · intro p
        rw [h1.addPage_isPage hhas hout (by omega) hnew, hserved.frame.isPage, or_comm]
      · intro p hp
        have hcells := h1.addPage_cells hhas (by omega) hnew ((hserved.frame.isPage p).mpr hp)
        exact hcells.trans (hserved.frame.freeCells hp)
      · intro _
        exact freeCells_pageMem _ _
      · rw [Prog.value, hrun]

/-- A request that the search through the slots can serve.  In the last slot a
chunk has to be found right there, unless no chunk is free at all. -/
def Manageable (L : Layout) (s : Process) (size : UInt32) : Prop :=
  (chunkSize size).toNat ≤ 65536 ∧ (61440 < (chunkSize size).toNat → s.bitmap = 0 ∨
    slotFits s.mem (L.slot 63) (chunkSize size).toNat 8 (nodeNext s.mem (L.slot 63)) = true)

theorem Manageable.of_le {s : Process} {size : UInt32} (hle : (chunkSize size).toNat ≤ 61440) :
    Manageable L s size :=
  ⟨by omega, by omega⟩

def askedSize (n : ℕ) : ℕ := if n ≤ 512 then tinySize n else n

theorem mmMalloc_cases (h : Heap L first) (hidle : h.held = ∅) {size : UInt32}
    (hfits : Manageable L h.process size) (hneed : need ≤ (chunkSize size).toNat)
    (hfit : 32 < (chunkSize size).toNat → (chunkSize size).toNat ≤ 512 →
      ∀ c ∈ h.arena.chunks,
        (h.arena.bins (((chunkSize size).toNat - 1) / 16)).head? = some c.node →
          need ≤ c.size) :
    h.process.refusals < ((mmMalloc L size).final h.process).refusals ∨
      ∃ p h', (mmMalloc L size).run h.process = .ok p h'.process ∧
        ((chunkSize size).toNat ≤ 32 ∧ (∃ n k h1, p = n + 40 + 32 * k + 8 ∧ Opened h n h1 ∧
            CellTaken h1 h' n k) ∨
          32 < (chunkSize size).toNat ∧ p ≠ 0 ∧ Served h need p h' ∧
            Thrifty h (askedSize (chunkSize size).toNat) p h') := by
  have hmod := chunkSize_mod size
  obtain ⟨hlimit, hlast⟩ := hfits
  unfold mmMalloc
  dsimp only
  generalize (chunkSize size).toNat = n at hlimit hlast hneed hfit hmod ⊢
  have hchunk : ∀ {path : Prog ℕ}, 32 < n → Supply h (askedSize n) need path →
      h.process.refusals < (path.final h.process).refusals ∨
        ∃ p h', path.run h.process = .ok p h'.process ∧
          (n ≤ 32 ∧ (∃ m k h1, p = m + 40 + 32 * k + 8 ∧ Opened h m h1 ∧ CellTaken h1 h' m k) ∨
            32 < n ∧ p ≠ 0 ∧ Served h need p h' ∧ Thrifty h (askedSize n) p h') := by
    intro path hslow hsupply
    rcases hsupply with hrefused | ⟨p, h', hrun, hp, hserved, hthrifty⟩
    · left
      rw [Prog.final_of_ok hrefused]
      exact Nat.lt_succ_self _
    · exact .inr ⟨p, h', hrun, .inr ⟨hslow, hp, hserved, hthrifty⟩⟩
  by_cases htiny : n ≤ 512
  · rw [if_pos htiny]
    by_cases hfast : n ≤ 32
    · unfold mallocTiny
      rw [if_pos hfast]
      rcases mallocFast_cases h hidle with hrefused | ⟨m, k, h1, h', hrun, hopened, htaken⟩
      · exact .inl hrefused
      · exact .inr ⟨_, h', hrun, .inl ⟨hfast, m, k, h1, rfl, hopened, htaken⟩⟩
    · refine hchunk (by omega) ?_
      rw [askedSize, if_pos htiny]
      refine supply_mallocTiny h hidle (by omega) htiny ?_ (hfit (by omega) htiny)
      unfold tinySize
      omega
  · rw [if_neg htiny]
    have hasked : askedSize n = n := if_neg htiny
    by_cases hhuge : n > 4096
    · rw [if_pos hhuge]
      refine hchunk (by omega) ?_
      rw [hasked]
      exact (supply_mallocHuge h hidle hhuge hlimit hmod hlast).mono hneed
    · rw [if_neg hhuge]
      refine hchunk (by omega) ?_
      rw [hasked]
      exact (supply_mallocMiddle h hidle (by omega) (by omega) hmod).mono hneed

theorem answers_mmMalloc (h : Heap L first) (hidle : h.held = ∅) {size : UInt32}
    (hfits : Manageable L h.process size) (hneed : need ≤ (chunkSize size).toNat)
    (hfit : 32 < (chunkSize size).toNat → (chunkSize size).toNat ≤ 512 →
      ∀ c ∈ h.arena.chunks,
        (h.arena.bins (((chunkSize size).toNat - 1) / 16)).head? = some c.node →
          need ≤ c.size) : Answers h need (mmMalloc L size) := by
  rcases mmMalloc_cases h hidle hfits hneed hfit with hrefused | ⟨p, h', hrun,
    ⟨hfast, n, k, h1, rfl, hopened, htaken⟩ | ⟨-, -, hserved, -⟩⟩
  · exact .inl hrefused
  · exact .inr ⟨_, h', hrun,
      ((htaken.handed hopened.idle).after hopened.evolves).mono (by omega)⟩
  · exact .inr ⟨p, h', hrun, hserved.handed hidle⟩

/-- A tiny request whose slot is not empty gets the first chunk there,
whatever its size. -/
theorem handed_of_tiny_slot (h : Heap L first) (hidle : h.held = ∅) {size : UInt32}
    (hlow : 32 < (chunkSize size).toNat) (hhigh : (chunkSize size).toNat ≤ 512) {rest : List ℕ}
    (hbins : h.arena.bins (((chunkSize size).toNat - 1) / 16) = n :: rest) :
    ∃ c ∈ h.arena.chunks, c.node = n ∧
      ∃ h', (mmMalloc L size).run h.process = .ok c.node h'.process ∧
        h'.arena.Has c.addr c.size true ∧ c.size ≠ 0 ∧ Handed h c.size c.node h' := by
  obtain ⟨c, hc, hnode, hslot, h', hrun, hcarved, hserved⟩ :=
    served_tinyAllocate h hidle (by omega) (by omega) hbins
  refine ⟨c, hc, hnode, h', ?_, hcarved.block, ?_, hserved.handed hidle⟩
  · unfold mmMalloc
    dsimp only
    rw [if_pos hhigh]
    unfold mallocTiny
    rw [run_ite, if_neg (by omega)]
    dsimp only
    rw [run_bind_ok hrun, run_ite, if_pos c.node_ne_zero]
    rfl
  · rintro hzero
    rw [hzero] at hslot
    have : (0 - 1) / 16 = (((chunkSize size).toNat - 1) / 16) := hslot
    omega

end Xv6MallocLab.Ummalloc
