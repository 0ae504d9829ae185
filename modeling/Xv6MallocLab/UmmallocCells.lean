import Xv6MallocLab.UmmallocRuns

/-!
# States reached by manageable requests, and their fast pages

`Reached` collects the states behind `mm_init` and any requests that the slots can serve,
with the pages `fast_bin_reserve` obtained and the pointers handed out.  A cell has been
handed out exactly if its bit is clear.
-/

namespace Xv6MallocLab.Ummalloc

open ByteMemory CircularList List Prog

attribute [local irreducible] load store

variable {L : Layout} {first : ℕ}

def newPages (L : Layout) (s : Process) (size : UInt32) : List ℕ :=
  if (chunkSize size).toNat ≤ 32 ∧ listEmpty s.mem (L.slot 1) = true then
    ((mallocHuge L (4096 + 48)).value s).toList
  else
    []

/-- `s'` is reached from the loaded process `s` by `mm_init` and requests that were
manageable when they were made; `pages` are the fast pages made and `ps` the pointers
handed out. -/
inductive Reached (L : Layout) (s : Process) : List ℕ → List ℕ → Process → Prop
  | init {s0 : Process} (start : Startable L s) (run : (mmInit L).run s = .ok 0 s0)
      (granted : s0.refusals = s.refusals) : Reached L s [] [] s0
  | request {pages ps : List ℕ} {s1 s2 : Process} {size : UInt32} {p : ℕ}
      (before : Reached L s pages ps s1) (fits : Manageable L s1 size)
      (run : (mmMalloc L size).run s1 = .ok p s2) (granted : s2.refusals = s1.refusals) :
      Reached L s (newPages L s1 size ++ pages) (p :: ps) s2

structure Ledger (h : Heap L first) (pages ps : List ℕ) : Prop where
  pages : ∀ n, h.arena.IsPage n ↔ n ∈ pages
  owned : ∀ p ∈ ps, Owned h p 0
  nodup : ps.Nodup
  handed : ∀ n, h.arena.IsPage n → ∀ k < 128,
    (n + 40 + 32 * k + 8 ∈ ps ↔ k ∉ freeCells h.process.mem n)

variable {h h1 : Heap L first} {n : ℕ} {size : UInt32} {pages ps : List ℕ}

theorem Opened.cell_not_owned {k : ℕ} (hopened : Opened h n h1) (hnew : ¬ h.arena.IsPage n)
    (hk : k < 128) : ¬ Owned h (n + 40 + 32 * k + 8) 0 := by
  have hpage : h1.arena.IsPage n := (hopened.pages n).mpr (.inr rfl)
  rintro (⟨addr, size, haddr, hhas, hsize, -, -⟩ | ⟨n', k', hn', hk', -, heq, -⟩)
  · obtain rfl : addr = n + 40 + 32 * k := by omega
    exact InCell.not_chunk hpage hk (hopened.evolves.kept _ _ hsize hhas)
  · have hne : n' ≠ n := by
      rintro rfl
      exact hnew hn'
    have := h1.other_page hpage ((hopened.pages n').mpr (.inl hn')) hne
    omega

theorem newPages_of_chunk {s : Process} (hlow : 32 < (chunkSize size).toNat) :
    newPages L s size = [] :=
  if_neg fun hfast => by omega

theorem Opened.newPages (hopened : Opened h n h1) (hfast : (chunkSize size).toNat ≤ 32) (p : ℕ) :
    h.arena.IsPage p ∨ p = n ↔ p ∈ newPages L h.process size ∨ h.arena.IsPage p := by
  unfold Ummalloc.newPages
  rcases hopened.origin with ⟨hfull, hpage⟩ | ⟨hempty, -, hvalue⟩
  · rw [if_neg (by rw [hfull]; simp)]
    constructor
    · rintro (hp | rfl)
      · exact .inr hp
      · exact .inr hpage
    · rintro (hp | hp)
      · exact absurd hp not_mem_nil
      · exact .inl hp
  · rw [if_pos ⟨hfast, hempty⟩, hvalue, Option.toList_some, mem_singleton, or_comm]

theorem Ledger.cell {h' : Heap L first} {k : ℕ} (hledger : Ledger h pages ps)
    (hfast : (chunkSize size).toNat ≤ 32) (hopened : Opened h n h1) (htaken : CellTaken h1 h' n k) :
    Ledger h' (newPages L h.process size ++ pages) ((n + 40 + 32 * k + 8) :: ps) := by
  have hh := (htaken.handed hopened.idle).after hopened.evolves
  refine ⟨?_, ?_, ?_, ?_⟩
  · intro p
    rw [htaken.pages, hopened.pages, hopened.newPages hfast, mem_append, hledger.pages]
  · intro p hp
    rcases mem_cons.mp hp with rfl | hp
    · exact hh.owned.mono (Nat.zero_le _)
    · exact (hledger.owned p hp).evolves hh.evolves
  · exact nodup_cons.mpr ⟨fun hin => hh.fresh 0 (hledger.owned _ hin), hledger.nodup⟩
  · intro p hp j hj
    rw [htaken.pages] at hp
    -- Before the cell is taken, the page is an old one or has no cell out.
    have hbefore : p + 40 + 32 * j + 8 ∈ ps ↔ j ∉ freeCells h1.process.mem p := by
      by_cases hold : h.arena.IsPage p
      · rw [hopened.old p hold]
        exact hledger.handed p hold j hj
      · obtain rfl : p = n := ((hopened.pages p).mp hp).resolve_left hold
        rw [hopened.new hold]
        constructor
        · intro hin
          exact absurd (hledger.owned _ hin) (hopened.cell_not_owned hold hj)
        · intro hout
          exact absurd (Finset.mem_range.mpr hj) hout
    rw [mem_cons, hbefore]
    by_cases hsame : p = n
    · subst hsame
      rw [htaken.cells, Finset.mem_erase, not_and_or, not_not]
      have hcell : p + 40 + 32 * j + 8 = p + 40 + 32 * k + 8 ↔ j = k := by omega
      rw [hcell]
    · rw [htaken.others p hp hsame]
      have hapart := h1.other_page htaken.page hp hsame
      have hk := (mem_freeCells.mp htaken.free).1
      constructor
      · rintro (heq | hin)
        · omega
        · exact hin
      · exact .inr

theorem Ledger.chunk {h' : Heap L first} {need p : ℕ} (hledger : Ledger h pages ps)
    (hidle : h.held = ∅) (hserved : Served h need p h') : Ledger h' pages (p :: ps) := by
  have hh := hserved.handed hidle
  refine ⟨?_, ?_, ?_, ?_⟩
  · intro n
    rw [hserved.frame.isPage, hledger.pages]
  · intro q hq
    rcases mem_cons.mp hq with rfl | hq
    · exact hh.owned.mono (Nat.zero_le _)
    · exact (hledger.owned q hq).evolves hh.evolves
  · exact nodup_cons.mpr ⟨fun hin => hh.fresh 0 (hledger.owned _ hin), hledger.nodup⟩
  · intro n hn k hk
    obtain ⟨addr, size, rfl, -, -, hhas, -⟩ := hserved.block
    have hne : n + 40 + 32 * k + 8 ≠ addr + 8 := by
      intro heq
      obtain rfl : addr = n + 40 + 32 * k := by omega
      exact InCell.not_chunk hn hk hhas
    rw [hserved.frame.isPage] at hn
    rw [mem_cons, hserved.frame.freeCells hn, hledger.handed n hn k hk]
    constructor
    · rintro (heq | hin)
      · exact absurd heq hne
      · exact hin
    · exact .inr

theorem Reached.heap {s s' : Process} (hreached : Reached L s pages ps s') :
    ∃ h : Heap L (align s.brk), h.process = s' ∧ h.held = ∅ ∧ Ledger h pages ps := by
  induction hreached with
  | init start run granted =>
    rcases mmInit_cases s start.below start.bitmap with hrefused | ⟨h, hinit, hfresh⟩
    · rw [final_of_ok run] at hrefused
      omega
    · rw [run] at hinit
      cases hinit
      refine ⟨h, rfl, hfresh.idle, ?_, by simp, nodup_nil, ?_⟩
      · intro n
        simp [hfresh.pages n]
      · intro n hn
        exact absurd hn (hfresh.pages n)
  | request before fits run granted ih =>
    obtain ⟨h, rfl, hidle, hledger⟩ := ih
    rcases mmMalloc_cases h hidle fits (Nat.zero_le _) (fun _ _ _ _ _ => Nat.zero_le _) with
      hrefused | ⟨p, h', hrun, ⟨hfast, n, k, h1, rfl, hopened, htaken⟩ | ⟨hslow, -, hserved, -⟩⟩
    · rw [final_of_ok run] at hrefused
      omega
    · rw [run] at hrun
      cases hrun
      exact ⟨h', rfl, htaken.held.trans hopened.idle, hledger.cell hfast hopened htaken⟩
    · rw [run] at hrun
      cases hrun
      refine ⟨h', rfl, hserved.idle, ?_⟩
      rw [newPages_of_chunk hslow]
      exact hledger.chunk hidle hserved

def setBits (word : ℕ) : Finset ℕ := (Finset.range 64).filter fun b => word.testBit b = true

theorem card_freeCells (m : Memory) (n : ℕ) :
    (freeCells m n).card =
      (setBits (load 8 m (n + 24))).card + (setBits (load 8 m (n + 32))).card := by
  have hsplit : freeCells m n = setBits (load 8 m (n + 24)) ∪
      (setBits (load 8 m (n + 32))).map (addRightEmbedding 64) := by
    ext k
    simp only [mem_freeCells, Finset.mem_union, Finset.mem_map, setBits, Finset.mem_filter,
      Finset.mem_range, addRightEmbedding_apply]
    by_cases hlow : k < 64
    · rw [Nat.div_eq_of_lt hlow, Nat.mod_eq_of_lt hlow]
      constructor
      · rintro ⟨-, hbit⟩
        exact .inl ⟨hlow, hbit⟩
      · rintro (⟨-, hbit⟩ | ⟨b, -, rfl⟩)
        · exact ⟨by omega, hbit⟩
        · omega
    · constructor
      · rintro ⟨hhigh, hbit⟩
        rw [show k / 64 = 1 by omega, show k % 64 = k - 64 by omega] at hbit
        exact .inr ⟨k - 64, ⟨by omega, hbit⟩, by omega⟩
      · rintro (⟨hin, -⟩ | ⟨b, ⟨hb, hbit⟩, rfl⟩)
        · exact absurd hin hlow
        · rw [show (b + 64) / 64 = 1 by omega, show (b + 64) % 64 = b by omega]
          exact ⟨by omega, hbit⟩
  rw [hsplit, Finset.card_union_of_disjoint, Finset.card_map]
  rw [Finset.disjoint_left]
  intro k hk hk'
  obtain ⟨b, -, rfl⟩ := Finset.mem_map.mp hk'
  have hlt : b + 64 < 64 := Finset.mem_range.mp (Finset.mem_filter.mp hk).1
  omega

/-- The bookkeeping of the fast page with node `n`, when `ps` has been handed
out. -/
structure FastPage (L : Layout) (first : ℕ) (s : Process) (ps : List ℕ) (n : ℕ) : Prop where
  count : load 8 s.mem (fastMap n 0) =
    (setBits (load 8 s.mem (fastMap n 1))).card + (setBits (load 8 s.mem (fastMap n 2))).card
  open_iff : Linked s.mem (L.slot 1) n ↔ 0 < load 8 s.mem (fastMap n 0)
  full_iff : Linked s.mem L.fastFull n ↔ load 8 s.mem (fastMap n 0) = 0
  handed_iff : ∀ i < 128, packData (fastMap n 3 + 32 * i) ∈ ps ↔
    (load 8 s.mem (fastMap n (1 + i / 64))).testBit (i % 64) = false
  inside : ∃ a, IsChunk first s a ∧ InUse s.mem a ∧ packData a = n ∧ n + 16 + 24 ≤ fastMap n 3 ∧
    fastMap n 3 + 32 * 128 ≤ a + packSize s.mem a

theorem Ledger.fastPage (hledger : Ledger h pages ps) (hn : h.arena.IsPage n) :
    FastPage L first h.process ps n := by
  obtain ⟨hlow, -, hhigh⟩ := h.page_bounds hn
  have hbase := h.base_lt
  have hmap : ∀ i, fastMap n i = n + 16 + 8 * i := fastMap_eq hlow (by omega)
  have hcount := h.counted.count n hn
  refine ⟨?_, ?_, ?_, ?_, ?_⟩
  · rw [hmap, hmap, hmap]
    exact hcount.trans (card_freeCells _ n)
  · rw [h.linked_open_iff, hmap]
    constructor
    · exact h.counted.count_pos n
    · intro hpos
      rcases hn with hn | hn
      · exact hn
      · exact absurd (h.counted.count_zero n hn) hpos.ne'
  · rw [h.linked_full_iff, hmap]
    constructor
    · exact h.counted.count_zero n
    · intro hzero
      rcases hn with hn | hn
      · exact absurd hzero (h.counted.count_pos n hn).ne'
      · exact hn
  · intro i hi
    have hcell : packData (fastMap n 3 + 32 * i) = n + 40 + 32 * i + 8 := by
      rw [hmap, packData_eq (by omega)]
    rw [hcell, hledger.handed n hn i hi, hmap, mem_freeCells, not_and,
      show n + 16 + 8 * (1 + i / 64) = n + 24 + 8 * (i / 64) by omega]
    simp [hi]
  · obtain ⟨_, _, ⟨c, hc, rfl, rfl, hused⟩, -, rfl, hsize⟩ := h.shape.page n hn
    refine ⟨c.addr, h.isChunk_iff.mpr ⟨c, hc, by omega, rfl⟩, (h.inUse_iff hc).mpr hused,
      h.packData hc, ?_, ?_⟩
    · rw [hmap]
    · rw [hmap, h.packSize hc]
      omega

/-- The pages made are those on the two page lists, each with its books in
order; no two cells overlap, no pointer was handed out twice, and the next
fast request does not end in `IMPOSSIBLE`. -/
structure Bookkept (L : Layout) (first : ℕ) (s : Process) (pages ps : List ℕ) : Prop where
  listed : ∀ n, Linked s.mem (L.slot 1) n ∨ Linked s.mem L.fastFull n ↔ n ∈ pages
  page : ∀ n ∈ pages, FastPage L first s ps n
  apart : ∀ n ∈ pages, ∀ m ∈ pages, ∀ i < 128, ∀ j < 128, (n, i) ≠ (m, j) →
    fastMap n 3 + 32 * i + 32 ≤ fastMap m 3 + 32 * j ∨
      fastMap m 3 + 32 * j + 32 ≤ fastMap n 3 + 32 * i
  nodup : ps.Nodup
  next : ∀ size, (chunkSize size).toNat ≤ 32 →
    ((mmMalloc L size).final s).refusals = s.refusals →
      ∃ p s', (mmMalloc L size).run s = .ok p s' ∧ p ∉ ps

/-- The fast pages are in order after every run. -/
theorem fast_pages_reached {s s' : Process} {pages ps : List ℕ}
    (hreached : Reached L s pages ps s') : Bookkept L (align s.brk) s' pages ps := by
  obtain ⟨h, rfl, hidle, hledger⟩ := hreached.heap
  have hbase := h.base_lt
  refine ⟨?_, ?_, ?_, hledger.nodup, ?_⟩
  · intro n
    rw [h.linked_open_iff, h.linked_full_iff]
    exact hledger.pages n
  · intro n hn
    exact hledger.fastPage ((hledger.pages n).mpr hn)
  · intro n hn m hm i hi j hj hne
    rw [← hledger.pages] at hn hm
    obtain ⟨hlow, -, hhigh⟩ := h.page_bounds hn
    obtain ⟨hlow', -, hhigh'⟩ := h.page_bounds hm
    rw [fastMap_eq hlow (by omega), fastMap_eq hlow' (by omega)]
    by_cases hsame : n = m
    · subst hsame
      have : i ≠ j := fun heq => hne (by rw [heq])
      omega
    · have := h.other_page hm hn hsame
      omega
  · intro size hsize hgranted
    have hfits : Manageable L h.process size := .of_le (by omega)
    rcases answers_mmMalloc h hidle hfits (Nat.zero_le _)
      (fun _ _ _ _ _ => Nat.zero_le _) with hrefused | ⟨p, h', hrun, hh⟩
    · omega
    · exact ⟨p, h'.process, hrun, fun hin => hh.fresh 0 (hledger.owned p hin)⟩

def sampleReady : Process := (mmInit sampleLayout).final sampleProcess

theorem sampleReady_eval :
    (mmInit sampleLayout).value sampleProcess = some 0 ∧ sampleReady.refusals = 0 ∧
      (mmMalloc sampleLayout 10).value sampleReady = some 67608 ∧
      ((mmMalloc sampleLayout 10).final sampleReady).refusals = 0 := by
  decide +kernel

theorem sampleReady_reached : Reached sampleLayout sampleProcess [] [] sampleReady :=
  .init sample_startable (run_of_value sampleReady_eval.1) sampleReady_eval.2.1

theorem fast_pages_sample :
    ∃ pages ps s', Reached sampleLayout sampleProcess pages ps s' ∧ ps.length = 1 ∧
      Bookkept sampleLayout (align sampleProcess.brk) s' pages ps :=
  have hfits : Manageable sampleLayout sampleReady 10 := .of_le (by decide)
  have hreached := sampleReady_reached.request hfits (run_of_value sampleReady_eval.2.2.1)
    (sampleReady_eval.2.2.2.trans sampleReady_eval.2.1.symm)
  ⟨_, _, _, hreached, rfl, fast_pages_reached hreached⟩

/-- A program that has taken the memory up to 6291456 with `sbrk` and written words in it that
look like a list head: where `slots[1280]` would be, `next` leads to a chunk of 5046280 bytes
with these links. -/
def trapProcess (prev next : ℕ) : Process :=
  { sampleProcess with
    mem := store 8 (store 8 (store 8 (store 4 (fun _ => 0) 32764 5046280) 32768 prev)
      32776 next) 24584 32768
    brk := 6291456 }

theorem trap_startable (prev next : ℕ) : Startable sampleLayout (trapProcess prev next) :=
  ⟨rfl, ⟨by change 4096 + 1024 ≤ align 6291456; decide, by change 8192 + 16 ≤ align 6291456; decide,
    by decide⟩⟩

theorem oversized_page_eval :
    newPages sampleLayout ((mmInit sampleLayout).final (trapProcess 6291472 140000)) 10 =
        [6291464] ∧
      (session sampleLayout [10, 5046272]).value (trapProcess 6291472 140000) =
        some [6293528, 32768] ∧
      ((session sampleLayout [10, 5046272]).final (trapProcess 6291472 140000)).refusals = 0 ∧
      load 8 ((session sampleLayout [10, 5046272]).final (trapProcess 6291472 140000)).mem
        (fastMap 6291464 0) = 140000 := by
  decide +kernel

theorem card_setBits_le (word : ℕ) : (setBits word).card ≤ 64 :=
  (Finset.card_filter_le _ _).trans_eq (Finset.card_range 64)

/-- `malloc_huge` looks for a chunk of 5046280 bytes in a slot that lies in the memory of the
program.  Unlinking the chunk found there overwrites the count of a fast page. -/
theorem oversized_breaks_page :
    Startable sampleLayout (trapProcess 6291472 140000) ∧
      newPages sampleLayout ((mmInit sampleLayout).final (trapProcess 6291472 140000)) 10 =
        [6291464] ∧
      ∃ s', (session sampleLayout [10, 5046272]).run (trapProcess 6291472 140000) =
          .ok [6293528, 32768] s' ∧ s'.refusals = (trapProcess 6291472 140000).refusals ∧
        load 8 s'.mem (fastMap 6291464 0) ≠ (setBits (load 8 s'.mem (fastMap 6291464 1))).card +
          (setBits (load 8 s'.mem (fastMap 6291464 2))).card := by
  obtain ⟨hpages, hvalue, hrefusals, hcount⟩ := oversized_page_eval
  refine ⟨trap_startable _ _, hpages, _, run_of_value hvalue, hrefusals, ?_⟩
  have hone := card_setBits_le (load 8 ((session sampleLayout [10, 5046272]).final
    (trapProcess 6291472 140000)).mem (fastMap 6291464 1))
  have htwo := card_setBits_le (load 8 ((session sampleLayout [10, 5046272]).final
    (trapProcess 6291472 140000)).mem (fastMap 6291464 2))
  rw [hcount]
  omega

end Xv6MallocLab.Ummalloc
