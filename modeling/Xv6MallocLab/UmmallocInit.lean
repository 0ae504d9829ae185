import Xv6MallocLab.UmmallocRequests

/-!
# Initialisation of the slot allocator

`mm_init` makes every list empty and turns the memory up to the next page boundary into
one free chunk.  Whatever the kernel does, it never reports failure.
-/

namespace Xv6MallocLab.Ummalloc

open ByteMemory CircularList List Prog

attribute [local irreducible] load store

variable {L : Layout}

def emptyMem (m : Memory) (list : ℕ) : Memory := store 8 (store 8 m list list) (list + 8) list

theorem run_listInit (list : ℕ) (s : Process) :
    (listInit list).run s = .ok () { s with mem := emptyMem s.mem list } := rfl

variable {m : Memory} {list first size : ℕ} {s : Process}

variable {x heap : ℕ} {s' : Process}

theorem emptyMem_apply (hout : x < list ∨ list + 16 ≤ x) : emptyMem m list x = m x := by
  unfold emptyMem
  simp (disch := omega) only [store_apply_of_outside]

theorem emptyMem_links (hlt : list < 2 ^ 64) :
    nodeNext (emptyMem m list) list = list ∧ nodePrev (emptyMem m list) list = list := by
  unfold emptyMem nodeNext nodePrev
  constructor
  · exact load_store_of_lt (by omega)
  · rw [load_store_of_disjoint (by omega), load_store_of_lt (by omega)]

theorem links_congr {m' : Memory} (hsame : ∀ x, list ≤ x → x < list + 16 → m' x = m x) :
    nodeNext m' list = nodeNext m list ∧ nodePrev m' list = nodePrev m list := by
  unfold nodeNext nodePrev
  exact ⟨load_congr fun x hlow hhigh => hsame x (by omega) (by omega),
    load_congr fun x hlow hhigh => hsame x (by omega) (by omega)⟩

theorem run_slotInits (hL : L.Below first) (hfirst : first < 2 ^ 64) :
    ∀ slots : List ℕ, slots.Nodup → (∀ i ∈ slots, i < 64) → ∀ s : Process, ∃ m,
      (slots.forM fun i => listInit (L.slot i)).run s = .ok () { s with mem := m } ∧
        (∀ i ∈ slots, nodeNext m (L.slot i) = L.slot i ∧ nodePrev m (L.slot i) = L.slot i) ∧
        ∀ x, (∀ i ∈ slots, x < L.slot i ∨ L.slot i + 16 ≤ x) → m x = s.mem x := by
  intro slots
  induction slots with
  | nil =>
    intro _ _ s
    exact ⟨s.mem, rfl, by simp, fun _ _ => rfl⟩
  | cons i slots ih =>
    intro hnodup hbound s
    obtain ⟨hnot, hrest⟩ := nodup_cons.mp hnodup
    obtain ⟨m, hrun, hlinks, hkeep⟩ := ih hrest (fun j hj => hbound j (by simp [hj]))
      { s with mem := emptyMem s.mem (L.slot i) }
    have hi := hbound i (by simp)
    have happart : ∀ j ∈ slots, L.slot i + 16 ≤ L.slot j ∨ L.slot j + 16 ≤ L.slot i := by
      intro j hj
      have hne : i ≠ j := by
        rintro rfl
        exact hnot hj
      unfold Layout.slot
      omega
    refine ⟨m, ?_, ?_, ?_⟩
    · change (listInit (L.slot i) >>= fun _ => slots.forM fun i => listInit (L.slot i)).run s = _
      rw [run_bind_ok (run_listInit _ _)]
      exact hrun
    · intro j hj
      rcases mem_cons.mp hj with rfl | hj
      · have hsame : ∀ x, L.slot j ≤ x → x < L.slot j + 16 →
            m x = emptyMem s.mem (L.slot j) x := by
          intro x hlow hhigh
          apply hkeep
          intro k hk
          have := happart k hk
          omega
        have hslots := hL.slots
        have hlt : L.slot j < 2 ^ 64 := by
          unfold Layout.slot
          omega
        obtain ⟨hnext, hprev⟩ := links_congr hsame
        obtain ⟨hself, hself'⟩ := emptyMem_links (m := s.mem) hlt
        exact ⟨hnext.trans hself, hprev.trans hself'⟩
      · exact hlinks j hj
    · intro x hx
      rw [hkeep x fun j hj => hx j (by simp [hj])]
      exact emptyMem_apply (hx i (by simp))

theorem run_mmListInit (hL : L.Below first) (hfirst : first < 2 ^ 64) (s : Process) :
    ∃ m, (mmListInit L).run s = .ok () { s with mem := m } ∧
      (∀ i ≤ 64, nodeNext m (L.head i) = L.head i ∧ nodePrev m (L.head i) = L.head i) ∧
      ∀ x, (∀ i ≤ 64, x < L.head i ∨ L.head i + 16 ≤ x) → m x = s.mem x := by
  obtain ⟨m, hrun, hlinks, hkeep⟩ := run_slotInits hL hfirst (List.range 64) nodup_range
    (fun i hi => mem_range.mp hi) s
  have hfull : L.head 64 = L.fastFull := if_pos rfl
  refine ⟨emptyMem m L.fastFull, ?_, ?_, ?_⟩
  · unfold mmListInit
    rw [run_bind_ok hrun, run_listInit]
  · intro i hi
    by_cases hlast : i = 64
    · have hle := hL.fastFull
      rw [hlast, hfull]
      exact emptyMem_links (by omega)
    · have hslot : L.head i = L.slot i := Layout.head_of_lt (by omega)
      have happart := hL.head_apart hi le_rfl hlast
      rw [hfull] at happart
      have hsame : ∀ x, L.head i ≤ x → x < L.head i + 16 → emptyMem m L.fastFull x = m x :=
        fun x hlow hhigh => emptyMem_apply (by omega)
      obtain ⟨hnext, hprev⟩ := links_congr hsame
      obtain ⟨hself, hself'⟩ := hlinks i (mem_range.mpr (by omega))
      rw [hslot] at hnext hprev ⊢
      exact ⟨hnext.trans hself, hprev.trans hself'⟩
  · intro x hx
    rw [emptyMem_apply (hfull ▸ hx 64 le_rfl)]
    apply hkeep
    intro i hi
    have hlt := mem_range.mp hi
    rw [← Layout.head_of_lt (L := L) hlt]
    exact hx i hlt.le

def startArena (first size : ℕ) : Arena :=
  ⟨[⟨first, size, headSize, true, false⟩, ⟨first + size, 0, size, false, true⟩], fun _ => []⟩

def startMem (m : Memory) (first size : ℕ) : Memory :=
  store 4 (store 4 (store 4 (store 4 m first headSize) (first + 4) (size + 1)) (first + size) size)
    (first + size + 4) 2

theorem startMem_apply (hsize : 8 ≤ size) (hout : x < first ∨ first + size + 8 ≤ x) :
    startMem m first size x = m x := by
  unfold startMem
  simp (disch := omega) only [store_apply_of_outside]

theorem startArena_shape {base : ℕ} (haligned : first % 8 = 0) (hlow : 48 ≤ size)
    (hmod : size % 8 = 0) (hhigh : size ≤ 65536) (hbase : first + size + 8 = base) :
    (startArena first size).Shape {first} first base := by
  refine ⟨?_, ⟨_, _, rfl, rfl, rfl⟩, ⟨_, mem_cons_of_mem _ mem_cons_self, rfl, rfl,
    hbase⟩, haligned, ?_, ?_, ?_, fun _ => nodup_nil⟩
  · exact isChain_pair.mpr ⟨hlow, hmod, by change size ≤ _; omega, rfl, fun _ => rfl,
      fun hout => absurd rfl hout, fun hout => absurd rfl hout⟩
  · intro i hi hi' n
    refine iff_of_false (not_mem_nil) ?_
    rintro ⟨addr, n, ⟨c, hc, rfl, rfl, hfree⟩, hout, -, -⟩
    simp only [startArena, mem_cons, not_mem_nil, or_false] at hc
    rcases hc with rfl | rfl
    · exact hout rfl
    · exact Bool.noConfusion hfree
  · rintro n (hn | hn)
    · exact absurd hn not_mem_nil
    · exact absurd hn not_mem_nil
  · intro n hn
    exact absurd hn not_mem_nil

theorem startArena_stored (s : Process) (hL : L.Below first) (hlow : 48 ≤ size)
    (hhigh : size ≤ 65536) (hroom : s.base ≤ s.brk) (hspace : s.brk < 2 ^ 64)
    (hbit : s.bitmap = 0) (hlinks : ∀ i ≤ 64, nodeNext s.mem (L.head i) = L.head i ∧
      nodePrev s.mem (L.head i) = L.head i) :
    (startArena first size).Stored L { s with mem := startMem s.mem first size } := by
  have hheads : ∀ i ≤ 64, ∀ x, L.head i ≤ x → x < L.head i + 16 →
      startMem s.mem first size x = s.mem x := by
    intro i hi x hxlow hxhigh
    have := hL.head_le hi
    exact startMem_apply (by omega) (by omega)
  refine ⟨?_, ?_, ?_, ?_, hroom, hspace⟩
  · intro c hc
    simp only [startArena, mem_cons, not_mem_nil, or_false] at hc
    rcases hc with rfl | rfl
    · have hflags : Chunk.flags ⟨first, size, headSize, true, false⟩ = 1 := rfl
      rw [hflags]
      unfold startMem
      dsimp only
      simp (disch := omega) only [load_store_of_disjoint, load_store_of_lt]
    · unfold startMem
      exact load_store_of_lt (by omega)
  · intro c hc
    simp only [startArena, mem_cons, not_mem_nil, or_false] at hc
    unfold startMem
    rcases hc with rfl | rfl
    · dsimp only
      rw [load_store_of_disjoint (by omega), load_store_of_disjoint (by omega),
        load_store_of_disjoint (by omega), load_store_of_lt (by decide)]
    · dsimp only
      rw [load_store_of_disjoint (by omega), load_store_of_lt (by omega)]
  · intro i hi hi'
    obtain ⟨hnext, hprev⟩ := links_congr (hheads i hi')
    obtain ⟨hself, hself'⟩ := hlinks i hi'
    exact ring_nil.mpr ⟨hnext.trans hself, hprev.trans hself'⟩
  · intro i hi hi'
    refine iff_of_false ?_ (fun hne => hne rfl)
    change ¬ s.bitmap.getLsbD i = true
    rw [hbit]
    simp

theorem startArena_counted (m : Memory) (first size : ℕ) : (startArena first size).Counted m := by
  refine ⟨?_, ?_, ?_⟩
  · rintro n (hn | hn)
    · exact absurd hn not_mem_nil
    · exact absurd hn not_mem_nil
  · intro n hn
    exact absurd hn not_mem_nil
  · intro n hn
    exact absurd hn not_mem_nil

def startHeap (s : Process) {first size : ℕ} (hL : L.Below first) (haligned : first % 8 = 0)
    (hlow : 48 ≤ size) (hmod : size % 8 = 0) (hhigh : size ≤ 65536)
    (hbase : first + size + 8 = s.base) (hroom : s.base ≤ s.brk) (hspace : s.brk < 2 ^ 64)
    (hbit : s.bitmap = 0)
    (hlinks : ∀ i ≤ 64, nodeNext s.mem (L.head i) = L.head i ∧
      nodePrev s.mem (L.head i) = L.head i) : Heap L first where
  arena := startArena first size
  held := {first}
  process := { s with mem := startMem s.mem first size }
  below := hL
  shape := startArena_shape haligned hlow hmod hhigh hbase
  stored := startArena_stored s hL hlow hhigh hroom hspace hbit hlinks
  counted := startArena_counted _ first size

/-- The heap `mm_init` leaves behind when the kernel grants its requests. -/
structure Fresh (s : Process) (h : Heap L (align s.brk)) : Prop where
  low : s.brk ≤ align s.brk
  idle : h.held = ∅
  pages : ∀ n, ¬ h.arena.IsPage n
  top : h.process.brk = h.process.base
  confined : ∀ x, x ∉ Footprint L (align s.brk) h.process.base → h.process.mem x = s.mem x
  freep : h.process.freep = s.freep
  refusals : h.process.refusals = s.refusals
  grants : h.process.grants = s.grants

theorem align_bounds (hlt : heap + 4096 < 2 ^ 64) :
    heap ≤ align heap ∧ align heap < heap + 8 ∧ align heap % 8 = 0 := by
  unfold align
  omega

theorem run_layHeap (s : Process) (heap size : ℕ) (hL : L.Below (align heap))
    (htop : heap + size = s.brk) (hspace : s.brk < 2 ^ 64) (hlow : 4096 ≤ size)
    (hhigh : size ≤ 8192) (hpage : (heap + size) % 8 = 0) (hbit : s.bitmap = 0)
    (hlinks : ∀ i ≤ 64, nodeNext s.mem (L.head i) = L.head i ∧
      nodePrev s.mem (L.head i) = L.head i) :
    ∃ h : Heap L (align heap), (layHeap L heap size).run s = .ok () h.process ∧ h.held = ∅ ∧
      (∀ n, ¬ h.arena.IsPage n) ∧
      (∀ x, x ∉ Footprint L (align heap) h.process.base → h.process.mem x = s.mem x) ∧
      outer h.process = outer { s with base := s.brk } := by
  obtain ⟨hle, hlt, halign⟩ := align_bounds (show heap + 4096 < 2 ^ 64 by omega)
  obtain ⟨c, hsize⟩ : ∃ c, align heap + c + 8 = s.brk := ⟨s.brk - 8 - align heap, by omega⟩
  let s1 : Process := { s with base := s.brk }
  let h1 : Heap L (align heap) := startHeap s1 hL halign (show 48 ≤ c by omega) (by omega)
    (by omega) hsize le_rfl hspace hbit hlinks
  have hsplit : h1.arena.chunks = [] ++ (⟨align heap, c, headSize, true, false⟩ : Chunk) ::
      ⟨align heap + c, 0, c, false, true⟩ :: [] := rfl
  have hbound : (⟨align heap, c, headSize, true, false⟩ : Chunk).size ≤ 65536 := by
    change c ≤ 65536
    omega
  let h2 := h1.put hsplit rfl rfl hbound rfl rfl
  have hslot := slotIndex_bounds (show 48 ≤ c by omega) (show c ≤ 65536 by omega)
  refine ⟨h2, ?_, Set.sdiff_self, ?_, ?_, rfl⟩
  · have htopEq : (heap + size) % 2 ^ 64 = s.brk := by omega
    have hlowEq : (align heap + 8) % 2 ^ 64 = align heap + 8 := by omega
    have hpackEq : listPack (align heap + 8) = align heap := by
      rw [listPack_eq (by omega) (by omega)]
      omega
    have hnextEq : listPack s.brk = align heap + c := by
      rw [listPack_eq (by omega) (by omega)]
      omega
    have hsizeEq : (s.brk + 2 ^ 64 - (align heap + 8)) % 2 ^ 64 = c := by omega
    unfold layHeap
    dsimp only
    rw [htopEq, hlowEq, hsizeEq, hpackEq, hnextEq, run_bind_ok (EStateM.run_modify _ _),
      run_bind_ok (run_packSetPrev _ _ _),
      run_bind_ok (run_packSetInfo (by omega) (by decide) _),
      run_bind_ok (run_packSetPrev _ _ _),
      run_bind_ok (run_packSetInfo rfl (by decide) _)]
    exact run_freeChunk h1 hsplit rfl rfl rfl hbound rfl rfl
  · intro n hn
    change (h1.arena.put (slotIndex c) _).IsPage n at hn
    rw [Arena.IsPage, Arena.put_bins_of_ne _ _ (by omega), Arena.put_bins_of_ne _ _ (by omega)] at hn
    rcases hn with hn | hn
    · exact absurd hn not_mem_nil
    · exact absurd hn not_mem_nil
  · intro x hx
    have hframe := h1.put_frame hsplit rfl rfl hbound rfl rfl
    have hout : ¬ (align heap ≤ x ∧ x < s.brk) := fun hin => hx (.inl hin)
    exact (hframe.confined x hx).trans (startMem_apply (by omega) (by omega))

theorem lasting_layHeap (heap size : ℕ) : Lasting (layHeap L heap size) := by
  refine .bind (fun s => le_rfl) fun _ => Lasting.of_internal ?_
  exact .bind (internal_packSetPrev _ _) fun _ =>
    .bind (internal_packSetInfo _ _ _) fun _ =>
      .bind (internal_packSetPrev _ _) fun _ =>
        .bind (internal_packSetInfo _ _ _) fun _ => internal_freeChunk _

theorem sbrk_grant_cases {n : ℕ} (hpos : 0 < n) (hn : n < 2 ^ 31) (s : Process) :
    (s.brk + n < 2 ^ 64 ∧ (sbrk (toInt n)).run s =
        .ok s.brk { s with brk := s.brk + n, calls := s.calls + 1 }) ∨
      ((sbrk (toInt n)).final s).refusals = s.refusals + 1 := by
  by_cases hgrant : s.grants s.calls ∧ s.brk + n < 2 ^ 64
  · exact .inl ⟨hgrant.2, run_sbrk_granted hpos hn hgrant⟩
  · right
    rw [final_of_ok (run_sbrk_refused hpos hn hgrant)]

theorem mmAlignInit_cases (s : Process) (hL : L.Below (align s.brk)) (hbit : s.bitmap = 0)
    (hlinks : ∀ i ≤ 64, nodeNext s.mem (L.head i) = L.head i ∧
      nodePrev s.mem (L.head i) = L.head i) :
    s.refusals < ((mmAlignInit L).final s).refusals ∨
      ∃ h : Heap L (align s.brk), (mmAlignInit L).run s = .ok () h.process ∧ Fresh s h := by
  have hrest : ∀ heap, Lasting (if heap % pageSize ≠ 0 then do
      let _ ← sbrk (toInt (pageSize - heap % pageSize))
      layHeap L heap (pageSize + (pageSize - heap % pageSize))
    else layHeap L heap pageSize) := by
    intro heap
    split
    · exact .bind (lasting_sbrk _) fun _ => lasting_layHeap _ _
    · exact lasting_layHeap _ _
  rcases sbrk_grant_cases (show 0 < pageSize by decide) (by decide) s with
    ⟨hspace, hrun⟩ | hrefused
  · unfold pageSize at hspace
    by_cases htemp : s.brk % pageSize ≠ 0
    · have hpos : 0 < pageSize - s.brk % pageSize := by
        unfold pageSize at htemp ⊢
        omega
      have hsmall : pageSize - s.brk % pageSize < 2 ^ 31 := by
        unfold pageSize
        omega
      rcases sbrk_grant_cases hpos hsmall
          { s with brk := s.brk + pageSize, calls := s.calls + 1 } with
        ⟨hspace', hrun'⟩ | hrefused
      · right
        have htemp' : s.brk % 4096 ≠ 0 := htemp
        obtain ⟨h, hlay, hidle, hpages, hconfined, houter⟩ := run_layHeap
          { s with
            brk := s.brk + pageSize + (pageSize - s.brk % pageSize)
            calls := s.calls + 1 + 1 } s.brk (pageSize + (pageSize - s.brk % pageSize)) hL
          (by dsimp only; omega) hspace' (by unfold pageSize; omega) (by unfold pageSize; omega)
          (by unfold pageSize; omega) hbit hlinks
        simp only [outer, Prod.mk.injEq] at houter
        refine ⟨h, ?_, (align_bounds hspace).1, hidle, hpages, houter.2.2.1.trans houter.1.symm,
          hconfined, houter.2.1, houter.2.2.2.2.1, houter.2.2.2.2.2⟩
        unfold mmAlignInit
        rw [run_bind_ok hrun, run_ite, if_pos htemp, run_bind_ok hrun']
        exact hlay
      · left
        unfold mmAlignInit
        rw [final_bind_ok hrun, if_pos htemp]
        have hlast := lasting_after (fun _ => lasting_layHeap (L := L) s.brk
            (pageSize + (pageSize - s.brk % pageSize)))
          (x := sbrk (toInt (pageSize - s.brk % pageSize)))
          { s with brk := s.brk + pageSize, calls := s.calls + 1 }
        rw [hrefused] at hlast
        exact hlast
    · right
      obtain ⟨h, hlay, hidle, hpages, hconfined, houter⟩ := run_layHeap
        { s with brk := s.brk + pageSize, calls := s.calls + 1 } s.brk pageSize hL rfl hspace
        (by unfold pageSize; omega) (by unfold pageSize; omega)
        (by unfold pageSize at htemp ⊢; omega) hbit hlinks
      simp only [outer, Prod.mk.injEq] at houter
      refine ⟨h, ?_, (align_bounds hspace).1, hidle, hpages, houter.2.2.1.trans houter.1.symm,
        hconfined, houter.2.1, houter.2.2.2.2.1, houter.2.2.2.2.2⟩
      unfold mmAlignInit
      rw [run_bind_ok hrun, run_ite, if_neg htemp]
      exact hlay
  · left
    have hlast := lasting_after hrest (x := sbrk (toInt pageSize)) s
    rw [hrefused] at hlast
    exact hlast

theorem mmInit_cases (s : Process) (hL : L.Below (align s.brk)) (hbit : s.bitmap = 0) :
    s.refusals < ((mmInit L).final s).refusals ∨
      ∃ h : Heap L (align s.brk), (mmInit L).run s = .ok 0 h.process ∧ Fresh s h := by
  have hlt : align s.brk < 2 ^ 64 := by
    unfold align
    omega
  obtain ⟨m, hlist, hlinks, hkeep⟩ := run_mmListInit hL hlt s
  rcases mmAlignInit_cases { s with mem := m } hL hbit hlinks with hrefused | ⟨h, hrun, hfresh⟩
  · left
    unfold mmInit
    rw [final_bind_ok hlist]
    refine lt_of_lt_of_le hrefused (lasting_after (fun _ => ?_) _)
    exact Lasting.of_internal (.bind (fun _ => rfl) fun _ => .pure _)
  · right
    refine ⟨h, ?_, hfresh.low, hfresh.idle, hfresh.pages, hfresh.top, ?_, hfresh.freep,
      hfresh.refusals, hfresh.grants⟩
    · have hbase : h.process.base ≠ 0 := by
        obtain ⟨t, -, -, -, htop⟩ := h.shape.top
        omega
      unfold mmInit
      rw [run_bind_ok hlist, run_bind_ok hrun, run_bind_ok (EStateM.run_get _), if_neg hbase]
      rfl
    · intro x hx
      rw [hfresh.confined x hx]
      apply hkeep
      intro i hi
      by_contra hin
      exact hx (.inr ⟨i, hi, by omega, by omega⟩)

def maxVa : ℕ := 2 ^ 38

theorem internal_mmListInit : Internal (mmListInit L) := by
  have hslots : ∀ slots : List ℕ, Internal (slots.forM fun i => listInit (L.slot i)) := by
    intro slots
    induction slots with
    | nil => exact .pure ()
    | cons i slots ih => exact .bind (fun _ => rfl) fun _ => ih
  exact .bind (hslots _) fun _ s => rfl

theorem base_of_layHeap (hrun : (layHeap L heap size).run s = .ok () s') :
    s'.base = (heap + size) % 2 ^ 64 := by
  unfold layHeap at hrun
  dsimp only at hrun
  rw [run_bind_ok (EStateM.run_modify _ _)] at hrun
  have hinternal := Internal.bind (internal_packSetPrev (listPack ((align heap + 8) % 2 ^ 64))
    headSize) fun _ => .bind (internal_packSetInfo
      (listPack ((align heap + 8) % 2 ^ 64)) (((heap + size) % 2 ^ 64 + 2 ^ 64 -
        (align heap + 8) % 2 ^ 64) % 2 ^ 64) prevInuse) fun _ =>
    Internal.bind (internal_packSetPrev (listPack ((heap + size) % 2 ^ 64))
      (((heap + size) % 2 ^ 64 + 2 ^ 64 - (align heap + 8) % 2 ^ 64) % 2 ^ 64)) fun _ =>
    Internal.bind (internal_packSetInfo (listPack ((heap + size) % 2 ^ 64)) 0 thisInuse) fun _ =>
      internal_freeChunk (L := L) (listPack ((align heap + 8) % 2 ^ 64))
  have houter := (outer_eq (hinternal { s with base := (heap + size) % 2 ^ 64 })).1
  rw [final_of_ok hrun] at houter
  exact houter

theorem base_of_mmAlignInit (hbrk : s.brk < maxVa) (hrun : (mmAlignInit L).run s = .ok () s') :
    s'.base ≠ 0 := by
  unfold maxVa at hbrk
  unfold mmAlignInit at hrun
  obtain ⟨heap, s1, hsbrk, hrest⟩ := run_bind_eq_ok hrun
  have hheap : heap = s.brk ∨ heap = minusOne := by
    rcases sbrk_cases (toInt pageSize) s with ⟨s', hok, -⟩ | ⟨s', hok, -⟩
    · rw [hok] at hsbrk
      cases hsbrk
      exact .inl rfl
    · rw [hok] at hsbrk
      cases hsbrk
      exact .inr rfl
  unfold minusOne at hheap
  rw [run_ite] at hrest
  split at hrest
  · obtain ⟨_, s2, -, hlay⟩ := run_bind_eq_ok hrest
    rw [base_of_layHeap hlay]
    unfold pageSize
    omega
  · rw [base_of_layHeap hrest]
    unfold pageSize
    omega

theorem mmInit_ne_minusOne (hbrk : s.brk < maxVa) (s' : Process) :
    (mmInit L).run s ≠ .ok (-1) s' := by
  intro hrun
  unfold mmInit at hrun
  obtain ⟨_, s1, hlist, hrest⟩ := run_bind_eq_ok hrun
  obtain ⟨_, s2, halign, hreturn⟩ := run_bind_eq_ok hrest
  have hsame : s1.brk = s.brk := by
    have houter := internal_mmListInit (L := L) s
    rw [final_of_ok hlist] at houter
    simp only [outer, Prod.mk.injEq] at houter
    exact houter.2.2.1
  have hbase := base_of_mmAlignInit (hsame ▸ hbrk) halign
  rw [run_bind_ok (EStateM.run_get _), if_neg hbase] at hreturn
  cases hreturn

end Xv6MallocLab.Ummalloc
