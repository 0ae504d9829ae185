import Xv6MallocLab.UmmallocHeap

/-!
# The allocation paths

The code is run on heaps.  Each helper performs one or two of the transitions, and every
path that hands out a chunk is summarised by `Served`: the heap it leaves behind, and the
chunk the returned pointer belongs to.
-/

namespace Xv6MallocLab.Ummalloc

open ByteMemory CircularList List Prog

attribute [local irreducible] load store

variable {L : Layout} {first : ℕ}

namespace Heap

variable (h : Heap L first) {c d : Chunk} {pre post : List Chunk}

section

variable (hc : c ∈ h.arena.chunks)

include hc

theorem packSize : packSize h.process.mem c.addr = c.size := by
  have hsize := h.shape.size_cases hc
  have hflags := c.flags_lt
  exact packSize_of_load (h.stored.size c hc) (by omega) (by omega) (by omega)

theorem packMeta : packMeta h.process.mem c.addr = c.flags := by
  have hsize := h.shape.size_cases hc
  have hflags := c.flags_lt
  exact packMeta_of_load (h.stored.size c hc) (by omega) (by omega)

theorem packNext : packNext h.process.mem c.addr = c.addr + c.size := by
  have hsize := h.shape.size_cases hc
  have hflags := c.flags_lt
  have hend := h.shape.end_le hc
  have hbase := h.base_lt
  exact packNext_of_load (h.stored.size c hc) (by omega) (by omega) (by omega) (by omega)

theorem packData : packData c.addr = c.node := by
  have hend := h.shape.end_le hc
  have hbase := h.base_lt
  exact packData_eq (by omega)

theorem listPack : listPack c.node = c.addr := by
  have hend := h.shape.end_le hc
  have hbase := h.base_lt
  unfold Chunk.node
  rw [listPack_eq (by omega) (by omega)]
  omega

end

end Heap

theorem Chunk.node_ne_zero (c : Chunk) : c.node ≠ 0 := by
  unfold Chunk.node
  omega

theorem Chunk.flags_or_prevInuse (d : Chunk) :
    d.flags ||| prevInuse = { d with prevUsed := true }.flags := by
  obtain ⟨addr, size, prevSize, prevUsed, used⟩ := d
  cases prevUsed <;> cases used <;> simp [Chunk.flags, prevInuse]

theorem Layout.head_of_lt {i : ℕ} (hi : i < 64) : L.head i = L.slot i := by
  rw [Layout.head, if_neg (by omega)]

/-- Pointer `p` was handed out for `need` bytes of chunk: it belongs to a
chunk in use that is at least that large and was not in use before. -/
structure Served (h : Heap L first) (need p : ℕ) (h' : Heap L first) : Prop where
  frame : Frame h h'
  idle : h'.held = ∅
  block : ∃ addr size, p = addr + 8 ∧ need ≤ size ∧ 48 ≤ size ∧ h'.arena.Has addr size true ∧
    ∀ n, n ≠ 0 → h.arena.Has addr n true → addr ∈ h.held

variable {h h' : Heap L first}

variable {h0 : Heap L first} {need p addr size : ℕ}

theorem Served.after (f : Frame h0 h) (hserved : Served h need p h') : Served h0 need p h' := by
  refine ⟨f.trans hserved.frame, hserved.idle, ?_⟩
  obtain ⟨addr, size, hp, hneed, hlarge, hhas, hfresh⟩ := hserved.block
  refine ⟨addr, size, hp, hneed, hlarge, hhas, ?_⟩
  intro n hn hold
  by_contra hout
  obtain ⟨hhas', hout'⟩ := f.kept addr n hn hold hout
  exact hout' (hfresh n hn hhas')

theorem Served.mono {need' : ℕ} (hle : need' ≤ need) (hserved : Served h need p h') :
    Served h need' p h' := by
  obtain ⟨addr, size, hp, hneed, hrest⟩ := hserved.block
  exact ⟨hserved.frame, hserved.idle, addr, size, hp, hle.trans hneed, hrest⟩

/-- The chunk at `addr` is handed out with `size` bytes.  Any other chunk that
was not there before is a free one, cut off its end. -/
structure Carved (h : Heap L first) (addr size : ℕ) (h' : Heap L first) : Prop where
  block : h'.arena.Has addr size true
  made : ∀ c ∈ h'.arena.chunks, c.size ≠ 0 → c.addr = addr ∨
    (∃ d ∈ h.arena.chunks, d.size ≠ 0 ∧ d.addr = c.addr) ∨ c.used = false

theorem Carved.after (hold : ∀ c ∈ h.arena.chunks, c.size ≠ 0 → c.addr = addr ∨
      ∃ d ∈ h0.arena.chunks, d.size ≠ 0 ∧ d.addr = c.addr) (hcarved : Carved h addr size h') :
    Carved h0 addr size h' := by
  refine ⟨hcarved.block, ?_⟩
  intro c hc hsize
  rcases hcarved.made c hc hsize with haddr | ⟨d, hd, hdsize, haddr⟩ | hfree
  · exact .inl haddr
  · rcases hold d hd hdsize with hd | hd
    · exact .inl (haddr ▸ hd)
    · exact .inr (.inl (haddr ▸ hd))
  · exact .inr (.inr hfree)

theorem Carved.of_take {c : Chunk} {hc : c ∈ h.arena.chunks} {hfree : c.used = false}
    {hout : c.addr ∉ h.held} (hcarved : Carved (h.take hc hfree hout) addr size h') :
    Carved h addr size h' :=
  ⟨hcarved.block, hcarved.made⟩

def Thrifty (h : Heap L first) (need p : ℕ) (h' : Heap L first) : Prop :=
  ∃ addr size, p = addr + 8 ∧ size < 2 * need ∧ Carved h addr size h'

section Carve

variable (h : Heap L first) {c d : Chunk} {pre post : List Chunk}

section

variable (hsplit : h.arena.chunks = pre ++ c :: d :: post)

include hsplit

theorem run_packAllocate (hheld : h.held = {c.addr}) (hprev : c.prevUsed = true) :
    (packAllocate c.addr).run h.process =
      .ok c.node (h.allocate hsplit hheld hprev).result.process := by
  have hc : c ∈ h.arena.chunks := by simp [hsplit]
  have hd : d ∈ h.arena.chunks := by simp [hsplit]
  obtain ⟨hlarge, hmod, hbound, hadj, -⟩ := h.shape.link_of_split hsplit
  have hend := h.shape.end_le hc
  have hbase := h.base_lt
  have hmark : (load 4 h.process.mem (c.addr + 4) &&& sizeMask) ||| bothInuse = c.size + 3 := by
    have hsize := h.packSize hc
    unfold Ummalloc.packSize at hsize
    have hk : c.size = 8 * (c.size / 8) + 0 := by omega
    rw [hsize, hk, or_flags _ _ _ (by omega) (by decide)]
    rfl
  have hnext : packNext (store 4 h.process.mem (c.addr + 4) (c.size + 3)) c.addr = d.addr := by
    rw [packNext_of_load (load_store_of_lt (by omega)) (by omega) hmod hbound (by omega), hadj]
  have hadd : load 4 (store 4 (store 4 h.process.mem (c.addr + 4) (c.size + 3)) d.addr c.size)
      (d.addr + 4) ||| prevInuse = d.size + { d with prevUsed := true }.flags := by
    simp (disch := omega) only [load_store_of_disjoint, h.stored.size d hd]
    have hdsize := h.shape.size_cases hd
    have hdflags := d.flags_lt
    have hk : d.size = 8 * (d.size / 8) := by omega
    rw [← d.flags_or_prevInuse, hk, or_flags _ _ _ (by omega) (by decide)]
  unfold packAllocate
  rw [run_bind_ok (run_mem _), run_bind_ok (run_packSetMeta _ _ _),
    run_bind_ok (run_mem _), run_bind_ok (run_packSetPrev _ _ _),
    run_bind_ok (run_packAddMeta _ _ _), h.packSize hc, hmark]
  dsimp only
  rw [hnext, hadd, h.packData hc]
  rfl

theorem run_freeChunk (hheld : c.addr ∈ h.held) (hfree : c.used = false)
    (hprevUsed : c.prevUsed = true) (hsize : c.size ≤ 65536) (hprev : d.prevUsed = false)
    (hprevSize : d.prevSize = c.size) :
    (freeChunk L c.addr).run h.process =
      .ok () (h.put hsplit hheld hfree hsize hprev hprevSize).process := by
  have hc : c ∈ h.arena.chunks := by simp [hsplit]
  have hd : d ∈ h.arena.chunks := by simp [hsplit]
  obtain ⟨hlarge, -, -, hadj, hused, -⟩ := h.shape.link_of_split hsplit
  obtain ⟨hi, hi'⟩ := slotIndex_bounds hlarge hsize
  have hmeta : ¬ (packMeta h.process.mem c.addr ≠ prevInuse) := by
    rw [h.packMeta hc]
    simp [Chunk.flags, hfree, hprevUsed, prevInuse]
  have hnext : ¬ (packMeta h.process.mem (packNext h.process.mem c.addr) ≠ thisInuse) := by
    rw [h.packNext hc, ← hadj, h.packMeta hd]
    simp [Chunk.flags, hprev, hused hheld, thisInuse]
  unfold freeChunk
  rw [run_bind_ok (run_mem _), run_bind_ok (run_impossible_of_not hmeta _),
    run_bind_ok (run_mem _), run_bind_ok (run_mem _),
    run_bind_ok (run_impossible_of_not hnext _), run_bind_ok (run_mem _),
    h.packSize hc, run_bind_ok (run_getIndex (by omega) _)]
  dsimp only
  rw [run_bind_ok (run_listPush _ _ _), run_bitmapSet, h.packData hc, ← Layout.head_of_lt hi']
  rfl

theorem served_packAllocate (hheld : h.held = {c.addr}) (hprev : c.prevUsed = true) :
    ∃ h', (packAllocate c.addr).run h.process = .ok c.node h'.process ∧
      Carved h c.addr c.size h' ∧ Served h c.size c.node h' := by
  have hchunks : (h.allocate hsplit hheld hprev).result.arena.chunks =
      pre ++ { c with used := true } :: { d with prevSize := c.size, prevUsed := true } :: post := by
    simp [Surgery.result, Surgery.arena, Heap.allocate]
  have hhas : (h.allocate hsplit hheld hprev).result.arena.Has c.addr c.size true :=
    ⟨{ c with used := true }, by simp [hchunks], rfl, rfl, rfl⟩
  refine ⟨(h.allocate hsplit hheld hprev).result, run_packAllocate h hsplit hheld hprev,
    ⟨hhas, ?_⟩, (h.allocate hsplit hheld hprev).frame, rfl, c.addr, c.size, rfl, le_rfl,
    (h.shape.link_of_split hsplit).large, hhas, ?_⟩
  · intro e he hsize
    rw [hchunks] at he
    rw [hsplit]
    simp only [mem_append, mem_cons] at he ⊢
    rcases he with he | rfl | rfl | he
    · exact .inr (.inl ⟨e, .inl he, hsize, rfl⟩)
    · exact .inl rfl
    · exact .inr (.inl ⟨d, .inr (.inr (.inl rfl)), hsize, rfl⟩)
    · exact .inr (.inl ⟨e, .inr (.inr (.inr he)), hsize, rfl⟩)
  · intro n _ _
    rw [hheld]
    rfl

variable {need : ℕ}

theorem served_splitAllocate {rest : ℕ} (hheld : h.held = {c.addr}) (hprev : c.prevUsed = true)
    (hsum : need + rest = c.size) (hneed : 48 ≤ need) (hmod : need % 8 = 0) (hrest : 48 ≤ rest)
    (hbound : rest ≤ 65536) :
    ∃ h', (splitAllocate L c.addr need).run h.process = .ok c.node h'.process ∧
      Carved h c.addr need h' ∧ Served h need c.node h' := by
  have hc : c ∈ h.arena.chunks := by simp [hsplit]
  have hd : d ∈ h.arena.chunks := by simp [hsplit]
  obtain ⟨-, hcmod, hcbound, hadj, -⟩ := h.shape.link_of_split hsplit
  have hend := h.shape.end_le hc
  have hbase := h.base_lt
  have hdsize := h.shape.size_cases hd
  let h1 := (h.split hsplit hheld hprev hsum hneed hmod hrest).result
  have hframe : Frame h h1 := (h.split hsplit hheld hprev hsum hneed hmod hrest).frame
  have hsplit1 : h1.arena.chunks = (pre ++ [{ c with size := need, used := true }]) ++
      ⟨c.addr + need, rest, need, true, false⟩ ::
        { d with prevSize := rest, prevUsed := false } :: post := by
    simp [h1, Surgery.result, Surgery.arena, Heap.split]
  have hheld1 : (⟨c.addr + need, rest, need, true, false⟩ : Chunk).addr ∈ h1.held := rfl
  let h2 := h1.put hsplit1 hheld1 rfl hbound rfl rfl
  have hframe2 : Frame h1 h2 := h1.put_frame hsplit1 hheld1 rfl hbound rfl rfl
  have hhas : h2.arena.Has c.addr need true :=
    ⟨{ c with size := need, used := true }, by
      simp [h2, h1, Heap.put, Arena.put, Surgery.result, Surgery.arena, Heap.split],
      rfl, rfl, rfl⟩
  refine ⟨h2, ?_, ⟨hhas, ?_⟩, hframe.trans hframe2, Set.sdiff_self, c.addr, need, rfl, le_rfl,
    hneed, hhas, ?_⟩
  · have hrestEq : (packSize h.process.mem c.addr + 2 ^ 64 - need) % 2 ^ 64 = rest := by
      rw [h.packSize hc]
      omega
    have hmark : (load 4 (store 4 h.process.mem d.addr rest) (d.addr + 4) &&& sizeMask) |||
        thisInuse = d.size + 2 := by
      have hsize := h.packSize hd
      unfold Ummalloc.packSize at hsize
      have hk : d.size = 8 * (d.size / 8) + 0 := by omega
      rw [load_store_of_disjoint (by omega), hsize, hk, or_flags _ _ _ (by omega) (by decide),
        Nat.zero_or]
      rfl
    have htemp : ∀ m, packNext (store 4 m (c.addr + 4) (need + 3)) c.addr = c.addr + need :=
      fun m => packNext_of_load (load_store_of_lt (by omega)) (by omega) hmod (by omega) (by omega)
    unfold splitAllocate
    rw [run_bind_ok (run_mem _), run_bind_ok (run_mem _),
      run_bind_ok (run_packSetPrev _ _ _), run_bind_ok (run_packSetMeta _ _ _),
      run_bind_ok (run_packSetInfo hmod (by decide) _), run_bind_ok (run_mem _),
      run_bind_ok (run_packSetPrev _ _ _), hrestEq, h.packNext hc, ← hadj, hmark]
    dsimp only
    rw [show bothInuse = 3 from rfl, htemp,
      run_bind_ok (run_packSetInfo (by omega) (by decide) _), h.packData hc]
    exact run_bind_ok (run_freeChunk h1 hsplit1 hheld1 rfl rfl hbound rfl rfl)
  · intro e he hsize
    have he : e ∈ h1.arena.chunks := he
    rw [hsplit1] at he
    rw [hsplit]
    simp only [mem_append, mem_cons, not_mem_nil, or_false] at he ⊢
    rcases he with (he | rfl) | rfl | rfl | he
    · exact .inr (.inl ⟨e, .inl he, hsize, rfl⟩)
    · exact .inl rfl
    · exact .inr (.inr rfl)
    · exact .inr (.inl ⟨d, .inr (.inr (.inl rfl)), hsize, rfl⟩)
    · exact .inr (.inl ⟨e, .inr (.inr (.inr he)), hsize, rfl⟩)
  · intro n _ _
    rw [hheld]
    rfl

theorem served_trySplitAllocate (hheld : h.held = {c.addr}) (hprev : c.prevUsed = true)
    (hneed : 48 ≤ need) (hmod : need % 8 = 0) (hle : need ≤ c.size)
    (hbound : c.size - need ≤ 65536) :
    ∃ h' size, (trySplitAllocate L c.addr need).run h.process = .ok c.node h'.process ∧
      size < 2 * need ∧ Carved h c.addr size h' ∧ Served h need c.node h' := by
  have hc : c ∈ h.arena.chunks := by simp [hsplit]
  have hcbound := (h.shape.link_of_split hsplit).bounded
  have hrestEq : (packSize h.process.mem c.addr + 2 ^ 64 - need) % 2 ^ 64 = c.size - need := by
    rw [h.packSize hc]
    omega
  unfold trySplitAllocate
  rw [run_bind_ok (run_mem _), run_ite, hrestEq]
  by_cases hcut : c.size - need ≥ need ∨ c.size - need ≥ 512
  · rw [if_pos hcut]
    obtain ⟨h', hrun, hcarved, hserved⟩ :=
      served_splitAllocate h hsplit hheld hprev (by omega) hneed hmod (by omega) hbound
    exact ⟨h', need, hrun, by omega, hcarved, hserved⟩
  · rw [if_neg hcut]
    obtain ⟨h', hrun, hcarved, hserved⟩ := served_packAllocate h hsplit hheld hprev
    exact ⟨h', c.size, hrun, by omega, hcarved, hserved.mono hle⟩

end

end Carve

section Remove

variable (h : Heap L first) {c : Chunk}

theorem Heap.links_eq_iff (hc : c ∈ h.arena.chunks) (hfree : c.used = false)
    (hout : c.addr ∉ h.held) :
    nodePrev h.process.mem c.node = nodeNext h.process.mem c.node ↔
      h.arena.bins (slotIndex c.size) = [c.node] := by
  obtain ⟨hlow, hhigh⟩ := h.shape.free_chunk hc hfree hout
  obtain ⟨hi, hi'⟩ := slotIndex_bounds hlow hhigh
  have hmem := h.shape.free_mem hc hfree hout
  have hring := h.stored.ring (slotIndex c.size) (by omega) (by omega)
  have hnodup := h.shape.ring_nodup h.below (i := slotIndex c.size) (by omega) (by omega)
  obtain ⟨before, after, hsplit⟩ := append_of_mem hmem
  rw [hsplit] at hring hnodup ⊢
  rw [hring.prev_eq_next_iff hnodup]
  constructor
  · rintro ⟨rfl, rfl⟩
    rfl
  · intro hone
    cases before with
    | nil => exact ⟨rfl, by simpa using hone⟩
    | cons x before => simp at hone

theorem run_safeRemove (hc : c ∈ h.arena.chunks) (hfree : c.used = false)
    (hout : c.addr ∉ h.held) :
    (safeRemove c.node (slotIndex c.size)).run h.process =
      .ok () (h.take hc hfree hout).process := by
  unfold safeRemove
  rw [run_bind_ok (run_mem _), run_bind_ok (run_mem _),
    run_bind_ok (run_nodeLink _ _ _), run_ite]
  by_cases halone : h.arena.bins (slotIndex c.size) = [c.node]
  · rw [if_pos ((h.links_eq_iff hc hfree hout).mpr halone), run_bitmapClr]
    simp only [Heap.take, takeState, halone, if_true]
  · rw [if_neg (mt (h.links_eq_iff hc hfree hout).mp halone)]
    simp only [Heap.take, takeState, halone, if_false]
    rfl

theorem run_trySafeRemove (hc : c ∈ h.arena.chunks) (hfree : c.used = false)
    (hout : c.addr ∉ h.held) :
    (trySafeRemove c.node c.addr).run h.process = .ok () (h.take hc hfree hout).process := by
  obtain ⟨hlow, hhigh⟩ := h.shape.free_chunk hc hfree hout
  unfold trySafeRemove
  rw [run_bind_ok (run_mem _), run_bind_ok (run_mem _),
    run_bind_ok (run_nodeLink _ _ _), run_ite]
  by_cases halone : h.arena.bins (slotIndex c.size) = [c.node]
  · have hsize : packSize (linkMem h.process.mem (nodePrev h.process.mem c.node)
        (nodeNext h.process.mem c.node)) c.addr = c.size :=
      (h.take hc hfree hout).packSize hc
    rw [if_pos ((h.links_eq_iff hc hfree hout).mpr halone), run_bind_ok (run_mem _)]
    dsimp only
    rw [hsize, run_bind_ok (run_getIndex (by omega) _), run_bitmapClr]
    simp only [Heap.take, takeState, halone, if_true]
  · rw [if_neg (mt (h.links_eq_iff hc hfree hout).mp halone)]
    simp only [Heap.take, takeState, halone, if_false]
    rfl

theorem listEmpty_iff {i : ℕ} (hi : 1 ≤ i) (hi' : i < 64) :
    listEmpty h.process.mem (L.slot i) = true ↔ h.arena.bins i = [] := by
  have hring := h.stored.ring i hi (by omega)
  have hhead := h.shape.head_not_mem h.below (i := i) (j := i) (by omega) hi (by omega)
  rw [Layout.head_of_lt hi'] at hring hhead
  rw [listEmpty, decide_eq_true_iff]
  exact hring.next_head_eq_iff hhead

theorem run_listExtract {rest : List ℕ} (hc : c ∈ h.arena.chunks) (hfree : c.used = false)
    (hout : c.addr ∉ h.held) (hfirst : h.arena.bins (slotIndex c.size) = c.node :: rest) :
    (listExtract L (slotIndex c.size)).run h.process =
      .ok c.node (h.take hc hfree hout).process := by
  obtain ⟨hlow, hhigh⟩ := h.shape.free_chunk hc hfree hout
  obtain ⟨hi, hi'⟩ := slotIndex_bounds hlow hhigh
  have hempty := listEmpty_iff (h.take hc hfree hout) (i := slotIndex c.size) (by omega) hi'
  have hring := h.stored.ring (slotIndex c.size) (by omega) (by omega)
  rw [hfirst] at hring
  have hprev : nodePrev h.process.mem c.node = L.slot (slotIndex c.size) := by
    rw [← Layout.head_of_lt hi']
    have hring' : Ring (nodeNext h.process.mem) (nodePrev h.process.mem)
        (L.head (slotIndex c.size)) ([] ++ c.node :: rest) := hring
    exact hring'.links_member.1
  have hnext : nodeNext h.process.mem (L.slot (slotIndex c.size)) = c.node := by
    rw [← Layout.head_of_lt hi']
    exact hring.next_head
  have hbins : (h.take hc hfree hout).arena.bins (slotIndex c.size) = rest := by
    change (h.arena.take (slotIndex c.size) c.node).bins (slotIndex c.size) = rest
    rw [Arena.take]
    dsimp only
    rw [Function.update_self, hfirst, erase_cons_head]
  have hmem : (h.take hc hfree hout).process.mem =
      linkMem h.process.mem (L.slot (slotIndex c.size)) (nodeNext h.process.mem c.node) := by
    rw [← hprev]
    rfl
  rw [hbins, hmem] at hempty
  unfold listExtract
  dsimp only
  rw [run_bind_ok (run_listPop _ _), run_bind_ok (run_mem _), run_ite, hnext]
  dsimp only
  by_cases hrest : rest = []
  · rw [if_pos (hempty.mpr hrest), run_bind_ok (run_bitmapClr _ _)]
    simp only [Heap.take, takeState, hfirst, hrest, if_true, hprev]
    rfl
  · have halone : ¬ (c.node :: rest = [c.node]) := by simpa using hrest
    rw [if_neg (mt hempty.mp hrest)]
    simp only [Heap.take, takeState, hfirst, halone, if_false, hprev]
    rfl

end Remove

section Slot

variable (h : Heap L first) {c : Chunk}

variable {i : ℕ}

variable {n : ℕ} {rest : List ℕ}

theorem Heap.free_of_mem (hi : 2 ≤ i) (hi' : i < 64) (hn : n ∈ h.arena.bins i) :
    ∃ c ∈ h.arena.chunks, c.used = false ∧ c.addr ∉ h.held ∧ c.node = n ∧
      slotIndex c.size = i := by
  obtain ⟨_, _, ⟨c, hc, rfl, rfl, hfree⟩, hout, rfl, hslot⟩ := (h.shape.free_iff i hi hi' n).mp hn
  exact ⟨c, hc, hfree, hout, rfl, hslot⟩

theorem Heap.take_ready (hidle : h.held = ∅) (hc : c ∈ h.arena.chunks) (hfree : c.used = false)
    (hout : c.addr ∉ h.held) :
    ∃ pre d post, (h.take hc hfree hout).arena.chunks = pre ++ c :: d :: post ∧
      (h.take hc hfree hout).held = {c.addr} ∧ c.prevUsed = true := by
  have hlarge := (h.shape.free_chunk hc hfree hout).1
  obtain ⟨pre, d, post, hsplit⟩ := h.shape.succ_of_size hc (by omega)
  refine ⟨pre, d, post, hsplit, ?_, ?_⟩
  · change insert c.addr h.held = {c.addr}
    rw [hidle]
    exact insert_empty_eq c.addr
  · refine h.shape.prevUsed_of_free hc hfree ?_
    rw [hidle]
    exact fun a ha => absurd ha (Set.notMem_empty a)

theorem served_tinyAllocate (hidle : h.held = ∅) (hi : 2 ≤ i) (hi' : i < 64)
    (hbins : h.arena.bins i = n :: rest) :
    ∃ c ∈ h.arena.chunks, c.node = n ∧ slotIndex c.size = i ∧
      ∃ h', (tinyAllocate L i).run h.process = .ok c.node h'.process ∧
        Carved h c.addr c.size h' ∧ Served h c.size c.node h' := by
  obtain ⟨c, hc, hfree, hout, hnode, hslot⟩ := h.free_of_mem hi hi' (n := n) (by simp [hbins])
  subst hnode hslot
  obtain ⟨pre, d, post, hsplit, hheld, hprev⟩ := h.take_ready hidle hc hfree hout
  obtain ⟨h', hrun, hcarved, hserved⟩ := served_packAllocate _ hsplit hheld hprev
  refine ⟨c, hc, rfl, rfl, h', ?_, hcarved.of_take, hserved.after (h.take_frame hc hfree hout)⟩
  have hnot : ¬ listEmpty h.process.mem (L.slot (slotIndex c.size)) = true := by
    rw [listEmpty_iff h (by omega) hi', hbins]
    exact cons_ne_nil _ _
  unfold tinyAllocate
  rw [run_bind_ok (run_mem _), run_ite, if_neg hnot,
    run_bind_ok (run_listExtract h hc hfree hout hbins), h.listPack hc]
  exact hrun

theorem run_tinyAllocate_empty (hi : 1 ≤ i) (hi' : i < 64) (hbins : h.arena.bins i = []) :
    (tinyAllocate L i).run h.process = .ok 0 h.process := by
  unfold tinyAllocate
  rw [run_bind_ok (run_mem _), run_ite, if_pos ((listEmpty_iff h hi hi').mpr hbins)]
  rfl

def slotFits (m : Memory) (list need : ℕ) : ℕ → ℕ → Bool
  | 0, _ => false
  | iteration + 1, node =>
    if node = list then
      false
    else if need ≤ Ummalloc.packSize m (Ummalloc.listPack node) then
      true
    else
      slotFits m list need iteration (nodeNext m node)

theorem iterativeSearch_cases (hidle : h.held = ∅) {need : ℕ} (hi : 2 ≤ i) (hi' : i < 64)
    (iteration : ℕ) {before : List ℕ} (hbins : h.arena.bins i = before ++ rest) :
    (iterativeSearch L i need iteration (rest.headD (L.slot i))).run h.process =
        .ok 0 h.process ∧
      slotFits h.process.mem (L.slot i) need iteration (rest.headD (L.slot i)) = false ∨
      ∃ c h', (iterativeSearch L i need iteration (rest.headD (L.slot i))).run h.process =
        .ok (Chunk.node c) h'.process ∧
        slotFits h.process.mem (L.slot i) need iteration (rest.headD (L.slot i)) = true ∧
        slotIndex c.size = i ∧ Carved h c.addr c.size h' ∧ Served h need c.node h' := by
  induction iteration generalizing before rest with
  | zero =>
    left
    rw [iterativeSearch]
    exact ⟨rfl, rfl⟩
  | succ iteration ih =>
    cases rest with
    | nil =>
      left
      rw [iterativeSearch, run_ite, slotFits]
      exact ⟨if_pos rfl, if_pos rfl⟩
    | cons n rest =>
      have hn : n ∈ h.arena.bins i := by simp [hbins]
      have hhead := h.shape.head_not_mem h.below (i := i) (j := i) (by omega) (by omega)
        (by omega)
      rw [Layout.head_of_lt hi'] at hhead
      have hne : n ≠ L.slot i := by
        rintro rfl
        exact hhead hn
      obtain ⟨c, hc, hfree, hout, hnode, hslot⟩ := h.free_of_mem hi hi' hn
      subst hnode hslot
      rw [headD_cons, iterativeSearch, run_ite, if_neg hne,
        run_bind_ok (run_mem _), h.listPack hc, h.packSize hc, run_ite, slotFits,
        if_neg hne, h.listPack hc, h.packSize hc]
      by_cases hfit : c.size ≥ need
      · right
        obtain ⟨pre, d, post, hsplit, hheld, hprev⟩ := h.take_ready hidle hc hfree hout
        obtain ⟨h', hrun, hcarved, hserved⟩ := served_packAllocate _ hsplit hheld hprev
        refine ⟨c, h', ?_, if_pos hfit, rfl, hcarved.of_take,
          (hserved.after (h.take_frame hc hfree hout)).mono hfit⟩
        rw [if_pos hfit, run_bind_ok (run_safeRemove h hc hfree hout)]
        exact hrun
      · have hnext : nodeNext h.process.mem c.node =
            rest.headD (L.slot (slotIndex c.size)) := by
          have hring := h.stored.ring (slotIndex c.size) (by omega) (by omega)
          rw [hbins, Layout.head_of_lt hi'] at hring
          exact hring.links_member.2
        rw [if_neg hfit, run_bind_ok (run_mem _), if_neg hfit, hnext]
        have hbins' : h.arena.bins (slotIndex c.size) = (before ++ [c.node]) ++ rest := by
          simp [hbins]
        exact ih hbins'

theorem iterativeAllocate_cases (hidle : h.held = ∅) (need iteration : ℕ) (hi : 2 ≤ i)
    (hi' : i < 64) :
    (iterativeAllocate L i need iteration).run h.process = .ok 0 h.process ∧
      slotFits h.process.mem (L.slot i) need iteration
        (nodeNext h.process.mem (L.slot i)) = false ∨
      ∃ c h', (iterativeAllocate L i need iteration).run h.process =
        .ok (Chunk.node c) h'.process ∧
        slotFits h.process.mem (L.slot i) need iteration
          (nodeNext h.process.mem (L.slot i)) = true ∧
        slotIndex c.size = i ∧ Carved h c.addr c.size h' ∧ Served h need c.node h' := by
  have hhead : nodeNext h.process.mem (L.slot i) = (h.arena.bins i).headD (L.slot i) := by
    rw [← Layout.head_of_lt hi']
    exact (h.stored.ring i (by omega) (by omega)).next_head
  unfold iterativeAllocate
  rw [run_bind_ok (run_mem _), hhead]
  exact iterativeSearch_cases h hidle hi hi' iteration (nil_append _).symm

end Slot

section Grow

variable (h : Heap L first) {t d : Chunk} {pre post : List Chunk}

theorem merged_tryMergePrev (hsplit : h.arena.chunks = pre ++ t :: d :: post)
    (hheld : h.held = {t.addr}) (hsize : t.size ≤ 65536)
    (hsmall : ∀ c ∈ h.arena.chunks, c.used = false → c.size ≤ 61440) :
    ∃ h' c pre' d', (tryMergePrev t.addr).run h.process = .ok c.addr h'.process ∧
      h'.arena.chunks = pre' ++ c :: d' :: post ∧ (∀ e ∈ pre', e ∈ pre) ∧ d'.size = d.size ∧
      h'.held = {c.addr} ∧ c.prevUsed = true ∧ t.size ≤ c.size ∧ c.size ≤ 61440 + t.size ∧
      Frame h h' := by
  have ht : t ∈ h.arena.chunks := by simp [hsplit]
  unfold tryMergePrev
  rw [run_bind_ok (run_mem _), h.packMeta ht, run_ite]
  cases hprev : t.prevUsed with
  | true =>
    have hbit : t.flags &&& prevInuse ≠ 0 := by
      unfold Chunk.flags
      rw [hprev]
      cases t.used <;> decide
    rw [if_pos hbit]
    exact ⟨h, t, pre, d, rfl, hsplit, fun _ he => he, rfl, hheld, hprev, le_rfl, by omega,
      Frame.refl h⟩
  | false =>
    have hbit : ¬ (t.flags &&& prevInuse ≠ 0) := by
      unfold Chunk.flags
      rw [hprev]
      cases t.used <;> decide
    obtain ⟨before, p, rfl⟩ : ∃ before p, pre = before ++ [p] := by
      rcases eq_nil_or_concat pre with rfl | ⟨before, p, rfl⟩
      · obtain ⟨f, rest, hstart, -, hf⟩ := h.shape.start
        rw [hsplit, nil_append, List.cons.injEq] at hstart
        rw [hstart.1, hf] at hprev
        exact Bool.noConfusion hprev
      · exact ⟨before, p, by simp⟩
    have hsplit' : h.arena.chunks = before ++ p :: t :: d :: post := by simp [hsplit]
    have hp : p ∈ h.arena.chunks := by simp [hsplit']
    have hpt := h.shape.link_of_split hsplit'
    have htd := h.shape.link_of_second hsplit'
    have hlarge := hpt.large
    have hadj := hpt.adjacent
    have hpout : p.addr ∉ h.held := by
      rw [hheld, Set.mem_singleton_iff]
      omega
    have hpfree : p.used = false := by
      rw [← hpt.prevUsed hpout]
      exact hprev
    have hpprev : p.prevUsed = true := by
      refine h.shape.prevUsed_of_free hp hpfree ?_
      rw [hheld]
      rintro a rfl
      omega
    have hprevSize := (hpt.free hpout hpfree).1
    have hpsmall := hsmall p hp hpfree
    have hpend := h.shape.end_le hp
    have hbase := h.base_lt
    have hmods := htd.mod
    let h1 := h.take hp hpfree hpout
    have hheld1 : h1.held = {p.addr, t.addr} := by
      change insert p.addr h.held = _
      rw [hheld]
    let h2 := (h1.merge hsplit' hheld1 (by omega)).result
    have hpack : packPrev h.process.mem t.addr = p.addr := by
      rw [packPrev, h.stored.prev t ht, hprevSize]
      omega
    have hload : load 4 h1.process.mem (p.addr + 4) = p.size + p.flags :=
      h1.stored.size p hp
    have hmid : load 4 (store 4 h1.process.mem (p.addr + 4) (p.size + p.flags + t.size))
        (p.addr + 4) = p.size + t.size + p.flags := by
      have hflags := p.flags_lt
      rw [load_store_of_lt (by omega)]
      omega
    have hpflags := p.flags_lt
    have hpmod := hpt.mod
    have htend := h.shape.end_le ht
    have hmerged : packSize (store 4 h1.process.mem (p.addr + 4)
        (p.size + p.flags + t.size)) p.addr = p.size + t.size :=
      packSize_of_load hmid (by omega) (by omega) (by omega)
    have hnext : packNext (store 4 h1.process.mem (p.addr + 4)
        (p.size + p.flags + t.size)) p.addr = d.addr := by
      rw [packNext_of_load hmid (by omega) (by omega) (by omega) (by omega), htd.adjacent, hadj]
      omega
    refine ⟨h2, { p with size := p.size + t.size }, before,
      { d with prevSize := p.size + t.size }, ?_, ?_,
      fun e he => mem_append_left _ he, rfl, ?_, ?_, ?_, ?_, ?_⟩
    · rw [if_neg hbit, run_bind_ok (run_mem _), h.packSize ht,
        run_bind_ok (run_mem _), hpack]
      dsimp only
      rw [h.packData hp, run_bind_ok (run_trySafeRemove h hp hpfree hpout),
        run_bind_ok (run_prevAddSize hmods _), run_bind_ok (run_mem _),
        run_bind_ok (run_mem _), run_bind_ok (run_packSetPrev _ _ _)]
      dsimp only
      rw [hload, hnext, hmerged]
      rfl
    · simp [h2, h1, Surgery.result, Surgery.arena, Heap.merge]
    · rfl
    · exact hpprev
    · exact Nat.le_add_left _ _
    · exact Nat.add_le_add_right hpsmall _
    · exact (h.take_frame hp hpfree hpout).trans
        (h1.merge hsplit' hheld1 (by omega)).frame

def brkSize (need : ℕ) : ℕ := (need + pageSize - 1) / pageSize * pageSize

variable {need : ℕ}

theorem brkSize_bounds (hneed : 0 < need) :
    need ≤ brkSize need ∧ brkSize need < need + 4096 ∧ brkSize need % 4096 = 0 := by
  unfold brkSize pageSize
  omega

/-- The process after a refused extension: the sentinel and the base pointer
are already changed. -/
def refusedState (s : Process) (need : ℕ) : Process :=
  { s with
    mem := store 4 s.mem (listPack s.base + 4)
      ((load 4 s.mem (listPack s.base + 4) &&& fullMask) ||| brkSize need)
    base := (s.base + brkSize need) % 2 ^ 64
    calls := s.calls + 1
    refusals := s.refusals + 1 }

/-- A path either asks the kernel in vain for `need` bytes, or serves `size`
bytes from a chunk that is not much larger than `need`. -/
def Supply (h : Heap L first) (need size : ℕ) (path : Prog ℕ) : Prop :=
  path.run h.process = .ok 0 (refusedState h.process need) ∨
    ∃ p h', path.run h.process = .ok p h'.process ∧ p ≠ 0 ∧ Served h size p h' ∧
      Thrifty h need p h'

theorem supply_mallocBrk (hidle : h.held = ∅) (hlow : 48 ≤ need) (hhigh : need ≤ 65536)
    (hmod : need % 8 = 0) (hsmall : ∀ c ∈ h.arena.chunks, c.used = false → c.size ≤ 61440) :
    Supply h need need (mallocBrk L need) := by
  obtain ⟨hle, hlt, hpage⟩ := brkSize_bounds (show 0 < need by omega)
  obtain ⟨pre, t, hsplit, hzero, hused, htop⟩ := h.shape.last
  have ht : t ∈ h.arena.chunks := by simp [hsplit]
  have hbase := h.base_lt
  have hroom := h.stored.room
  have hflags := t.flags_lt
  have hload : load 4 h.process.mem (t.addr + 4) = 0 + t.flags := by
    rw [h.stored.size t ht, hzero]
  have hpack : listPack h.process.base = t.addr := by
    rw [listPack_eq (by omega) hbase]
    omega
  have hset : (load 4 h.process.mem (t.addr + 4) &&& fullMask) ||| brkSize need =
      brkSize need + t.flags := by
    have hmeta := h.packMeta ht
    unfold Ummalloc.packMeta at hmeta
    have hk : brkSize need = 8 * (brkSize need / 8) := by omega
    rw [hmeta, hk, flags_or _ _ (by omega)]
  unfold Supply mallocBrk
  rw [run_bind_ok (EStateM.run_get _)]
  dsimp only
  rw [hpack, ← brkSize, run_bind_ok (run_packSetSize (by omega) hload rfl (by omega)),
    run_bind_ok (EStateM.run_get _), run_bind_ok (EStateM.run_modify _ _)]
  by_cases hgrant : h.process.grants h.process.calls ∧ h.process.brk + brkSize need < 2 ^ 64
  · right
    have hwrap : (h.process.base + brkSize need) % 2 ^ 64 = h.process.base + brkSize need :=
      Nat.mod_eq_of_lt (by omega)
    have hbrkLow : 48 ≤ brkSize need := by omega
    let h1 := h.extend hidle hsplit hbrkLow (by omega) (by omega) hgrant.2
    have hnext : ∀ m, packNext (store 4 m (t.addr + 4) (brkSize need + t.flags)) t.addr =
        t.addr + brkSize need :=
      fun m => packNext_of_load (load_store_of_lt (by omega)) (by omega) (by omega) (by omega)
        (by omega)
    have hsmall1 : ∀ c ∈ h1.arena.chunks, c.used = false → c.size ≤ 61440 := by
      intro c hc hfree
      simp only [h1, Heap.extend, extendArena, mem_append, mem_cons, not_mem_nil, or_false] at hc
      rcases hc with hc | rfl | rfl
      · exact hsmall c (by simp [hsplit, hc]) hfree
      · rw [hused] at hfree
        exact Bool.noConfusion hfree
      · exact Bool.noConfusion hfree
    obtain ⟨h2, c, pre', d', hmerge, hsplit2, hpre2, hd2, hheld2, hprev2, hcle, hcge, hframe2⟩ :=
      merged_tryMergePrev h1 (t := { t with size := brkSize need }) rfl rfl
        (by change brkSize need ≤ _; omega) hsmall1
    change brkSize need ≤ c.size at hcle
    change c.size ≤ 61440 + brkSize need at hcge
    obtain ⟨h3, size, hrun, htight, hcarved, hserved⟩ :=
      served_trySplitAllocate h2 hsplit2 hheld2 hprev2 hlow hmod (by omega) (by omega)
    -- What lies before the merged chunk was there before; the new sentinel has no size.
    have hold : ∀ e ∈ h2.arena.chunks, e.size ≠ 0 → e.addr = c.addr ∨
        ∃ f ∈ h.arena.chunks, f.size ≠ 0 ∧ f.addr = e.addr := by
      intro e he hsize
      simp only [hsplit2, mem_append, mem_cons, not_mem_nil, or_false] at he
      rcases he with he | rfl | rfl
      · exact .inr ⟨e, by simp [hsplit, hpre2 e he], hsize, rfl⟩
      · exact .inl rfl
      · exact absurd hd2 hsize
    refine ⟨c.node, h3, ?_, c.node_ne_zero, hserved.after ((h.extend_frame hidle hsplit
      (by omega) (by omega) (by omega) hgrant.2).trans hframe2),
      c.addr, size, rfl, htight, hcarved.after hold⟩
    rw [run_bind_ok (run_sbrk_granted (by omega) (by omega) (by exact hgrant)),
      run_ite, if_neg (by unfold minusOne; dsimp only; omega),
      run_bind_ok (run_mem _)]
    dsimp only
    rw [hnext, run_bind_ok (run_packSetInfo rfl (by decide) _), hwrap]
    refine Eq.trans (run_bind_ok hmerge) hrun
  · left
    rw [run_bind_ok (run_sbrk_refused (by omega) (by omega) (by exact hgrant)),
      run_ite, if_pos rfl]
    unfold refusedState
    rw [hpack, hset]
    rfl

end Grow

section Classes

variable (h : Heap L first)

variable {size need : ℕ}

theorem le_of_slotIndex_lt (h : slotIndex size < 63) : size ≤ 61440 := by
  unfold slotIndex at h
  split_ifs at h <;> omega

theorem lt_two_mul_of_slotIndex_eq (hneed : 33 ≤ need) (h : slotIndex size = slotIndex need) :
    size < 2 * need := by
  unfold slotIndex at h
  split_ifs at h <;> omega

theorem Supply.mono {h : Heap L first} {size' : ℕ} {path : Prog ℕ} (hle : size' ≤ size)
    (hpath : Supply h need size path) : Supply h need size' path := by
  rcases hpath with hrefused | ⟨p, h', hrun, hp, hserved, hthrifty⟩
  · exact .inl hrefused
  · exact .inr ⟨p, h', hrun, hp, hserved.mono hle, hthrifty⟩

/-- `next_allocate` serves the request from a larger slot, or extends the heap
when there is none.  The last slot has no larger one, and there the mask of
`next_free` covers the whole bitmap. -/
theorem supply_nextAllocate (hidle : h.held = ∅) {index : ℕ} (hslot : slotIndex need = index)
    (hindex : index < 63 ∨ h.process.bitmap = 0) (hlow : 48 ≤ need) (hhigh : need ≤ 65536)
    (hmod : need % 8 = 0) : Supply h need need (nextAllocate L index need) := by
  obtain ⟨hslotLow, -⟩ := slotIndex_bounds hlow hhigh
  have hshift : (nextAllocate L index need).run h.process =
      if nextFree h.process.bitmap index = 0 then (mallocBrk L need).run h.process
      else (listExtract L (log2Ceil64 (nextFree h.process.bitmap index).toNat) >>= fun node =>
        trySplitAllocate L (listPack node) need).run h.process := by
    unfold nextAllocate
    rw [run_bind_ok (EStateM.run_get _), run_ite]
  -- Without a free chunk in slot 63 every free chunk is small enough to be merged.
  have hgrow : h.process.bitmap.getLsbD 63 = false → Supply h need need (mallocBrk L need) := by
    intro hlast
    refine supply_mallocBrk h hidle hlow hhigh hmod ?_
    intro c hc hfree
    have hout : c.addr ∉ h.held := by
      rw [hidle]
      exact Set.notMem_empty _
    obtain ⟨hclow, hchigh⟩ := h.shape.free_chunk hc hfree hout
    obtain ⟨hi, hi'⟩ := slotIndex_bounds hclow hchigh
    apply le_of_slotIndex_lt
    by_contra htop
    have hbit := (h.stored.bit _ hi hi').mpr
      (ne_nil_of_mem (h.shape.free_mem hc hfree hout))
    rw [show slotIndex c.size = 63 by omega, hlast] at hbit
    exact Bool.noConfusion hbit
  rcases hindex with hindex | hzero
  · rcases nextFree_cases h.process.bitmap hindex with
      ⟨hzero, hnone⟩ | ⟨hne, j, hj, hj', hset, -, hlog⟩
    · unfold Supply
      rw [hshift, if_pos hzero]
      exact hgrow (hnone 63 hindex)
    · right
      have hbins := (h.stored.bit j (by omega) hj').mp hset
      obtain ⟨n, rest, hcons⟩ := exists_cons_of_ne_nil hbins
      obtain ⟨c, hc, hfree, hout, hnode, hcslot⟩ :=
        h.free_of_mem (by omega) hj' (n := n) (by simp [hcons])
      obtain ⟨hclow, hchigh⟩ := h.shape.free_chunk hc hfree hout
      subst hnode hcslot
      have hfit : need < c.size := lt_of_slotIndex_lt (by omega)
      obtain ⟨pre, d, post, hsplit, hheld, hprev⟩ := h.take_ready hidle hc hfree hout
      obtain ⟨h', size, hrun, htight, hcarved, hserved⟩ :=
        served_trySplitAllocate _ hsplit hheld hprev hlow hmod (by omega) (by omega)
      refine ⟨c.node, h', ?_, c.node_ne_zero, hserved.after (h.take_frame hc hfree hout),
        c.addr, size, rfl, htight, hcarved.of_take⟩
      rw [hshift, if_neg hne, hlog, run_bind_ok (run_listExtract h hc hfree hout hcons),
        h.listPack hc]
      exact hrun
  · unfold Supply
    rw [hshift, if_pos (by rw [hzero]; exact nextFree_zero index)]
    exact hgrow (by rw [hzero]; exact BitVec.getLsbD_zero)

theorem supply_search (hidle : h.held = ∅) (iteration : ℕ)
    (hindex : slotIndex need < 63 ∨ h.process.bitmap = 0 ∨
      slotFits h.process.mem (L.slot (slotIndex need)) need iteration
        (nodeNext h.process.mem (L.slot (slotIndex need))) = true) (hlow : 48 ≤ need)
    (hhigh : need ≤ 65536) (hmod : need % 8 = 0) :
    Supply h need need (do
      let data ← iterativeAllocate L (slotIndex need) need iteration
      if data ≠ 0 then return data else nextAllocate L (slotIndex need) need) := by
  obtain ⟨hslotLow, hslotHigh⟩ := slotIndex_bounds hlow hhigh
  unfold Supply
  rcases iterativeAllocate_cases h hidle need iteration hslotLow hslotHigh with
    ⟨hnone, hmiss⟩ | ⟨c, h', hrun, -, hslot, hcarved, hserved⟩
  · rw [run_bind_ok hnone, run_ite, if_neg (by simp)]
    refine supply_nextAllocate h hidle rfl ?_ hlow hhigh hmod
    rcases hindex with hindex | hzero | hfits
    · exact .inl hindex
    · exact .inr hzero
    · rw [hmiss] at hfits
      exact Bool.noConfusion hfits
  · right
    refine ⟨c.node, h', ?_, c.node_ne_zero, hserved, c.addr, c.size, rfl,
      lt_two_mul_of_slotIndex_eq (by omega) hslot, hcarved⟩
    rw [run_bind_ok hrun, run_ite, if_pos c.node_ne_zero]
    rfl

theorem supply_mallocHuge (hidle : h.held = ∅) (hlow : 4096 < need) (hhigh : need ≤ 65536)
    (hmod : need % 8 = 0)
    (hlast : 61440 < need → h.process.bitmap = 0 ∨ slotFits h.process.mem (L.slot 63) need 8
      (nodeNext h.process.mem (L.slot 63)) = true) : Supply h need need (mallocHuge L need) := by
  have hslot : slotIndex need = if need < 6144 then 48 else (need - 1) / 4096 + 48 := by
    unfold slotIndex
    rw [if_neg (by omega), if_pos (by omega)]
  have hindex : slotIndex need < 63 ∨ h.process.bitmap = 0 ∨
      slotFits h.process.mem (L.slot (slotIndex need)) need 8
        (nodeNext h.process.mem (L.slot (slotIndex need))) = true := by
    by_cases hsmall : need ≤ 61440
    · left
      rw [hslot]
      split_ifs <;> omega
    · right
      rw [show slotIndex need = 63 by rw [hslot, if_neg (by omega)]; omega]
      exact hlast (by omega)
  have hsearch := supply_search h hidle 8 hindex (by omega) hhigh hmod
  rw [hslot] at hsearch
  exact hsearch

theorem supply_mallocMiddle (hidle : h.held = ∅) (hlow : 512 < need) (hhigh : need ≤ 4096)
    (hmod : need % 8 = 0) : Supply h need need (mallocMiddle L need) := by
  have hslot : slotIndex need =
      if need ≤ 640 then (need + 1535) / 64 else 34 + (need - 513) / 256 := by
    unfold slotIndex
    rw [if_neg (by omega), if_neg (by omega)]
  have hindex : slotIndex need < 63 := by
    rw [hslot]
    split_ifs <;> omega
  have hsearch := supply_search h hidle 4 (.inl hindex) (by omega) (by omega) hmod
  rw [hslot] at hsearch
  exact hsearch

def tinySize (size : ℕ) : ℕ := ((size - 1) / 16 + 1) * 16

theorem slotIndex_tinySize (hlow : 32 < need) (hhigh : need ≤ 512) :
    slotIndex (tinySize need) = (need - 1) / 16 := by
  unfold slotIndex tinySize
  rw [if_pos (by omega)]
  omega

theorem supply_mallocTiny (hidle : h.held = ∅) (hlow : 32 < need) (hhigh : need ≤ 512)
    (hsize : size ≤ tinySize need)
    (hfit : ∀ c ∈ h.arena.chunks, (h.arena.bins ((need - 1) / 16)).head? = some c.node →
      size ≤ c.size) : Supply h (tinySize need) size (mallocTiny L need) := by
  have hslot := slotIndex_tinySize hlow hhigh
  have hround : 48 ≤ tinySize need ∧ tinySize need ≤ 512 ∧ tinySize need % 8 = 0 := by
    unfold tinySize
    omega
  unfold Supply mallocTiny
  rw [run_ite, if_neg (by omega)]
  dsimp only
  rw [← tinySize]
  cases hbins : h.arena.bins ((need - 1) / 16) with
  | nil =>
    rw [run_bind_ok (run_tinyAllocate_empty h (by omega) (by omega) hbins), run_ite,
      if_neg (by simp)]
    have hnext := supply_nextAllocate h hidle hslot (.inl (by omega)) hround.1 (by omega)
      hround.2.2
    exact hnext.mono hsize
  | cons n rest =>
    obtain ⟨c, hc, hnode, hcslot, h', hrun, hcarved, hserved⟩ :=
      served_tinyAllocate h hidle (by omega) (by omega) hbins
    right
    refine ⟨c.node, h', ?_, c.node_ne_zero, hserved.mono (hfit c hc ?_), c.addr, c.size, rfl,
      lt_two_mul_of_slotIndex_eq (by omega) (hcslot.trans hslot.symm), hcarved⟩
    · rw [run_bind_ok hrun, run_ite, if_pos c.node_ne_zero]
      rfl
    · rw [hbins, hnode]
      rfl

end Classes

end Xv6MallocLab.Ummalloc
