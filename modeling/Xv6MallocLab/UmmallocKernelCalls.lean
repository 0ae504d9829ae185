import Xv6MallocLab.UmmallocAlloc
import Xv6MallocLab.ProcessRuns

/-!
# Where the slot allocator calls the kernel

The allocator reaches the kernel in one place, `malloc_brk`.  A request during which the
kernel refuses memory has already moved the base pointer, and nothing that runs afterwards
moves it back.
-/

namespace Xv6MallocLab.Ummalloc

open ByteMemory Prog

variable {L : Layout}

theorem internal_nodeLink (a b : ℕ) : Internal (nodeLink a b) := fun _ => rfl

theorem internal_listPop (list : ℕ) : Internal (listPop list) := fun _ => rfl

theorem internal_listPush (list node : ℕ) : Internal (listPush list node) := fun _ => rfl

theorem internal_packSetPrev (pack size : ℕ) : Internal (packSetPrev pack size) := fun _ => rfl

theorem internal_packSetInfo (pack size info : ℕ) : Internal (packSetInfo pack size info) :=
  .bind (.impossible _) fun _ => .poke32 _ _

theorem internal_fastTake (node : ℕ) : Internal (fastTake node) := by
  refine .bind .mem fun m => .ite ?_ ?_
  · exact .bind (.poke64 _ _) fun _ => .pure _
  · refine .bind .mem fun m => .ite ?_ ?_
    · exact .bind (.poke64 _ _) fun _ => .pure _
    · exact .bind (.impossible _) fun _ => .pure _

theorem internal_fastCell (node memory : ℕ) : Internal (do
    match ← fastTake node with
    | none => return 0
    | some index =>
      let next := (memory + index * 32) % 2 ^ 64
      packSetPrev next index
      packSetInfo next 32 bothInuse
      return packData next) := by
  refine .bind (internal_fastTake node) fun cell => ?_
  cases cell with
  | none => exact .pure _
  | some index =>
    exact .bind (internal_packSetPrev _ _) fun _ =>
      .bind (internal_packSetInfo _ _ _) fun _ => .pure _

theorem internal_fastAllocate (L : Layout) : Internal (fastAllocate L) := by
  refine .bind .mem fun m => .ite (.pure _) ?_
  refine .bind .mem fun m => .bind .mem fun m =>
    .bind (.impossible _) fun _ => .bind .mem fun m =>
      .bind (.poke64 _ _) fun _ => .bind .mem fun m =>
        .ite ?_ (internal_fastCell _ _)
  exact .bind (internal_listPop _) fun _ =>
    .bind (internal_listPush _ _) fun _ => internal_fastCell _ _

theorem internal_packAddMeta (pack info : ℕ) : Internal (packAddMeta pack info) := fun _ => rfl

theorem internal_packSetMeta (pack info : ℕ) : Internal (packSetMeta pack info) := fun _ => rfl

theorem internal_packSetSize (pack size : ℕ) : Internal (packSetSize pack size) :=
  .bind (.impossible _) fun _ =>
    .bind .mem fun _ => .poke32 _ _

theorem internal_prevAddSize (pack size : ℕ) : Internal (prevAddSize pack size) :=
  .bind (.impossible _) fun _ =>
    .bind .mem fun _ => .poke32 _ _

theorem internal_bitmapSet (index : ℕ) : Internal (bitmapSet index) := fun _ => rfl

theorem internal_bitmapClr (index : ℕ) : Internal (bitmapClr index) := fun _ => rfl

theorem internal_getIndex (size : ℕ) : Internal (getIndex size) :=
  .ite (.bind (.impossible _) fun _ => .pure _)
    (.ite (.pure _) (.pure _))

theorem internal_safeRemove (node index : ℕ) : Internal (safeRemove node index) :=
  .bind .mem fun _ => .bind .mem fun _ =>
    .bind (internal_nodeLink _ _) fun _ =>
      .ite (internal_bitmapClr _) (.pure _)

theorem internal_trySafeRemove (node pack : ℕ) : Internal (trySafeRemove node pack) :=
  .bind .mem fun _ => .bind .mem fun _ =>
    .bind (internal_nodeLink _ _) fun _ =>
      .ite (.bind .mem fun _ =>
        .bind (internal_getIndex _) fun _ => internal_bitmapClr _) (.pure _)

theorem internal_freeChunk (pack : ℕ) : Internal (freeChunk L pack) :=
  .bind .mem fun _ => .bind (.impossible _) fun _ =>
    .bind .mem fun _ => .bind .mem fun _ =>
      .bind (.impossible _) fun _ => .bind .mem fun _ =>
        .bind (internal_getIndex _) fun _ =>
          .bind (internal_listPush _ _) fun _ => internal_bitmapSet _

theorem internal_tryMergePrev (pack : ℕ) : Internal (tryMergePrev pack) :=
  .bind .mem fun _ => .ite (.pure _)
    (.bind .mem fun _ => .bind .mem fun _ =>
      .bind (internal_trySafeRemove _ _) fun _ =>
        .bind (internal_prevAddSize _ _) fun _ => .bind .mem fun _ =>
          .bind .mem fun _ => .bind (internal_packSetPrev _ _) fun _ =>
            .pure _)

theorem internal_packAllocate (pack : ℕ) : Internal (packAllocate pack) :=
  .bind .mem fun _ => .bind (internal_packSetMeta _ _) fun _ =>
    .bind .mem fun _ => .bind (internal_packSetPrev _ _) fun _ =>
      .bind (internal_packAddMeta _ _) fun _ => .pure _

theorem internal_splitAllocate (pack need : ℕ) : Internal (splitAllocate L pack need) :=
  .bind .mem fun _ => .bind .mem fun _ =>
    .bind (internal_packSetPrev _ _) fun _ =>
      .bind (internal_packSetMeta _ _) fun _ =>
        .bind (internal_packSetInfo _ _ _) fun _ => .bind .mem fun _ =>
          .bind (internal_packSetPrev _ _) fun _ =>
            .bind (internal_packSetInfo _ _ _) fun _ =>
              .bind (internal_freeChunk _) fun _ => .pure _

theorem internal_trySplitAllocate (pack need : ℕ) : Internal (trySplitAllocate L pack need) :=
  .bind .mem fun _ =>
    .ite (internal_splitAllocate _ _) (internal_packAllocate _)

theorem internal_listExtract (index : ℕ) : Internal (listExtract L index) :=
  .bind (internal_listPop _) fun _ => .bind .mem fun _ =>
    .ite (.bind (internal_bitmapClr _) fun _ => .pure _) (.pure _)

theorem internal_tinyAllocate (index : ℕ) : Internal (tinyAllocate L index) :=
  .bind .mem fun _ => .ite (.pure _)
    (.bind (internal_listExtract _) fun _ => internal_packAllocate _)

theorem internal_iterativeSearch (index need iteration head : ℕ) :
    Internal (iterativeSearch L index need iteration head) := by
  induction iteration generalizing head with
  | zero => exact .pure _
  | succ iteration ih =>
    refine .ite (.pure _) (.bind .mem fun m => ?_)
    refine .ite ?_ (.bind .mem fun m => ih _)
    exact .bind (internal_safeRemove _ _) fun _ => internal_packAllocate _

theorem internal_iterativeAllocate (index need iteration : ℕ) :
    Internal (iterativeAllocate L index need iteration) :=
  .bind .mem fun _ => internal_iterativeSearch _ _ _ _

/-- Either the kernel granted everything, or the base pointer has moved. -/
def Spoiling {α : Type} (x : Prog α) : Prop :=
  ∀ s, (x.final s).refusals = s.refusals ∨
    s.refusals < (x.final s).refusals ∧ (x.final s).base ≠ s.base

variable {α : Type} {x : Prog α} {need : ℕ}

theorem Spoiling.of_internal (hx : Internal x) : Spoiling x := fun s => .inl (outer_eq (hx s)).2

variable {β : Type} {f : α → Prog β}

theorem Spoiling.after (hx : Internal x) (hf : ∀ a, Spoiling (f a)) : Spoiling (x >>= f) := by
  intro s
  obtain ⟨hbase, hcount⟩ := outer_eq (hx s)
  rcases final_bind x f s with ⟨a, -, hfinal⟩ | ⟨-, hfinal⟩
  · rw [hfinal, ← hbase, ← hcount]
    exact hf a _
  · rw [hfinal]
    exact .inl hcount

theorem Spoiling.before (hx : Spoiling x) (hf : ∀ a, Internal (f a)) : Spoiling (x >>= f) := by
  intro s
  obtain ⟨hbase, hcount⟩ := outer_eq (outer_final_bind x hf s)
  rw [hbase, hcount]
  exact hx s

theorem Spoiling.ite {condition : Prop} [Decidable condition] {y : Prog α} (hx : Spoiling x)
    (hy : Spoiling y) : Spoiling (if condition then x else y) := by
  split
  · exact hx
  · exact hy

theorem spoiling_mallocBrk (hpos : 0 < need) (hlt : need < 2 ^ 32) :
    Spoiling (mallocBrk L need) := by
  intro s
  have hsize : 0 < (need + pageSize - 1) / pageSize * pageSize ∧
      (need + pageSize - 1) / pageSize * pageSize < 2 ^ 64 := by
    unfold pageSize
    omega
  unfold mallocBrk
  rw [final_bind_ok (EStateM.run_get _)]
  dsimp only
  generalize (need + pageSize - 1) / pageSize * pageSize = size at hsize ⊢
  generalize listPack s.base = pack
  obtain ⟨hbase, hcount⟩ := outer_eq (internal_packSetSize pack size s)
  rcases final_bind (packSetSize pack size) _ s with ⟨a, -, hfinal⟩ | ⟨-, hfinal⟩
  · rw [hfinal, final_bind_ok (EStateM.run_get _), final_bind_ok (EStateM.run_modify _ _),
      ← hbase, ← hcount]
    generalize (packSetSize pack size).final s = s1
    rcases sbrk_cases (toInt size) { s1 with base := (s1.base + size) % 2 ^ 64 } with
      ⟨s', hrun, -, hsame⟩ | ⟨s', hrun, hmoved, hmore⟩
    · left
      rw [final_bind_ok hrun]
      refine Eq.trans (outer_eq (Internal.ite (.pure _) ?_ s')).2 hsame
      exact .bind Internal.mem fun _ => .bind (internal_packSetInfo _ _ _) fun _ =>
        .bind (internal_tryMergePrev _) fun _ => internal_trySplitAllocate _ _
    · right
      rw [final_bind_ok hrun, if_pos rfl]
      change s1.refusals < s'.refusals ∧ s'.base ≠ s1.base
      rw [hmoved, hmore]
      dsimp only
      omega
  · rw [hfinal]
    exact .inl hcount

theorem spoiling_nextAllocate (index : ℕ) (hpos : 0 < need) (hlt : need < 2 ^ 32) :
    Spoiling (nextAllocate L index need) := by
  refine .after (fun _ => rfl) fun s => .ite (spoiling_mallocBrk hpos hlt) ?_
  exact .of_internal (.bind (internal_listExtract _) fun _ =>
    internal_trySplitAllocate _ _)

theorem spoiling_mallocHuge (hpos : 0 < need) (hlt : need < 2 ^ 32) :
    Spoiling (mallocHuge L need) :=
  .after (internal_iterativeAllocate _ _ _) fun _ =>
    .ite (.of_internal (.pure _)) (spoiling_nextAllocate _ hpos hlt)

theorem spoiling_mallocMiddle (hpos : 0 < need) (hlt : need < 2 ^ 32) :
    Spoiling (mallocMiddle L need) :=
  .after (internal_iterativeAllocate _ _ _) fun _ =>
    .ite (.of_internal (.pure _)) (spoiling_nextAllocate _ hpos hlt)

theorem spoiling_fastBinReserve : Spoiling (fastBinReserve L) := by
  refine .after .mem fun m => .ite ?_
    (.of_internal (.pure _))
  refine .before (spoiling_mallocHuge (by omega) (by omega)) fun data => ?_
  exact .bind (internal_listPush _ _) fun _ => .bind (.poke64 _ _) fun _ =>
    .bind (.poke64 _ _) fun _ => .poke64 _ _

theorem spoiling_mallocTiny (need : ℕ) (hlt : need ≤ 512) : Spoiling (mallocTiny L need) := by
  refine .ite (.before spoiling_fastBinReserve fun _ => internal_fastAllocate L) ?_
  exact .after (internal_tinyAllocate _) fun _ =>
    .ite (.of_internal (.pure _))
      (spoiling_nextAllocate _ (by omega) (by omega))

theorem spoiling_mmMalloc (size : UInt32) : Spoiling (mmMalloc L size) := by
  have hlt : (chunkSize size).toNat < 2 ^ 32 := (chunkSize size).toNat_lt
  unfold mmMalloc
  dsimp only
  generalize (chunkSize size).toNat = n at hlt ⊢
  by_cases htiny : n ≤ 512
  · rw [if_pos htiny]
    exact spoiling_mallocTiny n htiny
  · rw [if_neg htiny]
    exact .ite (spoiling_mallocHuge (by omega) hlt) (spoiling_mallocMiddle (by omega) hlt)

theorem refusals_mmMalloc (size : UInt32) (s : Process) :
    s.refusals ≤ ((mmMalloc L size).final s).refusals := by
  rcases spoiling_mmMalloc size s with heq | ⟨hlt, -⟩
  · exact heq.ge
  · exact hlt.le

end Xv6MallocLab.Ummalloc
