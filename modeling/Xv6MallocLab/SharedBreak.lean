import Xv6MallocLab.UmallocSearch
import Xv6MallocLab.UmmallocRuns

/-!
# Two allocators on one break

`morecore` works at the address the kernel returns, `malloc_brk` at its own `base`.  The
two views agree as long as the slot allocator only grows while `base` is the break.
-/

namespace Xv6MallocLab.SharedBreak

open ByteMemory CircularList List Prog Ummalloc

attribute [local irreducible] load store

variable {L : Layout} {first static : ℕ}

/-- The search of the own slot fails and no larger slot has a member. -/
def searchAsks (L : Layout) (s : Process) (index need iteration : ℕ) : Bool :=
  !slotFits s.mem (L.slot index) need iteration (nodeNext s.mem (L.slot index)) &&
    decide (nextFree s.bitmap index = 0)

def hugeAsks (L : Layout) (s : Process) (size : ℕ) : Bool :=
  searchAsks L s (if size < 6144 then 48 else (size - 1) / 4096 + 48) size 8

def middleAsks (L : Layout) (s : Process) (size : ℕ) : Bool :=
  searchAsks L s (if size ≤ 640 then (size + 1535) / 64 else 34 + (size - 513) / 256) size 4

def tinyAsks (L : Layout) (s : Process) (size : ℕ) : Bool :=
  if size ≤ 32 then
    listEmpty s.mem (L.slot 1) && hugeAsks L s (4096 + 48)
  else
    listEmpty s.mem (L.slot ((size - 1) / 16)) && decide (nextFree s.bitmap ((size - 1) / 16) = 0)

/-- Whether `mm_malloc` reaches `malloc_brk`, read off the lists and the
bitmap. -/
def asksKernel (L : Layout) (s : Process) (size : UInt32) : Bool :=
  let size := (chunkSize size).toNat
  if size ≤ 512 then
    tinyAsks L s size
  else if size > 4096 then
    hugeAsks L s size
  else
    middleAsks L s size

variable {s : Process} {h : Heap L first} {size : ℕ} {taken : List Umalloc.Block} {nbytes : UInt32}

theorem base_of_nextAllocate {index : ℕ} (size : ℕ) (hnext : nextFree s.bitmap index ≠ 0) :
    ((nextAllocate L index size).final s).base = s.base := by
  unfold nextAllocate
  rw [final_bind_ok (EStateM.run_get _), if_neg hnext]
  exact (outer_eq (Internal.bind (internal_listExtract (L := L) _)
    (fun node => internal_trySplitAllocate (L := L) (listPack node) size) s)).1

section

variable (hidle : h.held = ∅)

include hidle

theorem base_of_search {index need iteration : ℕ} (hlow : 2 ≤ index) (hhigh : index < 64)
    (hasks : searchAsks L h.process index need iteration = false) :
    ((iterativeAllocate L index need iteration >>= fun data =>
      if data ≠ 0 then Pure.pure data else nextAllocate L index need).final h.process).base =
      h.process.base := by
  rcases iterativeAllocate_cases h hidle need iteration hlow hhigh with
    ⟨hnone, hfits⟩ | ⟨c, h', hrun, -⟩
  · rw [final_bind_ok hnone, if_neg (by simp)]
    refine base_of_nextAllocate need ?_
    rw [searchAsks, hfits, Bool.not_false, Bool.true_and] at hasks
    exact of_decide_eq_false hasks
  · rw [final_bind_ok hrun, if_pos c.node_ne_zero]
    have hsame := (outer_eq (internal_iterativeAllocate (L := L) index need iteration
      h.process)).1
    rw [final_of_ok hrun] at hsame
    exact hsame

theorem base_of_mallocHuge (hlow : 4096 < size) (hhigh : size ≤ 61440)
    (hasks : hugeAsks L h.process size = false) :
    ((mallocHuge L size).final h.process).base = h.process.base :=
  base_of_search hidle (by split_ifs <;> omega) (by split_ifs <;> omega) hasks

theorem base_of_mallocMiddle (hlow : 512 < size) (hhigh : size ≤ 4096)
    (hasks : middleAsks L h.process size = false) :
    ((mallocMiddle L size).final h.process).base = h.process.base :=
  base_of_search hidle (by split_ifs <;> omega) (by split_ifs <;> omega) hasks

theorem base_of_fastBinReserve
    (hasks : (listEmpty h.process.mem (L.slot 1) && hugeAsks L h.process (4096 + 48)) = false) :
    ((fastBinReserve L).final h.process).base = h.process.base := by
  unfold fastBinReserve
  rw [final_bind_ok (run_mem _)]
  by_cases hempty : listEmpty h.process.mem (L.slot 1) = true
  · rw [hempty, Bool.true_and] at hasks
    rw [if_pos hempty]
    have htail : ∀ data, Internal (do
        listPush (L.slot 1) data
        Prog.poke64 (fastMap data 0) (64 + 64)
        Prog.poke64 (fastMap data 1) minusOne
        Prog.poke64 (fastMap data 2) minusOne) := fun data =>
      .bind (internal_listPush _ _) fun _ => .bind (.poke64 _ _) fun _ =>
        .bind (.poke64 _ _) fun _ => .poke64 _ _
    have houter := outer_final_bind (mallocHuge L (4096 + 48)) htail h.process
    exact (outer_eq houter).1.trans (base_of_mallocHuge hidle (by omega) (by omega) hasks)
  · rw [if_neg hempty]
    rfl

theorem base_of_mallocTiny (hhigh : size ≤ 512) (hasks : tinyAsks L h.process size = false) :
    ((mallocTiny L size).final h.process).base = h.process.base := by
  unfold tinyAsks at hasks
  unfold mallocTiny
  by_cases hfast : size ≤ 32
  · rw [if_pos hfast] at hasks ⊢
    have houter := outer_final_bind (fastBinReserve L) (fun _ => internal_fastAllocate L) h.process
    exact (outer_eq houter).1.trans (base_of_fastBinReserve hidle hasks)
  · rw [if_neg hfast] at hasks ⊢
    dsimp only
    cases hbins : h.arena.bins ((size - 1) / 16) with
    | nil =>
      rw [final_bind_ok (run_tinyAllocate_empty h (by omega) (by omega) hbins), if_neg (by simp)]
      refine base_of_nextAllocate _ ?_
      have hempty := (listEmpty_iff h (i := (size - 1) / 16) (by omega) (by omega)).mpr hbins
      rw [hempty, Bool.true_and] at hasks
      exact of_decide_eq_false hasks
    | cons n rest =>
      obtain ⟨c, -, -, -, h', hrun, -, -⟩ :=
        served_tinyAllocate h hidle (by omega) (by omega) hbins
      rw [final_bind_ok hrun, if_pos c.node_ne_zero]
      have hsame := (outer_eq (internal_tinyAllocate (L := L) ((size - 1) / 16) h.process)).1
      rw [final_of_ok hrun] at hsame
      exact hsame

theorem base_of_not_asks {size : UInt32} (hlimit : (chunkSize size).toNat ≤ 61440)
    (hasks : asksKernel L h.process size = false) :
    ((mmMalloc L size).final h.process).base = h.process.base := by
  unfold asksKernel at hasks
  unfold mmMalloc
  dsimp only at hasks ⊢
  generalize (chunkSize size).toNat = n at hlimit hasks ⊢
  by_cases htiny : n ≤ 512
  · rw [if_pos htiny] at hasks ⊢
    exact base_of_mallocTiny hidle htiny hasks
  · rw [if_neg htiny] at hasks ⊢
    by_cases hhuge : n > 4096
    · rw [if_pos hhuge] at hasks ⊢
      exact base_of_mallocHuge hidle hhuge hlimit hasks
    · rw [if_neg hhuge] at hasks ⊢
      exact base_of_mallocMiddle hidle (by omega) (by omega) hasks

end

/-- The slot allocator does not notice writes outside its footprint. -/
def moveHeap (h : Heap L first) (s : Process) (hbase : s.base = h.process.base)
    (hbitmap : s.bitmap = h.process.bitmap) (hroom : s.base ≤ s.brk) (hspace : s.brk < 2 ^ 64)
    (hmem : ∀ x ∈ Footprint L first h.process.base, s.mem x = h.process.mem x) :
    Heap L first where
  arena := h.arena
  held := h.held
  process := s
  below := h.below
  shape := by
    rw [hbase]
    exact h.shape
  stored := by
    have hheader : ∀ c ∈ h.arena.chunks, ∀ x, c.addr ≤ x → x < c.addr + 8 →
        s.mem x = h.process.mem x := by
      intro c hc x hlow hhigh
      have hfirst := h.shape.first_le hc
      have hend := h.shape.end_le hc
      exact hmem x (.inl ⟨by omega, by omega⟩)
    refine h.stored.rewrite rfl hbitmap ?_ ?_ ?_ hroom hspace
    · rintro x ⟨i, hi, hi', n, hn, hlow, hhigh⟩
      apply hmem
      by_contra hout
      have := h.shape.node_footprint (h.shape.ring_nodeAt hi hi' hn) hout
      omega
    · intro c hc
      rw [← h.stored.size c hc]
      exact load_congr fun x hlow hhigh => hheader c hc x (by omega) (by omega)
    · intro c hc
      rw [← h.stored.prev c hc]
      exact load_congr fun x hlow hhigh => hheader c hc x (by omega) (by omega)
  counted := by
    refine h.counted.congr rfl rfl ?_
    rintro x ⟨n, hn, hlow, hhigh⟩
    have hbounds := h.page_bounds hn
    exact hmem x (.inl ⟨by omega, by omega⟩)

theorem owned_moveHeap {hbase hbitmap hroom hspace hmem} {p need : ℕ} (howned : Owned h p need) :
    Owned (moveHeap h s hbase hbitmap hroom hspace hmem) p need := by
  rcases howned with hchunk | ⟨n, k, hn, hk, hfree, hp, hneed⟩
  · exact .inl hchunk
  · refine .inr ⟨n, k, hn, hk, ?_, hp, hneed⟩
    have hbounds := h.page_bounds hn
    have hword : ∀ o, 16 ≤ o → o + 8 ≤ 40 →
        load 8 s.mem (n + o) = load 8 h.process.mem (n + o) := fun o ho ho' =>
      load_congr fun x hlow hhigh => hmem x (.inl ⟨by omega, by omega⟩)
    change k ∉ freeCells s.mem n
    rw [freeCells_congr (hword 24 (by omega) (by omega)) (hword 32 (by omega) (by omega))]
    exact hfree

structure Placed (L : Layout) (first static : ℕ) : Prop where
  pos : 0 < static
  below : static + 16 ≤ first
  apart : ∀ i ≤ 64, static + 16 ≤ L.head i ∨ L.head i + 16 ≤ static

/-- The K&R allocator has handed out the blocks `taken`, all of them above the
heap of the slot allocator. -/
def Beside (static : ℕ) (s : Process) (taken : List Umalloc.Block) : Prop :=
  (s.freep = 0 ∧ taken = []) ∨
    ∃ P : Umalloc.Pool static s.base, P.process = s ∧ P.arena.taken = taken

theorem Beside.above (hbeside : Beside static s taken) {b : Umalloc.Block} (hb : b ∈ taken) :
    s.base ≤ b.addr ∧ b.stop ≤ s.brk := by
  rcases hbeside with ⟨-, rfl⟩ | ⟨P, hP, rfl⟩
  · exact absurd hb not_mem_nil
  · have hin := P.shape.inside b (mem_append_right _ hb)
    rw [hP] at hin
    exact hin.2

theorem Beside.evolves {h' : Heap L first} (hplaced : Placed L first static) (e : Evolves h h')
    (hbeside : Beside static h.process taken)
    (hgrow : h'.process.base = h.process.base ∨ h.process.base = h.process.brk) :
    Beside static h'.process taken := by
  rcases hbeside with ⟨hfreep, hnil⟩ | ⟨P, hP, htaken⟩
  · exact .inl ⟨e.freep.trans hfreep, hnil⟩
  · right
    have hgrown := e.grown
    have hle := e.base_le
    have hroom := h'.stored.room
    have hstatic := hplaced.below
    have hfirst : first ≤ h.process.base := by
      obtain ⟨t, ht, -, -, htop⟩ := h.shape.top
      have := h.shape.first_le ht
      omega
    have hshape := P.shape
    rw [hP] at hshape
    have hempty : h'.process.base ≠ h.process.base → ∀ b ∈ P.arena.free ++ P.arena.taken, False := by
      intro hne b hb
      obtain ⟨hpos, hlow, hstop⟩ := hshape.inside b hb
      have hbrk := hgrow.resolve_left hne
      unfold Umalloc.Block.stop at hstop
      omega
    have hshape' : P.arena.Shape static h'.process.base h'.process.brk := by
      refine ⟨hshape.static_pos, by omega, hroom, ?_, hshape.sorted, hshape.apart, hshape.cross⟩
      intro b hb
      by_cases heq : h'.process.base = h.process.base
      · obtain ⟨hpos, hlow, hstop⟩ := hshape.inside b hb
        exact ⟨hpos, by omega, by omega⟩
      · exact (hempty heq b hb).elim
    refine ⟨P.move h'.process hshape' (by rw [hP]; exact e.freep) h'.stored.space ?_, rfl,
      htaken⟩
    intro n hn x hlow hhigh
    rw [hP]
    apply e.confined
    rintro (⟨hxlow, hxhigh⟩ | ⟨i, hi, hilow, hihigh⟩)
    · rcases Umalloc.Arena.Shape.mem_nodes.mp hn with rfl | ⟨b, hb, rfl⟩
      · omega
      · have := (hshape'.free_inside hb).2.1
        omega
    · have hhead := h.below.head_le hi
      rcases Umalloc.Arena.Shape.mem_nodes.mp hn with rfl | ⟨b, hb, rfl⟩
      · have := hplaced.apart i hi
        omega
      · have := (hshape'.free_inside hb).2.1
        omega

inductive Request
  | mmMalloc (size : UInt32)
  | malloc (nbytes : UInt32)

def Request.bytes : Request → ℕ
  | .mmMalloc size => size.toNat
  | .malloc nbytes => nbytes.toNat

def serve (L : Layout) (static : ℕ) : Request → Prog ℕ
  | .mmMalloc size => mmMalloc L size
  | .malloc nbytes => Umalloc.malloc static nbytes

def Request.Limited : Request → Prop
  | .mmMalloc size => (size.toNat + 7) / 8 * 8 + 8 ≤ 61440
  | .malloc _ => True

/-- The slot allocator asks the kernel only while `base` is the break, and the
K&R allocator only for a size that the `int` argument of `sbrk` can express. -/
def Contiguous (L : Layout) (s : Process) : Request → Prop
  | .mmMalloc size => asksKernel L s size = true → s.base = s.brk
  | .malloc nbytes =>
    (s.freep ≠ 0 ∧ ∃ k, Umalloc.nunits nbytes ≤
      Umalloc.units s.mem ((Umalloc.ptr s.mem)^[k] s.freep)) ∨
      16 * Umalloc.nunits nbytes < 2 ^ 31

def Holds (h : Heap L first) (taken : List Umalloc.Block) : Request × ℕ → Prop
  | (.mmMalloc size, p) => Owned h p size.toNat
  | (.malloc nbytes, p) => ∃ q, p = q + 16 ∧ ⟨q, Umalloc.nunits nbytes⟩ ∈ taken

def Separate (x y : Request × ℕ) : Prop := x.2 + x.1.bytes ≤ y.2 ∨ y.2 + y.1.bytes ≤ x.2

theorem Holds.bounds (hbeside : Beside static h.process taken) {x : Request × ℕ}
    (hx : Holds h taken x) : first ≤ x.2 ∧ x.2 + x.1.bytes ≤ h.process.brk := by
  have hroom := h.stored.room
  obtain ⟨request, p⟩ := x
  cases request with
  | mmMalloc size =>
    obtain ⟨hlow, hhigh, -⟩ := Owned.bounds hx
    exact ⟨by dsimp only; omega, by dsimp only [Request.bytes]; omega⟩
  | malloc nbytes =>
    obtain ⟨q, hp, hmem⟩ := hx
    have habove := hbeside.above hmem
    have hbytes := Umalloc.nbytes_le nbytes
    obtain ⟨t, ht, -, -, htop⟩ := h.shape.top
    have hfirst := h.shape.first_le ht
    unfold Umalloc.Block.stop at habove
    dsimp only [Request.bytes] at habove ⊢
    omega

theorem Holds.across (hbeside : Beside static h.process taken) {size : UInt32} {p q : ℕ}
    (hp : Holds h taken (.mmMalloc size, p)) (hq : Holds h taken (.malloc nbytes, q)) :
    Separate (.mmMalloc size, p) (.malloc nbytes, q) := by
  obtain ⟨-, hhigh, -⟩ := Owned.bounds hp
  obtain ⟨a, ha, hmem⟩ := hq
  have habove := hbeside.above hmem
  left
  dsimp only [Request.bytes] at habove ⊢
  omega

theorem Separate.symm {x y : Request × ℕ} (h : Separate x y) : Separate y x := Or.symm h

structure Step (static : ℕ) (h : Heap L first) (taken : List Umalloc.Block) (request : Request)
    (p : ℕ) (h' : Heap L first) (taken' : List Umalloc.Block) : Prop where
  idle : h'.held = ∅
  beside : Beside static h'.process taken'
  refusals : h'.process.refusals = h.process.refusals
  keeps : ∀ x, Holds h taken x → Holds h' taken' x
  holds : Holds h' taken' (request, p)
  fresh : ∀ x, Holds h taken x → Separate x (request, p)

section

variable (hplaced : Placed L first static)

include hplaced

theorem step_mmMalloc (h : Heap L first) (hidle : h.held = ∅)
    (hbeside : Beside static h.process taken) {size : UInt32}
    (hlimit : (size.toNat + 7) / 8 * 8 + 8 ≤ 61440)
    (hcont : Contiguous L h.process (.mmMalloc size)) :
    h.process.refusals < ((mmMalloc L size).final h.process).refusals ∨
      ∃ p h', (mmMalloc L size).run h.process = .ok p h'.process ∧
        Step static h taken (.mmMalloc size) p h' taken := by
  have hchunk := chunkSize_of_limit hlimit
  have hroom : size.toNat ≤ (chunkSize size).toNat := by omega
  rcases answers_mmMalloc h hidle (.of_le (by omega)) hroom (fun hlow hhigh c hc hhead => by
      have := tiny_slack hlow hhigh hc hhead
      omega) with hrefused | ⟨p, h', hrun, hh⟩
  · exact .inl hrefused
  · right
    have hgrow : h'.process.base = h.process.base ∨ h.process.base = h.process.brk := by
      cases hasks : asksKernel L h.process size with
      | true => exact .inr (hcont hasks)
      | false =>
        left
        have hbase := base_of_not_asks hidle (by omega) hasks
        rwa [final_of_ok hrun] at hbase
    have hbeside' := hbeside.evolves hplaced hh.evolves hgrow
    have hkeeps : ∀ x, Holds h taken x → Holds h' taken x := by
      rintro ⟨request, q⟩ hx
      cases request with
      | mmMalloc size' => exact Owned.evolves hh.evolves hx
      | malloc nbytes => exact hx
    refine ⟨p, h', hrun, hh.idle, hbeside', hh.evolves.refusals, hkeeps, hh.owned, ?_⟩
    rintro ⟨request, q⟩ hx
    cases request with
    | mmMalloc size' =>
      have hne : q ≠ p := by
        rintro rfl
        exact hh.fresh _ hx
      exact Owned.disjoint (Owned.evolves hh.evolves hx) hh.owned hne
    | malloc nbytes => exact (Holds.across hbeside' hh.owned (hkeeps _ hx)).symm

theorem step_pool (h : Heap L first) (hidle : h.held = ∅) (P : Umalloc.Pool static h.process.base)
    (hs : P.process = s) (hbase : s.base = h.process.base) (hbitmap : s.bitmap = h.process.bitmap)
    (hrefusals : s.refusals = h.process.refusals)
    (hsame : ∀ x, ¬ Umalloc.Footprint static h.process.base s.brk x → s.mem x = h.process.mem x)
    (hfit : (∃ b ∈ P.arena.free, Umalloc.nunits nbytes ≤ b.units) ∨
      16 * Umalloc.nunits nbytes < 2 ^ 31) :
    (h.process.refusals < ((Umalloc.malloc static nbytes).final s).refusals) ∨
      ∃ p h' taken', (Umalloc.malloc static nbytes).run s = .ok p h'.process ∧
        Step static h P.arena.taken (.malloc nbytes) p h' taken' := by
  subst hs
  rcases P.granted_malloc hfit with hrefused | ⟨p, P', hrun, hgranted⟩
  · left
    rw [final_of_ok hrefused]
    exact hrefusals ▸ Nat.lt_succ_self _
  · right
    have hframe := hgranted.frame
    have hlow : h.process.base ≤ P'.process.brk := P'.shape.low_le
    have hbase' : P'.process.base = h.process.base := hframe.base.trans hbase
    have hmem : ∀ x ∈ Ummalloc.Footprint L first h.process.base,
        P'.process.mem x = h.process.mem x := by
      have hout : ∀ x ∈ Ummalloc.Footprint L first h.process.base, ∀ high,
          ¬ Umalloc.Footprint static h.process.base high x := by
        intro x hx high hin
        have hstatic := hplaced.below
        have hfirst : first ≤ h.process.base := by
          obtain ⟨t, ht, -, -, htop⟩ := h.shape.top
          have := h.shape.first_le ht
          omega
        rcases hx with hx | ⟨i, hi, hilow, hihigh⟩
        · rcases hin with hin | hin
          · omega
          · omega
        · have hhead := h.below.head_le hi
          have hapart := hplaced.apart i hi
          rcases hin with hin | hin
          · omega
          · omega
      intro x hx
      rw [hframe.confined x (hout x hx _), hsame x (hout x hx _)]
    let h' := moveHeap h P'.process hbase' (hframe.bitmap.trans hbitmap)
      (by omega) P'.space hmem
    obtain ⟨q, hp, htaken⟩ := hgranted.block
    have hbeside' : Beside static h'.process P'.arena.taken := by
      have hshape : P'.arena.Shape static P'.process.base P'.process.brk := by
        rw [hbase']
        exact P'.shape
      exact .inr ⟨P'.move P'.process hshape rfl P'.space fun _ _ _ _ _ => rfl, rfl, rfl⟩
    have hkeeps : ∀ x, Holds h P.arena.taken x → Holds h' P'.arena.taken x := by
      rintro ⟨request, p0⟩ hx
      cases request with
      | mmMalloc size => exact owned_moveHeap hx
      | malloc nbytes' =>
        obtain ⟨q0, hp0, hmem0⟩ := hx
        exact ⟨q0, hp0, by rw [htaken]; exact mem_cons_of_mem _ hmem0⟩
    have hholds : Holds h' P'.arena.taken (.malloc nbytes, p) :=
      ⟨q, hp, by rw [htaken]; exact mem_cons_self⟩
    refine ⟨p, h', P'.arena.taken, hrun, hidle, hbeside', hframe.refusals.trans hrefusals, hkeeps,
      hholds, ?_⟩
    rintro ⟨request, p0⟩ hx
    cases request with
    | mmMalloc size => exact Holds.across hbeside' (hkeeps _ hx) hholds
    | malloc nbytes' =>
      obtain ⟨q0, hp0, hmem0⟩ := hx
      have hpair := P'.shape.apart
      rw [htaken] at hpair
      have hapart := (pairwise_cons.mp hpair).1 _ hmem0
      have hbytes := Umalloc.nbytes_le nbytes
      have hbytes0 := Umalloc.nbytes_le nbytes'
      unfold Umalloc.Apart Umalloc.Block.stop at hapart
      unfold Separate
      dsimp only [Request.bytes] at hapart ⊢
      omega

theorem step_malloc (h : Heap L first) (hidle : h.held = ∅)
    (hbeside : Beside static h.process taken) (hcont : Contiguous L h.process (.malloc nbytes)) :
    h.process.refusals < ((Umalloc.malloc static nbytes).final h.process).refusals ∨
      ∃ p h' taken', (Umalloc.malloc static nbytes).run h.process = .ok p h'.process ∧
        Step static h taken (.malloc nbytes) p h' taken' := by
  rcases hbeside with ⟨hfreep, rfl⟩ | ⟨P, hP, rfl⟩
  · have hfirst : first ≤ h.process.base := by
      obtain ⟨t, ht, -, -, htop⟩ := h.shape.top
      have := h.shape.first_le ht
      omega
    have hstatic := hplaced.below
    have hstart := Umalloc.run_malloc_start hfreep hplaced.pos
      (show static + 16 ≤ h.process.base by omega) h.stored.room h.stored.space nbytes
    have hfinal : (Umalloc.malloc static nbytes).final h.process =
        (Umalloc.malloc static nbytes).final (Umalloc.startPool h.process hplaced.pos
          (show static + 16 ≤ h.process.base by omega) h.stored.room h.stored.space).process := by
      unfold Prog.final
      rw [hstart]
    rw [hstart, hfinal]
    refine step_pool hplaced h hidle (Umalloc.startPool h.process hplaced.pos
      (show static + 16 ≤ h.process.base by omega) h.stored.room h.stored.space) rfl rfl rfl rfl
      ?_ (.inr (hcont.resolve_left fun hin => hin.1 hfreep))
    intro x hx
    have hout : ¬ (static ≤ x ∧ x < static + 16) := fun hin => hx (.inl hin)
    change store 4 (store 8 h.process.mem static static) (static + 8) 0 x = _
    rw [store_apply_of_outside (by omega), store_apply_of_outside (by omega)]
  · refine step_pool hplaced h hidle P hP rfl rfl rfl (fun _ _ => rfl) ?_
    rcases hcont with ⟨-, k, hk⟩ | hsmall
    · left
      rw [← hP] at hk
      obtain ⟨b, hb, -, hle⟩ := P.units_node (P.stored.circuit.iterate_mem P.freep k)
        (Umalloc.nunits_pos nbytes) hk
      exact ⟨b, hb, hle⟩
    · exact .inr hsmall

theorem step_serve (h : Heap L first) (hidle : h.held = ∅)
    (hbeside : Beside static h.process taken) {request : Request} (hlimit : request.Limited)
    (hcont : Contiguous L h.process request) :
    h.process.refusals < ((serve L static request).final h.process).refusals ∨
      ∃ p h' taken', (serve L static request).run h.process = .ok p h'.process ∧
        Step static h taken request p h' taken' := by
  cases request with
  | mmMalloc size =>
    rcases step_mmMalloc hplaced h hidle hbeside hlimit hcont with hrefused | ⟨p, h', hrun, hstep⟩
    · exact .inl hrefused
    · exact .inr ⟨p, h', taken, hrun, hstep⟩
  | malloc nbytes => exact step_malloc hplaced h hidle hbeside hcont

end

theorem lasting_serve (request : Request) : Lasting (serve L static request) := by
  cases request with
  | mmMalloc size => exact lasting_mmMalloc size
  | malloc nbytes => exact Umalloc.lasting_malloc nbytes

structure SharedRun (static : ℕ) (h : Heap L first) (taken : List Umalloc.Block)
    (requests : List Request) (ps : List ℕ) (h' : Heap L first)
    (taken' : List Umalloc.Block) : Prop where
  beside : Beside static h'.process taken'
  length : ps.length = requests.length
  keeps : ∀ x, Holds h taken x → Holds h' taken' x
  holds : ∀ x ∈ requests.zip ps, Holds h' taken' x
  fresh : ∀ x, Holds h taken x → ∀ y ∈ requests.zip ps, Separate x y
  separate : (requests.zip ps).Pairwise Separate

theorem run_serveAll (hplaced : Placed L first static) (requests : List Request)
    (hlimit : ∀ request ∈ requests, request.Limited) (h : Heap L first) (hidle : h.held = ∅)
    (hbeside : Beside static h.process taken)
    (halong : Along (serve L static) (Contiguous L) requests h.process)
    (hgranted : ((serveAll (serve L static) requests).final h.process).refusals =
      h.process.refusals) :
    ∃ ps h' taken', (serveAll (serve L static) requests).run h.process = .ok ps h'.process ∧
      SharedRun static h taken requests ps h' taken' := by
  induction requests generalizing h taken with
  | nil =>
    exact ⟨[], h, taken, rfl, hbeside, rfl, fun _ hx => hx, by simp, by simp,
      List.Pairwise.nil⟩
  | cons request rest ih =>
    obtain ⟨hcont, hrest⟩ := halong
    have hfirst := granted_first lasting_serve hgranted
    rcases step_serve hplaced h hidle hbeside (hlimit request (by simp)) hcont with
      hrefused | ⟨p, h1, taken1, hrun, hstep⟩
    · omega
    · obtain ⟨ps, h2, taken2, hrun2, hR⟩ := ih (fun x hx => hlimit x (by simp [hx])) h1
        hstep.idle hstep.beside (hrest p h1.process hrun)
        (granted_rest hrun hstep.refusals hgranted)
      refine ⟨p :: ps, h2, taken2, run_serveAll_cons hrun hrun2, hR.beside,
        by simp [hR.length], fun x hx => hR.keeps x (hstep.keeps x hx), ?_, ?_, ?_⟩
      · intro x hx
        rw [zip_cons_cons] at hx
        rcases mem_cons.mp hx with rfl | hx
        · exact hR.keeps _ hstep.holds
        · exact hR.holds x hx
      · intro x hx y hy
        rw [zip_cons_cons] at hy
        rcases mem_cons.mp hy with rfl | hy
        · exact hstep.fresh x hx
        · exact hR.fresh x (hstep.keeps x hx) y hy
      · rw [zip_cons_cons]
        exact pairwise_cons.mpr ⟨fun y hy => hR.fresh _ hstep.holds y hy, hR.separate⟩

def sharedSession (L : Layout) (static : ℕ) (requests : List Request) : Prog (List ℕ) := do
  let _ ← mmInit L
  serveAll (serve L static) requests

/-- If every step meets the condition, the blocks of both allocators are
disjoint and lie below the break. -/
theorem separate_sharedSession {s : Process} (hs : Startable L s) (hfreep : s.freep = 0)
    (hplaced : Placed L (align s.brk) static) (requests : List Request)
    (hlimit : ∀ request ∈ requests, request.Limited)
    (halong : ∀ s0, (mmInit L).run s = .ok 0 s0 →
      Along (serve L static) (Contiguous L) requests s0)
    (hgranted : ((sharedSession L static requests).final s).refusals = s.refusals) :
    ∃ ps s', (sharedSession L static requests).run s = .ok ps s' ∧
      ps.length = requests.length ∧
      (∀ x ∈ requests.zip ps, s.brk ≤ x.2 ∧ x.2 + x.1.bytes ≤ s'.brk) ∧
      (requests.zip ps).Pairwise Separate := by
  obtain ⟨h, hinit, hfresh, hrest, hrun⟩ := granted_start lasting_serve hs requests hgranted
  have hbeside : Beside static h.process [] := Or.inl ⟨hfresh.freep.trans hfreep, rfl⟩
  obtain ⟨ps, h', taken', hrun', hR⟩ := run_serveAll hplaced requests hlimit h hfresh.idle hbeside
    (halong h.process hinit) hrest
  refine ⟨ps, h'.process, hrun.trans hrun', hR.length, ?_, hR.separate⟩
  intro x hx
  obtain ⟨hlow, hhigh⟩ := (hR.holds x hx).bounds hR.beside
  exact ⟨hfresh.low.trans hlow, hhigh⟩

theorem sample_placed : Placed sampleLayout (align sampleProcess.brk) 12288 := by
  refine ⟨by decide, by decide, ?_⟩
  intro i hi
  right
  unfold Layout.head Layout.slot sampleLayout
  split <;> dsimp only <;> omega

theorem separate_sample :
    ∃ ps s', (sharedSession sampleLayout 12288 [.mmMalloc 5000, .malloc 100]).run sampleProcess =
        .ok ps s' ∧ ps.length = 2 ∧
      (∀ x ∈ [Request.mmMalloc 5000, Request.malloc 100].zip ps,
        sampleProcess.brk ≤ x.2 ∧ x.2 + x.1.bytes ≤ s'.brk) ∧
      ([Request.mmMalloc 5000, Request.malloc 100].zip ps).Pairwise Separate := by
  refine separate_sharedSession sample_startable rfl sample_placed
    [.mmMalloc 5000, .malloc 100] ?_ ?_ (by decide +kernel)
  · intro request hrequest
    simp only [mem_cons, not_mem_nil, or_false] at hrequest
    rcases hrequest with rfl | rfl
    · unfold Request.Limited
      decide
    · trivial
  · intro s0 hinit
    obtain rfl := final_of_ok hinit
    refine ⟨fun _ => by decide +kernel, fun _ _ _ => ⟨.inr (by decide), fun _ _ _ => trivial⟩⟩

theorem overlap_sample_eval :
    (sharedSession sampleLayout 12288 [.malloc 100, .mmMalloc 60000, .mmMalloc 60000]).value
        sampleProcess = some [135056, 65544, 125552] ∧
      ((sharedSession sampleLayout 12288
        [.malloc 100, .mmMalloc 60000, .mmMalloc 60000]).final sampleProcess).refusals = 0 := by
  decide +kernel

/-- The K&R allocator grows first; the slot allocator then extends its heap
from `base` over the block it handed out. -/
theorem overlap_sample :
    ∃ s', (sharedSession sampleLayout 12288
        [.malloc 100, .mmMalloc 60000, .mmMalloc 60000]).run sampleProcess =
          .ok [135056, 65544, 125552] s' ∧ s'.refusals = sampleProcess.refusals ∧
      ¬ Separate (.malloc 100, 135056) (.mmMalloc 60000, 125552) := by
  refine ⟨_, run_of_value overlap_sample_eval.1, overlap_sample_eval.2, ?_⟩
  unfold Separate Request.bytes
  decide

end Xv6MallocLab.SharedBreak
