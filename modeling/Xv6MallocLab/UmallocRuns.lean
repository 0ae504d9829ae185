import Xv6MallocLab.UmallocSearch

/-!
# Runs of the K&R allocator

A session is a process with the blocks its program has been given and not freed, and the
regions `sbrk` has returned.  As long as the regions have fewer than `2 ^ 32` units in all,
the free list and the live blocks divide them among themselves.
-/

namespace Xv6MallocLab.Umalloc

open ByteMemory CircularList List Prog

attribute [local irreducible] load store

variable {static low : ℕ}

def total (blocks : List Block) : ℕ := (blocks.map Block.units).sum

def Covered (regions : List Block) (b : Block) : Prop :=
  ∀ k < b.units, ∃ r ∈ regions, ∃ j < r.units, b.addr + 16 * k = r.addr + 16 * j

def Spaced (free : List Block) : Prop := free.Pairwise fun b c => b.stop < c.addr

section Units

variable {regions free free' before after after1 : List Block} {b b1 c : Block} {n q : ℕ}

@[simp] theorem total_nil : total [] = 0 := rfl

@[simp] theorem total_cons : total (b :: free) = b.units + total free := by simp [total]

@[simp] theorem total_append : total (before ++ after) = total before + total after := by
  simp [total]

theorem units_le_total (hb : b ∈ free) : b.units ≤ total free :=
  single_le_sum (by simp) _ (mem_map_of_mem hb)

theorem Covered.mono (hb : Covered regions b) (hsub : ∀ r ∈ regions, r ∈ free) :
    Covered free b := by
  intro k hk
  obtain ⟨r, hr, hunit⟩ := hb k hk
  exact ⟨r, hsub r hr, hunit⟩

theorem covered_self (hb : b ∈ regions) : Covered regions b := fun k hk => ⟨b, hb, k, hk, rfl⟩

theorem Covered.join (hb : Covered regions b) (hc : Covered regions c) (touch : b.stop = c.addr) :
    Covered regions ⟨b.addr, b.units + c.units⟩ := by
  intro k hk
  by_cases hlt : k < b.units
  · exact hb k hlt
  · obtain ⟨r, hr, j, hj, heq⟩ := hc (k - b.units) (by dsimp only at hk; omega)
    refine ⟨r, hr, j, hj, ?_⟩
    unfold Block.stop at touch
    dsimp only
    omega

theorem Covered.part (hb : Covered regions b) {i m : ℕ} (hm : i + m ≤ b.units) :
    Covered regions ⟨b.addr + 16 * i, m⟩ := by
  intro k hk
  obtain ⟨r, hr, j, hj, heq⟩ := hb (i + k) (by dsimp only at hk; omega)
  refine ⟨r, hr, j, hj, ?_⟩
  dsimp only
  omega

theorem Covered.byte (hb : Covered regions b) {x : ℕ} (hlow : b.addr ≤ x) (hhigh : x < b.stop) :
    ∃ r ∈ regions, r.addr ≤ x ∧ x < r.stop := by
  unfold Block.stop at hhigh
  obtain ⟨r, hr, j, hj, heq⟩ := hb ((x - b.addr) / 16) (by omega)
  refine ⟨r, hr, ?_⟩
  unfold Block.stop
  omega

theorem Up.total (hup : Up b after b1 after1) :
    b1.units + total after1 = b.units + total after := by
  cases hup with
  | keep gap => rfl
  | join touch =>
    rw [total_cons]
    exact Nat.add_assoc _ _ _

theorem Down.total (hdown : Down b after before free') :
    Umalloc.total free' = Umalloc.total before + b.units + Umalloc.total after := by
  cases hdown with
  | keep gap =>
    rw [total_append, total_cons]
    omega
  | join touch =>
    simp only [total_append, total_cons, total_nil]
    omega

theorem Rejoined.total (hrejoined : Rejoined free b free') :
    Umalloc.total free' = Umalloc.total free + b.units := by
  obtain ⟨before, after, b1, after1, rfl, -, -, hup, hdown⟩ := hrejoined
  have hfirst := hup.total
  rw [hdown.total, total_append]
  omega

theorem Rejoined.covered (hrejoined : Rejoined free b free')
    (hfree : ∀ c ∈ free, Covered regions c) (hb : Covered regions b) :
    ∀ c ∈ free', Covered regions c := by
  obtain ⟨before, after, b1, after1, rfl, -, -, hup, hdown⟩ := hrejoined
  have hb1 : Covered regions b1 := by
    cases hup with
    | keep gap => exact hb
    | @join a rest touch => exact hb.join (hfree a (by simp)) touch
  have hafter : ∀ c ∈ after1, Covered regions c := fun c hc =>
    hfree c (mem_append_right _ (hup.subset c hc))
  intro c hc
  cases hdown with
  | keep gap =>
    rcases mem_append.mp hc with hc | hc
    · exact hfree c (by simp [hc])
    · rcases mem_cons.mp hc with rfl | hc
      · exact hb1
      · exact hafter c hc
  | @join init l touch =>
    rcases mem_append.mp hc with hc | hc
    · exact hfree c (by simp [hc])
    · rcases mem_cons.mp hc with rfl | hc
      · exact (hfree l (by simp)).join hb1 touch
      · exact hafter c hc

theorem Rejoined.spaced (hrejoined : Rejoined free b free') (hfree : Spaced free) :
    Spaced free' := by
  obtain ⟨before, after, b1, after1, rfl, hbefore, hafter, hup, hdown⟩ := hrejoined
  unfold Spaced at hfree
  rw [pairwise_append] at hfree
  obtain ⟨hlower, hupper, hacross⟩ := hfree
  have habove : (∀ c ∈ after1, b1.stop < c.addr) ∧ after1.Pairwise fun b c => b.stop < c.addr := by
    cases hup with
    | keep gap => exact ⟨gap, hupper⟩
    | @join a rest touch =>
      obtain ⟨hnext, hrest⟩ := pairwise_cons.mp hupper
      refine ⟨?_, hrest⟩
      intro c hc
      have hac := hnext c hc
      unfold Block.stop at touch hac ⊢
      dsimp only
      omega
  have hover : ∀ c ∈ before, ∀ d ∈ after1, c.stop < d.addr := fun c hc d hd =>
    hacross c hc d (hup.subset d hd)
  cases hdown with
  | keep gap =>
    refine pairwise_append.mpr ⟨hlower, pairwise_cons.mpr habove, ?_⟩
    intro c hc d hd
    rcases mem_cons.mp hd with rfl | hd
    · exact gap c hc
    · exact hover c hc d hd
  | @join init l touch =>
    rw [pairwise_append] at hlower
    refine pairwise_append.mpr ⟨hlower.1, pairwise_cons.mpr ⟨?_, habove.2⟩, ?_⟩
    · intro c hc
      have hlc := habove.1 c hc
      unfold Block.stop at touch hlc ⊢
      dsimp only
      omega
    · intro c hc d hd
      rcases mem_cons.mp hd with rfl | hd
      · exact hlower.2.2 c hc l (by simp)
      · exact hover c (by simp [hc]) d hd

theorem Cut.total (hcut : Cut free n q free') : Umalloc.total free = Umalloc.total free' + n := by
  cases hcut with
  | whole before after b =>
    simp only [total_append, total_cons]
    omega
  | @back before after b n hn =>
    simp only [total_append, total_cons, Block.front]
    omega

theorem Cut.covered (hcut : Cut free n q free') (hfree : ∀ c ∈ free, Covered regions c) :
    (∀ c ∈ free', Covered regions c) ∧ Covered regions ⟨q, n⟩ := by
  cases hcut with
  | whole before after b =>
    refine ⟨?_, hfree b (by simp)⟩
    intro c hc
    apply hfree
    simp only [mem_append, mem_cons] at hc ⊢
    tauto
  | @back before after b n hn =>
    have hb := hfree b (by simp)
    refine ⟨?_, hb.part (by omega)⟩
    intro c hc
    by_cases heq : c = b.front n
    · rw [heq]
      have hfront : b.front n = ⟨b.addr + 16 * 0, b.units - n⟩ := rfl
      rw [hfront]
      exact hb.part (by omega)
    · apply hfree
      simp only [mem_append, mem_cons] at hc ⊢
      tauto

theorem Cut.spaced (hcut : Cut free n q free') (hfree : Spaced free) : Spaced free' := by
  unfold Spaced at hfree ⊢
  cases hcut with
  | whole before after b =>
    rw [pairwise_append, pairwise_cons] at hfree
    refine pairwise_append.mpr ⟨hfree.1, hfree.2.1.2, ?_⟩
    intro c hc d hd
    exact hfree.2.2 c hc d (by simp [hd])
  | @back before after b n hn =>
    rw [pairwise_append, pairwise_cons] at hfree
    refine pairwise_append.mpr ⟨hfree.1, pairwise_cons.mpr ⟨?_, hfree.2.1.2⟩, ?_⟩
    · intro c hc
      exact (b.front_le n).trans_lt (hfree.2.1.1 c hc)
    · intro c hc d hd
      rcases mem_cons.mp hd with rfl | hd
      · exact hfree.2.2 c hc b (by simp)
      · exact hfree.2.2 c hc d (by simp [hd])

end Units

structure Allocation where
  p : ℕ
  nbytes : UInt32
  deriving DecidableEq

def Allocation.block (a : Allocation) : Block := ⟨a.p - 16, nunits a.nbytes⟩

structure Session where
  process : Process
  live : List Allocation
  regions : List Block

def obtained (s s' : Process) : List Block :=
  if s'.brk = s.brk then [] else [⟨s.brk, (s'.brk - s.brk) / 16⟩]

/-- The bytes the program must not write: the static header, and what `sbrk`
has returned to the allocator except for the payload of live blocks. -/
def Session.Guarded (static : ℕ) (S : Session) (x : ℕ) : Prop :=
  (static ≤ x ∧ x < static + 16) ∨
    (∃ r ∈ S.regions, r.addr ≤ x ∧ x < r.stop) ∧
      ∀ a ∈ S.live, ¬ (a.p ≤ x ∧ x < a.block.stop)

inductive Step (static : ℕ) : Session → Session → Prop
  | malloc {S : Session} {nbytes : UInt32} {p : ℕ} {s' : Process}
      (hsmall : 16 * nunits nbytes < 2 ^ 31)
      (hrun : (malloc static nbytes).run S.process = .ok p s') :
      Step static S ⟨s', if p = 0 then S.live else ⟨p, nbytes⟩ :: S.live,
        obtained S.process s' ++ S.regions⟩
  | free {S : Session} {a : Allocation} {s' : Process} (ha : a ∈ S.live)
      (hrun : (free a.p).run S.process = .ok () s') :
      Step static S ⟨s', S.live.erase a, S.regions⟩
  | program {S : Session} {s' : Process} (hfreep : s'.freep = S.process.freep)
      (hbrk : S.process.brk ≤ s'.brk) (hspace : s'.brk < 2 ^ 64)
      (hmem : ∀ x, S.Guarded static x → s'.mem x = S.process.mem x) :
      Step static S ⟨s', S.live, S.regions⟩

/-- The sessions of a program whose data segment, with the static header in
it, ends at or below the break. -/
inductive Reached (static : ℕ) : Session → Prop
  | start {s : Process} (hfreep : s.freep = 0) (hpos : 0 < static) (hbrk : static + 16 ≤ s.brk)
      (hspace : s.brk < 2 ^ 64) : Reached static ⟨s, [], []⟩
  | step {S S' : Session} (hreached : Reached static S) (hstep : Step static S S') :
      Reached static S'

structure Accounts (P : Pool static low) (S : Session) : Prop where
  process : P.process = S.process
  taken : P.arena.taken = S.live.map Allocation.block
  pointer : ∀ a ∈ S.live, a.p = a.block.addr + 16
  header : ∀ a ∈ S.live, units S.process.mem a.block.addr = a.block.units
  spaced : Spaced P.arena.free
  covered : ∀ b ∈ P.arena.free ++ P.arena.taken, Covered S.regions b
  total : total P.arena.free + total P.arena.taken = total S.regions

def Unused (static : ℕ) (S : Session) : Prop :=
  S.process.freep = 0 ∧ S.live = [] ∧ S.regions = [] ∧ 0 < static ∧
    static + 16 ≤ S.process.brk ∧ S.process.brk < 2 ^ 64

def Sound (static : ℕ) (S : Session) : Prop :=
  Unused static S ∨ ∃ P : Pool static (static + 16), Accounts P S

section Accounts

variable {P P' : Pool static low} {S : Session} {n q : ℕ}

variable {a : Allocation} {x y : ℕ} {c : Block}

theorem Accounts.block_mem (hP : Accounts P S) (ha : a ∈ S.live) : a.block ∈ P.arena.taken := by
  rw [hP.taken]
  exact mem_map_of_mem ha

theorem Pool.node_taken (P : Pool static low) (hx : x ∈ P.arena.nodes static)
    (hc : c ∈ P.arena.taken) : x + 16 ≤ c.addr ∨ c.stop ≤ x := by
  have hin := P.shape.inside c (mem_append_right _ hc)
  have hstatic := P.shape.static_le
  rcases Arena.Shape.mem_nodes.mp hx with rfl | ⟨b, hb, rfl⟩
  · exact .inl (by omega)
  · have hpos := (P.shape.free_inside hb).1
    rcases P.shape.cross b hb c hc with hle | hle
    · unfold Block.stop at hle
      exact .inl (by omega)
    · exact .inr hle

theorem Pool.taken_apart (P : Pool static low) {b : Block} (hb : b ∈ P.arena.taken)
    (hc : c ∈ P.arena.taken) : b = c ∨ Apart b c := by
  by_cases heq : b = c
  · exact .inl heq
  · right
    have hsymm : Std.Symm Apart := ⟨fun _ _ h => h.symm⟩
    exact P.shape.apart.forall hb hc heq

theorem Accounts.header_of_mem (hP : Accounts P S) {m' : Memory} {fresh : ℕ}
    (hmem : ∀ x, (∀ c ∈ P.arena.nodes static, x < c ∨ c + 16 ≤ x) →
      (x < fresh ∨ fresh + 16 ≤ x) → m' x = P.process.mem x) (ha : a ∈ S.live)
    (hfresh : a.block.addr + 16 ≤ fresh ∨ fresh + 16 ≤ a.block.addr) :
    units m' a.block.addr = a.block.units := by
  rw [← hP.header a ha, ← hP.process]
  refine load_congr fun x hlow hhigh => hmem x ?_ (by omega)
  intro c hc
  have hin := P.shape.inside a.block (mem_append_right _ (hP.block_mem ha))
  have hplace := P.node_taken hc (hP.block_mem ha)
  unfold Block.stop at hplace
  omega

theorem Accounts.grown (hP : Accounts P S) (hgrown : Grown P n P') :
    Accounts P' ⟨P'.process, S.live, ⟨P.process.brk, coreUnits n⟩ :: S.regions⟩ := by
  have htaken := hgrown.taken
  obtain ⟨-, hpos, -⟩ := coreUnits_bounds hgrown.1
  obtain ⟨-, hspace, hreleased⟩ := id hgrown
  have hold : ∀ c ∈ P.arena.free ++ P.arena.taken,
      Covered (⟨P.process.brk, coreUnits n⟩ :: S.regions) c := fun c hc =>
    (hP.covered c hc).mono fun r hr => mem_cons_of_mem _ hr
  refine ⟨rfl, htaken.trans hP.taken, hP.pointer, ?_, hreleased.rejoined.spaced hP.spaced, ?_, ?_⟩
  · intro a ha
    have hin := P.shape.inside a.block (mem_append_right _ (hP.block_mem ha))
    unfold Block.stop at hin
    exact hP.header_of_mem (fun x hx hbrk => hgrown.mem hx hbrk) ha (by omega)
  · intro c hc
    rw [htaken] at hc
    rcases mem_append.mp hc with hc | hc
    · exact hreleased.rejoined.covered (fun d hd => hold d (mem_append_left _ hd))
        (covered_self mem_cons_self) c hc
    · exact hold c (mem_append_right _ hc)
  · have hunits := hreleased.rejoined.total
    have htotal := hP.total
    change Umalloc.total P'.arena.free = Umalloc.total P.arena.free + coreUnits n at hunits
    rw [htaken, total_cons]
    dsimp only
    omega

theorem Accounts.carved (hP : Accounts P S) {nbytes : UInt32}
    (hcarved : Carved P (nunits nbytes) q P') :
    Accounts P' ⟨P'.process, ⟨q + 16, nbytes⟩ :: S.live, S.regions⟩ := by
  have hblock : (⟨q + 16, nbytes⟩ : Allocation).block = ⟨q, nunits nbytes⟩ := rfl
  have htaken := hcarved.taken
  obtain ⟨hfree, hnew⟩ := hcarved.cut.covered fun c hc => hP.covered c (mem_append_left _ hc)
  refine ⟨rfl, ?_, ?_, ?_, hcarved.cut.spaced hP.spaced, ?_, ?_⟩
  · rw [htaken, hP.taken, map_cons, hblock]
  · intro a ha
    rcases mem_cons.mp ha with rfl | ha
    · rfl
    · exact hP.pointer a ha
  · intro a ha
    rcases mem_cons.mp ha with rfl | ha
    · exact hcarved.header
    · have hmem := hP.block_mem ha
      have hpos := (P.shape.inside a.block (mem_append_right _ hmem)).1
      have hapart := P'.shape.apart
      rw [htaken] at hapart
      have hplace := (pairwise_cons.mp hapart).1 a.block hmem
      have hq := nunits_pos nbytes
      unfold Apart Block.stop at hplace
      dsimp only at hplace
      exact hP.header_of_mem hcarved.mem ha (by omega)
  · intro c hc
    rw [htaken] at hc
    simp only [mem_append, mem_cons] at hc
    rcases hc with hc | rfl | hc
    · exact hfree c hc
    · exact hnew
    · exact hP.covered c (mem_append_right _ hc)
  · have hunits := hcarved.cut.total
    have htotal := hP.total
    rw [htaken, total_cons]
    dsimp only
    omega

def Pool.withdraw (P : Pool static low) {taken : List Block} (hsub : taken.Sublist P.arena.taken) :
    Pool static low where
  arena := ⟨P.arena.free, taken⟩
  process := P.process
  shape := by
    have hA := P.shape
    refine ⟨hA.static_pos, hA.static_le, hA.low_le, ?_, hA.sorted, hA.apart.sublist hsub, ?_⟩
    · intro b hb
      apply hA.inside
      simp only [mem_append] at hb ⊢
      exact hb.imp_right fun h => hsub.subset h
    · exact fun b hb c hc => hA.cross b hb c (hsub.subset hc)
  stored := ⟨P.stored.circuit, P.stored.static, P.stored.size⟩
  freep := P.freep
  space := P.space

theorem Accounts.perm (hP : Accounts P S) (ha : a ∈ S.live) :
    P.arena.taken.Perm (a.block :: (S.live.erase a).map Allocation.block) := by
  rw [hP.taken]
  exact (perm_cons_erase ha).map Allocation.block

theorem Accounts.exists_free (hP : Accounts P S) (hunits : Umalloc.total S.regions < 2 ^ 32)
    (ha : a ∈ S.live) :
    ∃ P' : Pool static low, (free a.p).run S.process = .ok () P'.process ∧
      Accounts P' ⟨P'.process, S.live.erase a, S.regions⟩ := by
  have hsub : ((S.live.erase a).map Allocation.block).Sublist P.arena.taken := by
    rw [hP.taken]
    exact erase_sublist.map Allocation.block
  have hmem := hP.block_mem ha
  have hin := P.shape.inside a.block (mem_append_right _ hmem)
  have hapart : ∀ c ∈ (S.live.erase a).map Allocation.block, Apart a.block c :=
    (pairwise_cons.mp ((hP.perm ha).pairwise P.shape.apart fun h => h.symm)).1
  have htotal : Umalloc.total P.arena.free + (a.block.units +
      Umalloc.total ((S.live.erase a).map Allocation.block)) = Umalloc.total S.regions := by
    have hsum : Umalloc.total P.arena.taken =
        Umalloc.total (a.block :: (S.live.erase a).map Allocation.block) :=
      ((hP.perm ha).map Block.units).sum_nat
    rw [← hP.total, hsum, total_cons]
  have hout : (P.withdraw hsub).arena.Outside a.block low P.process.brk :=
    ⟨hin.1, hin.2.1, hin.2.2, fun c hc => (P.shape.cross c hc a.block hmem).symm, hapart⟩
  obtain ⟨P', hrun, hreleased⟩ := (P.withdraw hsub).exists_release hout
    (by
      rw [← hP.header a ha, ← hP.process]
      rfl)
    (by
      intro free' hrejoined c hc
      have hle := units_le_total hc
      have hunits' : Umalloc.total free' = Umalloc.total P.arena.free + a.block.units :=
        hrejoined.total
      omega)
  have hmem' : ∀ x, (∀ c ∈ P.arena.nodes static, x < c ∨ c + 16 ≤ x) →
      (x < a.block.addr ∨ a.block.addr + 16 ≤ x) → P'.process.mem x = P.process.mem x :=
    hreleased.mem
  refine ⟨P', ?_, rfl, hreleased.taken, ?_, ?_, hreleased.rejoined.spaced hP.spaced, ?_, ?_⟩
  · rw [← hP.process, hP.pointer a ha]
    exact hrun
  · exact fun c hc => hP.pointer c (mem_of_mem_erase hc)
  · intro c hc
    have hpos := hin.1
    have hcpos := nunits_pos c.nbytes
    have hplace := hapart c.block (mem_map_of_mem hc)
    unfold Apart Block.stop at hplace
    have hcunits : c.block.units = nunits c.nbytes := rfl
    exact hP.header_of_mem hmem' (mem_of_mem_erase hc) (by omega)
  · intro c hc
    rw [hreleased.taken] at hc
    rcases mem_append.mp hc with hc | hc
    · exact hreleased.rejoined.covered (fun d hd => hP.covered d (mem_append_left _ hd))
        (hP.covered a.block (mem_append_right _ hmem)) c hc
    · exact hP.covered c (mem_append_right _ (hsub.subset hc))
  · have hunits' : Umalloc.total P'.arena.free =
        Umalloc.total P.arena.free + a.block.units := hreleased.rejoined.total
    have htaken : P'.arena.taken = (S.live.erase a).map Allocation.block := hreleased.taken
    rw [htaken]
    dsimp only
    omega

theorem Accounts.guarded_node (hP : Accounts P S) (hx : x ∈ P.arena.nodes static) (hlow : x ≤ y)
    (hhigh : y < x + 16) : S.Guarded static y := by
  rcases Arena.Shape.mem_nodes.mp hx with rfl | ⟨b, hb, rfl⟩
  · exact .inl ⟨hlow, hhigh⟩
  · have hpos := (P.shape.free_inside hb).1
    have hstop : y < b.stop := by
      unfold Block.stop
      omega
    refine .inr ⟨(hP.covered b (mem_append_left _ hb)).byte hlow hstop, ?_⟩
    intro a ha hin
    have hcross := P.shape.cross b hb a.block (hP.block_mem ha)
    have hp := hP.pointer a ha
    unfold Apart at hcross
    omega

theorem Accounts.guarded_header (hP : Accounts P S) (ha : a ∈ S.live) (hlow : a.block.addr ≤ y)
    (hhigh : y < a.block.addr + 16) : S.Guarded static y := by
  have hmem := hP.block_mem ha
  have hpos := (P.shape.inside a.block (mem_append_right _ hmem)).1
  have hstop : y < a.block.stop := by
    unfold Block.stop
    omega
  refine .inr ⟨(hP.covered a.block (mem_append_right _ hmem)).byte hlow hstop, ?_⟩
  intro c hc hin
  have hp := hP.pointer c hc
  rcases P.taken_apart hmem (hP.block_mem hc) with heq | hapart
  · rw [← heq] at hp
    omega
  · unfold Apart at hapart
    omega

end Accounts

section Runs

variable {S S' : Session}

def initialised (static : ℕ) (s : Process) : Process :=
  if s.freep = 0 then
    { s with mem := store 4 (store 8 s.mem static static) (static + 8) 0, freep := static }
  else s

theorem initialised_brk (s : Process) : (initialised static s).brk = s.brk := by
  unfold initialised
  split <;> rfl

theorem initialised_of_ne {s : Process} (h : s.freep ≠ 0) : initialised static s = s := if_neg h

theorem Sound.exists_pool (hS : Sound static S) (nbytes : UInt32) :
    ∃ P : Pool static (static + 16), Accounts P ⟨P.process, S.live, S.regions⟩ ∧
      P.process = initialised static S.process ∧
      (malloc static nbytes).run S.process = (malloc static nbytes).run P.process := by
  rcases hS with ⟨hfreep, hlive, hregions, hpos, hbrk, hspace⟩ | ⟨P, hP⟩
  · refine ⟨startPool S.process hpos le_rfl hbrk hspace, ?_, (if_pos hfreep).symm,
      run_malloc_start hfreep hpos le_rfl hbrk hspace nbytes⟩
    rw [hlive, hregions]
    exact ⟨rfl, rfl, by simp, by simp, List.Pairwise.nil, by simp [startPool], rfl⟩
  · have hne : S.process.freep ≠ 0 := hP.process ▸ P.freep_ne_zero
    refine ⟨P, ?_, by rw [hP.process, initialised_of_ne hne], by rw [hP.process]⟩
    rw [hP.process]
    exact hP

def Outcome (P : Pool static low) (nbytes : UInt32) : Prop :=
  (malloc static nbytes).run P.process = .ok 0 (refusedState P.process) ∨
    ∃ p P', (malloc static nbytes).run P.process = .ok p P'.process ∧ Served P (nunits nbytes) p P'

variable {nbytes : UInt32}

theorem Sound.exists_outcome (hS : Sound static S)
    (houtcome : ∀ P : Pool static (static + 16), P.process = initialised static S.process →
      Outcome P nbytes) :
    ∃ p s', (malloc static nbytes).run S.process = .ok p s' ∧
      Sound static ⟨s', if p = 0 then S.live else ⟨p, nbytes⟩ :: S.live,
        obtained S.process s' ++ S.regions⟩ := by
  obtain ⟨P, hP, hprocess, hsame⟩ := hS.exists_pool nbytes
  have hbrk : P.process.brk = S.process.brk := by rw [hprocess, initialised_brk]
  rcases houtcome P hprocess with hrefused | ⟨p, P', hrun, P1, q, hsupply, rfl, hcarved⟩
  · refine ⟨0, _, hsame.trans hrefused, .inr ⟨P.move (refusedState P.process) P.shape rfl P.space
      fun _ _ _ _ _ => rfl, ?_⟩⟩
    have hnone : obtained S.process (refusedState P.process) = [] := if_pos hbrk
    rw [if_pos rfl, hnone]
    exact { hP with process := rfl }
  · refine ⟨q + 16, _, hsame.trans hrun, .inr ⟨P', ?_⟩⟩
    rw [if_neg (by omega)]
    have hbrk' : P'.process.brk = P1.process.brk := by rw [hcarved.process]
    rcases hsupply with rfl | hgrown
    · have hnone : obtained S.process P'.process = [] := if_pos (by rw [hbrk', hbrk])
      rw [hnone]
      exact hP.carved hcarved
    · obtain ⟨-, hpos, -⟩ := coreUnits_bounds hgrown.1
      have hnew := hgrown.brk
      have hone : obtained S.process P'.process = [⟨P.process.brk, coreUnits (nunits nbytes)⟩] := by
        unfold obtained
        rw [if_neg (by omega), hbrk', hnew, ← hbrk, Nat.add_sub_cancel_left,
          Nat.mul_div_cancel _ (by omega)]
      rw [hone]
      exact (hP.grown hgrown).carved hcarved

theorem Sound.exists_malloc (hS : Sound static S) (hsmall : 16 * nunits nbytes < 2 ^ 31) :
    ∃ p s', (malloc static nbytes).run S.process = .ok p s' ∧
      Sound static ⟨s', if p = 0 then S.live else ⟨p, nbytes⟩ :: S.live,
        obtained S.process s' ++ S.regions⟩ :=
  hS.exists_outcome fun P _ => P.served_malloc (.inr hsmall)

theorem Sound.exists_free (hS : Sound static S) (hunits : total S.regions < 2 ^ 32)
    {a : Allocation} (ha : a ∈ S.live) :
    ∃ s', (free a.p).run S.process = .ok () s' ∧
      Sound static ⟨s', S.live.erase a, S.regions⟩ := by
  rcases hS with ⟨-, hlive, -⟩ | ⟨P, hP⟩
  · rw [hlive] at ha
    exact absurd ha not_mem_nil
  · obtain ⟨P', hrun, hP'⟩ := hP.exists_free hunits ha
    exact ⟨P'.process, hrun, .inr ⟨P', hP'⟩⟩

/-- A call keeps the accounts of the pool, as long as sizes do not wrap. -/
theorem Sound.step (hS : Sound static S) (hstep : Step static S S')
    (hunits : total S'.regions < 2 ^ 32) : Sound static S' := by
  cases hstep with
  | malloc hsmall hrun =>
    obtain ⟨p, s', hrun', hsound⟩ := hS.exists_malloc hsmall
    obtain ⟨rfl, rfl⟩ := EStateM.Result.ok.inj (hrun.symm.trans hrun')
    exact hsound
  | free ha hrun =>
    obtain ⟨s', hrun', hsound⟩ := hS.exists_free hunits ha
    obtain ⟨-, rfl⟩ := EStateM.Result.ok.inj (hrun.symm.trans hrun')
    exact hsound
  | @program s' hfreep hbrk hspace hmem =>
    rcases hS with ⟨hzero, hlive, hregions, hpos, hlow, -⟩ | ⟨P, hP⟩
    · exact .inl ⟨hfreep.trans hzero, hlive, hregions, hpos, hlow.trans hbrk, hspace⟩
    · refine .inr ⟨P.move s' (P.shape.mono (by rwa [hP.process])) (by rw [hfreep, hP.process])
        hspace ?_, rfl, hP.taken, hP.pointer, ?_, hP.spaced, hP.covered, hP.total⟩
      · intro n hn x hlow hhigh
        rw [hmem x (hP.guarded_node hn hlow hhigh), hP.process]
      · intro a ha
        rw [← hP.header a ha]
        exact load_congr fun x hlow hhigh => hmem x (hP.guarded_header ha (by omega) (by omega))

theorem Step.total_le (hstep : Step static S S') : total S.regions ≤ total S'.regions := by
  cases hstep with
  | malloc hsmall hrun =>
    rw [total_append]
    omega
  | free ha hrun => exact le_rfl
  | program hfreep hbrk hspace hmem => exact le_rfl

theorem Reached.sound (hreached : Reached static S) (hunits : total S.regions < 2 ^ 32) :
    Sound static S := by
  induction hreached with
  | start hfreep hpos hbrk hspace => exact .inl ⟨hfreep, rfl, rfl, hpos, hbrk, hspace⟩
  | step hreached hstep ih => exact (ih (hstep.total_le.trans_lt hunits)).step hstep hunits

end Runs

/-- The list of `free` blocks and the live blocks divide the regions. -/
structure Invariant (static : ℕ) (S : Session) (free : List Block) : Prop where
  circular : Circuit (ptr S.process.mem) static (free.map Block.addr)
  entered : S.process.freep ∈ static :: free.map Block.addr
  /-- In address order, so that only the link back to the static header falls. -/
  increasing : (static :: free.map Block.addr).Pairwise fun x y => x < y
  size : ∀ b ∈ free, 1 ≤ b.units ∧ units S.process.mem b.addr = b.units
  spaced : Spaced free
  free_live : ∀ b ∈ free, ∀ a ∈ S.live, Apart b a.block
  live : S.live.Pairwise fun a a' => Apart a.block a'.block
  pointer : ∀ a ∈ S.live, a.p = a.block.addr + 16 ∧
    units S.process.mem a.block.addr = a.block.units
  holds : ∀ a ∈ S.live, a.p + a.nbytes.toNat ≤ a.block.stop
  granular : ∀ b ∈ free ++ S.live.map Allocation.block, Covered S.regions b
  units : total free + total (S.live.map Allocation.block) = total S.regions

variable {S S' : Session}

theorem Accounts.invariant {P : Pool static low} (hP : Accounts P S) :
    Invariant static S P.arena.free := by
  have hstored := P.stored
  have hfreep := P.freep
  rw [hP.process] at hstored hfreep
  have hcovered := hP.covered
  have htotal := hP.total
  have hapart := P.shape.apart
  rw [hP.taken] at hcovered htotal hapart
  refine ⟨hstored.circuit, hfreep, P.shape.nodes_lt.imp fun h => by omega, ?_, hP.spaced, ?_,
    pairwise_map.mp hapart, fun a ha => ⟨hP.pointer a ha, hP.header a ha⟩, ?_, hcovered,
    htotal⟩
  · exact fun b hb => ⟨(P.shape.free_inside hb).1, hstored.size b hb⟩
  · exact fun b hb a ha => P.shape.cross b hb a.block (hP.block_mem ha)
  · intro a ha
    have hbytes := nbytes_le a.nbytes
    have hp := hP.pointer a ha
    have hstop : a.block.stop = a.block.addr + 16 * nunits a.nbytes := rfl
    omega

/-- After any sequence of calls the allocator is unused or has its invariant,
and every call that may follow returns. -/
theorem allocator_invariant {S : Session} (hreached : Reached static S)
    (hunits : total S.regions < 2 ^ 32) :
    ((S.process.freep = 0 ∧ S.live = [] ∧ S.regions = []) ∨ ∃ free, Invariant static S free) ∧
      (∀ nbytes, 16 * nunits nbytes < 2 ^ 31 →
        ∃ p s', (malloc static nbytes).run S.process = .ok p s') ∧
      ∀ a ∈ S.live, ∃ s', (free a.p).run S.process = .ok () s' := by
  have hsound := hreached.sound hunits
  refine ⟨?_, ?_, ?_⟩
  · rcases hsound with ⟨hfreep, hlive, hregions, -⟩ | ⟨P, hP⟩
    · exact .inl ⟨hfreep, hlive, hregions⟩
    · exact .inr ⟨P.arena.free, hP.invariant⟩
  · intro nbytes hsmall
    obtain ⟨p, s', hrun, -⟩ := hsound.exists_malloc hsmall
    exact ⟨p, s', hrun⟩
  · intro a ha
    obtain ⟨s', hrun, -⟩ := hsound.exists_free hunits ha
    exact ⟨s', hrun⟩

inductive Call
  | malloc (nbytes : UInt32)
  | free (a : Allocation)

def call (static : ℕ) (S : Session) : Call → Option Session
  | .malloc nbytes =>
    if 16 * nunits nbytes < 2 ^ 31 then
      match (malloc static nbytes).run S.process with
      | .ok p s' => some ⟨s', if p = 0 then S.live else ⟨p, nbytes⟩ :: S.live,
          obtained S.process s' ++ S.regions⟩
      | .error _ _ => none
    else none
  | .free a =>
    if a ∈ S.live then
      match (free a.p).run S.process with
      | .ok _ s' => some ⟨s', S.live.erase a, S.regions⟩
      | .error _ _ => none
    else none

theorem step_of_call {c : Call} (hcall : call static S c = some S') : Step static S S' := by
  cases c with
  | malloc nbytes =>
    dsimp only [call] at hcall
    split at hcall
    case isTrue hsmall =>
      cases hrun : (malloc static nbytes).run S.process with
      | ok p s' =>
        rw [hrun] at hcall
        obtain rfl := Option.some.inj hcall
        exact .malloc hsmall hrun
      | error e s' =>
        rw [hrun] at hcall
        cases hcall
    case isFalse => cases hcall
  | free a =>
    dsimp only [call] at hcall
    split at hcall
    case isTrue ha =>
      cases hrun : (free a.p).run S.process with
      | ok u s' =>
        rw [hrun] at hcall
        obtain rfl := Option.some.inj hcall
        exact .free ha hrun
      | error e s' =>
        rw [hrun] at hcall
        cases hcall
    case isFalse => cases hcall

theorem reached_of_calls (hreached : Reached static S) {calls : List Call}
    (hcalls : calls.foldlM (call static) S = some S') : Reached static S' := by
  induction calls generalizing S with
  | nil =>
    obtain rfl := Option.some.inj hcalls
    exact hreached
  | cons c rest ih =>
    rw [foldlM_cons] at hcalls
    obtain ⟨S1, hfirst, hrest⟩ := Option.bind_eq_some_iff.mp hcalls
    exact ih (hreached.step (step_of_call hfirst)) hrest

def freshProcess : Process where
  mem := fun _ => 0
  base := 0
  bitmap := 0
  freep := 0
  brk := 8192
  calls := 0
  refusals := 0
  grants := fun _ => true

def Session.view (static : ℕ) (S : Session) : ℕ × ℕ × ℕ × ℕ × ℕ :=
  (ptr S.process.mem static, units S.process.mem (ptr S.process.mem static),
    ptr S.process.mem (ptr S.process.mem static), S.live.length, total S.regions)

theorem fresh_reached : Reached 4096 ⟨freshProcess, [], []⟩ :=
  .start rfl (by decide) (by decide) (by decide)

def sampleCalls : List Call := [.malloc 100, .malloc 200, .free ⟨73616, 100⟩]

theorem sample_eval :
    (sampleCalls.foldlM (call 4096) ⟨freshProcess, [], []⟩).map (Session.view 4096) =
      some (8192, 4074, 73600, 1, 4096) := by
  decide +kernel

theorem allocator_invariant_sample : ∃ S, Reached 4096 S ∧ total S.regions = 4096 ∧
    S.live.length = 1 ∧ ptr S.process.mem 8192 = 73600 ∧
    (((S.process.freep = 0 ∧ S.live = [] ∧ S.regions = []) ∨ ∃ free, Invariant 4096 S free) ∧
      (∀ nbytes, 16 * nunits nbytes < 2 ^ 31 →
        ∃ p s', (malloc 4096 nbytes).run S.process = .ok p s') ∧
      ∀ a ∈ S.live, ∃ s', (free a.p).run S.process = .ok () s') := by
  obtain ⟨S, hS, hview⟩ := Option.map_eq_some_iff.mp sample_eval
  have hreached := reached_of_calls fresh_reached hS
  simp only [Session.view, Prod.mk.injEq] at hview
  obtain ⟨hfirst, -, hsecond, hlive, hunits⟩ := hview
  rw [hfirst] at hsecond
  exact ⟨S, hreached, hunits, hlive, hsecond, allocator_invariant hreached (by omega)⟩

/-- As many blocks of the largest size as it takes to obtain `2 ^ 32` units,
given back from the lowest to the highest. -/
def overflowCalls : List Call :=
  List.replicate 33 (.malloc 2147483616) ++
    (List.range 33).map fun i => .free ⟨8208 + i * 2147483632, 2147483616⟩

theorem overflow_eval :
    (overflowCalls.foldlM (call 4096) ⟨freshProcess, [], []⟩).map (Session.view 4096) =
      some (8192, 134217695, 4096, 0, 4429184991) := by
  decide +kernel

/-- When the last block is joined to the others, the 32-bit size of the one
free block starts again from zero. -/
theorem joined_size_wraps : ∃ S, Reached 4096 S ∧
    ¬ ((S.process.freep = 0 ∧ S.live = [] ∧ S.regions = []) ∨
      ∃ free, Invariant 4096 S free) := by
  obtain ⟨S, hS, hview⟩ := Option.map_eq_some_iff.mp overflow_eval
  simp only [Session.view, Prod.mk.injEq] at hview
  obtain ⟨hfirst, hsize, hsecond, hlive, hunits⟩ := hview
  rw [hfirst] at hsize hsecond
  refine ⟨S, reached_of_calls fresh_reached hS, ?_⟩
  rintro (⟨-, -, hregions⟩ | ⟨free, hfree⟩)
  · rw [hregions] at hunits
    exact absurd hunits (by decide)
  · have htotal := hfree.units
    rw [length_eq_zero_iff.mp hlive, map_nil, total_nil, hunits] at htotal
    cases free with
    | nil => exact absurd htotal (by decide)
    | cons b rest =>
      have haddr : b.addr = 8192 := by
        rw [← hfirst]
        exact hfree.circular.next_head.symm
      have hb := (hfree.size b (by simp)).2
      rw [haddr, hsize] at hb
      cases rest with
      | nil =>
        rw [total_cons, total_nil] at htotal
        omega
      | cons c rest =>
        have hlink : ptr S.process.mem b.addr = c.addr := by
          have hchain := hfree.circular
          exact (isChain_cons_cons.mp (isChain_cons_cons.mp hchain).2).1
        have hlt := (pairwise_cons.mp hfree.increasing).1 c.addr (by simp)
        rw [haddr, hsecond] at hlink
        omega

end Xv6MallocLab.Umalloc
