import Xv6MallocLab.Umalloc
import Xv6MallocLab.CircularList

/-!
# The pool behind the K&R allocator

The free blocks in address order and the blocks handed out.  All of them lie between a
lower limit and the break and none overlap.  `Stored` says that a memory represents the
pool.
-/

namespace Xv6MallocLab.Umalloc

open ByteMemory CircularList List

attribute [local irreducible] load store

/-- A block with its header, in units of 16 bytes. -/
structure Block where
  addr : ℕ
  units : ℕ
  deriving DecidableEq

def Block.stop (b : Block) : ℕ := b.addr + 16 * b.units

def Apart (b c : Block) : Prop := b.stop ≤ c.addr ∨ c.stop ≤ b.addr

/-- The free blocks by address, and those handed out. -/
structure Arena where
  free : List Block
  taken : List Block

def Arena.nodes (A : Arena) (static : ℕ) : List ℕ := static :: A.free.map Block.addr

/-- All blocks lie between `low` and `high`, and none overlap. -/
structure Arena.Shape (A : Arena) (static low high : ℕ) : Prop where
  static_pos : 0 < static
  static_le : static + 16 ≤ low
  low_le : low ≤ high
  inside : ∀ b ∈ A.free ++ A.taken, 1 ≤ b.units ∧ low ≤ b.addr ∧ b.stop ≤ high
  sorted : A.free.Pairwise fun b c => b.stop ≤ c.addr
  apart : A.taken.Pairwise Apart
  cross : ∀ b ∈ A.free, ∀ c ∈ A.taken, Apart b c

/-- The free blocks are linked in a ring through the static one. -/
structure Arena.Stored (A : Arena) (static : ℕ) (m : Memory) : Prop where
  circuit : Circuit (ptr m) static (A.free.map Block.addr)
  static : units m static = 0
  size : ∀ b ∈ A.free, units m b.addr = b.units

namespace Arena.Shape

variable {A : Arena} {static low high : ℕ}

theorem free_inside (hA : A.Shape static low high) {b : Block} (hb : b ∈ A.free) :
    1 ≤ b.units ∧ low ≤ b.addr ∧ b.stop ≤ high :=
  hA.inside b (mem_append_left _ hb)

theorem free_apart (hA : A.Shape static low high) {b c : Block} (hb : b ∈ A.free)
    (hc : c ∈ A.free) : b = c ∨ Apart b c := by
  by_cases heq : b = c
  · exact .inl heq
  · right
    have hsymm : Std.Symm Apart := ⟨fun _ _ h => h.symm⟩
    have hpair : A.free.Pairwise Apart := hA.sorted.imp fun h => .inl h
    exact hpair.forall hb hc heq

theorem mem_nodes {x : ℕ} : x ∈ A.nodes static ↔ x = static ∨ ∃ b ∈ A.free, b.addr = x := by
  simp [Arena.nodes]

section

variable (hA : A.Shape static low high)

include hA

theorem nodes_lt : (A.nodes static).Pairwise fun x y => x + 16 ≤ y := by
  refine pairwise_cons.mpr ⟨?_, ?_⟩
  · intro y hy
    obtain ⟨b, hb, rfl⟩ := mem_map.mp hy
    have hlow := (hA.free_inside hb).2.1
    have hstatic := hA.static_le
    omega
  · rw [pairwise_map]
    refine hA.sorted.imp_of_mem ?_
    intro b c hb _ hle
    have hpos := (hA.free_inside hb).1
    unfold Block.stop at hle
    omega

theorem nodes_nodup : (A.nodes static).Nodup := hA.nodes_lt.imp fun h => by omega

theorem node_apart {x y : ℕ} (hx : x ∈ A.nodes static) (hy : y ∈ A.nodes static) :
    x = y ∨ x + 16 ≤ y ∨ y + 16 ≤ x := by
  by_cases heq : x = y
  · exact .inl heq
  · right
    have hsymm : Std.Symm fun x y : ℕ => x + 16 ≤ y ∨ y + 16 ≤ x := ⟨fun _ _ h => h.symm⟩
    have hpair : (A.nodes static).Pairwise fun x y => x + 16 ≤ y ∨ y + 16 ≤ x :=
      hA.nodes_lt.imp fun h => .inl h
    exact hpair.forall hx hy heq

theorem node_block {x : ℕ} {b : Block} (hx : x ∈ A.nodes static) (hb : b ∈ A.free) :
    x = b.addr ∨ x + 16 ≤ b.addr ∨ b.stop ≤ x := by
  rcases mem_nodes.mp hx with rfl | ⟨c, hc, rfl⟩
  · have hlow := (hA.free_inside hb).2.1
    have hstatic := hA.static_le
    omega
  · rcases hA.free_apart hc hb with rfl | hlt | hlt
    · exact .inl rfl
    · have hpos := (hA.free_inside hc).1
      unfold Block.stop at hlt
      omega
    · exact .inr (.inr hlt)

theorem node_bounds {x : ℕ} (hx : x ∈ A.nodes static) :
    (x = static ∨ low ≤ x) ∧ static ≤ x ∧ x + 16 ≤ high := by
  have hstatic := hA.static_le
  have hlow := hA.low_le
  rcases mem_nodes.mp hx with rfl | ⟨b, hb, rfl⟩
  · exact ⟨.inl rfl, le_rfl, by omega⟩
  · obtain ⟨hpos, hle, hstop⟩ := hA.free_inside hb
    unfold Block.stop at hstop
    exact ⟨.inr hle, by omega, by omega⟩

theorem length_le : A.free.length ≤ high := by
  have hcount : ∀ (l : List ℕ) (a : ℕ), (∀ x ∈ l, a ≤ x ∧ x + 16 ≤ high) →
      l.Pairwise (fun x y => x + 16 ≤ y) → a ≤ high → a + l.length ≤ high := by
    intro l
    induction l with
    | nil => exact fun a _ _ ha => ha
    | cons x l ih =>
      intro a hin hpair ha
      obtain ⟨hfirst, hrest⟩ := pairwise_cons.mp hpair
      have hx := hin x (by simp)
      have hstep := ih (x + 16) (fun y hy => ⟨hfirst y hy, (hin y (by simp [hy])).2⟩) hrest hx.2
      simp only [length_cons]
      omega
  have hnodes := (pairwise_cons.mp hA.nodes_lt).2
  have hall := hcount (A.free.map Block.addr) 0 (fun x hx =>
    ⟨Nat.zero_le _, (hA.node_bounds (mem_cons_of_mem static hx)).2.2⟩) hnodes (Nat.zero_le _)
  rw [length_map] at hall
  omega

theorem mono {high' : ℕ} (hle : high ≤ high') : A.Shape static low high' := by
  refine ⟨hA.static_pos, hA.static_le, hA.low_le.trans hle, ?_, hA.sorted, hA.apart, hA.cross⟩
  intro b hb
  obtain ⟨hpos, hlow, hstop⟩ := hA.inside b hb
  exact ⟨hpos, hlow, hstop.trans hle⟩

end

end Arena.Shape

theorem Arena.Stored.congr {A : Arena} {static : ℕ} {m m' : Memory} (hm : A.Stored static m)
    (hmem : ∀ n ∈ A.nodes static, ∀ x, n ≤ x → x < n + 16 → m' x = m x) : A.Stored static m' := by
  have hptr : ∀ n ∈ A.nodes static, ptr m' n = ptr m n :=
    fun n hn => load_congr fun x hlow hhigh => hmem n hn x (by omega) (by omega)
  have hunits : ∀ n ∈ A.nodes static, units m' n = units m n :=
    fun n hn => load_congr fun x hlow hhigh => hmem n hn x (by omega) (by omega)
  refine ⟨hm.circuit.congr hptr, ?_, ?_⟩
  · rw [hunits static mem_cons_self]
    exact hm.static
  · intro b hb
    rw [hunits b.addr (Arena.Shape.mem_nodes.mpr (.inr ⟨b, hb, rfl⟩))]
    exact hm.size b hb

/-- A process whose memory represents a well-formed arena. -/
structure Pool (static low : ℕ) where
  arena : Arena
  process : Process
  shape : arena.Shape static low process.brk
  stored : arena.Stored static process.mem
  freep : process.freep ∈ arena.nodes static
  space : process.brk < 2 ^ 64

def Pool.move {static low low' : ℕ} (P : Pool static low) (s : Process)
    (hshape : P.arena.Shape static low' s.brk) (hfreep : s.freep = P.process.freep)
    (hspace : s.brk < 2 ^ 64)
    (hmem : ∀ n ∈ P.arena.nodes static, ∀ x, n ≤ x → x < n + 16 → s.mem x = P.process.mem x) :
    Pool static low' where
  arena := P.arena
  process := s
  shape := hshape
  stored := P.stored.congr hmem
  freep := by
    rw [hfreep]
    exact P.freep
  space := hspace

def Footprint (static low high x : ℕ) : Prop :=
  (static ≤ x ∧ x < static + 16) ∨ (low ≤ x ∧ x < high)

/-- What no call on the pool changes. -/
structure Frame {static low : ℕ} (P P' : Pool static low) : Prop where
  confined : ∀ x, ¬ Footprint static low P'.process.brk x → P'.process.mem x = P.process.mem x
  brk_le : P.process.brk ≤ P'.process.brk
  base : P'.process.base = P.process.base
  bitmap : P'.process.bitmap = P.process.bitmap
  refusals : P'.process.refusals = P.process.refusals
  grants : P'.process.grants = P.process.grants

theorem Frame.trans {static low : ℕ} {P P1 P2 : Pool static low} (f : Frame P P1)
    (g : Frame P1 P2) : Frame P P2 := by
  refine ⟨?_, f.brk_le.trans g.brk_le, g.base.trans f.base, g.bitmap.trans f.bitmap,
    g.refusals.trans f.refusals, g.grants.trans f.grants⟩
  intro x hx
  rw [g.confined x hx]
  refine f.confined x fun hin => hx ?_
  have hle := g.brk_le
  rcases hin with hin | hin
  · exact .inl hin
  · exact .inr ⟨hin.1, by omega⟩

section Nodes

variable {static low : ℕ} (P : Pool static low)

theorem Pool.node_lt {x : ℕ} (hx : x ∈ P.arena.nodes static) : x + 16 ≤ P.process.brk :=
  (P.shape.node_bounds hx).2.2

theorem Pool.node_of_mem {c : Block} (hc : c ∈ P.arena.free) : c.addr ∈ P.arena.nodes static :=
  Arena.Shape.mem_nodes.mpr (.inr ⟨c, hc, rfl⟩)

theorem Pool.freep_ne_zero : P.process.freep ≠ 0 := by
  have hlow := (P.shape.node_bounds P.freep).2.1
  have hstatic := P.shape.static_pos
  omega

end Nodes

section Unlink

variable {static low : ℕ} {before after : List Block} {b : Block}

def lastNode (static : ℕ) (before : List Block) : ℕ :=
  (static :: before.map Block.addr).getLast (by simp)

theorem lastNode_mem (static : ℕ) (before : List Block) :
    lastNode static before ∈ static :: before.map Block.addr := getLast_mem _

theorem lastNode_nodes {A : Arena} {rest : List Block} (hfree : A.free = before ++ rest) :
    lastNode static before ∈ A.nodes static := by
  have hmem := lastNode_mem static before
  unfold Arena.nodes
  simp only [hfree, map_append, mem_cons, mem_append] at hmem ⊢
  tauto

def Arena.unlink (A : Arena) (before after : List Block) (b : Block) : Arena where
  free := before ++ after
  taken := b :: A.taken

theorem Arena.Shape.unlink {A : Arena} {high : ℕ} (hA : A.Shape static low high)
    (hfree : A.free = before ++ b :: after) : (A.unlink before after b).Shape static low high := by
  have hsorted := hA.sorted
  rw [hfree, pairwise_append, pairwise_cons] at hsorted
  obtain ⟨hbefore, ⟨hnext, hafter⟩, hacross⟩ := hsorted
  refine ⟨hA.static_pos, hA.static_le, hA.low_le, ?_, ?_, ?_, ?_⟩
  · intro c hc
    apply hA.inside
    simp only [Arena.unlink, hfree, mem_append, mem_cons] at hc ⊢
    tauto
  · refine pairwise_append.mpr ⟨hbefore, hafter, ?_⟩
    intro c hc d hd
    exact hacross c hc d (mem_cons_of_mem b hd)
  · refine pairwise_cons.mpr ⟨?_, hA.apart⟩
    intro c hc
    exact hA.cross b (by simp [hfree]) c hc
  · intro c hc d hd
    have hc : c ∈ before ++ after := hc
    rcases mem_cons.mp hd with rfl | hd
    · rcases mem_append.mp hc with hc | hc
      · exact .inl (hacross c hc d mem_cons_self)
      · exact .inr (hnext c hc)
    · refine hA.cross c ?_ d hd
      simp only [hfree, mem_append, mem_cons] at hc ⊢
      tauto

variable (P : Pool static low)

theorem Pool.ptr_lt (x : ℕ) : ptr P.process.mem x < 2 ^ 64 := load_lt 8 _ _

theorem Pool.ptr_store {x y : ℕ} (hx : x ∈ P.arena.nodes static) (hy : y ∈ P.arena.nodes static)
    (hne : y ≠ x) (v : ℕ) : ptr (store 8 P.process.mem x v) y = ptr P.process.mem y := by
  have hapart := P.shape.node_apart hx hy
  exact load_store_of_disjoint (by omega)

theorem Pool.units_store {x y : ℕ} (hx : x ∈ P.arena.nodes static)
    (hy : y ∈ P.arena.nodes static) (v : ℕ) :
    units (store 8 P.process.mem x v) y = units P.process.mem y := by
  have hapart := P.shape.node_apart hx hy
  exact load_store_of_disjoint (by omega)

theorem Pool.stored_unlink (hfree : P.arena.free = before ++ b :: after) :
    (P.arena.unlink before after b).Stored static
      (store 8 P.process.mem (lastNode static before) (ptr P.process.mem b.addr)) := by
  have hlast : lastNode static before ∈ P.arena.nodes static := lastNode_nodes hfree
  have hmem : ∀ c ∈ before ++ after, c ∈ P.arena.free := by
    intro c hc
    simp only [hfree, mem_append, mem_cons] at hc ⊢
    tauto
  have hmap : P.arena.free.map Block.addr =
      before.map Block.addr ++ b.addr :: after.map Block.addr := by simp [hfree]
  have hcircuit := P.stored.circuit
  have hnodup := P.shape.nodes_nodup
  rw [Arena.nodes] at hnodup
  rw [hmap] at hcircuit hnodup
  refine ⟨?_, ?_, ?_⟩
  · change Circuit _ static ((before ++ after).map Block.addr)
    rw [map_append]
    refine hcircuit.remove hnodup ?_ ?_
    · exact load_store_of_lt (P.ptr_lt _)
    · intro y hy hne
      refine P.ptr_store hlast ?_ hne _
      rw [Arena.nodes, hmap]
      simp only [mem_cons, mem_append] at hy ⊢
      tauto
  · rw [P.units_store hlast mem_cons_self]
    exact P.stored.static
  · intro c hc
    rw [P.units_store hlast (P.node_of_mem (hmem c hc))]
    exact P.stored.size c (hmem c hc)

def Pool.unlink (hfree : P.arena.free = before ++ b :: after) : Pool static low where
  arena := P.arena.unlink before after b
  process := { P.process with
    mem := store 8 P.process.mem (lastNode static before) (ptr P.process.mem b.addr)
    freep := lastNode static before }
  shape := P.shape.unlink hfree
  stored := P.stored_unlink hfree
  freep := lastNode_nodes rfl
  space := P.space

end Unlink

section Shrink

variable {static low n : ℕ} {before after : List Block} {b : Block}

def Block.front (b : Block) (n : ℕ) : Block := ⟨b.addr, b.units - n⟩

def Block.back (b : Block) (n : ℕ) : Block := ⟨b.addr + 16 * (b.units - n), n⟩

def Arena.shrink (A : Arena) (before after : List Block) (b : Block) (n : ℕ) : Arena where
  free := before ++ b.front n :: after
  taken := b.back n :: A.taken

theorem Block.front_stop (b : Block) (n : ℕ) : (b.front n).stop = (b.back n).addr := rfl

theorem Block.back_stop (hn : n ≤ b.units) : (b.back n).stop = b.stop := by
  unfold Block.stop Block.back
  dsimp only
  omega

theorem Block.front_le (b : Block) (n : ℕ) : (b.front n).stop ≤ b.stop := by
  unfold Block.stop Block.front
  dsimp only
  omega

theorem Block.back_le (b : Block) (n : ℕ) : b.addr ≤ (b.back n).addr := by
  unfold Block.back
  dsimp only
  omega

theorem Arena.Shape.shrink {A : Arena} {high : ℕ} (hA : A.Shape static low high)
    (hfree : A.free = before ++ b :: after) (hpos : 1 ≤ n) (hn : n < b.units) :
    (A.shrink before after b n).Shape static low high := by
  have hsorted := hA.sorted
  rw [hfree, pairwise_append, pairwise_cons] at hsorted
  obtain ⟨hbefore, ⟨hnext, hafter⟩, hacross⟩ := hsorted
  have hb : b ∈ A.free := by simp [hfree]
  have hinside := hA.free_inside hb
  have hfront := b.front_le n
  have hback := Block.back_stop (b := b) hn.le
  have hstart := b.back_le n
  have hold : ∀ c ∈ before ++ after, c ∈ A.free := by
    intro c hc
    simp only [hfree, mem_append, mem_cons] at hc ⊢
    tauto
  refine ⟨hA.static_pos, hA.static_le, hA.low_le, ?_, ?_, ?_, ?_⟩
  · intro c hc
    simp only [Arena.shrink, mem_append, mem_cons] at hc
    rcases hc with (hc | rfl | hc) | (rfl | hc)
    · exact hA.free_inside (hold c (by simp [hc]))
    · exact ⟨by unfold Block.front; dsimp only; omega, hinside.2.1, by omega⟩
    · exact hA.free_inside (hold c (by simp [hc]))
    · exact ⟨hpos, by omega, by omega⟩
    · exact hA.inside c (by simp [hc])
  · refine pairwise_append.mpr ⟨hbefore, pairwise_cons.mpr ⟨?_, hafter⟩, ?_⟩
    · intro c hc
      exact hfront.trans (hnext c hc)
    · intro c hc d hd
      rcases mem_cons.mp hd with rfl | hd
      · exact hacross c hc b mem_cons_self
      · exact hacross c hc d (mem_cons_of_mem b hd)
  · refine pairwise_cons.mpr ⟨?_, hA.apart⟩
    intro c hc
    rcases hA.cross b hb c hc with hle | hle
    · exact .inl (hback.le.trans hle)
    · exact .inr (hle.trans hstart)
  · intro c hc d hd
    simp only [Arena.shrink, mem_append, mem_cons] at hc hd
    rcases hd with rfl | hd
    · rcases hc with hc | rfl | hc
      · exact .inl ((hacross c hc b mem_cons_self).trans hstart)
      · exact .inl (b.front_stop n).le
      · exact .inr (hback.le.trans (hnext c hc))
    · rcases hc with hc | rfl | hc
      · exact hA.cross c (hold c (by simp [hc])) d hd
      · rcases hA.cross b hb d hd with hle | hle
        · exact .inl (hfront.trans hle)
        · exact .inr hle
      · exact hA.cross c (hold c (by simp [hc])) d hd

variable (P : Pool static low)

theorem Pool.units_lt {c : Block} (hc : c ∈ P.arena.free) : c.units < 2 ^ 32 := by
  rw [← P.stored.size c hc]
  exact load_lt 4 _ _

def shrinkMem (m : Memory) (b : Block) (n : ℕ) : Memory :=
  store 4 (store 4 m (b.addr + 8) (b.units - n)) ((b.back n).addr + 8) n

theorem Pool.stored_shrink (hfree : P.arena.free = before ++ b :: after) (hpos : 1 ≤ n)
    (hn : n < b.units) :
    (P.arena.shrink before after b n).Stored static (shrinkMem P.process.mem b n) := by
  have hb : b ∈ P.arena.free := by simp [hfree]
  have hlt := P.units_lt hb
  have hstop : (b.back n).addr + 16 ≤ b.stop ∧ b.addr + 16 ≤ (b.back n).addr := by
    unfold Block.stop Block.back
    dsimp only
    omega
  have hold : ∀ c ∈ before ++ after, c ∈ P.arena.free := by
    intro c hc
    simp only [hfree, mem_append, mem_cons] at hc ⊢
    tauto
  have hptr : ∀ x ∈ P.arena.nodes static,
      ptr (shrinkMem P.process.mem b n) x = ptr P.process.mem x := by
    intro x hx
    have hapart := P.shape.node_block hx hb
    unfold ptr shrinkMem
    simp (disch := omega) only [load_store_of_disjoint]
  have hunits : ∀ x ∈ P.arena.nodes static, x ≠ b.addr →
      units (shrinkMem P.process.mem b n) x = units P.process.mem x := by
    intro x hx hne
    have hapart := P.shape.node_block hx hb
    unfold units shrinkMem
    simp (disch := omega) only [load_store_of_disjoint]
  have hother : ∀ c ∈ before ++ after, c.addr ≠ b.addr := by
    intro c hc
    have hpos := (P.shape.free_inside (hold c hc)).1
    have hsorted := P.shape.sorted
    rw [hfree, pairwise_append, pairwise_cons] at hsorted
    rcases mem_append.mp hc with hc | hc
    · have hle := hsorted.2.2 c hc b mem_cons_self
      unfold Block.stop at hle
      omega
    · have hle := hsorted.2.1.1 c hc
      unfold Block.stop at hle
      omega
  have hkept : ∀ c ∈ before ++ after,
      units (shrinkMem P.process.mem b n) c.addr = c.units := by
    intro c hc
    rw [hunits c.addr (P.node_of_mem (hold c hc)) (hother c hc)]
    exact P.stored.size c (hold c hc)
  refine ⟨?_, ?_, ?_⟩
  · have hmap : (P.arena.shrink before after b n).free.map Block.addr =
        P.arena.free.map Block.addr := by
      rw [hfree, Arena.shrink]
      simp [Block.front]
    rw [hmap]
    exact P.stored.circuit.congr hptr
  · have hstatic := P.shape.static_le
    have hlow := (P.shape.free_inside hb).2.1
    rw [hunits static mem_cons_self (by omega)]
    exact P.stored.static
  · intro c hc
    simp only [Arena.shrink, mem_append, mem_cons] at hc
    rcases hc with hc | rfl | hc
    · exact hkept c (by simp [hc])
    · unfold units shrinkMem
      rw [load_store_of_disjoint (by change b.addr + 8 + 4 ≤ _ ∨ _; omega)]
      exact load_store_of_lt (by omega)
    · exact hkept c (by simp [hc])

def Pool.shrink (hfree : P.arena.free = before ++ b :: after) (hpos : 1 ≤ n) (hn : n < b.units)
    {q : ℕ} (hq : q ∈ P.arena.nodes static) : Pool static low where
  arena := P.arena.shrink before after b n
  process := { P.process with mem := shrinkMem P.process.mem b n, freep := q }
  shape := P.shape.shrink hfree hpos hn
  stored := P.stored_shrink hfree hpos hn
  freep := by
    have hmap : (P.arena.shrink before after b n).nodes static = P.arena.nodes static := by
      rw [Arena.nodes, Arena.nodes, hfree, Arena.shrink]
      simp [Block.front]
    rw [hmap]
    exact hq
  space := P.space

end Shrink

end Xv6MallocLab.Umalloc
