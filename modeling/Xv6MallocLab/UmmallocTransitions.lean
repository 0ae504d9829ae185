import Xv6MallocLab.UmmallocPrimitives

/-!
# Transitions of the arena

Take a free chunk out of its list, put one in, mark a held chunk as used, cut it in two,
turn the sentinel into a fresh chunk, and merge two held neighbours: each keeps the arena
well formed and stored.
-/

namespace Xv6MallocLab.Ummalloc

open ByteMemory CircularList Function List

attribute [local irreducible] load store

/-- The heap and the list heads, which is all the allocator writes to. -/
def Footprint (L : Layout) (first base : ℕ) : Set ℕ :=
  { x | (first ≤ x ∧ x < base) ∨ ∃ i ≤ 64, L.head i ≤ x ∧ x < L.head i + 16 }

theorem Footprint.mono {L : Layout} {first base base' x : ℕ} (hle : base ≤ base')
    (hx : x ∈ Footprint L first base) : x ∈ Footprint L first base' := by
  rcases hx with ⟨hlow, hhigh⟩ | hhead
  · exact .inl ⟨hlow, by omega⟩
  · exact .inr hhead

namespace Arena.Shape

variable {A : Arena} {L : Layout} {held : Set ℕ} {first base : ℕ}

section

variable (hA : A.Shape held first base)

include hA

variable {n : ℕ} {c : Chunk}

theorem node_footprint {x : ℕ} (hn : A.NodeAt L n) (hx : x ∉ Footprint L first base) :
    x < n ∨ n + 16 ≤ x := by
  by_contra hin
  apply hx
  rcases hn with ⟨i, hi, rfl⟩ | ⟨c, hc, hcs, rfl⟩
  · exact .inr ⟨i, hi, by omega, by omega⟩
  · have hfirst := hA.first_le hc
    have hend := hA.end_le hc
    have hsize := hA.size_cases hc
    unfold Chunk.node at hin
    exact .inl ⟨by omega, by omega⟩

theorem ring_disjoint (hL : L.Below first) {i j : ℕ} (hi : 1 ≤ i) (hi' : i ≤ 64) (hj : 1 ≤ j)
    (hj' : j ≤ 64) (hni : n ∈ L.head i :: A.bins i) (hnj : n ∈ L.head j :: A.bins j) : i = j := by
  rcases mem_cons.mp hni with rfl | hmi
  · rcases mem_cons.mp hnj with heq | hmj
    · by_contra hne
      have := hL.head_apart hi' hj' hne
      omega
    · exact absurd hmj (hA.head_not_mem hL hi' hj hj')
  · rcases mem_cons.mp hnj with rfl | hmj
    · exact absurd hmi (hA.head_not_mem hL hj' hi hi')
    · exact hA.bins_disjoint hi hi' hj hj' hmi hmj

theorem free_chunk (hc : c ∈ A.chunks) (hfree : c.used = false) (hheld : c.addr ∉ held) :
    48 ≤ c.size ∧ c.size ≤ 65536 := by
  have hne : c.size ≠ 0 := by
    intro hzero
    rw [(hA.top_unique hc hzero).1] at hfree
    exact Bool.noConfusion hfree
  obtain ⟨pre, d, post, hsplit⟩ := hA.succ_of_size hc hne
  have hlink := hA.link_of_split hsplit
  exact ⟨hlink.large, (hlink.free hheld hfree).2.2⟩

theorem prevUsed_of_free (hc : c ∈ A.chunks) (hfree : c.used = false)
    (hheld : ∀ a ∈ held, c.addr ≤ a) : c.prevUsed = true := by
  obtain ⟨pre, post, hsplit⟩ := append_of_mem hc
  obtain ⟨f, rest, hstart, -, hprev⟩ := hA.start
  rcases eq_nil_or_concat pre with rfl | ⟨pre, p, rfl⟩
  · rw [hsplit, nil_append, List.cons.injEq] at hstart
    rw [hstart.1]
    exact hprev
  · have hsplit' : A.chunks = pre ++ p :: c :: post := by
      rw [hsplit]
      simp
    have hlink := hA.link_of_split hsplit'
    have hout : p.addr ∉ held := by
      intro hin
      have hle := hheld p.addr hin
      have hlarge := hlink.large
      have hadj := hlink.adjacent
      omega
    cases hp : p.used with
    | true => rw [hlink.prevUsed hout, hp]
    | false =>
      rw [(hlink.free hout hp).2.1] at hfree
      exact Bool.noConfusion hfree

end

end Arena.Shape

section Link

variable {A : Arena} {L : Layout} {held : Set ℕ} {first base : ℕ} {m : Memory} {a b : ℕ}

section

variable (hA : A.Shape held first base)

include hA

theorem Arena.Shape.link_header (hL : L.Below first) (ha : A.NodeAt L a) (hb : A.NodeAt L b)
    {c : Chunk} (hc : c ∈ A.chunks) :
    load 4 (linkMem m a b) (c.addr + 4) = load 4 m (c.addr + 4) ∧
      load 4 (linkMem m a b) c.addr = load 4 m c.addr := by
  have h1 := hA.node_header hL ha hc
  have h2 := hA.node_header hL hb hc
  exact ⟨load_linkMem (by omega) (by omega), load_linkMem (by omega) (by omega)⟩

variable {n : ℕ}

theorem Arena.Shape.link_next (hL : L.Below first) (hbase : base < 2 ^ 64) (ha : A.NodeAt L a)
    (hb : A.NodeAt L b) (hn : A.NodeAt L n) :
    nodeNext (linkMem m a b) n = if n = a then b else nodeNext m n := by
  have hlt := hA.node_lt hL hb
  exact nodeNext_linkMem (hA.node_apart hL hn ha) (hA.node_apart hL hn hb) (by omega)

theorem Arena.Shape.link_prev (hL : L.Below first) (hbase : base < 2 ^ 64) (ha : A.NodeAt L a)
    (hb : A.NodeAt L b) (hn : A.NodeAt L n) :
    nodePrev (linkMem m a b) n = if n = b then a else nodePrev m n := by
  have hlt := hA.node_lt hL ha
  exact nodePrev_linkMem (hA.node_apart hL hn ha) (hA.node_apart hL hn hb) (by omega)

theorem Arena.Shape.link_ring (hL : L.Below first) (hbase : base < 2 ^ 64) (ha : A.NodeAt L a)
    (hb : A.NodeAt L b) {j : ℕ} (hj : 1 ≤ j) (hj' : j ≤ 64)
    (hring : Ring (nodeNext m) (nodePrev m) (L.head j) (A.bins j))
    (hna : a ∉ L.head j :: A.bins j) (hnb : b ∉ L.head j :: A.bins j) :
    Ring (nodeNext (linkMem m a b)) (nodePrev (linkMem m a b)) (L.head j) (A.bins j) := by
  apply hring.congr
  · intro n hn
    rw [hA.link_next hL hbase ha hb (hA.ring_nodeAt hj hj' hn), if_neg]
    rintro rfl
    exact hna hn
  · intro n hn
    rw [hA.link_prev hL hbase ha hb (hA.ring_nodeAt hj hj' hn), if_neg]
    rintro rfl
    exact hnb hn

end

end Link

def Arena.take (A : Arena) (i n : ℕ) : Arena :=
  { A with bins := update A.bins i ((A.bins i).erase n) }

theorem Arena.take_bins_self (A : Arena) (i n : ℕ) :
    (A.take i n).bins i = (A.bins i).erase n := update_self i _ A.bins

variable {i j : ℕ}

theorem Arena.take_bins_of_ne (A : Arena) (n : ℕ) (hj : j ≠ i) :
    (A.take i n).bins j = A.bins j := update_of_ne hj _ A.bins

def takeState (A : Arena) (i n : ℕ) (s : Process) : Process :=
  { s with
    mem := linkMem s.mem (nodePrev s.mem n) (nodeNext s.mem n)
    bitmap := if A.bins i = [n] then s.bitmap &&& ~~~ bitAt i else s.bitmap }

section Take

variable {A : Arena} {L : Layout} {held : Set ℕ} {first : ℕ} {s : Process} {c : Chunk}

variable {base : ℕ} {bitmap : BitVec 64}

theorem Arena.Shape.take (hA : A.Shape held first base) (hc : c ∈ A.chunks)
    (hfree : c.used = false) (hheld : c.addr ∉ held) :
    (A.take (slotIndex c.size) c.node).Shape (insert c.addr held) first base := by
  obtain ⟨hlow, hhigh⟩ := hA.free_chunk hc hfree hheld
  obtain ⟨hi, hi'⟩ := slotIndex_bounds hlow hhigh
  have hbins : ∀ j, j ≠ slotIndex c.size →
      (A.take (slotIndex c.size) c.node).bins j = A.bins j := fun j => A.take_bins_of_ne c.node
  have hself := A.take_bins_self (slotIndex c.size) c.node
  refine ⟨?_, hA.start, hA.top, hA.aligned, ?_, ?_, ?_, ?_⟩
  · apply hA.chain.imp_of_mem_imp
    intro x d hx hd hlink
    refine { hlink with heldUsed := ?_, prevUsed := ?_, free := ?_ }
    · intro hin
      rcases hin with heq | hin
      · rw [hA.eq_of_addr hx hc heq] at hlink
        exact (hlink.free hheld hfree).2.1
      · exact hlink.heldUsed hin
    · intro hout
      exact hlink.prevUsed fun hin => hout (.inr hin)
    · intro hout
      exact hlink.free fun hin => hout (.inr hin)
  · intro j hj hj' n
    by_cases heq : j = slotIndex c.size
    · subst heq
      rw [hself, (hA.nodup _).mem_erase_iff, hA.free_iff _ hj hj']
      constructor
      · rintro ⟨hne, addr, size, hhas, hout, rfl, hslot⟩
        refine ⟨addr, size, hhas, ?_, rfl, hslot⟩
        rintro (rfl | hin)
        · exact hne rfl
        · exact hout hin
      · rintro ⟨addr, size, hhas, hout, rfl, hslot⟩
        refine ⟨?_, addr, size, hhas, fun hin => hout (.inr hin), rfl, hslot⟩
        intro hnode
        apply hout
        unfold Chunk.node at hnode
        exact .inl (by omega)
    · rw [hbins j heq, hA.free_iff j hj hj']
      constructor
      · rintro ⟨addr, size, hhas, hout, rfl, hslot⟩
        refine ⟨addr, size, hhas, ?_, rfl, hslot⟩
        rintro (rfl | hin)
        · apply heq
          rw [← hslot, (hA.has_unique hhas ⟨c, hc, rfl, rfl, rfl⟩).1]
        · exact hout hin
      · rintro ⟨addr, size, hhas, hout, rfl, hslot⟩
        exact ⟨addr, size, hhas, fun hin => hout (.inr hin), rfl, hslot⟩
  · intro n hn
    rw [hbins 1 (by omega), hbins 64 (by omega)] at hn
    obtain ⟨addr, size, hhas, hout, rfl, hsize⟩ := hA.page n hn
    refine ⟨addr, size, hhas, ?_, rfl, hsize⟩
    rintro (rfl | hin)
    · have hused := (hA.has_unique hhas ⟨c, hc, rfl, rfl, hfree⟩).2
      exact Bool.noConfusion hused
    · exact hout hin
  · intro n hn
    rw [hbins 1 (by omega)] at hn
    rw [hbins 64 (by omega)]
    exact hA.page_disjoint n hn
  · intro j
    by_cases heq : j = slotIndex c.size
    · subst heq
      rw [hself]
      exact (hA.nodup _).erase _
    · rw [hbins j heq]
      exact hA.nodup j

theorem Arena.Shape.free_mem (hA : A.Shape held first base) (hc : c ∈ A.chunks)
    (hfree : c.used = false) (hheld : c.addr ∉ held) : c.node ∈ A.bins (slotIndex c.size) := by
  obtain ⟨hlow, hhigh⟩ := hA.free_chunk hc hfree hheld
  obtain ⟨hi, hi'⟩ := slotIndex_bounds hlow hhigh
  exact (hA.free_iff _ hi hi' _).mpr ⟨c.addr, c.size, ⟨c, hc, rfl, rfl, hfree⟩, hheld, rfl, rfl⟩

variable {i n : ℕ}

theorem Arena.Stored.neighbours (hS : A.Stored L s) (hi : 1 ≤ i) (hi' : i ≤ 64)
    (hn : n ∈ A.bins i) :
    nodePrev s.mem n ∈ L.head i :: A.bins i ∧ nodeNext s.mem n ∈ L.head i :: A.bins i :=
  (hS.ring i hi hi').links_mem hn

theorem Arena.Stored.take_rings (hS : A.Stored L s) (hA : A.Shape held first s.base)
    (hL : L.Below first) (hi : 1 ≤ i) (hi' : i ≤ 64) (hn : n ∈ A.bins i) :
    ∀ j, 1 ≤ j → j ≤ 64 →
      Ring (nodeNext (linkMem s.mem (nodePrev s.mem n) (nodeNext s.mem n)))
        (nodePrev (linkMem s.mem (nodePrev s.mem n) (nodeNext s.mem n)))
        (L.head j) ((A.take i n).bins j) := by
  intro j hj hj'
  have hbase : s.base < 2 ^ 64 := lt_of_le_of_lt hS.room hS.space
  obtain ⟨hprevMem, hnextMem⟩ := hS.neighbours hi hi' hn
  have hprevAt := hA.ring_nodeAt (L := L) hi hi' hprevMem
  have hnextAt := hA.ring_nodeAt (L := L) hi hi' hnextMem
  by_cases hji : j = i
  · subst hji
    have hself := A.take_bins_self j n
    have hring := hS.ring j hj hj'
    have hnodup := hA.ring_nodup hL hj hj'
    obtain ⟨before, after, hsplit⟩ := append_of_mem hn
    have hnotBefore : n ∉ before := by
      have hnd := hA.nodup j
      rw [hsplit, nodup_append] at hnd
      intro hin
      exact hnd.2.2 n hin n mem_cons_self rfl
    have herase : (A.bins j).erase n = before ++ after := by
      rw [hsplit, erase_append_right _ hnotBefore, erase_cons_head]
    rw [hself, herase]
    rw [hsplit] at hring hnodup
    have hsub : ∀ y ∈ L.head j :: (before ++ after), A.NodeAt L y := by
      intro y hy
      apply hA.ring_nodeAt hj hj'
      rw [hsplit]
      simp only [mem_cons, mem_append] at hy ⊢
      tauto
    apply hring.remove hnodup rfl rfl
    · exact (hA.link_next hL hbase hprevAt hnextAt hprevAt).trans (if_pos rfl)
    · exact (hA.link_prev hL hbase hprevAt hnextAt hnextAt).trans (if_pos rfl)
    · intro y hy hne
      exact (hA.link_next hL hbase hprevAt hnextAt (hsub y hy)).trans (if_neg hne)
    · intro y hy hne
      exact (hA.link_prev hL hbase hprevAt hnextAt (hsub y hy)).trans (if_neg hne)
  · rw [A.take_bins_of_ne n hji]
    apply hA.link_ring hL hbase hprevAt hnextAt hj hj' (hS.ring j hj hj')
    · intro hin
      exact hji (hA.ring_disjoint hL hj hj' hi hi' hin hprevMem)
    · intro hin
      exact hji (hA.ring_disjoint hL hj hj' hi hi' hin hnextMem)

theorem getLsbD_clear {j : ℕ} (hi : i < 64) :
    (bitmap &&& ~~~ bitAt i).getLsbD j = (bitmap.getLsbD j && decide (j ≠ i)) := by
  rw [BitVec.getLsbD_and, BitVec.getLsbD_not, getLsbD_bitAt hi]
  by_cases hj : j < 64
  · simp [hj]
  · simp [BitVec.getLsbD_of_ge bitmap j (by omega)]

theorem Arena.Stored.unlink (hS : A.Stored L s) (hA : A.Shape held first s.base)
    (hL : L.Below first) (hi : 1 ≤ i) (hi' : i ≤ 64) (hn : n ∈ A.bins i)
    (hbit : ∀ j, 2 ≤ j → j < 64 → (bitmap.getLsbD j = true ↔ (A.take i n).bins j ≠ [])) :
    (A.take i n).Stored L
      { s with
        mem := linkMem s.mem (nodePrev s.mem n) (nodeNext s.mem n)
        bitmap := bitmap } := by
  obtain ⟨hprevMem, hnextMem⟩ := hS.neighbours hi hi' hn
  have hprevAt := hA.ring_nodeAt (L := L) hi hi' hprevMem
  have hnextAt := hA.ring_nodeAt (L := L) hi hi' hnextMem
  refine ⟨?_, ?_, hS.take_rings hA hL hi hi' hn, hbit, hS.room, hS.space⟩
  · intro d hd
    exact (hA.link_header hL hprevAt hnextAt hd).1.trans (hS.size d hd)
  · intro d hd
    exact (hA.link_header hL hprevAt hnextAt hd).2.trans (hS.prev d hd)

theorem Arena.Stored.take (hS : A.Stored L s) (hA : A.Shape held first s.base)
    (hL : L.Below first) (hc : c ∈ A.chunks) (hfree : c.used = false)
    (hheld : c.addr ∉ held) :
    (A.take (slotIndex c.size) c.node).Stored L
      (takeState A (slotIndex c.size) c.node s) := by
  obtain ⟨hlow, hhigh⟩ := hA.free_chunk hc hfree hheld
  obtain ⟨hi, hi'⟩ := slotIndex_bounds hlow hhigh
  have hmem := hA.free_mem hc hfree hheld
  generalize slotIndex c.size = i at hi hi' hmem ⊢
  refine hS.unlink hA hL (by omega) (by omega) hmem ?_
  intro j hj hj'
  have hold := hS.bit j hj hj'
  by_cases hji : j = i
  · subst hji
    rw [A.take_bins_self]
    by_cases hone : A.bins j = [c.node]
    · simp [hone, getLsbD_clear hj']
    · rw [if_neg hone, hold]
      refine iff_of_true (ne_nil_of_mem hmem) ?_
      intro hnil
      obtain ⟨before, after, hsplit⟩ := append_of_mem hmem
      have hlen := length_erase_of_mem hmem
      rw [hnil, length_nil] at hlen
      rw [hsplit] at hlen hone
      cases before <;> cases after <;> simp at hlen hone
  · rw [A.take_bins_of_ne c.node hji, ← hold]
    by_cases hone : A.bins i = [c.node]
    · simp [hone, getLsbD_clear hi', hji]
    · simp [hone]

theorem takeState_confined (hS : A.Stored L s) (hA : A.Shape held first s.base) {x : ℕ}
    (hi : 1 ≤ i) (hi' : i ≤ 64) (hn : n ∈ A.bins i) (hx : x ∉ Footprint L first s.base) :
    (takeState A i n s).mem x = s.mem x := by
  obtain ⟨hprevMem, hnextMem⟩ := hS.neighbours hi hi' hn
  exact linkMem_apply (hA.node_footprint (hA.ring_nodeAt hi hi' hprevMem) hx)
    (hA.node_footprint (hA.ring_nodeAt hi hi' hnextMem) hx)

end Take

def Arena.put (A : Arena) (i n : ℕ) : Arena :=
  { A with bins := update A.bins i (n :: A.bins i) }

theorem Arena.put_bins_self (A : Arena) (i n : ℕ) :
    (A.put i n).bins i = n :: A.bins i := update_self i _ A.bins

theorem Arena.put_bins_of_ne (A : Arena) (n : ℕ) (hj : j ≠ i) : (A.put i n).bins j = A.bins j :=
  update_of_ne hj _ A.bins

def pushState (L : Layout) (i n : ℕ) (s : Process) : Process :=
  { s with mem := linkMem (linkMem s.mem n (nodeNext s.mem (L.head i))) (L.head i) n }

def putState (L : Layout) (i n : ℕ) (s : Process) : Process :=
  { pushState L i n s with bitmap := s.bitmap ||| bitAt i }

section Put

variable {A : Arena} {L : Layout} {held : Set ℕ} {first : ℕ} {s : Process} {c : Chunk}

variable {base j i n : ℕ}

theorem Arena.Shape.held_not_mem (hA : A.Shape held first base) (hc : c ∈ A.chunks)
    (hheld : c.addr ∈ held) (hj : 1 ≤ j) (hj' : j ≤ 64) : c.node ∉ A.bins j := by
  intro hmem
  obtain ⟨d, hd, -, hout, hnode⟩ := hA.mem_chunk hj hj' hmem
  have heq : c = d := hA.eq_of_addr hc hd (by unfold Chunk.node at hnode; omega)
  rw [← heq] at hout
  exact hout hheld

theorem Arena.Shape.held_not_head (hA : A.Shape held first base) (hL : L.Below first)
    (hc : c ∈ A.chunks) (hj' : j ≤ 64) : c.node ≠ L.head j := by
  have hlow := hL.head_le hj'
  have hfirst := hA.first_le hc
  unfold Chunk.node
  omega

theorem Arena.Shape.put (hA : A.Shape held first base) {d : Chunk} {pre post : List Chunk}
    (hsplit : A.chunks = pre ++ c :: d :: post) (hheld : c.addr ∈ held) (hfree : c.used = false)
    (hsize : c.size ≤ 65536) (hprev : d.prevUsed = false) (hprevSize : d.prevSize = c.size) :
    (A.put (slotIndex c.size) c.node).Shape (held \ {c.addr}) first base := by
  have hc : c ∈ A.chunks := by simp [hsplit]
  have hd : d ∈ A.chunks := by simp [hsplit]
  have hcd := hA.link_of_split hsplit
  obtain ⟨hi, hi'⟩ := slotIndex_bounds hcd.large hsize
  have hbins : ∀ j, j ≠ slotIndex c.size →
      (A.put (slotIndex c.size) c.node).bins j = A.bins j := fun j => A.put_bins_of_ne c.node
  have hself := A.put_bins_self (slotIndex c.size) c.node
  have hhas : A.Has c.addr c.size false := ⟨c, hc, rfl, rfl, hfree⟩
  refine ⟨?_, hA.start, hA.top, hA.aligned, ?_, ?_, ?_, ?_⟩
  · change A.chunks.IsChain _
    have hchain := hA.chain
    rw [hsplit, isChain_append_cons_cons] at hchain ⊢
    have hkeep : ∀ x ∈ A.chunks, x ≠ c → ∀ y, LinkAt held x y →
        LinkAt (held \ {c.addr}) x y := by
      intro x hx hne y hlink
      have haddr : x.addr ≠ c.addr := fun heq => hne (hA.eq_of_addr hx hc heq)
      refine { hlink with heldUsed := fun hin => hlink.heldUsed hin.1, prevUsed := ?_, free := ?_ }
      · intro hout
        exact hlink.prevUsed fun hin => hout ⟨hin, haddr⟩
      · intro hout
        exact hlink.free fun hin => hout ⟨hin, haddr⟩
    have hpair := hA.pairwise
    rw [hsplit] at hpair
    have hpairs := pairwise_append.mp hpair
    refine ⟨?_, ?_, ?_⟩
    · have hne : ∀ x ∈ pre, x ≠ c := by
        rintro x hx rfl
        have := hpairs.2.2 x hx x (by simp)
        omega
      rw [isChain_append] at hchain ⊢
      refine ⟨?_, isChain_singleton _, ?_⟩
      · exact hchain.1.1.imp_of_mem_imp fun x y hx _ hlink =>
          hkeep x (by simp [hsplit, hx]) (hne x hx) y hlink
      · intro x hx y hy
        have hxmem : x ∈ pre := mem_of_mem_getLast? hx
        exact hkeep x (by simp [hsplit, hxmem]) (hne x hxmem) y (hchain.1.2.2 x hx y hy)
    · refine ⟨hcd.large, hcd.mod, hcd.bounded, hcd.adjacent, ?_, ?_, ?_⟩
      · exact fun hin => absurd rfl hin.2
      · exact fun _ => hprev.trans hfree.symm
      · exact fun _ _ => ⟨hprevSize, hcd.heldUsed hheld, hsize⟩
    · have hne : ∀ x ∈ d :: post, x ≠ c := by
        rintro x hx rfl
        have := (pairwise_cons.mp hpairs.2.1).1 x hx
        omega
      exact hchain.2.2.imp_of_mem_imp fun x y hx _ hlink =>
        hkeep x (by rw [hsplit]; simp only [mem_append, mem_cons] at hx ⊢; tauto)
          (hne x hx) y hlink
  · intro j hj hj' n
    have hold := hA.free_iff j hj hj' n
    by_cases heq : j = slotIndex c.size
    · subst heq
      rw [hself, mem_cons, hold]
      constructor
      · rintro (rfl | ⟨addr, size, hh, hout, rfl, hslot⟩)
        · exact ⟨c.addr, c.size, hhas, fun hin => hin.2 rfl, rfl, rfl⟩
        · exact ⟨addr, size, hh, fun hin => hout hin.1, rfl, hslot⟩
      · rintro ⟨addr, size, hh, hout, rfl, hslot⟩
        by_cases hin : addr ∈ held
        · left
          have hca : addr = c.addr := by
            by_contra hne
            exact hout ⟨hin, hne⟩
          rw [hca]
          rfl
        · exact .inr ⟨addr, size, hh, hin, rfl, hslot⟩
    · rw [hbins j heq, hold]
      constructor
      · rintro ⟨addr, size, hh, hout, rfl, hslot⟩
        exact ⟨addr, size, hh, fun hin => hout hin.1, rfl, hslot⟩
      · rintro ⟨addr, size, hh, hout, rfl, hslot⟩
        refine ⟨addr, size, hh, ?_, rfl, hslot⟩
        intro hin
        have hca : addr = c.addr := by
          by_contra hne
          exact hout ⟨hin, hne⟩
        subst hca
        apply heq
        rw [← hslot, (hA.has_unique hh hhas).1]
  · intro n hn
    rw [hbins 1 (by omega), hbins 64 (by omega)] at hn
    obtain ⟨addr, size, hh, hout, rfl, hpage⟩ := hA.page n hn
    exact ⟨addr, size, hh, fun hin => hout hin.1, rfl, hpage⟩
  · intro n hn
    rw [hbins 1 (by omega)] at hn
    rw [hbins 64 (by omega)]
    exact hA.page_disjoint n hn
  · intro j
    by_cases heq : j = slotIndex c.size
    · subst heq
      rw [hself]
      exact nodup_cons.mpr
        ⟨hA.held_not_mem hc hheld (by omega) (by omega), hA.nodup _⟩
    · rw [hbins j heq]
      exact hA.nodup j

theorem Arena.Stored.push_rings (hS : A.Stored L s) (hA : A.Shape held first s.base)
    (hL : L.Below first) (hi : 1 ≤ i) (hi' : i ≤ 64) (hn : A.NodeAt L n)
    (hfresh : ∀ j, 1 ≤ j → j ≤ 64 → n ∉ L.head j :: A.bins j) :
    ∀ j, 1 ≤ j → j ≤ 64 →
      Ring (nodeNext (pushState L i n s).mem) (nodePrev (pushState L i n s).mem)
        (L.head j) ((A.put i n).bins j) := by
  intro j hj hj'
  have hbase : s.base < 2 ^ 64 := lt_of_le_of_lt hS.room hS.space
  have hheadAt : A.NodeAt L (L.head i) := Or.inl ⟨i, hi', rfl⟩
  have hfirstMem := (hS.ring i hi hi').next_head_mem
  have hfirstAt := hA.ring_nodeAt (L := L) hi hi' hfirstMem
  have hnhead : n ≠ L.head i := fun heq => hfresh i hi hi' (by simp [heq])
  have hnfirst : n ≠ nodeNext s.mem (L.head i) := fun heq => hfresh i hi hi' (heq ▸ hfirstMem)
  have hnext : ∀ y, A.NodeAt L y → nodeNext (pushState L i n s).mem y =
      if y = L.head i then n else if y = n then nodeNext s.mem (L.head i)
        else nodeNext s.mem y := by
    intro y hy
    rw [pushState, hA.link_next hL hbase hheadAt hn hy, hA.link_next hL hbase hn hfirstAt hy]
  have hprev : ∀ y, A.NodeAt L y → nodePrev (pushState L i n s).mem y =
      if y = n then L.head i else if y = nodeNext s.mem (L.head i) then n
        else nodePrev s.mem y := by
    intro y hy
    rw [pushState, hA.link_prev hL hbase hheadAt hn hy, hA.link_prev hL hbase hn hfirstAt hy]
  by_cases hji : j = i
  · subst hji
    rw [A.put_bins_self]
    apply (hS.ring j hj hj').push (hA.ring_nodup hL hj hj') rfl
    · rw [hnext n hn, if_neg hnhead, if_pos rfl]
    · rw [hprev _ hfirstAt, if_neg hnfirst.symm, if_pos rfl]
    · rw [hnext _ hheadAt, if_pos rfl]
    · rw [hprev n hn, if_pos rfl]
    · intro y hy
      have hyhead : y ≠ L.head j := by
        rintro rfl
        exact hA.head_not_mem hL hj' hj hj' hy
      have hyn : y ≠ n := by
        rintro rfl
        exact hfresh j hj hj' (by simp [hy])
      rw [hnext y (hA.mem_nodeAt hj hj' hy), if_neg hyhead, if_neg hyn]
    · intro y hy hne
      have hyn : y ≠ n := by
        rintro rfl
        exact hfresh j hj hj' hy
      rw [hprev y (hA.ring_nodeAt hj hj' hy), if_neg hyn, if_neg hne]
  · rw [A.put_bins_of_ne n hji]
    apply (hS.ring j hj hj').congr
    · intro y hy
      have hyhead : y ≠ L.head i := by
        rintro rfl
        exact hji (hA.ring_disjoint hL hj hj' hi hi' hy (by simp))
      have hyn : y ≠ n := by
        rintro rfl
        exact hfresh j hj hj' hy
      rw [hnext y (hA.ring_nodeAt hj hj' hy), if_neg hyhead, if_neg hyn]
    · intro y hy
      have hyfirst : y ≠ nodeNext s.mem (L.head i) := by
        rintro rfl
        exact hji (hA.ring_disjoint hL hj hj' hi hi' hy hfirstMem)
      have hyn : y ≠ n := by
        rintro rfl
        exact hfresh j hj hj' hy
      rw [hprev y (hA.ring_nodeAt hj hj' hy), if_neg hyn, if_neg hyfirst]

theorem Arena.Stored.push_header (hS : A.Stored L s) (hA : A.Shape held first s.base)
    (hL : L.Below first) (hi : 1 ≤ i) (hi' : i ≤ 64) (hn : A.NodeAt L n) (hc : c ∈ A.chunks) :
    load 4 (pushState L i n s).mem (c.addr + 4) = load 4 s.mem (c.addr + 4) ∧
      load 4 (pushState L i n s).mem c.addr = load 4 s.mem c.addr := by
  have hheadAt : A.NodeAt L (L.head i) := Or.inl ⟨i, hi', rfl⟩
  have hfirstAt := hA.ring_nodeAt (L := L) hi hi' (hS.ring i hi hi').next_head_mem
  have h1 := hA.link_header hL hheadAt hn (m := linkMem s.mem n (nodeNext s.mem (L.head i))) hc
  have h2 := hA.link_header hL hn hfirstAt (m := s.mem) hc
  exact ⟨h1.1.trans h2.1, h1.2.trans h2.2⟩

variable {bitmap : BitVec 64}

theorem getLsbD_set (hi : i < 64) :
    (bitmap ||| bitAt i).getLsbD j = (bitmap.getLsbD j || decide (j = i)) := by
  rw [BitVec.getLsbD_or, getLsbD_bitAt hi]

theorem Arena.Stored.push (hS : A.Stored L s) (hA : A.Shape held first s.base)
    (hL : L.Below first) (hi : 1 ≤ i) (hi' : i ≤ 64) (hn : A.NodeAt L n)
    (hfresh : ∀ j, 1 ≤ j → j ≤ 64 → n ∉ L.head j :: A.bins j)
    (hbit : ∀ j, 2 ≤ j → j < 64 → (bitmap.getLsbD j = true ↔ (A.put i n).bins j ≠ [])) :
    (A.put i n).Stored L { pushState L i n s with bitmap := bitmap } := by
  refine ⟨?_, ?_, hS.push_rings hA hL hi hi' hn hfresh, hbit, hS.room, hS.space⟩
  · intro d hd
    exact (hS.push_header hA hL hi hi' hn hd).1.trans (hS.size d hd)
  · intro d hd
    exact (hS.push_header hA hL hi hi' hn hd).2.trans (hS.prev d hd)

theorem Arena.Stored.put (hS : A.Stored L s) (hA : A.Shape held first s.base)
    (hL : L.Below first) (hc : c ∈ A.chunks) (hheld : c.addr ∈ held)
    (hlow : 48 ≤ c.size) (hhigh : c.size ≤ 65536) :
    (A.put (slotIndex c.size) c.node).Stored L (putState L (slotIndex c.size) c.node s) := by
  obtain ⟨hi, hi'⟩ := slotIndex_bounds hlow hhigh
  generalize slotIndex c.size = i at hi hi' ⊢
  refine hS.push hA hL (by omega) (by omega) (.inr ⟨c, hc, by omega, rfl⟩) ?_ ?_
  · intro j hj hj' hmem
    rcases mem_cons.mp hmem with heq | hin
    · exact hA.held_not_head hL hc hj' heq
    · exact hA.held_not_mem hc hheld hj hj' hin
  · intro j hj hj'
    have hold := hS.bit j hj hj'
    by_cases hji : j = i
    · subst hji
      rw [A.put_bins_self]
      simp [getLsbD_set hj']
    · rw [A.put_bins_of_ne c.node hji, ← hold]
      simp [getLsbD_set hi', hji]

theorem pushState_confined (hS : A.Stored L s) (hA : A.Shape held first s.base) {x : ℕ}
    (hi : 1 ≤ i) (hi' : i ≤ 64) (hn : A.NodeAt L n) (hx : x ∉ Footprint L first s.base) :
    (pushState L i n s).mem x = s.mem x := by
  have hheadAt : A.NodeAt L (L.head i) := Or.inl ⟨i, hi', rfl⟩
  have hfirstAt := hA.ring_nodeAt (L := L) hi hi' (hS.ring i hi hi').next_head_mem
  have h1 := hA.node_footprint hheadAt hx
  have h2 := hA.node_footprint hn hx
  have h3 := hA.node_footprint hfirstAt hx
  exact (linkMem_apply h1 h2).trans (linkMem_apply h2 h3)

end Put

end Xv6MallocLab.Ummalloc
