import Xv6MallocLab.UmmallocBits
import Xv6MallocLab.CircularList

/-!
# The arena behind the slot allocator

The chunks in address order ending with the sentinel, and the members of every list.
A *held* chunk is in no list, and its flags are not yet meaningful.
-/

namespace Xv6MallocLab.Ummalloc

open ByteMemory CircularList List

/-- What the header of the chunk at `addr` says. -/
structure Chunk where
  addr : ℕ
  size : ℕ
  prevSize : ℕ
  prevUsed : Bool
  used : Bool
  deriving DecidableEq

def Chunk.flags (c : Chunk) : ℕ := (if c.prevUsed then 1 else 0) + (if c.used then 2 else 0)

def Chunk.node (c : Chunk) : ℕ := c.addr + 8

structure Arena where
  /-- All chunks in address order; the last one is the sentinel. -/
  chunks : List Chunk
  bins : ℕ → List ℕ

def Layout.head (L : Layout) (i : ℕ) : ℕ := if i = 64 then L.fastFull else L.slot i

structure Layout.Below (L : Layout) (first : ℕ) : Prop where
  slots : L.slots + 1024 ≤ first
  fastFull : L.fastFull + 16 ≤ first
  apart : L.slots + 1024 ≤ L.fastFull ∨ L.fastFull + 16 ≤ L.slots

/-- Neighbouring chunks.  The header behind a held chunk only has to be in
use; behind any other chunk it records whether that chunk is in use, and the
size of a free one. -/
structure LinkAt (held : Set ℕ) (c d : Chunk) : Prop where
  large : 48 ≤ c.size
  mod : c.size % 8 = 0
  bounded : c.size ≤ 131072
  adjacent : d.addr = c.addr + c.size
  heldUsed : c.addr ∈ held → d.used = true
  prevUsed : c.addr ∉ held → d.prevUsed = c.used
  free : c.addr ∉ held → c.used = false →
    d.prevSize = c.size ∧ d.used = true ∧ c.size ≤ 65536

def Arena.Has (A : Arena) (addr size : ℕ) (used : Bool) : Prop :=
  ∃ c ∈ A.chunks, c.addr = addr ∧ c.size = size ∧ c.used = used

structure Arena.Shape (A : Arena) (held : Set ℕ) (first base : ℕ) : Prop where
  chain : A.chunks.IsChain (LinkAt held)
  start : ∃ c rest, A.chunks = c :: rest ∧ c.addr = first ∧ c.prevUsed = true
  top : ∃ t ∈ A.chunks, t.size = 0 ∧ t.used = true ∧ t.addr + 8 = base
  aligned : first % 8 = 0
  free_iff : ∀ i, 2 ≤ i → i < 64 → ∀ n, n ∈ A.bins i ↔
    ∃ addr size, A.Has addr size false ∧ addr ∉ held ∧ n = addr + 8 ∧
      slotIndex size = i
  page : ∀ n, n ∈ A.bins 1 ∨ n ∈ A.bins 64 →
    ∃ addr size, A.Has addr size true ∧ addr ∉ held ∧ n = addr + 8 ∧ 4144 ≤ size
  page_disjoint : ∀ n ∈ A.bins 1, n ∉ A.bins 64
  nodup : ∀ i, (A.bins i).Nodup

def freeCells (m : Memory) (node : ℕ) : Finset ℕ :=
  (Finset.range 128).filter fun k =>
    (load 8 m (node + 24 + 8 * (k / 64))).testBit (k % 64)

structure Arena.Stored (A : Arena) (L : Layout) (s : Process) : Prop where
  size : ∀ c ∈ A.chunks, load 4 s.mem (c.addr + 4) = c.size + c.flags
  prev : ∀ c ∈ A.chunks, load 4 s.mem c.addr = c.prevSize
  ring : ∀ i, 1 ≤ i → i ≤ 64 →
    Ring (nodeNext s.mem) (nodePrev s.mem) (L.head i) (A.bins i)
  bit : ∀ i, 2 ≤ i → i < 64 → (s.bitmap.getLsbD i = true ↔ A.bins i ≠ [])
  room : s.base ≤ s.brk
  space : s.brk < 2 ^ 64

def Arena.IsPage (A : Arena) (n : ℕ) : Prop := n ∈ A.bins 1 ∨ n ∈ A.bins 64

/-- Every fast page counts its free cells, and exactly the pages of
`fast_full` have none. -/
structure Arena.Counted (A : Arena) (m : Memory) : Prop where
  count : ∀ n, A.IsPage n → load 8 m (n + 16) = (freeCells m n).card
  count_pos : ∀ n ∈ A.bins 1, 0 < load 8 m (n + 16)
  count_zero : ∀ n ∈ A.bins 64, load 8 m (n + 16) = 0

theorem Chunk.flags_lt (c : Chunk) : c.flags < 4 := by
  unfold Chunk.flags
  split <;> split <;> omega

namespace Arena.Shape

variable {A : Arena} {held : Set ℕ} {first base : ℕ}

theorem pairwise (hA : A.Shape held first base) :
    A.chunks.Pairwise fun c d => 48 ≤ c.size ∧ c.addr + c.size ≤ d.addr := by
  have htrans : IsTrans Chunk fun c d => 48 ≤ c.size ∧ c.addr + c.size ≤ d.addr :=
    ⟨fun a b c hab hbc => ⟨hab.1, by omega⟩⟩
  rw [← isChain_iff_pairwise]
  exact hA.chain.imp fun c d hlink => ⟨hlink.large, hlink.adjacent.ge⟩

variable {c d : Chunk}

section

variable (hA : A.Shape held first base)

include hA

theorem apart (hc : c ∈ A.chunks) (hd : d ∈ A.chunks) :
    c = d ∨ (48 ≤ c.size ∧ c.addr + c.size ≤ d.addr) ∨
      (48 ≤ d.size ∧ d.addr + d.size ≤ c.addr) := by
  by_cases heq : c = d
  · exact .inl heq
  · right
    have hsym : A.chunks.Pairwise fun c d =>
        (48 ≤ c.size ∧ c.addr + c.size ≤ d.addr) ∨
          (48 ≤ d.size ∧ d.addr + d.size ≤ c.addr) :=
      hA.pairwise.imp fun h => .inl h
    have hsymm : Std.Symm fun c d : Chunk =>
        (48 ≤ c.size ∧ c.addr + c.size ≤ d.addr) ∨
          (48 ≤ d.size ∧ d.addr + d.size ≤ c.addr) := ⟨fun _ _ h => h.symm⟩
    exact hsym.forall hc hd heq

theorem eq_of_addr (hc : c ∈ A.chunks) (hd : d ∈ A.chunks) (haddr : c.addr = d.addr) : c = d := by
  rcases hA.apart hc hd with heq | hlt | hlt
  · exact heq
  · omega
  · omega

theorem first_le (hc : c ∈ A.chunks) : first ≤ c.addr := by
  obtain ⟨f, rest, hchunks, haddr, -⟩ := hA.start
  have hpair := hA.pairwise
  rw [hchunks] at hc hpair
  rcases mem_cons.mp hc with rfl | hrest
  · exact haddr.ge
  · have := (pairwise_cons.mp hpair).1 c hrest
    omega

theorem start_replace {pre rest rest' : List Chunk} {c' : Chunk}
    (hsplit : A.chunks = pre ++ c :: rest) (haddr : c'.addr = c.addr)
    (hprev : c'.prevUsed = c.prevUsed) :
    ∃ f tail, pre ++ c' :: rest' = f :: tail ∧ f.addr = first ∧ f.prevUsed = true := by
  obtain ⟨f, tail, hstart, hfirst, hf⟩ := hA.start
  rw [hsplit] at hstart
  cases pre with
  | nil =>
    cases hstart
    exact ⟨c', _, rfl, haddr.trans hfirst, hprev.trans hf⟩
  | cons f' pre =>
    cases hstart
    exact ⟨f, _, rfl, hfirst, hf⟩

theorem succ_of_size (hc : c ∈ A.chunks) (hsize : c.size ≠ 0) :
    ∃ pre d post, A.chunks = pre ++ c :: d :: post := by
  obtain ⟨pre, rest, hsplit⟩ := append_of_mem hc
  cases rest with
  | nil =>
    exfalso
    obtain ⟨t, ht, hzero, -⟩ := hA.top
    have hpair := hA.pairwise
    rw [hsplit] at ht hpair
    rcases mem_append.mp ht with hpre | hlast
    · have := (pairwise_append.mp hpair).2.2 t hpre c (by simp)
      omega
    · rw [mem_singleton.mp hlast] at hzero
      exact hsize hzero
  | cons d post => exact ⟨pre, d, post, hsplit⟩

theorem link_of_split {pre post : List Chunk} (hsplit : A.chunks = pre ++ c :: d :: post) :
    LinkAt held c d := by
  have hchain := hA.chain
  rw [hsplit, isChain_append_cons_cons] at hchain
  exact hchain.2.1

theorem size_cases (hc : c ∈ A.chunks) :
    c.size = 0 ∨ (48 ≤ c.size ∧ c.size % 8 = 0 ∧ c.size ≤ 131072) := by
  by_cases hzero : c.size = 0
  · exact .inl hzero
  · obtain ⟨pre, d, post, hsplit⟩ := hA.succ_of_size hc hzero
    have hlink := hA.link_of_split hsplit
    exact .inr ⟨hlink.large, hlink.mod, hlink.bounded⟩

theorem end_le (hc : c ∈ A.chunks) : c.addr + c.size + 8 ≤ base := by
  obtain ⟨t, ht, hzero, -, hbase⟩ := hA.top
  rcases hA.apart hc ht with rfl | hlt | hlt
  · omega
  · omega
  · omega

theorem top_unique (hc : c ∈ A.chunks) (hzero : c.size = 0) :
    c.used = true ∧ c.addr + 8 = base := by
  obtain ⟨t, ht, htzero, hused, hbase⟩ := hA.top
  rcases hA.apart hc ht with rfl | hlt | hlt
  · exact ⟨hused, hbase⟩
  · omega
  · omega

theorem addr_mod (hc : c ∈ A.chunks) : c.addr % 8 = 0 := by
  obtain ⟨f, rest, hchunks, haddr, -⟩ := hA.start
  have haligned := hA.aligned
  have hchain := hA.chain
  rw [hchunks] at hc hchain
  have hgen : ∀ (rest : List Chunk) (f : Chunk), f.addr % 8 = 0 →
      (f :: rest).IsChain (LinkAt held) → ∀ c ∈ f :: rest, c.addr % 8 = 0 := by
    intro rest
    induction rest with
    | nil =>
      intro f hf _ c hc
      rwa [mem_singleton.mp hc]
    | cons d rest ih =>
      intro f hf hchain c hc
      obtain ⟨hlink, htail⟩ := isChain_cons_cons.mp hchain
      rcases mem_cons.mp hc with rfl | hrest
      · exact hf
      · have hadjacent := hlink.adjacent
        have hmod := hlink.mod
        exact ih d (by omega) htail c hrest
  exact hgen rest f (by omega) hchain c hc

end

end Arena.Shape

def Arena.NodeAt (A : Arena) (L : Layout) (n : ℕ) : Prop :=
  (∃ i ≤ 64, n = L.head i) ∨ ∃ c ∈ A.chunks, c.size ≠ 0 ∧ n = c.node

variable {L : Layout} {first i : ℕ}

theorem Layout.Below.head_le (hL : L.Below first) (hi : i ≤ 64) : L.head i + 16 ≤ first := by
  have hslots := hL.slots
  have hfull := hL.fastFull
  unfold Layout.head Layout.slot
  split <;> omega

theorem Layout.Below.head_apart (hL : L.Below first) {j : ℕ} (hi : i ≤ 64) (hj : j ≤ 64)
    (hne : i ≠ j) : L.head i + 16 ≤ L.head j ∨ L.head j + 16 ≤ L.head i := by
  have hapart := hL.apart
  unfold Layout.head Layout.slot
  split <;> split <;> omega

namespace Arena.Shape

variable {A : Arena} {L : Layout} {held : Set ℕ} {first base : ℕ}

variable {n i : ℕ}

section

variable (hA : A.Shape held first base)

include hA

theorem node_apart (hL : L.Below first) {n' : ℕ} (hn : A.NodeAt L n) (hn' : A.NodeAt L n') :
    n = n' ∨ n + 16 ≤ n' ∨ n' + 16 ≤ n := by
  rcases hn with ⟨i, hi, rfl⟩ | ⟨c, hc, hcs, rfl⟩
  · rcases hn' with ⟨j, hj, rfl⟩ | ⟨d, hd, hds, rfl⟩
    · by_cases heq : i = j
      · exact .inl (by rw [heq])
      · exact .inr (hL.head_apart hi hj heq)
    · have hlow := hL.head_le hi
      have hfirst := hA.first_le hd
      unfold Chunk.node
      omega
  · rcases hn' with ⟨j, hj, rfl⟩ | ⟨d, hd, hds, rfl⟩
    · have hlow := hL.head_le hj
      have hfirst := hA.first_le hc
      unfold Chunk.node
      omega
    · unfold Chunk.node
      rcases hA.apart hc hd with rfl | hlt | hlt
      · exact .inl rfl
      · omega
      · omega

variable {c : Chunk} {j : ℕ}

theorem node_header (hL : L.Below first) (hn : A.NodeAt L n) (hc : c ∈ A.chunks) :
    n + 16 ≤ c.addr ∨ c.addr + 8 ≤ n := by
  rcases hn with ⟨i, hi, rfl⟩ | ⟨d, hd, hds, rfl⟩
  · have hlow := hL.head_le hi
    have hfirst := hA.first_le hc
    omega
  · unfold Chunk.node
    rcases hA.apart hc hd with rfl | hlt | hlt
    · omega
    · omega
    · omega

theorem node_lt (hL : L.Below first) (hn : A.NodeAt L n) : n + 16 < base := by
  rcases hn with ⟨i, hi, rfl⟩ | ⟨c, hc, hcs, rfl⟩
  · have hlow := hL.head_le hi
    obtain ⟨t, ht, -, -, hbase⟩ := hA.top
    have hfirst := hA.first_le ht
    omega
  · have hend := hA.end_le hc
    have hsize := hA.size_cases hc
    unfold Chunk.node
    omega

theorem node_page (hL : L.Below first) (hn : A.NodeAt L n) (hc : c ∈ A.chunks) :
    n = c.node ∨ n + 16 ≤ c.addr ∨ c.addr + c.size + 8 ≤ n := by
  rcases hn with ⟨i, hi, rfl⟩ | ⟨d, hd, hds, rfl⟩
  · have hlow := hL.head_le hi
    have hfirst := hA.first_le hc
    omega
  · unfold Chunk.node
    have hsize := hA.size_cases hd
    rcases hA.apart hc hd with rfl | hlt | hlt
    · exact .inl rfl
    · omega
    · omega

theorem mem_chunk (hi : 1 ≤ i) (hi' : i ≤ 64) (hn : n ∈ A.bins i) :
    ∃ c ∈ A.chunks, c.size ≠ 0 ∧ c.addr ∉ held ∧ n = c.node := by
  have hpage : n ∈ A.bins 1 ∨ n ∈ A.bins 64 →
      ∃ c ∈ A.chunks, c.size ≠ 0 ∧ c.addr ∉ held ∧ n = c.node := by
    intro hn
    obtain ⟨_, _, ⟨c, hc, rfl, rfl, -⟩, hheld, rfl, hsize⟩ := hA.page n hn
    exact ⟨c, hc, by omega, hheld, rfl⟩
  by_cases hone : i = 1
  · subst hone
    exact hpage (.inl hn)
  by_cases hlast : i = 64
  · subst hlast
    exact hpage (.inr hn)
  obtain ⟨_, _, ⟨c, hc, rfl, rfl, hfree⟩, hheld, rfl, -⟩ :=
    (hA.free_iff i (by omega) (by omega) n).mp hn
  refine ⟨c, hc, ?_, hheld, rfl⟩
  intro hzero
  rw [(hA.top_unique hc hzero).1] at hfree
  exact Bool.noConfusion hfree

theorem mem_nodeAt (hi : 1 ≤ i) (hi' : i ≤ 64) (hn : n ∈ A.bins i) : A.NodeAt L n := by
  obtain ⟨c, hc, hsize, -, rfl⟩ := hA.mem_chunk hi hi' hn
  exact .inr ⟨c, hc, hsize, rfl⟩

theorem ring_nodeAt (hi : 1 ≤ i) (hi' : i ≤ 64) (hn : n ∈ L.head i :: A.bins i) : A.NodeAt L n := by
  rcases mem_cons.mp hn with rfl | hmem
  · exact .inl ⟨i, hi', rfl⟩
  · exact hA.mem_nodeAt hi hi' hmem

theorem head_not_mem (hL : L.Below first) (hi : i ≤ 64) (hj : 1 ≤ j) (hj' : j ≤ 64) :
    L.head i ∉ A.bins j := by
  intro hmem
  obtain ⟨c, hc, -, -, heq⟩ := hA.mem_chunk hj hj' hmem
  have hlow := hL.head_le hi
  have hfirst := hA.first_le hc
  unfold Chunk.node at heq
  omega

theorem ring_nodup (hL : L.Below first) (hi : 1 ≤ i) (hi' : i ≤ 64) :
    (L.head i :: A.bins i).Nodup :=
  nodup_cons.mpr ⟨hA.head_not_mem hL hi' hi hi', hA.nodup i⟩

theorem has_unique {addr size size' : ℕ} {used used' : Bool} (h : A.Has addr size used)
    (h' : A.Has addr size' used') : size = size' ∧ used = used' := by
  obtain ⟨c, hc, rfl, rfl, rfl⟩ := h
  obtain ⟨d, hd, haddr, rfl, rfl⟩ := h'
  rw [hA.eq_of_addr hd hc haddr]
  exact ⟨rfl, rfl⟩

theorem bins_disjoint (hi : 1 ≤ i) (hi' : i ≤ 64) (hj : 1 ≤ j) (hj' : j ≤ 64) (hni : n ∈ A.bins i)
    (hnj : n ∈ A.bins j) : i = j := by
  have key : ∀ {i}, 1 ≤ i → i ≤ 64 → n ∈ A.bins i →
      ((i = 1 ∧ n ∈ A.bins 1 ∨ i = 64 ∧ n ∈ A.bins 64) ∧
        ∃ addr size, A.Has addr size true ∧ n = addr + 8) ∨
      ∃ addr size, A.Has addr size false ∧ n = addr + 8 ∧ slotIndex size = i := by
    intro i hi hi' hn
    by_cases hone : i = 1
    · subst hone
      obtain ⟨addr, size, hhas, -, hnode, -⟩ := hA.page n (.inl hn)
      exact .inl ⟨.inl ⟨rfl, hn⟩, addr, size, hhas, hnode⟩
    by_cases hlast : i = 64
    · subst hlast
      obtain ⟨addr, size, hhas, -, hnode, -⟩ := hA.page n (.inr hn)
      exact .inl ⟨.inr ⟨rfl, hn⟩, addr, size, hhas, hnode⟩
    obtain ⟨addr, size, hhas, -, hnode, hslot⟩ :=
      (hA.free_iff i (by omega) (by omega) n).mp hn
    exact .inr ⟨addr, size, hhas, hnode, hslot⟩
  rcases key hi hi' hni with ⟨hcase, a, sz, hhas, hnode⟩ | ⟨a, sz, hhas, hnode, hslot⟩
  · rcases key hj hj' hnj with ⟨hcase', -⟩ | ⟨b, sz', hhas', hnode', -⟩
    · have hdisjoint := hA.page_disjoint n
      rcases hcase with ⟨rfl, h1⟩ | ⟨rfl, h64⟩
      · rcases hcase' with ⟨rfl, -⟩ | ⟨rfl, h64⟩
        · rfl
        · exact absurd h64 (hdisjoint h1)
      · rcases hcase' with ⟨rfl, h1⟩ | ⟨rfl, -⟩
        · exact absurd h64 (hdisjoint h1)
        · rfl
    · obtain rfl : a = b := by omega
      exact Bool.noConfusion (hA.has_unique hhas hhas').2
  · rcases key hj hj' hnj with ⟨-, b, sz', hhas', hnode'⟩ | ⟨b, sz', hhas', hnode', hslot'⟩
    · obtain rfl : a = b := by omega
      exact Bool.noConfusion (hA.has_unique hhas hhas').2
    · obtain rfl : a = b := by omega
      rw [← hslot, ← hslot', (hA.has_unique hhas hhas').1]

end

end Arena.Shape

end Xv6MallocLab.Ummalloc
