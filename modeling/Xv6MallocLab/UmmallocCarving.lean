import Xv6MallocLab.UmmallocTransitions

/-!
# Rewriting headers

These transitions leave the lists alone: a held chunk is marked as used, cut in two, made
from the sentinel, or merged with the held chunk behind it.  The chain of links is rebuilt
around the place that changes.
-/

namespace Xv6MallocLab.Ummalloc

open ByteMemory CircularList List

attribute [local irreducible] load store

section Chain

variable {α : Type} {R R' : α → α → Prop}

theorem isChain_replace_left {pre rest rest' : List α} {c c' : α}
    (h : (pre ++ c :: rest).IsChain R)
    (hpre : ∀ x ∈ pre, ∀ y ∈ pre, R x y → R' x y)
    (hc : ∀ x ∈ pre, R x c → R' x c') (hrest : (c' :: rest').IsChain R') :
    (pre ++ c' :: rest').IsChain R' := by
  rw [isChain_append] at h ⊢
  obtain ⟨hleft, -, hseam⟩ := h
  refine ⟨hleft.imp_of_mem_imp fun x y hx hy hxy => hpre x hx y hy hxy, hrest, ?_⟩
  intro x hx y hy
  simp only [head?_cons, Option.mem_def, Option.some.injEq] at hy
  subst hy
  exact hc x (mem_of_mem_getLast? hx) (hseam x hx c (by simp))

theorem isChain_replace_right {post : List α} {d d' : α} (h : (d :: post).IsChain R)
    (hd : ∀ y ∈ post, R d y → R' d' y)
    (hpost : ∀ x ∈ post, ∀ y ∈ post, R x y → R' x y) : (d' :: post).IsChain R' := by
  cases post with
  | nil => exact isChain_singleton _
  | cons e post =>
    obtain ⟨hde, htail⟩ := isChain_cons_cons.mp h
    exact isChain_cons_cons.mpr ⟨hd e (by simp) hde,
      htail.imp_of_mem_imp fun x y hx hy hxy => hpost x hx y hy hxy⟩

end Chain

def Arena.NodeByte (A : Arena) (L : Layout) (x : ℕ) : Prop :=
  ∃ i, 1 ≤ i ∧ i ≤ 64 ∧ ∃ n ∈ L.head i :: A.bins i, n ≤ x ∧ x < n + 16

def Arena.PageByte (A : Arena) (x : ℕ) : Prop := ∃ n, A.IsPage n ∧ n + 16 ≤ x ∧ x < n + 4136

def Arena.Listed (A : Arena) (L : Layout) (x : ℕ) : Prop := A.NodeByte L x ∨ A.PageByte x

namespace Arena.Shape

variable {A : Arena} {L : Layout} {held : Set ℕ} {first base : ℕ}

variable {x : ℕ}

section

variable (hA : A.Shape held first base)

include hA

variable {c : Chunk}

theorem listed_header (hL : L.Below first) (hx : A.Listed L x) (hc : c ∈ A.chunks) :
    x < c.addr ∨ c.addr + 8 ≤ x := by
  rcases hx with ⟨i, hi, hi', n, hn, hlow, hhigh⟩ | ⟨n, hn, hlow, hhigh⟩
  · have := hA.node_header hL (hA.ring_nodeAt hi hi' hn) hc
    omega
  · obtain ⟨_, _, ⟨p, hp, rfl, rfl, -⟩, -, rfl, hsize⟩ := hA.page n hn
    rcases hA.apart hp hc with rfl | hlt | hlt
    · omega
    · omega
    · omega

theorem listed_held (hL : L.Below first) (hx : A.Listed L x) (hc : c ∈ A.chunks)
    (hheld : c.addr ∈ held) : x < c.addr ∨ c.addr + c.size ≤ x := by
  have hother : ∀ d ∈ A.chunks, d.addr ∉ held →
      d.addr + d.size ≤ c.addr ∨ c.addr + c.size ≤ d.addr := by
    intro d hd hout
    rcases hA.apart hd hc with rfl | hlt | hlt
    · exact absurd hheld hout
    · exact .inl hlt.2
    · exact .inr hlt.2
  rcases hx with ⟨i, hi, hi', n, hn, hlow, hhigh⟩ | ⟨n, hn, hlow, hhigh⟩
  · rcases mem_cons.mp hn with rfl | hmem
    · have := hL.head_le hi'
      have := hA.first_le hc
      omega
    · obtain ⟨d, hd, hne, hout, rfl⟩ := hA.mem_chunk hi hi' hmem
      have hsize := hA.size_cases hd
      have := hother d hd hout
      unfold Chunk.node at hlow hhigh
      omega
  · obtain ⟨_, _, ⟨d, hd, rfl, rfl, -⟩, hout, rfl, hsize⟩ := hA.page n hn
    have := hother d hd hout
    omega

theorem listed_lt (hL : L.Below first) (hx : A.Listed L x) : x + 8 < base := by
  obtain ⟨t, ht, -, -, hbase⟩ := hA.top
  rcases hx with ⟨i, hi, hi', n, hn, hlow, hhigh⟩ | ⟨n, hn, hlow, hhigh⟩
  · rcases hA.ring_nodeAt hi hi' hn with ⟨j, hj, rfl⟩ | ⟨c, hc, hne, rfl⟩
    · have := hL.head_le hj
      have := hA.first_le ht
      omega
    · have hend := hA.end_le hc
      have hsize := hA.size_cases hc
      unfold Chunk.node at hlow hhigh
      omega
  · obtain ⟨_, _, ⟨d, hd, rfl, rfl, -⟩, -, rfl, hsize⟩ := hA.page n hn
    have := hA.end_le hd
    omega

theorem node_bytes (hL : L.Below first) {n : ℕ} (hn : A.NodeAt L n) (hx : A.PageByte x) :
    x < n ∨ n + 16 ≤ x := by
  obtain ⟨p, hp, hlow, hhigh⟩ := hx
  obtain ⟨_, _, ⟨d, hd, rfl, rfl, -⟩, -, rfl, hsize⟩ := hA.page p hp
  have := hA.node_page hL hn hd
  unfold Chunk.node at this
  omega

theorem reshape {A' : Arena} {held' : Set ℕ} {base' : ℕ} (hbins : A'.bins = A.bins)
    (hchain : A'.chunks.IsChain (LinkAt held'))
    (hstart : ∃ c rest, A'.chunks = c :: rest ∧ c.addr = first ∧ c.prevUsed = true)
    (htop : ∃ t ∈ A'.chunks, t.size = 0 ∧ t.used = true ∧ t.addr + 8 = base')
    (hfree : ∀ addr size, A'.Has addr size false ∧ addr ∉ held' ↔
      A.Has addr size false ∧ addr ∉ held)
    (hused : ∀ addr size, size ≠ 0 → A.Has addr size true → addr ∉ held →
      A'.Has addr size true ∧ addr ∉ held') : A'.Shape held' first base' := by
  refine ⟨hchain, hstart, htop, hA.aligned, ?_, ?_, ?_, ?_⟩
  · intro i hi hi' n
    rw [hbins, hA.free_iff i hi hi']
    constructor
    · rintro ⟨addr, size, hhas, hout, rfl, hslot⟩
      obtain ⟨hhas', hout'⟩ := (hfree addr size).mpr ⟨hhas, hout⟩
      exact ⟨addr, size, hhas', hout', rfl, hslot⟩
    · rintro ⟨addr, size, hhas, hout, rfl, hslot⟩
      obtain ⟨hhas', hout'⟩ := (hfree addr size).mp ⟨hhas, hout⟩
      exact ⟨addr, size, hhas', hout', rfl, hslot⟩
  · intro n hn
    rw [hbins] at hn
    obtain ⟨addr, size, hhas, hout, rfl, hsize⟩ := hA.page n hn
    obtain ⟨hhas', hout'⟩ := hused addr size (by omega) hhas hout
    exact ⟨addr, size, hhas', hout', rfl, hsize⟩
  · rw [hbins]
    exact hA.page_disjoint
  · rw [hbins]
    exact hA.nodup

end

end Arena.Shape

variable {A : Arena} {L : Layout} {s : Process}

variable {A' : Arena} {held : Set ℕ} {first i n x : ℕ}

theorem Arena.Stored.rewrite {s' : Process} (hS : A.Stored L s) (hbins : A'.bins = A.bins)
    (hbit : s'.bitmap = s.bitmap) (hsame : ∀ x, A.NodeByte L x → s'.mem x = s.mem x)
    (hsize : ∀ c ∈ A'.chunks, load 4 s'.mem (c.addr + 4) = c.size + c.flags)
    (hprev : ∀ c ∈ A'.chunks, load 4 s'.mem c.addr = c.prevSize) (hroom : s'.base ≤ s'.brk)
    (hspace : s'.brk < 2 ^ 64) : A'.Stored L s' := by
  refine ⟨hsize, hprev, ?_, ?_, hroom, hspace⟩
  · intro i hi hi'
    rw [hbins]
    apply (hS.ring i hi hi').congr
    · intro n hn
      apply load_congr
      intro b hlow hhigh
      exact hsame b ⟨i, hi, hi', n, hn, by omega, by omega⟩
    · intro n hn
      apply load_congr
      intro b hlow hhigh
      exact hsame b ⟨i, hi, hi', n, hn, by omega, by omega⟩
  · intro i hi hi'
    rw [hbins, hbit]
    exact hS.bit i hi hi'

theorem Arena.Counted.congr {m m' : Memory} (hC : A.Counted m) (hfast : A'.bins 1 = A.bins 1)
    (hfull : A'.bins 64 = A.bins 64) (hsame : ∀ x, A.PageByte x → m' x = m x) : A'.Counted m' := by
  have hword : ∀ n, A.IsPage n → ∀ o, 16 ≤ o → o + 8 ≤ 40 →
      load 8 m' (n + o) = load 8 m (n + o) := by
    intro n hn o ho ho'
    apply load_congr
    intro b hlow hhigh
    exact hsame b ⟨n, hn, by omega, by omega⟩
  refine ⟨?_, ?_, ?_⟩
  · intro n hn
    rw [Arena.IsPage, hfast, hfull] at hn
    rw [freeCells_congr (hword n hn 24 (by omega) (by omega))
      (hword n hn 32 (by omega) (by omega)), hword n hn 16 (by omega) (by omega)]
    exact hC.count n hn
  · intro n hn
    rw [hfast] at hn
    rw [hword n (.inl hn) 16 (by omega) (by omega)]
    exact hC.count_pos n hn
  · intro n hn
    rw [hfull] at hn
    rw [hword n (.inr hn) 16 (by omega) (by omega)]
    exact hC.count_zero n hn

theorem Arena.Stored.unlink_bytes (hS : A.Stored L s) (hA : A.Shape held first s.base)
    (hL : L.Below first) (hi : 1 ≤ i) (hi' : i ≤ 64) (hn : n ∈ A.bins i) (hx : A.PageByte x) :
    linkMem s.mem (nodePrev s.mem n) (nodeNext s.mem n) x = s.mem x := by
  obtain ⟨hprevMem, hnextMem⟩ := hS.neighbours hi hi' hn
  exact linkMem_apply (hA.node_bytes hL (hA.ring_nodeAt hi hi' hprevMem) hx)
    (hA.node_bytes hL (hA.ring_nodeAt hi hi' hnextMem) hx)

theorem Arena.Stored.push_bytes (hS : A.Stored L s) (hA : A.Shape held first s.base)
    (hL : L.Below first) (hi : 1 ≤ i) (hi' : i ≤ 64) (hn : A.NodeAt L n) (hx : A.PageByte x) :
    (pushState L i n s).mem x = s.mem x := by
  have hheadAt : A.NodeAt L (L.head i) := Or.inl ⟨i, hi', rfl⟩
  have hfirstAt := hA.ring_nodeAt (L := L) hi hi' (hS.ring i hi hi').next_head_mem
  have hnode := hA.node_bytes hL hn hx
  exact (linkMem_apply (hA.node_bytes hL hheadAt hx) hnode).trans
    (linkMem_apply hnode (hA.node_bytes hL hfirstAt hx))

section LinkAt

variable {held held' : Set ℕ} {x y c d c' d' : Chunk}

theorem LinkAt.replace_right (hlink : LinkAt held x c) (hiff : x.addr ∈ held' ↔ x.addr ∈ held)
    (haddr : c'.addr = c.addr) (hprevSize : c'.prevSize = c.prevSize)
    (hprevUsed : c'.prevUsed = c.prevUsed) (hused : c.used = true → c'.used = true) :
    LinkAt held' x c' := by
  refine ⟨hlink.large, hlink.mod, hlink.bounded, haddr.trans hlink.adjacent, ?_, ?_, ?_⟩
  · intro hin
    exact hused (hlink.heldUsed (hiff.mp hin))
  · intro hout
    exact hprevUsed.trans (hlink.prevUsed (mt hiff.mpr hout))
  · intro hout hfree
    obtain ⟨hsize, hnext, hbound⟩ := hlink.free (mt hiff.mpr hout) hfree
    exact ⟨hprevSize.trans hsize, hused hnext, hbound⟩

theorem LinkAt.replace_left (hlink : LinkAt held d y) (hiff : d.addr ∈ held' ↔ d.addr ∈ held)
    (haddr : d'.addr = d.addr) (hsize : d'.size = d.size) (hused : d'.used = d.used) :
    LinkAt held' d' y := by
  refine ⟨hsize ▸ hlink.large, hsize ▸ hlink.mod, hsize ▸ hlink.bounded, ?_, ?_, ?_, ?_⟩
  · rw [haddr, hsize]
    exact hlink.adjacent
  · rw [haddr, hiff]
    exact hlink.heldUsed
  · rw [haddr, hiff, hused]
    exact hlink.prevUsed
  · rw [haddr, hiff, hused, hsize]
    exact hlink.free

theorem LinkAt.of_held (hlink : LinkAt held x y) (hiff : x.addr ∈ held' ↔ x.addr ∈ held) :
    LinkAt held' x y :=
  hlink.replace_left hiff rfl rfl rfl

end LinkAt

namespace Arena.Shape

variable {A A' : Arena} {held held' : Set ℕ} {first base : ℕ}

variable {c d c' d' : Chunk} {pre post mid mid' : List Chunk}

section

variable (hA : A.Shape held first base)

include hA

variable {rest : List Chunk} {x : Chunk}

theorem before_of_split (hsplit : A.chunks = pre ++ c :: rest) (hx : x ∈ pre) :
    48 ≤ x.size ∧ x.addr + x.size ≤ c.addr := by
  have hpair := hA.pairwise
  rw [hsplit] at hpair
  exact (pairwise_append.mp hpair).2.2 x hx c (by simp)

theorem after_of_split (hsplit : A.chunks = pre ++ c :: rest) (hx : x ∈ rest) :
    48 ≤ c.size ∧ c.addr + c.size ≤ x.addr := by
  have hpair := hA.pairwise
  rw [hsplit] at hpair
  exact (pairwise_cons.mp (pairwise_append.mp hpair).2.1).1 x hx

theorem last : ∃ pre t, A.chunks = pre ++ [t] ∧ t.size = 0 ∧ t.used = true ∧ t.addr + 8 = base := by
  obtain ⟨t, ht, hzero, hused, hbase⟩ := hA.top
  obtain ⟨pre, rest, hsplit⟩ := append_of_mem ht
  cases rest with
  | nil => exact ⟨pre, t, hsplit, hzero, hused, hbase⟩
  | cons d post =>
    have := (hA.link_of_split hsplit).large
    omega

theorem link_of_second {p t : Chunk} (hsplit : A.chunks = pre ++ p :: t :: d :: post) :
    LinkAt held t d := by
  have hsplit' : A.chunks = (pre ++ [p]) ++ t :: d :: post := by simp [hsplit]
  exact hA.link_of_split hsplit'

end

variable {a n : ℕ}

theorem has_of_surgery (hsplit : A.chunks = pre ++ c :: (mid ++ d :: post))
    (hsplit' : A'.chunks = pre ++ c' :: (mid' ++ d' :: post))
    (hd : d'.addr = d.addr ∧ d'.size = d.size ∧ d'.used = d.used)
    (hold : ∀ x ∈ c :: mid, x.addr ∈ held) (hout : ∀ x, x ∈ pre ∨ x ∈ d :: post → x.addr ∉ held')
    {u : Bool} (hhas : A.Has a n u) (hheld : a ∉ held) : A'.Has a n u ∧ a ∉ held' := by
  obtain ⟨x, hx, rfl, rfl, rfl⟩ := hhas
  rw [hsplit] at hx
  have hnot : x ∉ c :: mid := fun hin => hheld (hold x hin)
  have hplace : x ∈ pre ∨ x ∈ d :: post := by
    simp only [mem_append, mem_cons] at hx hnot ⊢
    tauto
  refine ⟨?_, hout x hplace⟩
  rcases hplace with hx | hx
  · exact ⟨x, by simp [hsplit', hx], rfl, rfl, rfl⟩
  · rcases mem_cons.mp hx with rfl | hx
    · exact ⟨d', by simp [hsplit'], hd.1, hd.2.1, hd.2.2⟩
    · exact ⟨x, by simp [hsplit', hx], rfl, rfl, rfl⟩

theorem has_of_surgery_free (hsplit : A.chunks = pre ++ c :: (mid ++ d :: post))
    (hsplit' : A'.chunks = pre ++ c' :: (mid' ++ d' :: post))
    (hd : d'.addr = d.addr ∧ d'.size = d.size ∧ d'.used = d.used)
    (hnew : ∀ x ∈ c' :: mid', x.used = false → x.addr ∈ held')
    (hout : ∀ x, x ∈ pre ∨ x ∈ d :: post → x.addr ∉ held) (hhas : A'.Has a n false)
    (hheld : a ∉ held') : A.Has a n false ∧ a ∉ held := by
  obtain ⟨x, hx, rfl, rfl, hfree⟩ := hhas
  rw [hsplit'] at hx
  have hnot : x ∉ c' :: mid' := fun hin => hheld (hnew x hin hfree)
  have hplace : x ∈ pre ∨ x = d' ∨ x ∈ post := by
    simp only [mem_append, mem_cons] at hx hnot ⊢
    tauto
  rcases hplace with hx | rfl | hx
  · exact ⟨⟨x, by simp [hsplit, hx], rfl, rfl, hfree⟩, hout x (.inl hx)⟩
  · refine ⟨⟨d, by simp [hsplit], hd.1.symm, hd.2.1.symm, hd.2.2.symm.trans hfree⟩, ?_⟩
    rw [hd.1]
    exact hout d (.inr mem_cons_self)
  · exact ⟨⟨x, by simp [hsplit, hx], rfl, rfl, hfree⟩, hout x (.inr (mem_cons_of_mem _ hx))⟩

/-- Rebuild the chain of links around the chunks that are replaced. -/
theorem surgery (hA : A.Shape held first base) (hbins : A'.bins = A.bins)
    (hsplit : A.chunks = pre ++ c :: (mid ++ d :: post))
    (hsplit' : A'.chunks = pre ++ c' :: (mid' ++ d' :: post)) (haddr : c'.addr = c.addr)
    (hprevSize : c'.prevSize = c.prevSize) (hprevUsed : c'.prevUsed = c.prevUsed)
    (hused : c.used = true → c'.used = true)
    (hchain : (c' :: mid' ++ [d']).IsChain (LinkAt held'))
    (hd : d'.addr = d.addr ∧ d'.size = d.size ∧ d'.used = d.used)
    (hold : ∀ x ∈ c :: mid, x.addr ∈ held ∧ x.size ≠ 0)
    (hnew : ∀ x ∈ c' :: mid', x.used = false → x.addr ∈ held')
    (hout : ∀ x, x ∈ pre ∨ x ∈ d :: post → x.addr ∉ held ∧ x.addr ∉ held') :
    A'.Shape held' first base := by
  have hiff : ∀ x, x ∈ pre ∨ x ∈ d :: post → (x.addr ∈ held' ↔ x.addr ∈ held) :=
    fun x hx => iff_of_false (hout x hx).2 (hout x hx).1
  have hdmem : d ∈ d :: post := mem_cons_self
  have hpost : ∀ x ∈ post, x ∈ d :: post := fun x hx => mem_cons_of_mem d hx
  have hkeep : ∀ a n u, A.Has a n u → a ∉ held → A'.Has a n u ∧ a ∉ held' :=
    fun a n u => has_of_surgery hsplit hsplit' hd (fun x hx => (hold x hx).1)
      fun x hx => (hout x hx).2
  have hback : ∀ a n, A'.Has a n false → a ∉ held' → A.Has a n false ∧ a ∉ held :=
    fun a n => has_of_surgery_free hsplit hsplit' hd hnew fun x hx => (hout x hx).1
  refine hA.reshape hbins ?_ ?_ ?_ ?_ ?_
  · have hchainA := hA.chain
    rw [hsplit] at hchainA
    rw [hsplit']
    refine isChain_replace_left hchainA ?_ ?_ ?_
    · intro x hx y _ hlink
      exact hlink.of_held (hiff x (.inl hx))
    · intro x hx hlink
      exact hlink.replace_right (hiff x (.inl hx)) haddr hprevSize hprevUsed hused
    · have htail : (d :: post).IsChain (LinkAt held) :=
        hchainA.right_of_append.tail.right_of_append
      rw [← cons_append, isChain_split]
      refine ⟨hchain, isChain_replace_right htail ?_ ?_⟩
      · intro y _ hlink
        exact hlink.replace_left (hiff d (.inr hdmem)) hd.1 hd.2.1 hd.2.2
      · intro x hx y _ hlink
        exact hlink.of_held (hiff x (.inr (hpost x hx)))
  · rw [hsplit']
    exact hA.start_replace hsplit haddr hprevUsed
  · obtain ⟨t, ht, hzero, htused, hbase⟩ := hA.top
    have htout : t.addr ∉ held := by
      have hmem := ht
      rw [hsplit] at hmem
      have hnot : t ∉ c :: mid := fun hin => (hold t hin).2 hzero
      refine (hout t ?_).1
      simp only [mem_append, mem_cons] at hmem hnot ⊢
      tauto
    obtain ⟨⟨t', ht', ha, hn, hu⟩, -⟩ := hkeep t.addr 0 true ⟨t, ht, rfl, hzero, htused⟩ htout
    exact ⟨t', ht', hn, hu, by rw [ha]; exact hbase⟩
  · intro a n
    constructor
    · rintro ⟨hhas, hnotHeld⟩
      exact hback a n hhas hnotHeld
    · rintro ⟨hhas, hnotHeld⟩
      exact hkeep a n false hhas hnotHeld
  · intro a n _ hhas hnotHeld
    exact hkeep a n true hhas hnotHeld

end Arena.Shape

end Xv6MallocLab.Ummalloc
