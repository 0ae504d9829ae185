import Xv6MallocLab.UmmallocCarving

/-!
# The heap as a value that carries its invariant

A `Heap` is a process image together with the arena it stores.  Every transition is a
function between heaps, and `Frame` says what a sequence of them leaves alone.
-/

namespace Xv6MallocLab.Ummalloc

open ByteMemory CircularList List

attribute [local irreducible] load store

structure Heap (L : Layout) (first : ℕ) where
  arena : Arena
  held : Set ℕ
  process : Process
  below : L.Below first
  shape : arena.Shape held first process.base
  stored : arena.Stored L process
  counted : arena.Counted process.mem

variable {L : Layout} {first : ℕ}

structure Frame (h h' : Heap L first) : Prop where
  kept : ∀ addr size, size ≠ 0 → h.arena.Has addr size true → addr ∉ h.held →
    h'.arena.Has addr size true ∧ addr ∉ h'.held
  fast : h'.arena.bins 1 = h.arena.bins 1
  full : h'.arena.bins 64 = h.arena.bins 64
  bytes : ∀ x, h.arena.PageByte x → h'.process.mem x = h.process.mem x
  confined : ∀ x, x ∉ Footprint L first h'.process.base → h'.process.mem x = h.process.mem x
  base_le : h.process.base ≤ h'.process.base
  grown : h'.process.base + h.process.brk = h.process.base + h'.process.brk
  freep : h'.process.freep = h.process.freep
  refusals : h'.process.refusals = h.process.refusals
  grants : h'.process.grants = h.process.grants

namespace Frame

variable {h h1 h2 : Heap L first}

theorem refl (h : Heap L first) : Frame h h :=
  ⟨fun _ _ _ hhas hout => ⟨hhas, hout⟩, rfl, rfl, fun _ _ => rfl, fun _ _ => rfl,
    le_rfl, rfl, rfl, rfl, rfl⟩

theorem trans (f : Frame h h1) (g : Frame h1 h2) : Frame h h2 := by
  refine ⟨?_, g.fast.trans f.fast, g.full.trans f.full, ?_, ?_, f.base_le.trans g.base_le, ?_,
    g.freep.trans f.freep, g.refusals.trans f.refusals, g.grants.trans f.grants⟩
  · intro addr size hsize hhas hout
    obtain ⟨hhas', hout'⟩ := f.kept addr size hsize hhas hout
    exact g.kept addr size hsize hhas' hout'
  · intro x hx
    have hx' : h1.arena.PageByte x := by
      unfold Arena.PageByte Arena.IsPage
      rw [f.fast, f.full]
      exact hx
    rw [g.bytes x hx', f.bytes x hx]
  · intro x hx
    rw [g.confined x hx, f.confined x fun hin => hx (Footprint.mono g.base_le hin)]
  · have := f.grown
    have := g.grown
    omega

end Frame

theorem Heap.base_lt (h : Heap L first) : h.process.base < 2 ^ 64 :=
  lt_of_le_of_lt h.stored.room h.stored.space

section Lists

variable (h : Heap L first) {c d : Chunk} {pre post : List Chunk}

theorem Heap.take_bytes (hc : c ∈ h.arena.chunks) (hfree : c.used = false)
    (hout : c.addr ∉ h.held) {x : ℕ} (hx : h.arena.PageByte x) :
    (takeState h.arena (slotIndex c.size) c.node h.process).mem x = h.process.mem x := by
  obtain ⟨hlow, hhigh⟩ := h.shape.free_chunk hc hfree hout
  obtain ⟨hi, hi'⟩ := slotIndex_bounds hlow hhigh
  exact h.stored.unlink_bytes h.shape h.below (by omega) (by omega)
    (h.shape.free_mem hc hfree hout) hx

def Heap.take (hc : c ∈ h.arena.chunks) (hfree : c.used = false) (hout : c.addr ∉ h.held) :
    Heap L first where
  arena := h.arena.take (slotIndex c.size) c.node
  held := insert c.addr h.held
  process := takeState h.arena (slotIndex c.size) c.node h.process
  below := h.below
  shape := h.shape.take hc hfree hout
  stored := h.stored.take h.shape h.below hc hfree hout
  counted := by
    obtain ⟨hlow, hhigh⟩ := h.shape.free_chunk hc hfree hout
    obtain ⟨hi, hi'⟩ := slotIndex_bounds hlow hhigh
    exact h.counted.congr (h.arena.take_bins_of_ne _ (by omega))
      (h.arena.take_bins_of_ne _ (by omega)) fun x hx => h.take_bytes hc hfree hout hx

theorem Heap.take_frame (hc : c ∈ h.arena.chunks) (hfree : c.used = false)
    (hout : c.addr ∉ h.held) : Frame h (h.take hc hfree hout) := by
  obtain ⟨hlow, hhigh⟩ := h.shape.free_chunk hc hfree hout
  obtain ⟨hi, hi'⟩ := slotIndex_bounds hlow hhigh
  have hmem := h.shape.free_mem hc hfree hout
  refine ⟨?_, h.arena.take_bins_of_ne _ (by omega), h.arena.take_bins_of_ne _ (by omega),
    fun x hx => h.take_bytes hc hfree hout hx, ?_, le_rfl, rfl, rfl, rfl, rfl⟩
  · intro addr size _ hhas hnot
    refine ⟨hhas, ?_⟩
    rintro (rfl | hin)
    · exact Bool.noConfusion (h.shape.has_unique hhas ⟨c, hc, rfl, rfl, hfree⟩).2
    · exact hnot hin
  · intro x hx
    exact takeState_confined h.stored h.shape (by omega) (by omega) hmem hx

def Heap.put (hsplit : h.arena.chunks = pre ++ c :: d :: post) (hheld : c.addr ∈ h.held)
    (hfree : c.used = false) (hsize : c.size ≤ 65536) (hprev : d.prevUsed = false)
    (hprevSize : d.prevSize = c.size) : Heap L first where
  arena := h.arena.put (slotIndex c.size) c.node
  held := h.held \ {c.addr}
  process := putState L (slotIndex c.size) c.node h.process
  below := h.below
  shape := h.shape.put hsplit hheld hfree hsize hprev hprevSize
  stored := h.stored.put h.shape h.below (by simp [hsplit]) hheld
    (h.shape.link_of_split hsplit).large hsize
  counted := by
    have hlow := (h.shape.link_of_split hsplit).large
    obtain ⟨hi, hi'⟩ := slotIndex_bounds hlow hsize
    have hnode : h.arena.NodeAt L c.node := Or.inr ⟨c, by simp [hsplit], by omega, rfl⟩
    exact h.counted.congr (h.arena.put_bins_of_ne _ (by omega))
      (h.arena.put_bins_of_ne _ (by omega))
      fun x hx => h.stored.push_bytes h.shape h.below (by omega) (by omega) hnode hx

theorem Heap.put_frame (hsplit : h.arena.chunks = pre ++ c :: d :: post)
    (hheld : c.addr ∈ h.held) (hfree : c.used = false) (hsize : c.size ≤ 65536)
    (hprev : d.prevUsed = false) (hprevSize : d.prevSize = c.size) :
    Frame h (h.put hsplit hheld hfree hsize hprev hprevSize) := by
  have hlow := (h.shape.link_of_split hsplit).large
  obtain ⟨hi, hi'⟩ := slotIndex_bounds hlow hsize
  have hnode : h.arena.NodeAt L c.node := Or.inr ⟨c, by simp [hsplit], by omega, rfl⟩
  refine ⟨?_, h.arena.put_bins_of_ne _ (by omega), h.arena.put_bins_of_ne _ (by omega),
    fun x hx => h.stored.push_bytes h.shape h.below (by omega) (by omega) hnode hx,
    ?_, le_rfl, rfl, rfl, rfl, rfl⟩
  · intro addr size _ hhas hnot
    exact ⟨hhas, fun hin => hnot hin.1⟩
  · intro x hx
    exact pushState_confined h.stored h.shape (by omega) (by omega) hnode hx

end Lists

/-- The held chunks `c :: mid` are to be replaced by `c' :: mid'` and the
header `d` behind them by `d'`, in the arena and in memory. -/
structure Surgery (h : Heap L first) where
  pre : List Chunk
  mid : List Chunk
  mid' : List Chunk
  post : List Chunk
  c : Chunk
  c' : Chunk
  d : Chunk
  d' : Chunk
  held' : Set ℕ
  mem' : Memory
  split : h.arena.chunks = pre ++ c :: (mid ++ d :: post)
  addr : c'.addr = c.addr
  prevSize : c'.prevSize = c.prevSize
  prevUsed : c'.prevUsed = c.prevUsed
  used : c.used = true → c'.used = true
  behind : d'.addr = d.addr ∧ d'.size = d.size ∧ d'.used = d.used
  chain : (c' :: mid' ++ [d']).IsChain (LinkAt held')
  old : ∀ x ∈ c :: mid, x.addr ∈ h.held ∧ x.size ≠ 0
  new : ∀ x ∈ c' :: mid', x.used = false → x.addr ∈ held'
  out : ∀ x, x ∈ pre ∨ x ∈ d :: post → x.addr ∉ h.held ∧ x.addr ∉ held'
  headers : ∀ x ∈ c' :: mid' ++ [d'],
    load 4 mem' (x.addr + 4) = x.size + x.flags ∧ load 4 mem' x.addr = x.prevSize
  same : ∀ y, h.arena.Listed L y ∨ y < c.addr ∨ d.addr + 8 ≤ y → mem' y = h.process.mem y

namespace Surgery

variable {h : Heap L first} (S : Surgery h)

def arena : Arena := { h.arena with chunks := S.pre ++ S.c' :: (S.mid' ++ S.d' :: S.post) }

theorem mem_c : S.c ∈ h.arena.chunks := by simp [S.split]

theorem mem_d : S.d ∈ h.arena.chunks := by simp [S.split]

theorem header (x : Chunk) (hx : x ∈ S.arena.chunks) :
    load 4 S.mem' (x.addr + 4) = x.size + x.flags ∧ load 4 S.mem' x.addr = x.prevSize := by
  have hold : ∀ x ∈ h.arena.chunks, x.addr + 8 ≤ S.c.addr ∨ S.d.addr + 8 ≤ x.addr →
      load 4 S.mem' (x.addr + 4) = x.size + x.flags ∧ load 4 S.mem' x.addr = x.prevSize := by
    intro x hx hplace
    constructor
    · rw [← h.stored.size x hx]
      exact load_congr fun y hlow hhigh => S.same y (.inr (by omega))
    · rw [← h.stored.prev x hx]
      exact load_congr fun y hlow hhigh => S.same y (.inr (by omega))
  have hcases : x ∈ S.pre ∨ x ∈ S.c' :: S.mid' ++ [S.d'] ∨ x ∈ S.post := by
    simp only [arena, mem_append, mem_cons] at hx ⊢
    tauto
  rcases hcases with hpre | hmid | hpost
  · have hbefore := h.shape.before_of_split S.split hpre
    exact hold x (by simp [S.split, hpre]) (.inl (by omega))
  · exact S.headers x hmid
  · have hsplit : h.arena.chunks = (S.pre ++ S.c :: S.mid) ++ S.d :: S.post := by
      rw [S.split]
      simp
    have hafter := h.shape.after_of_split hsplit hpost
    exact hold x (by simp [S.split, hpost]) (.inr (by omega))

def result : Heap L first where
  arena := S.arena
  held := S.held'
  process := { h.process with mem := S.mem' }
  below := h.below
  shape := h.shape.surgery rfl S.split rfl S.addr S.prevSize S.prevUsed S.used S.chain S.behind
    S.old S.new S.out
  stored := h.stored.rewrite rfl rfl (fun y hy => S.same y (.inl (.inl hy)))
    (fun x hx => (S.header x hx).1) (fun x hx => (S.header x hx).2) h.stored.room h.stored.space
  counted := h.counted.congr rfl rfl fun y hy => S.same y (.inl (.inr hy))

theorem frame : Frame h S.result := by
  refine ⟨?_, rfl, rfl, fun y hy => S.same y (.inl (.inr hy)), ?_, le_rfl, rfl, rfl, rfl,
    rfl⟩
  · intro addr size _ hhas hout
    exact Arena.Shape.has_of_surgery S.split rfl S.behind (fun x hx => (S.old x hx).1)
      (fun x hx => (S.out x hx).2) hhas hout
  · intro x hx
    apply S.same x
    right
    have hfirst := h.shape.first_le S.mem_c
    have hend := h.shape.end_le S.mem_d
    have hout : ¬ (first ≤ x ∧ x < h.process.base) := fun hin => hx (.inl hin)
    omega

end Surgery

section Headers

variable (h : Heap L first) {c d p t : Chunk} {pre post : List Chunk}

def allocateMem (m : Memory) (c d : Chunk) : Memory :=
  store 4 (store 4 (store 4 m (c.addr + 4) (c.size + 3)) d.addr c.size) (d.addr + 4)
    (d.size + { d with prevUsed := true }.flags)

theorem Heap.allocate_headers (hsplit : h.arena.chunks = pre ++ c :: d :: post)
    (hprev : c.prevUsed = true) :
    ∀ x ∈ { c with used := true } :: [] ++ [{ d with prevSize := c.size, prevUsed := true }],
      load 4 (allocateMem h.process.mem c d) (x.addr + 4) = x.size + x.flags ∧
        load 4 (allocateMem h.process.mem c d) x.addr = x.prevSize := by
  obtain ⟨hlarge, -, hbound, hadj, -⟩ := h.shape.link_of_split hsplit
  have hc : c ∈ h.arena.chunks := by simp [hsplit]
  have hd : d ∈ h.arena.chunks := by simp [hsplit]
  have hdsize := h.shape.size_cases hd
  have hflags := Chunk.flags_lt { d with prevUsed := true }
  have hcprev := h.stored.prev c hc
  have hcflags : Chunk.flags { c with used := true } = 3 := by simp [Chunk.flags, hprev]
  intro x hx
  simp only [mem_append, mem_cons, not_mem_nil, or_false] at hx
  unfold allocateMem
  rcases hx with rfl | rfl
  · dsimp only
    constructor
    · simp (disch := omega) only [hcflags, load_store_of_disjoint, load_store_of_lt]
    · simp (disch := omega) only [load_store_of_disjoint, hcprev]
  · dsimp only
    constructor
    · exact load_store_of_lt (by omega)
    · rw [load_store_of_disjoint (by omega), load_store_of_lt (by omega)]

theorem Heap.allocate_same (hsplit : h.arena.chunks = pre ++ c :: d :: post) :
    ∀ y, h.arena.Listed L y ∨ y < c.addr ∨ d.addr + 8 ≤ y →
      allocateMem h.process.mem c d y = h.process.mem y := by
  intro y hy
  obtain ⟨hlarge, -, -, hadj, -⟩ := h.shape.link_of_split hsplit
  have hplace : (y < c.addr ∨ c.addr + 8 ≤ y) ∧ (y < d.addr ∨ d.addr + 8 ≤ y) := by
    rcases hy with hy | hy
    · exact ⟨h.shape.listed_header h.below hy (by simp [hsplit]),
        h.shape.listed_header h.below hy (by simp [hsplit])⟩
    · omega
  unfold allocateMem
  simp (disch := omega) only [store_apply_of_outside]

def Heap.allocate (hsplit : h.arena.chunks = pre ++ c :: d :: post) (hheld : h.held = {c.addr})
    (hprev : c.prevUsed = true) : Surgery h where
  pre := pre
  mid := []
  mid' := []
  post := post
  c := c
  c' := { c with used := true }
  d := d
  d' := { d with prevSize := c.size, prevUsed := true }
  held' := ∅
  mem' := allocateMem h.process.mem c d
  split := hsplit
  addr := rfl
  prevSize := rfl
  prevUsed := rfl
  used := fun _ => rfl
  behind := ⟨rfl, rfl, rfl⟩
  chain := by
    obtain ⟨hlarge, hmod, hbound, hadj, -⟩ := h.shape.link_of_split hsplit
    exact isChain_pair.mpr ⟨hlarge, hmod, hbound, hadj,
      fun hin => absurd hin (Set.notMem_empty _), fun _ => rfl, fun _ hfree => Bool.noConfusion hfree⟩
  old := by
    intro x hx
    have hlarge := (h.shape.link_of_split hsplit).large
    rw [mem_singleton.mp hx, hheld]
    exact ⟨rfl, by omega⟩
  new := by
    intro x hx hfree
    rw [mem_singleton.mp hx] at hfree
    exact Bool.noConfusion hfree
  out := by
    intro x hx
    refine ⟨?_, Set.notMem_empty _⟩
    rw [hheld, Set.mem_singleton_iff]
    rcases hx with hx | hx
    · have := h.shape.before_of_split hsplit hx
      omega
    · have := h.shape.after_of_split hsplit hx
      omega
  headers := h.allocate_headers hsplit hprev
  same := h.allocate_same hsplit

def splitMem (m : Memory) (c d : Chunk) (need rest : ℕ) : Memory :=
  store 4 (store 4 (store 4 (store 4 (store 4 m d.addr rest) (d.addr + 4) (d.size + 2))
    (c.addr + 4) (need + 3)) (c.addr + need) need) (c.addr + need + 4) (rest + 1)

theorem Heap.split_headers {need rest : ℕ} (hsplit : h.arena.chunks = pre ++ c :: d :: post)
    (hheld : h.held = {c.addr}) (hprev : c.prevUsed = true) (hsum : need + rest = c.size)
    (hneed : 48 ≤ need) (hrest : 48 ≤ rest) :
    ∀ x ∈ { c with size := need, used := true } :: [⟨c.addr + need, rest, need, true, false⟩] ++
        [{ d with prevSize := rest, prevUsed := false }],
      load 4 (splitMem h.process.mem c d need rest) (x.addr + 4) = x.size + x.flags ∧
        load 4 (splitMem h.process.mem c d need rest) x.addr = x.prevSize := by
  obtain ⟨hlarge, -, hbound, hadj, hused, -⟩ := h.shape.link_of_split hsplit
  have hc : c ∈ h.arena.chunks := by simp [hsplit]
  have hd : d ∈ h.arena.chunks := by simp [hsplit]
  have hdsize := h.shape.size_cases hd
  have hcprev := h.stored.prev c hc
  have hdused : d.used = true := hused (by rw [hheld]; rfl)
  intro x hx
  simp only [mem_append, mem_cons, not_mem_nil, or_false] at hx
  unfold splitMem
  rcases hx with (rfl | rfl) | rfl
  · have hflags : Chunk.flags { c with size := need, used := true } = 3 := by
      simp [Chunk.flags, hprev]
    dsimp only
    constructor
    · simp (disch := omega) only [hflags, load_store_of_disjoint, load_store_of_lt]
    · simp (disch := omega) only [load_store_of_disjoint, hcprev]
  · dsimp only
    constructor
    · exact load_store_of_lt (by omega)
    · rw [load_store_of_disjoint (by omega), load_store_of_lt (by omega)]
  · have hflags : Chunk.flags { d with prevSize := rest, prevUsed := false } = 2 := by
      simp [Chunk.flags, hdused]
    dsimp only
    constructor
    · simp (disch := omega) only [hflags, load_store_of_disjoint, load_store_of_lt]
    · simp (disch := omega) only [load_store_of_disjoint, load_store_of_lt]

theorem Heap.split_same {need rest : ℕ} (hsplit : h.arena.chunks = pre ++ c :: d :: post)
    (hheld : h.held = {c.addr}) (hsum : need + rest = c.size) (hneed : 48 ≤ need)
    (hrest : 48 ≤ rest) :
    ∀ y, h.arena.Listed L y ∨ y < c.addr ∨ d.addr + 8 ≤ y →
      splitMem h.process.mem c d need rest y = h.process.mem y := by
  intro y hy
  obtain ⟨hlarge, -, -, hadj, -⟩ := h.shape.link_of_split hsplit
  have hplace : (y < c.addr ∨ c.addr + c.size ≤ y) ∧ (y < d.addr ∨ d.addr + 8 ≤ y) := by
    rcases hy with hy | hy
    · exact ⟨h.shape.listed_held h.below hy (by simp [hsplit]) (by rw [hheld]; rfl),
        h.shape.listed_header h.below hy (by simp [hsplit])⟩
    · omega
  unfold splitMem
  simp (disch := omega) only [store_apply_of_outside]

/-- Cut the held chunk `c` into a used part of size `need` and a held rest. -/
def Heap.split {need rest : ℕ} (hsplit : h.arena.chunks = pre ++ c :: d :: post)
    (hheld : h.held = {c.addr}) (hprev : c.prevUsed = true) (hsum : need + rest = c.size)
    (hneed : 48 ≤ need) (hmod : need % 8 = 0) (hrest : 48 ≤ rest) : Surgery h where
  pre := pre
  mid := []
  mid' := [⟨c.addr + need, rest, need, true, false⟩]
  post := post
  c := c
  c' := { c with size := need, used := true }
  d := d
  d' := { d with prevSize := rest, prevUsed := false }
  held' := {c.addr + need}
  mem' := splitMem h.process.mem c d need rest
  split := hsplit
  addr := rfl
  prevSize := rfl
  prevUsed := rfl
  used := fun _ => rfl
  behind := ⟨rfl, rfl, rfl⟩
  chain := by
    obtain ⟨-, hcmod, hbound, hadj, hused, -⟩ := h.shape.link_of_split hsplit
    have hne : c.addr ∉ ({c.addr + need} : Set ℕ) := by
      rw [Set.mem_singleton_iff]
      omega
    refine isChain_cons_cons.mpr ⟨?_, isChain_pair.mpr ?_⟩
    · exact ⟨hneed, hmod, by change need ≤ _; omega, rfl, fun hin => absurd hin hne,
        fun _ => rfl, fun _ hfree => Bool.noConfusion hfree⟩
    · refine ⟨hrest, by change rest % 8 = 0; omega, by change rest ≤ _; omega, ?_, ?_, ?_, ?_⟩
      · change d.addr = c.addr + need + rest
        omega
      · exact fun _ => hused (by rw [hheld]; rfl)
      · exact fun hout => absurd rfl hout
      · exact fun hout => absurd rfl hout
  old := by
    intro x hx
    have hlarge := (h.shape.link_of_split hsplit).large
    rw [mem_singleton.mp hx, hheld]
    exact ⟨rfl, by omega⟩
  new := by
    intro x hx hfree
    simp only [mem_cons, not_mem_nil, or_false] at hx
    rcases hx with rfl | rfl
    · exact Bool.noConfusion hfree
    · rfl
  out := by
    intro x hx
    rw [hheld, Set.mem_singleton_iff, Set.mem_singleton_iff]
    rcases hx with hx | hx
    · have := h.shape.before_of_split hsplit hx
      omega
    · have := h.shape.after_of_split hsplit hx
      omega
  headers := h.split_headers hsplit hheld hprev hsum hneed hrest
  same := h.split_same hsplit hheld hsum hneed hrest

def mergeMem (m : Memory) (p t d : Chunk) : Memory :=
  store 4 (store 4 m (p.addr + 4) (p.size + p.flags + t.size)) d.addr (p.size + t.size)

theorem Heap.merge_headers (hsplit : h.arena.chunks = pre ++ p :: t :: d :: post)
    (hsize : p.size + t.size ≤ 131072) :
    ∀ x ∈ { p with size := p.size + t.size } :: [] ++ [{ d with prevSize := p.size + t.size }],
      load 4 (mergeMem h.process.mem p t d) (x.addr + 4) = x.size + x.flags ∧
        load 4 (mergeMem h.process.mem p t d) x.addr = x.prevSize := by
  obtain ⟨hlarge, -, -, hadj, -⟩ := h.shape.link_of_split hsplit
  have hadj' := (h.shape.link_of_second hsplit).adjacent
  have hp : p ∈ h.arena.chunks := by simp [hsplit]
  have hd : d ∈ h.arena.chunks := by simp [hsplit]
  have hpprev := h.stored.prev p hp
  have hdsize := h.stored.size d hd
  have hflags := p.flags_lt
  intro x hx
  simp only [mem_append, mem_cons, not_mem_nil, or_false] at hx
  unfold mergeMem
  rcases hx with rfl | rfl
  · dsimp only
    constructor
    · rw [load_store_of_disjoint (by omega), load_store_of_lt (by omega)]
      exact Nat.add_right_comm _ _ _
    · simp (disch := omega) only [load_store_of_disjoint, hpprev]
  · dsimp only
    constructor
    · simp (disch := omega) only [load_store_of_disjoint, hdsize]
      rfl
    · exact load_store_of_lt (by omega)

def Heap.merge (hsplit : h.arena.chunks = pre ++ p :: t :: d :: post)
    (hheld : h.held = {p.addr, t.addr}) (hsize : p.size + t.size ≤ 131072) : Surgery h where
  pre := pre
  mid := [t]
  mid' := []
  post := post
  c := p
  c' := { p with size := p.size + t.size }
  d := d
  d' := { d with prevSize := p.size + t.size }
  held' := {p.addr}
  mem' := mergeMem h.process.mem p t d
  split := hsplit
  addr := rfl
  prevSize := rfl
  prevUsed := rfl
  used := id
  behind := ⟨rfl, rfl, rfl⟩
  chain := by
    obtain ⟨hlarge, hmods, -, hadj, -⟩ := h.shape.link_of_split hsplit
    obtain ⟨-, hmods', -, hadj', hused, -⟩ := h.shape.link_of_second hsplit
    refine isChain_pair.mpr ⟨?_, ?_, hsize, ?_, ?_, ?_, ?_⟩
    · change 48 ≤ p.size + t.size
      omega
    · change (p.size + t.size) % 8 = 0
      omega
    · change d.addr = p.addr + (p.size + t.size)
      omega
    · exact fun _ => hused (by rw [hheld]; exact .inr rfl)
    · exact fun hout => absurd rfl hout
    · exact fun hout => absurd rfl hout
  old := by
    intro x hx
    have hlarge := (h.shape.link_of_split hsplit).large
    have hlarge' := (h.shape.link_of_second hsplit).large
    simp only [mem_cons, not_mem_nil, or_false] at hx
    rw [hheld]
    rcases hx with rfl | rfl
    · exact ⟨.inl rfl, by omega⟩
    · exact ⟨.inr rfl, by omega⟩
  new := by
    intro x hx _
    rw [mem_singleton.mp hx]
    rfl
  out := by
    intro x hx
    rw [hheld, Set.mem_insert_iff, Set.mem_singleton_iff, Set.mem_singleton_iff]
    obtain ⟨hlarge, -, -, hadj, -⟩ := h.shape.link_of_split hsplit
    have hsplit' : h.arena.chunks = (pre ++ [p]) ++ t :: d :: post := by simp [hsplit]
    rcases hx with hx | hx
    · have := h.shape.before_of_split hsplit hx
      omega
    · have := h.shape.after_of_split hsplit' hx
      omega
  headers := h.merge_headers hsplit hsize
  same := by
    intro y hy
    obtain ⟨hlarge, -, -, hadj, -⟩ := h.shape.link_of_split hsplit
    have hadj' := (h.shape.link_of_second hsplit).adjacent
    have hplace : (y < p.addr ∨ p.addr + 8 ≤ y) ∧ (y < d.addr ∨ d.addr + 8 ≤ y) := by
      rcases hy with hy | hy
      · exact ⟨h.shape.listed_header h.below hy (by simp [hsplit]),
          h.shape.listed_header h.below hy (by simp [hsplit])⟩
      · omega
    unfold mergeMem
    simp (disch := omega) only [store_apply_of_outside]

end Headers

section Extend

variable (h : Heap L first) {t : Chunk} {pre : List Chunk} {size : ℕ}

/-- The sentinel becomes a chunk of `size` fresh bytes and a new sentinel is
written at the new top. -/
def extendArena (A : Arena) (m : Memory) (pre : List Chunk) (t : Chunk) (size : ℕ) : Arena :=
  { A with
    chunks := pre ++ { t with size := size } ::
      [⟨t.addr + size, 0, load 4 m (t.addr + size), false, true⟩] }

def extendState (s : Process) (t : Chunk) (size : ℕ) : Process :=
  { s with
    mem := store 4 (store 4 s.mem (t.addr + 4) (size + t.flags)) (t.addr + size + 4) 2
    base := s.base + size
    brk := s.brk + size
    calls := s.calls + 1 }

theorem extendState_apply {s : Process} {y : ℕ} (hout : y < t.addr ∨ t.addr + size + 8 ≤ y)
    (hsize : 48 ≤ size) : (extendState s t size).mem y = s.mem y := by
  unfold extendState
  dsimp only
  simp (disch := omega) only [store_apply_of_outside]

theorem Arena.Shape.extend {A : Arena} {base : ℕ} (hA : A.Shape ∅ first base) (m : Memory)
    (hsplit : A.chunks = pre ++ [t]) (hlow : 48 ≤ size) (hmod : size % 8 = 0)
    (hhigh : size ≤ 131072) : (extendArena A m pre t size).Shape {t.addr} first (base + size) := by
  obtain ⟨pre', t', hlast, hzero, hused, hbase⟩ := hA.last
  obtain ⟨rfl, ht⟩ := append_inj' (hsplit.symm.trans hlast) rfl
  obtain rfl := singleton_inj.mp ht
  have hne : ∀ x ∈ pre, x.addr ≠ t.addr := by
    intro x hx
    have := hA.before_of_split hsplit hx
    omega
  have hiff : ∀ x ∈ pre, (x.addr ∈ ({t.addr} : Set ℕ) ↔ x.addr ∈ (∅ : Set ℕ)) :=
    fun x hx => iff_of_false (hne x hx) (Set.notMem_empty _)
  refine hA.reshape rfl ?_ ?_ ?_ ?_ ?_
  · have hchain := hA.chain
    rw [hsplit] at hchain
    refine isChain_replace_left hchain ?_ ?_ ?_
    · intro x hx y _ hlink
      exact hlink.of_held (hiff x hx)
    · intro x hx hlink
      exact hlink.replace_right (hiff x hx) rfl rfl rfl id
    · exact isChain_pair.mpr ⟨hlow, hmod, hhigh, rfl, fun _ => rfl,
        fun hout => absurd rfl hout, fun hout => absurd rfl hout⟩
  · exact hA.start_replace hsplit rfl rfl
  · refine ⟨⟨t.addr + size, 0, load 4 m (t.addr + size), false, true⟩, ?_, rfl, rfl, ?_⟩
    · simp [extendArena]
    · change t.addr + size + 8 = base + size
      omega
  · intro a n
    constructor
    · rintro ⟨⟨x, hx, rfl, rfl, hfree⟩, hout⟩
      simp only [extendArena, mem_append, mem_cons, not_mem_nil, or_false] at hx
      rcases hx with hx | rfl | rfl
      · exact ⟨⟨x, by simp [hsplit, hx], rfl, rfl, hfree⟩, Set.notMem_empty _⟩
      · exact absurd rfl hout
      · exact Bool.noConfusion hfree
    · rintro ⟨⟨x, hx, rfl, rfl, hfree⟩, -⟩
      rw [hsplit] at hx
      rcases mem_append.mp hx with hx | hx
      · exact ⟨⟨x, by simp [extendArena, hx], rfl, rfl, hfree⟩, hne x hx⟩
      · rw [mem_singleton.mp hx, hused] at hfree
        exact Bool.noConfusion hfree
  · rintro a n hn ⟨x, hx, rfl, rfl, hxused⟩ -
    rw [hsplit] at hx
    rcases mem_append.mp hx with hx | hx
    · exact ⟨⟨x, by simp [extendArena, hx], rfl, rfl, hxused⟩, hne x hx⟩
    · rw [mem_singleton.mp hx] at hn
      exact absurd hzero hn

theorem Heap.top_addr (hsplit : h.arena.chunks = pre ++ [t]) :
    t.addr + 8 = h.process.base ∧ t.size = 0 := by
  obtain ⟨pre', t', hlast, hzero, -, hbase⟩ := h.shape.last
  obtain ⟨rfl, ht⟩ := append_inj' (hsplit.symm.trans hlast) rfl
  obtain rfl := singleton_inj.mp ht
  exact ⟨hbase, hzero⟩

theorem Heap.extend_stored (hsplit : h.arena.chunks = pre ++ [t]) (hlow : 48 ≤ size)
    (hhigh : size ≤ 131072) (hspace : h.process.brk + size < 2 ^ 64) :
    (extendArena h.arena h.process.mem pre t size).Stored L (extendState h.process t size) := by
  have htop := (h.top_addr hsplit).1
  have ht : t ∈ h.arena.chunks := by simp [hsplit]
  have hflags := t.flags_lt
  have hold : ∀ x ∈ pre, load 4 (extendState h.process t size).mem (x.addr + 4) =
      x.size + x.flags ∧ load 4 (extendState h.process t size).mem x.addr = x.prevSize := by
    intro x hx
    have hxmem : x ∈ h.arena.chunks := by simp [hsplit, hx]
    have hbefore := h.shape.before_of_split hsplit hx
    constructor
    · rw [← h.stored.size x hxmem]
      exact load_congr fun y _ hy => extendState_apply (.inl (by omega)) hlow
    · rw [← h.stored.prev x hxmem]
      exact load_congr fun y _ hy => extendState_apply (.inl (by omega)) hlow
  have hheader : ∀ x ∈ (extendArena h.arena h.process.mem pre t size).chunks,
      load 4 (extendState h.process t size).mem (x.addr + 4) = x.size + x.flags ∧
        load 4 (extendState h.process t size).mem x.addr = x.prevSize := by
    intro x hx
    simp only [extendArena, mem_append, mem_cons, not_mem_nil, or_false] at hx
    rcases hx with hx | rfl | rfl
    · exact hold x hx
    · unfold extendState
      dsimp only
      constructor
      · rw [load_store_of_disjoint (by omega), load_store_of_lt (by omega)]
        rfl
      · simp (disch := omega) only [load_store_of_disjoint]
        exact h.stored.prev t ht
    · unfold extendState
      dsimp only
      constructor
      · exact load_store_of_lt (by omega)
      · simp (disch := omega) only [load_store_of_disjoint]
  refine h.stored.rewrite rfl rfl ?_ (fun x hx => (hheader x hx).1)
    (fun x hx => (hheader x hx).2) (Nat.add_le_add_right h.stored.room size) hspace
  intro y hy
  have := h.shape.listed_lt h.below (.inl hy)
  exact extendState_apply (.inl (by omega)) hlow

def Heap.extend (hheld : h.held = ∅) (hsplit : h.arena.chunks = pre ++ [t]) (hlow : 48 ≤ size)
    (hmod : size % 8 = 0) (hhigh : size ≤ 131072) (hspace : h.process.brk + size < 2 ^ 64) :
    Heap L first where
  arena := extendArena h.arena h.process.mem pre t size
  held := {t.addr}
  process := extendState h.process t size
  below := h.below
  shape := Arena.Shape.extend (hheld ▸ h.shape) h.process.mem hsplit hlow hmod hhigh
  stored := h.extend_stored hsplit hlow hhigh hspace
  counted := by
    have htop := (h.top_addr hsplit).1
    refine h.counted.congr rfl rfl fun y hy => ?_
    have := h.shape.listed_lt h.below (.inr hy)
    exact extendState_apply (.inl (by omega)) hlow

theorem Heap.extend_frame (hheld : h.held = ∅) (hsplit : h.arena.chunks = pre ++ [t])
    (hlow : 48 ≤ size) (hmod : size % 8 = 0) (hhigh : size ≤ 131072)
    (hspace : h.process.brk + size < 2 ^ 64) :
    Frame h (h.extend hheld hsplit hlow hmod hhigh hspace) := by
  obtain ⟨htop, hzero⟩ := h.top_addr hsplit
  have ht : t ∈ h.arena.chunks := by simp [hsplit]
  refine ⟨?_, rfl, rfl, ?_, ?_, Nat.le_add_right _ _, ?_, rfl, rfl, rfl⟩
  · rintro a n hn ⟨x, hx, rfl, rfl, hxused⟩ -
    rw [hsplit] at hx
    rcases mem_append.mp hx with hx | hx
    · have hbefore := h.shape.before_of_split hsplit hx
      refine ⟨⟨x, by simp [Heap.extend, extendArena, hx], rfl, rfl, hxused⟩, ?_⟩
      change x.addr ≠ t.addr
      omega
    · rw [mem_singleton.mp hx] at hn
      exact absurd hzero hn
  · intro x hx
    have := h.shape.listed_lt h.below (.inr hx)
    exact extendState_apply (.inl (by omega)) hlow
  · intro x hx
    have hfirst := h.shape.first_le ht
    have hout : ¬ (first ≤ x ∧ x < h.process.base + size) := fun hin => hx (.inl hin)
    exact extendState_apply (by omega) hlow
  · change h.process.base + size + h.process.brk = h.process.base + (h.process.brk + size)
    omega

end Extend

end Xv6MallocLab.Ummalloc
