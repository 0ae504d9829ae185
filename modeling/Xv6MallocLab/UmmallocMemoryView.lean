import Xv6MallocLab.UmmallocRequests

/-!
# The heap as the memory shows it

The invariant, payload and metadata on the bytes alone, by following sizes from the first
chunk and links from the list heads.
-/

namespace Xv6MallocLab.Ummalloc

open ByteMemory CircularList List

attribute [local irreducible] load store

def InUse (m : Memory) (pack : ℕ) : Prop := packMeta m pack &&& thisInuse ≠ 0

def PrevInUse (m : Memory) (pack : ℕ) : Prop := packMeta m pack &&& prevInuse ≠ 0

/-- Following `pack_next` from the first address visits exactly these chunks
before it reaches `stop`; each lies directly behind the one before. -/
inductive Walk (m : Memory) (stop : ℕ) : ℕ → List ℕ → Prop
  | stop : Walk m stop stop []
  | step {pack : ℕ} {rest : List ℕ} (pos : 0 < packSize m pack)
      (mod : packSize m pack % 8 = 0) (next : packNext m pack = pack + packSize m pack)
      (tail : Walk m stop (packNext m pack) rest) : Walk m stop pack (pack :: rest)

theorem Walk.unique {m : Memory} {stop pack : ℕ} {l l' : List ℕ} (hw : Walk m stop pack l)
    (hw' : Walk m stop pack l') (hstop : packSize m stop = 0) : l = l' := by
  induction hw generalizing l' with
  | stop =>
    cases hw' with
    | stop => rfl
    | step pos => omega
  | step pos mod next tail ih =>
    cases hw' with
    | stop => omega
    | step pos' mod' next' tail' => rw [ih tail']

structure Border (m : Memory) (a b : ℕ) : Prop where
  notBothFree : InUse m a ∨ InUse m b
  prevInUse : PrevInUse m b ↔ InUse m a
  prevSize : ¬ InUse m a → load 4 m b = packSize m a

structure InvariantFor (L : Layout) (first : ℕ) (s : Process) (chunks : List ℕ) : Prop where
  walk : Walk s.mem (s.base - 8) first chunks
  sentinel : 8 ≤ s.base ∧ packSize s.mem (s.base - 8) = 0 ∧ InUse s.mem (s.base - 8)
  borders : (chunks ++ [s.base - 8]).IsChain (Border s.mem)
  start : PrevInUse s.mem first
  freeSize : ∀ a ∈ chunks, ¬ InUse s.mem a → 48 ≤ packSize s.mem a ∧ packSize s.mem a ≤ 65536
  lists : ∀ i, 2 ≤ i → i < 64 → ∃ members,
    Ring (nodeNext s.mem) (nodePrev s.mem) (L.slot i) members ∧ (L.slot i :: members).Nodup ∧
      (∀ n, n ∈ members ↔ ∃ a ∈ chunks, ¬ InUse s.mem a ∧ n = a + 8 ∧
        (getIndex (packSize s.mem a)).run s = .ok i s) ∧
      (s.bitmap.getLsbD i = true ↔ members ≠ [])
  pages : ∀ list, list = L.slot 1 ∨ list = L.fastFull → ∃ members,
    Ring (nodeNext s.mem) (nodePrev s.mem) list members ∧
      ∀ n ∈ members, ∃ a ∈ chunks, InUse s.mem a ∧ n = a + 8

def HeapInvariant (L : Layout) (first : ℕ) (s : Process) : Prop :=
  ∃ chunks, InvariantFor L first s chunks

def IsChunk (first : ℕ) (s : Process) (a : ℕ) : Prop :=
  ∃ chunks, Walk s.mem (s.base - 8) first chunks ∧ a ∈ chunks

def Linked (m : Memory) (list n : ℕ) : Prop := n ≠ list ∧ ∃ k, (nodeNext m)^[k] list = n

def PageNode (L : Layout) (m : Memory) (n : ℕ) : Prop :=
  ∃ list, (list = L.slot 1 ∨ list = L.fastFull) ∧ n ≠ list ∧ ∃ k, (nodeNext m)^[k] list = n

/-- The bytes `[p, p + size)` lie in the payload of the chunk in use, or of
the fast cell handed out, at `p - 8`. -/
def InPayload (L : Layout) (first : ℕ) (s : Process) (p size : ℕ) : Prop :=
  (∃ a, IsChunk first s a ∧ InUse s.mem a ∧ ¬ PageNode L s.mem (a + 8) ∧ p = a + 8 ∧
      size + 8 ≤ packSize s.mem a) ∨
    ∃ n k, PageNode L s.mem n ∧ k < 128 ∧ k ∉ freeCells s.mem n ∧ p = n + 40 + 32 * k + 8 ∧
      size + 8 ≤ 32

/-- Byte `x` belongs to a header, to the sentinel, to a list node or to the
count and bitmap words of a fast page. -/
def Metadata (L : Layout) (first : ℕ) (s : Process) (x : ℕ) : Prop :=
  (∃ a, (IsChunk first s a ∨ a = s.base - 8) ∧ a ≤ x ∧ x < a + 8) ∨
    (∃ i k, 1 ≤ i ∧ i ≤ 64 ∧ (nodeNext s.mem)^[k] (L.head i) ≤ x ∧
      x < (nodeNext s.mem)^[k] (L.head i) + 16) ∨
    ∃ n, PageNode L s.mem n ∧ n ≤ x ∧ x < n + 40

namespace Heap

variable {L : Layout} {first : ℕ} (h : Heap L first)

variable {c : Chunk} {n p size : ℕ}

theorem inUse_iff (hc : c ∈ h.arena.chunks) : InUse h.process.mem c.addr ↔ c.used = true := by
  rw [InUse, h.packMeta hc]
  unfold Chunk.flags
  cases c.prevUsed <;> cases c.used <;> decide

theorem prevInUse_iff (hc : c ∈ h.arena.chunks) :
    PrevInUse h.process.mem c.addr ↔ c.prevUsed = true := by
  rw [PrevInUse, h.packMeta hc]
  unfold Chunk.flags
  cases c.prevUsed <;> cases c.used <;> decide

theorem walk_of_chain {t : Chunk} :
    ∀ l : List Chunk, (∀ c ∈ l ++ [t], c ∈ h.arena.chunks) →
      (l ++ [t]).IsChain (LinkAt h.held) → ∀ a, (l ++ [t]).head?.map Chunk.addr = some a →
      Walk h.process.mem t.addr a (l.map Chunk.addr) := by
  intro l
  induction l with
  | nil =>
    intro _ _ a ha
    simp only [nil_append, head?_cons, Option.map_some, Option.some.injEq] at ha
    rw [← ha]
    exact Walk.stop
  | cons c l ih =>
    intro hmem hchain a ha
    simp only [cons_append, head?_cons, Option.map_some, Option.some.injEq] at ha
    subst ha
    have hc := hmem c (by simp)
    have hsize := h.packSize hc
    have hnext := h.packNext hc
    obtain ⟨d, rest, hrest⟩ : ∃ d rest, l ++ [t] = d :: rest := by
      cases l with
      | nil => exact ⟨t, [], rfl⟩
      | cons d l => exact ⟨d, l ++ [t], rfl⟩
    rw [cons_append, hrest] at hchain
    obtain ⟨hlink, htail⟩ := isChain_cons_cons.mp hchain
    rw [← hrest] at htail
    have hlarge := hlink.large
    refine Walk.step (by omega) (by rw [hsize]; exact hlink.mod) (by rw [hnext, hsize]) ?_
    rw [hnext]
    apply ih (fun x hx => hmem x (by simp only [cons_append, mem_cons]; tauto)) htail
    rw [hrest, head?_cons, Option.map_some, hlink.adjacent]

theorem walk {pre : List Chunk} {t : Chunk} (hsplit : h.arena.chunks = pre ++ [t])
    (htop : t.addr + 8 = h.process.base) :
    Walk h.process.mem (h.process.base - 8) first (pre.map Chunk.addr) := by
  obtain ⟨c, rest, hstart, hfirst, -⟩ := h.shape.start
  have hwalk := h.walk_of_chain pre (fun c hc => by rw [hsplit]; exact hc)
    (by rw [← hsplit]; exact h.shape.chain) first (by
      rw [← hsplit, hstart, head?_cons, Option.map_some, hfirst])
  rw [← htop, Nat.add_sub_cancel]
  exact hwalk

theorem getIndex_iff (hsize : 48 ≤ c.size) (i : ℕ) :
    (getIndex c.size).run h.process = .ok i h.process ↔ slotIndex c.size = i := by
  rw [run_getIndex (by omega)]
  constructor
  · intro heq
    cases heq
    rfl
  · rintro rfl
    rfl

theorem invariant (hidle : h.held = ∅) : HeapInvariant L first h.process := by
  obtain ⟨pre, t, hsplit, hzero, hused, htop⟩ := h.shape.last
  have ht : t ∈ h.arena.chunks := by simp [hsplit]
  have hpre : ∀ c ∈ pre, c ∈ h.arena.chunks := fun c hc => by simp [hsplit, hc]
  have hbase : h.process.base - 8 = t.addr := by omega
  have hout : ∀ c : Chunk, c.addr ∉ h.held := fun c => by
    rw [hidle]
    exact Set.notMem_empty _
  have hplace : ∀ {addr size used}, h.arena.Has addr size used → size ≠ 0 →
      ∃ c ∈ pre, c.addr = addr ∧ c.size = size ∧ c.used = used := by
    rintro addr size used ⟨c, hc, rfl, rfl, rfl⟩ hne
    rw [hsplit] at hc
    rcases mem_append.mp hc with hc | hc
    · exact ⟨c, hc, rfl, rfl, rfl⟩
    · rw [mem_singleton.mp hc] at hne
      exact absurd hzero hne
  refine ⟨pre.map Chunk.addr, h.walk hsplit htop, ⟨by omega, ?_, ?_⟩, ?_, ?_, ?_, ?_, ?_⟩
  · rw [hbase, h.packSize ht, hzero]
  · rw [hbase]
    exact (h.inUse_iff ht).mpr hused
  · have hlist : pre.map Chunk.addr ++ [h.process.base - 8] = h.arena.chunks.map Chunk.addr := by
      rw [hsplit, map_append, hbase]
      rfl
    rw [hlist, isChain_map]
    apply h.shape.chain.imp_of_mem_imp
    intro c d hc hd hlink
    refine ⟨?_, ?_, ?_⟩
    · rw [h.inUse_iff hc, h.inUse_iff hd]
      cases hcu : c.used with
      | true => exact .inl rfl
      | false => exact .inr (hlink.free (hout c) hcu).2.1
    · rw [h.prevInUse_iff hd, h.inUse_iff hc, hlink.prevUsed (hout c)]
    · intro hfree
      rw [h.inUse_iff hc, Bool.not_eq_true] at hfree
      rw [h.packSize hc, h.stored.prev d hd]
      exact (hlink.free (hout c) hfree).1
  · obtain ⟨c, rest, hstart, hfirst, hprev⟩ := h.shape.start
    have hmark := (h.prevInUse_iff (c := c) (by simp [hstart])).mpr hprev
    rwa [hfirst] at hmark
  · intro a ha hfree
    obtain ⟨c, hc, rfl⟩ := mem_map.mp ha
    rw [h.inUse_iff (hpre c hc), Bool.not_eq_true] at hfree
    rw [h.packSize (hpre c hc)]
    exact h.shape.free_chunk (hpre c hc) hfree (hout c)
  · intro i hi hi'
    refine ⟨h.arena.bins i, ?_, ?_, ?_, h.stored.bit i hi hi'⟩
    · rw [← Layout.head_of_lt hi']
      exact h.stored.ring i (by omega) (by omega)
    · rw [← Layout.head_of_lt hi']
      exact h.shape.ring_nodup h.below (by omega) (by omega)
    · intro n
      rw [h.shape.free_iff i hi hi']
      constructor
      · rintro ⟨addr, size, hhas, -, rfl, hslot⟩
        obtain ⟨c, hc, rfl, rfl, hfree⟩ := hhas
        have hlarge := (h.shape.free_chunk hc hfree (hout c)).1
        obtain ⟨d, hd, haddr, hsize, -⟩ := hplace ⟨c, hc, rfl, rfl, hfree⟩ (by omega)
        refine ⟨c.addr, mem_map.mpr ⟨d, hd, haddr⟩, ?_, rfl, ?_⟩
        · rw [h.inUse_iff hc, hfree]
          exact Bool.false_ne_true
        · rw [h.packSize hc]
          exact (h.getIndex_iff hlarge i).mpr hslot
      · rintro ⟨a, ha, hfree, rfl, hslot⟩
        obtain ⟨c, hc, rfl⟩ := mem_map.mp ha
        rw [h.inUse_iff (hpre c hc), Bool.not_eq_true] at hfree
        have hlarge := (h.shape.free_chunk (hpre c hc) hfree (hout c)).1
        rw [h.packSize (hpre c hc), h.getIndex_iff hlarge] at hslot
        exact ⟨c.addr, c.size, ⟨c, hpre c hc, rfl, rfl, hfree⟩, hout c, rfl, hslot⟩
  · intro list hlist
    obtain ⟨i, hi, hi', rfl, hpage⟩ : ∃ i, 1 ≤ i ∧ i ≤ 64 ∧ list = L.head i ∧
        ∀ n ∈ h.arena.bins i, h.arena.IsPage n := by
      rcases hlist with rfl | rfl
      · exact ⟨1, le_rfl, by omega, (Layout.head_of_lt (by omega)).symm, fun n hn => .inl hn⟩
      · exact ⟨64, by omega, le_rfl, (if_pos rfl : L.head 64 = L.fastFull).symm,
          fun n hn => .inr hn⟩
    refine ⟨h.arena.bins i, h.stored.ring i hi hi', ?_⟩
    intro n hn
    obtain ⟨addr, size, hhas, -, rfl, hsize⟩ := h.shape.page n (hpage n hn)
    obtain ⟨c, hc, rfl, -, hcused⟩ := hplace hhas (by omega)
    exact ⟨c.addr, mem_map.mpr ⟨c, hc, rfl⟩, (h.inUse_iff (hpre c hc)).mpr hcused, rfl⟩

theorem isChunk_iff {a : ℕ} :
    IsChunk first h.process a ↔ ∃ c ∈ h.arena.chunks, c.size ≠ 0 ∧ c.addr = a := by
  obtain ⟨pre, t, hsplit, hzero, -, htop⟩ := h.shape.last
  have hwalk := h.walk hsplit htop
  have ht : t ∈ h.arena.chunks := by simp [hsplit]
  have hstop : Ummalloc.packSize h.process.mem (h.process.base - 8) = 0 := by
    rw [← htop, Nat.add_sub_cancel, h.packSize ht, hzero]
  constructor
  · rintro ⟨chunks, hchunks, ha⟩
    rw [hchunks.unique hwalk hstop] at ha
    obtain ⟨c, hc, rfl⟩ := mem_map.mp ha
    have hpair := h.shape.pairwise
    rw [hsplit] at hpair
    have hsize := (pairwise_append.mp hpair).2.2 c hc t (by simp)
    exact ⟨c, by simp [hsplit, hc], by omega, rfl⟩
  · rintro ⟨c, hc, hsize, rfl⟩
    refine ⟨_, hwalk, mem_map.mpr ⟨c, ?_, rfl⟩⟩
    rw [hsplit] at hc
    rcases mem_append.mp hc with hc | hc
    · exact hc
    · rw [mem_singleton.mp hc] at hsize
      exact absurd hzero hsize

theorem linked_iff {i : ℕ} (hi : 1 ≤ i) (hi' : i ≤ 64) :
    Linked h.process.mem (L.head i) n ↔ n ∈ h.arena.bins i := by
  have hR := h.stored.ring i hi hi'
  constructor
  · rintro ⟨hne, k, rfl⟩
    exact (mem_cons.mp (hR.iterate_mem k)).resolve_left hne
  · intro hn
    refine ⟨?_, hR.exists_iterate hn⟩
    rintro rfl
    exact h.shape.head_not_mem h.below hi' hi hi' hn

theorem linked_open_iff : Linked h.process.mem (L.slot 1) n ↔ n ∈ h.arena.bins 1 := by
  rw [← h.linked_iff le_rfl (by omega), Layout.head_of_lt (by omega)]

theorem linked_full_iff : Linked h.process.mem L.fastFull n ↔ n ∈ h.arena.bins 64 := by
  rw [← h.linked_iff (by omega) le_rfl, show L.head 64 = L.fastFull from if_pos rfl]

theorem pageNode_iff : PageNode L h.process.mem n ↔ h.arena.IsPage n := by
  rw [Arena.IsPage, ← h.linked_open_iff, ← h.linked_full_iff]
  constructor
  · rintro ⟨list, rfl | rfl, hrest⟩
    · exact .inl hrest
    · exact .inr hrest
  · rintro (hrest | hrest)
    · exact ⟨_, .inl rfl, hrest⟩
    · exact ⟨_, .inr rfl, hrest⟩

theorem inPayload_iff : InPayload L first h.process p size ↔ Owned h p (size + 8) := by
  constructor
  · rintro (⟨a, ha, huse, hplain, hp, hsize⟩ | ⟨n, k, hn, hrest⟩)
    · obtain ⟨c, hc, hne, rfl⟩ := h.isChunk_iff.mp ha
      rw [h.packSize hc] at hsize
      exact .inl ⟨c.addr, c.size, hp, ⟨c, hc, rfl, rfl, (h.inUse_iff hc).mp huse⟩, hne, hsize,
        fun hpage => hplain (h.pageNode_iff.mpr hpage)⟩
    · exact .inr ⟨n, k, h.pageNode_iff.mp hn, hrest⟩
  · rintro (⟨addr, n, hp, ⟨c, hc, rfl, rfl, huse⟩, hne, hsize, hplain⟩ | ⟨n, k, hn, hrest⟩)
    · refine .inl ⟨c.addr, h.isChunk_iff.mpr ⟨c, hc, hne, rfl⟩, (h.inUse_iff hc).mpr huse,
        fun hpage => hplain (h.pageNode_iff.mp hpage), hp, ?_⟩
      rw [h.packSize hc]
      exact hsize
    · exact .inr ⟨n, k, h.pageNode_iff.mpr hn, hrest⟩

theorem chunk_of_owned (howned : Owned h p (size + 8)) :
    ∃ c ∈ h.arena.chunks, c.addr + 8 ≤ p ∧ p + size ≤ c.addr + c.size ∧
      (∀ i, 1 ≤ i → i ≤ 64 → c.node ∈ h.arena.bins i → c.addr + 48 ≤ p) := by
  rcases howned with ⟨addr, n, rfl, ⟨c, hc, rfl, rfl, huse⟩, -, hsize, hplain⟩ |
    ⟨n, k, hn, hk, -, rfl, hsize⟩
  · refine ⟨c, hc, le_rfl, by omega, ?_⟩
    intro i hi hi' hmem
    exfalso
    by_cases hpage : i = 1 ∨ i = 64
    · apply hplain
      rcases hpage with rfl | rfl
      · exact .inl hmem
      · exact .inr hmem
    · obtain ⟨d, hd, hfree, -, hnode, -⟩ := h.free_of_mem (by omega) (by omega) hmem
      have hsame := h.shape.eq_of_addr hd hc (Nat.add_right_cancel hnode)
      rw [hsame, huse] at hfree
      exact Bool.noConfusion hfree
  · obtain ⟨_, _, ⟨c, hc, rfl, rfl, -⟩, -, rfl, hlarge⟩ := h.shape.page n hn
    exact ⟨c, hc, by omega, by omega, fun _ _ _ _ => by omega⟩

theorem not_metadata {x : ℕ} (howned : Owned h p (size + 8)) (hlow : p ≤ x) (hhigh : x < p + size) :
    ¬ Metadata L first h.process x := by
  obtain ⟨c, hc, hstart, hend, hnode⟩ := h.chunk_of_owned howned
  have hother : ∀ d ∈ h.arena.chunks, d ≠ c → x < d.addr ∨ d.addr + d.size ≤ x := by
    intro d hd hne
    rcases h.shape.apart hc hd with rfl | hlt | hlt
    · exact absurd rfl hne
    · omega
    · omega
  have hheader : ∀ d ∈ h.arena.chunks, ¬ (d.addr ≤ x ∧ x < d.addr + 8) := by
    intro d hd hx
    rcases h.shape.apart hc hd with rfl | hlt | hlt
    · omega
    · omega
    · omega
  rintro (⟨a, ha, hx⟩ | ⟨i, k, hi, hi', hx⟩ | ⟨n, hn, hx⟩)
  · rcases ha with ha | rfl
    · obtain ⟨d, hd, -, rfl⟩ := h.isChunk_iff.mp ha
      exact hheader d hd hx
    · obtain ⟨t, ht, -, -, htop⟩ := h.shape.top
      exact hheader t ht (by omega)
  · rcases mem_cons.mp ((h.stored.ring i hi hi').iterate_mem k) with hhead | hmem
    · rw [hhead] at hx
      have hbelow := h.below.head_le hi'
      have hfirst := h.shape.first_le hc
      omega
    · obtain ⟨d, hd, hsize, -, heq⟩ := h.shape.mem_chunk hi hi' hmem
      rw [heq] at hx hmem
      unfold Chunk.node at hx
      have hlarge := h.shape.size_cases hd
      by_cases hsame : d = c
      · subst hsame
        have := hnode i hi hi' hmem
        omega
      · have := hother d hd hsame
        omega
  · rw [h.pageNode_iff] at hn
    obtain ⟨_, _, ⟨d, hd, rfl, rfl, -⟩, -, rfl, hlarge⟩ := h.shape.page n hn
    by_cases hsame : d = c
    · subst hsame
      have : d.addr + 48 ≤ p := by
        rcases hn with hn | hn
        · exact hnode 1 le_rfl (by omega) hn
        · exact hnode 64 (by omega) le_rfl hn
      omega
    · have := hother d hd hsame
      omega

end Heap

end Xv6MallocLab.Ummalloc
