import Xv6MallocLab.CircularList
import Xv6MallocLab.ByteMemory

/-!
# The buffer cache

The buffers of `bio.c` and the list through their links, from the most to the least
recently used one.  Every function is one section under the cache's lock, or works
on a buffer whose sleep lock the caller has.
-/

namespace Xv6MallocLab.BufferCache

open ByteMemory CircularList Function List

def nbuf : ℕ := 10 * 3

def rootDev : ℕ := 1

/-- Who may hold a buffer's sleep lock: a caller, or the process inside
`commit`. -/
inductive Owner
  | caller (pid : ℕ)
  | commit
  deriving DecidableEq, Repr

inductive Panic
  /-- `"bget: no buffers"` -/
  | noBuffers
  /-- `"bwrite"` -/
  | bwrite
  /-- `"brelse"` -/
  | brelse
  deriving DecidableEq, Repr

/-- `struct buf` without its links.  The reference count is a natural number: it
never exceeds the number of processes and one pin. -/
structure Buf where
  valid : Bool
  dev : ℕ
  blockno : ℕ
  holder : Option Owner
  refcnt : ℕ
  data : Memory

/-- `bcache`: the buffers are numbered below `NBUF`, and `head` follows them. -/
structure Bcache where
  buf : ℕ → Buf
  next : ℕ → ℕ
  prev : ℕ → ℕ

def head : ℕ := nbuf

def Bcache.set (c : Bcache) (b : ℕ) (buf : Buf) : Bcache :=
  { c with buf := update c.buf b buf }

def linkFront (c : Bcache) (b : ℕ) : Bcache :=
  let first := c.next head
  { c with
    next := update (update c.next b first) head b
    prev := update (update c.prev b head) first b }

def unlink (c : Bcache) (b : ℕ) : Bcache :=
  let c := { c with prev := update c.prev (c.next b) (c.prev b) }
  { c with next := update c.next (c.prev b) (c.next b) }

def blank : Bcache where
  buf := fun _ => ⟨false, 0, 0, none, 0, fun _ => 0⟩
  next := fun _ => head
  prev := fun _ => head

/-- `binit`: all buffers in the list, the last one first. -/
def binit : Bcache := (List.range nbuf).foldl linkFront blank

def findCached (c : Bcache) (dev blockno : ℕ) : Option ℕ :=
  scan c.next head (fun b => (c.buf b).dev == dev && (c.buf b).blockno == blockno) (nbuf + 1)
    (c.next head)

def findUnused (c : Bcache) : Option ℕ :=
  scan c.prev head (fun b => (c.buf b).refcnt == 0) (nbuf + 1) (c.prev head)

/-- `bget` up to `acquiresleep`. -/
def bget (c : Bcache) (dev blockno : ℕ) : Except Panic (ℕ × Bcache) :=
  match findCached c dev blockno with
  | some b => .ok (b, c.set b { c.buf b with refcnt := (c.buf b).refcnt + 1 })
  | none =>
    match findUnused c with
    | some b => .ok (b, c.set b
        { c.buf b with dev := dev, blockno := blockno, valid := false, refcnt := 1 })
    | none => .error .noBuffers

/-- The rest of `bread`: lock the buffer, and read the block unless it is valid. -/
def fill (c : Bcache) (disk : ℕ → Memory) (b : ℕ) (owner : Owner) : Option Bcache :=
  if (c.buf b).holder = none then
    some (c.set b { c.buf b with
      holder := some owner
      valid := true
      data := if (c.buf b).valid then (c.buf b).data else disk (c.buf b).blockno })
  else
    none

def modify (c : Bcache) (b : ℕ) (data : Memory) : Bcache := c.set b { c.buf b with data := data }

/-- `bwrite`, by the holder of the buffer only. -/
def bwrite (c : Bcache) (disk : ℕ → Memory) (b : ℕ) (owner : Owner) :
    Except Panic (ℕ → Memory) :=
  if (c.buf b).holder = some owner then
    .ok (update disk (c.buf b).blockno (c.buf b).data)
  else
    .error .bwrite

/-- `brelse`; a buffer that nobody refers to moves to the front. -/
def brelse (c : Bcache) (b : ℕ) (owner : Owner) : Except Panic Bcache :=
  if (c.buf b).holder = some owner then
    let c := c.set b { c.buf b with holder := none, refcnt := (c.buf b).refcnt - 1 }
    if (c.buf b).refcnt = 0 then .ok (linkFront (unlink c b) b) else .ok c
  else
    .error .brelse

def bpin (c : Bcache) (b : ℕ) : Bcache := c.set b { c.buf b with refcnt := (c.buf b).refcnt + 1 }

def bunpin (c : Bcache) (b : ℕ) : Bcache := c.set b { c.buf b with refcnt := (c.buf b).refcnt - 1 }

def Listed (c : Bcache) : Prop :=
  ∃ members, Ring c.next c.prev head members ∧ members.Perm (List.range nbuf)

variable {c : Bcache} {b : ℕ}

theorem Listed.congr {c' : Bcache} (hlisted : Listed c) (hnext : c'.next = c.next)
    (hprev : c'.prev = c.prev) : Listed c' := by
  unfold Listed
  rw [hnext, hprev]
  exact hlisted

theorem not_head_of_perm {members : List ℕ} (hperm : members.Perm (List.range nbuf)) :
    head ∉ members := by
  intro hmem
  have hlt := mem_range.mp (hperm.mem_iff.mp hmem)
  exact absurd hlt (lt_irrefl _)

theorem ring_linkFront {members : List ℕ} (hring : Ring c.next c.prev head members)
    (hnodup : (head :: members).Nodup) (hfresh : b ∉ head :: members) :
    Ring (linkFront c b).next (linkFront c b).prev head (b :: members) := by
  have hb : b ≠ head := fun h => hfresh (h ▸ mem_cons_self)
  have hfirst : c.next head ≠ b := fun h => hfresh (h ▸ hring.next_head_mem)
  refine hring.push hnodup rfl ?_ ?_ ?_ ?_ ?_ ?_
  · simp [linkFront, hb]
  · simp [linkFront]
  · simp [linkFront]
  · simp [linkFront, Ne.symm hfirst]
  · intro y hy
    have hyhead : y ≠ head := by
      rintro rfl
      exact (nodup_cons.mp hnodup).1 hy
    have hyb : y ≠ b := by
      rintro rfl
      exact hfresh (mem_cons_of_mem _ hy)
    simp [linkFront, hyhead, hyb]
  · intro y hy hyfirst
    have hyb : y ≠ b := by
      rintro rfl
      exact hfresh hy
    simp [linkFront, hyfirst, hyb]

theorem ring_unlink {before after : List ℕ}
    (hring : Ring c.next c.prev head (before ++ b :: after))
    (hnodup : (head :: (before ++ b :: after)).Nodup) :
    Ring (unlink c b).next (unlink c b).prev head (before ++ after) := by
  have hself : c.next b ≠ b := by
    intro h
    have hnext := hring.links_member.2
    have hout : b ∉ head :: after := by
      simp only [nodup_cons, nodup_append, mem_append, mem_cons] at hnodup ⊢
      grind
    rw [h] at hnext
    refine hout ?_
    rw [hnext]
    cases after with
    | nil => exact mem_cons_self
    | cons y rest => simp
  have hprevb : (update c.prev (c.next b) (c.prev b)) b = c.prev b :=
    update_of_ne (Ne.symm hself) _ _
  refine hring.remove hnodup rfl rfl ?_ ?_ ?_ ?_
  · simp [unlink, hprevb]
  · simp [unlink]
  · intro y _ hy
    simp [unlink, hprevb, hy]
  · intro y _ hy
    simp [unlink, hy]

theorem Listed.moveFront (hlisted : Listed c) (hb : b < nbuf) :
    Listed (linkFront (unlink c b) b) := by
  obtain ⟨members, hring, hperm⟩ := hlisted
  have hmem : b ∈ members := hperm.mem_iff.mpr (mem_range.mpr hb)
  have hnodup : (head :: members).Nodup :=
    nodup_cons.mpr ⟨not_head_of_perm hperm, hperm.nodup_iff.mpr nodup_range⟩
  obtain ⟨before, after, rfl⟩ := append_of_mem hmem
  have hmiddle := @List.perm_middle _ b before after
  have hsplit : (b :: head :: (before ++ after)).Nodup := by
    refine (List.Perm.nodup_iff ?_).mpr hnodup
    exact (List.Perm.swap _ _ _).trans (hmiddle.symm.cons head)
  have hcut := ring_unlink hring hnodup
  refine ⟨b :: (before ++ after), ?_, hmiddle.symm.trans hperm⟩
  exact ring_linkFront hcut (nodup_cons.mp hsplit).2 (nodup_cons.mp hsplit).1

theorem listed_binit : Listed binit := by
  have hrun : ∀ k ≤ nbuf, Ring ((List.range k).foldl linkFront blank).next
      ((List.range k).foldl linkFront blank).prev head (List.range k).reverse := by
    intro k
    induction k with
    | zero =>
      intro _
      exact ring_nil.mpr ⟨rfl, rfl⟩
    | succ k ih =>
      intro hk
      have hout : ∀ j, k ≤ j → j ∉ (List.range k).reverse := by
        intro j hj hmem
        rw [mem_reverse, mem_range] at hmem
        omega
      have hne : k ≠ head := by
        unfold head
        omega
      have hnodup : (head :: (List.range k).reverse).Nodup :=
        nodup_cons.mpr ⟨hout _ (by unfold head; omega),
          nodup_reverse.mpr nodup_range⟩
      rw [range_succ, foldl_append, reverse_append]
      exact ring_linkFront (ih (by omega)) hnodup fun hmem => by
        rcases mem_cons.mp hmem with h | h
        · exact hne h
        · exact hout k le_rfl h
  exact ⟨_, hrun nbuf le_rfl, reverse_perm _⟩

def Caches (c : Bcache) (b dev blockno : ℕ) : Prop :=
  b < nbuf ∧ (c.buf b).dev = dev ∧ (c.buf b).blockno = blockno

theorem Listed.findCached_cases (hlisted : Listed c) (dev blockno : ℕ) :
    (∃ b, findCached c dev blockno = some b ∧ Caches c b dev blockno) ∨
      findCached c dev blockno = none ∧ ∀ b, ¬ Caches c b dev blockno := by
  obtain ⟨members, hring, hperm⟩ := hlisted
  have hlen : members.length < nbuf + 1 := by
    rw [hperm.length_eq, length_range]
    omega
  have hfind := hring.scan_head (p := fun b => (c.buf b).dev == dev && (c.buf b).blockno == blockno)
    (not_head_of_perm hperm) hlen
  unfold findCached
  rw [hfind]
  cases hresult : members.find?
      (fun b => (c.buf b).dev == dev && (c.buf b).blockno == blockno) with
  | some b =>
    have hmem := hperm.mem_iff.mp (mem_of_find?_eq_some hresult)
    have hp := find?_some hresult
    simp only [Bool.and_eq_true, beq_iff_eq] at hp
    exact .inl ⟨b, rfl, mem_range.mp hmem, hp⟩
  | none =>
    refine .inr ⟨rfl, ?_⟩
    rintro b ⟨hb, hdev, hblock⟩
    have hnot := find?_eq_none.mp hresult b (hperm.mem_iff.mpr (mem_range.mpr hb))
    simp [hdev, hblock] at hnot

theorem Listed.findUnused_cases (hlisted : Listed c) :
    (∃ b, findUnused c = some b ∧ b < nbuf ∧ (c.buf b).refcnt = 0) ∨
      findUnused c = none ∧ ∀ b < nbuf, (c.buf b).refcnt ≠ 0 := by
  obtain ⟨members, hring, hperm⟩ := hlisted
  have hperm' : members.reverse.Perm (List.range nbuf) := members.reverse_perm.trans hperm
  have hlen : members.reverse.length < nbuf + 1 := by
    rw [hperm'.length_eq, length_range]
    omega
  have hfind := hring.reverse.scan_head (p := fun b => (c.buf b).refcnt == 0)
    (not_head_of_perm hperm') hlen
  unfold findUnused
  rw [hfind]
  cases hresult : members.reverse.find? (fun b => (c.buf b).refcnt == 0) with
  | some b =>
    have hmem := hperm'.mem_iff.mp (mem_of_find?_eq_some hresult)
    have hp := find?_some hresult
    exact .inl ⟨b, rfl, mem_range.mp hmem, by simpa using hp⟩
  | none =>
    refine .inr ⟨rfl, fun b hb => ?_⟩
    have hnot := find?_eq_none.mp hresult b (hperm'.mem_iff.mpr (mem_range.mpr hb))
    simpa using hnot

theorem Listed.bget_cases (hlisted : Listed c) (dev blockno : ℕ) :
    (∃ b, Caches c b dev blockno ∧
      bget c dev blockno = .ok (b, c.set b { c.buf b with refcnt := (c.buf b).refcnt + 1 })) ∨
    (∀ b, ¬ Caches c b dev blockno) ∧
      ((∃ b, b < nbuf ∧ (c.buf b).refcnt = 0 ∧ bget c dev blockno = .ok (b, c.set b
          { c.buf b with dev := dev, blockno := blockno, valid := false, refcnt := 1 })) ∨
        (∀ b < nbuf, (c.buf b).refcnt ≠ 0) ∧ bget c dev blockno = .error .noBuffers) := by
  unfold bget
  rcases hlisted.findCached_cases dev blockno with ⟨b, hfound, hcaches⟩ | ⟨hnone, hout⟩
  · rw [hfound]
    exact .inl ⟨b, hcaches, rfl⟩
  · rw [hnone]
    refine .inr ⟨hout, ?_⟩
    rcases hlisted.findUnused_cases with ⟨b, hfound, hb, hzero⟩ | ⟨hnone', hall⟩
    · rw [hfound]
      exact .inl ⟨b, hb, hzero, rfl⟩
    · rw [hnone']
      exact .inr ⟨hall, rfl⟩

end Xv6MallocLab.BufferCache
