import Xv6MallocLab.UmmallocCells
import Xv6MallocLab.UmmallocTinySlots

/-!
# What a request asks for and what it gets

The arithmetic of slots is right for supported sizes only: the mask of `next_free` is wrong
at the last slot, and nothing checks that a size has a slot at all.
-/

namespace Xv6MallocLab.Ummalloc

open ByteMemory CircularList Prog

attribute [local irreducible] load store

variable {L : Layout} {first : ℕ}

/-- The slot of a chunk size has nothing for the request, so that `mm_malloc`
goes on to `next_allocate`. -/
def ownSlotMisses (L : Layout) (s : Process) (n : ℕ) : Bool :=
  if n ≤ 512 then
    listEmpty s.mem (L.slot (slotIndex n))
  else
    !slotFits s.mem (L.slot (slotIndex n)) n (if n > 4096 then 8 else 4)
      (nodeNext s.mem (L.slot (slotIndex n)))

def pickedSlot (s : Process) (n : ℕ) : ℕ := log2Ceil64 (nextFree s.bitmap (slotIndex n)).toNat

/-- If `next_allocate` takes a chunk out of a slot, that slot is larger than
the request's and the chunk is as large as the size asked for. -/
def RightPick (L : Layout) (s : Process) (n : ℕ) : Prop :=
  ownSlotMisses L s n = true → nextFree s.bitmap (slotIndex n) ≠ 0 →
    slotIndex n < pickedSlot s n ∧
      askedSize n ≤ packSize s.mem (listPack (nodeNext s.mem (L.slot (pickedSlot s n))))

variable {h : Heap L first} {size : UInt32} {n : ℕ}

theorem run_search_of_misses (hidle : h.held = ∅) {index need iteration : ℕ} (hlow : 2 ≤ index)
    (hhigh : index < 64) (hmiss : slotFits h.process.mem (L.slot index) need iteration
      (nodeNext h.process.mem (L.slot index)) = false) :
    (do
      let data ← iterativeAllocate L index need iteration
      if data ≠ 0 then return data else nextAllocate L index need : Prog ℕ).run h.process =
      (nextAllocate L index need).run h.process := by
  rcases iterativeAllocate_cases h hidle need iteration hlow hhigh with
    ⟨hnone, -⟩ | ⟨-, -, -, hfits, -⟩
  · rw [run_bind_ok hnone, run_ite, if_neg (by simp)]
  · rw [hmiss] at hfits
    exact Bool.noConfusion hfits

theorem run_of_misses (hidle : h.held = ∅) (hlow : 32 < (chunkSize size).toNat)
    (hhigh : (chunkSize size).toNat ≤ 65536)
    (hmiss : ownSlotMisses L h.process (chunkSize size).toNat = true) :
    (mmMalloc L size).run h.process =
      (nextAllocate L (slotIndex (chunkSize size).toNat)
        (askedSize (chunkSize size).toNat)).run h.process := by
  unfold mmMalloc
  dsimp only
  generalize (chunkSize size).toNat = n at hlow hhigh hmiss ⊢
  unfold ownSlotMisses at hmiss
  by_cases htiny : n ≤ 512
  · have hslot : slotIndex n = (n - 1) / 16 := if_pos htiny
    rw [if_pos htiny, hslot, listEmpty_iff h (by omega) (by omega)] at hmiss
    unfold mallocTiny
    rw [if_pos htiny, if_neg (by omega), hslot, askedSize, if_pos htiny]
    dsimp only
    rw [run_bind_ok (run_tinyAllocate_empty h (by omega) (by omega) hmiss), run_ite,
      if_neg (by simp)]
    rfl
  · rw [if_neg htiny, Bool.not_eq_true'] at hmiss
    rw [if_neg htiny, askedSize, if_neg htiny]
    obtain ⟨hindex, hindex'⟩ := slotIndex_bounds (show 48 ≤ n by omega) hhigh
    have hsearch := run_search_of_misses hidle hindex hindex' hmiss
    by_cases hhuge : n > 4096
    · have hslot : slotIndex n = if n < 6144 then 48 else (n - 1) / 4096 + 48 := by
        unfold slotIndex
        rw [if_neg htiny, if_pos hhuge]
      rw [if_pos hhuge] at hsearch ⊢
      rw [hslot] at hsearch ⊢
      exact hsearch
    · have hslot : slotIndex n = if n ≤ 640 then (n + 1535) / 64 else 34 + (n - 513) / 256 := by
        unfold slotIndex
        rw [if_neg htiny, if_neg hhuge]
      rw [if_neg hhuge] at hsearch ⊢
      rw [hslot] at hsearch ⊢
      exact hsearch

theorem askedSize_slot (hlow : 32 < n) : slotIndex (askedSize n) = slotIndex n := by
  unfold askedSize
  split_ifs with htiny
  · rw [slotIndex_tinySize hlow htiny, slotIndex, if_pos htiny]
  · rfl

theorem rightPick_of_lt (hlow : 32 < n) (hindex : slotIndex n < 63) : RightPick L h.process n := by
  intro _ hne
  unfold pickedSlot
  rcases nextFree_cases h.process.bitmap hindex with
    ⟨hzero, -⟩ | ⟨-, j, hj, hj', hset, -, hlog⟩
  · exact absurd hzero hne
  · rw [hlog]
    refine ⟨hj, ?_⟩
    have hj2 : 2 ≤ j := by
      unfold slotIndex at hj
      split_ifs at hj <;> omega
    have hbins := (h.stored.bit j hj2 hj').mp hset
    obtain ⟨m, rest, hcons⟩ := List.exists_cons_of_ne_nil hbins
    obtain ⟨c, hc, hfree, hout, hnode, hcslot⟩ :=
      h.free_of_mem hj2 hj' (n := m) (by simp [hcons])
    have hring := (h.stored.ring j (by omega) (by omega)).next_head
    rw [Layout.head_of_lt hj', hcons, List.headD_cons, ← hnode] at hring
    rw [hring, h.listPack hc, h.packSize hc]
    apply le_of_lt
    apply lt_of_slotIndex_lt
    rw [askedSize_slot hlow, hcslot]
    exact hj

/-- In a reached state `next_allocate` picks right exactly if the request is manageable.
-/
theorem rightPick_iff {s s' : Process} {pages ps : List ℕ} (hreached : Reached L s pages ps s')
    {size : UInt32} (hlow : 32 < (chunkSize size).toNat)
    (hhigh : (chunkSize size).toNat ≤ 65536) :
    (ownSlotMisses L s' (chunkSize size).toNat = true → (mmMalloc L size).run s' =
        (nextAllocate L (slotIndex (chunkSize size).toNat)
          (askedSize (chunkSize size).toNat)).run s') ∧
      (RightPick L s' (chunkSize size).toNat ↔ Manageable L s' size) := by
  obtain ⟨h, rfl, hidle, -⟩ := hreached.heap
  refine ⟨run_of_misses hidle hlow hhigh, ?_⟩
  have hlast : 61440 < (chunkSize size).toNat → slotIndex (chunkSize size).toNat = 63 := by
    intro hlarge
    unfold slotIndex
    rw [if_neg (by omega), if_pos (by omega), if_neg (by omega)]
    omega
  have hmisses : 61440 < (chunkSize size).toNat →
      ownSlotMisses L h.process (chunkSize size).toNat =
        !slotFits h.process.mem (L.slot 63) (chunkSize size).toNat 8
          (nodeNext h.process.mem (L.slot 63)) := by
    intro hlarge
    unfold ownSlotMisses
    rw [if_neg (by omega), if_pos (by omega), hlast hlarge]
  constructor
  · intro hpick
    refine ⟨hhigh, ?_⟩
    intro hlarge
    by_contra hnot
    obtain ⟨hne, hmiss⟩ := not_or.mp hnot
    obtain ⟨hfree, hlt⟩ := nextFree_last hne
    unfold RightPick pickedSlot at hpick
    rw [hmisses hlarge, hlast hlarge] at hpick
    have := (hpick (by simpa using hmiss) hfree).1
    omega
  · intro hfits
    by_cases hlarge : 61440 < (chunkSize size).toNat
    · intro hmiss hne
      rcases hfits.2 hlarge with hzero | hfit
      · rw [hzero] at hne
        exact absurd (nextFree_zero _) hne
      · rw [hmisses hlarge, hfit] at hmiss
        exact Bool.noConfusion hmiss
    · refine rightPick_of_lt hlow ?_
      unfold slotIndex
      split_ifs <;> omega

theorem rightPick_sample :
    (32 < (chunkSize 100).toNat ∧ (chunkSize 100).toNat ≤ 65536) ∧
      (ownSlotMisses sampleLayout sampleReady (chunkSize 100).toNat = true →
        (mmMalloc sampleLayout 100).run sampleReady =
          (nextAllocate sampleLayout (slotIndex (chunkSize 100).toNat)
            (askedSize (chunkSize 100).toNat)).run sampleReady) ∧
      (RightPick sampleLayout sampleReady (chunkSize 100).toNat ↔
        Manageable sampleLayout sampleReady 100) :=
  ⟨by decide, rightPick_iff sampleReady_reached (by decide) (by decide)⟩

/-- Right after `mm_init` a request of 65000 bytes, whose slot is the last one,
takes the initial chunk of 4088 bytes out of slot 47. -/
theorem wrong_pick :
    Reached sampleLayout sampleProcess [] [] sampleReady ∧
      32 < (chunkSize 65000).toNat ∧ (chunkSize 65000).toNat ≤ 65536 ∧
      ¬ RightPick sampleLayout sampleReady (chunkSize 65000).toNat := by
  refine ⟨sampleReady_reached, by decide, by decide, ?_⟩
  intro hpick
  have heval : ownSlotMisses sampleLayout sampleReady (chunkSize 65000).toNat = true ∧
      nextFree sampleReady.bitmap (slotIndex (chunkSize 65000).toNat) ≠ 0 ∧
      pickedSlot sampleReady (chunkSize 65000).toNat = 47 ∧
      slotIndex (chunkSize 65000).toNat = 63 := by
    decide +kernel
  obtain ⟨hmiss, hfree, hpicked, hslot⟩ := heval
  have := (hpick hmiss hfree).1
  omega

def serveChunk (L : Layout) (n : ℕ) : Prog ℕ :=
  if n ≤ 512 then mallocTiny L n else if n > 4096 then mallocHuge L n else mallocMiddle L n

/-- The chunk size holds the request and its header, and it has a slot. -/
structure ExactArithmetic (size : UInt32) : Prop where
  rounded : size.toNat + 8 ≤ (chunkSize size).toNat
  slot : slotIndex (chunkSize size).toNat < 64

/-- A request that the slots can serve returns a block.  It holds the bytes asked for unless a
tiny slot was short. -/
theorem block_of_reached {s s' : Process} {pages ps : List ℕ} (hreached : Reached L s pages ps s')
    (hchunk : (chunkSize size).toNat = (size.toNat + 7) / 8 * 8 + 8)
    (hfits : Manageable L s' size)
    (hgranted : ((mmMalloc L size).final s').refusals = s'.refusals) :
    ∃ p s'', (mmMalloc L size).run s' = .ok p s'' ∧ p ≠ 0 ∧
      (InPayload L (align s.brk) s'' p size.toNat ↔ Roomy L s' size) := by
  obtain ⟨h, rfl, hidle, -⟩ := hreached.heap
  by_cases hroomy : Roomy L h.process size
  · rcases answers_mmMalloc h hidle hfits le_rfl
      (fun hlow hhigh _ hc hhead => hroomy.fit hlow hhigh hc hhead) with hrefused | ⟨p, h', hrun, hh⟩
    · omega
    · have hbounds := hh.owned.bounds
      refine ⟨p, h'.process, hrun, by omega, iff_of_true ?_ hroomy⟩
      exact h'.inPayload_iff.mpr (hh.owned.mono (by omega))
  · obtain ⟨c, h', hrun, hhas, -, hshort, hh⟩ := short_of_not_roomy hidle hroomy
    have hbounds := hh.owned.bounds
    refine ⟨c.node, h'.process, hrun, by omega, iff_of_false ?_ hroomy⟩
    rw [h'.inPayload_iff]
    intro howned
    have hfit := howned.fit hhas
    obtain ⟨d, hd, -, hdsize, -⟩ := hhas
    have hmod := h'.shape.size_cases hd
    omega

/-- The arithmetic is exact up to the largest supported size, and for no size beyond.  Up to
there the request is served as one of the rounded size, and where the slots can serve it and
`sbrk` grants what is asked, it returns a block, for that size exactly if the first chunk of a
tiny slot is large enough. -/
theorem exactArithmetic_iff (L : Layout) (size : UInt32) :
    (ExactArithmetic size ↔ size.toNat ≤ 65528) ∧
    (size.toNat ≤ 65528 →
      (∀ s, (mmMalloc L size).run s = (serveChunk L ((size.toNat + 7) / 8 * 8 + 8)).run s) ∧
      ∀ {s s' : Process} {pages ps : List ℕ}, Reached L s pages ps s' → Manageable L s' size →
        ((mmMalloc L size).final s').refusals = s'.refusals →
        ∃ p s'', (mmMalloc L size).run s' = .ok p s'' ∧ p ≠ 0 ∧
          (InPayload L (align s.brk) s'' p size.toNat ↔ Roomy L s' size)) := by
  have hchunk := chunkSize_eq size
  have hlt := size.toNat_lt
  refine ⟨⟨fun hexact => ?_, fun hsize => ?_⟩, fun hsize => ?_⟩
  · have hrounded := hexact.rounded
    have hslot := hexact.slot
    unfold slotIndex at hslot
    split_ifs at hslot <;> omega
  · refine ⟨by omega, ?_⟩
    unfold slotIndex
    split_ifs <;> omega
  · have htrue : (chunkSize size).toNat = (size.toNat + 7) / 8 * 8 + 8 := by omega
    refine ⟨fun s => ?_, fun hreached => block_of_reached hreached htrue⟩
    unfold mmMalloc serveChunk
    dsimp only
    rw [htrue]

theorem exactArithmetic_sample :
    ∃ p s'', (mmMalloc sampleLayout 100).run sampleReady = .ok p s'' ∧ p ≠ 0 ∧
      InPayload sampleLayout (align sampleProcess.brk) s'' p 100 := by
  have hroomy : Roomy sampleLayout sampleReady 100 := by
    intro _ _ hempty
    have hnone : listEmpty sampleReady.mem
        (sampleLayout.slot (((chunkSize 100).toNat - 1) / 16)) = true := by decide +kernel
    rw [hnone] at hempty
    cases hempty
  obtain ⟨p, s'', hrun, hne, hblock⟩ := ((exactArithmetic_iff sampleLayout 100).2 (by decide)).2
    sampleReady_reached (.of_le (by decide)) (by decide +kernel)
  exact ⟨p, s'', hrun, hne, hblock.mpr hroomy⟩

/-- A request for all but one byte of the 32-bit range is rounded to eight
bytes and served from a cell of 32; one of 65529 bytes has no slot. -/
theorem wrapped_request :
    Reached sampleLayout sampleProcess [] [] sampleReady ∧
      (chunkSize 4294967295).toNat = 8 ∧
      (mmMalloc sampleLayout 4294967295).value sampleReady = some 67608 ∧
      slotIndex (chunkSize 65529).toNat = 64 :=
  ⟨sampleReady_reached, by decide, by decide +kernel, by decide⟩

/-- In a reached state a request of at most 61440 bytes of chunk gets less than twice
the size asked for, and a remainder is free and has at least 48 bytes. -/
theorem waste_reached {s s' : Process} {pages ps : List ℕ} (hreached : Reached L s pages ps s')
    {size : UInt32} (hlow : 32 < (chunkSize size).toNat)
    (hhigh : (chunkSize size).toNat ≤ 61440)
    (hgranted : ((mmMalloc L size).final s').refusals = s'.refusals) :
    ∃ a s'', (mmMalloc L size).run s' = .ok (a + 8) s'' ∧ IsChunk (align s.brk) s'' a ∧
      InUse s''.mem a ∧ packSize s''.mem a < 2 * askedSize (chunkSize size).toNat ∧
      ∀ b, IsChunk (align s.brk) s'' b → b ≠ a → ¬ IsChunk (align s.brk) s' b →
        ¬ InUse s''.mem b ∧ 48 ≤ packSize s''.mem b := by
  obtain ⟨h, rfl, hidle, -⟩ := hreached.heap
  have hfits : Manageable L h.process size := .of_le hhigh
  rcases mmMalloc_cases h hidle hfits (Nat.zero_le _) (fun _ _ _ _ _ => Nat.zero_le _) with
    hrefused | ⟨p, h', hrun, ⟨hfast, -⟩ | ⟨-, -, hserved, addr, n, rfl, htight, hcarved⟩⟩
  · omega
  · omega
  · obtain ⟨addr', n', haddr, -, hlarge, hhas, -⟩ := hserved.block
    obtain rfl : addr = addr' := by omega
    obtain rfl := (h'.shape.has_unique hcarved.block hhas).1
    obtain ⟨c, hc, rfl, rfl, hused⟩ := hhas
    refine ⟨c.addr, h'.process, hrun, h'.isChunk_iff.mpr ⟨c, hc, by omega, rfl⟩,
      (h'.inUse_iff hc).mpr hused, ?_, ?_⟩
    · rw [h'.packSize hc]
      exact htight
    · intro b hb hne hnew
      obtain ⟨d, hd, hdsize, rfl⟩ := h'.isChunk_iff.mp hb
      rw [h'.inUse_iff hd, h'.packSize hd]
      have hdcases := h'.shape.size_cases hd
      refine ⟨?_, by omega⟩
      rcases hcarved.made d hd hdsize with haddr | hold | hfree
      · exact absurd haddr hne
      · exact absurd (h.isChunk_iff.mpr hold) hnew
      · rw [hfree]
        exact Bool.false_ne_true

theorem waste_sample :
    (32 < (chunkSize 100).toNat ∧ (chunkSize 100).toNat ≤ 61440) ∧
      ∃ a s'', (mmMalloc sampleLayout 100).run sampleReady = .ok (a + 8) s'' ∧
        IsChunk (align sampleProcess.brk) s'' a ∧ InUse s''.mem a ∧
        packSize s''.mem a < 2 * askedSize (chunkSize 100).toNat ∧
        ∀ b, IsChunk (align sampleProcess.brk) s'' b → b ≠ a →
          ¬ IsChunk (align sampleProcess.brk) sampleReady b →
            ¬ InUse s''.mem b ∧ 48 ≤ packSize s''.mem b :=
  ⟨by decide, waste_reached sampleReady_reached (by decide) (by decide) (by decide +kernel)⟩

/-- The request for 5046280 bytes of chunk unlinks the chunk it finds in the memory of the
program, which puts the initial chunk on slot 2.  A request of 40 bytes then
gets all of its 4088 bytes. -/
theorem oversized_breaks_waste :
    Startable sampleLayout (trapProcess 4128 6291464) ∧
      ∃ s' s'', (session sampleLayout [5046272]).run (trapProcess 4128 6291464) = .ok [32768] s' ∧
        s'.refusals = (trapProcess 4128 6291464).refusals ∧
        (mmMalloc sampleLayout 40).run s' = .ok (6291456 + 8) s'' ∧
        s''.refusals = s'.refusals ∧
        ¬ packSize s''.mem 6291456 < 2 * askedSize (chunkSize 40).toNat := by
  have heval : (session sampleLayout [5046272]).value (trapProcess 4128 6291464) = some [32768] ∧
      ((session sampleLayout [5046272]).final (trapProcess 4128 6291464)).refusals = 0 ∧
      (mmMalloc sampleLayout 40).value
        ((session sampleLayout [5046272]).final (trapProcess 4128 6291464)) = some 6291464 ∧
      ((mmMalloc sampleLayout 40).final
        ((session sampleLayout [5046272]).final (trapProcess 4128 6291464))).refusals = 0 ∧
      packSize ((mmMalloc sampleLayout 40).final
        ((session sampleLayout [5046272]).final (trapProcess 4128 6291464))).mem 6291456 = 4088 := by
    decide +kernel
  obtain ⟨hvalue, hrefusals, hvalue', hrefusals', hsize⟩ := heval
  refine ⟨trap_startable _ _, _, _, run_of_value hvalue, hrefusals, run_of_value hvalue',
    hrefusals'.trans hrefusals.symm, ?_⟩
  rw [hsize]
  decide

end Xv6MallocLab.Ummalloc
