import Xv6MallocLab.BlockOwnership

/-!
# Files without holes

Where no inode has a hole below its size, `bmap` finds every block that `readi` asks for,
so that a read neither reaches `balloc` nor changes anything.
-/

namespace Xv6MallocLab.FileSystem

variable {sb : Super} {L : ℕ → ℕ} {d : Disk} {s : Itable} {i : ISlot}

theorem NoHoles.place_ne {inum : ℕ} (h : NoHoles d inum) {bn : ℕ}
    (hbn : bn < ((d.dinode inum).size + bsize - 1) / bsize) :
    bn < maxfile ∧ (d.dinode inum).place d.block bn ≠ 0 := by
  have hlt : bn * bsize < (d.dinode inum).size := by
    simp only [bsize] at hbn ⊢
    omega
  exact ⟨index_lt hlt h.small, h.full bn hlt⟩

theorem setCopy_self (s : Itable) (i : ISlot) :
    s.setInode i ((s.inode i).setCopy (s.inode i).copy) = s := by
  change { s with inode := Function.update s.inode i (s.inode i) } = s
  rw [Function.update_eq_self]

theorem Itable.Sound.readi_found (h : s.Sound sb L) (hl : (s.inode i).locked = true) (off n : ℕ)
    (copy : ℕ → Bool) :
    ∃ r m, ∀ alloc, readi alloc (s.inode i).copy off n copy s.disk =
      .ok (((s.inode i).copy, r, m), s.disk) := by
  obtain ⟨href, hvalid⟩ := h.locked i hl
  obtain ⟨hlt, hcopy, htype⟩ := h.copies i href hvalid
  rw [hcopy] at htype ⊢
  have hno := h.tidy.noHoles _ hlt htype
  obtain ⟨r, m, hrun, -⟩ := FileSystem.readi_found hno.full hno.small off n copy
  exact ⟨r, m, hrun⟩

theorem Itable.Sound.perform_readi (h : s.Sound sb L) (hl : (s.inode i).locked = true) (off n : ℕ)
    (copy : ℕ → Bool) : perform sb (.readi i off n copy) s = .ok ((), s) := by
  obtain ⟨r, m, hrun⟩ := h.readi_found hl off n copy
  have hcopy : onCopy i (fun _ ip => readi (balloc sb) ip off n copy) s =
      .ok ((r, m), s.setInode i ((s.inode i).setCopy (s.inode i).copy)) := by
    change (Fallible.zoom Itable.disk Itable.setDisk
      (readi (balloc sb) (s.inode i).copy off n copy) s >>= _ : Except Panic _) = _
    rw [Fallible.zoom, hrun]
    rfl
  change (onCopy i (fun _ ip => readi (balloc sb) ip off n copy) s >>= _ : Except Panic _) = _
  rw [hcopy, setCopy_self]
  rfl

/-- From a disk without holes whose inodes store blocks in use, each once, after any sequence
of calls, every allocated inode has a block for each index below its size, and `readi` reaches
no allocator and changes nothing. -/
theorem reads_never_allocate (hd : Stored sb d) (h : Reached sb (boot d) s) :
    (∀ inum < sb.ninodes, (s.disk.dinode inum).type ≠ .free →
      ∀ bn < ((s.disk.dinode inum).size + bsize - 1) / bsize,
        bn < maxfile ∧ (s.disk.dinode inum).place s.disk.block bn ≠ 0) ∧
      ∀ i, (s.inode i).locked = true → ∀ off n copy,
        (∃ r m, ∀ alloc, readi alloc (s.inode i).copy off n copy s.disk =
          .ok (((s.inode i).copy, r, m), s.disk)) ∧
        perform sb (.readi i off n copy) s = .ok ((), s) := by
  have hs := h.sound (boot_sound hd.tidy)
  refine ⟨fun inum hlt halloc bn hbn => (hs.tidy.noHoles inum hlt halloc).place_ne hbn, ?_⟩
  intro i hl off n copy
  exact ⟨hs.readi_found hl off n copy, hs.perform_readi hl off n copy⟩

theorem reads_never_allocate_small :
    perform smallSuper (.readi firstSlot 0 1 fun _ => true) (smallRun 2) = .ok ((), smallRun 2) :=
  ((reads_never_allocate smallDisk_image.stored (smallRun_reached (Or.inr rfl))).2 firstSlot rfl 0 1
    fun _ => true).2

def sharedSuper : Super := ⟨16, 3, 2, by decide, smallSuper.datastart_pos⟩

def sharedDisk : Disk where
  bitmap := fun _ => true
  dinode := fun inum =>
    if inum = 1 then { Dinode.fresh .file with size := 13 * 1024, addrs := fun j => j + 2 }
    else if inum = 2 then
      { Dinode.fresh .file with size := 1024, addrs := fun j => if j = 0 then 14 else 0 }
    else .fresh .free
  block := fun b i => if b = 14 ∧ i = 0 then 15 else 0

def sharedRun : Itable :=
  after sharedSuper (.writei firstSlot (.kernel fun _ => 0) 0 4)
    (after sharedSuper (.ilock firstSlot) (after sharedSuper (.iget 2) (boot sharedDisk)))

theorem sharedDisk_noHoles : ∀ inum < sharedSuper.ninodes, (sharedDisk.dinode inum).type ≠ .free →
    NoHoles sharedDisk inum := by
  intro inum hlt halloc
  have hlt : inum < 3 := hlt
  interval_cases inum
  · exact absurd rfl halloc
  · refine ⟨fun bn hbn => ?_, by decide⟩
    have hbn : bn * 1024 < 13 * 1024 := hbn
    have hbn : bn < 13 := by omega
    interval_cases bn <;> decide
  · refine ⟨fun bn hbn => ?_, by decide⟩
    have hbn : bn * 1024 < 1024 := hbn
    have hbn : bn < 1 := by omega
    interval_cases bn
    decide

/-- Where a block has two owners, a write to one file makes a hole in the other. -/
theorem shared_block_makes_hole :
    (∀ inum < sharedSuper.ninodes, (sharedDisk.dinode inum).type ≠ .free →
      NoHoles sharedDisk inum) ∧
      Reached sharedSuper (boot sharedDisk) sharedRun ∧
      (sharedRun.disk.dinode 1).type ≠ .free ∧ ¬NoHoles sharedRun.disk 1 := by
  refine ⟨sharedDisk_noHoles, ?_, nofun, fun h => ?_⟩
  · refine .step (.writei firstSlot (.kernel fun _ => 0) 0 4)
      (.step (.ilock firstSlot) (.step (.iget 2) .refl ?_ rfl) ?_ rfl) ?_ rfl
    · change 2 < 3
      decide
    · change 2 < 3
      decide
    · rfl
  · refine h.full 12 (by decide) ?_
    decide

end Xv6MallocLab.FileSystem
