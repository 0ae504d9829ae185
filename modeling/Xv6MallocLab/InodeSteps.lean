import Xv6MallocLab.BlockOwnership

/-!
# What a call on the inode table leaves behind

A call changes one slot and maybe the disk, and never the inode number of a slot that is
referred to.
-/

namespace Xv6MallocLab.FileSystem

variable {sb : Super} {L : ℕ → ℕ} {s s' : Itable} {i j : ISlot}

theorem zoom_ok {α : Type} {m : DiskM α} {a : α} (h : onDisk m s = .ok (a, s')) :
    ∃ d', m s.disk = .ok (a, d') ∧ s' = s.setDisk d' := by
  unfold onDisk Fallible.zoom at h
  cases hm : m s.disk with
  | error e =>
    rw [hm] at h
    cases h
  | ok p =>
    rw [hm] at h
    cases h
    exact ⟨p.2, rfl, rfl⟩

theorem iget_ok {inum : ℕ} (h : iget inum s = .ok (j, s')) :
    ∃ x, s' = s.setInode j x ∧ x.inum = inum ∧ x.ref = (s.inode j).ref + 1 ∧
      x.locked = (s.inode j).locked ∧
      (0 < (s.inode j).ref ∧ (s.inode j).inum = inum ∨
        (s.inode j).ref = 0 ∧ ∀ k, 0 < (s.inode k).ref → (s.inode k).inum ≠ inum) := by
  unfold iget at h
  rw [bind_of_ok (a := s) (t := s) rfl] at h
  cases hslot : s.slotOf inum with
  | some k =>
    rw [hslot] at h
    cases h
    have hfound := List.find?_some hslot
    simp only [decide_eq_true_eq] at hfound
    exact ⟨_, rfl, hfound.2, rfl, rfl, .inl hfound⟩
  | none =>
    rw [hslot] at h
    dsimp only at h
    cases hfree : s.freeSlot with
    | none =>
      rw [hfree] at h
      cases h
    | some k =>
      rw [hfree] at h
      cases h
      have hzero : (s.inode j).ref = 0 := by simpa using List.find?_some hfree
      refine ⟨_, rfl, rfl, ?_, rfl, .inr ⟨hzero, fun k hk heq => ?_⟩⟩
      · change (1 : ℤ) = _
        rw [hzero]
        rfl
      · have := List.find?_eq_none.1 hslot k (List.mem_finRange k)
        simp only [decide_eq_true_eq] at this
        exact this ⟨hk, heq⟩

theorem ilock_ok (h : ilock i s = .ok ((), s')) :
    1 ≤ (s.inode i).ref ∧ (s.inode i).locked = false ∧
      ∃ ip, s' = s.setInode i ((s.inode i).loaded ip) ∧
        ((s.inode i).valid = true ∧ ip = (s.inode i).copy ∨
          ip = s.disk.dinode (s.inode i).inum ∧ ip.type ≠ .free) := by
  unfold ilock at h
  rw [bind_of_ok (a := s) (t := s) rfl] at h
  split_ifs at h with h1 h2 h3 h4
  · cases h
  · cases h
  · cases h
    refine ⟨by omega, by simpa using h2, (s.inode i).copy, ?_, .inl ⟨h3, rfl⟩⟩
    rw [Inode.loaded, ← h3]
    rfl
  · cases h
  · cases h
    exact ⟨by omega, by simpa using h2, _, rfl, .inr ⟨rfl, h4⟩⟩

theorem iunlock_ok (h : iunlock i s = .ok ((), s')) :
    (s.inode i).locked = true ∧ 1 ≤ (s.inode i).ref ∧
      s' = s.setInode i ((s.inode i).setLocked false) := by
  unfold iunlock at h
  rw [bind_of_ok (a := s) (t := s) rfl] at h
  split_ifs at h with h1
  · cases h
  · cases h
    rw [not_or] at h1
    exact ⟨by simpa using h1.1, by omega, rfl⟩

theorem ilock_valid (href : 1 ≤ (s.inode i).ref) (hl : (s.inode i).locked = false)
    (hv : (s.inode i).valid = true) :
    ilock i s = .ok ((), s.setInode i ((s.inode i).setLocked true)) := by
  unfold ilock
  rw [bind_of_ok (a := s) (t := s) rfl, if_neg (by omega), if_neg (by simp [hl]), if_pos hv]
  rfl

theorem iunlock_locked (hl : (s.inode i).locked = true) (href : 1 ≤ (s.inode i).ref) :
    iunlock i s = .ok ((), s.setInode i ((s.inode i).setLocked false)) := by
  unfold iunlock
  rw [bind_of_ok (a := s) (t := s) rfl, if_neg (by simp [hl]; omega)]
  rfl

theorem ilock_again (h : ilock i s = .ok ((), s')) :
    ∃ s'', iunlock i s' = .ok ((), s'') ∧ ilock i s'' = .ok ((), s') := by
  obtain ⟨href, -, ip, rfl, -⟩ := ilock_ok h
  set t := s.setInode i ((s.inode i).loaded ip) with ht
  have hslot : t.inode i = (s.inode i).loaded ip := by rw [ht, setInode_inode, if_pos rfl]
  refine ⟨_, iunlock_locked (by rw [hslot]; rfl) (by rw [hslot]; exact href), ?_⟩
  have hslot' : (t.setInode i ((t.inode i).setLocked false)).inode i = (t.inode i).setLocked false := by
    rw [setInode_inode, if_pos rfl]
  rw [ilock_valid (by rw [hslot', hslot]; exact href) (by rw [hslot']; rfl)
    (by rw [hslot', hslot]; rfl), hslot']
  have hsame : (t.setInode i ((t.inode i).setLocked false)).setInode i
      (((t.inode i).setLocked false).setLocked true) = t := by
    simp only [Itable.setInode, Function.update_idem]
    have : ((t.inode i).setLocked false).setLocked true = t.inode i := by rw [hslot]; rfl
    rw [this, Function.update_eq_self]
  rw [hsame]

theorem iput_ok (h : iput i s = .ok ((), s')) :
    ∃ d' x, s' = (s.setDisk d').setInode i x ∧ x.inum = (s.inode i).inum ∧
      x.ref = (s.inode i).ref - 1 ∧ x.locked = (s.inode i).locked := by
  unfold iput at h
  rw [bind_of_ok (a := s) (t := s) rfl] at h
  split_ifs at h with h1 h2
  · cases h
  · obtain ⟨ip, t, hfree, hset⟩ := bind_ok h
    obtain ⟨d', -, rfl⟩ := zoom_ok hfree
    cases hset
    exact ⟨d', _, rfl, rfl, rfl, rfl⟩
  · cases h
    exact ⟨s.disk, _, rfl, rfl, rfl, rfl⟩

theorem onCopy_ok {α : Type} {f : ℕ → Dinode → DiskM (Dinode × α)} {a : α}
    (h : onCopy i f s = .ok (a, s')) :
    ∃ d' ip, f (s.inode i).inum (s.inode i).copy s.disk = .ok ((ip, a), d') ∧
      s' = (s.setDisk d').setInode i ((s.inode i).setCopy ip) := by
  unfold onCopy at h
  rw [bind_of_ok (a := s) (t := s) rfl] at h
  obtain ⟨⟨ip, a'⟩, t, hrun, hset⟩ := bind_ok h
  obtain ⟨d', hf, rfl⟩ := zoom_ok hrun
  cases hset
  exact ⟨d', ip, hf, rfl⟩

theorem dirlookup_ok {name : Name} {r : Option (ISlot × ℕ)} (h : dirlookup sb i name s = .ok (r, s')) :
    (s.inode i).copy.type = .dir ∧
      ∃ d' ip found, lookupLoop sb name (s.inode i).copy.nslots (s.inode i).copy 0 s.disk =
          .ok ((ip, found), d') ∧
        (match found with
          | none => r = none ∧ s' = (s.setDisk d').setInode i ((s.inode i).setCopy ip)
          | some (inum, off) => ∃ j, r = some (j, off) ∧
              iget inum ((s.setDisk d').setInode i ((s.inode i).setCopy ip)) = .ok (j, s')) := by
  unfold dirlookup at h
  rw [bind_of_ok (a := s) (t := s) rfl] at h
  split_ifs at h with hdir
  · cases h
  refine ⟨not_not.1 hdir, ?_⟩
  obtain ⟨found, t, hcopy, hrest⟩ := bind_ok h
  obtain ⟨d', ip, hrun, rfl⟩ := onCopy_ok hcopy
  refine ⟨d', ip, found, hrun, ?_⟩
  cases found with
  | none =>
    cases hrest
    exact ⟨rfl, rfl⟩
  | some x =>
    obtain ⟨j, t, hget, hret⟩ := bind_ok hrest
    cases hret
    exact ⟨j, rfl, hget⟩

/-- No block changes, and an inode at most becomes free. -/
structure Freed (d d' : Disk) : Prop where
  block : d'.block = d.block
  dinode : ∀ inum, d'.dinode inum = d.dinode inum ∨ (d'.dinode inum).type = .free

theorem iput_runs (h : s.Sound sb L) (href : 0 < (s.inode i).ref) (hl : (s.inode i).locked = false) :
    Runs (iput i) s fun _ s' => s'.Sound sb L ∧ Freed s.disk s'.disk := by
  have hruns : Runs (iput i) s fun _ s' => Freed s.disk s'.disk := by
    unfold iput
    refine runs_get_bind ?_
    split
    · rename_i hlast
      obtain ⟨hlt, hcopy, htype⟩ := h.copies i href hlast.2.1
      rw [hcopy] at htype
      rw [if_neg (by simp [hl]), hcopy]
      refine .bind (P := fun _ s' => Freed s.disk s'.disk) ?_ ?_
      · refine (freeInode_keeps h.tidy hlt htype).zoom ?_
        rintro ip' d' ⟨-, hdinode, hfree, hblock⟩
        refine ⟨hblock, fun inum => ?_⟩
        change d'.dinode inum = _ ∨ (d'.dinode inum).type = _
        rw [hdinode, Function.update_apply]
        split
        · exact .inr hfree
        · exact .inl rfl
      · exact fun _ s' hs' => runs_modify_bind (f := fun _ => pure ()) (.pure hs')
    · exact runs_set_bind (f := fun _ => pure ()) (.pure ⟨rfl, fun _ => .inl rfl⟩)
  obtain ⟨_, s', hrun, hfreed⟩ := hruns
  exact ⟨_, s', hrun, (iput_keeps h ⟨href, fun _ => hl⟩).of_ok hrun, hfreed⟩

end Xv6MallocLab.FileSystem
