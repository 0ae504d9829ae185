import Xv6MallocLab.Inodes

/-!
# Who owns a block

On a tidy disk every block number that an allocated inode stores is a data block in
use, stored nowhere else, and no inode has a hole below its size.  Every call on the
inode table keeps the disk tidy, whatever it returns.
-/

namespace Xv6MallocLab.FileSystem

open ByteMemory Finset Function List

variable {sb : Super} {d d' : Disk} {ip ip' : Dinode}

def Dinode.owned (block : ℕ → Memory) (ip : Dinode) : ℕ → ℕ :=
  if ip.type = .free then 0 else ip.uses block

def total (sb : Super) (d : Disk) : ℕ → ℕ :=
  ∑ inum ∈ range sb.ninodes, (d.dinode inum).owned d.block

def rest (sb : Super) (d : Disk) (inum : ℕ) : ℕ → ℕ :=
  ∑ j ∈ (Finset.range sb.ninodes).erase inum, (d.dinode j).owned d.block

variable {inum : ℕ} {L : ℕ → ℕ}

theorem total_eq (h : inum < sb.ninodes) :
    total sb d = rest sb d inum + (d.dinode inum).owned d.block :=
  (Finset.sum_erase_add _ _ (Finset.mem_range.2 h)).symm

variable {j k : ℕ} {block block' : ℕ → Memory} {x : Inode}

theorem owned_le_rest (hj : j < sb.ninodes) (hne : j ≠ inum) (b : ℕ) :
    (d.dinode j).owned d.block b ≤ rest sb d inum b := by
  rw [rest, Finset.sum_apply]
  exact Finset.single_le_sum (f := fun j => (d.dinode j).owned d.block b)
    (fun _ _ => Nat.zero_le _) (Finset.mem_erase.2 ⟨hne, Finset.mem_range.2 hj⟩)

theorem place_congr
    (h : ip.addrs ndirect ≠ 0 → block' (ip.addrs ndirect) = block (ip.addrs ndirect)) (p : ℕ) :
    ip.place block' p = ip.place block p := by
  unfold Dinode.place
  split_ifs with h₁ h2 h3
  · rfl
  · rfl
  · rw [h h3]
  · rfl

theorem uses_congr
    (h : ip.addrs ndirect ≠ 0 → block' (ip.addrs ndirect) = block (ip.addrs ndirect)) :
    ip.uses block' = ip.uses block := by
  simp only [Dinode.uses, place_congr h]

theorem indirect_of_frame (hj : j < sb.ninodes) (hne : j ≠ inum)
    (halloc : (d.dinode j).type ≠ .free)
    (hframe : ∀ b, rest sb d inum b ≠ 0 → d'.block b = d.block b)
    (h : (d.dinode j).addrs ndirect ≠ 0) :
    d'.block ((d.dinode j).addrs ndirect) = d.block ((d.dinode j).addrs ndirect) := by
  apply hframe
  have hle := owned_le_rest (d := d) hj hne ((d.dinode j).addrs ndirect)
  have hpos := uses_indirect_pos d.block h
  rw [Dinode.owned, if_neg halloc] at hle
  omega

theorem rest_frame (h : ∀ b, (L + rest sb d inum) b ≠ 0 → d'.block b = d.block b) :
    ∀ b, rest sb d inum b ≠ 0 → d'.block b = d.block b := by
  intro b hb
  apply h
  rw [Pi.add_apply]
  omega

theorem rest_of_frame (hdinode : ∀ j, j ≠ inum → d'.dinode j = d.dinode j)
    (hframe : ∀ b, rest sb d inum b ≠ 0 → d'.block b = d.block b) :
    rest sb d' inum = rest sb d inum := by
  refine Finset.sum_congr rfl fun j hj => ?_
  obtain ⟨hne, hmem⟩ := Finset.mem_erase.1 hj
  rw [hdinode j hne, Dinode.owned, Dinode.owned]
  split
  · rfl
  · rename_i halloc
    exact uses_congr (indirect_of_frame (Finset.mem_range.1 hmem) hne halloc hframe)

structure NoHoles (d : Disk) (inum : ℕ) : Prop where
  full : (d.dinode inum).Full d.block (d.dinode inum).size
  small : (d.dinode inum).size ≤ maxfile * bsize

/-- The data blocks in use are those that allocated inodes store, each once, and the lost
blocks `L`, which none does; no file has a hole. -/
structure Tidy (sb : Super) (L : ℕ → ℕ) (d : Disk) : Prop where
  marked : Marked sb d (L + total sb d)
  noHoles : ∀ inum < sb.ninodes, (d.dinode inum).type ≠ .free → NoHoles d inum

theorem Tidy.inOrder (h : Tidy sb L d) (hlt : inum < sb.ninodes)
    (halloc : (d.dinode inum).type ≠ .free) : InOrder sb (L + rest sb d inum) d (d.dinode inum) := by
  have hno := h.noHoles inum hlt halloc
  refine ⟨h.marked.congr ?_, hno.full, hno.small⟩
  rw [total_eq hlt, Dinode.owned, if_neg halloc, add_assoc]

section Update

variable {inum : ℕ} (hlt : inum < sb.ninodes) (hdinode : d'.dinode = update d.dinode inum ip')
  (hframe : ∀ b, rest sb d inum b ≠ 0 → d'.block b = d.block b)

include hdinode in
theorem dinode_update_self : d'.dinode inum = ip' := by rw [hdinode, update_self]

include hdinode in
theorem dinode_update_of_ne {j : ℕ} (hj : j ≠ inum) : d'.dinode j = d.dinode j := by
  rw [hdinode, update_of_ne hj]

include hlt hdinode hframe in
theorem total_of_frame : total sb d' = rest sb d inum + ip'.owned d'.block := by
  rw [total_eq hlt, rest_of_frame (fun j => dinode_update_of_ne hdinode) hframe,
    dinode_update_self hdinode]

include hdinode hframe in
theorem noHoles_of_frame (hno : ∀ j < sb.ninodes, (d.dinode j).type ≠ .free → NoHoles d j)
    (hfull : ip'.type ≠ .free → ip'.Full d'.block ip'.size ∧ ip'.size ≤ maxfile * bsize) :
    ∀ j < sb.ninodes, (d'.dinode j).type ≠ .free → NoHoles d' j := by
  intro j hj halloc
  by_cases hne : j = inum
  · subst hne
    have hself := dinode_update_self hdinode
    rw [hself] at halloc
    refine ⟨?_, ?_⟩ <;> rw [hself]
    · exact (hfull halloc).1
    · exact (hfull halloc).2
  · have hother := dinode_update_of_ne hdinode hne
    rw [hother] at halloc
    have hold := hno j hj halloc
    refine ⟨?_, ?_⟩ <;> rw [hother]
    · intro bn hbn
      rw [place_congr (indirect_of_frame hj hne halloc hframe)]
      exact hold.full bn hbn
    · exact hold.small

include hlt hdinode hframe in
theorem Tidy.update (h : Tidy sb L d) (hmark : Marked sb d' (L + rest sb d inum + ip'.owned d'.block))
    (hfull : ip'.type ≠ .free → ip'.Full d'.block ip'.size ∧ ip'.size ≤ maxfile * bsize) :
    Tidy sb L d' :=
  ⟨hmark.congr (by rw [total_of_frame hlt hdinode hframe, add_assoc]),
    noHoles_of_frame hdinode hframe h.noHoles hfull⟩

end Update

structure Itable.Sound (sb : Super) (L : ℕ → ℕ) (s : Itable) : Prop where
  tidy : Tidy sb L s.disk
  ref : ∀ i, 0 ≤ (s.inode i).ref
  unique : ∀ i j, 0 < (s.inode i).ref → 0 < (s.inode j).ref →
    (s.inode i).inum = (s.inode j).inum → i = j
  copies : ∀ i, 0 < (s.inode i).ref → (s.inode i).valid = true →
    (s.inode i).inum < sb.ninodes ∧ (s.inode i).copy = s.disk.dinode (s.inode i).inum ∧
      (s.inode i).copy.type ≠ .free
  locked : ∀ i, (s.inode i).locked = true → 0 < (s.inode i).ref ∧ (s.inode i).valid = true

@[simp] theorem setInode_disk (s : Itable) (i : ISlot) (x : Inode) :
    (s.setInode i x).disk = s.disk := rfl

@[simp] theorem setDisk_inode (s : Itable) (d : Disk) : (s.setDisk d).inode = s.inode := rfl

@[simp] theorem setDisk_disk (s : Itable) (d : Disk) : (s.setDisk d).disk = d := rfl

theorem setInode_inode (s : Itable) (i j : ISlot) (x : Inode) :
    (s.setInode i x).inode j = if j = i then x else s.inode j :=
  update_apply ..

variable {s : Itable} {i : ISlot}

theorem Itable.Sound.setInode (h : s.Sound sb L) (href : 0 ≤ x.ref)
    (hunique : 0 < x.ref → ∀ j, j ≠ i → 0 < (s.inode j).ref → (s.inode j).inum ≠ x.inum)
    (hcopy : 0 < x.ref → x.valid = true →
      x.inum < sb.ninodes ∧ x.copy = s.disk.dinode x.inum ∧ x.copy.type ≠ .free)
    (hlocked : x.locked = true → 0 < x.ref ∧ x.valid = true) : (s.setInode i x).Sound sb L := by
  refine ⟨h.tidy, fun j => ?_, fun j k hj hk heq => ?_, fun j => ?_, fun j => ?_⟩
  · rw [setInode_inode]
    split
    · exact href
    · exact h.ref j
  · simp only [setInode_inode] at hj hk heq
    split_ifs at hj hk heq with h₁ h2 h2
    · rw [h₁, h2]
    · exact absurd heq.symm (hunique hj k h2 hk)
    · exact absurd heq (hunique hk j h₁ hj)
    · exact h.unique j k hj hk heq
  · rw [setInode_inode, setInode_disk]
    split
    · exact hcopy
    · exact h.copies j
  · rw [setInode_inode]
    split
    · exact hlocked
    · exact h.locked j

theorem Itable.Sound.write (h : s.Sound sb L) (href : 0 < (s.inode i).ref)
    (hx : x.inum = (s.inode i).inum) (hxref : 0 ≤ x.ref) (htidy : Tidy sb L d')
    (hdinode : d'.dinode = update s.disk.dinode (s.inode i).inum ip')
    (hcopy : x.valid = true → x.inum < sb.ninodes ∧ x.copy = ip' ∧ ip'.type ≠ .free)
    (hlocked : x.locked = true → 0 < x.ref ∧ x.valid = true) :
    ((s.setDisk d').setInode i x).Sound sb L := by
  refine ⟨htidy, fun j => ?_, fun j k hj hk heq => ?_, fun j => ?_, fun j => ?_⟩
  · rw [setInode_inode]
    split
    · exact hxref
    · exact h.ref j
  · simp only [setInode_inode, setDisk_inode] at hj hk heq
    split_ifs at hj hk heq with h₁ h2 h2
    · rw [h₁, h2]
    · rw [hx] at heq
      exact absurd (h.unique i k href hk heq).symm h2
    · rw [hx] at heq
      exact absurd (h.unique j i hj href heq) h₁
    · exact h.unique j k hj hk heq
  · simp only [setInode_inode, setDisk_inode, setInode_disk, setDisk_disk]
    split
    · intro _ hvalid
      obtain ⟨hlt, hc, hne⟩ := hcopy hvalid
      rw [hc, hdinode, hx, update_self]
      exact ⟨hx ▸ hlt, rfl, hne⟩
    · rename_i hji
      intro hj hvalid
      have hne : (s.inode j).inum ≠ (s.inode i).inum :=
        fun heq => hji (h.unique j i hj href heq)
      rw [hdinode, update_of_ne hne]
      exact h.copies j hj hvalid
  · rw [setInode_inode]
    split
    · exact hlocked
    · exact h.locked j

abbrev NotFreeing (e : Panic) : Prop := e ≠ .freeingFreeBlock

theorem slotOf_some (h : s.slotOf inum = some i) :
    0 < (s.inode i).ref ∧ (s.inode i).inum = inum := by
  simpa using find?_some h

theorem slotOf_none (h : s.slotOf inum = none) (j : ISlot) :
    0 < (s.inode j).ref → (s.inode j).inum ≠ inum := by
  have := find?_eq_none.1 h j (mem_finRange j)
  simpa using this

theorem freeSlot_some (h : s.freeSlot = some i) : (s.inode i).ref = 0 := by
  simpa using find?_some h

theorem Itable.Sound.addRef (h : s.Sound sb L) (href : 0 < (s.inode i).ref) :
    (s.setInode i ((s.inode i).setRef ((s.inode i).ref + 1))).Sound sb L := by
  have hpos : 0 < (s.inode i).ref + 1 := by omega
  refine h.setInode hpos.le (fun _ j hj hr heq => ?_) (fun _ => h.copies i href) fun hl => ?_
  · exact hj (h.unique j i hr href heq)
  · exact ⟨hpos, (h.locked i hl).2⟩

def Itable.Droppable (s : Itable) (i : ISlot) : Prop :=
  0 < (s.inode i).ref ∧ ((s.inode i).ref = 1 → (s.inode i).locked = false)

theorem iget_keeps (inum : ℕ) (h : s.Sound sb L) :
    Yields (iget inum) s (fun i s' => s'.Sound sb L ∧ s'.Droppable i) NotFreeing := by
  unfold iget
  refine yields_get_bind ?_
  split
  · rename_i i hslot
    have href := (slotOf_some hslot).1
    refine yields_set_bind (.pure ⟨h.addRef href, ?_⟩)
    rw [Itable.Droppable, setInode_inode, if_pos rfl]
    simp only [Inode.setRef]
    exact ⟨by omega, fun h1 => by omega⟩
  · rename_i hnone
    split
    · rename_i i hfree
      have hunlocked : (s.inode i).locked = false := by
        by_contra hl
        have := (h.locked i (by simpa using hl)).1
        have := freeSlot_some hfree
        omega
      refine yields_set_bind (.pure ⟨h.setInode Int.one_nonneg (fun _ j _ hr => ?_) ?_ ?_, ?_⟩)
      · exact slotOf_none hnone j hr
      · exact fun _ hv => nomatch hv
      · exact fun hl => absurd hl (by rw [Inode.recycle, hunlocked]; decide)
      · rw [Itable.Droppable, setInode_inode, if_pos rfl]
        exact ⟨Int.one_pos, fun _ => hunlocked⟩
    · exact .throw nofun

theorem ilock_keeps (hlt : (s.inode i).inum < sb.ninodes) (h : s.Sound sb L) :
    Yields (ilock i) s (fun _ s' => s'.Sound sb L) NotFreeing := by
  unfold ilock
  refine yields_get_bind ?_
  split
  · exact .throw nofun
  · rename_i href
    split
    · exact .throw nofun
    · split
      · rename_i hvalid
        refine yields_set_bind (f := fun _ => pure ()) (.pure ?_)
        exact h.setInode (h.ref i) (fun hr j hj hr' heq => hj (h.unique j i hr' hr heq))
          (h.copies i) fun _ => ⟨by change 0 < (s.inode i).ref; omega, hvalid⟩
      · split
        · exact .throw nofun
        · rename_i htype
          refine yields_set_bind (f := fun _ => pure ()) (.pure ?_)
          exact h.setInode (h.ref i) (fun hr j hj hr' heq => hj (h.unique j i hr' hr heq))
            (fun _ _ => ⟨hlt, rfl, htype⟩)
            fun _ => ⟨by change 0 < (s.inode i).ref; omega, rfl⟩

theorem iunlock_keeps (h : s.Sound sb L) :
    Yields (iunlock i) s (fun _ s' => s'.Sound sb L) NotFreeing := by
  unfold iunlock
  refine yields_get_bind ?_
  split
  · exact .throw nofun
  · refine yields_set_bind (f := fun _ => pure ()) (.pure ?_)
    exact h.setInode (h.ref i) (fun hr j hj hr' heq => hj (h.unique j i hr' hr heq))
      (h.copies i) fun hl => nomatch hl

/-- Inode `inum` has become `ip'`, and the disk is tidy still. -/
structure Settled (sb : Super) (L : ℕ → ℕ) (inum : ℕ) (d d' : Disk) (ip' : Dinode) : Prop where
  tidy : Tidy sb L d'
  dinode : d'.dinode = update d.dinode inum ip'
  type : ip'.type ≠ .free

theorem Settled.refl (h : Tidy sb L d) (halloc : (d.dinode inum).type ≠ .free) :
    Settled sb L inum d d (d.dinode inum) :=
  ⟨h, (update_eq_self ..).symm, halloc⟩

theorem Tidy.of_written (h : Tidy sb L d) (hlt : inum < sb.ninodes)
    (halloc : (d.dinode inum).type ≠ .free) {src : Source} {off off' : ℕ}
    (horder : InOrder sb (L + rest sb d inum) d' ip')
    (hw : Written (L + rest sb d inum) src off off' inum d (d.dinode inum) d' ip') :
    Tidy sb L d' := by
  have htype : ip'.type ≠ .free := by
    rw [hw.inode]
    exact halloc
  refine h.update hlt hw.dinode (rest_frame hw.frame) ?_ fun _ => ⟨horder.full, horder.small⟩
  rw [Dinode.owned, if_neg htype]
  exact horder.marked

theorem writei_settled (src : Source) (off n : ℕ) (h : Tidy sb L d) (hlt : inum < sb.ninodes)
    (halloc : (d.dinode inum).type ≠ .free) :
    Runs (writei (balloc sb) inum (d.dinode inum) src off n) d fun r d' =>
      Settled sb L inum d d' r.1 := by
  refine (writei_runs src off n rfl (h.inOrder hlt halloc)).mono ?_
  rintro ⟨ip', r⟩ d' ⟨horder, off', hw, -⟩
  dsimp only at horder hw ⊢
  refine ⟨h.of_written hlt halloc horder hw, hw.dinode, ?_⟩
  rw [hw.inode]
  exact halloc

theorem itrunc_settled (h : Tidy sb L d) (hlt : inum < sb.ninodes)
    (halloc : (d.dinode inum).type ≠ .free) :
    Runs (itrunc inum (d.dinode inum)) d fun ip' d' =>
      Settled sb L inum d d' ip' ∧ Marked sb d' (L + rest sb d inum) ∧ d'.block = d.block := by
  refine (itrunc_runs inum (h.inOrder hlt halloc).marked).mono ?_
  rintro ip' d' ⟨rfl, hmark, hdinode, hblock⟩
  refine ⟨⟨h.update hlt hdinode (fun b _ => by rw [hblock]) ?_ fun _ => ⟨?_, ?_⟩, hdinode, halloc⟩,
    hmark, hblock⟩
  · rw [Dinode.owned, uses_truncated, ite_self, add_zero]
    exact hmark
  · exact fun bn hbn => nomatch hbn
  · exact Nat.zero_le _

theorem readDirent_keeps (p : Panic) (hp : p ≠ .freeingFreeBlock)
    (hfull : ip.Full d.block ip.size) (hsmall : ip.size ≤ maxfile * bsize) (off : ℕ) :
    Yields (readDirent sb ip off p) d (fun r d' => r.1 = ip ∧ d' = d) NotFreeing := by
  obtain ⟨r, m, hrun, -⟩ := readi_found hfull hsmall off direntSize fun _ => true
  have hread : Runs (readi (balloc sb) ip off direntSize fun _ => true) d
      fun x d' => x = (ip, r, m) ∧ d' = d := ⟨_, _, hrun _, rfl, rfl⟩
  unfold readDirent
  refine .bind (hread.yields _) ?_
  rintro _ _ ⟨rfl, rfl⟩
  dsimp only
  split
  · exact .throw hp
  · exact .pure ⟨rfl, rfl⟩

theorem lookupLoop_keeps (name : Name) (hfull : ip.Full d.block ip.size)
    (hsmall : ip.size ≤ maxfile * bsize) (c off : ℕ) :
    Yields (lookupLoop sb name c ip off) d (fun r d' => r.1 = ip ∧ d' = d) NotFreeing := by
  induction c generalizing off with
  | zero => exact .pure ⟨rfl, rfl⟩
  | succ c ih =>
    unfold lookupLoop
    refine .bind (readDirent_keeps _ (by decide) hfull hsmall off) ?_
    rintro ⟨_, e⟩ _ ⟨rfl, rfl⟩
    dsimp only
    split
    · exact .pure ⟨rfl, rfl⟩
    · exact ih _

theorem emptyLoop_keeps (hfull : ip.Full d.block ip.size) (hsmall : ip.size ≤ maxfile * bsize)
    (c off : ℕ) : Yields (emptyLoop sb c ip off) d (fun r d' => r.1 = ip ∧ d' = d) NotFreeing := by
  induction c generalizing off with
  | zero => exact .pure ⟨rfl, rfl⟩
  | succ c ih =>
    unfold emptyLoop
    refine .bind (readDirent_keeps _ (by decide) hfull hsmall off) ?_
    rintro ⟨_, e⟩ _ ⟨rfl, rfl⟩
    dsimp only
    split
    · exact .pure ⟨rfl, rfl⟩
    · exact ih _

theorem putDirent_settled (e : Dirent) (h : Tidy sb L d) (hlt : inum < sb.ninodes)
    (halloc : (d.dinode inum).type ≠ .free) :
    Yields (putDirent sb inum (d.dinode inum) e) d (fun r d' => Settled sb L inum d d' r.1)
      NotFreeing := by
  have hno := h.noHoles inum hlt halloc
  unfold putDirent
  refine .bind (emptyLoop_keeps hno.full hno.small _ _) ?_
  rintro ⟨_, off⟩ _ ⟨rfl, rfl⟩
  refine .bind ((writei_settled _ off _ h hlt halloc).yields _) ?_
  rintro ⟨ip', r⟩ d' hset
  exact .pure hset

theorem onCopy_keeps {α : Type} {f : ℕ → Dinode → DiskM (Dinode × α)} (h : s.Sound sb L)
    (hl : (s.inode i).locked = true)
    (hf : ∀ inum < sb.ninodes, (s.disk.dinode inum).type ≠ .free →
      Yields (f inum (s.disk.dinode inum)) s.disk (fun r d' => Settled sb L inum s.disk d' r.1)
        NotFreeing) :
    Yields (onCopy i f) s (fun _ s' => s'.Sound sb L ∧ (s'.inode i).locked = true) NotFreeing := by
  obtain ⟨href, hvalid⟩ := h.locked i hl
  obtain ⟨hlt, hcopy, htype⟩ := h.copies i href hvalid
  rw [hcopy] at htype
  unfold onCopy
  refine yields_get_bind (.bind (P := fun r s' => ∃ d', s' = s.setDisk d' ∧
    Settled sb L (s.inode i).inum s.disk d' r.1) ?_ ?_)
  · rw [hcopy]
    exact (hf _ hlt htype).zoom fun r d' hset => ⟨d', rfl, hset⟩
  · rintro ⟨ip', a⟩ _ ⟨d', rfl, hset⟩
    refine yields_modify_bind (.pure ⟨?_, ?_⟩)
    · exact h.write href rfl (h.ref i) hset.tidy hset.dinode
        (fun _ => ⟨hlt, rfl, hset.type⟩) fun _ => ⟨href, hvalid⟩
    · rw [setInode_inode, if_pos rfl]
      exact hl

theorem freeInode_keeps (h : Tidy sb L d) (hlt : inum < sb.ninodes)
    (halloc : (d.dinode inum).type ≠ .free) :
    Runs (freeInode inum (d.dinode inum)) d fun ip' d' =>
      Tidy sb L d' ∧ d'.dinode = update d.dinode inum ip' ∧ ip'.type = .free ∧
        d'.block = d.block := by
  unfold freeInode
  refine .bind (itrunc_settled h hlt halloc) ?_
  rintro ip' d' ⟨hset, hmark, hblock⟩
  have hdinode : (d'.putInode inum (ip'.setType .free)).dinode =
      update d.dinode inum (ip'.setType .free) := by
    rw [Disk.putInode, hset.dinode, update_idem]
  refine runs_modify_bind (.pure ⟨?_, hdinode, rfl, hblock⟩)
  refine h.update hlt hdinode (fun b _ => congrFun hblock b) ?_ fun htype => absurd rfl htype
  exact hmark.putInode _ _

theorem iput_keeps (h : s.Sound sb L) (hd : s.Droppable i) :
    Yields (iput i) s (fun _ s' => s'.Sound sb L) NotFreeing := by
  unfold iput
  refine yields_get_bind ?_
  split
  · rename_i hlast
    obtain ⟨hlt, hcopy, htype⟩ := h.copies i hd.1 hlast.2.1
    rw [hcopy] at htype
    split
    · exact .throw nofun
    · rename_i hunlocked
      refine .bind (P := fun ip' s' => ∃ d', s' = s.setDisk d' ∧ Tidy sb L d' ∧
        d'.dinode = update s.disk.dinode (s.inode i).inum ip') ?_ ?_
      · rw [hcopy]
        refine ((freeInode_keeps h.tidy hlt htype).yields _).zoom ?_
        exact fun ip' d' hset => ⟨d', rfl, hset.1, hset.2.1⟩
      · rintro ip' _ ⟨d', rfl, htidy, hdinode⟩
        refine yields_modify_bind (f := fun _ => pure ()) (.pure ?_)
        refine h.write hd.1 rfl ?_ htidy hdinode (fun hv => nomatch hv) fun hl => absurd hl hunlocked
        have := hd.1
        exact Int.sub_nonneg_of_le this
  · refine yields_set_bind (f := fun _ => pure ()) (.pure ?_)
    have hpos := hd.1
    refine h.setInode (Int.sub_nonneg_of_le hpos) (fun _ j hj hr heq => ?_)
      (fun _ => h.copies i hpos) fun hl => ?_
    · exact hj (h.unique j i hr hpos heq)
    · refine ⟨?_, (h.locked i hl).2⟩
      have hne : (s.inode i).ref ≠ 1 := fun h1 => by
        have := hd.2 h1
        exact absurd hl (by rw [Inode.setRef, this]; decide)
      change 0 < (s.inode i).ref - 1
      omega

theorem dirlookup_keeps (name : Name) (h : s.Sound sb L) (hl : (s.inode i).locked = true) :
    Yields (dirlookup sb i name) s
      (fun r s' => s'.Sound sb L ∧ match r with
        | none => (s'.inode i).locked = true
        | some (j, _) => s'.Droppable j) NotFreeing := by
  unfold dirlookup
  refine yields_get_bind ?_
  split
  · exact .throw nofun
  · refine .bind (onCopy_keeps h hl fun inum hlt halloc => ?_) ?_
    · have hno := h.tidy.noHoles inum hlt halloc
      refine (lookupLoop_keeps name hno.full hno.small _ _).mono ?_
      rintro ⟨_, r⟩ _ ⟨rfl, rfl⟩
      exact .refl h.tidy halloc
    · rintro (_ | ⟨inum, off⟩) s' ⟨hs, hl'⟩
      · exact .pure ⟨hs, hl'⟩
      · refine .bind (iget_keeps inum hs) ?_
        rintro j s'' ⟨hs', hdrop⟩
        exact .pure ⟨hs', hdrop⟩

theorem dirlink_keeps (name : Name) (inum : ℕ) (h : s.Sound sb L)
    (hl : (s.inode i).locked = true) :
    Yields (dirlink sb i name inum) s (fun _ s' => s'.Sound sb L) NotFreeing := by
  unfold dirlink
  refine .bind (dirlookup_keeps name h hl) ?_
  rintro (_ | ⟨j, off⟩) s' ⟨hs, hr⟩
  · refine (onCopy_keeps hs hr fun dnum hlt halloc => ?_).mono fun _ _ hq => hq.1
    exact putDirent_settled _ hs.tidy hlt halloc
  · refine .bind (iput_keeps hs hr) ?_
    rintro _ s'' hs'
    exact .pure hs'

theorem ialloc_keeps (type : IType) (h : s.Sound sb L) :
    Yields (ialloc sb type) s (fun _ s' => s'.Sound sb L) NotFreeing := by
  unfold ialloc
  refine yields_get_bind ?_
  split
  · exact .pure h
  · rename_i inum hfind
    have hmem := mem_of_find?_eq_some hfind
    have hfree : (s.disk.dinode inum).type = .free := by simpa using find?_some hfind
    have hlt : inum < sb.ninodes := by
      rw [mem_range'_1] at hmem
      omega
    have hzero : (Dinode.fresh type).uses s.disk.block = 0 := uses_of_addrs fun _ _ => rfl
    have htidy : Tidy sb L (s.disk.putInode inum (.fresh type)) := by
      refine h.tidy.update hlt rfl (fun _ _ => rfl) ?_ fun _ => ⟨fun bn hbn => ?_, Nat.zero_le _⟩
      · refine (h.tidy.marked.putInode _ _).congr ?_
        rw [total_eq hlt, Dinode.owned, Dinode.owned, if_pos hfree, ← add_assoc]
        exact congrArg _ ((ite_congr rfl (fun _ => rfl) fun _ => hzero).trans (ite_self _)).symm
      · exact nomatch hbn
    have hsound : (s.setDisk (s.disk.putInode inum (.fresh type))).Sound sb L := by
      refine ⟨htidy, h.ref, h.unique, fun j hj hv => ?_, h.locked⟩
      obtain ⟨hjlt, hcopy, hjtype⟩ := h.copies j hj hv
      have hne : (s.inode j).inum ≠ inum := by
        rintro rfl
        rw [hcopy] at hjtype
        exact hjtype hfree
      refine ⟨hjlt, ?_, hjtype⟩
      exact hcopy.trans (update_of_ne hne ..).symm
    refine yields_set_bind (.bind (iget_keeps inum hsound) ?_)
    rintro i s' ⟨hs', -⟩
    exact .pure hs'

theorem perform_keeps {op : Op} (h : s.Sound sb L) (hop : s.admits sb op) :
    Yields (perform sb op) s (fun _ s' => s'.Sound sb L) NotFreeing := by
  cases op with
  | iget inum => exact .bind (iget_keeps inum h) fun _ _ hq => .pure hq.1
  | idup i =>
    refine yields_modify_bind (f := fun _ => pure ()) (.pure ?_)
    exact h.addRef hop
  | ilock i => exact ilock_keeps hop h
  | iunlock i => exact iunlock_keeps h
  | iput i => exact iput_keeps h hop
  | ialloc type => exact .bind (ialloc_keeps type h) fun _ _ hq => .pure hq
  | readi i off n copy =>
    refine .bind (onCopy_keeps h hop fun inum hlt halloc => ?_) fun _ _ hq => .pure hq.1
    have hno := h.tidy.noHoles inum hlt halloc
    obtain ⟨r, m, hrun, -⟩ := readi_found hno.full hno.small off n copy
    exact .inl ⟨_, _, hrun _, .refl h.tidy halloc⟩
  | writei i src off n =>
    refine .bind (onCopy_keeps h hop fun inum hlt halloc => ?_) fun _ _ hq => .pure hq.1
    exact (writei_settled src off n h.tidy hlt halloc).yields _
  | itrunc i =>
    unfold perform
    refine (onCopy_keeps h hop fun inum hlt halloc => ?_).mono fun _ _ hq => hq.1
    refine .bind ((itrunc_settled h.tidy hlt halloc).yields _) ?_
    rintro ip' d' ⟨hset, -⟩
    exact .pure hset
  | setLinks i nlink major minor =>
    unfold perform setLinks
    refine (onCopy_keeps h hop fun inum hlt halloc => ?_).mono fun _ _ hq => hq.1
    have horder := h.tidy.inOrder hlt halloc
    refine yields_modify_bind (.pure ⟨?_, rfl, halloc⟩)
    refine h.tidy.update hlt rfl (fun _ _ => rfl) ?_ fun _ => ⟨horder.full, horder.small⟩
    rw [Dinode.owned, if_neg halloc]
    exact horder.marked.putInode _ _
  | dirlookup i name => exact .bind (dirlookup_keeps name h hop) fun _ _ hq => .pure hq.1
  | dirlink i name inum => exact .bind (dirlink_keeps name inum h hop) fun _ _ hq => .pure hq

theorem boot_sound (h : Tidy sb L d) : (boot d).Sound sb L := by
  have hzero : ∀ i, ¬0 < ((boot d).inode i).ref := fun _ => lt_irrefl _
  refine ⟨h, fun _ => le_rfl, fun i _ hi => absurd hi (hzero i), fun i hi => absurd hi (hzero i), ?_⟩
  intro i hl
  cases hl

/-- Every run of inode calls keeps the books of the blocks. -/
theorem Reached.sound {s0 : Itable} (h0 : s0.Sound sb L) (h : Reached sb s0 s) : s.Sound sb L := by
  induction h with
  | refl => exact h0
  | step op _ hop hs ih => exact (perform_keeps ih hop).of_ok hs

/-- The block numbers that allocated inodes store: data blocks in use, each stored once. -/
structure Placed (sb : Super) (d : Disk) : Prop where
  stored : ∀ inum < sb.ninodes, (d.dinode inum).type ≠ .free → ∀ p ≤ maxfile,
    (d.dinode inum).place d.block p ≠ 0 →
      sb.data ((d.dinode inum).place d.block p) ∧ d.bitmap ((d.dinode inum).place d.block p) = true
  once : ∀ inum < sb.ninodes, (d.dinode inum).type ≠ .free → ∀ p ≤ maxfile,
    ∀ inum' < sb.ninodes, (d.dinode inum').type ≠ .free → ∀ p' ≤ maxfile,
    (d.dinode inum).place d.block p ≠ 0 →
      (d.dinode inum).place d.block p = (d.dinode inum').place d.block p' → inum = inum' ∧ p = p'

/-- They are all the data blocks in use. -/
structure Owned (sb : Super) (d : Disk) : Prop extends Placed sb d where
  kept : ∀ b, sb.data b → d.bitmap b = true → ∃ inum < sb.ninodes,
    (d.dinode inum).type ≠ .free ∧ ∃ p ≤ maxfile, (d.dinode inum).place d.block p = b

def holders (sb : Super) (d : Disk) (b : ℕ) : Finset (ℕ × ℕ) :=
  (Finset.range sb.ninodes ×ˢ Finset.range (maxfile + 1)).filter fun q =>
    (d.dinode q.1).type ≠ .free ∧ (d.dinode q.1).place d.block q.2 = b ∧ b ≠ 0

theorem mem_holders {b : ℕ} {q : ℕ × ℕ} : q ∈ holders sb d b ↔
    (q.1 < sb.ninodes ∧ q.2 ≤ maxfile) ∧ (d.dinode q.1).type ≠ .free ∧
      (d.dinode q.1).place d.block q.2 = b ∧ b ≠ 0 := by
  rw [holders, Finset.mem_filter, Finset.mem_product, Finset.mem_range, Finset.mem_range,
    Nat.lt_succ_iff]

theorem one_apply (a b : ℕ) : one a b = if a = b ∧ b ≠ 0 then 1 else 0 := by
  unfold one
  split_ifs with h₁ h2 h2
  · omega
  · rfl
  · rw [h2.1, Pi.single_eq_same]
  · rw [Pi.single_apply, if_neg]
    rintro rfl
    exact h2 ⟨rfl, h₁⟩

theorem total_eq_card (b : ℕ) : total sb d b = (holders sb d b).card := by
  rw [total, holders, Finset.card_filter, Finset.sum_product, Finset.sum_apply]
  refine Finset.sum_congr rfl fun inum _ => ?_
  rw [Dinode.owned]
  split_ifs with hfree
  · exact (Finset.sum_eq_zero fun p _ => if_neg fun h => h.1 hfree).symm
  · rw [Dinode.uses, Finset.sum_apply]
    refine Finset.sum_congr rfl fun p _ => ?_
    rw [one_apply]
    exact if_congr ⟨fun h => ⟨hfree, h⟩, And.right⟩ rfl rfl

theorem total_pos {p : ℕ} (hlt : inum < sb.ninodes) (halloc : (d.dinode inum).type ≠ .free)
    (hp : p ≤ maxfile) (hne : (d.dinode inum).place d.block p ≠ 0) :
    0 < total sb d ((d.dinode inum).place d.block p) := by
  rw [total_eq_card]
  exact card_pos.2 ⟨(inum, p), mem_holders.2 ⟨⟨hlt, hp⟩, halloc, rfl, hne⟩⟩

theorem Marked.placed (h : Marked sb d (L + total sb d)) : Placed sb d := by
  constructor
  · intro inum hlt halloc p hp hne
    have hpos := total_pos hlt halloc hp hne
    have hcount := h.count ((d.dinode inum).place d.block p)
    rw [Pi.add_apply] at hcount
    by_contra hcon
    rw [if_neg hcon] at hcount
    omega
  · intro inum hlt halloc p hp inum' hlt' halloc' p' hp' hne heq
    have hle : total sb d ((d.dinode inum).place d.block p) ≤ 1 :=
      (Nat.le_add_left _ _).trans (h.le_one _)
    rw [total_eq_card] at hle
    have hpair := card_le_one.1 hle (inum, p) (mem_holders.2 ⟨⟨hlt, hp⟩, halloc, rfl, hne⟩)
      (inum', p') (mem_holders.2 ⟨⟨hlt', hp'⟩, halloc', heq.symm, hne⟩)
    exact Prod.mk.inj hpair

theorem Marked.owned (h : Marked sb d (0 + total sb d)) : Owned sb d := by
  refine ⟨h.placed, fun b hb hbit => ?_⟩
  have hone := h.count b
  rw [if_pos ⟨hb, hbit⟩, zero_add, total_eq_card] at hone
  obtain ⟨q, hq⟩ := card_pos.1 (hone ▸ Nat.one_pos)
  obtain ⟨⟨hlt, hp⟩, halloc, hplace, -⟩ := mem_holders.1 hq
  exact ⟨q.1, hlt, halloc, q.2, hp, hplace⟩

/-- The data blocks in use that no allocated inode stores. -/
def lost (sb : Super) (d : Disk) (b : ℕ) : ℕ :=
  if sb.data b ∧ d.bitmap b = true ∧ total sb d b = 0 then 1 else 0

theorem Owned.lost_eq (h : Owned sb d) : lost sb d = 0 := by
  refine funext fun b => if_neg fun ⟨hdata, hbit, hzero⟩ => ?_
  obtain ⟨inum, hlt, halloc, p, hp, rfl⟩ := h.kept b hdata hbit
  have hne : (d.dinode inum).place d.block p ≠ 0 := by
    have := sb.datastart_pos
    have := hdata.1
    omega
  exact (total_pos hlt halloc hp hne).ne' hzero

namespace Placed

theorem total_le_one (h : Placed sb d) (b : ℕ) : total sb d b ≤ 1 := by
  rw [total_eq_card, card_le_one]
  intro q hq q' hq'
  obtain ⟨⟨hlt, hp⟩, halloc, hplace, hne⟩ := mem_holders.1 hq
  obtain ⟨⟨hlt', hp'⟩, halloc', hplace', -⟩ := mem_holders.1 hq'
  have heq : (d.dinode q.1).place d.block q.2 = (d.dinode q'.1).place d.block q'.2 :=
    hplace.trans hplace'.symm
  have hpair := h.once q.1 hlt halloc q.2 hp q'.1 hlt' halloc' q'.2 hp' (by rwa [hplace]) heq
  exact Prod.ext hpair.1 hpair.2

theorem mark_of_total (h : Placed sb d) {b : ℕ} (hb : total sb d b ≠ 0) :
    sb.data b ∧ d.bitmap b = true := by
  rw [total_eq_card] at hb
  obtain ⟨q, hq⟩ := card_ne_zero.1 hb
  obtain ⟨⟨hlt, hp⟩, halloc, rfl, hne⟩ := mem_holders.1 hq
  exact h.stored q.1 hlt halloc q.2 hp hne

theorem marked (h : Placed sb d) (hlow : ∀ b < sb.datastart, d.bitmap b = true) :
    Marked sb d (lost sb d + total sb d) := by
  refine ⟨fun b => ?_, hlow⟩
  have hone := h.total_le_one b
  by_cases hzero : total sb d b = 0
  · rw [Pi.add_apply, hzero, add_zero, lost]
    exact if_congr ⟨fun hb => ⟨hb.1, hb.2.1⟩, fun hb => ⟨hb.1, hb.2, hzero⟩⟩ rfl rfl
  · rw [Pi.add_apply, lost, if_neg fun hb => hzero hb.2.2, if_pos (h.mark_of_total hzero)]
    omega

end Placed

/-- What allocated inodes store is marked in use and stored once, what lies below the data
blocks is marked, and no file has a hole. -/
structure Stored (sb : Super) (d : Disk) : Prop extends Placed sb d where
  low : ∀ b < sb.datastart, d.bitmap b = true
  noHoles : ∀ inum < sb.ninodes, (d.dinode inum).type ≠ .free → NoHoles d inum

theorem Stored.tidy (h : Stored sb d) : Tidy sb (lost sb d) d := ⟨h.marked h.low, h.noHoles⟩

theorem Tidy.stored (h : Tidy sb L d) : Stored sb d := ⟨h.marked.placed, h.marked.low, h.noHoles⟩

/-- An image as `mkfs` makes them: the blocks of log, inodes and bitmap are marked in
use, and no file has a hole. -/
structure Image (sb : Super) (d : Disk) : Prop where
  owned : Owned sb d
  low : ∀ b < sb.datastart, d.bitmap b = true
  noHoles : ∀ inum < sb.ninodes, (d.dinode inum).type ≠ .free → NoHoles d inum

theorem Image.stored (h : Image sb d) : Stored sb d := ⟨h.owned.toPlaced, h.low, h.noHoles⟩

theorem Image.tidy (h : Image sb d) : Tidy sb 0 d := h.owned.lost_eq ▸ h.stored.tidy

/-- From an image, after any sequence of calls, the block numbers that allocated inodes
store are the data blocks in use, each once, and no call frees a free block. -/
theorem blocks_owned_once (hd : Image sb d) (h : Reached sb (boot d) s) :
    Owned sb s.disk ∧
      (∀ i, 0 < (s.inode i).ref → (s.inode i).valid = true →
        (s.inode i).copy = s.disk.dinode (s.inode i).inum) ∧
      ∀ op, s.admits sb op → perform sb op s ≠ .error .freeingFreeBlock := by
  have hs := h.sound (boot_sound hd.tidy)
  refine ⟨hs.tidy.marked.owned, fun i href hvalid => (hs.copies i href hvalid).2.1, ?_⟩
  intro op hop herr
  exact (perform_keeps hs hop).of_error herr rfl

def after (sb : Super) (op : Op) (s : Itable) : Itable :=
  match perform sb op s with
  | .ok (_, s') => s'
  | .error _ => s

def firstSlot : ISlot := ⟨0, by decide⟩

def smallSuper : Super := ⟨4, 2, 2, by decide, by decide⟩

def smallDisk (k : ℕ) : Disk where
  bitmap := fun b => b < k
  dinode := fun inum => if inum = 1 then .fresh .file else .fresh .free
  block := fun _ _ => 0

theorem smallDisk_place (k inum p : ℕ) :
    ((smallDisk k).dinode inum).place (smallDisk k).block p = 0 := by
  by_cases h : inum = 1 <;> simp [smallDisk, h, Dinode.place, Dinode.fresh]

theorem smallDisk_owned (hk : k ≤ 2) : Owned smallSuper (smallDisk k) := by
  refine ⟨⟨fun inum _ _ p _ hne => absurd (smallDisk_place ..) hne,
    fun inum _ _ p _ _ _ _ _ _ hne => absurd (smallDisk_place ..) hne⟩, fun b hb hbit => ?_⟩
  have hlo : 2 ≤ b := hb.1
  have hlt : b < k := of_decide_eq_true hbit
  omega

theorem smallDisk_noHoles (k inum : ℕ) : NoHoles (smallDisk k) inum := by
  have hsize : ((smallDisk k).dinode inum).size = 0 := by
    by_cases h : inum = 1 <;> simp [smallDisk, h, Dinode.fresh]
  refine ⟨fun bn hbn => ?_, ?_⟩
  · rw [hsize] at hbn
    exact absurd hbn (Nat.not_lt_zero _)
  · rw [hsize]
    exact Nat.zero_le _

def smallRun (k : ℕ) : Itable :=
  after smallSuper (.writei firstSlot (.kernel fun _ => 7) 0 1)
    (after smallSuper (.ilock firstSlot) (after smallSuper (.iget 1) (boot (smallDisk k))))

theorem smallRun_reached (hk : k = 1 ∨ k = 2) :
    Reached smallSuper (boot (smallDisk k)) (smallRun k) := by
  have hget : (boot (smallDisk k)).admits smallSuper (.iget 1) := by
    change 1 < 2
    decide
  rcases hk with rfl | rfl
  · refine .step (.writei firstSlot (.kernel fun _ => 7) 0 1)
      (.step (.ilock firstSlot) (.step (.iget 1) .refl hget rfl) ?_ rfl) ?_ rfl
    · change 1 < 2
      decide
    · rfl
  · refine .step (.writei firstSlot (.kernel fun _ => 7) 0 1)
      (.step (.ilock firstSlot) (.step (.iget 1) .refl hget rfl) ?_ rfl) ?_ rfl
    · change 1 < 2
      decide
    · rfl

theorem smallDisk_image : Image smallSuper (smallDisk 2) :=
  ⟨smallDisk_owned le_rfl, fun _ hb => decide_eq_true hb, fun inum _ _ => smallDisk_noHoles 2 inum⟩

theorem blocks_owned_once_small :
    Owned smallSuper (smallRun 2).disk ∧ (smallRun 2).disk.bitmap 2 = true :=
  ⟨(blocks_owned_once smallDisk_image (smallRun_reached (.inr rfl))).1, rfl⟩

def holeDisk : Disk where
  bitmap := fun b => b < 2
  dinode := fun inum =>
    if inum = 1 then { Dinode.fresh .dir with nlink := 1, size := 16 } else .fresh .free
  block := fun _ _ => 0

def holeRun : Itable :=
  after smallSuper (.iput firstSlot) (after smallSuper (.iunlock firstSlot)
    (after smallSuper (.dirlookup firstSlot [97])
      (after smallSuper (.ilock firstSlot) (after smallSuper (.iget 1) (boot holeDisk)))))

theorem holeDisk_owned : Owned smallSuper holeDisk := by
  have hplace : ∀ inum p, (holeDisk.dinode inum).place holeDisk.block p = 0 := by
    intro inum p
    by_cases h : inum = 1 <;> simp [holeDisk, h, Dinode.place, Dinode.fresh]
  refine ⟨⟨fun inum _ _ p _ hne => absurd (hplace ..) hne,
    fun inum _ _ p _ _ _ _ _ _ hne => absurd (hplace ..) hne⟩, fun b hb hbit => ?_⟩
  have hlo : 2 ≤ b := hb.1
  have hlt : b < 2 := of_decide_eq_true hbit
  omega

theorem holeRun_reached : Reached smallSuper (boot holeDisk) holeRun := by
  refine .step (.iput firstSlot) (.step (.iunlock firstSlot) (.step (.dirlookup firstSlot [97])
    (.step (.ilock firstSlot) (.step (.iget 1) .refl ?_ rfl) ?_ rfl) rfl rfl) trivial rfl) ?_ rfl
  · change 1 < 2
    decide
  · change 1 < 2
    decide
  · exact ⟨by decide, fun _ => rfl⟩

/-- With the bit of block 1 clear, a file gets block 1, which is no data block.  With a
hole in a directory, a lookup takes a block that only the copy in the table names. -/
theorem not_owned_without_bits_or_with_hole :
    (Owned smallSuper (smallDisk 1) ∧ (∀ inum, NoHoles (smallDisk 1) inum) ∧
      Reached smallSuper (boot (smallDisk 1)) (smallRun 1) ∧
      ¬Owned smallSuper (smallRun 1).disk) ∧
    Owned smallSuper holeDisk ∧ (∀ b < smallSuper.datastart, holeDisk.bitmap b = true) ∧
      Reached smallSuper (boot holeDisk) holeRun ∧ (holeRun.inode firstSlot).ref = 0 ∧
      ¬Owned smallSuper holeRun.disk := by
  refine ⟨⟨smallDisk_owned (by decide), smallDisk_noHoles 1, smallRun_reached (.inl rfl), ?_⟩,
    holeDisk_owned, fun b hb => decide_eq_true hb, holeRun_reached, rfl, ?_⟩
  · intro h
    have hplace : ((smallRun 1).disk.dinode 1).place (smallRun 1).disk.block 0 = 1 := rfl
    obtain ⟨hdata, -⟩ := h.stored 1 (by decide) nofun 0 (Nat.zero_le _) (by rw [hplace]; decide)
    rw [hplace] at hdata
    exact absurd hdata.1 (by decide)
  · intro h
    have hzero : ∀ inum p, (holeRun.disk.dinode inum).place holeRun.disk.block p = 0 := by
      intro inum p
      by_cases h : inum = 1 <;>
        simp [show holeRun.disk.dinode = holeDisk.dinode from rfl, holeDisk, h, Dinode.place,
          Dinode.fresh]
    obtain ⟨inum, -, -, p, -, hplace⟩ := h.kept 2 ⟨le_rfl, by decide⟩ rfl
    rw [hzero] at hplace
    cases hplace

end Xv6MallocLab.FileSystem
