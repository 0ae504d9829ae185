import Xv6MallocLab.Disk

/-!
# Counting blocks

The bitmap is marked by a count `T` when the data blocks whose bit is set are those
that `T` counts, each once.  The functions exchange blocks between the bitmap and the
places of one inode, beside a rest `R` that they do not touch.
-/

namespace Xv6MallocLab.FileSystem

open ByteMemory Function List

variable {sb : Super} {d d' : Disk} {ip ip' : Dinode} {R T : ℕ → ℕ}
  {W : ℕ → Prop}

def Super.data (sb : Super) (b : ℕ) : Prop := sb.datastart ≤ b ∧ b < sb.size

instance (sb : Super) (b : ℕ) : Decidable (sb.data b) := inferInstanceAs (Decidable (_ ∧ _))

def one (a : ℕ) : ℕ → ℕ := if a = 0 then 0 else Pi.single a 1

@[simp] theorem one_zero : one 0 = 0 := rfl

variable {a p b j bn : ℕ} {block : ℕ → Memory}

theorem one_of_ne (h : a ≠ 0) : one a = Pi.single a 1 := if_neg h

/-- The places of an inode: the direct entries, those of the indirect block, and last
the indirect block itself. -/
def Dinode.place (block : ℕ → Memory) (ip : Dinode) (p : ℕ) : ℕ :=
  if p < ndirect then ip.addrs p
  else if p < maxfile then
    if ip.addrs ndirect = 0 then 0 else word (block (ip.addrs ndirect)) (p - ndirect)
  else ip.addrs ndirect

def Dinode.uses (block : ℕ → Memory) (ip : Dinode) : ℕ → ℕ :=
  ∑ p ∈ Finset.range (maxfile + 1), one (ip.place block p)

/-- The set bits of the data blocks are what `T` counts; all other bits are set. -/
structure Marked (sb : Super) (d : Disk) (T : ℕ → ℕ) : Prop where
  count : ∀ b, T b = if sb.data b ∧ d.bitmap b = true then 1 else 0
  low : ∀ b < sb.datastart, d.bitmap b = true

namespace Marked

section

variable (h : Marked sb d T)

include h

theorem congr {T' : ℕ → ℕ} (hT : T = T') : Marked sb d T' := hT ▸ h

theorem le_one (b : ℕ) : T b ≤ 1 := by
  rw [h.count b]
  split <;> omega

theorem zero : T 0 = 0 := by
  rw [h.count 0, if_neg]
  rintro ⟨⟨hlow, -⟩, -⟩
  have := sb.datastart_pos
  omega

theorem of_bitmap (hd : d'.bitmap = d.bitmap) : Marked sb d' T :=
  ⟨fun b => by rw [hd, h.count b], fun b hb => by rw [hd, h.low b hb]⟩

theorem put (b : ℕ) (m : Memory) : Marked sb (d.put b m) T := h.of_bitmap rfl

theorem putInode (inum : ℕ) (ip : Dinode) : Marked sb (d.putInode inum ip) T := h.of_bitmap rfl

end

end Marked

theorem place_direct (h : p < ndirect) : ip.place block p = ip.addrs p := if_pos h

theorem place_last (block : ℕ → Memory) : ip.place block maxfile = ip.addrs ndirect := rfl

theorem place_word (h : ¬p < ndirect) (h' : p < maxfile) (ha : ip.addrs ndirect ≠ 0) :
    ip.place block p = word (block (ip.addrs ndirect)) (p - ndirect) := by
  rw [Dinode.place, if_neg h, if_pos h', if_neg ha]

theorem one_apply_self (h : a ≠ 0) : one a a = 1 := by
  rw [one_of_ne h, Pi.single_eq_same]

theorem uses_pos (block : ℕ → Memory) (hp : p < maxfile + 1) (h : ip.place block p ≠ 0) :
    0 < ip.uses block (ip.place block p) := by
  rw [Dinode.uses, Finset.sum_apply]
  refine Finset.sum_pos' (fun _ _ => Nat.zero_le _) ⟨p, Finset.mem_range.2 hp, ?_⟩
  rw [one_apply_self h]
  exact Nat.one_pos

theorem uses_indirect_pos (block : ℕ → Memory) (h : ip.addrs ndirect ≠ 0) :
    0 < ip.uses block (ip.addrs ndirect) := by
  have hpos := uses_pos block (Nat.lt_succ_self maxfile) (by rwa [place_last])
  rwa [place_last] at hpos

theorem place_inj {q : ℕ} (hle : ip.uses block (ip.place block p) ≤ 1) (hp : p < maxfile + 1)
    (hq : q < maxfile + 1) (h : ip.place block p ≠ 0) (heq : ip.place block q = ip.place block p) :
    q = p := by
  by_contra hne
  have hsub : ({q, p} : Finset ℕ) ⊆ Finset.range (maxfile + 1) := by
    intro x hx
    simp only [Finset.mem_insert, Finset.mem_singleton] at hx
    rcases hx with rfl | rfl <;> exact Finset.mem_range.2 (by assumption)
  have hsum : ∑ x ∈ ({q, p} : Finset ℕ), one (ip.place block x) (ip.place block p) ≤
      ∑ x ∈ Finset.range (maxfile + 1), one (ip.place block x) (ip.place block p) :=
    Finset.sum_le_sum_of_subset hsub
  rw [Dinode.uses, Finset.sum_apply] at hle
  rw [Finset.sum_pair hne, heq, one_apply_self h] at hsum
  omega

theorem uses_of_update {block' : ℕ → Memory} (hp : p < maxfile + 1) (hzero : ip.place block p = 0)
    (h : ∀ q < maxfile + 1, ip'.place block' q = if q = p then b else ip.place block q) :
    ip'.uses block' = ip.uses block + one b := by
  have hmem : p ∈ Finset.range (maxfile + 1) := Finset.mem_range.2 hp
  rw [Dinode.uses, Dinode.uses, ← Finset.add_sum_erase _ _ hmem,
    ← Finset.add_sum_erase _ (fun q => one (ip.place block q)) hmem, hzero, h p hp, if_pos rfl,
    one_zero, zero_add, add_comm]
  congr 1
  refine Finset.sum_congr rfl fun q hq => ?_
  rw [Finset.mem_erase, Finset.mem_range] at hq
  rw [h q hq.2, if_neg hq.1]

theorem Marked.take (h : Marked sb d T) (hb : b < sb.size) (hfree : d.bitmap b = false) :
    T b = 0 ∧ b ≠ 0 ∧ Marked sb (d.take b) (T + Pi.single b 1) := by
  have hlow : sb.datastart ≤ b := by
    by_contra hlt
    rw [h.low b (by omega)] at hfree
    cases hfree
  have hzero : T b = 0 := by
    rw [h.count b, hfree]
    simp
  refine ⟨hzero, ?_, ⟨fun x => ?_, fun x hx => ?_⟩⟩
  · have := sb.datastart_pos
    omega
  · simp only [Pi.add_apply, Pi.single_apply, Disk.take, update_apply]
    by_cases hx : x = b
    · subst hx
      rw [if_pos rfl, if_pos rfl, hzero, if_pos ⟨⟨hlow, hb⟩, rfl⟩]
    · rw [if_neg hx, if_neg hx, h.count x, add_zero]
  · simp only [Disk.take, update_apply]
    rw [if_neg (by omega), h.low x hx]

def Disk.exhausted (sb : Super) (d : Disk) : Prop := ∀ b < sb.size, d.bitmap b = true

theorem balloc_runs (h : Marked sb d T) :
    Runs (balloc sb) d fun b d' =>
      (b = 0 ∧ d' = d ∧ d.exhausted sb) ∨
        (b ≠ 0 ∧ T b = 0 ∧ d' = d.take b ∧ Marked sb d' (T + Pi.single b 1)) := by
  unfold balloc
  refine runs_get_bind ?_
  split
  · rename_i b hfind
    have hmem := mem_of_find?_eq_some hfind
    have hbit := find?_some hfind
    obtain ⟨hzero, hne, hmarked⟩ := h.take (mem_range.1 hmem) (by simpa using hbit)
    exact runs_set_bind (.pure (.inr ⟨hne, hzero, rfl, hmarked⟩))
  · rename_i hfind
    refine .pure (.inl ⟨rfl, rfl, fun b hb => ?_⟩)
    simpa using find?_eq_none.1 hfind b (mem_range.2 hb)

theorem bfree_runs (h : Marked sb d (T + Pi.single b 1)) :
    Runs (bfree b) d fun _ d' =>
      Marked sb d' T ∧ d'.dinode = d.dinode ∧ d'.block = d.block := by
  have hb := h.count b
  rw [Pi.add_apply, Pi.single_eq_same] at hb
  have hset : sb.data b ∧ d.bitmap b = true := by
    by_contra hcon
    rw [if_neg hcon] at hb
    omega
  have hzero : T b = 0 := by
    rw [if_pos hset] at hb
    omega
  refine ⟨(), d.release b, ?_, ⟨?_, ?_⟩, rfl, rfl⟩
  · change (if (!d.bitmap b) = true then _ else _ : DiskM Unit) d = _
    rw [hset.2]
    rfl
  · intro x
    have hx := h.count x
    simp only [Pi.add_apply, Pi.single_apply] at hx
    simp only [Disk.release, update_apply]
    by_cases hxb : x = b
    · subst hxb
      simp [hzero]
    · rw [if_neg hxb, add_zero] at hx
      rw [if_neg hxb, hx]
  · intro x hx
    have hne : x ≠ b := by
      have := hset.1.1
      omega
    simp only [Disk.release, update_apply, if_neg hne, h.low x hx]

def Dinode.byteAt (block : ℕ → Memory) (ip : Dinode) (off : ℕ) : UInt8 :=
  if ip.place block (off / bsize) = 0 then 0
  else block (ip.place block (off / bsize)) (off % bsize)

/-- The inode may have more blocks, its bytes may have changed in `W`, and nothing else
has changed that can be seen. -/
structure Grown (R : ℕ → ℕ) (W : ℕ → Prop) (d : Disk) (ip : Dinode) (d' : Disk) (ip' : Dinode) :
    Prop where
  dinode : d'.dinode = d.dinode
  inode : ip' = { ip with addrs := ip'.addrs }
  frame : ∀ b, R b ≠ 0 → d'.block b = d.block b
  bytes : ∀ off < maxfile * bsize, ¬W off → ip'.byteAt d'.block off = ip.byteAt d.block off
  keeps : ∀ bn < maxfile, ip.place d.block bn ≠ 0 → ip'.place d'.block bn = ip.place d.block bn

namespace Grown

theorem refl (R : ℕ → ℕ) (W : ℕ → Prop) (d : Disk) (ip : Dinode) : Grown R W d ip d ip :=
  ⟨rfl, rfl, fun _ _ => rfl, fun _ _ _ => rfl, fun _ _ _ => rfl⟩

theorem mono {W' : ℕ → Prop} (h : Grown R W d ip d' ip') (hW : ∀ off, W off → W' off) :
    Grown R W' d ip d' ip' :=
  { h with bytes := fun off hoff hnot => h.bytes off hoff fun hw => hnot (hW off hw) }

theorem trans {d1 d2 d3 : Disk} {ip1 ip2 ip3 : Dinode} (h : Grown R W d1 ip1 d2 ip2)
    (h' : Grown R W d2 ip2 d3 ip3) : Grown R W d1 ip1 d3 ip3 where
  dinode := h'.dinode.trans h.dinode
  inode := by rw [h'.inode, h.inode]
  frame b hb := (h'.frame b hb).trans (h.frame b hb)
  bytes off hoff hnot := (h'.bytes off hoff hnot).trans (h.bytes off hoff hnot)
  keeps bn hbn hne := by
    have hkeep := h.keeps bn hbn hne
    rw [h'.keeps bn hbn (by rwa [hkeep]), hkeep]

end Grown

theorem div_lt_maxfile {off : ℕ} (h : off < maxfile * bsize) : off / bsize < maxfile :=
  Nat.div_lt_of_lt_mul (by rwa [Nat.mul_comm])

theorem grown_of_update (hmark : Marked sb d (R + ip.uses d.block))
    (hfresh : (R + ip.uses d.block) b = 0) (hdinode : d'.dinode = d.dinode)
    (hinode : ip' = { ip with addrs := ip'.addrs }) (hzero : ip.place d.block p = 0)
    (hplace : ∀ q < maxfile + 1, ip'.place d'.block q = if q = p then b else ip.place d.block q)
    (hb : d'.block b = fun _ => 0)
    (hblock : ∀ x, x ≠ b → x ≠ ip.addrs ndirect → d'.block x = d.block x) :
    Grown R W d ip d' ip' := by
  have hR : R b = 0 := by
    rw [Pi.add_apply] at hfresh
    omega
  -- a block in another place than the indirect one keeps its bytes
  have hkeep : ∀ q < maxfile, ip.place d.block q ≠ 0 →
      d'.block (ip.place d.block q) = d.block (ip.place d.block q) := by
    intro q hq hne
    have hpos := uses_pos _ (by omega) hne
    refine hblock _ ?_ ?_
    · intro heq
      rw [heq] at hpos
      rw [Pi.add_apply] at hfresh
      omega
    · intro heq
      have hle := le_trans (Nat.le_add_left _ _) (hmark.le_one (ip.place d.block q))
      have := place_inj hle (by omega) (Nat.lt_succ_self maxfile) hne
        (by rw [place_last, heq])
      omega
  refine ⟨hdinode, hinode, fun x hx => ?_, fun off hoff _ => ?_, fun q hq hne => ?_⟩
  · refine hblock x ?_ ?_
    · rintro rfl
      exact hx hR
    · intro heq
      by_cases ha : ip.addrs ndirect = 0
      · have hz := hmark.zero
        rw [Pi.add_apply] at hz
        rw [heq, ha] at hx
        omega
      · have hpos := uses_pos d.block (Nat.lt_succ_self maxfile)
          (by rwa [place_last] : ip.place d.block maxfile ≠ 0)
        have hle := hmark.le_one x
        rw [place_last, ← heq] at hpos
        rw [Pi.add_apply] at hle
        omega
  · have hlt := div_lt_maxfile hoff
    simp only [Dinode.byteAt, hplace _ (show off / bsize < maxfile + 1 by omega)]
    by_cases hq : off / bsize = p
    · rw [if_pos hq, hq, hzero, if_pos rfl, hb, ite_self]
    · rw [if_neg hq]
      split
      · rfl
      · rw [hkeep _ hlt (by assumption)]
  · rw [hplace q (by omega)]
    by_cases hqp : q = p
    · rw [hqp] at hne
      exact absurd hzero hne
    · rw [if_neg hqp]

theorem word_zero (j : ℕ) : word (fun _ => 0) j = 0 := by
  simp [word, load]

def slotOf (j : ℕ) : ℕ := if j = ndirect then maxfile else j

theorem slotOf_lt (hj : j ≤ ndirect) : slotOf j < maxfile + 1 := by
  rw [slotOf]
  split
  · omega
  · have : ndirect < maxfile := by decide
    omega

theorem place_slotOf (hj : j ≤ ndirect) (block : ℕ → Memory) :
    ip.place block (slotOf j) = ip.addrs j := by
  rw [slotOf]
  split
  · rename_i heq
    rw [place_last, heq]
  · exact place_direct (by omega)

theorem place_setAddr (hj : j ≤ ndirect) (hzero : ip.addrs j = 0) (hb : b ≠ 0)
    (hne : b ≠ ip.addrs ndirect) (q : ℕ) (hq : q < maxfile + 1) :
    (ip.setAddr j b).place (d.take b).block q =
      if q = slotOf j then b else ip.place d.block q := by
  have hnd : ndirect < maxfile := by decide
  have hblock : ∀ x, x ≠ b → (d.take b).block x = d.block x :=
    fun x hx => update_of_ne hx ..
  have hself : (d.take b).block b = fun _ => 0 := update_self ..
  simp only [Dinode.place, Dinode.setAddr, update_apply, slotOf]
  by_cases hjn : j = ndirect
  · subst hjn
    simp only [if_true, hb, if_false, hself, word_zero, hzero]
    split_ifs <;> omega
  · simp only [if_neg hjn, if_neg (Ne.symm hjn)]
    split_ifs with h1 h2 h3 h4 <;> first | rfl | omega | skip
    rw [hblock _ hne.symm]

theorem addrOf_runs (W : ℕ → Prop) (hj : j ≤ ndirect) (h : Marked sb d (R + ip.uses d.block)) :
    Runs (addrOf (balloc sb) ip j) d fun r d' =>
      Marked sb d' (R + r.1.uses d'.block) ∧ Grown R W d ip d' r.1 ∧ r.2 = r.1.addrs j ∧
        (r.2 = 0 → d'.exhausted sb) ∧ (ip.addrs j ≠ 0 → r.1 = ip) ∧
        ∀ q < maxfile + 1, q ≠ slotOf j → r.1.place d'.block q = ip.place d.block q := by
  unfold addrOf
  split
  · rename_i hzero
    refine .bind (balloc_runs h) ?_
    rintro b d' (⟨rfl, rfl, hnone⟩ | ⟨hb, hfresh, rfl, hmark⟩)
    · rw [if_pos rfl]
      exact .pure ⟨h, .refl R W _ ip, hzero.symm, fun _ => hnone, fun _ => rfl, fun _ _ _ => rfl⟩
    · have hne : b ≠ ip.addrs ndirect := by
        intro heq
        have hpos := uses_indirect_pos d.block (heq ▸ hb)
        rw [← heq] at hpos
        rw [Pi.add_apply] at hfresh
        omega
      have hplace := place_setAddr (d := d) hj hzero hb hne
      have hslot : ip.place d.block (slotOf j) = 0 := by rw [place_slotOf hj, hzero]
      rw [if_neg hb]
      refine .pure ⟨hmark.congr ?_, ?_, ?_, fun h => absurd h hb, fun h => absurd hzero h,
        fun q hq hqj => ?_⟩
      · rw [uses_of_update (slotOf_lt hj) hslot hplace, one_of_ne hb, add_assoc]
      · exact grown_of_update h hfresh rfl rfl hslot hplace (update_self ..)
          fun x hx _ => update_of_ne hx ..
      · simp [Dinode.setAddr]
      · rw [hplace q hq, if_neg hqj]
  · rename_i hne
    exact .pure ⟨h, .refl R W d ip, rfl, fun h => absurd h hne, fun _ => rfl, fun _ _ _ => rfl⟩

theorem place_setWord (hp : ¬p < ndirect) (hp' : p < maxfile) (ha : ip.addrs ndirect ≠ 0)
    (hb : b < 2 ^ 32) (hne : b ≠ ip.addrs ndirect) (hd : d'.block (ip.addrs ndirect) =
      store 4 ((d.take b).block (ip.addrs ndirect)) (4 * (p - ndirect)) b) (q : ℕ)
    (hq : q < maxfile + 1) : ip.place d'.block q = if q = p then b else ip.place d.block q := by
  have hold : (d.take b).block (ip.addrs ndirect) = d.block (ip.addrs ndirect) :=
    update_of_ne hne.symm ..
  have hnd : ndirect < maxfile := by decide
  simp only [Dinode.place, ha, if_false, word, hd, hold]
  split_ifs with h1 h2 h3 h4 h5 <;> first | rfl | omega | skip
  · subst h4
    exact load_store_of_lt (by simpa using hb)
  · exact load_store_of_disjoint (by omega)

theorem addr_lt (h : Marked sb d (T + Pi.single b 1)) : b < 2 ^ 32 := by
  have hb := h.count b
  rw [Pi.add_apply, Pi.single_eq_same] at hb
  by_contra hcon
  rw [if_neg] at hb
  · omega
  · rintro ⟨⟨-, hlt⟩, -⟩
    have := sb.size_lt
    omega

theorem word_ne_zero (hdir : ¬bn < ndirect) (hbn : bn < maxfile) (h : ip.place d.block bn ≠ 0) :
    bn - ndirect < nindirect ∧ ip.addrs ndirect ≠ 0 ∧
      ip.place d.block bn = word (d.block (ip.addrs ndirect)) (bn - ndirect) := by
  have ha : ip.addrs ndirect ≠ 0 := by
    intro ha
    rw [Dinode.place, if_neg hdir, if_pos hbn, if_pos ha] at h
    exact h rfl
  refine ⟨?_, ha, place_word hdir hbn ha⟩
  simp only [maxfile] at hbn
  omega

theorem bmap_found (alloc : DiskM ℕ) (hbn : bn < maxfile) (h : ip.place d.block bn ≠ 0) :
    bmap alloc ip bn d = .ok ((ip, ip.place d.block bn), d) := by
  unfold bmap
  by_cases hdir : bn < ndirect
  · rw [place_direct hdir] at h ⊢
    rw [if_pos hdir, addrOf, if_neg h]
    rfl
  · obtain ⟨hin, ha, hword⟩ := word_ne_zero hdir hbn h
    rw [hword] at h ⊢
    rw [if_neg hdir, if_pos hin, addrOf, if_neg ha]
    change (if ip.addrs ndirect = 0 then _ else _ : DiskM (Dinode × ℕ)) d = _
    rw [if_neg ha]
    change (if word (d.block (ip.addrs ndirect)) (bn - ndirect) = 0 then _ else _ :
      DiskM (Dinode × ℕ)) d = _
    rw [if_neg h]
    rfl

structure PlacesKept (d : Disk) (ip : Dinode) (bn : ℕ) (d' : Disk) (ip' : Dinode) : Prop where
  place : ∀ q < maxfile, q ≠ bn → ip'.place d'.block q = ip.place d.block q
  indirect : bn < ndirect ∨ ip.addrs ndirect ≠ 0 → ip'.addrs ndirect = ip.addrs ndirect

theorem bmap_runs (W : ℕ → Prop) (hbn : bn < maxfile) (h : Marked sb d (R + ip.uses d.block)) :
    Runs (bmap (balloc sb) ip bn) d fun r d' =>
      Marked sb d' (R + r.1.uses d'.block) ∧ Grown R W d ip d' r.1 ∧
        r.1.place d'.block bn = r.2 ∧ (r.2 = 0 → d'.exhausted sb) ∧ PlacesKept d ip bn d' r.1 := by
  have hnd : ndirect < maxfile := by decide
  have hslot : slotOf ndirect = maxfile := if_pos rfl
  unfold bmap
  by_cases hdir : bn < ndirect
  · rw [if_pos hdir]
    refine (addrOf_runs W (by omega) h).mono ?_
    rintro ⟨ip', a⟩ d' ⟨hmark, hgrown, ha, hnone, -, hkept⟩
    have hbn' : slotOf bn = bn := if_neg (by omega)
    rw [hbn'] at hkept
    refine ⟨hmark, hgrown, by rw [place_direct hdir]; exact ha.symm, hnone,
      fun q hq hne => hkept q (by omega) hne, fun _ => ?_⟩
    exact hkept maxfile (by omega) (by omega)
  · have hin : bn - ndirect < nindirect := by
      simp only [maxfile] at hbn
      omega
    rw [if_neg hdir, if_pos hin]
    refine .bind (addrOf_runs W le_rfl h) ?_
    rintro ⟨ip1, a⟩ d1 ⟨hmark1, hgrown1, ha, hnone, hsame, hkept1⟩
    dsimp only at hmark1 hgrown1 ha hnone hsame hkept1 ⊢
    rw [hslot] at hkept1
    have hplace1 : ∀ q < maxfile, ip1.place d1.block q = ip.place d.block q :=
      fun q hq => hkept1 q (by omega) (by omega)
    have hind1 : bn < ndirect ∨ ip.addrs ndirect ≠ 0 → ip1.addrs ndirect = ip.addrs ndirect :=
      fun h => by rw [hsame (h.resolve_left hdir)]
    by_cases hzero : a = 0
    · rw [if_pos hzero]
      refine .pure ⟨hmark1, hgrown1, ?_, fun _ => hnone hzero, fun q hq _ => hplace1 q hq, hind1⟩
      rw [Dinode.place, if_neg hdir, if_pos hbn, if_pos (ha.symm.trans hzero)]
    · have hne : ip1.addrs ndirect ≠ 0 := by rwa [← ha]
      subst ha
      rw [if_neg hzero]
      refine runs_get_bind ?_
      by_cases hword : word (d1.block (ip1.addrs ndirect)) (bn - ndirect) = 0
      · rw [if_pos hword]
        refine .bind (balloc_runs hmark1) ?_
        rintro b d2 (⟨rfl, rfl, hnone⟩ | ⟨hb, hfresh, rfl, hmark2⟩)
        · rw [if_pos rfl]
          refine .pure ⟨hmark1, hgrown1, ?_, fun _ => hnone, fun q hq _ => hplace1 q hq, hind1⟩
          rw [place_word hdir hbn hne, hword]
        · rw [if_neg hb]
          refine runs_get_bind (runs_modify_bind (.pure ?_))
          have hbne : b ≠ ip1.addrs ndirect := by
            intro heq
            have hpos := uses_indirect_pos d1.block hne
            rw [← heq] at hpos
            rw [Pi.add_apply] at hfresh
            omega
          have hplace := place_setWord (d := d1) hdir hbn hne (addr_lt hmark2) hbne
            (show ((d1.take b).put (ip1.addrs ndirect) _).block _ = _ from update_self ..)
          have hslot : ip1.place d1.block bn = 0 := by rw [place_word hdir hbn hne, hword]
          refine ⟨(hmark2.put _ _).congr ?_, hgrown1.trans ?_, ?_, fun h => absurd h hb,
            fun q hq hqb => ?_, hind1⟩
          · rw [uses_of_update (by omega) hslot hplace, one_of_ne hb, add_assoc]
          · refine grown_of_update hmark1 hfresh ?_ ?_ hslot hplace ?_ fun x hx hx' => ?_
            · rfl
            · rfl
            · exact (update_of_ne hbne ..).trans (update_self ..)
            · exact (update_of_ne hx' ..).trans (update_of_ne hx ..)
          · rw [hplace bn (by omega), if_pos rfl]
          · rw [hplace q (by omega), if_neg hqb, hplace1 q hq]
      · rw [if_neg hword]
        exact .pure ⟨hmark1, hgrown1, place_word hdir hbn hne, fun h => absurd h hword,
          fun q hq _ => hplace1 q hq, hind1⟩

def directUses (ip : Dinode) (l : List ℕ) : ℕ → ℕ := (l.map fun j => one (ip.addrs j)).sum

theorem directUses_setAddr {l : List ℕ} (h : j ∉ l) :
    directUses (ip.setAddr j a) l = directUses ip l := by
  refine congrArg List.sum (map_congr_left fun i hi => ?_)
  have hne : i ≠ j := ne_of_mem_of_not_mem hi h
  simp [Dinode.setAddr, update_of_ne hne]

theorem truncDirect_runs (l : List ℕ) (hl : l.Nodup) (ip : Dinode) {d : Disk} {T : ℕ → ℕ}
    (h : Marked sb d (T + directUses ip l)) :
    Runs (truncDirect l ip) d fun ip' d' =>
      Marked sb d' T ∧ d'.dinode = d.dinode ∧ d'.block = d.block ∧
        ip' = { ip with addrs := fun j => if j ∈ l then 0 else ip.addrs j } := by
  induction l generalizing ip d with
  | nil => exact .pure ⟨by simpa [directUses] using h, rfl, rfl, by simp⟩
  | cons j l ih =>
    have hl' := nodup_cons.1 hl
    have hsplit : directUses ip (j :: l) = one (ip.addrs j) + directUses ip l := by
      simp [directUses]
    rw [hsplit] at h
    unfold truncDirect
    by_cases hzero : ip.addrs j = 0
    · rw [if_pos hzero]
      rw [hzero, one_zero, zero_add] at h
      refine (ih hl'.2 ip h).mono ?_
      rintro ip' d' ⟨hmark, hdinode, hblock, rfl⟩
      refine ⟨hmark, hdinode, hblock, ?_⟩
      congr
      funext i
      by_cases hi : i = j
      · rw [hi, if_neg hl'.1, if_pos mem_cons_self, hzero]
      · simp [hi]
    · rw [if_neg hzero]
      rw [one_of_ne hzero, add_comm (Pi.single _ _), ← add_assoc] at h
      refine .bind (bfree_runs h) ?_
      rintro _ d1 ⟨hmark, hdinode, hblock⟩
      refine (ih hl'.2 (ip.setAddr j 0) (hmark.congr (by rw [directUses_setAddr hl'.1]))).mono ?_
      rintro ip' d' ⟨hmark', hdinode', hblock', rfl⟩
      refine ⟨hmark', hdinode'.trans hdinode, hblock'.trans hblock, ?_⟩
      simp only [Dinode.setAddr]
      congr
      funext i
      by_cases hi : i = j
      · simp [hi]
      · simp [hi]

theorem truncIndirect_runs (m : Memory) (l : List ℕ) {d : Disk} {T : ℕ → ℕ}
    (h : Marked sb d (T + (l.map fun j => one (word m j)).sum)) :
    Runs (truncIndirect m l) d fun _ d' =>
      Marked sb d' T ∧ d'.dinode = d.dinode ∧ d'.block = d.block := by
  induction l generalizing d with
  | nil => exact .pure ⟨by simpa using h, rfl, rfl⟩
  | cons j l ih =>
    rw [map_cons, sum_cons] at h
    unfold truncIndirect
    by_cases hzero : word m j = 0
    · rw [if_pos hzero]
      rw [hzero, one_zero, zero_add] at h
      exact ih h
    · rw [if_neg hzero]
      rw [one_of_ne hzero, add_comm (Pi.single _ _), ← add_assoc] at h
      refine .bind (bfree_runs h) ?_
      rintro _ d1 ⟨hmark, hdinode, hblock⟩
      refine (ih hmark).mono ?_
      rintro _ d' ⟨hmark', hdinode', hblock'⟩
      exact ⟨hmark', hdinode'.trans hdinode, hblock'.trans hblock⟩

def wordUses (block : ℕ → Memory) (a : ℕ) : ℕ → ℕ :=
  if a = 0 then 0 else ((List.range nindirect).map fun j => one (word (block a) j)).sum

theorem uses_eq (block : ℕ → Memory) : ip.uses block =
    directUses ip (List.range ndirect) + (wordUses block (ip.addrs ndirect) +
      one (ip.addrs ndirect)) := by
  have hdirect : ∑ p ∈ Finset.range ndirect, one (ip.place block p) =
      directUses ip (List.range ndirect) := by
    rw [directUses, ← sum_toFinset _ nodup_range, toFinset_range]
    exact Finset.sum_congr rfl fun p hp => by rw [place_direct (Finset.mem_range.1 hp)]
  have hword : ∑ p ∈ Finset.range nindirect, one (ip.place block (ndirect + p)) =
      wordUses block (ip.addrs ndirect) := by
    rw [wordUses]
    split
    · rename_i ha
      refine Finset.sum_eq_zero fun p hp => ?_
      have hp' := Finset.mem_range.1 hp
      rw [Dinode.place, if_neg (by omega), if_pos (by simp only [maxfile]; omega), if_pos ha,
        one_zero]
    · rename_i ha
      rw [← sum_toFinset _ nodup_range, toFinset_range]
      refine Finset.sum_congr rfl fun p hp => ?_
      have hp' := Finset.mem_range.1 hp
      rw [place_word (by omega) (by simp only [maxfile]; omega) ha, Nat.add_sub_cancel_left]
  rw [Dinode.uses, Finset.sum_range_succ, maxfile, Finset.sum_range_add, hdirect, hword, ← maxfile,
    place_last, add_assoc]

def Dinode.truncated (ip : Dinode) : Dinode :=
  { ip with size := 0, addrs := fun j => if j ≤ ndirect then 0 else ip.addrs j }

theorem uses_of_addrs (h : ∀ j ≤ ndirect, ip.addrs j = 0) : ip.uses block = 0 := by
  have hdirect : directUses ip (List.range ndirect) = 0 := by
    refine sum_eq_zero fun x hx => ?_
    obtain ⟨j, hj, rfl⟩ := mem_map.1 hx
    rw [h j (mem_range.1 hj).le, one_zero]
  rw [uses_eq, hdirect, h ndirect le_rfl, wordUses, if_pos rfl, one_zero, add_zero, add_zero]

@[simp] theorem uses_truncated (block : ℕ → Memory) : ip.truncated.uses block = 0 :=
  uses_of_addrs fun _ hj => if_pos hj

theorem itrunc_runs (inum : ℕ) (h : Marked sb d (R + ip.uses d.block)) :
    Runs (itrunc inum ip) d fun ip' d' =>
      ip' = ip.truncated ∧ Marked sb d' R ∧
        d'.dinode = update d.dinode inum ip' ∧ d'.block = d.block := by
  have hnot : ndirect ∉ List.range ndirect := by simp
  rw [uses_eq, add_comm (directUses _ _), ← add_assoc] at h
  unfold itrunc
  refine .bind (truncDirect_runs (List.range ndirect) nodup_range ip h) ?_
  rintro ip1 d1 ⟨hmark, hdinode, hblock, rfl⟩
  simp only [if_neg hnot]
  have hend : ∀ ip2 : Dinode, (∀ j, ip2.addrs j = if j ≤ ndirect then 0 else ip.addrs j) →
      ip2.type = ip.type → ip2.major = ip.major → ip2.minor = ip.minor → ip2.nlink = ip.nlink →
      ip2.size = 0 → ip2 = ip.truncated := by
    rintro ⟨t, ma, mi, nl, sz, ad⟩ had rfl rfl rfl rfl rfl
    simp only [Dinode.truncated, Dinode.mk.injEq, true_and]
    exact funext had
  by_cases ha : ip.addrs ndirect = 0
  · rw [if_pos ha]
    refine runs_modify_bind (.pure ⟨hend _ (fun j => ?_) rfl rfl rfl rfl rfl, ?_, ?_, ?_⟩)
    · simp only [Dinode.setSize, mem_range]
      by_cases hj : j < ndirect
      · rw [if_pos hj, if_pos (by omega)]
      · rw [if_neg hj]
        split
        · rw [show j = ndirect by omega, ha]
        · rfl
    · refine (hmark.putInode _ _).congr ?_
      rw [ha, wordUses, if_pos rfl, one_zero, add_zero, add_zero]
    · exact congrArg (fun f => update f inum _) hdinode
    · exact hblock
  · rw [if_neg ha]
    refine runs_get_bind ?_
    have hwords : Marked sb d1 (R + one (ip.addrs ndirect) +
        ((List.range nindirect).map fun j => one (word (d1.block (ip.addrs ndirect)) j)).sum) := by
      refine hmark.congr ?_
      rw [wordUses, if_neg ha, hblock]
      abel
    refine .bind (truncIndirect_runs _ _ hwords) ?_
    rintro _ d2 ⟨hmark2, hdinode2, hblock2⟩
    rw [one_of_ne ha] at hmark2
    refine .bind (bfree_runs hmark2) ?_
    rintro _ d3 ⟨hmark3, hdinode3, hblock3⟩
    refine runs_modify_bind (.pure ⟨hend _ (fun j => ?_) rfl rfl rfl rfl rfl, ?_, ?_, ?_⟩)
    · simp only [Dinode.setSize, Dinode.setAddr, update_apply, mem_range]
      split_ifs <;> first | rfl | omega
    · exact hmark3.putInode _ _
    · exact congrArg (fun f => update f inum _) (hdinode3.trans (hdinode2.trans hdinode))
    · exact hblock3.trans (hblock2.trans hblock)

end Xv6MallocLab.FileSystem
