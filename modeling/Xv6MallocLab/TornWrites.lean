import Xv6MallocLab.LoggedWrites
import Xv6MallocLab.UserReads

/-!
# Writes from user memory that ends too early

When `copyin` fails behind the first byte, `writei` gives the buffer back without
`log_write`.  A write is clean when nothing of that can be seen.  It is, unless the block
in which the copy stops was there before and got other bytes.
-/

namespace Xv6MallocLab.FileSystem

open ByteMemory Finset Function List
open Paging (Table copyinFrom loadUser reach reach_le reach_add reach_of_lt isSome_of_lt_reach)

variable {lay : Layout} {s s' s1 : Cached} {t : Table} {phys : Memory}

/-- A buffer whose block is not in the log is recycled, and the block read again. -/
def Cached.evict (lay : Layout) (s : Cached) (b : ℕ) : Cached :=
  if b ∈ s.log then s
  else s.setDisk
    { bitmap := fun x => if x < lay.size ∧ lay.bblock x = b then s.home.bitmap x else s.disk.bitmap x
      dinode := fun i => if i < lay.ninodes ∧ lay.iblock i = b then s.home.dinode i else s.disk.dinode i
      block := fun x i => if x = b ∧ i < bsize then s.home.block x i else s.disk.block x i }

/-- Outside the log, the buffers show what is on the disk. -/
structure Cached.Coherent (lay : Layout) (s : Cached) : Prop where
  bitmap : ∀ x < lay.size, lay.bblock x ∉ s.log → s.disk.bitmap x = s.home.bitmap x
  dinode : ∀ i < lay.ninodes, lay.iblock i ∉ s.log → s.disk.dinode i = s.home.dinode i
  block : ∀ b ∉ s.log, ∀ i < bsize, s.disk.block b i = s.home.block b i

theorem Cached.Coherent.evict (h : s.Coherent lay) (b : ℕ) : s.evict lay b = s := by
  unfold Cached.evict
  split_ifs with hb
  · rfl
  · refine congrArg s.setDisk (?_ : _ = s.disk)
    have hbitmap : (fun x => if x < lay.size ∧ lay.bblock x = b then s.home.bitmap x
        else s.disk.bitmap x) = s.disk.bitmap := by
      funext x
      split_ifs with hx
      · exact (h.bitmap x hx.1 (hx.2 ▸ hb)).symm
      · rfl
    have hdinode : (fun i => if i < lay.ninodes ∧ lay.iblock i = b then s.home.dinode i
        else s.disk.dinode i) = s.disk.dinode := by
      funext i
      split_ifs with hi
      · exact (h.dinode i hi.1 (hi.2 ▸ hb)).symm
      · rfl
    have hblock : (fun x i => if x = b ∧ i < bsize then s.home.block x i else s.disk.block x i) =
        s.disk.block := by
      funext x i
      split_ifs with hx
      · exact (h.block x (hx.1 ▸ hb) i hx.2).symm
      · rfl
    rw [hbitmap, hdinode, hblock]

theorem Cached.Coherent.evictions (h : s.Coherent lay) (l : List ℕ) :
    l.foldl (Cached.evict lay) s = s := by
  induction l with
  | nil => rfl
  | cons b l ih => rw [foldl_cons, h.evict, ih]

/-- Every block that has changed is in the log, except those in `X`. -/
structure Tracks (lay : Layout) (X : ℕ → Prop) (s s' : Cached) : Prop where
  home : s'.home = s.home
  log : s.log ⊆ s'.log
  bitmap : ∀ x, s'.disk.bitmap x ≠ s.disk.bitmap x → x ∈ s'.log ∧ lay.bblock x ∈ s'.log
  dinode : ∀ i, s'.disk.dinode i ≠ s.disk.dinode i → lay.iblock i ∈ s'.log
  block : ∀ b, s'.disk.block b ≠ s.disk.block b → b ∈ s'.log ∨ X b

namespace Tracks

variable {X : ℕ → Prop}

theorem refl (lay : Layout) (X : ℕ → Prop) (s : Cached) : Tracks lay X s s :=
  ⟨rfl, Finset.Subset.refl _, fun _ h => absurd rfl h, fun _ h => absurd rfl h, fun _ h => absurd rfl h⟩

theorem mono {Y : ℕ → Prop} (h : Tracks lay X s s') (hXY : ∀ b, X b → Y b) : Tracks lay Y s s' :=
  { h with block := fun b hb => (h.block b hb).imp_right (hXY b) }

theorem trans (h : Tracks lay (fun _ => False) s s1) (h' : Tracks lay X s1 s') : Tracks lay X s s' where
  home := h'.home.trans h.home
  log := h.log.trans h'.log
  bitmap x hx := by
    by_cases hsame : s1.disk.bitmap x = s.disk.bitmap x
    · exact h'.bitmap x (by rwa [hsame])
    · exact ⟨h'.log (h.bitmap x hsame).1, h'.log (h.bitmap x hsame).2⟩
  dinode i hi := by
    by_cases hsame : s1.disk.dinode i = s.disk.dinode i
    · exact h'.dinode i (by rwa [hsame])
    · exact h'.log (h.dinode i hsame)
  block b hb := by
    by_cases hsame : s1.disk.block b = s.disk.block b
    · exact h'.block b (by rwa [hsame])
    · exact .inl (h'.log ((h.block b hsame).resolve_right id))

theorem put (lay : Layout) (s : Cached) (b : ℕ) (m : Memory) :
    Tracks lay (· = b) s (s.setDisk (s.disk.put b m)) := by
  refine ⟨rfl, Finset.Subset.refl _, fun _ h => absurd rfl h, fun _ h => absurd rfl h, fun x hx => ?_⟩
  by_contra hne
  exact hx (update_of_ne (fun h => hne (.inr h)) ..)

theorem record {b : ℕ} (h : Tracks lay (· = b) s s') : Tracks lay (fun _ => False) s (s'.record b) where
  home := h.home
  log := h.log.trans (subset_insert _ _)
  bitmap x hx := ⟨mem_insert_of_mem (h.bitmap x hx).1, mem_insert_of_mem (h.bitmap x hx).2⟩
  dinode i hi := mem_insert_of_mem (h.dinode i hi)
  block x hx := by
    rcases h.block x hx with hx | rfl
    · exact .inl (mem_insert_of_mem hx)
    · exact .inl (mem_insert_self _ _)

theorem coherent (h : Tracks lay X s s') (hs : s.Coherent lay)
    (hX : ∀ b, X b → b ∉ s'.log → ∀ i < bsize, s'.disk.block b i = s.disk.block b i) :
    s'.Coherent lay := by
  refine ⟨fun x hlt hx => ?_, fun i hlt hi => ?_, fun b hb i hi => ?_⟩
  · have hsame : s'.disk.bitmap x = s.disk.bitmap x := not_not.1 fun hne => hx (h.bitmap x hne).2
    rw [hsame, h.home, hs.bitmap x hlt fun hmem => hx (h.log hmem)]
  · have hsame : s'.disk.dinode i = s.disk.dinode i := not_not.1 fun hne => hi (h.dinode i hne)
    rw [hsame, h.home, hs.dinode i hlt fun hmem => hi (h.log hmem)]
  · have hold : s.disk.block b i = s'.home.block b i := by
      rw [h.home]
      exact hs.block b (fun hmem => hb (h.log hmem)) i hi
    rw [← hold]
    by_cases hsame : s'.disk.block b = s.disk.block b
    · rw [hsame]
    · exact hX b ((h.block b hsame).resolve_left hb) hb i hi

end Tracks

namespace Logged

theorem balloc_tracks (s : Cached) :
    Runs (balloc lay) s fun _ s' => Tracks lay (fun _ => False) s s' := by
  unfold balloc
  refine runs_get_bind ?_
  cases (List.range lay.size).find? fun b => !s.disk.bitmap b with
  | none => exact .pure (.refl ..)
  | some b =>
    refine ⟨b, _, rfl, rfl, ?_, fun x hx => ?_, fun i hi => absurd rfl hi, fun x hx => .inl ?_⟩
    · exact (Finset.subset_insert _ _).trans (Finset.subset_insert _ _)
    · obtain rfl : x = b := by
        by_contra hne
        exact hx (update_of_ne hne ..)
      exact ⟨mem_insert_self _ _, mem_insert_of_mem (mem_insert_self _ _)⟩
    · obtain rfl : x = b := by
        by_contra hne
        exact hx (update_of_ne hne ..)
      exact mem_insert_self _ _

theorem addrOf_tracks (ip : Dinode) (j : ℕ) (s : Cached) :
    Runs (addrOf lay ip j) s fun _ s' => Tracks lay (fun _ => False) s s' := by
  unfold addrOf
  split_ifs
  · refine .bind (balloc_tracks s) fun b s' h => ?_
    split_ifs
    · exact .pure h
    · exact .pure h
  · exact .pure (.refl ..)

theorem bmap_tracks {bn : ℕ} (hbn : bn < maxfile) (ip : Dinode) (s : Cached) :
    Runs (bmap lay ip bn) s fun _ s' => Tracks lay (fun _ => False) s s' := by
  unfold bmap
  split_ifs with hdir hin
  · exact addrOf_tracks ip bn s
  · refine .bind (addrOf_tracks ip ndirect s) ?_
    rintro ⟨ip, a⟩ s1 h1
    dsimp only
    split_ifs
    · exact .pure h1
    · refine runs_get_bind ?_
      split_ifs
      · refine .bind (balloc_tracks s1) fun b s2 h2 => ?_
        split_ifs
        · exact .pure (h1.trans h2)
        · exact ⟨_, _, rfl, h1.trans (h2.trans (Tracks.put lay s2 a _).record)⟩
      · exact .pure h1
  · exact absurd hbn (by simp only [maxfile]; omega)

theorem bmap_found {ip : Dinode} {bn : ℕ} (hbn : bn < maxfile) (h : ip.place s.disk.block bn ≠ 0) :
    bmap lay ip bn s = .ok ((ip, ip.place s.disk.block bn), s) := by
  unfold bmap
  by_cases hdir : bn < ndirect
  · rw [place_direct hdir] at h ⊢
    rw [if_pos hdir, addrOf, if_neg h]
    rfl
  · obtain ⟨hin, ha, hword⟩ := word_ne_zero hdir hbn h
    rw [hword] at h ⊢
    rw [if_neg hdir, if_pos hin, addrOf, if_neg ha]
    change (if ip.addrs ndirect = 0 then _ else _ : CacheM (Dinode × ℕ)) s = _
    rw [if_neg ha]
    change (if word (s.disk.block (ip.addrs ndirect)) (bn - ndirect) = 0 then _ else _ :
      CacheM (Dinode × ℕ)) s = _
    rw [if_neg h]
    rfl

end Logged

/-- The block in which a write has stopped that came to `off'` with `tot'` of `n` bytes. -/
def Stuck (n off' tot' : ℕ) (d' : Disk) (ip' : Dinode) (b : ℕ) : Prop :=
  tot' < n ∧ b ≠ 0 ∧ b = ip'.place d'.block (off' / bsize)

/-- What is in the log behind a write: what was there, blocks below the data, and places
of the inode; the block in which it stopped only if it came new. -/
def LogsPlaces (lay : Layout) (n off' tot' : ℕ) (s : Cached) (ip : Dinode) (s' : Cached) (ip' : Dinode) :
    Prop :=
  ∀ x ∈ s'.log, x ∈ s.log ∨ x < lay.datastart ∨ ∃ q ≤ maxfile, x = ip'.place s'.disk.block q ∧
    (tot' < n → q = off' / bsize → ip.place s.disk.block q = 0)

namespace Logged

variable {R : ℕ → ℕ}

variable {ip : Dinode}

theorem bmap_runs {bn : ℕ} (hbn : bn < maxfile)
    (h : Marked lay.toSuper s.disk (R + ip.uses s.disk.block)) :
    Runs (bmap lay ip bn) s fun r s' =>
      (Marked lay.toSuper s'.disk (R + r.1.uses s'.disk.block) ∧
        Grown R (fun _ => False) s.disk ip s'.disk r.1 ∧ r.1.place s'.disk.block bn = r.2) ∧
      Tracks lay (fun _ => False) s s' ∧
      ∀ x ∈ s'.log, x ∈ s.log ∨ x < lay.datastart ∨ ∃ q, x = r.1.place s'.disk.block q ∧
        (q = bn ∧ ip.place s.disk.block q = 0 ∨ q = maxfile) := by
  by_cases hfound : ip.place s.disk.block bn = 0
  · have hdisk := (bmap_projects lay ip bn).runs (FileSystem.bmap_runs (fun _ => False) hbn h)
    refine (hdisk.and ((bmap_tracks hbn ip s).and (bmap_logs hbn s))).mono ?_
    rintro ⟨ip', a⟩ s' ⟨⟨hmark, hgrown, hplace, -, -⟩, htracks, hlogs, -⟩
    dsimp only [id] at hmark hgrown hplace hlogs ⊢
    refine ⟨⟨hmark, hgrown, hplace⟩, htracks, fun x hx => ?_⟩
    rcases hlogs x hx with hx | hx | ⟨hx, -⟩ | ⟨b, hb, rfl⟩
    · exact .inl hx
    · exact .inr (.inr ⟨bn, hx.trans hplace.symm, .inl ⟨rfl, hfound⟩⟩)
    · exact .inr (.inr ⟨maxfile, hx, .inr rfl⟩)
    · exact .inr (.inl (lay.bmap_lt b hb))
  · exact ⟨_, _, bmap_found hbn hfound, ⟨h, .refl .., rfl⟩, .refl .., fun x hx => .inl hx⟩

theorem writeLoop_tracks (src0 off0 n c : ℕ) (ip : Dinode) (tot : ℕ)
    (hc : c = nblocks (off0 + tot) (n - tot)) (hend : off0 + tot + (n - tot) ≤ maxfile * bsize)
    {s : Cached} (hfull : ip.Full s.disk.block (off0 + tot))
    (h : Marked lay.toSuper s.disk (R + ip.uses s.disk.block)) :
    Runs (writeLoop lay t phys c ip (src0 + tot) (off0 + tot) n tot) s fun r s' =>
      r.2.1 = off0 + r.2.2 ∧ tot ≤ r.2.2 ∧
        Tracks lay (Stuck n r.2.1 r.2.2 s'.disk r.1) s s' ∧
          LogsPlaces lay n r.2.1 r.2.2 s ip s' r.1 := by
  induction c generalizing ip tot s with
  | zero => exact .pure ⟨rfl, le_rfl, .refl .., fun x hx => .inl hx⟩
  | succ c ih =>
    have hr := nblocks_pos_iff hc
    have hbn : (off0 + tot) / bsize < maxfile := div_lt_maxfile (by omega)
    have hoff : off0 + tot ≤ maxfile * bsize := by omega
    unfold writeLoop
    refine .bind (bmap_runs hbn h) ?_
    rintro ⟨ip1, addr⟩ s1 ⟨⟨hmark1, hgrown1, haddr⟩, htracks1, hlogs1⟩
    dsimp only at hmark1 hgrown1 haddr htracks1 hlogs1 ⊢
    have hfull1 := hgrown1.full hoff hfull
    -- what `bmap` has logged, when the loop stops in this block
    have hstop : LogsPlaces lay n (off0 + tot) tot s ip s1 ip1 := by
      intro x hx
      rcases hlogs1 x hx with hx | hx | ⟨q, hx, ⟨rfl, hnew⟩ | rfl⟩
      · exact .inl hx
      · exact .inr (.inl hx)
      · exact .inr (.inr ⟨_, hbn.le, hx, fun _ _ => hnew⟩)
      · exact .inr (.inr ⟨_, le_rfl, hx, fun _ heq => by omega⟩)
    split_ifs with hzero
    · exact .pure ⟨rfl, le_rfl, htracks1.mono fun _ => False.elim, hstop⟩
    · subst haddr
      refine runs_get_bind ?_
      set m := piece (off0 + tot) (n - tot) with hm
      set addr := ip1.place s1.disk.block ((off0 + tot) / bsize) with haddr
      set data := copyinFrom t phys (src0 + tot) m (s1.disk.block addr) ((off0 + tot) % bsize)
      have hput : ∀ q, ip1.place (s1.disk.put addr data.1).block q = ip1.place s1.disk.block q :=
        place_put hmark1 hbn hzero _
      refine runs_bind_of_ok (t := s1.setDisk (s1.disk.put addr data.1)) rfl ?_
      have htracks2 := Tracks.put lay s1 addr data.1
      split_ifs with hcopy
      · refine runs_modify_bind ?_
        have hle : m ≤ n - tot := min_le_left _ _
        have hrest : n - (tot + m) = n - tot - m := by omega
        have hc' : c = nblocks (off0 + (tot + m)) (n - (tot + m)) := by
          rw [hrest, ← add_assoc]
          exact nblocks_step hc
        have hfull2 : ip1.Full (s1.disk.put addr data.1).block (off0 + (tot + m)) := by
          rw [← add_assoc]
          exact full_put hmark1 hbn hzero hfull1 data.1 (n - tot)
        have hmark2 : Marked lay.toSuper (s1.disk.put addr data.1)
            (R + ip1.uses (s1.disk.put addr data.1).block) := by
          rw [uses_put hmark1 hbn hzero]
          exact hmark1.put _ _
        have hdisk := (writeLoop_projects lay t phys src0 off0 n c ip1 (tot + m)).runs
          (s := (s1.setDisk (s1.disk.put addr data.1)).record addr)
          (FileSystem.writeLoop_runs (.user t phys src0 off0 n) n (fun _ _ => True)
            (fun _ _ _ _ _ => trivial) c ip1 (off0 + (tot + m)) (tot + m) hc' (by omega) hfull2 hmark2
            trivial)
        have hlog := ih ip1 (tot + m) hc' (by omega)
          (s := (s1.setDisk (s1.disk.put addr data.1)).record addr) hfull2 hmark2
        rw [← add_assoc, ← add_assoc] at hdisk hlog
        refine (hlog.and hdisk).mono ?_
        rintro ⟨ip2, off', tot'⟩ s2 ⟨⟨hoff', hle', htracks, hlogs⟩, -, extra, hrun⟩
        dsimp only [id] at hoff' hle' htracks hlogs hrun ⊢
        refine ⟨hoff', by omega, htracks1.trans (htracks2.record.trans htracks), fun x hx => ?_⟩
        have hkeep : ∀ q ≤ maxfile, ip1.place s1.disk.block q ≠ 0 →
            ip1.place s1.disk.block q = ip2.place s2.disk.block q := by
          intro q hq hne
          rcases hq.lt_or_eq with hlt | rfl
          · exact ((hrun.grown.keeps q hlt (by rw [← hput q] at hne; exact hne)).trans (hput q)).symm
          · exact (hrun.indirect (.inr hne)).symm
        -- a piece that is not the last one goes to the end of its block
        have hnext : tot' < n → (off0 + tot) / bsize < off' / bsize := by
          intro hlt
          have : m = bsize - (off0 + tot) % bsize := by
            simp only [hm, piece] at hle' ⊢
            omega
          simp only [bsize] at this ⊢
          omega
        rcases hlogs x hx with hx | hx | ⟨q, hq, hx, hnew⟩
        · rcases mem_insert.1 hx with rfl | hx
          · exact .inr (.inr ⟨_, hbn.le, hkeep _ hbn.le hzero, fun hlt heq =>
              absurd heq (hnext hlt).ne⟩)
          · rcases hlogs1 x hx with hx | hx | ⟨q, hx, hq⟩
            · exact .inl hx
            · exact .inr (.inl hx)
            · by_cases hx0 : x = 0
              · exact .inr (.inl (hx0 ▸ lay.datastart_pos))
              · have hq' : q ≤ maxfile := by omega
                refine .inr (.inr ⟨q, hq', hx.trans (hkeep q hq' (hx ▸ hx0)), fun hlt heq => ?_⟩)
                have := hnext hlt
                have := hrun.progress.high
                have : off' / bsize < maxfile := div_lt_maxfile (by omega)
                omega
        · exact .inr (.inl hx)
        · refine .inr (.inr ⟨q, hq, hx, fun hlt heq => ?_⟩)
          by_contra hne
          have hlt' : off' / bsize < maxfile := div_lt_maxfile (by have := hrun.progress.high; omega)
          have hsame := hgrown1.keeps q (heq ▸ hlt') hne
          have hgone : ip1.place s1.disk.block q = 0 := (hput q).symm.trans (hnew hlt heq)
          exact hne (hsame.symm.trans hgone)
      · refine .pure ⟨rfl, le_rfl, htracks1.trans (htracks2.mono ?_), fun x hx => ?_⟩
        · rintro b rfl
          exact ⟨Nat.lt_of_sub_pos hr, hzero, (hput _).symm⟩
        · rcases hstop x hx with hx | hx | ⟨q, hq, hx, hnew⟩
          · exact .inl hx
          · exact .inr (.inl hx)
          · exact .inr (.inr ⟨q, hq, hx.trans (hput q).symm, hnew⟩)

theorem writei_refused {inum src off n : ℕ} (hout : ¬(off ≤ ip.size ∧ off + n ≤ maxfile * bsize)) :
    writei lay t phys inum ip src off n s = .ok ((ip, -1), s) := by
  unfold writei
  split_ifs with h1 h2
  · rfl
  · rfl
  · exact absurd ⟨by omega, by omega⟩ hout

theorem writei_tracks {inum : ℕ} (hinum : inum < lay.ninodes) (src : ℕ) {off n : ℕ}
    (hoff : off ≤ ip.size) (hend : off + n ≤ maxfile * bsize)
    (h : InOrder lay.toSuper R s.disk ip) :
    Runs (writei lay t phys inum ip src off n) s fun r s' =>
      Tracks lay (Stuck n (off + r.2.toNat) r.2.toNat s'.disk r.1) s s' ∧
        LogsPlaces lay n (off + r.2.toNat) r.2.toNat s ip s' r.1 := by
  have hsmall : maxfile * bsize < 2 ^ 32 := by decide
  have hwrap : (off + n) % 2 ^ 32 = off + n := Nat.mod_eq_of_lt (by omega)
  unfold writei
  rw [if_neg (by omega), if_neg (by omega)]
  refine .bind (writeLoop_tracks src off n _ ip 0 rfl (by omega)
    (fun bn hbn => h.full bn (by omega)) h.marked) ?_
  rintro ⟨ip1, off', tot⟩ s1 ⟨hcount, -, htracks, hlogs⟩
  dsimp only at hcount htracks hlogs ⊢
  subst hcount
  set ip2 := if ip1.size < off + tot then ip1.setSize (off + tot) else ip1 with hip2
  have hplace : ∀ q, ip2.place s1.disk.block q = ip1.place s1.disk.block q := by
    intro q
    rw [hip2]
    split_ifs <;> rfl
  refine ⟨_, _, rfl, ⟨htracks.home, htracks.log.trans (subset_insert _ _), fun x hx => ?_,
    fun i hi => ?_, fun b hb => ?_⟩, fun x hx => ?_⟩
  · have hmem := htracks.bitmap x hx
    exact ⟨mem_insert_of_mem hmem.1, mem_insert_of_mem hmem.2⟩
  · by_cases hinum : i = inum
    · exact hinum ▸ mem_insert_self _ _
    · refine mem_insert_of_mem (htracks.dinode i fun hsame => hi ?_)
      exact (update_of_ne hinum ..).trans hsame
  · rcases htracks.block b hb with hb | hb
    · exact .inl (mem_insert_of_mem hb)
    · exact .inr ⟨hb.1, hb.2.1, hb.2.2.trans (hplace _).symm⟩
  · rcases mem_insert.1 hx with rfl | hx
    · exact .inr (.inl (lay.inode_lt inum hinum))
    · rcases hlogs x hx with hx | hx | ⟨q, hq, hx, hnew⟩
      · exact .inl hx
      · exact .inr (.inl hx)
      · exact .inr (.inr ⟨q, hq, hx.trans (hplace q).symm, hnew⟩)

end Logged

def Copied (t : Table) (src off n : ℕ) (off' tot : ℕ) : Prop :=
  off' = off + tot ∧ tot ≤ n ∧ reach t src tot = tot

variable {src off n off' tot : ℕ}

theorem Copied.step (hlt : tot < n) (h : Copied t src off n off' tot)
    (hnone : (Source.user t phys src off n).fault tot = none) :
    Copied t src off n (off' + piece off' (n - tot)) (tot + piece off' (n - tot)) := by
  obtain ⟨rfl, -, hreach⟩ := h
  have hle : piece (off + tot) (n - tot) ≤ n - tot := min_le_left _ _
  have hall : reach t (src + tot) (piece (off + tot) (n - tot)) = piece (off + tot) (n - tot) := by
    by_contra hne
    simp only [Source.user, if_neg hne] at hnone
    cases hnone
  refine ⟨by omega, by omega, ?_⟩
  rw [reach_add fun j hj => isSome_of_lt_reach (hreach.symm ▸ hj), hall]

theorem Copied.fault {j : ℕ} (hlt : tot < n) (h : Copied t src off n off' tot)
    (hfault : (Source.user t phys src off n).fault tot = some j) :
    reach t src n = tot + j ∧ j < piece off' (n - tot) := by
  obtain ⟨rfl, -, hreach⟩ := h
  have hle : piece (off + tot) (n - tot) ≤ n - tot := min_le_left _ _
  set m := piece (off + tot) (n - tot) with hm
  have hj : reach t (src + tot) m ≠ m ∧ j = reach t (src + tot) m := by
    by_cases hall : reach t (src + tot) m = m
    · simp only [Source.user, ← hm, if_pos hall] at hfault
      cases hfault
    · simp only [Source.user, ← hm, if_neg hall, Option.some.injEq] at hfault
      exact ⟨hall, hfault.symm⟩
  have hshort : reach t (src + tot) m < m := lt_of_le_of_ne (reach_le ..) hj.1
  have hsplit : reach t src (tot + (m + (n - tot - m))) =
      tot + reach t (src + tot) (m + (n - tot - m)) :=
    reach_add (fun i hi => isSome_of_lt_reach (hreach.symm ▸ hi)) _
  rw [show tot + (m + (n - tot - m)) = n by omega, reach_of_lt hshort, ← hj.2] at hsplit
  exact ⟨hsplit, hj.2 ▸ hshort⟩

theorem Copied.le_reach (h : Copied t src off n off' tot) : tot ≤ reach t src n := by
  obtain ⟨-, hle, hreach⟩ := h
  have hsplit : reach t src (tot + (n - tot)) = tot + reach t (src + tot) (n - tot) :=
    reach_add (fun i hi => isSome_of_lt_reach (hreach.symm ▸ hi)) _
  rw [Nat.add_sub_cancel' hle] at hsplit
  omega

section Counting

variable {sb : Super} {d d' : Disk} {ip ip' : Dinode} {R T : ℕ → ℕ}

def Disk.spare (sb : Super) (d : Disk) : ℕ :=
  ((Finset.range sb.size).filter fun b => d.bitmap b = false).card

def Dinode.held (block : ℕ → Memory) (ip : Dinode) : Finset ℕ :=
  (Finset.range (maxfile + 1)).filter fun p => ip.place block p ≠ 0

def Dinode.missing (block : ℕ → Memory) (ip : Dinode) (lo hi : ℕ) : Finset ℕ :=
  (Finset.Ico lo hi).filter fun q => ip.place block q = 0

theorem mem_held {block : ℕ → Memory} {p : ℕ} :
    p ∈ ip.held block ↔ p < maxfile + 1 ∧ ip.place block p ≠ 0 := by
  rw [Dinode.held, Finset.mem_filter, Finset.mem_range]

theorem mem_missing {block : ℕ → Memory} {lo hi q : ℕ} :
    q ∈ ip.missing block lo hi ↔ (lo ≤ q ∧ q < hi) ∧ ip.place block q = 0 := by
  rw [Dinode.missing, Finset.mem_filter, Finset.mem_Ico]

theorem Marked.spare_add (h : Marked sb d T) :
    d.spare sb + ∑ b ∈ Finset.range sb.size, T b =
      ∑ b ∈ Finset.range sb.size, if sb.data b then 1 else 0 := by
  rw [Disk.spare, Finset.card_filter, ← Finset.sum_add_distrib]
  refine Finset.sum_congr rfl fun b hb => ?_
  rw [h.count b]
  cases hbit : d.bitmap b with
  | true => simp
  | false =>
    have hlow : sb.datastart ≤ b := by
      by_contra hlt
      rw [h.low b (by omega)] at hbit
      cases hbit
    have hdata : sb.data b := ⟨hlow, Finset.mem_range.1 hb⟩
    simp [hdata]

section

variable (h : Marked sb d (R + ip.uses d.block))

include h

theorem Marked.place_data {p : ℕ} (hp : p < maxfile + 1) (hne : ip.place d.block p ≠ 0) :
    sb.data (ip.place d.block p) ∧ d.bitmap (ip.place d.block p) = true := by
  have hpos := uses_pos d.block hp hne
  have hcount := h.count (ip.place d.block p)
  by_contra hcon
  rw [if_neg hcon, Pi.add_apply] at hcount
  omega

theorem Marked.sum_uses :
    ∑ b ∈ Finset.range sb.size, ip.uses d.block b = (ip.held d.block).card := by
  simp only [Dinode.uses, Finset.sum_apply]
  rw [Finset.sum_comm, Dinode.held, Finset.card_filter]
  refine Finset.sum_congr rfl fun p hp => ?_
  by_cases hzero : ip.place d.block p = 0
  · simp [hzero]
  · have hlt := (h.place_data (Finset.mem_range.1 hp) hzero).1.2
    rw [if_pos hzero, one_of_ne hzero, Finset.sum_pi_single', if_pos (Finset.mem_range.2 hlt)]

theorem held_add_spare (h' : Marked sb d' (R + ip'.uses d'.block)) :
    (ip.held d.block).card + d.spare sb = (ip'.held d'.block).card + d'.spare sb := by
  have hsum := h.spare_add.trans h'.spare_add.symm
  simp only [Pi.add_apply, sum_add_distrib] at hsum
  rw [h.sum_uses, h'.sum_uses] at hsum
  omega

end

namespace LoopEnd

variable {src : Source} {n off tot off' tot' extra : ℕ}

section

variable (hrun : LoopEnd sb R src n off tot d ip off' tot' extra d' ip')

include hrun

theorem place_kept {p : ℕ} (hp : p < maxfile + 1) (hne : ip.place d.block p ≠ 0) :
    ip'.place d'.block p = ip.place d.block p := by
  rcases Nat.lt_succ_iff_lt_or_eq.1 hp with hlt | rfl
  · exact hrun.grown.keeps p hlt hne
  · exact hrun.indirect (.inr hne)

theorem held_subset : ip.held d.block ⊆ ip'.held d'.block := by
  intro p hp
  obtain ⟨hlt, hne⟩ := mem_held.1 hp
  refine mem_held.2 ⟨hlt, ?_⟩
  rwa [hrun.place_kept hlt hne]

theorem missing_le_spare (h : Marked sb d (R + ip.uses d.block)) (hmax : off' / bsize ≤ maxfile) :
    (ip.missing d.block (off / bsize) (off' / bsize)).card ≤ d.spare sb := by
  have hdisj : Disjoint (ip.held d.block) (ip.missing d.block (off / bsize) (off' / bsize)) := by
    rw [Finset.disjoint_left]
    exact fun p hp hq => (mem_held.1 hp).2 (mem_missing.1 hq).2
  have hsub : ip.held d.block ∪ ip.missing d.block (off / bsize) (off' / bsize) ⊆ ip'.held d'.block := by
    refine union_subset hrun.held_subset fun q hq => ?_
    obtain ⟨⟨-, hlt⟩, -⟩ := mem_missing.1 hq
    have hstart : q * bsize < off' := by
      have := Nat.div_mul_le_self off' bsize
      have := Nat.mul_lt_mul_of_pos_right hlt bsize_pos
      omega
    exact mem_held.2 ⟨by omega, hrun.full q hstart⟩
  have hcard := card_le_card hsub
  rw [card_union_of_disjoint hdisj] at hcard
  have := held_add_spare h hrun.marked
  omega

theorem spare_lt_missing (h : Marked sb d (R + ip.uses d.block)) (hnone : d'.exhausted sb)
    (hzero : ip'.place d'.block (off' / bsize) = 0) {q : ℕ} (hq : q < maxfile)
    (hle : off' / bsize ≤ q) (hne : ip.place d.block q ≠ 0) :
    d.spare sb < (ip.missing d.block (off / bsize) q).card := by
  have hlt : off' / bsize < q := by
    refine lt_of_le_of_ne hle fun heq => hne ?_
    rw [← hrun.grown.keeps q hq hne, ← heq, hzero]
  have hmem : off' / bsize ∈ ip.missing d.block (off / bsize) q := by
    refine mem_missing.2 ⟨⟨Nat.div_le_div_right hrun.progress.low, hlt⟩, ?_⟩
    by_contra hne'
    exact hne' (by rw [← hrun.grown.keeps _ (by omega) hne', hzero])
  -- no indirect block comes new: one was there, or none is needed
  have hind : off' / bsize < ndirect ∨ ip.addrs ndirect ≠ 0 := by
    by_cases hdir : q < ndirect
    · exact .inl (by omega)
    · refine .inr fun ha => hne ?_
      rw [Dinode.place, if_neg hdir, if_pos hq, if_pos ha]
  have hsub : ip'.held d'.block ⊆
      ip.held d.block ∪ (ip.missing d.block (off / bsize) q).erase (off' / bsize) := by
    intro p hp
    obtain ⟨hlt', hne'⟩ := mem_held.1 hp
    by_cases hold : ip.place d.block p = 0
    · refine Finset.mem_union_right _ (Finset.mem_erase.2 ⟨?_, mem_missing.2 ⟨?_, hold⟩⟩)
      · rintro rfl
        exact hne' hzero
      · rcases Nat.lt_succ_iff_lt_or_eq.1 hlt' with hlt' | rfl
        · by_contra hout
          refine hne' ((hrun.places p hlt' ?_).trans hold)
          omega
        · have : ip'.addrs ndirect = ip.addrs ndirect := hrun.indirect hind
          rw [place_last] at hold hne'
          exact absurd (this.trans hold) hne'
    · exact mem_union_left _ (mem_held.2 ⟨hlt', hold⟩)
  have hcard := (card_le_card hsub).trans (card_union_le _ _)
  rw [Finset.card_erase_of_mem hmem] at hcard
  have hspare : d'.spare sb = 0 := by
    rw [Disk.spare, Finset.card_eq_zero, Finset.filter_eq_empty_iff]
    intro b hb
    rw [hnone b (Finset.mem_range.1 hb)]
    simp
  have hpos := Finset.card_pos.2 ⟨_, hmem⟩
  have := held_add_spare h hrun.marked
  omega

end

end LoopEnd

end Counting

/-- `new` has been put at `off`, and there is nothing else that a read would show, now
or after any buffers have been recycled. -/
structure CleanWrite (lay : Layout) (inum off : ℕ) (new : List UInt8) (s s' : Cached) : Prop where
  reads : ∀ (l : List ℕ) (o m : ℕ), o + m < 2 ^ 32 →
    Reads lay.toSuper (l.foldl (Cached.evict lay) s').disk inum o m
      (((splice (s.disk.contents inum) off new).drop o).take m)
  coherent : s'.Coherent lay

/-- The range is refused, or all of it can be copied; or the block in which the copy
stops was not there, or the disk is full before it is reached; or the bytes that were
copied to it are the old ones, or lie behind the end of the file in a logged block. -/
def Untorn (lay : Layout) (t : Table) (phys : Memory) (inum src off n : ℕ) (s : Cached) : Prop :=
  ¬(off ≤ (s.disk.dinode inum).size ∧ off + n ≤ maxfile * bsize) ∨
  reach t src n = n ∨
  (s.disk.dinode inum).place s.disk.block ((off + reach t src n) / bsize) = 0 ∨
  s.disk.spare lay.toSuper < ((s.disk.dinode inum).missing s.disk.block (off / bsize)
    ((off + reach t src n) / bsize)).card ∨
  ∀ x, (off + reach t src n) / bsize * bsize - off ≤ x → x < reach t src n →
    loadUser t phys (src + x) = (s.disk.dinode inum).byteAt s.disk.block (off + x) ∨
    ((s.disk.dinode inum).size ≤ off + x ∧
      (s.disk.dinode inum).place s.disk.block ((off + reach t src n) / bsize) ∈ s.log)

theorem Reads.unique {sb : Super} {d : Disk} {inum : ℕ} {l l' : List UInt8}
    (h : Reads sb d inum off n l) (h' : Reads sb d inum off n l') : l = l' := by
  obtain ⟨m, hrun, hm⟩ := h
  obtain ⟨m', hrun', hm'⟩ := h'
  rw [hrun] at hrun'
  have hpair := congrArg Prod.snd (congrArg Prod.fst (Except.ok.inj hrun'))
  have hlen : l.length = l'.length := Int.natCast_inj.1 (congrArg Prod.fst hpair)
  rw [← hm, ← hm', hlen, show m = m' from congrArg Prod.snd hpair]

/-- The end of a write in single bytes: none behind `off'` has changed that belongs to
the file, and none in the block where the copy stopped unless it is logged. -/
structure Quiet (n off' tot extra : ℕ) (ip : Dinode)
    (s : Cached) (ip' : Dinode) (s' : Cached) : Prop where
  visible : ∀ o < ip.size, off' ≤ o → o < off' + extra →
    ip'.byteAt s'.disk.block o = ip.byteAt s.disk.block o
  stuck : ∀ b, Stuck n off' tot s'.disk ip' b → b ∉ s'.log → ∀ i < bsize,
    s'.disk.block b i = s.disk.block b i

structure UserWrite (lay : Layout) (t : Table) (phys : Memory) (R : ℕ → ℕ) (inum src off n : ℕ)
    (s : Cached) (tot extra : ℕ) (ip' : Dinode) (d' : Disk) (s' : Cached) : Prop where
  order : InOrder lay.toSuper R s.disk (s.disk.dinode inum)
  start : off ≤ (s.disk.dinode inum).size
  stop : off + n ≤ maxfile * bsize
  run : LoopEnd lay.toSuper R (.user t phys src off n) n off 0 s.disk (s.disk.dinode inum) (off + tot)
    tot extra d' ip'
  copied : Copied t src off n (off + tot) tot
  disk : s'.disk = d'.putInode inum (ip'.setSize (max (s.disk.dinode inum).size (off + tot)))
  tracks : Tracks lay (Stuck n (off + tot) tot s'.disk ip') s s'
  logs : LogsPlaces lay n (off + tot) tot s (s.disk.dinode inum) s' ip'

namespace UserWrite

variable {R : ℕ → ℕ} {inum src off n tot extra : ℕ} {ip' : Dinode} {d' : Disk}

section

variable (h : UserWrite lay t phys R inum src off n s tot extra ip' d' s')

include h

theorem block : s'.disk.block = d'.block := by
  rw [h.disk]
  rfl

theorem dinode : s'.disk.dinode inum = ip'.setSize (max (s.disk.dinode inum).size (off + tot)) := by
  rw [h.disk]
  exact update_self ..

theorem noHoles : NoHoles s'.disk inum := by
  have horder := h.run.inOrder h.stop h.order inum
  rw [← h.disk] at horder
  refine ⟨?_, ?_⟩ <;> rw [h.dinode]
  · exact horder.full
  · exact horder.small

theorem contents :
    s'.disk.contents inum = (List.range (max (s.disk.dinode inum).size (off + tot))).map
      (ip'.byteAt s'.disk.block) := by
  unfold Disk.contents
  rw [h.dinode]
  rfl

theorem clean_of_quiet (hs : s.Coherent lay)
    (hq : Quiet n (off + tot) tot extra (s.disk.dinode inum) s ip' s') :
    CleanWrite lay inum off ((List.range tot).map fun j => loadUser t phys (src + j)) s s' := by
  have hcoh := h.tracks.coherent hs hq.stuck
  refine ⟨fun l o m hwrap => ?_, hcoh⟩
  have hcontents : s'.disk.contents inum =
      splice (s.disk.contents inum) off ((List.range tot).map fun j => loadUser t phys (src + j)) := by
    rw [h.contents]
    refine map_range_splice h.start (fun o hlo hhi => ?_) fun o ho hnot => ?_
    · rw [h.block, h.run.bytes o hlo (by omega), zero_add]
      rfl
    · by_cases hin : off + tot ≤ o ∧ o < off + tot + extra
      · exact hq.visible o ho hin.1 hin.2
      · rw [h.block]
        have := h.order.small
        exact h.run.grown.bytes o (by omega) (by omega)
  rw [hcoh.evictions, ← hcontents]
  exact h.noHoles.reads hwrap

theorem quiet_of_clean (hs : s.Coherent lay)
    (hclean : CleanWrite lay inum off ((List.range tot).map fun j => loadUser t phys (src + j)) s s') :
    Quiet n (off + tot) tot extra (s.disk.dinode inum) s ip' s' := by
  refine ⟨fun o ho hlo hhi => ?_, fun b hb hlog i hi => ?_⟩
  · have hsize : (s'.disk.dinode inum).size = max (s.disk.dinode inum).size (off + tot) := by
      rw [h.dinode]
      rfl
    have hmax : maxfile * bsize < 2 ^ 32 := by decide
    have hsmall := h.noHoles.small
    set new := (List.range tot).map fun j => loadUser t phys (src + j) with hnew
    have hlen : new.length = tot := by simp [hnew]
    have hread := hclean.reads [] 0 (s'.disk.dinode inum).size (by omega)
    have hall : (splice (s.disk.contents inum) off new).length = (s'.disk.dinode inum).size := by
      rw [length_splice (by simpa using h.start), hlen, length_contents, hsize]
    rw [drop_zero, take_of_length_le hall.le] at hread
    have heq := h.noHoles.reads_all.unique hread
    rw [h.contents] at heq
    have hget := congrArg (fun l => l[o]?) heq
    rw [getElem?_splice_of_le (by simpa using h.start) (by omega), Disk.contents, getElem?_map,
      getElem?_map, getElem?_range (by omega), getElem?_range ho] at hget
    exact Option.some.inj hget
  · rw [hclean.coherent.block b hlog i hi, h.tracks.home,
      hs.block b (fun hmem => hlog (h.tracks.log hmem)) i hi]

end

variable {q : ℕ}

theorem byteAt_block {block : ℕ → Memory} {ip : Dinode} {i : ℕ} (hne : ip.place block q ≠ 0)
    (hi : i < bsize) : ip.byteAt block (q * bsize + i) = block (ip.place block q) i := by
  have hdiv : (q * bsize + i) / bsize = q := by
    rw [mul_comm, Nat.mul_add_div bsize_pos, Nat.div_eq_of_lt hi, add_zero]
  have hmod : (q * bsize + i) % bsize = i := by
    rw [mul_comm, Nat.mul_add_mod, Nat.mod_eq_of_lt hi]
  rw [Dinode.byteAt, hdiv, if_neg hne, hmod]

section

variable (h : UserWrite lay t phys R inum src off n s tot extra ip' d' s')

include h

theorem mem_log_of_new (hq : q < maxfile) (hold : (s.disk.dinode inum).place s.disk.block q = 0)
    (hne : ip'.place s'.disk.block q ≠ 0) : ip'.place s'.disk.block q ∈ s'.log := by
  rw [h.block] at hne ⊢
  set b := ip'.place d'.block q with hb
  have hmark := h.run.marked
  obtain ⟨hdata, hbit⟩ := hmark.place_data (by omega) hne
  have hpos : 0 < ip'.uses d'.block b := uses_pos d'.block (by omega) hne
  have hone := hmark.le_one b
  rw [Pi.add_apply] at hone
  -- nobody had it before, so its bit was clear
  have hnobody : (s.disk.dinode inum).uses s.disk.block b = 0 := by
    by_contra hused
    rw [Dinode.uses, Finset.sum_apply] at hused
    obtain ⟨p, hp, hpb⟩ := Finset.exists_ne_zero_of_sum_ne_zero hused
    have hp0 : (s.disk.dinode inum).place s.disk.block p ≠ 0 := by
      intro hzero
      rw [hzero] at hpb
      exact hpb rfl
    have hpeq : (s.disk.dinode inum).place s.disk.block p = b := by
      by_contra hdiff
      rw [one_of_ne hp0] at hpb
      exact hpb (Pi.single_eq_of_ne (Ne.symm hdiff) 1)
    have hkept := h.run.place_kept (Finset.mem_range.1 hp) hp0
    have hle : ip'.uses d'.block b ≤ 1 := by omega
    have heq : p = q := place_inj hle (by omega) (Finset.mem_range.1 hp) hne (hkept.trans hpeq)
    exact hp0 (heq ▸ hold)
  have hclear : s.disk.bitmap b = false := by
    have hcount := h.order.marked.count b
    by_contra hset
    rw [if_pos ⟨hdata, by simpa using hset⟩, Pi.add_apply, hnobody] at hcount
    omega
  refine (h.tracks.bitmap b ?_).1
  rw [hclear, h.disk]
  change d'.bitmap b ≠ false
  rw [hbit]
  simp

theorem not_mem_log (hlt : tot < n) (hq : q < maxfile) (hstop : q = (off + tot) / bsize)
    (hold : (s.disk.dinode inum).place s.disk.block q ≠ 0)
    (hlog : (s.disk.dinode inum).place s.disk.block q ∉ s.log) :
    (s.disk.dinode inum).place s.disk.block q ∉ s'.log := by
  intro hmem
  have hkept := h.run.place_kept (by omega : q < maxfile + 1) hold
  rcases h.logs _ hmem with hx | hx | ⟨q', hq', hx, hnew⟩
  · exact hlog hx
  · have := (h.order.marked.place_data (by omega) hold).1.1
    omega
  · rw [h.block] at hx
    have hle := (Nat.le_add_left _ _).trans (h.run.marked.le_one (ip'.place d'.block q))
    have heq : q' = q := place_inj hle (by omega) (by omega) (by rwa [hkept]) (hx.symm.trans hkept.symm)
    exact hold (heq ▸ hnew hlt (heq.trans hstop))

theorem quiet_iff_of_fault (hlt : tot < n) (hextra : extra < piece (off + tot) (n - tot))
    (hplace : ip'.place d'.block ((off + tot) / bsize) ≠ 0) :
    Quiet n (off + tot) tot extra (s.disk.dinode inum) s ip' s' ↔
      (s.disk.dinode inum).place s.disk.block ((off + tot) / bsize) = 0 ∨
        ∀ x, tot ≤ x → x < tot + extra →
          loadUser t phys (src + x) = (s.disk.dinode inum).byteAt s.disk.block (off + x) ∨
          ((s.disk.dinode inum).size ≤ off + x ∧
            (s.disk.dinode inum).place s.disk.block ((off + tot) / bsize) ∈ s.log) := by
  have hle : piece (off + tot) (n - tot) ≤ n - tot := min_le_left _ _
  have hstop := h.stop
  set q := (off + tot) / bsize with hqdef
  have hq : q < maxfile := div_lt_maxfile (by omega)
  have hdiv : ∀ o, off + tot ≤ o → o < off + tot + extra → o / bsize = q ∧ o < maxfile * bsize :=
    fun o hlo hhi => ⟨(div_of_mem_piece (off + tot) (n - tot) hlo (by omega)).1, by omega⟩
  have hnew : ∀ x, tot ≤ x → x < tot + extra →
      ip'.byteAt s'.disk.block (off + x) = loadUser t phys (src + x) := by
    intro x hlo hhi
    rw [h.block, h.run.bytes (off + x) (by omega) (by omega), zero_add, Nat.add_sub_cancel_left]
    rfl
  by_cases hold : (s.disk.dinode inum).place s.disk.block q = 0
  · refine ⟨fun _ => .inl hold, fun _ => ⟨fun o ho hlo hhi => ?_, fun b hb hlog => ?_⟩⟩
    · have hfull := h.order.full (o / bsize) ((Nat.div_mul_le_self o bsize).trans_lt ho)
      rw [(hdiv o hlo hhi).1] at hfull
      exact absurd hold hfull
    · obtain ⟨-, hb0, hb⟩ := hb
      rw [hb] at hb0 hlog
      exact absurd (h.mem_log_of_new hq hold hb0) hlog
  · have hkept : ip'.place s'.disk.block q = (s.disk.dinode inum).place s.disk.block q := by
      rw [h.block]
      exact h.run.place_kept (by omega) hold
    rw [or_iff_right hold]
    constructor
    · intro hquiet x hlo hhi
      obtain ⟨hxdiv, hxmax⟩ := hdiv (off + x) (by omega) (by omega)
      by_cases hsize : off + x < (s.disk.dinode inum).size
      · exact .inl ((hnew x hlo hhi).symm.trans (hquiet.visible _ hsize (by omega) (by omega)))
      by_cases hlog : (s.disk.dinode inum).place s.disk.block q ∈ s.log
      · exact .inr ⟨by omega, hlog⟩
      · left
        have hsame := hquiet.stuck _ ⟨hlt, hold, hkept.symm⟩ (h.not_mem_log hlt hq rfl hold hlog)
          ((off + x) % bsize) (Nat.mod_lt _ bsize_pos)
        rw [← hnew x hlo hhi, Dinode.byteAt, Dinode.byteAt, hxdiv, hkept,
          if_neg hold, if_neg hold, hsame]
    · intro hall
      refine ⟨fun o ho hlo hhi => ?_, fun b hb hlog i hi => ?_⟩
      · obtain ⟨x, rfl⟩ := Nat.exists_eq_add_of_le (show off ≤ o by omega)
        rw [hnew x (by omega) (by omega)]
        exact (hall x (by omega) (by omega)).resolve_right fun hbehind => by omega
      · obtain ⟨-, hb0, hb⟩ := hb
        rw [hkept] at hb
        subst hb
        have hnot : (s.disk.dinode inum).place s.disk.block q ∉ s.log :=
          fun hmem => hlog (h.tracks.log hmem)
        have hleft : ip'.byteAt s'.disk.block (q * bsize + i) =
            s'.disk.block ((s.disk.dinode inum).place s.disk.block q) i := by
          rw [← hkept]
          exact byteAt_block (by rwa [hkept]) hi
        have hright : (s.disk.dinode inum).byteAt s.disk.block (q * bsize + i) =
            s.disk.block ((s.disk.dinode inum).place s.disk.block q) i := byteAt_block hold hi
        rw [← hleft, ← hright]
        by_cases hin : off + tot ≤ q * bsize + i ∧ q * bsize + i < off + tot + extra
        · obtain ⟨x, hx⟩ := Nat.exists_eq_add_of_le (show off ≤ q * bsize + i by omega)
          rw [hx, hnew x (by omega) (by omega)]
          exact (hall x (by omega) (by omega)).resolve_right fun hlogged => hnot hlogged.2
        · -- the piece starts with the write or with the block
          have hstart : off ≤ q * bsize + i → off + tot ≤ q * bsize + i := by
            intro hoff
            have hmod := Nat.div_add_mod' (off + tot) bsize
            rcases h.run.progress.stop with hs | hs | hs
            · omega
            · rw [hs, ← hqdef] at hmod
              omega
            · omega
          rw [h.block]
          have hmax : q * bsize + i < maxfile * bsize := by
            have := Nat.mul_le_mul_right bsize hq
            rw [Nat.succ_mul] at this
            omega
          exact h.run.grown.bytes _ hmax (by omega)

theorem quiet_iff :
    Quiet n (off + tot) tot extra (s.disk.dinode inum) s ip' s' ↔
      Untorn lay t phys inum src off n s := by
  have hstart := h.start
  have hstop := h.stop
  have hreach := reach_le t src n
  have hhalted := h.run.halted
  cases hhalted with
  | done hdone =>
    obtain rfl : tot = n := le_antisymm h.copied.2.1 hdone
    refine ⟨fun _ => .inr (.inl h.copied.2.2), fun _ => ⟨fun o _ hlo hhi => ?_, fun b hb => ?_⟩⟩
    · omega
    · exact absurd hb.1 (lt_irrefl _)
  | noBlock hlt hnone hzero =>
    refine ⟨fun _ => ?_, fun _ => ⟨fun o _ hlo hhi => by omega, fun b hb => ?_⟩⟩
    · by_cases hall : reach t src n = n
      · exact .inr (.inl hall)
      by_cases hplace : (s.disk.dinode inum).place s.disk.block ((off + reach t src n) / bsize) = 0
      · exact .inr (.inr (.inl hplace))
      have hle : (off + tot) / bsize ≤ (off + reach t src n) / bsize :=
        Nat.div_le_div_right (Nat.add_le_add_left h.copied.le_reach off)
      exact .inr (.inr (.inr (.inl (h.run.spare_lt_missing h.order.marked hnone hzero
        (div_lt_maxfile (by omega)) hle hplace))))
    · obtain ⟨-, hb0, hb⟩ := hb
      rw [h.block] at hb
      exact absurd (hb.trans hzero) hb0
  | @fault j hlt hfault hplace =>
    obtain ⟨hk, hj⟩ := h.copied.fault hlt hfault
    have hpiece : piece (off + tot) (n - tot) ≤ n - tot := min_le_left _ _
    have hmin : min j (piece (off + tot) (n - tot)) = j := min_eq_left hj.le
    have hq : (off + reach t src n) / bsize = (off + tot) / bsize :=
      (div_of_mem_piece (off + tot) (n - tot) (by omega) (by omega)).1
    -- the piece that the copy stops in starts at `tot`
    have hp : (off + tot) / bsize * bsize - off = tot := by
      have hmod := Nat.div_add_mod' (off + tot) bsize
      rcases h.run.progress.stop with hs | hs | hs
      · have : tot = 0 := by omega
        omega
      · rw [hs] at hmod
        omega
      · omega
    have henough := h.run.missing_le_spare h.order.marked (div_lt_maxfile (by omega)).le
    rw [hmin] at h ⊢
    rw [h.quiet_iff_of_fault hlt hj hplace, Untorn, hq, hp, hk]
    constructor
    · rintro (hzero | hall)
      · exact .inr (.inr (.inl hzero))
      · exact .inr (.inr (.inr (.inr hall)))
    · rintro (hout | hall | hzero | hfew | hall)
      · exact absurd ⟨hstart, hstop⟩ hout
      · omega
      · exact .inl hzero
      · omega
      · exact .inr hall

end

end UserWrite

/-- A write from user memory shows its bytes and nothing else, exactly when the block in
which the copy stops does not get others. -/
theorem user_write_clean_iff (hs : s.Coherent lay) (h : Stored lay.toSuper s.disk) {inum : ℕ}
    (hlt : inum < lay.ninodes) (halloc : (s.disk.dinode inum).type ≠ .free) (t : Table) (phys : Memory)
    (src off n : ℕ) :
    Runs (Logged.writei lay t phys inum (s.disk.dinode inum) src off n) s fun r s' =>
      CleanWrite lay inum off ((List.range r.2.toNat).map fun j => loadUser t phys (src + j)) s s' ↔
        Untorn lay t phys inum src off n s := by
  have horder := h.tidy.inOrder hlt halloc
  by_cases hin : off ≤ (s.disk.dinode inum).size ∧ off + n ≤ maxfile * bsize
  · have hdisk := (Logged.writei_projects lay t phys inum (s.disk.dinode inum) src off n).runs
      (writei_halts (.user t phys src off n) (Copied t src off n)
        (fun _ _ hlt hc hnone => hc.step hlt hnone) ⟨rfl, Nat.zero_le n, rfl⟩ hin.1 hin.2 horder)
    refine (hdisk.and (Logged.writei_tracks hlt src hin.1 hin.2 horder)).mono ?_
    rintro ⟨ip2, r⟩ s' ⟨⟨ip', d', off', tot, extra, hrun, hcopied, hr, hd⟩, htracks, hlogs⟩
    obtain rfl : off' = off + tot := hcopied.1
    obtain ⟨rfl, rfl⟩ := Prod.mk.inj hr
    have hwrite : UserWrite lay t phys (lost lay.toSuper s.disk + rest lay.toSuper s.disk inum) inum src
        off n s tot extra ip' d' s' :=
      ⟨horder, hin.1, hin.2, hrun, hcopied, hd, htracks, hlogs⟩
    exact ⟨fun hclean => hwrite.quiet_iff.1 (hwrite.quiet_of_clean hs hclean),
      fun hun => hwrite.clean_of_quiet hs (hwrite.quiet_iff.2 hun)⟩
  · refine ⟨_, _, Logged.writei_refused hin, fun _ => .inl hin, fun _ => ⟨fun l o m hwrap => ?_, hs⟩⟩
    have hnothing : splice (s.disk.contents inum) off [] = s.disk.contents inum := by
      rw [splice, append_nil, length_nil, add_zero, take_append_drop]
    rw [hs.evictions]
    change Reads _ _ _ _ _ (((splice _ off []).drop o).take m)
    rw [hnothing]
    exact (h.noHoles inum hlt halloc).reads hwrap

def byteCache : Cached := ⟨byteDisk, byteDisk, ∅⟩

theorem byteCache_coherent : byteCache.Coherent smallLayout :=
  ⟨fun _ _ _ => rfl, fun _ _ _ => rfl, fun _ _ _ _ => rfl⟩

theorem byteCache_stored : Stored smallLayout.toSuper byteCache.disk :=
  ((smallRun_reached (.inr rfl)).sound (boot_sound smallDisk_image.tidy)).tidy.stored

theorem user_write_clean_iff_byte : ∃ s x, Paging.Reached Paging.smallImage s ∧
    s.proc ProcTable.initproc = some x ∧ ∀ phys,
    Runs (Logged.writei smallLayout x.pagetable phys 1 (byteDisk.dinode 1) 4095 0 1) byteCache
      fun r s' => CleanWrite smallLayout 1 0
        ((List.range r.2.toNat).map fun j => loadUser x.pagetable phys (4095 + j)) byteCache s' := by
  obtain ⟨s, x, hs, hx, hfirst, -⟩ := PipeChannel.smallImage_page
  have hone : reach x.pagetable 4095 1 = 1 := by rw [reach, if_pos hfirst]; rfl
  refine ⟨s, x, hs, hx, fun phys => ?_⟩
  refine (user_write_clean_iff byteCache_coherent byteCache_stored
    (by decide) (by decide) x.pagetable phys
    4095 0 1).mono fun r s' h => h.2 (.inr (.inl hone))

/-- Two bytes are to be written, and the page ends after the first.  Nothing has been
written, says the result; the file shows the byte until its buffer is recycled. -/
theorem fault_shows_uncounted_byte : ∃ s x, Paging.Reached Paging.smallImage s ∧
    s.proc ProcTable.initproc = some x ∧
    Runs (Logged.writei smallLayout x.pagetable (fun _ => 9) 1 (byteDisk.dinode 1) 4095 0 2) byteCache
      fun r s' => r.2 = 0 ∧ byteCache.disk.contents 1 = [7] ∧ s'.disk.contents 1 = [9] ∧
        (s'.evict smallLayout 2).disk.contents 1 = [7] := by
  obtain ⟨s, x, hs, hx, hfirst, hsecond⟩ := PipeChannel.smallImage_page
  have hreach : reach x.pagetable 4095 2 = 1 := by
    rw [reach, if_pos hfirst, Paging.reach_of_none hsecond]
  have hbyte : loadUser x.pagetable (fun _ => 9) 4095 = 9 := by
    obtain ⟨q, hq⟩ := Option.isSome_iff_exists.1 (PipeChannel.paddr_isSome.trans hfirst)
    rw [loadUser, hq]
  set data := Paging.memmove (byteDisk.block 2) 0
    (fun j => loadUser x.pagetable (fun _ => 9) (4095 + j)) 1
    with hdata
  have hcopy : copyinFrom x.pagetable (fun _ => 9) 4095 2 (byteDisk.block 2) 0 = (data, false) := by
    rw [Paging.copyinFrom_eq, hreach]
    rfl
  have hloop : Logged.writeLoop smallLayout x.pagetable (fun _ => 9) 1 (byteDisk.dinode 1) 4095 0 2 0
      byteCache = .ok ((byteDisk.dinode 1, 0, 0), byteCache.setDisk (byteDisk.put 2 data)) := by
    have hplace : (byteDisk.dinode 1).place byteCache.disk.block (0 / bsize) = 2 := rfl
    unfold Logged.writeLoop
    rw [bind_of_ok (Logged.bmap_found (s := byteCache) (by decide) (by rw [hplace]; decide)), hplace]
    change (Logged.onBuffers (setBlock 2 (copyinFrom x.pagetable (fun _ => 9) 4095 2
      (byteDisk.block 2) 0).1) >>= fun _ => if (copyinFrom x.pagetable (fun _ => 9) 4095 2
      (byteDisk.block 2) 0).2 then _ else _ : CacheM _) byteCache = _
    rw [hcopy]
    rfl
  refine ⟨s, x, hs, hx, (byteDisk.dinode 1, 0),
    ((byteCache.setDisk (byteDisk.put 2 data)).setDisk
      ((byteDisk.put 2 data).putInode 1 (byteDisk.dinode 1))).record 0, ?_, rfl, rfl, ?_, rfl⟩
  · unfold Logged.writei
    rw [if_neg (by decide), if_neg (by decide)]
    change (Logged.writeLoop smallLayout x.pagetable (fun _ => 9) 1 (byteDisk.dinode 1) 4095 0 2 0 >>=
      _ : CacheM _) byteCache = _
    rw [bind_of_ok hloop]
    rfl
  · change [loadUser x.pagetable (fun _ => 9) 4095] = [9]
    rw [hbyte]

end Xv6MallocLab.FileSystem
