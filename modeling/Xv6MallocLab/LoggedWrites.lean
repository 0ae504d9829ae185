import Xv6MallocLab.SharedOffset
import Xv6MallocLab.UserCopies

/-!
# What a write puts in the log

`writei` from user memory with what the buffers show, what the disk itself holds, and
the blocks that `log_write` was called on.  Other processes may do anything to the file
between two sections of `filewrite`.
-/

namespace Xv6MallocLab.FileSystem

open ByteMemory Function List
open Paging (Table memmove copyinFrom copyinFrom_eq loadUser reach reach_le)

def bpb : ℕ := bsize * 8

def ipb : ℕ := bsize / 64

/-- `struct superblock`; inodes and bitmap come before the data. -/
structure Layout extends Super where
  inodestart : ℕ
  bmapstart : ℕ
  inode_lt : ∀ inum < ninodes, inum / ipb + inodestart < datastart
  bmap_lt : ∀ b < size, b / bpb + bmapstart < datastart

def Layout.iblock (lay : Layout) (inum : ℕ) : ℕ := inum / ipb + lay.inodestart

def Layout.bblock (lay : Layout) (b : ℕ) : ℕ := b / bpb + lay.bmapstart

/-- What the buffers show, what is on the disk, and the blocks in the log, whose buffers
are pinned. -/
structure Cached where
  disk : Disk
  home : Disk
  log : Finset ℕ

abbrev CacheM (α : Type) := Fallible Cached Panic α

def Cached.setDisk (s : Cached) (d : Disk) : Cached := { s with disk := d }

def Cached.record (s : Cached) (b : ℕ) : Cached := { s with log := insert b s.log }

def Disk.mark (d : Disk) (b : ℕ) : Disk := { d with bitmap := update d.bitmap b true }

namespace Logged

variable (lay : Layout)

def onBuffers {α : Type} (m : DiskM α) : CacheM α := Fallible.zoom Cached.disk Cached.setDisk m

def logWrite (b : ℕ) : CacheM Unit := modify fun s => s.record b

def bzero (b : ℕ) : CacheM Unit := do
  onBuffers (setBlock b fun _ => 0)
  logWrite b

/-- `balloc`, which logs the bitmap block and the block it zeroes. -/
def balloc : CacheM ℕ := do
  let s ← get
  match (List.range lay.size).find? fun b => !s.disk.bitmap b with
  | some b => do
      set (s.setDisk (s.disk.mark b))
      logWrite (lay.bblock b)
      bzero b
      return b
  | none => return 0

def addrOf (ip : Dinode) (j : ℕ) : CacheM (Dinode × ℕ) :=
  if ip.addrs j = 0 then do
    let addr ← balloc lay
    if addr = 0 then return (ip, 0)
    else return (ip.setAddr j addr, addr)
  else return (ip, ip.addrs j)

/-- `bmap`, which logs the indirect block it stores an address in. -/
def bmap (ip : Dinode) (bn : ℕ) : CacheM (Dinode × ℕ) :=
  if bn < ndirect then addrOf lay ip bn
  else if bn - ndirect < nindirect then do
    let (ip, a) ← addrOf lay ip ndirect
    if a = 0 then return (ip, 0)
    else do
      let s ← get
      if word (s.disk.block a) (bn - ndirect) = 0 then do
        let addr ← balloc lay
        if addr = 0 then return (ip, 0)
        else do
          let s ← get
          onBuffers (setBlock a (store 4 (s.disk.block a) (4 * (bn - ndirect)) addr))
          logWrite a
          return (ip, addr)
      else return (ip, word (s.disk.block a) (bn - ndirect))
  else throw .bmapRange

def iupdate (inum : ℕ) (ip : Dinode) : CacheM Unit := do
  onBuffers (FileSystem.iupdate inum ip)
  logWrite (lay.iblock inum)

/-- The loop of `writei` with `user_src`, over `c` blocks.  A block that `either_copyin`
could not fill keeps what it has got, and is not logged. -/
def writeLoop (t : Table) (phys : Memory) :
    ℕ → Dinode → ℕ → ℕ → ℕ → ℕ → CacheM (Dinode × ℕ × ℕ)
  | 0, ip, _, off, _, tot => return (ip, off, tot)
  | c + 1, ip, src, off, n, tot => do
      let (ip, addr) ← bmap lay ip (off / bsize)
      if addr = 0 then return (ip, off, tot)
      else do
        let s ← get
        let m := min (n - tot) (bsize - off % bsize)
        let r := copyinFrom t phys src m (s.disk.block addr) (off % bsize)
        onBuffers (setBlock addr r.1)
        if r.2 then do
          logWrite addr
          writeLoop t phys c ip (src + m) (off + m) n (tot + m)
        else return (ip, off, tot)

/-- `writei` from user memory, with the blocks it logs. -/
def writei (t : Table) (phys : Memory) (inum : ℕ) (ip : Dinode) (src off n : ℕ) :
    CacheM (Dinode × ℤ) :=
  if ip.size < off ∨ (off + n) % 2 ^ 32 < off then return (ip, -1)
  else if maxfile * bsize < off + n then return (ip, -1)
  else do
    let (ip, off, tot) ← writeLoop lay t phys (nblocks off n) ip src off n 0
    let ip := if ip.size < off then ip.setSize off else ip
    iupdate lay inum ip
    return (ip, tot)

end Logged

/-- What `filewrite` works on: the buffers, the inode and the offset in the file
structure, and the user memory. -/
structure Filing where
  cache : Cached
  ip : Dinode
  off : ℕ
  pagetable : Table
  phys : Memory

abbrev FilingM (α : Type) := Fallible Filing Panic α

def Filing.beginOp (s : Filing) : Filing := { s with cache := { s.cache with log := ∅ } }

def Filing.setCache (s : Filing) (c : Cached) : Filing := { s with cache := c }

def Filing.advance (s : Filing) (ip : Dinode) (r : ℤ) : Filing :=
  { s with ip := ip, off := if 0 < r then (s.off + r.toNat) % 2 ^ 32 else s.off }

/-- One section of `filewrite`: what `writei` returns, and the blocks logged. -/
def writeSection (lay : Layout) (inum addr n : ℕ) : FilingM (ℤ × Finset ℕ) := do
  modify Filing.beginOp
  let s ← get
  let (ip, r) ← Fallible.zoom Filing.cache Filing.setCache
    (Logged.writei lay s.pagetable s.phys inum s.ip addr s.off n)
  modify fun s => s.advance ip r
  let s ← get
  return (r, s.cache.log)

/-- The loop of `filewrite` from `i` on, with what each of its sections logged; `other`
is what other processes do before the section at `i`. -/
def filewriteLoop (lay : Layout) (inum : ℕ) (other : ℕ → Filing → Filing) (addr : ℕ) (n : ℤ) (i : ℕ) :
    FilingM (ℤ × List (Finset ℕ)) :=
  if _h : (i : ℤ) < n then do
    modify (other i)
    let (r, log) ← writeSection lay inum (addr + i) (min (n.toNat - i) maxPiece)
    if r = (min (n.toNat - i) maxPiece : ℕ) then do
      let (ret, logs) ← filewriteLoop lay inum other addr n (i + min (n.toNat - i) maxPiece)
      return (ret, log :: logs)
    else return (-1, [log])
  else return (if (i : ℤ) = n then n else -1, [])
termination_by n.toNat - i
decreasing_by
  have hpos : 0 < maxPiece := by decide
  omega

/-- `filewrite` of an inode: the result, and what each section logged. -/
def filewrite (lay : Layout) (inum : ℕ) (other : ℕ → Filing → Filing) (writable : Bool) (addr : ℕ)
    (n : ℤ) : FilingM (ℤ × List (Finset ℕ)) :=
  if !writable then return (-1, []) else filewriteLoop lay inum other addr n 0

variable {lay : Layout}

def Source.user (t : Table) (phys : Memory) (src off n : ℕ) : Source where
  data := fun j => loadUser t phys (src + j)
  fault := fun tot =>
    if reach t (src + tot) (piece (off + tot) (n - tot)) = piece (off + tot) (n - tot) then none
    else some (reach t (src + tot) (piece (off + tot) (n - tot)))

namespace Logged

variable {t : Table} {phys : Memory}

theorem onBuffers_projects {α : Type} (m : DiskM α) : Projects Cached.disk id (onBuffers m) m :=
  .zoom (fun _ _ => rfl) m

theorem logWrite_projects {α β : Type} {f : α → β} {b : ℕ} {k : Unit → CacheM α} {m' : DiskM β}
    (hk : Projects Cached.disk f (k ()) m') : Projects Cached.disk f (logWrite b >>= k) m' :=
  fun s => hk (s.record b)

theorem balloc_projects (lay : Layout) :
    Projects Cached.disk id (balloc lay) (FileSystem.balloc lay.toSuper) := by
  refine .get_bind fun s => ?_
  cases (List.range lay.size).find? fun b => !s.disk.bitmap b with
  | none => exact .pure _ _
  | some b => exact fun _ => rfl

theorem addrOf_projects (lay : Layout) (ip : Dinode) (j : ℕ) :
    Projects Cached.disk id (addrOf lay ip j)
      (FileSystem.addrOf (FileSystem.balloc lay.toSuper) ip j) := by
  unfold addrOf FileSystem.addrOf
  split_ifs
  · refine .bind (balloc_projects lay) fun addr => ?_
    dsimp only [id]
    split_ifs
    · exact .pure _ _
    · exact .pure _ _
  · exact .pure _ _

theorem bmap_projects (lay : Layout) (ip : Dinode) (bn : ℕ) :
    Projects Cached.disk id (bmap lay ip bn)
      (FileSystem.bmap (FileSystem.balloc lay.toSuper) ip bn) := by
  unfold bmap FileSystem.bmap
  split_ifs
  · exact addrOf_projects lay ip bn
  · refine .bind (addrOf_projects lay ip ndirect) ?_
    rintro ⟨ip, a⟩
    dsimp only [id]
    split_ifs
    · exact .pure _ _
    · refine .get_bind fun s => ?_
      split_ifs
      · refine .bind (balloc_projects lay) fun addr => ?_
        dsimp only [id]
        split_ifs
        · exact .pure _ _
        · refine .get_bind fun s => ?_
          exact .bind (onBuffers_projects _) fun _ => logWrite_projects (.pure _ _)
      · exact .pure _ _
  · exact .throw _ _

theorem writeLoop_projects (lay : Layout) (t : Table) (phys : Memory) (src off n c : ℕ) (ip : Dinode)
    (tot : ℕ) :
    Projects Cached.disk id (writeLoop lay t phys c ip (src + tot) (off + tot) n tot)
      (FileSystem.writeLoop (FileSystem.balloc lay.toSuper) (.user t phys src off n) c ip (off + tot)
        n tot) := by
  induction c generalizing ip tot with
  | zero => exact .pure _ _
  | succ c ih =>
    unfold writeLoop FileSystem.writeLoop
    refine .bind (bmap_projects lay _ _) ?_
    rintro ⟨ip, addr⟩
    dsimp only [id]
    split_ifs
    · exact .pure _ _
    · refine .get_bind fun s => ?_
      rw [copyinFrom_eq]
      dsimp only
      rw [show min (n - tot) (bsize - (off + tot) % bsize) = piece (off + tot) (n - tot) from rfl]
      set m := piece (off + tot) (n - tot) with hm
      have hdata : (fun j => loadUser t phys (src + tot + j)) =
          fun j => (Source.user t phys src off n).data (tot + j) := by
        funext j
        rw [add_assoc]
        rfl
      have hfault : (Source.user t phys src off n).fault tot =
          if reach t (src + tot) m = m then none else some (reach t (src + tot) m) := rfl
      by_cases hall : reach t (src + tot) m = m
      · rw [hfault, if_pos hall, hall, hdata]
        refine .bind (onBuffers_projects _) fun _ => ?_
        rw [if_pos (decide_eq_true rfl)]
        refine logWrite_projects ?_
        have := ih ip (tot + m)
        rwa [← add_assoc, ← add_assoc] at this
      · rw [hfault, if_neg hall, hdata]
        have hmin : min (reach t (src + tot) m) m = reach t (src + tot) m :=
          min_eq_left (reach_le t (src + tot) m)
        dsimp only
        rw [hmin]
        refine .bind (onBuffers_projects _) fun _ => ?_
        rw [if_neg (by simpa using hall)]
        exact .pure _ _

theorem writei_projects (lay : Layout) (t : Table) (phys : Memory) (inum : ℕ) (ip : Dinode)
    (src off n : ℕ) :
    Projects Cached.disk id (writei lay t phys inum ip src off n)
      (FileSystem.writei (FileSystem.balloc lay.toSuper) inum ip (.user t phys src off n) off n) := by
  unfold writei FileSystem.writei
  split_ifs
  · exact .pure _ _
  · exact .pure _ _
  · refine .bind (writeLoop_projects lay t phys src off n _ ip 0) ?_
    rintro ⟨ip, off', tot⟩
    exact .bind (f := id) (fun _ => rfl) fun _ => .pure _ _

def Bitmap (lay : Layout) (x : ℕ) : Prop := ∃ b < lay.size, x = lay.bblock b

theorem balloc_logs (s : Cached) :
    Runs (balloc lay) s fun b s' => ∀ x ∈ s'.log, x ∈ s.log ∨ x = b ∨ Bitmap lay x := by
  unfold balloc
  refine runs_get_bind ?_
  cases hfind : (List.range lay.size).find? fun b => !s.disk.bitmap b with
  | none => exact .pure fun x hx => .inl hx
  | some b =>
    have hb : b < lay.size := mem_range.1 (mem_of_find?_eq_some hfind)
    refine ⟨b, _, rfl, fun x hx => ?_⟩
    rcases Finset.mem_insert.1 hx with rfl | hx
    · exact .inr (.inl rfl)
    · rcases Finset.mem_insert.1 hx with rfl | hx
      · exact .inr (.inr ⟨b, hb, rfl⟩)
      · exact .inl hx

theorem addrOf_logs (ip : Dinode) (j : ℕ) (s : Cached) :
    Runs (addrOf lay ip j) s fun r s' =>
      (∀ x ∈ s'.log, x ∈ s.log ∨ x = r.2 ∨ Bitmap lay x) ∧ (r.2 ≠ 0 → r.1.addrs j = r.2) ∧
        ∀ i, ip.addrs i ≠ 0 ∨ i ≠ j → r.1.addrs i = ip.addrs i := by
  unfold addrOf
  split_ifs with hzero
  · refine .bind (balloc_logs s) fun b s' hlog => ?_
    split_ifs with hb
    · subst hb
      exact .pure ⟨hlog, fun h => absurd rfl h, fun _ _ => rfl⟩
    · refine .pure ⟨hlog, fun _ => update_self .., fun i hi => ?_⟩
      refine update_of_ne (hi.elim (fun hne => ?_) id) ..
      rintro rfl
      exact hne hzero
  · exact .pure ⟨fun x hx => .inl hx, fun _ => rfl, fun _ _ => rfl⟩

theorem bmap_logs {ip : Dinode} {bn : ℕ} (hbn : bn < maxfile) (s : Cached) :
    Runs (bmap lay ip bn) s fun r s' =>
      (∀ x ∈ s'.log, x ∈ s.log ∨ x = r.2 ∨ (x = r.1.addrs ndirect ∧ x ≠ 0) ∨ Bitmap lay x) ∧
        (ip.addrs ndirect ≠ 0 → r.1.addrs ndirect = ip.addrs ndirect) := by
  unfold bmap
  by_cases hdir : bn < ndirect
  · rw [if_pos hdir]
    refine (addrOf_logs ip bn s).mono fun r s' h => ⟨fun x hx => ?_, fun hne => h.2.2 _ (.inl hne)⟩
    rcases h.1 x hx with hx | hx | hx
    · exact .inl hx
    · exact .inr (.inl hx)
    · exact .inr (.inr (.inr hx))
  · have hin : bn - ndirect < nindirect := by
      simp only [maxfile] at hbn
      omega
    rw [if_neg hdir, if_pos hin]
    refine .bind (addrOf_logs ip ndirect s) ?_
    rintro ⟨ip1, a⟩ s1 ⟨hlog, haddr, hkept⟩
    dsimp only at hlog haddr hkept ⊢
    have hind : ip.addrs ndirect ≠ 0 → ip1.addrs ndirect = ip.addrs ndirect :=
      fun hne => hkept _ (.inl hne)
    by_cases hzero : a = 0
    · rw [if_pos hzero]
      refine .pure ⟨fun x hx => ?_, hind⟩
      rcases hlog x hx with hx | hx | hx
      · exact .inl hx
      · exact .inr (.inl (hx.trans hzero))
      · exact .inr (.inr (.inr hx))
    · rw [if_neg hzero]
      refine runs_get_bind ?_
      -- what `addrOf` has logged, for any block that `bmap` then returns
      have hlog1 : ∀ addr, ∀ x ∈ s1.log, x ∈ s.log ∨ x = addr ∨
          (x = ip1.addrs ndirect ∧ x ≠ 0) ∨ Bitmap lay x := by
        intro addr x hx
        rcases hlog x hx with hx | hx | hx
        · exact .inl hx
        · exact .inr (.inr (.inl ⟨hx.trans (haddr hzero).symm, hx ▸ hzero⟩))
        · exact .inr (.inr (.inr hx))
      split_ifs with hword
      · refine .bind (balloc_logs s1) fun b s2 hlog2 => ?_
        have hlog3 : ∀ x ∈ s2.log, x ∈ s.log ∨ x = b ∨ (x = ip1.addrs ndirect ∧ x ≠ 0) ∨
          Bitmap lay x := by
          intro x hx
          rcases hlog2 x hx with hx | hx | hx
          · exact hlog1 b x hx
          · exact .inr (.inl hx)
          · exact .inr (.inr (.inr hx))
        split_ifs with hb
        · subst hb
          exact .pure ⟨hlog3, hind⟩
        · refine ⟨_, _, rfl, fun x hx => ?_, hind⟩
          rcases Finset.mem_insert.1 hx with rfl | hx
          · exact .inr (.inr (.inl ⟨(haddr hzero).symm, hzero⟩))
          · exact hlog3 x hx
      · exact .pure ⟨hlog1 _, hind⟩

theorem writeLoop_logs (n c : ℕ) (ip : Dinode) (src off tot : ℕ) (hc : c = nblocks off (n - tot))
    (hend : off + (n - tot) ≤ maxfile * bsize) (s : Cached) :
    Runs (writeLoop lay t phys c ip src off n tot) s fun r s' =>
      (∃ S : Finset ℕ, S.card ≤ c ∧ ∀ x ∈ s'.log,
        x ∈ s.log ∨ x ∈ S ∨ (x = r.1.addrs ndirect ∧ x ≠ 0) ∨ Bitmap lay x) ∧
        (ip.addrs ndirect ≠ 0 → r.1.addrs ndirect = ip.addrs ndirect) := by
  induction c generalizing ip src off tot s with
  | zero => exact .pure ⟨⟨∅, le_rfl, fun x hx => .inl hx⟩, fun _ => rfl⟩
  | succ c ih =>
    have hr := nblocks_pos_iff hc
    have hbn : off / bsize < maxfile := div_lt_maxfile (by omega)
    unfold writeLoop
    refine .bind (bmap_logs hbn s) ?_
    rintro ⟨ip1, addr⟩ s1 ⟨hlog, hind⟩
    dsimp only at hlog hind ⊢
    have hone : ∃ S : Finset ℕ, S.card ≤ c + 1 ∧ ∀ x ∈ s1.log,
        x ∈ s.log ∨ x ∈ S ∨ (x = ip1.addrs ndirect ∧ x ≠ 0) ∨ Bitmap lay x := by
      refine ⟨{addr}, by simp, fun x hx => ?_⟩
      rw [Finset.mem_singleton]
      exact hlog x hx
    split_ifs with hzero
    · exact .pure ⟨hone, hind⟩
    · refine runs_get_bind ?_
      refine runs_bind_of_ok (t := s1.setDisk (s1.disk.put addr
        (copyinFrom t phys src (piece off (n - tot)) (s1.disk.block addr) (off % bsize)).1)) rfl ?_
      split_ifs with hcopy
      · refine runs_modify_bind ?_
        have hle : piece off (n - tot) ≤ n - tot := min_le_left _ _
        have hrest := Nat.sub_add_eq n tot (piece off (n - tot))
        refine (ih ip1 (src + piece off (n - tot)) (off + piece off (n - tot))
          (tot + piece off (n - tot)) (by rw [hrest]; exact nblocks_step hc) (by omega) _).mono ?_
        rintro ⟨ip2, off', tot'⟩ s2 ⟨⟨S, hcard, hlog2⟩, hind2⟩
        dsimp only at hlog2 hind2 ⊢
        refine ⟨⟨insert addr S, (Finset.card_insert_le _ _).trans (Nat.succ_le_succ hcard),
          fun x hx => ?_⟩, fun hne => ?_⟩
        · rw [Finset.mem_insert]
          rcases hlog2 x hx with hx | hx | hx | hx
          · rcases Finset.mem_insert.1 hx with hx | hx
            · exact .inr (.inl (.inl hx))
            · rcases hlog x hx with hx | hx | ⟨hx, hx0⟩ | hx
              · exact .inl hx
              · exact .inr (.inl (.inl hx))
              · exact .inr (.inr (.inl ⟨hx.trans (hind2 (hx ▸ hx0)).symm, hx0⟩))
              · exact .inr (.inr (.inr hx))
          · exact .inr (.inl (.inr hx))
          · exact .inr (.inr (.inl hx))
          · exact .inr (.inr (.inr hx))
        · have hsame := hind hne
          rw [hind2 (by rwa [hsame]), hsame]
      · exact .pure ⟨hone, hind⟩

theorem writei_logs (inum : ℕ) (ip : Dinode) (src off n : ℕ) (s : Cached) :
    Runs (writei lay t phys inum ip src off n) s fun r s' =>
      ∃ S : Finset ℕ, S.card ≤ nblocks off n ∧ ∀ x ∈ s'.log,
        x ∈ s.log ∨ x ∈ S ∨ x = r.1.addrs ndirect ∨ x = lay.iblock inum ∨ Bitmap lay x := by
  unfold writei
  split_ifs with h1 h2
  · exact .pure ⟨∅, Nat.zero_le _, fun x hx => .inl hx⟩
  · exact .pure ⟨∅, Nat.zero_le _, fun x hx => .inl hx⟩
  · refine .bind (writeLoop_logs n _ ip src off 0 rfl (by omega) s) ?_
    rintro ⟨ip1, off', tot⟩ s1 ⟨⟨S, hcard, hlog⟩, -⟩
    refine ⟨_, _, rfl, S, hcard, fun x hx => ?_⟩
    have hsize : (if ip1.size < off' then ip1.setSize off' else ip1).addrs = ip1.addrs := by
      split_ifs <;> rfl
    dsimp only at hlog ⊢
    rw [hsize]
    rcases Finset.mem_insert.1 hx with hx | hx
    · exact .inr (.inr (.inr (.inl hx)))
    · rcases hlog x hx with hx | hx | hx | hx
      · exact .inl hx
      · exact .inr (.inl hx)
      · exact .inr (.inr (.inl hx.1))
      · exact .inr (.inr (.inr (.inr hx)))

end Logged

open Logged

theorem nblocks_piece {n : ℕ} (hn : n ≤ maxPiece) (off : ℕ) : nblocks off n ≤ 4 := by
  rw [maxPiece_eq] at hn
  unfold nblocks bsize
  split_ifs <;> omega

theorem writeSection_fits (hsize : lay.size ≤ bpb) (inum addr : ℕ) {n : ℕ} (hn : n ≤ maxPiece)
    (s : Filing) : Runs (writeSection lay inum addr n) s fun r _ => r.2.card ≤ maxopblocks := by
  -- with one block of bits, `BBLOCK` is the same for every block
  have hbitmap : ∀ x, Bitmap lay x → x = lay.bmapstart := by
    rintro x ⟨b, hb, rfl⟩
    rw [Layout.bblock, Nat.div_eq_of_lt (lt_of_lt_of_le hb hsize), zero_add]
  unfold writeSection
  refine runs_modify_bind (runs_get_bind ?_)
  refine .bind (P := fun _ s' => s'.cache.log.card ≤ maxopblocks)
    (Runs.zoom (writei_logs inum _ addr _ n _) ?_) fun r s' hcard => ?_
  · rintro r c ⟨S, hcard, hlog⟩
    have hsub : c.log ⊆
        insert (r.1.addrs ndirect) (insert (lay.iblock inum) (insert lay.bmapstart S)) := by
      intro x hx
      simp only [Finset.mem_insert]
      rcases hlog x hx with hx | hx | hx | hx | hx
      · exact absurd hx (Finset.notMem_empty x)
      · exact .inr (.inr (.inr hx))
      · exact .inl hx
      · exact .inr (.inl hx)
      · exact .inr (.inr (.inl (hbitmap x hx)))
    have hpiece := nblocks_piece hn s.off
    have hten : maxopblocks = 10 := rfl
    calc c.log.card ≤ S.card + 1 + 1 + 1 := by
          refine (Finset.card_le_card hsub).trans ((Finset.card_insert_le _ _).trans ?_)
          refine Nat.succ_le_succ ((Finset.card_insert_le _ _).trans ?_)
          exact Nat.succ_le_succ (Finset.card_insert_le _ _)
      _ ≤ 4 + 1 + 1 + 1 := by
          have : S.card ≤ nblocks s.off n := hcard
          omega
      _ ≤ maxopblocks := by omega
  · exact runs_modify_bind (runs_get_bind (.pure hcard))

theorem filewriteLoop_fits (hsize : lay.size ≤ bpb) (inum : ℕ) (other : ℕ → Filing → Filing)
    (addr : ℕ) (n : ℤ) (i : ℕ) (s : Filing) :
    Runs (filewriteLoop lay inum other addr n i) s fun r _ => ∀ log ∈ r.2, log.card ≤ maxopblocks := by
  induction h : n.toNat - i using Nat.strong_induction_on generalizing i s with
  | h k ih =>
    unfold filewriteLoop
    by_cases hi : (i : ℤ) < n
    · rw [dif_pos hi]
      refine runs_modify_bind ?_
      have hpos : 0 < maxPiece := by decide
      refine .bind (writeSection_fits hsize inum _ (min_le_right _ _) _) ?_
      rintro ⟨r, log⟩ s1 hcard
      dsimp only at hcard ⊢
      split_ifs with hr
      · refine .bind (ih _ (by omega) (i + min (n.toNat - i) maxPiece) s1 rfl) ?_
        rintro ⟨ret, logs⟩ s2 hlogs
        apply Runs.pure
        intro l hl
        rcases mem_cons.1 hl with rfl | hl
        · exact hcard
        · exact hlogs l hl
      · apply Runs.pure
        intro l hl
        rw [mem_singleton] at hl
        exact hl ▸ hcard
    · rw [dif_neg hi]
      exact Runs.pure fun l hl => absurd hl not_mem_nil

/-- Every section of `filewrite` logs no more blocks than `begin_op` has reserved. -/
theorem filewrite_fits_reservation (hsize : lay.size ≤ bpb) (inum : ℕ)
    (other : ℕ → Filing → Filing) (writable : Bool) (addr : ℕ) (n : ℤ) (s : Filing) :
    Runs (filewrite lay inum other writable addr n) s fun r _ =>
      ∀ log ∈ r.2, log.card ≤ maxopblocks := by
  unfold filewrite
  cases writable with
  | false => exact .pure fun l hl => absurd hl not_mem_nil
  | true => exact filewriteLoop_fits hsize inum other addr n 0 s

def smallLayout : Layout where
  toSuper := smallSuper
  inodestart := 0
  bmapstart := 1
  inode_lt := by decide
  bmap_lt := by decide

theorem filewrite_fits_reservation_small :
    smallLayout.size ≤ bpb ∧ ∀ t phys, Runs (filewrite smallLayout 1 (fun _ => id) true 0 5000)
      ⟨⟨smallDisk 2, smallDisk 2, ∅⟩, .fresh .file, 0, t, phys⟩
      fun r _ => ∀ log ∈ r.2, log.card ≤ maxopblocks :=
  ⟨by decide, fun _ _ => filewrite_fits_reservation (by decide) ..⟩

end Xv6MallocLab.FileSystem
