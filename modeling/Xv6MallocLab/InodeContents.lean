import Xv6MallocLab.BlockCounts

/-!
# Reading and writing the contents of an inode

An inode is in order beside a rest `R` when its places are marked, it has a block for
every index below its size, and its size is one a file can have.  A write keeps it in
order wherever it stops.
-/

namespace Xv6MallocLab.FileSystem

open ByteMemory Function

variable {sb : Super} {d d' : Disk} {ip ip' : Dinode} {R : ℕ → ℕ} {W : ℕ → Prop}

def Dinode.Full (block : ℕ → Memory) (ip : Dinode) (lim : ℕ) : Prop :=
  ∀ bn, bn * bsize < lim → ip.place block bn ≠ 0

structure InOrder (sb : Super) (R : ℕ → ℕ) (d : Disk) (ip : Dinode) : Prop where
  marked : Marked sb d (R + ip.uses d.block)
  full : ip.Full d.block ip.size
  small : ip.size ≤ maxfile * bsize

theorem bsize_pos : 0 < bsize := by decide

variable {bn lim off r o n : ℕ}

theorem index_lt (h : bn * bsize < lim) (hlim : lim ≤ maxfile * bsize) : bn < maxfile := by
  have := lt_of_lt_of_le h hlim
  exact Nat.lt_of_mul_lt_mul_right this

theorem Grown.full (h : Grown R W d ip d' ip') (hlim : lim ≤ maxfile * bsize)
    (hfull : ip.Full d.block lim) : ip'.Full d'.block lim := by
  intro bn hbn
  rw [h.keeps bn (index_lt hbn hlim) (hfull bn hbn)]
  exact hfull bn hbn

theorem put_block_self (b : ℕ) (m : Memory) : (d.put b m).block b = m := update_self ..

theorem put_block_of_ne {b b' : ℕ} (h : b' ≠ b) (m : Memory) : (d.put b m).block b' = d.block b' :=
  update_of_ne h ..

section

variable (h : Marked sb d (R + ip.uses d.block))

include h

theorem place_ne_indirect (hbn : bn < maxfile) (hne : ip.place d.block bn ≠ 0) :
    ip.place d.block bn ≠ ip.addrs ndirect := by
  intro heq
  have hle := le_trans (Nat.le_add_left _ _) (h.le_one (ip.place d.block bn))
  have := place_inj hle (by omega) (Nat.lt_succ_self maxfile) hne (by rw [place_last, heq])
  omega

theorem place_put (hbn : bn < maxfile) (hne : ip.place d.block bn ≠ 0) (m : Memory) (q : ℕ) :
    ip.place (d.put (ip.place d.block bn) m).block q = ip.place d.block q := by
  have hkeep : (d.put (ip.place d.block bn) m).block (ip.addrs ndirect) =
      d.block (ip.addrs ndirect) :=
    update_of_ne (place_ne_indirect h hbn hne).symm ..
  unfold Dinode.place at hkeep ⊢
  rw [hkeep]

theorem uses_put (hbn : bn < maxfile) (hne : ip.place d.block bn ≠ 0) (m : Memory) :
    ip.uses (d.put (ip.place d.block bn) m).block = ip.uses d.block := by
  simp only [Dinode.uses, place_put h hbn hne]

theorem byteAt_put (hbn : bn < maxfile) (hne : ip.place d.block bn ≠ 0) (m : Memory)
    (hoff : off < maxfile * bsize) :
    ip.byteAt (d.put (ip.place d.block bn) m).block off =
      if off / bsize = bn then m (off % bsize) else ip.byteAt d.block off := by
  have hlt := div_lt_maxfile hoff
  simp only [Dinode.byteAt, place_put h hbn hne]
  by_cases hq : off / bsize = bn
  · rw [hq, if_neg hne, if_pos rfl, put_block_self]
  · rw [if_neg hq]
    by_cases hzero : ip.place d.block (off / bsize) = 0
    · rw [if_pos hzero, if_pos hzero]
    · have hne' : ip.place d.block (off / bsize) ≠ ip.place d.block bn := by
        intro heq
        have hle := le_trans (Nat.le_add_left _ _) (h.le_one (ip.place d.block bn))
        exact hq (place_inj hle (by omega) (by omega) hne heq)
      rw [if_neg hzero, if_neg hzero, put_block_of_ne hne']

theorem grown_put (hbn : bn < maxfile) (hne : ip.place d.block bn ≠ 0) {m : Memory}
    (hm : ∀ off, off / bsize = bn → ¬W off →
      m (off % bsize) = d.block (ip.place d.block bn) (off % bsize)) :
    Grown R W d ip (d.put (ip.place d.block bn) m) ip := by
  refine ⟨rfl, rfl, fun b hb => ?_, fun off hoff hW => ?_, fun q _ _ => place_put h hbn hne m q⟩
  · apply update_of_ne
    rintro rfl
    have hpos := uses_pos _ (by omega) hne
    have hle := h.le_one (ip.place d.block bn)
    rw [Pi.add_apply] at hle
    omega
  · rw [byteAt_put h hbn hne m hoff]
    by_cases hq : off / bsize = bn
    · rw [if_pos hq, hm off hq hW, Dinode.byteAt, hq, if_neg hne]
    · rw [if_neg hq]

end

def piece (off r : ℕ) : ℕ := min r (bsize - off % bsize)

theorem piece_pos (off : ℕ) (hr : 0 < r) : 0 < piece off r := by
  have := Nat.mod_lt off bsize_pos
  simp only [piece]
  omega

variable {c inum off' extra : ℕ} {src : Source}

theorem nblocks_pos_iff (h : c + 1 = nblocks off r) : 0 < r := by
  rw [nblocks] at h
  split at h <;> omega

theorem nblocks_step (h : c + 1 = nblocks off r) :
    c = nblocks (off + piece off r) (r - piece off r) := by
  have hr := nblocks_pos_iff h
  rw [nblocks, if_neg (by omega)] at h
  unfold nblocks piece bsize at *
  split_ifs <;> omega

theorem div_of_mem_piece (off r : ℕ) (hlo : off ≤ o) (hhi : o < off + piece off r) :
    o / bsize = off / bsize ∧ o % bsize = off % bsize + (o - off) := by
  simp only [piece, bsize] at *
  omega

theorem mem_piece (hdiv : o / bsize = off / bsize) (hlo : off % bsize ≤ o % bsize)
    (hhi : o % bsize < off % bsize + piece off r) : off ≤ o ∧ o < off + piece off r := by
  have h1 := Nat.div_add_mod o bsize
  have h2 := Nat.div_add_mod off bsize
  rw [hdiv] at h1
  omega

def Source.Faulty (src : Source) : Prop := ∃ t, (src.fault t).isSome

/-- How far a write has come that started at `off` with `tot` of `n` bytes done. -/
structure Progress (src : Source) (off n tot off' tot' : ℕ) : Prop where
  low : off ≤ off'
  high : off' ≤ off + (n - tot)
  count : tot' = tot + (off' - off)
  stop : off' = off ∨ off' % bsize = 0 ∨ off' = off + (n - tot)

theorem Progress.start (src : Source) (off n tot : ℕ) : Progress src off n tot off tot :=
  ⟨le_rfl, Nat.le_add_right _ _, by omega, .inl rfl⟩

/-- How the loop of `writei` ends at `off'` with `tot'` of `n` bytes done, and how many
bytes it has put behind that point. -/
inductive Halted (sb : Super) (src : Source) (n off' tot' : ℕ) (d' : Disk) (ip' : Dinode) : ℕ → Prop
  | done (hdone : n ≤ tot') : Halted sb src n off' tot' d' ip' 0
  | noBlock (hlt : tot' < n) (hnone : d'.exhausted sb) (hplace : ip'.place d'.block (off' / bsize) = 0) :
      Halted sb src n off' tot' d' ip' 0
  | fault {j : ℕ} (hlt : tot' < n) (hfault : src.fault tot' = some j)
      (hplace : ip'.place d'.block (off' / bsize) ≠ 0) :
      Halted sb src n off' tot' d' ip' (min j (piece off' (n - tot')))

structure LoopEnd (sb : Super) (R : ℕ → ℕ) (src : Source) (n off tot : ℕ) (d : Disk) (ip : Dinode)
    (off' tot' extra : ℕ) (d' : Disk) (ip' : Dinode) : Prop where
  marked : Marked sb d' (R + ip'.uses d'.block)
  full : ip'.Full d'.block off'
  progress : Progress src off n tot off' tot'
  grown : Grown R (fun o => off ≤ o ∧ o < off' + extra) d ip d' ip'
  bytes : ∀ o, off ≤ o → o < off' + extra → ip'.byteAt d'.block o = src.data (tot + (o - off))
  halted : Halted sb src n off' tot' d' ip' extra
  places : ∀ q < maxfile, q < off / bsize ∨ off' / bsize < q →
    ip'.place d'.block q = ip.place d.block q
  indirect : off' / bsize < ndirect ∨ ip.addrs ndirect ≠ 0 → ip'.addrs ndirect = ip.addrs ndirect

section

variable (h : Marked sb d (R + ip.uses d.block))

include h

variable {j : ℕ}

theorem grown_blit (data : Memory) (tot : ℕ) (hbn : off / bsize < maxfile)
    (hne : ip.place d.block (off / bsize) ≠ 0) (hj : j ≤ piece off r) :
    Grown R (fun o => off ≤ o ∧ o < off + j) d ip (d.put (ip.place d.block (off / bsize))
      (blit (d.block (ip.place d.block (off / bsize))) (off % bsize) j data tot)) ip := by
  refine grown_put h hbn hne fun o ho hnot => ?_
  rw [blit, if_neg]
  rintro ⟨hlo, hhi⟩
  have hin := mem_piece (r := r) ho hlo (by omega)
  have h1 := Nat.div_add_mod o bsize
  have h2 := Nat.div_add_mod off bsize
  rw [ho] at h1
  exact hnot ⟨hin.1, by omega⟩

theorem byteAt_blit {tot : ℕ} {data : Memory} (hbn : off / bsize < maxfile)
    (hne : ip.place d.block (off / bsize) ≠ 0) (hj : j ≤ piece off r) (hlo : off ≤ o)
    (hhi : o < off + j) (hmax : o < maxfile * bsize) :
    ip.byteAt (d.put (ip.place d.block (off / bsize))
      (blit (d.block (ip.place d.block (off / bsize))) (off % bsize) j data tot)).block o =
      data (tot + (o - off)) := by
  obtain ⟨hdiv, hmod⟩ := div_of_mem_piece off r hlo (by omega)
  rw [byteAt_put h hbn hne _ hmax, if_pos hdiv, blit, if_pos (by omega), hmod,
    Nat.add_sub_cancel_left]

theorem full_put (hbn : off / bsize < maxfile) (hne : ip.place d.block (off / bsize) ≠ 0)
    (hfull : ip.Full d.block off) (m : Memory) (r : ℕ) :
    ip.Full (d.put (ip.place d.block (off / bsize)) m).block (off + piece off r) := by
  intro bn hlt
  rw [place_put h hbn hne]
  by_cases hlow : bn * bsize < off
  · exact hfull bn hlow
  · have heq : bn = off / bsize := by
      simp only [piece, bsize] at *
      omega
    rw [heq]
    exact hne

end

theorem writeLoop_runs (src : Source) (n : ℕ) (I : ℕ → ℕ → Prop)
    (hI : ∀ off tot, tot < n → I off tot → src.fault tot = none →
      I (off + piece off (n - tot)) (tot + piece off (n - tot)))
    (c : ℕ) (ip : Dinode) (off tot : ℕ) {d : Disk} (hc : c = nblocks off (n - tot))
    (hend : off + (n - tot) ≤ maxfile * bsize) (hfull : ip.Full d.block off)
    (h : Marked sb d (R + ip.uses d.block)) (hstart : I off tot) :
    Runs (writeLoop (balloc sb) src c ip off n tot) d fun r d' =>
      I r.2.1 r.2.2 ∧ ∃ extra, LoopEnd sb R src n off tot d ip r.2.1 r.2.2 extra d' r.1 := by
  induction c generalizing ip off tot d with
  | zero =>
    have hdone : n - tot = 0 := by
      by_contra hr
      rw [nblocks, if_neg hr] at hc
      omega
    apply Runs.pure
    exact ⟨hstart, 0, h, hfull, .start src off n tot, .refl R _ d ip,
      fun o hlo hhi => absurd hhi (Nat.not_lt.2 hlo), .done (Nat.sub_eq_zero_iff_le.1 hdone),
      fun _ _ _ => rfl, fun _ => rfl⟩
  | succ c ih =>
    have hr := nblocks_pos_iff hc
    have hlt : tot < n := by omega
    have hoff : off ≤ maxfile * bsize := by omega
    have hbn : off / bsize < maxfile := div_lt_maxfile (by omega)
    unfold writeLoop
    refine .bind (bmap_runs (fun _ => False) hbn h) ?_
    rintro ⟨ip1, addr⟩ d1 ⟨hmark1, hgrown1, haddr, hnone, hkept⟩
    dsimp only at hmark1 hgrown1 haddr hnone hkept ⊢
    have hfull1 := hgrown1.full hoff hfull
    by_cases hzero : addr = 0
    · rw [if_pos hzero]
      apply Runs.pure
      dsimp only
      exact ⟨hstart, 0, hmark1, hfull1, .start src off n tot, hgrown1.mono fun _ => False.elim,
        fun o hlo hhi => absurd hhi (Nat.not_lt.2 hlo),
        .noBlock hlt (hnone hzero) (haddr.trans hzero),
        fun q hq hout => hkept.place q hq (by omega), hkept.indirect⟩
    · subst haddr
      rw [if_neg hzero]
      refine runs_get_bind ?_
      have hmark2 : ∀ m, Marked sb (d1.put (ip1.place d1.block (off / bsize)) m)
          (R + ip1.uses (d1.put (ip1.place d1.block (off / bsize)) m).block) := fun m => by
        rw [uses_put hmark1 hbn hzero]
        exact hmark1.put _ _
      cases hf : src.fault tot with
      | some j =>
        refine runs_modify_bind (.pure ?_)
        dsimp only
        have hj : min j (piece off (n - tot)) ≤ piece off (n - tot) := min_le_right _ _
        have hle : piece off (n - tot) ≤ n - tot := min_le_left _ _
        have hg := grown_blit hmark1 src.data tot hbn hzero hj
        refine ⟨hstart, _, hmark2 _, hg.full hoff hfull1, .start src off n tot,
          (hgrown1.mono fun _ => False.elim).trans hg,
          fun o hlo hhi => byteAt_blit hmark1 hbn hzero hj hlo hhi (by omega),
          .fault hlt hf (by rw [place_put hmark1 hbn hzero]; exact hzero),
          fun q hq hout => ?_, hkept.indirect⟩
        rw [place_put hmark1 hbn hzero]
        exact hkept.place q hq (by omega)
      | none =>
        refine runs_modify_bind ?_
        have hpos := piece_pos off hr
        have hle : piece off (n - tot) ≤ n - tot := min_le_left _ _
        have hg := grown_blit hmark1 src.data tot hbn hzero
          (le_refl (piece off (n - tot)))
        have hrest := Nat.sub_add_eq n tot (piece off (n - tot))
        have hfull2 := full_put hmark1 hbn hzero hfull1
          (blit (d1.block (ip1.place d1.block (off / bsize)))
            (off % bsize) (piece off (n - tot)) src.data tot)
          (n - tot)
        refine (ih ip1 (off + piece off (n - tot)) (tot + piece off (n - tot)) ?_ ?_ hfull2
          (hmark2 _) (hI off tot hlt hstart hf)).mono ?_
        · rw [hrest]
          exact nblocks_step hc
        · omega
        · rintro ⟨ip2, off', tot'⟩ d2 ⟨hend', extra, hrun⟩
          dsimp only at hend' hrun ⊢
          have hlow := hrun.progress.low
          have hdiv : off / bsize ≤ (off + piece off (n - tot)) / bsize :=
            Nat.div_le_div_right (Nat.le_add_right _ _)
          have hdiv' : (off + piece off (n - tot)) / bsize ≤ off' / bsize := Nat.div_le_div_right hlow
          refine ⟨hend', extra, hrun.marked, hrun.full, ⟨by omega, ?_, ?_, ?_⟩, ?_, fun o hlo hhi => ?_,
            hrun.halted, fun q hq hout => ?_, fun hind => ?_⟩
          · have := hrun.progress.high
            omega
          · have := hrun.progress.count
            omega
          · rcases hrun.progress.stop with hs | hs | hs
            · simp only [piece, bsize] at *
              omega
            · exact .inr (.inl hs)
            · exact .inr (.inr (by omega))
          · refine ((hgrown1.mono fun _ => False.elim).trans (hg.mono fun o ho => ?_)).trans
              (hrun.grown.mono fun o ho => ?_)
            · exact ⟨ho.1, by omega⟩
            · exact ⟨by omega, ho.2⟩
          · by_cases hin : o < off + piece off (n - tot)
            · have hmax : o < maxfile * bsize := by omega
              rw [hrun.grown.bytes o hmax (by omega)]
              exact byteAt_blit hmark1 hbn hzero le_rfl hlo hin hmax
            · rw [hrun.bytes o (by omega) hhi]
              congr 1
              omega
          · rw [hrun.places q hq (by omega), place_put hmark1 hbn hzero]
            exact hkept.place q hq (by omega)
          · have hsame := hkept.indirect (hind.imp_left (by omega))
            rw [hrun.indirect (hind.imp_right (by rw [hsame]; exact id)), hsame]

structure Written (R : ℕ → ℕ) (src : Source) (off off' : ℕ) (inum : ℕ) (d : Disk) (ip : Dinode)
    (d' : Disk) (ip' : Dinode) : Prop where
  dinode : d'.dinode = update d.dinode inum ip'
  inode : ip' = { ip with size := max ip.size off', addrs := ip'.addrs }
  frame : ∀ b, R b ≠ 0 → d'.block b = d.block b
  outside : ∀ o < maxfile * bsize, ¬(off ≤ o ∧ (o < off' ∨ src.Faulty)) →
    ip'.byteAt d'.block o = ip.byteAt d.block o
  inside : ∀ o, off ≤ o → o < off' → ip'.byteAt d'.block o = src.data (o - off)

def Returned (sb : Super) (src : Source) (off n : ℕ) (d : Disk) (ip : Dinode) (r : ℤ) (off' : ℕ)
    (d' : Disk) (ip' : Dinode) : Prop :=
  (r = -1 ∧ off' = 0 ∧ ¬(off ≤ ip.size ∧ off + n ≤ maxfile * bsize) ∧ ip' = ip ∧ d' = d) ∨
    ∃ tot : ℕ, r = tot ∧ off ≤ ip.size ∧ off + n ≤ maxfile * bsize ∧
      Progress src off n 0 off' tot ∧
      (¬src.Faulty → tot < n → d'.exhausted sb ∧ ip'.place d'.block (off' / bsize) = 0)

theorem writei_refused (alloc : DiskM ℕ) (inum : ℕ) (src : Source)
    (hout : ¬(off ≤ ip.size ∧ off + n ≤ maxfile * bsize)) :
    writei alloc inum ip src off n d = .ok ((ip, -1), d) := by
  unfold writei
  split_ifs with h1 h2
  · rfl
  · rfl
  · exact absurd ⟨by omega, by omega⟩ hout

theorem writei_halts (src : Source) (I : ℕ → ℕ → Prop)
    (hI : ∀ off tot, tot < n → I off tot → src.fault tot = none →
      I (off + piece off (n - tot)) (tot + piece off (n - tot))) (hstart : I off 0)
    (hoff : off ≤ ip.size) (hend : off + n ≤ maxfile * bsize) (h : InOrder sb R d ip) :
    Runs (writei (balloc sb) inum ip src off n) d fun r d' =>
      ∃ ip1 d1 off' tot extra, LoopEnd sb R src n off 0 d ip off' tot extra d1 ip1 ∧ I off' tot ∧
        r = (ip1.setSize (max ip.size off'), (tot : ℤ)) ∧
        d' = d1.putInode inum (ip1.setSize (max ip.size off')) := by
  have hsmall : maxfile * bsize < 2 ^ 32 := by decide
  have hwrap : (off + n) % 2 ^ 32 = off + n := Nat.mod_eq_of_lt (by omega)
  have hfull : ip.Full d.block off := fun bn hbn => h.full bn (by omega)
  unfold writei
  rw [if_neg (by omega), if_neg (by omega)]
  refine .bind (writeLoop_runs src n I hI _ ip off 0 rfl (by omega) hfull h.marked hstart) ?_
  rintro ⟨ip1, off', tot⟩ d1 ⟨hinv, extra, hrun⟩
  dsimp only at hinv hrun ⊢
  have hsz : ip1.size = ip.size := by rw [hrun.grown.inode]
  -- both branches of the last test give the larger size
  have hlast : (if ip1.size < off' then ip1.setSize off' else ip1) =
      ip1.setSize (max ip.size off') := by
    split
    · rw [max_eq_right (by omega)]
    · rw [max_eq_left (by omega), ← hsz]
      rfl
  refine runs_modify_bind (.pure ?_)
  rw [hlast]
  exact ⟨ip1, d1, off', tot, extra, hrun, hinv, rfl, rfl⟩

theorem LoopEnd.inOrder {tot : ℕ} (hrun : LoopEnd sb R src n off 0 d ip off' tot extra d' ip')
    (hend : off + n ≤ maxfile * bsize) (h : InOrder sb R d ip) (inum : ℕ) :
    InOrder sb R (d'.putInode inum (ip'.setSize (max ip.size off')))
      (ip'.setSize (max ip.size off')) := by
  refine ⟨hrun.marked.putInode _ _, fun bn hbn => ?_, ?_⟩
  · rcases lt_max_iff.1 hbn with hlt | hlt
    · exact hrun.grown.full h.small h.full bn hlt
    · exact hrun.full bn hlt
  · have hhigh := hrun.progress.high
    exact max_le h.small (by omega)

theorem Halted.extra_eq {tot' : ℕ} (h : Halted sb src n off' tot' d ip extra) (hsrc : ¬src.Faulty) :
    extra = 0 := by
  cases h with
  | done _ => rfl
  | noBlock _ _ _ => rfl
  | fault hlt hfault hplace => exact absurd ⟨_, by rw [hfault]; rfl⟩ hsrc

theorem writei_runs (src : Source) (off n : ℕ) (hclean : d.dinode inum = ip)
    (h : InOrder sb R d ip) :
    Runs (writei (balloc sb) inum ip src off n) d fun r d' =>
      InOrder sb R d' r.1 ∧ ∃ off', Written R src off off' inum d ip d' r.1 ∧
        Returned sb src off n d ip r.2 off' d' r.1 := by
  by_cases hin : off ≤ ip.size ∧ off + n ≤ maxfile * bsize
  · refine (writei_halts src (fun _ _ => True) (fun _ _ _ _ _ => trivial) trivial hin.1 hin.2 h).mono ?_
    rintro _ _ ⟨ip1, d1, off', tot, extra, hrun, -, rfl, rfl⟩
    refine ⟨hrun.inOrder hin.2 h inum, off', ⟨?_, ?_, hrun.grown.frame, fun o ho hnot => ?_, ?_⟩,
      Or.inr ⟨tot, rfl, hin.1, hin.2, hrun.progress, fun hno hlt => ?_⟩⟩
    · exact congrArg (fun f => update f inum _) hrun.grown.dinode
    · rw [hrun.grown.inode]
      rfl
    · refine hrun.grown.bytes o ho fun hmem => hnot ⟨hmem.1, ?_⟩
      by_cases hsrc : src.Faulty
      · exact .inr hsrc
      · rw [hrun.halted.extra_eq hsrc] at hmem
        exact .inl hmem.2
    · intro o hlo hhi
      have := hrun.bytes o hlo (by omega)
      rwa [zero_add] at this
    · cases hrun.halted with
      | done hdone => exact absurd hdone (Nat.not_le.2 hlt)
      | noBlock _ hnone hplace => exact ⟨hnone, hplace⟩
      | fault _ hfault _ => exact absurd ⟨_, by rw [hfault]; rfl⟩ hno
  · refine ⟨_, _, writei_refused _ inum src hin, h, 0,
      ⟨?_, ?_, fun _ _ => rfl, fun _ _ _ => rfl, fun _ _ => nofun⟩, .inl ⟨rfl, rfl, hin, rfl, rfl⟩⟩
    · rw [← hclean, update_eq_self]
    · simp

theorem readLoop_found (copy : ℕ → Bool) (hlim : lim ≤ maxfile * bsize)
    (hfull : ip.Full d.block lim) (n c off tot : ℕ) (buf : Memory)
    (hc : c = nblocks off (n - tot)) (hend : off + (n - tot) ≤ lim) :
    ∃ r m, (∀ alloc, readLoop alloc copy c ip off n tot buf d = .ok ((ip, r, m), d)) ∧
      ((∀ t, copy t = true) → r = (tot + (n - tot) : ℕ) ∧
        ∀ i, m i = if tot ≤ i ∧ i < tot + (n - tot) then ip.byteAt d.block (off + (i - tot))
          else buf i) := by
  induction c generalizing off tot buf with
  | zero =>
    have hr : n - tot = 0 := by
      by_contra hr
      rw [nblocks, if_neg hr] at hc
      omega
    refine ⟨tot, buf, fun _ => rfl, fun _ => ⟨by rw [hr]; rfl, fun i => ?_⟩⟩
    rw [if_neg (by omega)]
  | succ c ih =>
    have hr := nblocks_pos_iff hc
    have hstart : off / bsize * bsize < lim := by
      have := Nat.div_mul_le_self off bsize
      omega
    have hne := hfull _ hstart
    have hbn := index_lt hstart hlim
    by_cases hcopy : copy tot = true
    · have hpos := piece_pos off hr
      have hle : piece off (n - tot) ≤ n - tot := min_le_left _ _
      have hrest := Nat.sub_add_eq n tot (piece off (n - tot))
      obtain ⟨r, m, hrun, hres⟩ := ih (off + piece off (n - tot)) (tot + piece off (n - tot))
        (blit buf tot (piece off (n - tot)) (d.block (ip.place d.block (off / bsize))) (off % bsize))
        (by rw [hrest]; exact nblocks_step hc) (by omega)
      refine ⟨r, m, fun alloc => ?_, fun hall => ?_⟩
      · rw [readLoop]
        change (bmap alloc ip (off / bsize) d >>= _ : Except Panic _) = _
        rw [bmap_found alloc hbn hne]
        change (if ip.place d.block (off / bsize) = 0 then _ else _ : DiskM _) d = _
        rw [if_neg hne, hcopy]
        exact hrun alloc
      · obtain ⟨hcount, hbytes⟩ := hres hall
        refine ⟨by rw [hcount]; congr 1; omega, fun i => ?_⟩
        rw [hbytes i, blit]
        by_cases hin : tot ≤ i ∧ i < tot + piece off (n - tot)
        · obtain ⟨hdiv, hmod⟩ := div_of_mem_piece off (n - tot) (o := off + (i - tot))
            (by omega) (by omega)
          rw [if_neg (by omega), if_pos hin, if_pos (by omega), Dinode.byteAt, hdiv, if_neg hne, hmod]
          congr 1
          omega
        · rw [if_neg hin]
          split_ifs with h1 h2 h2
          · congr 1
            omega
          · omega
          · omega
          · rfl
    · refine ⟨-1, buf, fun alloc => ?_, fun hall => absurd (hall tot) hcopy⟩
      rw [readLoop]
      change (bmap alloc ip (off / bsize) d >>= _ : Except Panic _) = _
      rw [bmap_found alloc hbn hne]
      change (if ip.place d.block (off / bsize) = 0 then _ else _ : DiskM _) d = _
      rw [if_neg hne]
      simp only [hcopy, Bool.not_false]
      rfl

theorem readi_found (hfull : ip.Full d.block ip.size) (hsmall : ip.size ≤ maxfile * bsize)
    (off n : ℕ) (copy : ℕ → Bool) :
    ∃ r m, (∀ alloc, readi alloc ip off n copy d = .ok ((ip, r, m), d)) ∧
      ((∀ t, copy t = true) → off + n < 2 ^ 32 → r = (min n (ip.size - off) : ℕ) ∧
        ∀ i < min n (ip.size - off), m i = ip.byteAt d.block (off + i)) := by
  by_cases hout : ip.size < off ∨ (off + n) % 2 ^ 32 < off
  · refine ⟨0, fun _ => 0, fun alloc => ?_, fun _ hwrap => ?_⟩
    · rw [readi, if_pos hout]
      rfl
    · rw [Nat.mod_eq_of_lt hwrap] at hout
      have hzero : min n (ip.size - off) = 0 := by omega
      rw [hzero]
      exact ⟨rfl, fun i hi => absurd hi (Nat.not_lt_zero i)⟩
  · -- the test against the size leaves the shorter of the two lengths
    have hlen : (if ip.size < off + n then ip.size - off else n) = min n (ip.size - off) := by
      split <;> omega
    obtain ⟨r, m, hrun, hres⟩ := readLoop_found copy hsmall hfull (min n (ip.size - off)) _ off 0
      (fun _ => 0) rfl (by omega)
    refine ⟨r, m, fun alloc => ?_, fun hall _ => ?_⟩
    · rw [readi, if_neg hout, hlen]
      exact hrun alloc
    · obtain ⟨hcount, hbytes⟩ := hres hall
      refine ⟨by rw [hcount, zero_add, Nat.sub_zero], fun i hi => ?_⟩
      rw [hbytes, if_pos (by omega), Nat.sub_zero]

end Xv6MallocLab.FileSystem
