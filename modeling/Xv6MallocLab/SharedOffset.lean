import Mathlib.Data.List.GetD
import Xv6MallocLab.BlockOwnership

/-!
# Writers that share a file structure

`filewrite` writes a request in pieces, each under the inode's lock and at the offset in
the shared `struct file`.  The history lists the pieces in the order of their writes.
-/

namespace Xv6MallocLab.FileSystem

open ByteMemory Function List

def maxopblocks : ℕ := 10

def maxPiece : ℕ := (maxopblocks - 1 - 1 - 2) / 2 * bsize

def strict (alloc : DiskM ℕ) : DiskM ℕ := do
  let b ← alloc
  if b = 0 then throw .outOfBlocks else return b

structure Request where
  data : Memory
  n : ℤ

def Request.pieceLen (q : Request) (i : ℕ) : ℕ := min (q.n.toNat - i) maxPiece

def Request.source (q : Request) (i : ℕ) : Source := .kernel fun t => q.data (i + t)

/-- Where a process is in `filewrite`: before the loop test, behind `ilock`, behind
`writei`, behind the update of `f->off`. -/
inductive Stage
  | loop | locked | wrote (r : ℤ) | moved (r : ℤ)

/-- A process with the calls it still makes, the current one first, and the results of
those that returned. -/
structure Writer where
  todo : List Request
  i : ℕ
  stage : Stage
  returned : List ℤ

def Writer.setStage (x : Writer) (stage : Stage) : Writer := { x with stage := stage }

def Writer.next (x : Writer) (r : ℕ) : Writer := { x with i := x.i + r, stage := .loop }

def Writer.return (x : Writer) (ret : ℤ) : Writer where
  todo := x.todo.tail
  i := 0
  stage := .loop
  returned := x.returned ++ [ret]

structure Shared (P : Type) where
  disk : Disk
  ip : Dinode
  off : ℕ
  holder : Option P
  writer : P → Writer

variable {P : Type} [DecidableEq P]

def Shared.setWriter (s : Shared P) (p : P) (x : Writer) : Shared P :=
  { s with writer := update s.writer p x }

theorem setWriter_writer (s : Shared P) (p p' : P) (x : Writer) :
    (s.setWriter p x).writer p' = if p' = p then x else s.writer p' :=
  update_apply ..

def Shared.setHolder (s : Shared P) (holder : Option P) : Shared P := { s with holder := holder }

def Shared.setOff (s : Shared P) (off : ℕ) : Shared P := { s with off := off }

def Shared.setFile (s : Shared P) (d : Disk) (ip : Dinode) : Shared P := { s with disk := d, ip := ip }

def Request.chunk (q : Request) (i r : ℕ) : List UInt8 := (List.range r).map fun t => q.data (i + t)

inductive Step (sb : Super) (inum : ℕ) (s : Shared P) (p : P) :
    Shared P → List (P × List UInt8) → Prop
  | finish {q : Request} {rest : List Request} (htodo : (s.writer p).todo = q :: rest)
      (hstage : (s.writer p).stage = .loop) (hi : ¬((s.writer p).i : ℤ) < q.n) :
      Step sb inum s p (s.setWriter p ((s.writer p).return
        (if ((s.writer p).i : ℤ) = q.n then q.n else -1))) []
  | lock {q : Request} {rest : List Request} (htodo : (s.writer p).todo = q :: rest)
      (hstage : (s.writer p).stage = .loop) (hi : ((s.writer p).i : ℤ) < q.n)
      (hfree : s.holder = none) :
      Step sb inum s p ((s.setHolder (some p)).setWriter p ((s.writer p).setStage .locked)) []
  | write {q : Request} {rest : List Request} {d' : Disk} {ip' : Dinode} {r : ℤ}
      (htodo : (s.writer p).todo = q :: rest) (hstage : (s.writer p).stage = .locked)
      (hrun : writei (strict (balloc sb)) inum s.ip (q.source (s.writer p).i) s.off
        (q.pieceLen (s.writer p).i) s.disk = .ok ((ip', r), d')) :
      Step sb inum s p ((s.setFile d' ip').setWriter p ((s.writer p).setStage (.wrote r)))
        [(p, q.chunk (s.writer p).i r.toNat)]
  | move {r : ℤ} (hstage : (s.writer p).stage = .wrote r) :
      Step sb inum s p ((s.setOff (if 0 < r then (s.off + r.toNat) % 2 ^ 32 else s.off)).setWriter p
        ((s.writer p).setStage (.moved r))) []
  | unlock {q : Request} {rest : List Request} {r : ℤ} (htodo : (s.writer p).todo = q :: rest)
      (hstage : (s.writer p).stage = .moved r) :
      Step sb inum s p ((s.setHolder none).setWriter p
        (if r = q.pieceLen (s.writer p).i then (s.writer p).next r.toNat
        else (s.writer p).return (-1))) []

inductive Interleaving (sb : Super) (inum : ℕ) (s0 : Shared P) :
    Shared P → List (P × List UInt8) → Prop
  | refl : Interleaving sb inum s0 s0 []
  | step {s s' : Shared P} {h e : List (P × List UInt8)} {p : P} (hs : Interleaving sb inum s0 s h)
      (hstep : Step sb inum s p s' e) : Interleaving sb inum s0 s' (h ++ e)

def Shared.start (d : Disk) (ip : Dinode) (off : ℕ) (calls : P → List Request) : Shared P where
  disk := d
  ip := ip
  off := off
  holder := none
  writer := fun p => { todo := calls p, i := 0, stage := .loop, returned := [] }

def Request.pieces (q : Request) (i : ℕ) : List (List UInt8) :=
  (List.range ((q.n.toNat - i + maxPiece - 1) / maxPiece)).map fun j =>
    q.chunk (i + j * maxPiece) (q.pieceLen (i + j * maxPiece))

theorem maxPiece_eq : maxPiece = 3072 := rfl

variable {q : Request} {i a off : ℕ} {src : Source} {r : ℤ}

theorem pieces_cons (h : (i : ℤ) < q.n) :
    q.pieces i = q.chunk i (q.pieceLen i) :: q.pieces (i + q.pieceLen i) := by
  have hpos : i < q.n.toNat := by omega
  obtain ⟨k, hk⟩ : ∃ k, (q.n.toNat - i + maxPiece - 1) / maxPiece = k + 1 := by
    refine ⟨(q.n.toNat - i + maxPiece - 1) / maxPiece - 1, ?_⟩
    simp only [maxPiece_eq]
    omega
  have hk' : (q.n.toNat - (i + q.pieceLen i) + maxPiece - 1) / maxPiece = k := by
    simp only [maxPiece_eq, Request.pieceLen] at hk ⊢
    omega
  rw [Request.pieces, Request.pieces, hk, hk', range_succ_eq_map, map_cons, map_map,
    zero_mul, add_zero]
  congr 1
  refine map_congr_left fun j hj => ?_
  have hlast : i + (j + 1) * maxPiece = i + q.pieceLen i + j * maxPiece := by
    have hj' := mem_range.1 hj
    simp only [maxPiece_eq, Request.pieceLen] at hk ⊢
    omega
  simp only [comp_apply, Nat.succ_eq_add_one, hlast]

theorem pieces_end (h : ¬(i : ℤ) < q.n) : q.pieces i = [] := by
  have hzero : (q.n.toNat - i + maxPiece - 1) / maxPiece = 0 := by
    simp only [maxPiece_eq]
    omega
  rw [Request.pieces, hzero]
  rfl

def Writer.left (x : Writer) : List (List UInt8) :=
  match x.todo with
  | [] => []
  | q :: rest =>
    (match x.stage with
    | .wrote r | .moved r => q.pieces (x.i + r.toNat)
    | _ => q.pieces x.i) ++ (rest.map fun q => q.pieces 0).flatten

def mine (p : P) (h : List (P × List UInt8)) : List (List UInt8) :=
  (h.filter fun e => e.1 = p).map Prod.snd

def written (h : List (P × List UInt8)) : List UInt8 := (h.map Prod.snd).flatten

theorem mine_append (p : P) (h e : List (P × List UInt8)) : mine p (h ++ e) = mine p h ++ mine p e := by
  simp [mine]

theorem length_written [Fintype P] (h : List (P × List UInt8)) :
    (written h).length = ∑ p, (mine p h).flatten.length := by
  induction h with
  | nil => simp [written, mine]
  | cons e h ih =>
    have hsplit : ∀ p, (mine p (e :: h)).flatten.length =
        (if e.1 = p then e.2.length else 0) + (mine p h).flatten.length := by
      intro p
      by_cases hp : e.1 = p <;> simp [mine, hp]
    simp only [hsplit, Finset.sum_add_distrib, ← ih, Finset.sum_ite_eq, Finset.mem_univ, if_true]
    simp [written]

variable {alloc : DiskM ℕ} {d d' : Disk} {ip ip' : Dinode} {R : ℕ → ℕ}

theorem strict_ok {b : ℕ} (h : strict alloc d = .ok (b, d')) : alloc d = .ok (b, d') ∧ b ≠ 0 := by
  obtain ⟨a, t, ha, hb⟩ := bind_ok h
  by_cases hzero : a = 0
  · rw [if_pos hzero] at hb
    cases hb
  · rw [if_neg hzero] at hb
    cases hb
    exact ⟨ha, hzero⟩

theorem addrOf_strict {j : ℕ} (h : addrOf (strict alloc) ip j d = .ok ((ip', a), d')) :
    addrOf alloc ip j d = .ok ((ip', a), d') ∧ a ≠ 0 := by
  unfold addrOf at h ⊢
  by_cases hzero : ip.addrs j = 0
  · rw [if_pos hzero] at h ⊢
    obtain ⟨b, t, hb, hres⟩ := bind_ok h
    obtain ⟨halloc, hne⟩ := strict_ok hb
    rw [if_neg hne] at hres
    rw [bind_of_ok halloc, if_neg hne]
    cases hres
    exact ⟨rfl, hne⟩
  · rw [if_neg hzero] at h ⊢
    cases h
    exact ⟨rfl, hzero⟩

theorem bmap_strict {bn : ℕ} (h : bmap (strict alloc) ip bn d = .ok ((ip', a), d')) :
    bmap alloc ip bn d = .ok ((ip', a), d') ∧ a ≠ 0 := by
  unfold bmap at h ⊢
  split_ifs at h ⊢ with hdir hin
  · exact addrOf_strict h
  · obtain ⟨⟨ip1, b⟩, t, hb, hres⟩ := bind_ok h
    obtain ⟨haddr, hne⟩ := addrOf_strict hb
    rw [bind_of_ok haddr]
    dsimp only at hres ⊢
    rw [if_neg hne] at hres ⊢
    obtain ⟨_, _, hget, hres⟩ := bind_ok hres
    cases hget
    rw [bind_of_ok rfl]
    by_cases hword : word (t.block b) (bn - ndirect) = 0
    · rw [if_pos hword] at hres ⊢
      obtain ⟨c, t', hc, hres⟩ := bind_ok hres
      obtain ⟨halloc, hcne⟩ := strict_ok hc
      rw [bind_of_ok halloc, if_neg hcne]
      rw [if_neg hcne] at hres
      refine ⟨hres, ?_⟩
      cases hres
      exact hcne
    · rw [if_neg hword] at hres ⊢
      refine ⟨hres, ?_⟩
      cases hres
      exact hword
  · cases h

theorem writeLoop_strict (hsrc : ∀ t, src.fault t = none) (n c : ℕ) (ip : Dinode) (off tot : ℕ)
    {off' tot' : ℕ} (hc : c = nblocks off (n - tot))
    (h : writeLoop (strict alloc) src c ip off n tot d = .ok ((ip', off', tot'), d')) :
    writeLoop alloc src c ip off n tot d = .ok ((ip', off', tot'), d') ∧
      tot' = tot + (n - tot) := by
  induction c generalizing ip off tot d with
  | zero =>
    have hr : n - tot = 0 := by
      by_contra hr
      rw [nblocks, if_neg hr] at hc
      omega
    unfold writeLoop at h ⊢
    refine ⟨h, ?_⟩
    cases h
    omega
  | succ c ih =>
    have hr := nblocks_pos_iff hc
    have hle : piece off (n - tot) ≤ n - tot := min_le_left _ _
    unfold writeLoop at h ⊢
    obtain ⟨⟨ip1, a⟩, t, hb, hres⟩ := bind_ok h
    obtain ⟨hmap, hne⟩ := bmap_strict hb
    rw [bind_of_ok hmap]
    dsimp only at hres ⊢
    rw [if_neg hne, hsrc] at hres ⊢
    have hrest := Nat.sub_add_eq n tot (piece off (n - tot))
    obtain ⟨hrun, htot⟩ := ih _ _ (tot + piece off (n - tot))
      (by rw [hrest]; exact nblocks_step hc) hres
    exact ⟨hrun, by omega⟩

theorem writei_strict (hsrc : ∀ t, src.fault t = none) {inum n : ℕ}
    (h : writei (strict alloc) inum ip src off n d = .ok ((ip', r), d')) :
    writei alloc inum ip src off n d = .ok ((ip', r), d') ∧ (r = -1 ∨ r = n) := by
  unfold writei at h ⊢
  split_ifs at h ⊢
  · cases h
    exact ⟨rfl, .inl rfl⟩
  · cases h
    exact ⟨rfl, .inl rfl⟩
  · obtain ⟨⟨ip1, off', tot⟩, t, hloop, hres⟩ := bind_ok h
    obtain ⟨hrun, htot⟩ := writeLoop_strict hsrc n _ ip off 0 (by rfl) hloop
    rw [bind_of_ok hrun]
    refine ⟨hres, .inr ?_⟩
    obtain ⟨_, _, -, hres⟩ := bind_ok hres
    cases hres
    omega

theorem length_chunk (q : Request) (i r : ℕ) : (q.chunk i r).length = r := by
  simp [Request.chunk]

theorem chunk_append (q : Request) (i r r' : ℕ) :
    q.chunk i r ++ q.chunk (i + r) r' = q.chunk i (r + r') := by
  simp only [Request.chunk, range_add, map_append, map_map, comp_def, add_assoc]

theorem flatten_pieces (q : Request) (i : ℕ) : (q.pieces i).flatten = q.chunk i (q.n.toNat - i) := by
  by_cases h : (i : ℤ) < q.n
  · have hlen : 0 < q.pieceLen i ∧ q.pieceLen i ≤ q.n.toNat - i := by
      simp only [Request.pieceLen, maxPiece_eq]
      omega
    rw [pieces_cons h, flatten_cons, flatten_pieces q (i + q.pieceLen i), chunk_append]
    congr 1
    omega
  · rw [pieces_end h, show q.n.toNat - i = 0 by omega]
    rfl
termination_by q.n.toNat - i

theorem length_flatten_calls (calls : List Request) :
    (calls.map fun q => q.pieces 0).flatten.flatten.length =
      (calls.map fun q => q.n.toNat).sum := by
  induction calls with
  | nil => rfl
  | cons q calls ih =>
    rw [map_cons, flatten_cons, flatten_append, length_append, ih,
      flatten_pieces, length_chunk, map_cons, sum_cons, Nat.sub_zero]

/-- What `writei` has done and `f->off` does not show yet. -/
def Writer.pending (x : Writer) : ℕ :=
  match x.stage with
  | .wrote r => r.toNat
  | _ => 0

def Shared.pending (s : Shared P) : ℕ :=
  match s.holder with
  | some p => (s.writer p).pending
  | none => 0

/-- The process that holds the lock is between `ilock` and `iunlock`, and its piece is
written whole. -/
structure Inside (x : Writer) : Prop where
  call : ∃ q rest, x.todo = q :: rest ∧ (x.i : ℤ) < q.n ∧
    (x.stage = .locked ∨ x.stage = .wrote (q.pieceLen x.i) ∨ x.stage = .moved (q.pieceLen x.i))

/-- The file after the history `h`, and where each process is in its calls. -/
structure Merged (sb : Super) (R : ℕ → ℕ) (inum : ℕ) (s0 s : Shared P) (h : List (P × List UInt8)) :
    Prop where
  order : InOrder sb R s.disk s.ip
  clean : s.disk.dinode inum = s.ip
  size : s.ip.size = max s0.ip.size (s0.off + (written h).length)
  bytes : ∀ o < maxfile * bsize, s.ip.byteAt s.disk.block o =
    if s0.off ≤ o ∧ o < s0.off + (written h).length then (written h).getD (o - s0.off) 0
    else s0.ip.byteAt s0.disk.block o
  off : s.off + s.pending = s0.off + (written h).length
  outside : ∀ p, s.holder ≠ some p → (s.writer p).stage = .loop
  inside : ∀ p, s.holder = some p → Inside (s.writer p)
  progress : ∀ p, mine p h ++ (s.writer p).left = (s0.writer p).left

namespace Merged

variable {sb : Super} {R : ℕ → ℕ} {inum : ℕ} {s0 s s' : Shared P} {h : List (P × List UInt8)} {p : P}

theorem not_holder (hm : Merged sb R inum s0 s h) (hstage : (s.writer p).stage = .loop) :
    s.holder ≠ some p := by
  intro hp
  obtain ⟨q, rest, -, -, hst⟩ := (hm.inside p hp).call
  rw [hstage] at hst
  rcases hst with hst | hst | hst <;> cases hst

theorem holder_of (hm : Merged sb R inum s0 s h) (hstage : (s.writer p).stage ≠ .loop) :
    s.holder = some p := by
  by_contra hp
  exact hstage (hm.outside p hp)

variable {x : Writer} {q : Request} {rest : List Request} {r : ℤ}

theorem of_writer (hm : Merged sb R inum s0 s h) (hdisk : s'.disk = s.disk) (hip : s'.ip = s.ip)
    (hwriter : s'.writer = update s.writer p x) (hleft : x.left = (s.writer p).left)
    (hoff : s'.off + s'.pending = s.off + s.pending)
    (houtside : ∀ p', s'.holder ≠ some p' → (s'.writer p').stage = .loop)
    (hinside : ∀ p', s'.holder = some p' → Inside (s'.writer p')) : Merged sb R inum s0 s' h := by
  refine ⟨?_, ?_, ?_, ?_, hoff.trans hm.off, houtside, hinside, fun p' => ?_⟩
  · rw [hdisk, hip]
    exact hm.order
  · rw [hdisk, hip]
    exact hm.clean
  · rw [hip]
    exact hm.size
  · rw [hdisk, hip]
    exact hm.bytes
  · rw [hwriter]
    by_cases hp : p' = p
    · subst hp
      rw [update_self, hleft]
      exact hm.progress p'
    · rw [update_of_ne hp]
      exact hm.progress p'

omit [DecidableEq P] in
theorem left_cons (htodo : x.todo = q :: rest) :
    x.left = (match x.stage with
      | .wrote r | .moved r => q.pieces (x.i + r.toNat)
      | _ => q.pieces x.i) ++ (rest.map fun q => q.pieces 0).flatten := by
  rw [Writer.left, htodo]

theorem left_return {ret : ℤ} (htodo : x.todo = q :: rest) :
    (x.return ret).left = (rest.map fun q => q.pieces 0).flatten := by
  simp only [Writer.left, Writer.return, htodo, tail_cons]
  cases rest with
  | nil => rfl
  | cons q' rest => rfl

theorem finish (hm : Merged sb R inum s0 s h) (htodo : (s.writer p).todo = q :: rest)
    (hstage : (s.writer p).stage = .loop) (hi : ¬((s.writer p).i : ℤ) < q.n) (ret : ℤ) :
    Merged sb R inum s0 (s.setWriter p ((s.writer p).return ret)) h := by
  have hne := hm.not_holder hstage
  have hother : ∀ p', s.holder = some p' →
      (s.setWriter p ((s.writer p).return ret)).writer p' = s.writer p' := by
    intro p' hp'
    rw [setWriter_writer, if_neg]
    rintro rfl
    exact hne hp'
  refine hm.of_writer rfl rfl rfl ?_ ?_ (fun p' hp' => ?_) fun p' hp' => ?_
  · rw [left_return htodo, left_cons htodo, hstage]
    simp only [pieces_end hi, nil_append]
  · change s.off + _ = s.off + _
    congr 1
    cases hh : s.holder with
    | none => simp only [Shared.pending, Shared.setWriter, hh]
    | some p' =>
      have := hother p' hh
      simp only [Shared.pending, Shared.setWriter, hh] at this ⊢
      rw [this]
  · rw [setWriter_writer]
    split
    · rfl
    · exact hm.outside p' hp'
  · rw [hother p' hp']
    exact hm.inside p' hp'

theorem of_holder (hm : Merged sb R inum s0 s h) (s' : Shared P) (hholder : s'.holder = some p)
    (hwriter : s'.writer = update s.writer p x) (hx : Inside x)
    (hfree : ∀ p', p' ≠ p → s.holder ≠ some p') :
    (∀ p', s'.holder ≠ some p' → (s'.writer p').stage = .loop) ∧
      ∀ p', s'.holder = some p' → Inside (s'.writer p') := by
  refine ⟨fun p' hp' => ?_, fun p' hp' => ?_⟩
  · have hne : p' ≠ p := fun heq => hp' (heq ▸ hholder)
    rw [hwriter, update_of_ne hne]
    exact hm.outside p' (hfree p' hne)
  · rw [hholder] at hp'
    cases hp'
    rw [hwriter, update_self]
    exact hx

omit [DecidableEq P] in
theorem pending_of_holder (hholder : s'.holder = some p) (hx : s'.writer p = x) :
    s'.pending = x.pending := by
  simp only [Shared.pending, hholder, hx]

theorem pending_setWriter (t : Shared P) (hp : t.holder = some p) (x : Writer) :
    (t.setWriter p x).pending = x.pending := by
  rw [Shared.pending, show (t.setWriter p x).holder = some p from hp]
  exact congrArg Writer.pending (update_self ..)

theorem lock (hm : Merged sb R inum s0 s h) (htodo : (s.writer p).todo = q :: rest)
    (hstage : (s.writer p).stage = .loop) (hi : ((s.writer p).i : ℤ) < q.n)
    (hfree : s.holder = none) :
    Merged sb R inum s0
      ((s.setHolder (some p)).setWriter p ((s.writer p).setStage .locked)) h := by
  have hnone : ∀ p', p' ≠ p → s.holder ≠ some p' := by
    intro p' _
    rw [hfree]
    exact nofun
  have hx : Inside ((s.writer p).setStage .locked) := ⟨q, rest, htodo, hi, .inl rfl⟩
  obtain ⟨hout, hin⟩ := hm.of_holder (p := p) ((s.setHolder (some p)).setWriter p _) rfl rfl hx hnone
  refine hm.of_writer rfl rfl rfl ?_ ?_ hout hin
  · rw [left_cons (x := (s.writer p).setStage .locked) htodo, left_cons htodo, hstage]
    rfl
  · rw [pending_setWriter (s.setHolder (some p)) rfl, Shared.pending, hfree]
    rfl

variable {i : ℕ}

theorem pieceLen_pos (h : (i : ℤ) < q.n) : 0 < q.pieceLen i := by
  simp only [Request.pieceLen, maxPiece_eq]
  omega

omit [DecidableEq P] in
theorem only_holder (hp : s.holder = some p) : ∀ p', p' ≠ p → s.holder ≠ some p' := by
  intro p' hne heq
  rw [hp] at heq
  cases heq
  exact hne rfl

section

variable (hm : Merged sb R inum s0 s h)

include hm

theorem stage_len (hstage : (s.writer p).stage = .wrote r ∨ (s.writer p).stage = .moved r) :
    s.holder = some p ∧ ∃ q rest, (s.writer p).todo = q :: rest ∧ ((s.writer p).i : ℤ) < q.n ∧
      r = q.pieceLen (s.writer p).i := by
  have hp := hm.holder_of (p := p) (by rcases hstage with h | h <;> rw [h] <;> exact nofun)
  obtain ⟨q, rest, htodo, hi, hst⟩ := (hm.inside p hp).call
  refine ⟨hp, q, rest, htodo, hi, ?_⟩
  rcases hstage with h | h <;> rw [h] at hst <;> rcases hst with hst | hst | hst <;> cases hst <;> rfl

theorem move (hbound : s0.off + (written h).length ≤ maxfile * bsize)
    (hstage : (s.writer p).stage = .wrote r) :
    Merged sb R inum s0 ((s.setOff (if 0 < r then (s.off + r.toNat) % 2 ^ 32 else s.off)).setWriter p
      ((s.writer p).setStage (.moved r))) h := by
  obtain ⟨hp, q, rest, htodo, hi, rfl⟩ := hm.stage_len (.inl hstage)
  have hpos := pieceLen_pos hi
  have hpend : s.pending = q.pieceLen (s.writer p).i := by
    rw [pending_of_holder hp rfl, Writer.pending, hstage]
    rfl
  have hoff : (if 0 < (q.pieceLen (s.writer p).i : ℤ) then
      (s.off + (q.pieceLen (s.writer p).i : ℤ).toNat) % 2 ^ 32 else s.off) =
      s.off + q.pieceLen (s.writer p).i := by
    have hmax : maxfile * bsize < 2 ^ 32 := by decide
    have := hm.off
    rw [if_pos (by omega), Int.toNat_natCast, Nat.mod_eq_of_lt (by omega)]
  rw [hoff]
  have hx : Inside ((s.writer p).setStage (.moved (q.pieceLen (s.writer p).i))) :=
    ⟨q, rest, htodo, hi, .inr (.inr rfl)⟩
  obtain ⟨hout, hin⟩ := hm.of_holder (p := p)
    ((s.setOff (s.off + q.pieceLen (s.writer p).i)).setWriter p _) hp rfl hx (only_holder hp)
  refine hm.of_writer rfl rfl rfl ?_ ?_ hout hin
  · rw [left_cons (x := (s.writer p).setStage (.moved _)) htodo, left_cons htodo, hstage]
    rfl
  · rw [pending_setWriter (s.setOff (s.off + q.pieceLen (s.writer p).i)) hp, hpend]
    rfl

theorem unlock (htodo : (s.writer p).todo = q :: rest) (hstage : (s.writer p).stage = .moved r) :
    Merged sb R inum s0 ((s.setHolder none).setWriter p
      (if r = q.pieceLen (s.writer p).i then (s.writer p).next r.toNat
      else (s.writer p).return (-1))) h := by
  obtain ⟨hp, q', rest', htodo', hi, rfl⟩ := hm.stage_len (.inr hstage)
  rw [htodo] at htodo'
  cases htodo'
  rw [if_pos rfl]
  refine hm.of_writer (p := p) rfl rfl rfl ?_ ?_ (fun p' _ => ?_) fun p' hp' => nomatch hp'
  · rw [left_cons (x := (s.writer p).next _) htodo, left_cons htodo, hstage]
    rfl
  · rw [pending_of_holder (x := s.writer p) hp rfl, Writer.pending, hstage]
    rfl
  · rw [setWriter_writer]
    split
    · rfl
    · rename_i hne
      exact hm.outside p' (only_holder hp p' hne)

theorem room [Fintype P] (htodo : (s.writer p).todo = q :: rest)
    (hstage : (s.writer p).stage = .locked) (hi : ((s.writer p).i : ℤ) < q.n) :
    (written h).length + q.pieceLen (s.writer p).i ≤
      ∑ p, (s0.writer p).left.flatten.length := by
  have hmine : ∀ p', (mine p' h).flatten.length +
      (if p' = p then q.pieceLen (s.writer p).i else 0) ≤ (s0.writer p').left.flatten.length := by
    intro p'
    rw [← hm.progress p', flatten_append, length_append]
    apply Nat.add_le_add_left
    split
    · rename_i heq
      subst heq
      rw [left_cons htodo, hstage]
      simp only [pieces_cons hi, cons_append, flatten_cons, length_append, length_chunk]
      omega
    · exact Nat.zero_le _
  calc (written h).length + q.pieceLen (s.writer p).i
      = ∑ p', ((mine p' h).flatten.length + if p' = p then q.pieceLen (s.writer p).i else 0) := by
        rw [Finset.sum_add_distrib, ← length_written, Finset.sum_ite_eq' Finset.univ p,
          if_pos (Finset.mem_univ p)]
    _ ≤ _ := Finset.sum_le_sum fun p' _ => hmine p'

end

theorem getD_chunk (q : Request) {r t : ℕ} (ht : t < r) :
    (q.chunk i r).getD t 0 = q.data (i + t) := by
  simp [Request.chunk, ht]

theorem write [Fintype P] (hm : Merged sb R inum s0 s h)
    (hfit : s0.off + ∑ p, (s0.writer p).left.flatten.length ≤ maxfile * bsize) {d' : Disk}
    {ip' : Dinode} (htodo : (s.writer p).todo = q :: rest) (hstage : (s.writer p).stage = .locked)
    (hrun : writei (strict (balloc sb)) inum s.ip (q.source (s.writer p).i) s.off
      (q.pieceLen (s.writer p).i) s.disk = .ok ((ip', r), d')) :
    Merged sb R inum s0 ((s.setFile d' ip').setWriter p ((s.writer p).setStage (.wrote r)))
      (h ++ [(p, q.chunk (s.writer p).i r.toNat)]) := by
  have hp := hm.holder_of (p := p) (by rw [hstage]; exact nofun)
  obtain ⟨q', rest', htodo', hi, -⟩ := (hm.inside p hp).call
  rw [htodo] at htodo'
  cases htodo'
  have hroom := hm.room htodo hstage hi
  have hoff : s.off = s0.off + (written h).length := by
    have := hm.off
    rwa [pending_of_holder hp rfl, Writer.pending, hstage] at this
  have hsize := hm.size
  obtain ⟨hplain, hr⟩ := writei_strict (fun _ => rfl) hrun
  obtain ⟨horder, off', hw, hres⟩ :=
    (writei_runs (q.source (s.writer p).i) s.off (q.pieceLen (s.writer p).i) hm.clean hm.order).of_eq
      hplain
  dsimp only at horder hw hres
  obtain ⟨rfl, rfl⟩ : r = q.pieceLen (s.writer p).i ∧ off' = s.off + q.pieceLen (s.writer p).i := by
    rcases hres with ⟨-, -, hout, -⟩ | ⟨tot, rfl, -, -, hprog, -⟩
    · exact absurd ⟨by omega, by omega⟩ hout
    · have htot : tot = q.pieceLen (s.writer p).i := by omega
      have := hprog.count
      have := hprog.low
      omega
  have hfault : ¬(q.source (s.writer p).i).Faulty := by
    rintro ⟨t, ht⟩
    cases ht
  have hlen : (written (h ++ [(p, q.chunk (s.writer p).i (q.pieceLen (s.writer p).i : ℤ).toNat)])) =
      written h ++ q.chunk (s.writer p).i (q.pieceLen (s.writer p).i) := by
    simp [written]
  have hx : Inside ((s.writer p).setStage (.wrote (q.pieceLen (s.writer p).i))) :=
    ⟨q, rest, htodo, hi, .inr (.inl rfl)⟩
  obtain ⟨hout, hin⟩ := hm.of_holder (p := p) ((s.setFile d' ip').setWriter p _) hp rfl hx
    (only_holder hp)
  refine ⟨horder, ?_, ?_, fun o ho => ?_, ?_, hout, hin, fun p' => ?_⟩
  · change d'.dinode inum = ip'
    rw [hw.dinode, update_self]
  · change ip'.size = _
    rw [hw.inode, hlen, length_append, length_chunk]
    dsimp only
    rw [hsize, hoff, add_assoc, max_assoc, max_eq_right (a := s0.off + _) (by omega)]
  · rw [hlen, length_append, length_chunk]
    change ip'.byteAt d'.block o = _
    by_cases hnew : s.off ≤ o ∧ o < s.off + q.pieceLen (s.writer p).i
    · rw [hw.inside o hnew.1 hnew.2, if_pos (by omega), getD_append_right _ _ _ _ (by omega),
        getD_chunk q (by omega)]
      change q.data ((s.writer p).i + (o - s.off)) = _
      rw [hoff, Nat.sub_add_eq]
    · rw [hw.outside o ho (by tauto), hm.bytes o ho]
      by_cases hold : s0.off ≤ o ∧ o < s0.off + (written h).length
      · rw [if_pos hold, if_pos (by omega), getD_append _ _ _ _ (by omega)]
      · rw [if_neg hold, if_neg (by omega)]
  · rw [hlen, length_append, length_chunk, pending_setWriter (s.setFile d' ip') hp]
    change s.off + (q.pieceLen (s.writer p).i : ℤ).toNat = _
    rw [Int.toNat_natCast, hoff, add_assoc]
  · rw [mine_append, setWriter_writer]
    by_cases hne : p' = p
    · subst hne
      rw [if_pos rfl, ← hm.progress p', append_assoc]
      congr 1
      rw [left_cons (x := (s.writer p').setStage (.wrote _)) htodo, left_cons htodo, hstage]
      simp only [mine, Writer.setStage, pieces_cons hi, Int.toNat_natCast]
      simp
    · have hnone : mine p' [(p, q.chunk (s.writer p).i (q.pieceLen (s.writer p).i : ℤ).toNat)] = [] := by
        simp [mine, Ne.symm hne]
      rw [if_neg hne, hnone, append_nil]
      exact hm.progress p'

theorem step [Fintype P] (hm : Merged sb R inum s0 s h) {e : List (P × List UInt8)}
    (hfit : s0.off + ∑ p, (s0.writer p).left.flatten.length ≤ maxfile * bsize)
    (hstep : Step sb inum s p s' e) : Merged sb R inum s0 s' (h ++ e) := by
  cases hstep with
  | finish htodo hstage hi =>
    rw [append_nil]
    exact hm.finish htodo hstage hi _
  | lock htodo hstage hi hfree =>
    rw [append_nil]
    exact hm.lock htodo hstage hi hfree
  | write htodo hstage hrun => exact hm.write hfit htodo hstage hrun
  | move hstage =>
    rw [append_nil]
    refine hm.move ?_ hstage
    have hle : (written h).length ≤ ∑ p, (s0.writer p).left.flatten.length := by
      rw [length_written]
      refine Finset.sum_le_sum fun p' _ => ?_
      rw [← hm.progress p', flatten_append, length_append]
      omega
    omega
  | unlock htodo hstage =>
    rw [append_nil]
    exact hm.unlock htodo hstage

end Merged

def Dinode.contents (block : ℕ → Memory) (ip : Dinode) : List UInt8 :=
  (List.range ip.size).map (ip.byteAt block)

variable {sb : Super} {inum : ℕ} {s0 s : Shared P} {h : List (P × List UInt8)}

theorem Interleaving.merged [Fintype P] (h0 : Merged sb R inum s0 s0 [])
    (hfit : s0.off + ∑ p, (s0.writer p).left.flatten.length ≤ maxfile * bsize)
    (hs : Interleaving sb inum s0 s h) : Merged sb R inum s0 s h := by
  induction hs with
  | refl => exact h0
  | step _ hstep ih => exact ih.step hfit hstep

omit [DecidableEq P] in
theorem left_start (d : Disk) (ip : Dinode) (off : ℕ) (calls : P → List Request) (p : P) :
    ((Shared.start d ip off calls).writer p).left = ((calls p).map fun q => q.pieces 0).flatten := by
  cases hc : calls p with
  | nil => simp [Shared.start, Writer.left, hc]
  | cons q rest => simp [Shared.start, Writer.left, hc]

theorem Merged.start (calls : P → List Request) (horder : InOrder sb R d ip)
    (hclean : d.dinode inum = ip) (hoff : off ≤ ip.size) :
    Merged sb R inum (Shared.start d ip off calls) (Shared.start d ip off calls) [] := by
  refine ⟨horder, hclean, (max_eq_left hoff).symm, fun o _ => ?_, rfl, fun _ _ => rfl,
    fun _ hp => (nomatch hp), fun _ => rfl⟩
  rw [if_neg (by simp [written])]

theorem Merged.contents (hm : Merged sb R inum s0 s h) (hoff : s0.off ≤ s0.ip.size) :
    s.ip.contents s.disk.block =
      (s0.ip.contents s0.disk.block).take s0.off ++ written h ++
        (s0.ip.contents s0.disk.block).drop (s0.off + (written h).length) := by
  have hlen : (s.ip.contents s.disk.block).length = max s0.ip.size (s0.off + (written h).length) := by
    rw [Dinode.contents, length_map, length_range, hm.size]
  refine ext_getElem ?_ fun o ho _ => ?_
  · rw [hlen]
    simp only [length_append, length_take, length_drop, Dinode.contents, length_map, length_range]
    omega
  · rw [hlen, ← hm.size] at ho
    have hmax := lt_of_lt_of_le ho hm.order.small
    have hbytes := hm.bytes o hmax
    simp only [Dinode.contents, getElem_map, getElem_range, getElem_append,
      length_append, length_take, length_map, length_range, getElem_take,
      getElem_drop, hbytes, min_eq_left hoff]
    split_ifs with h1 h2 h3 h4 h5
    · omega
    · rw [getD_eq_getElem]
    · omega
    · rfl
    · omega
    · congr 1
      omega

/-- When all calls have returned, the file holds, from the offset on, the pieces of all
calls in an order that keeps those of each process in sequence, and around them what it
held before. -/
theorem shared_writes_merge [Fintype P] {d : Disk} {t : Itable} {i : ISlot} {off : ℕ}
    {calls : P → List Request} (hd : Stored sb d) (ht : Reached sb (boot d) t)
    (href : 0 < (t.inode i).ref) (hvalid : (t.inode i).valid = true)
    (hoff : off ≤ (t.inode i).copy.size)
    (hfit : off + ∑ p, ((calls p).map fun q => q.n.toNat).sum ≤ maxfile * bsize)
    (hs : Interleaving sb (t.inode i).inum (Shared.start t.disk (t.inode i).copy off calls) s h)
    (hdone : ∀ p, (s.writer p).todo = []) :
    s.ip.contents s.disk.block =
        ((t.inode i).copy.contents t.disk.block).take off ++ written h ++
          ((t.inode i).copy.contents t.disk.block).drop (off + (written h).length) ∧
      (∀ p, mine p h = ((calls p).map fun q => q.pieces 0).flatten) ∧
      (written h).length = ∑ p, ((calls p).map fun q => q.n.toNat).sum ∧
      s.off = off + ∑ p, ((calls p).map fun q => q.n.toNat).sum := by
  have hsound := ht.sound (boot_sound hd.tidy)
  obtain ⟨hlt, hcopy, htype⟩ := hsound.copies i href hvalid
  rw [hcopy] at htype hoff hs ⊢
  have hlen : ∀ p, ((Shared.start t.disk (t.disk.dinode (t.inode i).inum) off calls).writer
      p).left.flatten.length = ((calls p).map fun q => q.n.toNat).sum := by
    intro p
    rw [left_start, length_flatten_calls]
  have hm := hs.merged (.start calls (hsound.tidy.inOrder hlt htype) rfl hoff)
    (by simp only [hlen]; exact hfit)
  have hmine : ∀ p, mine p h = ((calls p).map fun q => q.pieces 0).flatten := by
    intro p
    have hp := hm.progress p
    rwa [Writer.left, hdone p, left_start, append_nil] at hp
  have htotal : (written h).length = ∑ p, ((calls p).map fun q => q.n.toNat).sum := by
    rw [length_written]
    refine Finset.sum_congr rfl fun p _ => ?_
    rw [hmine, length_flatten_calls]
  refine ⟨hm.contents hoff, hmine, htotal, ?_⟩
  -- a process that holds the lock has a call to finish
  have hfree : s.holder = none := by
    cases hh : s.holder with
    | none => rfl
    | some p =>
      obtain ⟨q, rest, htodo, -⟩ := (hm.inside p hh).call
      rw [hdone p] at htodo
      cases htodo
  have hpos := hm.off
  rw [Shared.pending, hfree] at hpos
  rw [← htotal]
  exact hpos

/-- The state after a round of the loop in which `writei` returned `r`. -/
def Shared.turned (s : Shared P) (p : P) (q : Request) (d : Disk) (ip : Dinode) (r : ℤ) : Shared P where
  disk := d
  ip := ip
  off := if 0 < r then (s.off + r.toNat) % 2 ^ 32 else s.off
  holder := none
  writer := update s.writer p (if r = q.pieceLen (s.writer p).i
    then { s.writer p with i := (s.writer p).i + r.toNat, stage := .loop }
    else (s.writer p).return (-1))

theorem Interleaving.turn {p : P} {rest : List Request} (hs : Interleaving sb inum s0 s h)
    (htodo : (s.writer p).todo = q :: rest) (hstage : (s.writer p).stage = .loop)
    (hi : ((s.writer p).i : ℤ) < q.n) (hfree : s.holder = none)
    (hrun : writei (strict (balloc sb)) inum s.ip (q.source (s.writer p).i) s.off
      (q.pieceLen (s.writer p).i) s.disk = .ok ((ip', r), d')) :
    Interleaving sb inum s0 (s.turned p q d' ip' r) (h ++ [(p, q.chunk (s.writer p).i r.toNat)]) := by
  have hlock := hs.step (.lock htodo hstage hi hfree)
  have hwrite := hlock.step (.write (p := p)
    (show _ = q :: rest by rw [setWriter_writer, if_pos rfl]; exact htodo)
    (by rw [setWriter_writer, if_pos rfl]; rfl)
    (show _ = Except.ok ((ip', r), d') by rw [setWriter_writer, if_pos rfl]; exact hrun))
  have hmove := hwrite.step (.move (p := p) (r := r) (by rw [setWriter_writer, if_pos rfl]; rfl))
  have hunlock := hmove.step (.unlock (p := p) (r := r) (show _ = q :: rest by
      simpa [setWriter_writer, Writer.setStage, Shared.setFile, Shared.setOff] using htodo)
    (by rw [setWriter_writer, if_pos rfl]; rfl))
  simpa [Shared.turned, Shared.setWriter, Shared.setHolder, Shared.setFile, Shared.setOff,
    Writer.setStage, Writer.next, Writer.return] using hunlock

def twoBytes : Itable := after smallSuper (.writei firstSlot (.kernel fun _ => 9) 1 1) (smallRun 2)

theorem twoBytes_reached : Reached smallSuper (boot (smallDisk 2)) twoBytes :=
  .step (.writei firstSlot (.kernel fun _ => 9) 1 1) (smallRun_reached (.inr rfl)) rfl rfl

def byteCall (b : UInt8) : Request := ⟨fun _ => b, 1⟩

/-- One process writes two bytes, in two calls, the other one. -/
def twoCalls (p : Bool) : List Request := if p then [byteCall 7] else [byteCall 5, byteCall 6]

def startAt (off : ℕ) (calls : P → List Request) : Shared P :=
  Shared.start twoBytes.disk (twoBytes.inode firstSlot).copy off calls

theorem shared_writes_merge_two : ∃ s, Interleaving smallSuper 1 (startAt 0 twoCalls) s
      [(false, [5]), (true, [7]), (false, [6])] ∧ s.off = 3 ∧
    s.ip.contents s.disk.block = [5, 7, 6] := by
  have hone := (show Interleaving smallSuper 1 (startAt 0 twoCalls) _ _ from .refl).turn (p := false)
    (q := byteCall 5) rfl rfl (by decide) rfl rfl
  have htwo := (hone.step (.finish (p := false) (q := byteCall 5) rfl rfl (by decide))).turn
    (p := true) (q := byteCall 7) rfl rfl (by decide) rfl rfl
  have hthree := (htwo.step (.finish (p := true) (q := byteCall 7) rfl rfl (by decide))).turn
    (p := false) (q := byteCall 6) rfl rfl (by decide) rfl rfl
  have hend := hthree.step (.finish (p := false) (q := byteCall 6) rfl rfl (by decide))
  have hmerge := shared_writes_merge smallDisk_image.stored twoBytes_reached (i := firstSlot)
    (by decide) rfl (Nat.zero_le _) (by decide) hend (by decide)
  exact ⟨_, hend, hmerge.2.2.2, hmerge.1⟩

def oneCall : Unit → List Request := fun _ => [byteCall 5]

/-- A byte written at the start of a file of two bytes leaves the second behind it.  At an
offset past the end of the file nothing is written. -/
theorem write_keeps_longer_file :
    Image smallSuper (smallDisk 2) ∧ Reached smallSuper (boot (smallDisk 2)) twoBytes ∧
      0 < (twoBytes.inode firstSlot).ref ∧ (twoBytes.inode firstSlot).valid = true ∧
      5 + ∑ p, ((oneCall p).map fun q => q.n.toNat).sum ≤ maxfile * bsize ∧
      (∃ s, Interleaving smallSuper (twoBytes.inode firstSlot).inum (startAt 0 oneCall) s [((), [5])] ∧
        (∀ p, (s.writer p).todo = []) ∧
        s.ip.contents s.disk.block ≠
          ((twoBytes.inode firstSlot).copy.contents twoBytes.disk.block).take 0 ++
            written [((), [5])]) ∧
      ∃ s, Interleaving smallSuper (twoBytes.inode firstSlot).inum (startAt 5 oneCall) s [((), [])] ∧
        (s.writer ()).todo = [] ∧ (s.writer ()).returned = [-1] ∧
        s.ip.contents s.disk.block =
          (twoBytes.inode firstSlot).copy.contents twoBytes.disk.block := by
  have hone := (show Interleaving smallSuper 1 (startAt 0 oneCall) _ _ from .refl).turn (p := ())
    (q := byteCall 5) rfl rfl (by decide) rfl rfl
  have hend := hone.step (.finish (p := ()) (q := byteCall 5) rfl rfl (by decide))
  have hpast := (show Interleaving smallSuper 1 (startAt 5 oneCall) _ _ from .refl).turn (p := ())
    (q := byteCall 5) rfl rfl (by decide) rfl rfl
  exact ⟨smallDisk_image, twoBytes_reached, by decide, rfl, by decide,
    ⟨_, hend, fun _ => rfl, by decide⟩, _, hpast, rfl, rfl, rfl⟩

end Xv6MallocLab.FileSystem
