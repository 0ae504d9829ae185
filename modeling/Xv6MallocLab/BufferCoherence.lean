import Xv6MallocLab.CacheMachine

/-!
# Coherence of the buffer cache

One invariant ties the reference counts to who waits, who holds and what is
pinned; a second one says that every buffer in nobody's hands shows what was
last stored for its block.
-/

namespace Xv6MallocLab.BufferCache

open ByteMemory Function List LogLayer

attribute [local irreducible] encodeHead nbuf

/-! ## References -/

def pinOf (buf : Buf) (pins : List ℕ) : ℕ := if buf.dev = rootDev ∧ buf.blockno ∈ pins then 1 else 0

structure Shelf (c : Bcache) (waiting : List (Owner × ℕ)) (pins : List ℕ) : Prop where
  listed : Listed c
  unique : ∀ i j dev blockno, dev = rootDev → Caches c i dev blockno → Caches c j dev blockno → i = j
  foreign : ∀ i < nbuf, (c.buf i).dev ≠ rootDev → (c.buf i).refcnt = 0 ∧ (c.buf i).valid = false
  refs : ∀ i < nbuf, (c.buf i).refcnt = waiting.countP (fun w => w.2 == i) +
    (if (c.buf i).holder = none then 0 else 1) + pinOf (c.buf i) pins
  bound : ∀ w ∈ waiting, w.2 < nbuf
  locked : ∀ i < nbuf, (c.buf i).holder ≠ none → (c.buf i).valid = true
  nodup : pins.Nodup
  pinned : ∀ b ∈ pins, ∃ i, Caches c i rootDev b ∧ (c.buf i).valid = true

section Shelf

variable {c : Bcache} {waiting : List (Owner × ℕ)} {pins : List ℕ} {b : ℕ}

@[simp] theorem buf_set_self (buf : Buf) : (c.set b buf).buf b = buf := update_self _ _ _

variable {i blockno : ℕ} {owner : Owner} {c' : Bcache}

@[simp] theorem buf_set_of_ne (buf : Buf) (hi : i ≠ b) : (c.set b buf).buf i = c.buf i :=
  update_of_ne hi _ _

theorem listed_set (hlisted : Listed c) (buf : Buf) : Listed (c.set b buf) := hlisted.congr rfl rfl

variable {buf : Buf} {disk : ℕ → Memory}

theorem Shelf.set {waiting' : List (Owner × ℕ)} {pins' : List ℕ} (hshelf : Shelf c waiting pins)
    (hb : b < nbuf) (hdev : buf.dev = (c.buf b).dev) (hblock : buf.blockno = (c.buf b).blockno)
    (hvalid : (c.buf b).valid = true → buf.valid = true)
    (hforeign : buf.dev ≠ rootDev → buf.refcnt = 0 ∧ buf.valid = false)
    (hlocked : buf.holder ≠ none → buf.valid = true)
    (hself : buf.refcnt = waiting'.countP (fun w => w.2 == b) +
      (if buf.holder = none then 0 else 1) + pinOf buf pins') (hcount : ∀ i < nbuf, i ≠ b →
      waiting'.countP (fun w => w.2 == i) = waiting.countP (fun w => w.2 == i))
    (hpin : ∀ i < nbuf, i ≠ b → pinOf (c.buf i) pins' = pinOf (c.buf i) pins)
    (hbound : ∀ w ∈ waiting', w.2 < nbuf) (hnodup : pins'.Nodup)
    (hpinned : ∀ d ∈ pins', d ∈ pins ∨ d = buf.blockno ∧ buf.dev = rootDev ∧ buf.valid = true) :
    Shelf (c.set b buf) waiting' pins' := by
  have hcaches : ∀ {i dev blockno}, Caches (c.set b buf) i dev blockno ↔ Caches c i dev blockno := by
    intro i dev blockno
    unfold Caches
    by_cases hi : i = b
    · subst hi
      rw [buf_set_self, hdev, hblock]
    · rw [buf_set_of_ne _ hi]
  refine ⟨listed_set hshelf.listed buf, ?_, ?_, ?_, hbound, ?_, hnodup, ?_⟩
  · intro i j dev blockno hroot hi hj
    exact hshelf.unique i j dev blockno hroot (hcaches.mp hi) (hcaches.mp hj)
  · exact (forall_update_iff c.buf fun i x => i < nbuf → x.dev ≠ rootDev →
      x.refcnt = 0 ∧ x.valid = false).mpr ⟨fun _ => hforeign, fun i _ => hshelf.foreign i⟩
  · intro i hi
    by_cases heq : i = b
    · subst heq
      rw [buf_set_self]
      exact hself
    · rw [buf_set_of_ne _ heq, hcount i hi heq, hpin i hi heq]
      exact hshelf.refs i hi
  · exact (forall_update_iff c.buf fun i x => i < nbuf → x.holder ≠ none → x.valid = true).mpr
      ⟨fun _ => hlocked, fun i _ => hshelf.locked i⟩
  · intro d hd
    rcases hpinned d hd with hold | ⟨rfl, hroot, hvalid'⟩
    · obtain ⟨i, hi, hvalid'⟩ := hshelf.pinned d hold
      refine ⟨i, hcaches.mpr hi, ?_⟩
      by_cases heq : i = b
      · subst heq
        rw [buf_set_self]
        exact hvalid hvalid'
      · rw [buf_set_of_ne _ heq]
        exact hvalid'
    · refine ⟨b, ⟨hb, ?_, ?_⟩, ?_⟩
      · rw [buf_set_self]
        exact hroot
      · rw [buf_set_self]
      · rw [buf_set_self]
        exact hvalid'

theorem countP_cons_ne (hi : i ≠ b) :
    ((owner, b) :: waiting).countP (fun w => w.2 == i) = waiting.countP (fun w => w.2 == i) := by
  rw [countP_cons]
  simp [Ne.symm hi]

theorem countP_cons_self :
    ((owner, b) :: waiting).countP (fun w => w.2 == b) = waiting.countP (fun w => w.2 == b) + 1 := by
  rw [countP_cons]
  simp

theorem countP_erase_ne (hi : i ≠ b) :
    (waiting.erase (owner, b)).countP (fun w => w.2 == i) = waiting.countP (fun w => w.2 == i) := by
  rw [countP_erase]
  simp [Ne.symm hi]

theorem countP_erase_self (hmem : (owner, b) ∈ waiting) :
    (waiting.erase (owner, b)).countP (fun w => w.2 == b) + 1 =
      waiting.countP (fun w => w.2 == b) := by
  have hpos : 0 < waiting.countP (fun w => w.2 == b) :=
    countP_pos_iff.mpr ⟨_, hmem, by simp⟩
  rw [countP_erase]
  simp [hmem]
  omega

theorem Shelf.dev_of_refcnt (hshelf : Shelf c waiting pins) (hb : b < nbuf)
    (hpos : 0 < (c.buf b).refcnt) : (c.buf b).dev = rootDev := by
  by_contra hne
  have hzero := (hshelf.foreign b hb hne).1
  omega

theorem Shelf.refcnt_of_waiting (hshelf : Shelf c waiting pins) (hwait : (owner, b) ∈ waiting) :
    0 < (c.buf b).refcnt := by
  have hcount := countP_erase_self hwait
  have hrefs := hshelf.refs b (hshelf.bound _ hwait)
  omega

theorem Shelf.refcnt_of_holder (hshelf : Shelf c waiting pins) (hb : b < nbuf)
    (hheld : (c.buf b).holder ≠ none) : 0 < (c.buf b).refcnt := by
  have hrefs := hshelf.refs b hb
  rw [if_neg hheld] at hrefs
  omega

structure Taken (c c' : Bcache) (b blockno : ℕ) : Prop where
  caches : Caches c' b rootDev blockno
  frame : ∀ i, i ≠ b → c'.buf i = c.buf i
  holder : (c'.buf b).holder = (c.buf b).holder
  data : (c'.buf b).data = (c.buf b).data
  kept : 0 < (c.buf b).refcnt ∨ (c'.buf b).valid = true →
    (c'.buf b).dev = (c.buf b).dev ∧ (c'.buf b).blockno = (c.buf b).blockno ∧
      (c'.buf b).valid = (c.buf b).valid

theorem Shelf.recycle (hshelf : Shelf c waiting pins) (owner : Owner) (hb : b < nbuf)
    (hzero : (c.buf b).refcnt = 0) (hout : ∀ i, ¬ Caches c i rootDev blockno) :
    Shelf (c.set b { c.buf b with dev := rootDev, blockno := blockno, valid := false, refcnt := 1 })
      ((owner, b) :: waiting) pins := by
  have hrefs := hshelf.refs b hb
  have hfree : (c.buf b).holder = none := by
    by_contra hheld
    have := hshelf.refcnt_of_holder hb hheld
    omega
  have hnopin : pinOf (c.buf b) pins = 0 := by omega
  have hblock : blockno ∉ pins := by
    intro hmem
    obtain ⟨i, hi, -⟩ := hshelf.pinned _ hmem
    exact hout i hi
  have hcaches : ∀ {i dev d}, i ≠ b →
      (Caches (c.set b { c.buf b with dev := rootDev, blockno := blockno, valid := false, refcnt := 1 })
        i dev d ↔ Caches c i dev d) := by
    intro i dev d hi
    unfold Caches
    rw [buf_set_of_ne _ hi]
  have hself : ∀ {d}, Caches (c.set b
      { c.buf b with dev := rootDev, blockno := blockno, valid := false, refcnt := 1 })
        b rootDev d → d = blockno := by
    rintro d ⟨-, -, hd⟩
    rw [buf_set_self] at hd
    exact hd.symm
  refine ⟨listed_set hshelf.listed _, ?_, ?_, ?_, ?_, ?_, hshelf.nodup, ?_⟩
  · rintro i j dev d rfl hi hj
    by_cases hib : i = b
    · by_cases hjb : j = b
      · rw [hib, hjb]
      · subst hib
        rw [hself hi] at hj
        exact absurd ((hcaches hjb).mp hj) (hout j)
    · by_cases hjb : j = b
      · subst hjb
        rw [hself hj] at hi
        exact absurd ((hcaches hib).mp hi) (hout i)
      · exact hshelf.unique i j rootDev d rfl ((hcaches hib).mp hi) ((hcaches hjb).mp hj)
  · exact (forall_update_iff c.buf fun i x => i < nbuf → x.dev ≠ rootDev →
      x.refcnt = 0 ∧ x.valid = false).mpr ⟨fun _ h => absurd rfl h, fun i _ => hshelf.foreign i⟩
  · intro i hi
    by_cases hib : i = b
    · subst hib
      rw [buf_set_self, countP_cons_self]
      dsimp only
      rw [if_pos hfree, pinOf, if_neg (by simp [hblock])]
      rw [if_pos hfree] at hrefs
      omega
    · rw [buf_set_of_ne _ hib, countP_cons_ne hib]
      exact hshelf.refs i hi
  · intro w hw
    rcases mem_cons.mp hw with rfl | hw
    · exact hb
    · exact hshelf.bound w hw
  · exact (forall_update_iff c.buf fun i x => i < nbuf → x.holder ≠ none → x.valid = true).mpr
      ⟨fun _ h => absurd hfree h, fun i _ => hshelf.locked i⟩
  · intro d hd
    obtain ⟨i, hi, hvalid⟩ := hshelf.pinned d hd
    have hib : i ≠ b := by
      rintro rfl
      obtain ⟨-, hdev, hblockno⟩ := hi
      rw [pinOf, if_pos ⟨hdev, hblockno ▸ hd⟩] at hnopin
      omega
    refine ⟨i, (hcaches hib).mpr hi, ?_⟩
    rw [buf_set_of_ne _ hib]
    exact hvalid

theorem Shelf.bget (hshelf : Shelf c waiting pins) (owner : Owner)
    (hget : bget c rootDev blockno = .ok (b, c')) :
    Shelf c' ((owner, b) :: waiting) pins ∧ Taken c c' b blockno := by
  rcases hshelf.listed.bget_cases rootDev blockno with ⟨i, hcaches, hok⟩ | ⟨hout, hmiss⟩
  · rw [hok] at hget
    cases hget
    obtain ⟨hi, hdev, hblock⟩ := hcaches
    refine ⟨?_, ⟨⟨hi, by rw [buf_set_self]; exact hdev, by rw [buf_set_self]; exact hblock⟩,
      fun j hj => buf_set_of_ne _ hj, by rw [buf_set_self], by rw [buf_set_self], fun _ => by
        rw [buf_set_self]
        exact ⟨rfl, rfl, rfl⟩⟩⟩
    refine hshelf.set hi rfl rfl id (fun hne => absurd hdev hne) (hshelf.locked b hi) ?_
      (fun j _ hj => countP_cons_ne hj) (fun _ _ _ => rfl) ?_ hshelf.nodup fun d hd => .inl hd
    · have hrefs := hshelf.refs b hi
      rw [countP_cons_self]
      change (c.buf b).refcnt + 1 = _ + _ + pinOf (c.buf b) pins
      dsimp only
      omega
    · intro w hw
      rcases mem_cons.mp hw with rfl | hw
      · exact hi
      · exact hshelf.bound w hw
  · rcases hmiss with ⟨i, hi, hzero, hok⟩ | ⟨-, herror⟩
    · rw [hok] at hget
      cases hget
      refine ⟨hshelf.recycle owner hi hzero hout, ⟨⟨hi, by rw [buf_set_self], by rw [buf_set_self]⟩,
        fun j hj => buf_set_of_ne _ hj, by rw [buf_set_self], by rw [buf_set_self], ?_⟩⟩
      rw [buf_set_self]
      rintro (hpos | hvalid)
      · omega
      · cases hvalid
    · rw [herror] at hget
      cases hget

theorem fill_eq_some_iff {c : Bcache} :
    fill c disk b owner = some c' ↔ (c.buf b).holder = none ∧ c' = c.set b { c.buf b with
      holder := some owner
      valid := true
      data := if (c.buf b).valid then (c.buf b).data else disk (c.buf b).blockno } := by
  unfold fill
  split
  · rename_i hfree
    rw [Option.some.injEq]
    exact ⟨fun h => ⟨hfree, h.symm⟩, fun h => h.2.symm⟩
  · rename_i hheld
    exact ⟨nofun, fun h => absurd h.1 hheld⟩

theorem Shelf.fill (hshelf : Shelf c waiting pins) (hwait : (owner, b) ∈ waiting)
    (hfill : fill c disk b owner = some c') : Shelf c' (waiting.erase (owner, b)) pins := by
  obtain ⟨hfree, rfl⟩ := fill_eq_some_iff.mp hfill
  have hb := hshelf.bound _ hwait
  have hdev := hshelf.dev_of_refcnt hb (hshelf.refcnt_of_waiting hwait)
  have hrefs := hshelf.refs b hb
  have hcount := countP_erase_self hwait
  refine hshelf.set hb rfl rfl (fun _ => rfl) (fun hne => absurd hdev hne) (fun _ => rfl) ?_
    (fun i _ hi => countP_erase_ne hi) (fun _ _ _ => rfl)
    (fun w hw => hshelf.bound w (mem_of_mem_erase hw)) hshelf.nodup fun d hd => .inl hd
  rw [if_pos hfree] at hrefs
  change (c.buf b).refcnt = _ + 1 + pinOf (c.buf b) pins
  omega

theorem Shelf.modify (hshelf : Shelf c waiting pins) (hb : b < nbuf) (data : Memory) :
    Shelf (modify c b data) waiting pins :=
  hshelf.set hb rfl rfl id (hshelf.foreign b hb) (hshelf.locked b hb) (hshelf.refs b hb)
    (fun _ _ _ => rfl) (fun _ _ _ => rfl) hshelf.bound hshelf.nodup fun _ hd => .inl hd

theorem Shelf.relink (hshelf : Shelf c waiting pins) (hbuf : c'.buf = c.buf) (hlisted : Listed c') :
    Shelf c' waiting pins := by
  have hcaches : ∀ {i dev d}, Caches c' i dev d ↔ Caches c i dev d := by
    intro i dev d
    unfold Caches
    rw [hbuf]
  refine ⟨hlisted, ?_, ?_, ?_, hshelf.bound, ?_, hshelf.nodup, ?_⟩
  · intro i j dev d hroot hi hj
    exact hshelf.unique i j dev d hroot (hcaches.mp hi) (hcaches.mp hj)
  · rw [hbuf]
    exact hshelf.foreign
  · rw [hbuf]
    exact hshelf.refs
  · rw [hbuf]
    exact hshelf.locked
  · intro d hd
    obtain ⟨i, hi, hvalid⟩ := hshelf.pinned d hd
    exact ⟨i, hcaches.mpr hi, by rw [hbuf]; exact hvalid⟩

theorem brelse_eq_ok_iff {c : Bcache} :
    brelse c b owner = .ok c' ↔ (c.buf b).holder = some owner ∧
      c' = if (c.buf b).refcnt - 1 = 0 then
        linkFront (unlink (c.set b { c.buf b with holder := none, refcnt := (c.buf b).refcnt - 1 }) b) b
      else c.set b { c.buf b with holder := none, refcnt := (c.buf b).refcnt - 1 } := by
  unfold brelse
  split
  · rename_i hheld
    dsimp only
    rw [buf_set_self]
    split
    · rw [Except.ok.injEq]
      exact ⟨fun h => ⟨hheld, h.symm⟩, fun h => h.2.symm⟩
    · rw [Except.ok.injEq]
      exact ⟨fun h => ⟨hheld, h.symm⟩, fun h => h.2.symm⟩
  · rename_i hheld
    exact ⟨nofun, fun h => absurd h.1 hheld⟩

theorem buf_brelse {c : Bcache} (hrelease : brelse c b owner = .ok c') :
    c'.buf = update c.buf b
      { c.buf b with holder := none, refcnt := (c.buf b).refcnt - 1 } := by
  obtain ⟨-, rfl⟩ := brelse_eq_ok_iff.mp hrelease
  split
  · rfl
  · rfl

theorem Shelf.brelse (hshelf : Shelf c waiting pins) (hb : b < nbuf)
    (hrelease : brelse c b owner = .ok c') : Shelf c' waiting pins := by
  obtain ⟨hheld, rfl⟩ := brelse_eq_ok_iff.mp hrelease
  have hne : (c.buf b).holder ≠ none := by
    rw [hheld]
    simp
  have hpos := hshelf.refcnt_of_holder hb hne
  have hdev := hshelf.dev_of_refcnt hb hpos
  have hset : Shelf (c.set b { c.buf b with holder := none, refcnt := (c.buf b).refcnt - 1 })
      waiting pins := by
    refine hshelf.set hb rfl rfl id (fun h => absurd hdev h) (fun h => absurd rfl h) ?_
      (fun _ _ _ => rfl) (fun _ _ _ => rfl) hshelf.bound hshelf.nodup fun d hd => .inl hd
    have hrefs := hshelf.refs b hb
    rw [if_neg hne] at hrefs
    change (c.buf b).refcnt - 1 = _ + 0 + pinOf (c.buf b) pins
    omega
  split
  · exact hset.relink rfl (hset.listed.moveFront hb)
  · exact hset

theorem pinOf_append_of_ne (hne : ¬ (buf.dev = rootDev ∧ buf.blockno = blockno)) :
    pinOf buf (pins ++ [blockno]) = pinOf buf pins := by
  unfold pinOf
  refine if_congr ?_ rfl rfl
  rw [mem_append, mem_singleton]
  tauto

theorem Shelf.bpin (hshelf : Shelf c waiting pins) (hb : b < nbuf)
    (hheld : (c.buf b).holder ≠ none) (hnew : (c.buf b).blockno ∉ pins) :
    Shelf (bpin c b) waiting (pins ++ [(c.buf b).blockno]) := by
  have hdev := hshelf.dev_of_refcnt hb (hshelf.refcnt_of_holder hb hheld)
  have hvalid := hshelf.locked b hb hheld
  refine hshelf.set hb rfl rfl id (fun h => absurd hdev h) (fun _ => hvalid) ?_
    (fun _ _ _ => rfl) ?_ hshelf.bound ?_ ?_
  · have hrefs := hshelf.refs b hb
    have hold : pinOf (c.buf b) pins = 0 := if_neg (fun h => hnew h.2)
    have hpin : pinOf (c.buf b) (pins ++ [(c.buf b).blockno]) = 1 := if_pos ⟨hdev, by simp⟩
    change (c.buf b).refcnt + 1 = _ + _ + pinOf (c.buf b) (pins ++ [(c.buf b).blockno])
    dsimp only
    omega
  · intro i hi hne
    refine pinOf_append_of_ne ?_
    rintro ⟨hdevi, hblocki⟩
    exact hne (hshelf.unique i b rootDev _ rfl ⟨hi, hdevi, hblocki⟩ ⟨hb, hdev, rfl⟩)
  · refine nodup_append.mpr ⟨hshelf.nodup, nodup_singleton _, ?_⟩
    intro x hx y hy
    rw [mem_singleton] at hy
    rintro rfl
    exact hnew (hy ▸ hx)
  · intro d hd
    rcases mem_append.mp hd with hd | hd
    · exact .inl hd
    · rw [mem_singleton] at hd
      exact .inr ⟨hd, hdev, hvalid⟩

theorem Shelf.bunpin (hshelf : Shelf c waiting pins) (hb : b < nbuf)
    (hdev : (c.buf b).dev = rootDev) (hmem : (c.buf b).blockno ∈ pins)
    (hvalid : (c.buf b).valid = true) :
    Shelf (bunpin c b) waiting (pins.erase (c.buf b).blockno) := by
  have hgone : (c.buf b).blockno ∉ pins.erase (c.buf b).blockno := hshelf.nodup.not_mem_erase
  refine hshelf.set hb rfl rfl id (fun h => absurd hdev h) (fun _ => hvalid) ?_
    (fun _ _ _ => rfl) ?_ hshelf.bound (hshelf.nodup.erase _)
    fun d hd => .inl (mem_of_mem_erase hd)
  · have hrefs := hshelf.refs b hb
    have hold : pinOf (c.buf b) pins = 1 := if_pos ⟨hdev, hmem⟩
    have hpin : pinOf (c.buf b) (pins.erase (c.buf b).blockno) = 0 := if_neg fun h => hgone h.2
    change (c.buf b).refcnt - 1 = _ + _ + pinOf (c.buf b) (pins.erase (c.buf b).blockno)
    dsimp only
    omega
  · intro i hi hne
    refine if_congr ?_ rfl rfl
    constructor
    · rintro ⟨hdevi, hmemi⟩
      exact ⟨hdevi, mem_of_mem_erase hmemi⟩
    · rintro ⟨hdevi, hmemi⟩
      refine ⟨hdevi, (mem_erase_of_ne fun heq => hne ?_).mpr hmemi⟩
      exact hshelf.unique i b rootDev _ rfl ⟨hi, hdevi, heq⟩ ⟨hb, hdev, rfl⟩

end Shelf

/-! ## Contents -/

/-- What a pointer of `commit` stands for: nothing, a buffer it sleeps on, or one
it holds, whose contents may be the stored ones and may be on the disk. -/
inductive Grip
  | free
  | waiting (blockno : ℕ)
  | held (blockno : ℕ) (synced written : Bool)

/-- A buffer that `commit` does not hold shows what was last stored, and so does
the disk for every block that is not pinned. -/
structure Shown (c : Bcache) (disk stored : ℕ → Memory) (pins : List ℕ) : Prop where
  data : ∀ i < nbuf, (c.buf i).valid = true → (c.buf i).holder ≠ some .commit →
    (c.buf i).data = stored (c.buf i).blockno
  clean : ∀ b, b ∉ pins → disk b = stored b

structure Hands (c : Bcache) (disk stored : ℕ → Memory) (waiting : List (Owner × ℕ))
    (regs : Reg → ℕ) (grip : Reg → Grip) : Prop where
  waiting : ∀ r blockno, grip r = .waiting blockno →
    Caches c (regs r) rootDev blockno ∧ (.commit, regs r) ∈ waiting
  held : ∀ r blockno synced written, grip r = .held blockno synced written →
    Caches c (regs r) rootDev blockno ∧ (c.buf (regs r)).holder = some .commit ∧
      (synced = true → (c.buf (regs r)).data = stored blockno) ∧
      (written = true → disk blockno = (c.buf (regs r)).data)
  single : ∀ r r' b b', grip r = .waiting b → grip r' = .waiting b' → r = r'
  owner : ∀ i < nbuf, (c.buf i).holder = some .commit →
    ∃ r blockno synced written, grip r = .held blockno synced written ∧ regs r = i
  apart : ∀ r r' b b' s s' w w', grip r = .held b s w → grip r' = .held b' s' w' →
    regs r = regs r' → r = r'

structure Coherent (s : System) (grip : Reg → Grip) (pins : List ℕ) : Prop where
  shelf : Shelf s.cache s.waiting pins
  shown : Shown s.cache s.disk s.stored pins
  hands : Hands s.cache s.disk s.stored s.waiting s.regs grip

section Contents

variable {c c' : Bcache} {disk stored : ℕ → Memory} {waiting : List (Owner × ℕ)}
  {pins : List ℕ} {regs : Reg → ℕ} {grip : Reg → Grip} {b : ℕ}

theorem Shelf.dev_of_valid (hshelf : Shelf c waiting pins) (hb : b < nbuf)
    (hvalid : (c.buf b).valid = true) : (c.buf b).dev = rootDev := by
  by_contra hne
  rw [(hshelf.foreign b hb hne).2] at hvalid
  cases hvalid

variable {i d : ℕ} {buf : Buf} {r : Reg}

theorem Shelf.blockno_ne (hshelf : Shelf c waiting pins) (hi : i < nbuf) (hb : b < nbuf)
    (hdevi : (c.buf i).dev = rootDev) (hdevb : (c.buf b).dev = rootDev) (hne : i ≠ b) :
    (c.buf i).blockno ≠ (c.buf b).blockno := fun heq =>
  hne (hshelf.unique i b rootDev _ rfl ⟨hi, hdevi, heq⟩ ⟨hb, hdevb, rfl⟩)

theorem Shelf.filled (hshelf : Shelf c waiting pins) (hshown : Shown c disk stored pins)
    (hb : b < nbuf) (hdev : (c.buf b).dev = rootDev) (hfree : (c.buf b).holder = none) :
    (if (c.buf b).valid then (c.buf b).data else disk (c.buf b).blockno) =
      stored (c.buf b).blockno := by
  split
  · rename_i hvalid
    exact hshown.data b hb hvalid (by simp [hfree])
  · rename_i hvalid
    refine hshown.clean _ fun hmem => hvalid ?_
    obtain ⟨i, hi, hvalidi⟩ := hshelf.pinned _ hmem
    rwa [hshelf.unique i b rootDev _ rfl hi ⟨hb, hdev, rfl⟩] at hvalidi

variable {blockno : ℕ} {disk' stored' : ℕ → Memory} {waiting' : List (Owner × ℕ)}

theorem Shown.taken (hshown : Shown c disk stored pins) (htaken : Taken c c' b blockno) :
    Shown c' disk stored pins := by
  refine ⟨fun i hi hvalid hnot => ?_, hshown.clean⟩
  by_cases hib : i = b
  · subst hib
    obtain ⟨-, hblock, hvalid'⟩ := htaken.kept (.inr hvalid)
    rw [htaken.data, hblock]
    rw [htaken.holder] at hnot
    exact hshown.data i hi (hvalid'.symm.trans hvalid) hnot
  · rw [htaken.frame i hib] at hvalid hnot ⊢
    exact hshown.data i hi hvalid hnot

theorem Shown.set (hshown : Shown c disk stored pins) (hbuf : c'.buf = update c.buf b buf)
    (hself : buf.valid = true → buf.holder ≠ some .commit → buf.data = stored buf.blockno) :
    Shown c' disk stored pins := by
  refine ⟨?_, hshown.clean⟩
  rw [hbuf]
  exact (forall_update_iff c.buf fun i x => i < nbuf → x.valid = true → x.holder ≠ some .commit →
    x.data = stored x.blockno).mpr ⟨fun _ => hself, fun i _ => hshown.data i⟩

theorem Taken.caches_of_refcnt (htaken : Taken c c' b blockno) (hpos : 0 < (c.buf i).refcnt)
    (hcaches : Caches c i rootDev d) : Caches c' i rootDev d := by
  obtain ⟨hi, hdev, hblock⟩ := hcaches
  by_cases hib : i = b
  · subst hib
    obtain ⟨hdev', hblock', -⟩ := htaken.kept (.inl hpos)
    exact ⟨hi, hdev'.trans hdev, hblock'.trans hblock⟩
  · refine ⟨hi, ?_, ?_⟩
    · rw [htaken.frame i hib]
      exact hdev
    · rw [htaken.frame i hib]
      exact hblock

theorem Taken.holder_data (htaken : Taken c c' b blockno) (i : ℕ) :
    (c'.buf i).holder = (c.buf i).holder ∧ (c'.buf i).data = (c.buf i).data := by
  by_cases hib : i = b
  · subst hib
    exact ⟨htaken.holder, htaken.data⟩
  · rw [htaken.frame i hib]
    exact ⟨rfl, rfl⟩

theorem Hands.taken (hshelf : Shelf c waiting pins)
    (hhands : Hands c disk stored waiting regs grip) (htaken : Taken c c' b blockno)
    (owner : Owner) : Hands c' disk stored ((owner, b) :: waiting) regs grip := by
  refine ⟨?_, ?_, hhands.single, ?_, hhands.apart⟩
  · intro r d hr
    obtain ⟨hcaches, hwait⟩ := hhands.waiting r d hr
    exact ⟨htaken.caches_of_refcnt (hshelf.refcnt_of_waiting hwait) hcaches,
      mem_cons_of_mem _ hwait⟩
  · intro r d synced written hr
    obtain ⟨hcaches, hheld, hsync, hdisk⟩ := hhands.held r d synced written hr
    obtain ⟨hholder, hdata⟩ := htaken.holder_data (regs r)
    have hpos := hshelf.refcnt_of_holder hcaches.1 (by simp [hheld])
    rw [hholder, hdata]
    exact ⟨htaken.caches_of_refcnt hpos hcaches, hheld, hsync, hdisk⟩
  · intro i hi hheld
    rw [(htaken.holder_data i).1] at hheld
    exact hhands.owner i hi hheld

theorem Hands.congr (hhands : Hands c disk stored waiting regs grip)
    (hkey : ∀ i, (c'.buf i).dev = (c.buf i).dev ∧ (c'.buf i).blockno = (c.buf i).blockno)
    (hholder : ∀ i < nbuf, (c'.buf i).holder = some .commit ↔ (c.buf i).holder = some .commit)
    (hsame : ∀ i < nbuf, (c.buf i).holder = some .commit → (c'.buf i).data = (c.buf i).data ∧
      stored' (c.buf i).blockno = stored (c.buf i).blockno ∧
      disk' (c.buf i).blockno = disk (c.buf i).blockno)
    (hwait : ∀ i, (.commit, i) ∈ waiting → (.commit, i) ∈ waiting') :
    Hands c' disk' stored' waiting' regs grip := by
  have hcaches : ∀ {i d}, Caches c i rootDev d → Caches c' i rootDev d := by
    rintro i d ⟨hi, hdev, hblock⟩
    exact ⟨hi, (hkey i).1.trans hdev, (hkey i).2.trans hblock⟩
  refine ⟨?_, ?_, hhands.single, ?_, hhands.apart⟩
  · intro r d hr
    obtain ⟨hc, hw⟩ := hhands.waiting r d hr
    exact ⟨hcaches hc, hwait _ hw⟩
  · intro r d synced written hr
    obtain ⟨hc, hheld, hsync, hdisk⟩ := hhands.held r d synced written hr
    obtain ⟨hdata, hstored, hdisk'⟩ := hsame _ hc.1 hheld
    rw [hc.2.2] at hstored hdisk'
    refine ⟨hcaches hc, (hholder _ hc.1).mpr hheld, ?_, ?_⟩
    · rw [hdata, hstored]
      exact hsync
    · rw [hdata, hdisk']
      exact hdisk
  · intro i hi hheld
    exact hhands.owner i hi ((hholder i hi).mp hheld)

theorem field_set {γ : Type*} (f : Buf → γ) (h : f buf = f (c.buf b)) (i : ℕ) :
    f ((c.set b buf).buf i) = f (c.buf i) := by
  by_cases hib : i = b
  · subst hib
    rw [buf_set_self, h]
  · rw [buf_set_of_ne _ hib]

theorem key_set (hdev : buf.dev = (c.buf b).dev) (hblock : buf.blockno = (c.buf b).blockno)
    (i : ℕ) : ((c.set b buf).buf i).dev = (c.buf i).dev ∧
      ((c.set b buf).buf i).blockno = (c.buf i).blockno :=
  ⟨field_set Buf.dev hdev i, field_set Buf.blockno hblock i⟩

theorem Hands.set (hhands : Hands c disk stored waiting regs grip)
    (hdev : buf.dev = (c.buf b).dev) (hblock : buf.blockno = (c.buf b).blockno)
    (hold : (c.buf b).holder ≠ some .commit) (hnew : buf.holder ≠ some .commit)
    (hstored : ∀ i < nbuf, i ≠ b → (c.buf i).holder = some .commit →
      stored' (c.buf i).blockno = stored (c.buf i).blockno ∧
      disk' (c.buf i).blockno = disk (c.buf i).blockno)
    (hwait : ∀ i, (.commit, i) ∈ waiting → (.commit, i) ∈ waiting') :
    Hands (c.set b buf) disk' stored' waiting' regs grip := by
  refine hhands.congr (key_set hdev hblock) (fun i hi => ?_) (fun i hi hheld => ?_) hwait
  · by_cases hib : i = b
    · subst hib
      rw [buf_set_self]
      exact ⟨fun h => absurd h hnew, fun h => absurd h hold⟩
    · rw [buf_set_of_ne _ hib]
  · have hib : i ≠ b := by
      rintro rfl
      exact hold hheld
    rw [buf_set_of_ne _ hib]
    exact ⟨rfl, hstored i hi hib hheld⟩

def Grip.Fits (c : Bcache) (disk stored : ℕ → Memory) (i : ℕ) : Grip → Prop
  | .free => (c.buf i).holder ≠ some .commit
  | .waiting _ => False
  | .held blockno synced written => Caches c i rootDev blockno ∧
      (c.buf i).holder = some .commit ∧ (synced = true → (c.buf i).data = stored blockno) ∧
      (written = true → disk blockno = (c.buf i).data)

theorem Hands.regrip {new : Grip} (hhands : Hands c disk stored waiting regs grip)
    (hkey : ∀ i, (c'.buf i).dev = (c.buf i).dev ∧ (c'.buf i).blockno = (c.buf i).blockno)
    (hother : ∀ i < nbuf, i ≠ regs r → (c'.buf i).holder = (c.buf i).holder ∧
      (c'.buf i).data = (c.buf i).data ∧ ((c.buf i).holder = some .commit →
        stored' (c.buf i).blockno = stored (c.buf i).blockno ∧
        disk' (c.buf i).blockno = disk (c.buf i).blockno))
    (hapart : ∀ r', r' ≠ r → ∀ d sy w, grip r' = .held d sy w → regs r' ≠ regs r)
    (hwait : ∀ r', r' ≠ r → ∀ d, grip r' = .waiting d → (.commit, regs r') ∈ waiting')
    (hnew : new.Fits c' disk' stored' (regs r)) :
    Hands c' disk' stored' waiting' regs (update grip r new) := by
  have hcaches : ∀ {i d}, Caches c i rootDev d → Caches c' i rootDev d := by
    rintro i d ⟨hi, hdev, hblock⟩
    exact ⟨hi, (hkey i).1.trans hdev, (hkey i).2.trans hblock⟩
  have hnotwait : ∀ d, new ≠ .waiting d := by
    rintro d rfl
    exact hnew
  refine ⟨?_, ?_, ?_, ?_, ?_⟩
  · intro r' d hr'
    by_cases hrr : r' = r
    · subst hrr
      rw [update_self] at hr'
      exact absurd hr' (hnotwait d)
    · rw [update_of_ne hrr] at hr'
      exact ⟨hcaches (hhands.waiting r' d hr').1, hwait r' hrr d hr'⟩
  · intro r' d sy w hr'
    by_cases hrr : r' = r
    · subst hrr
      rw [update_self] at hr'
      subst hr'
      exact hnew
    · rw [update_of_ne hrr] at hr'
      obtain ⟨hc, hheld, hsync, hdisk⟩ := hhands.held r' d sy w hr'
      obtain ⟨hholder, hdata, hsame⟩ := hother _ hc.1 (hapart r' hrr d sy w hr')
      obtain ⟨hstored, hdisk'⟩ := hsame hheld
      rw [hc.2.2] at hstored hdisk'
      rw [hholder, hdata, hstored, hdisk']
      exact ⟨hcaches hc, hheld, hsync, hdisk⟩
  · intro r1 r2 d d' h1 h2
    have hne : ∀ {r'}, ∀ {d}, update grip r new r' = .waiting d → r' ≠ r := by
      rintro r' d h rfl
      rw [update_self] at h
      exact hnotwait d h
    rw [update_of_ne (hne h1)] at h1
    rw [update_of_ne (hne h2)] at h2
    exact hhands.single r1 r2 d d' h1 h2
  · intro i hi hheld
    by_cases hir : i = regs r
    · subst hir
      cases new with
      | free => exact absurd hheld hnew
      | waiting d => exact absurd rfl (hnotwait d)
      | held d sy w => exact ⟨r, d, sy, w, update_self _ _ _, rfl⟩
    · rw [(hother i hi hir).1] at hheld
      obtain ⟨r', d, sy, w, hr', hreg⟩ := hhands.owner i hi hheld
      have hrr : r' ≠ r := by
        rintro rfl
        exact hir hreg.symm
      exact ⟨r', d, sy, w, by rw [update_of_ne hrr]; exact hr', hreg⟩
  · intro r1 r2 d d' sy sy' w w' h1 h2 hreg
    by_cases hr1 : r1 = r
    · by_cases hr2 : r2 = r
      · rw [hr1, hr2]
      · rw [update_of_ne hr2] at h2
        exact absurd (hr1 ▸ hreg.symm) (hapart r2 hr2 d' sy' w' h2)
    · rw [update_of_ne hr1] at h1
      by_cases hr2 : r2 = r
      · exact absurd (hr2 ▸ hreg) (hapart r1 hr1 d sy w h1)
      · rw [update_of_ne hr2] at h2
        exact hhands.apart r1 r2 d d' sy sy' w w' h1 h2 hreg

theorem Hands.regrip_set {new : Grip} (hhands : Hands c disk stored waiting regs grip)
    (hbuf : c'.buf = update c.buf (regs r) buf) (hdev : buf.dev = (c.buf (regs r)).dev)
    (hblock : buf.blockno = (c.buf (regs r)).blockno)
    (hapart : ∀ r', r' ≠ r → ∀ d sy w, grip r' = .held d sy w → regs r' ≠ regs r)
    (hwait : ∀ r', r' ≠ r → ∀ d, grip r' = .waiting d → (.commit, regs r') ∈ waiting')
    (hnew : c'.buf (regs r) = buf → new.Fits c' disk stored (regs r)) :
    Hands c' disk stored waiting' regs (update grip r new) := by
  refine hhands.regrip (fun i => ?_) (fun i _ hi => ?_) hapart hwait
    (hnew (by rw [hbuf, update_self]))
  · rw [hbuf]
    exact key_set hdev hblock i
  · rw [hbuf, update_of_ne hi]
    exact ⟨rfl, rfl, fun _ => ⟨rfl, rfl⟩⟩

theorem Hands.ne_of_held (hhands : Hands c disk stored waiting regs grip) {sy w : Bool}
    (hr : grip r = .held d sy w) :
    ∀ r', r' ≠ r → ∀ d' sy' w', grip r' = .held d' sy' w' → regs r' ≠ regs r := by
  intro r' hrr d' sy' w' hr' hreg
  exact hrr (hhands.apart r' r d' d sy' sy w' w hr' hr hreg)

end Contents

/-! ## The callers' steps -/

section Callers

variable {s : System} {grip : Reg → Grip} {pins : List ℕ} {b : ℕ}

variable {pid : ℕ} {cache : Bcache}

section

variable (hcoherent : Coherent s grip pins)

include hcoherent

theorem Coherent.bget_caller {blockno : ℕ} (hget : bget s.cache rootDev blockno = .ok (b, cache)) :
    Coherent (s.enter (.caller pid) b cache) grip pins := by
  obtain ⟨hshelf, htaken⟩ := hcoherent.shelf.bget (.caller pid) hget
  exact ⟨hshelf, hcoherent.shown.taken htaken,
    hcoherent.hands.taken hcoherent.shelf htaken (.caller pid)⟩

theorem Coherent.fill_caller (hwait : (.caller pid, b) ∈ s.waiting)
    (hfill : fill s.cache s.disk b (.caller pid) = some cache) :
    Coherent (s.leave (.caller pid) b cache) grip pins := by
  have hshelf := hcoherent.shelf
  have hnewShelf := hshelf.fill hwait hfill
  obtain ⟨hfree, rfl⟩ := fill_eq_some_iff.mp hfill
  have hb := hshelf.bound _ hwait
  have hdev := hshelf.dev_of_refcnt hb (hshelf.refcnt_of_waiting hwait)
  refine ⟨hnewShelf, hcoherent.shown.set rfl fun _ _ => ?_, ?_⟩
  · exact hshelf.filled hcoherent.shown hb hdev hfree
  · refine hcoherent.hands.set rfl rfl (by simp [hfree]) (by simp) (fun _ _ _ _ => ⟨rfl, rfl⟩) ?_
    intro i hi
    exact (mem_erase_of_ne (by simp)).mpr hi

theorem Coherent.store_caller {data : Memory} {buf : Buf} {pins' : List ℕ} {disk : ℕ → Memory}
    {log : Log} (hb : b < nbuf) (hheld : (s.cache.buf b).holder = some (.caller pid))
    (hdev : buf.dev = (s.cache.buf b).dev) (hblock : buf.blockno = (s.cache.buf b).blockno)
    (hholder : buf.holder = (s.cache.buf b).holder) (hdata : buf.data = data)
    (hshelf : Shelf (s.cache.set b buf) s.waiting pins')
    (hdisk : ∀ d, d ≠ (s.cache.buf b).blockno → disk d = s.disk d)
    (hpins : ∀ d, d ∉ pins' → d ≠ (s.cache.buf b).blockno → d ∉ pins)
    (hclean : (s.cache.buf b).blockno ∉ pins' → disk (s.cache.buf b).blockno = data) :
    Coherent { s with
      cache := s.cache.set b buf
      disk := disk
      log := log
      stored := update s.stored (s.cache.buf b).blockno data } grip pins' := by
  have hold := hcoherent.shelf
  have hdevb := hold.dev_of_refcnt hb (hold.refcnt_of_holder hb (by simp [hheld]))
  have hother : ∀ i < nbuf, i ≠ b → (s.cache.buf i).dev = rootDev →
      (s.cache.buf i).blockno ≠ (s.cache.buf b).blockno := fun i hi hne hdevi =>
    hold.blockno_ne hi hb hdevi hdevb hne
  refine ⟨hshelf, ⟨fun i hi hvalid hnot => ?_, fun d hd => ?_⟩, ?_⟩
  · dsimp only at hvalid hnot ⊢
    by_cases hib : i = b
    · subst hib
      rw [buf_set_self, hblock, hdata, update_self]
    · rw [buf_set_of_ne _ hib] at hvalid hnot ⊢
      rw [update_of_ne (hother i hi hib (hold.dev_of_valid hi hvalid))]
      exact hcoherent.shown.data i hi hvalid hnot
  · dsimp only at hd ⊢
    by_cases heq : d = (s.cache.buf b).blockno
    · subst heq
      rw [update_self]
      exact hclean hd
    · rw [update_of_ne heq, hdisk d heq]
      exact hcoherent.shown.clean d (hpins d hd heq)
  · refine hcoherent.hands.set hdev hblock (by simp [hheld]) (by simp [hholder, hheld]) ?_
      fun _ h => h
    intro i hi hne hcommit
    have hdevi := hold.dev_of_refcnt hi (hold.refcnt_of_holder hi (by simp [hcommit]))
    have hblocki := hother i hi hne hdevi
    exact ⟨update_of_ne hblocki _ _, hdisk _ hblocki⟩

theorem Coherent.brelse_caller (hb : b < nbuf)
    (hrelease : brelse s.cache b (.caller pid) = .ok cache) :
    Coherent { s with cache := cache } grip pins := by
  have hshelf := hcoherent.shelf.brelse hb hrelease
  have hheld := (brelse_eq_ok_iff.mp hrelease).1
  have hbuf := buf_brelse hrelease
  refine ⟨hshelf, hcoherent.shown.set hbuf fun hvalid _ =>
    hcoherent.shown.data b hb hvalid (by simp [hheld]), ?_⟩
  refine hcoherent.hands.congr (fun i => ?_) (fun i hi => ?_) (fun i hi hcommit => ?_) fun _ h => h
  · dsimp only
    rw [hbuf]
    exact key_set (c := s.cache) (by rfl) (by rfl) i
  · dsimp only
    rw [hbuf]
    by_cases hib : i = b
    · subst hib
      rw [update_self]
      simp [hheld]
    · rw [update_of_ne hib]
  · dsimp only
    have hib : i ≠ b := by
      rintro rfl
      rw [hheld] at hcommit
      cases hcommit
    rw [hbuf, update_of_ne hib]
    exact ⟨rfl, rfl, rfl⟩

end

end Callers

/-! ## The instructions of `commit` -/

/-- The rest of the script can be followed from these grips: it lets go of a buffer only
with its contents stored, of a pin only with them on the disk. -/
def Sound : List Instr → List ℕ → List ℕ → (Reg → Grip) → Prop
  | [], _, _, _ => False
  | .bget r blockno :: rest, lh, pins, grip =>
    grip r = .free ∧ (∀ r' d, grip r' ≠ .waiting d) ∧
      ((∀ r', grip r' = .free) ∨ blockno ∈ pins ∧ ∀ r' sy w, grip r' ≠ .held blockno sy w) ∧
      Sound rest lh pins (update grip r (.waiting blockno))
  | .fill r :: rest, lh, pins, grip =>
    ∃ d, grip r = .waiting d ∧ (∀ r' sy w, grip r' ≠ .held d sy w) ∧
      Sound rest lh pins (update grip r (.held d true false))
  | .memmove dst src :: rest, lh, pins, grip =>
    (∃ d sy w, grip src = .held d sy w) ∧
      ∃ d sy w, grip dst = .held d sy w ∧
        Sound rest lh pins (update grip dst (.held d false false))
  | .putHead r :: rest, lh, pins, grip =>
    ∃ d sy w, grip r = .held d sy w ∧
      Sound rest lh pins (update grip r (.held d false false))
  | .bwrite r :: rest, lh, pins, grip =>
    ∃ d sy w, grip r = .held d sy w ∧
      Sound rest lh pins (update grip r (.held d true true))
  | .brelse r :: rest, lh, pins, grip =>
    ∃ d w, grip r = .held d true w ∧ Sound rest lh pins (update grip r .free)
  | .bunpin r :: rest, lh, pins, grip =>
    ∃ d, grip r = .held d true true ∧ d ∈ pins ∧ Sound rest lh (pins.erase d) grip
  | .clear :: rest, _, pins, grip => pins = [] ∧ Sound rest [] pins grip
  | .finish :: rest, lh, pins, grip => rest = [] ∧ lh = [] ∧ pins = [] ∧ ∀ r, grip r = .free

section Commit

variable {s s' : System} {grip : Reg → Grip} {pins : List ℕ}

variable {r : Reg} {d : ℕ} {w : Bool}

theorem exec_bget_inv {blockno : ℕ} (hexec : s.exec (.bget r blockno) = .ok (some s')) :
    ∃ b cache, bget s.cache rootDev blockno = .ok (b, cache) ∧
      s' = { s.enter .commit b cache with regs := update s.regs r b } := by
  simp only [System.exec] at hexec
  split at hexec <;> cases hexec
  exact ⟨_, _, ‹_›, rfl⟩

theorem exec_fill_inv (hexec : s.exec (.fill r) = .ok (some s')) :
    ∃ cache, fill s.cache s.disk (s.regs r) .commit = some cache ∧
      s' = s.leave .commit (s.regs r) cache := by
  simp only [System.exec] at hexec
  split at hexec <;> cases hexec
  exact ⟨_, ‹_›, rfl⟩

theorem bwrite_eq_ok_iff {c : Bcache} {disk disk' : ℕ → Memory} {b : ℕ} {owner : Owner} :
    bwrite c disk b owner = .ok disk' ↔ (c.buf b).holder = some owner ∧
      disk' = update disk (c.buf b).blockno (c.buf b).data := by
  unfold bwrite
  split
  · rename_i hheld
    rw [Except.ok.injEq]
    exact ⟨fun h => ⟨hheld, h.symm⟩, fun h => h.2.symm⟩
  · rename_i hheld
    exact ⟨nofun, fun h => absurd h.1 hheld⟩

theorem exec_bwrite_inv (hexec : s.exec (.bwrite r) = .ok (some s')) :
    s' = { s with
      disk := update s.disk (s.cache.buf (s.regs r)).blockno (s.cache.buf (s.regs r)).data
      stored := update s.stored (s.cache.buf (s.regs r)).blockno
        (s.cache.buf (s.regs r)).data } := by
  simp only [System.exec] at hexec
  split at hexec <;> cases hexec
  obtain ⟨-, rfl⟩ := bwrite_eq_ok_iff.mp ‹_›
  rfl

theorem exec_brelse_inv (hexec : s.exec (.brelse r) = .ok (some s')) :
    ∃ cache, brelse s.cache (s.regs r) .commit = .ok cache ∧ s' = { s with cache := cache } := by
  simp only [System.exec] at hexec
  split at hexec <;> cases hexec
  exact ⟨_, ‹_›, rfl⟩

section

variable (hcoherent : Coherent s grip pins)

include hcoherent

theorem Coherent.exec_bget {blockno : ℕ} (hfree : grip r = .free)
    (hwaits : ∀ r' d, grip r' ≠ .waiting d) (hexec : s.exec (.bget r blockno) = .ok (some s')) :
    Coherent s' (update grip r (.waiting blockno)) pins := by
  obtain ⟨b, cache, hget, rfl⟩ := exec_bget_inv hexec
  obtain ⟨hshelf, htaken⟩ := hcoherent.shelf.bget .commit hget
  have hhands := hcoherent.hands.taken hcoherent.shelf htaken .commit
  refine ⟨hshelf, hcoherent.shown.taken htaken, ?_, ?_, ?_, ?_, ?_⟩
  · intro r' d hr'
    by_cases hrr : r' = r
    · subst hrr
      rw [update_self, Grip.waiting.injEq] at hr'
      subst hr'
      dsimp only
      rw [update_self]
      exact ⟨htaken.caches, mem_cons_self⟩
    · rw [update_of_ne hrr] at hr'
      exact absurd hr' (hwaits r' d)
  · intro r' d sy w hr'
    have hrr : r' ≠ r := by
      rintro rfl
      rw [update_self] at hr'
      cases hr'
    rw [update_of_ne hrr] at hr'
    dsimp only
    rw [update_of_ne hrr]
    exact hhands.held r' d sy w hr'
  · intro r1 r2 d d' h1 h2
    by_cases hr1 : r1 = r
    · by_cases hr2 : r2 = r
      · rw [hr1, hr2]
      · rw [update_of_ne hr2] at h2
        exact absurd h2 (hwaits r2 d')
    · rw [update_of_ne hr1] at h1
      exact absurd h1 (hwaits r1 d)
  · intro i hi hheld
    obtain ⟨r', d, sy, w, hr', hreg⟩ := hhands.owner i hi hheld
    have hrr : r' ≠ r := by
      rintro rfl
      rw [hfree] at hr'
      cases hr'
    refine ⟨r', d, sy, w, ?_, ?_⟩
    · rw [update_of_ne hrr]
      exact hr'
    · dsimp only
      rw [update_of_ne hrr]
      exact hreg
  · intro r1 r2 d d' sy sy' w w' h1 h2 hreg
    have hr1 : r1 ≠ r := by
      rintro rfl
      rw [update_self] at h1
      cases h1
    have hr2 : r2 ≠ r := by
      rintro rfl
      rw [update_self] at h2
      cases h2
    rw [update_of_ne hr1] at h1
    rw [update_of_ne hr2] at h2
    dsimp only at hreg
    rw [update_of_ne hr1, update_of_ne hr2] at hreg
    exact hhands.apart r1 r2 d d' sy sy' w w' h1 h2 hreg

theorem Coherent.exec_fill (hr : grip r = .waiting d) (hexec : s.exec (.fill r) = .ok (some s')) :
    Coherent s' (update grip r (.held d true false)) pins ∧
      (s'.cache.buf (s.regs r)).data = s.stored d := by
  obtain ⟨cache, hfill, rfl⟩ := exec_fill_inv hexec
  have hshelf := hcoherent.shelf
  obtain ⟨⟨hb, hdev, hblock⟩, hwait⟩ := hcoherent.hands.waiting r d hr
  have hnewShelf := hshelf.fill hwait hfill
  obtain ⟨hfree, rfl⟩ := fill_eq_some_iff.mp hfill
  have hfilled := (hshelf.filled hcoherent.shown hb hdev hfree).trans (congrArg s.stored hblock)
  refine ⟨⟨hnewShelf, hcoherent.shown.set rfl fun _ hnot => absurd rfl hnot, ?_⟩,
    (congrArg Buf.data (buf_set_self _)).trans hfilled⟩
  refine hcoherent.hands.regrip_set rfl rfl rfl (fun r' _ d' sy w hr' hreg => ?_)
    (fun r' hrr d' hr' => absurd (hcoherent.hands.single r' r d' d hr' hr) hrr) fun hself => ?_
  · have hheld := (hcoherent.hands.held r' d' sy w hr').2.1
    rw [hreg, hfree] at hheld
    cases hheld
  · rw [Grip.Fits, Caches, hself]
    exact ⟨⟨hb, hdev, hblock⟩, rfl, fun _ => hfilled, nofun⟩

variable {sy : Bool}

theorem Coherent.exec_modify (hr : grip r = .held d sy w) (data : Memory) :
    Coherent { s with cache := modify s.cache (s.regs r) data }
      (update grip r (.held d false false)) pins := by
  obtain ⟨⟨hb, hdev, hblock⟩, hheld, -, -⟩ := hcoherent.hands.held r d sy w hr
  refine ⟨hcoherent.shelf.modify hb data,
    hcoherent.shown.set rfl fun _ hnot => absurd hheld hnot, ?_⟩
  refine hcoherent.hands.regrip_set rfl rfl rfl (hcoherent.hands.ne_of_held hr)
    (fun r' _ d' hr' => (hcoherent.hands.waiting r' d' hr').2) fun hself => ?_
  rw [Grip.Fits, Caches, hself]
  exact ⟨⟨hb, hdev, hblock⟩, hheld, nofun, nofun⟩

theorem Coherent.exec_bwrite (hr : grip r = .held d sy w)
    (hexec : s.exec (.bwrite r) = .ok (some s')) :
    Coherent s' (update grip r (.held d true true)) pins := by
  have hs' := exec_bwrite_inv hexec
  obtain ⟨⟨hb, hdev, hblock⟩, hheld, -, -⟩ := hcoherent.hands.held r d sy w hr
  rw [hblock] at hs'
  subst hs'
  have hne : ∀ i < nbuf, i ≠ s.regs r → (s.cache.buf i).dev = rootDev →
      (s.cache.buf i).blockno ≠ d := by
    intro i hi hir hdevi
    rw [← hblock]
    exact hcoherent.shelf.blockno_ne hi hb hdevi hdev hir
  refine ⟨hcoherent.shelf, ⟨fun i hi hvalid hnot => ?_, fun e he => ?_⟩, ?_⟩
  · have hir : i ≠ s.regs r := by
      rintro rfl
      exact hnot hheld
    dsimp only at hvalid hnot ⊢
    rw [update_of_ne (hne i hi hir (hcoherent.shelf.dev_of_valid hi hvalid))]
    exact hcoherent.shown.data i hi hvalid hnot
  · dsimp only
    rw [update_apply, update_apply, hcoherent.shown.clean e he]
  · refine hcoherent.hands.regrip (fun i => ⟨rfl, rfl⟩) (fun i hi hir => ⟨rfl, rfl, fun hcommit => ?_⟩)
      (hcoherent.hands.ne_of_held hr) (fun r' _ d' hr' => (hcoherent.hands.waiting r' d' hr').2)
      ⟨⟨hb, hdev, hblock⟩, hheld, fun _ => ?_, fun _ => ?_⟩
    · have hpos := hcoherent.shelf.refcnt_of_holder hi (by simp [hcommit])
      have hi' := hne i hi hir (hcoherent.shelf.dev_of_refcnt hi hpos)
      exact ⟨update_of_ne hi' _ _, update_of_ne hi' _ _⟩
    · dsimp only
      rw [update_self]
    · dsimp only
      rw [update_self]

theorem Coherent.exec_brelse (hr : grip r = .held d true w)
    (hexec : s.exec (.brelse r) = .ok (some s')) : Coherent s' (update grip r .free) pins := by
  obtain ⟨cache, hrelease, rfl⟩ := exec_brelse_inv hexec
  obtain ⟨⟨hb, hdev, hblock⟩, hheld, hsync, -⟩ := hcoherent.hands.held r d true w hr
  refine ⟨hcoherent.shelf.brelse hb hrelease,
    hcoherent.shown.set (buf_brelse hrelease) fun _ _ => ?_, ?_⟩
  · exact (hsync rfl).trans (congrArg s.stored hblock.symm)
  · refine hcoherent.hands.regrip_set (buf_brelse hrelease) rfl rfl (hcoherent.hands.ne_of_held hr)
      (fun r' _ d' hr' => (hcoherent.hands.waiting r' d' hr').2) fun hself => ?_
    rw [Grip.Fits, hself]
    exact nofun

theorem Coherent.exec_bunpin (hr : grip r = .held d true true) (hmem : d ∈ pins) :
    Coherent { s with cache := bunpin s.cache (s.regs r) } grip (pins.erase d) := by
  obtain ⟨⟨hb, hdev, hblock⟩, hheld, hsync, hdisk⟩ := hcoherent.hands.held r d true true hr
  have hvalid := hcoherent.shelf.locked _ hb (by simp [hheld])
  have hshelf := hcoherent.shelf.bunpin hb hdev (hblock.symm ▸ hmem) hvalid
  rw [hblock] at hshelf
  refine ⟨hshelf, ⟨(hcoherent.shown.set rfl (by exact fun _ h => absurd hheld h)).data, fun e he => ?_⟩,
    hcoherent.hands.congr (key_set (by rfl) (by rfl))
      (fun i _ => Eq.congr_left (field_set Buf.holder (by rfl) i))
      (fun i _ _ => ⟨field_set Buf.data (by rfl) i, rfl, rfl⟩) fun _ h => h⟩
  by_cases heq : e = d
  · subst heq
    exact (hdisk rfl).trans (hsync rfl)
  · exact hcoherent.shown.clean e fun hin => he ((mem_erase_of_ne heq).mpr hin)

end

end Commit

end Xv6MallocLab.BufferCache
