import Xv6MallocLab.CacheRuns

/-!
# Buffers for a commit

The blocks of a transaction stay pinned until they are installed, and `commit` needs one
more buffer.  With `NBUF` equal to `LOGSIZE` a full transaction leaves none.
-/

namespace Xv6MallocLab.BufferCache

open ByteMemory Function List LogLayer

attribute [local irreducible] encodeHead nbuf

def runCommit : List Instr → System → Except Panic (Option System)
  | [], s => .ok (some s)
  | i :: rest, s =>
    match s.exec i with
    | .error panic => .error panic
    | .ok none => .ok none
    | .ok (some s') => runCommit rest { s' with script := rest }

theorem runCommit_cons {i : Instr} {rest : List Instr} {s s' : System}
    (hexec : s.exec i = .ok (some s')) :
    runCommit (i :: rest) s = runCommit rest { s' with script := rest } := by
  rw [runCommit, hexec]

inductive Paired : List Instr → Prop
  | nil : Paired []
  | bread (r : Reg) (d : ℕ) {rest : List Instr} (hrest : Paired rest) :
      Paired (.bget r d :: .fill r :: rest)
  | other (i : Instr) {rest : List Instr} (hget : ∀ r d, i ≠ .bget r d) (hfill : ∀ r, i ≠ .fill r)
      (hrest : Paired rest) : Paired (i :: rest)

theorem Paired.append {is js : List Instr} (his : Paired is) (hjs : Paired js) :
    Paired (is ++ js) := by
  induction his with
  | nil => exact hjs
  | bread r d hrest ih => exact .bread r d ih
  | other i hget hfill hrest ih => exact .other i hget hfill ih

theorem paired_flatMap {round : ℕ × ℕ → List Instr} (hround : ∀ e, Paired (round e))
    (entries : List (ℕ × ℕ)) : Paired (entries.flatMap round) := by
  induction entries with
  | nil => exact .nil
  | cons e entries ih =>
    rw [flatMap_cons]
    exact (hround e).append ih

theorem paired_writeLogRound (start : ℕ) (e : ℕ × ℕ) : Paired (writeLogRound start e) :=
  .bread _ _ (.bread _ _ (.other _ nofun nofun (.other _ nofun nofun (.other _ nofun nofun
    (.other _ nofun nofun .nil)))))

theorem paired_installRound (start : ℕ) (e : ℕ × ℕ) : Paired (installRound start e) :=
  .bread _ _ (.bread _ _ (.other _ nofun nofun (.other _ nofun nofun (.other _ nofun nofun
    (.other _ nofun nofun (.other _ nofun nofun .nil))))))

theorem paired_writeHead (log : Log) : Paired (writeHead log) :=
  .bread _ _ (.other _ nofun nofun (.other _ nofun nofun (.other _ nofun nofun .nil)))

theorem paired_commitScript (log : Log) : Paired (commitScript log) := by
  have hclear : Paired [Instr.clear] := .other _ nofun nofun .nil
  have hfinish : Paired [Instr.finish] := .other _ nofun nofun .nil
  unfold commitScript
  split
  · have hlog : Paired (writeLog log) := paired_flatMap (paired_writeLogRound log.start) _
    have hinstall : Paired (installTrans log) := paired_flatMap (paired_installRound log.start) _
    exact ((((hlog.append (paired_writeHead log)).append hinstall).append hclear).append
      (paired_writeHead log)).append hfinish
  · exact hfinish

structure Alone (s : System) : Prop where
  waiting : s.waiting = []
  held : ∀ i < nbuf, ∀ pid, (s.cache.buf i).holder ≠ some (.caller pid)

section Progress

variable {sequential : Bool} {start size : ℕ} {s s' : System} {grip : Reg → Grip} {pins : List ℕ}
  {rest : List Instr}

variable {i d : ℕ} {r : Reg}

theorem Coherent.holder_eq_none (hcoherent : Coherent s grip pins) (halone : Alone s)
    (hfree : ∀ r, grip r = .free) (hi : i < nbuf) : (s.cache.buf i).holder = none := by
  cases hheld : (s.cache.buf i).holder with
  | none => rfl
  | some owner =>
    cases owner with
    | caller pid => exact absurd hheld (halone.held i hi pid)
    | commit =>
      obtain ⟨r, d, sy, w, hr, -⟩ := hcoherent.hands.owner i hi hheld
      rw [hfree r] at hr
      cases hr

theorem Coherent.exists_unused (hcoherent : Coherent s grip pins) (halone : Alone s)
    (hfree : ∀ r, grip r = .free) (hfew : pins.length < nbuf) :
    ∃ i < nbuf, (s.cache.buf i).refcnt = 0 := by
  by_contra hnone
  have hall : ∀ i < nbuf, (s.cache.buf i).dev = rootDev ∧ (s.cache.buf i).blockno ∈ pins := by
    intro i hi
    have hpos : (s.cache.buf i).refcnt ≠ 0 := fun h => hnone ⟨i, hi, h⟩
    have hholder := hcoherent.holder_eq_none halone hfree hi
    have hrefs := hcoherent.shelf.refs i hi
    rw [halone.waiting, if_pos hholder] at hrefs
    by_contra hout
    rw [pinOf, if_neg hout] at hrefs
    exact hpos hrefs
  have hmap : ((List.range nbuf).map fun i => (s.cache.buf i).blockno).Nodup := by
    refine List.Nodup.map_on ?_ nodup_range
    intro i hi j hj heq
    rw [mem_range] at hi hj
    exact hcoherent.shelf.unique i j rootDev _ rfl ⟨hi, (hall i hi).1, heq⟩ ⟨hj, (hall j hj).1, rfl⟩
  have hsub : ((List.range nbuf).map fun i => (s.cache.buf i).blockno) ⊆ pins := by
    intro d hd
    obtain ⟨i, hi, rfl⟩ := mem_map.mp hd
    exact (hall i (mem_range.mp hi)).2
  have hle := (subperm_of_subset hmap hsub).length_le
  rw [length_map, length_range] at hle
  omega

theorem bget_alone (hcons : Consistent sequential start size s grip pins)
    (hscript : s.script = .bget r d :: rest) (halone : Alone s) (hfew : pins.length < nbuf) :
    ∃ b cache, bget s.cache rootDev d = .ok (b, cache) ∧ (cache.buf b).holder = none ∧
      Taken s.cache cache b d := by
  have hsound := (hcons.busy (by rw [hscript]; exact cons_ne_nil _ _)).1
  rw [hscript] at hsound
  obtain ⟨-, -, hroom, -⟩ := hsound
  have hshelf := hcons.coherent.shelf
  have hget : ∃ b cache, bget s.cache rootDev d = .ok (b, cache) := by
    rcases hshelf.listed.bget_cases rootDev d with ⟨b, -, hok⟩ | ⟨hout, ⟨b, -, -, hok⟩ | ⟨hfull, -⟩⟩
    · exact ⟨b, _, hok⟩
    · exact ⟨b, _, hok⟩
    · rcases hroom with hnone | ⟨hmem, -⟩
      · obtain ⟨i, hi, hzero⟩ := hcons.coherent.exists_unused halone hnone hfew
        exact absurd hzero (hfull i hi)
      · obtain ⟨i, hi, -⟩ := hshelf.pinned d hmem
        exact absurd hi (hout i)
  obtain ⟨b, cache, hget⟩ := hget
  have htaken := (hshelf.bget .commit hget).2
  refine ⟨b, cache, hget, ?_, htaken⟩
  cases hheld : (cache.buf b).holder with
  | none => rfl
  | some owner =>
    have hb := htaken.caches.1
    have hold := (htaken.holder_data b).1.symm.trans hheld
    cases owner with
    | caller pid => exact absurd hold (halone.held b hb pid)
    | commit =>
      obtain ⟨r', e, sy, w, hr', hreg⟩ := hcons.coherent.hands.owner b hb hold
      obtain ⟨hcaches, -⟩ := hcons.coherent.hands.held r' e sy w hr'
      have hpos := hshelf.refcnt_of_holder hb (by simp [hold])
      have hblock := (htaken.sameBlock hpos).2
      rw [htaken.caches.2.2, ← hreg, hcaches.2.2] at hblock
      subst hblock
      rcases hroom with hnone | ⟨-, hout⟩
      · rw [hnone r'] at hr'
        cases hr'
      · exact absurd hr' (hout r' sy w)

variable {cache c : Bcache} {waiting : List (Owner × ℕ)}

theorem exec_fill_ok (hfill : fill s.cache s.disk (s.regs r) .commit = some cache) :
    s.exec (.fill r) = .ok (some (s.leave .commit (s.regs r) cache)) := by
  simp only [System.exec, hfill]

theorem exec_bwrite_ok {disk : ℕ → Memory}
    (hwrite : bwrite s.cache s.disk (s.regs r) .commit = .ok disk) :
    s.exec (.bwrite r) = .ok (some { s with
      disk := disk
      stored := update s.stored (s.cache.buf (s.regs r)).blockno
        (s.cache.buf (s.regs r)).data }) := by
  simp only [System.exec, hwrite]

theorem exec_brelse_ok (hrelease : brelse s.cache (s.regs r) .commit = .ok cache) :
    s.exec (.brelse r) = .ok (some { s with cache := cache }) := by
  simp only [System.exec, hrelease]

theorem exec_bread_alone (hcons : Consistent sequential start size s grip pins)
    (hscript : s.script = .bget r d :: .fill r :: rest) (halone : Alone s)
    (hfew : pins.length < nbuf) :
    ∃ s1 s2, s.exec (.bget r d) = .ok (some s1) ∧
      ({ s1 with script := .fill r :: rest } : System).exec (.fill r) = .ok (some s2) ∧
      Alone s2 ∧ s2.log = s.log := by
  obtain ⟨b, cache, hget, hholder, htaken⟩ := bget_alone hcons hscript halone hfew
  have hfirst : s.exec (.bget r d) = .ok (some
      { s.enter .commit b cache with regs := update s.regs r b }) := by
    simp only [System.exec, hget]
  obtain ⟨filled, hfill, hholders⟩ : ∃ filled, fill cache s.disk b .commit = some filled ∧
      ∀ i, (filled.buf i).holder = some .commit ∨
        (filled.buf i).holder = (cache.buf i).holder := by
    refine ⟨_, fill_eq_some_iff.mpr ⟨hholder, rfl⟩, fun i => ?_⟩
    by_cases hib : i = b
    · subst hib
      rw [buf_set_self]
      exact .inl rfl
    · rw [buf_set_of_ne _ hib]
      exact .inr rfl
  have hregs : update s.regs r b r = b := update_self _ _ _
  rw [← hregs] at hfill
  refine ⟨_, _, hfirst, exec_fill_ok hfill, ⟨?_, fun i hi pid => ?_⟩, rfl⟩
  · change ((Owner.commit, b) :: s.waiting).erase (Owner.commit, update s.regs r b r) = []
    rw [hregs, erase_cons_head]
    exact halone.waiting
  · change (filled.buf i).holder ≠ _
    rcases hholders i with h | h
    · rw [h]
      simp
    · rw [h, (htaken.holder_data i).1]
      exact halone.held i hi pid

theorem exec_other_alone (hcons : Consistent sequential start size s grip pins) {i : Instr}
    (hscript : s.script = i :: rest) (halone : Alone s) (hget : ∀ r d, i ≠ .bget r d)
    (hfill : ∀ r, i ≠ .fill r) :
    ∃ s', s.exec i = .ok (some s') ∧ Alone s' ∧ (s'.log.lh = s.log.lh ∨ s'.log.lh = []) := by
  have hsound := (hcons.busy (by rw [hscript]; exact cons_ne_nil _ _)).1
  rw [hscript] at hsound
  have hkeep : ∀ {c : Bcache} {b : ℕ} {buf : Buf}, buf.holder = (c.buf b).holder →
      (∀ j < nbuf, ∀ pid, (c.buf j).holder ≠ some (.caller pid)) →
        ∀ j < nbuf, ∀ pid, ((c.set b buf).buf j).holder ≠ some (.caller pid) := by
    intro c b buf hholder hall j hj pid
    by_cases hjb : j = b
    · subst hjb
      rw [buf_set_self, hholder]
      exact hall j hj pid
    · rw [buf_set_of_ne _ hjb]
      exact hall j hj pid
  cases i with
  | bget r d => exact absurd rfl (hget r d)
  | fill r => exact absurd rfl (hfill r)
  | memmove dst src => exact ⟨_, rfl, ⟨halone.waiting, hkeep rfl halone.held⟩, .inl rfl⟩
  | putHead r => exact ⟨_, rfl, ⟨halone.waiting, hkeep rfl halone.held⟩, .inl rfl⟩
  | bwrite r =>
    obtain ⟨d, sy, w, hr, -⟩ := hsound
    have hheld := (hcons.coherent.hands.held r d sy w hr).2.1
    have hok := (@bwrite_eq_ok_iff s.cache s.disk _ (s.regs r) .commit).mpr ⟨hheld, rfl⟩
    exact ⟨_, exec_bwrite_ok hok, ⟨halone.waiting, halone.held⟩, .inl rfl⟩
  | brelse r =>
    obtain ⟨d, w, hr, -⟩ := hsound
    have hheld := (hcons.coherent.hands.held r d true w hr).2.1
    have hok := (@brelse_eq_ok_iff (s.regs r) .commit _ s.cache).mpr ⟨hheld, rfl⟩
    refine ⟨_, exec_brelse_ok hok, ⟨halone.waiting, fun j hj pid => ?_⟩, .inl rfl⟩
    dsimp only
    rw [buf_brelse hok]
    by_cases hjr : j = s.regs r
    · subst hjr
      rw [update_self]
      simp
    · rw [update_of_ne hjr]
      exact halone.held j hj pid
  | bunpin r => exact ⟨_, rfl, ⟨halone.waiting, hkeep rfl halone.held⟩, .inl rfl⟩
  | clear => exact ⟨_, rfl, ⟨halone.waiting, halone.held⟩, .inr rfl⟩
  | finish => exact ⟨_, rfl, ⟨halone.waiting, halone.held⟩, .inl rfl⟩

theorem sound_singleton {i : Instr} {lh : List ℕ} (hsound : Sound [i] lh pins grip) : lh = [] := by
  cases i with
  | bget r d => exact hsound.2.2.2.elim
  | fill r =>
    obtain ⟨d, -, -, hfalse⟩ := hsound
    exact hfalse.elim
  | memmove dst src =>
    obtain ⟨-, d, sy, w, -, hfalse⟩ := hsound
    exact hfalse.elim
  | putHead r =>
    obtain ⟨d, sy, w, -, hfalse⟩ := hsound
    exact hfalse.elim
  | bwrite r =>
    obtain ⟨d, sy, w, -, hfalse⟩ := hsound
    exact hfalse.elim
  | brelse r =>
    obtain ⟨d, w, -, hfalse⟩ := hsound
    exact hfalse.elim
  | bunpin r =>
    obtain ⟨d, -, -, hfalse⟩ := hsound
    exact hfalse.elim
  | clear => exact hsound.2.elim
  | finish => exact hsound.2.1

theorem runCommit_alone {script : List Instr} (hpaired : Paired script)
    (hinv : Invariant sequential start size s) (hscript : s.script = script) (halone : Alone s)
    (hfew : s.log.n < nbuf) (hlast : script = [] → s.log.lh = []) :
    ∃ s', runCommit script s = .ok (some s') ∧ Invariant sequential start size s' ∧
      s'.script = [] ∧ s'.log.lh = [] ∧ Alone s' := by
  induction hpaired generalizing s with
  | nil => exact ⟨s, rfl, hinv, hscript, hlast rfl, halone⟩
  | @bread r d rest hrest ih =>
    obtain ⟨grip, pins, hcons⟩ := id hinv
    have hpins : pins.length < nbuf := lt_of_le_of_lt hcons.few hfew
    obtain ⟨s1, s2, hfirst, hsecond, halone2, hlog⟩ :=
      exec_bread_alone hcons hscript halone hpins
    have hinv1 := hinv.commit hscript hfirst
    have hinv2 := hinv1.commit rfl hsecond
    rw [runCommit_cons hfirst, runCommit_cons hsecond]
    refine ih hinv2 rfl ⟨halone2.waiting, halone2.held⟩ ?_ ?_
    · change s2.log.n < nbuf
      rw [hlog]
      exact hfew
    · rintro rfl
      have hsound := (hcons.busy (by rw [hscript]; exact cons_ne_nil _ _)).1
      rw [hscript] at hsound
      obtain ⟨-, -, -, d', -, -, hfalse⟩ := hsound
      exact hfalse.elim
  | @other i rest hget hfill hrest ih =>
    obtain ⟨grip, pins, hcons⟩ := id hinv
    obtain ⟨s1, hexec, halone1, hlh⟩ := exec_other_alone hcons hscript halone hget hfill
    rw [runCommit_cons hexec]
    refine ih (hinv.commit hscript hexec) rfl ⟨halone1.waiting, halone1.held⟩ ?_ ?_
    · change s1.log.lh.length < nbuf
      rcases hlh with h | h
      · rw [h]
        exact hfew
      · rw [h]
        exact lt_of_le_of_lt (Nat.zero_le _) hfew
    · rintro rfl
      have hsound := (hcons.busy (by rw [hscript]; exact cons_ne_nil _ _)).1
      rw [hscript] at hsound
      rcases hlh with h | h
      · exact h.trans (sound_singleton hsound)
      · exact h

theorem Shelf.all_pinned (hshelf : Shelf c waiting pins) (hfull : nbuf ≤ pins.length)
    (hi : i < nbuf) : (c.buf i).dev = rootDev ∧ (c.buf i).blockno ∈ pins := by
  choose place hplace using hshelf.pinned
  have hsub : pins.attach.map (fun b => place b.1 b.2) ⊆ List.range nbuf := by
    intro j hj
    obtain ⟨b, -, rfl⟩ := mem_map.mp hj
    exact mem_range.mpr (hplace b.1 b.2).1.1
  have hnodup : (pins.attach.map fun b => place b.1 b.2).Nodup := by
    refine List.Nodup.map_on ?_ (nodup_attach.mpr hshelf.nodup)
    intro b _ b' _ heq
    have hb := (hplace b.1 b.2).1.2.2
    have hb' := (hplace b'.1 b'.2).1.2.2
    rw [heq] at hb
    exact Subtype.ext (hb.symm.trans hb')
  have hperm : (pins.attach.map fun b => place b.1 b.2).Perm (List.range nbuf) := by
    refine (subperm_of_subset hnodup hsub).perm_of_length_le ?_
    rw [length_map, length_attach, length_range]
    exact hfull
  have hmem := hperm.mem_iff.mpr (mem_range.mpr hi)
  obtain ⟨b, -, rfl⟩ := mem_map.mp hmem
  obtain ⟨-, hdev, hblock⟩ := (hplace b.1 b.2).1
  refine ⟨hdev, ?_⟩
  rw [hblock]
  exact b.2

theorem Shelf.bget_full (hshelf : Shelf c waiting pins) (hfull : nbuf ≤ pins.length)
    (hd : d ∉ pins) : BufferCache.bget c rootDev d = .error .noBuffers := by
  rcases hshelf.listed.bget_cases rootDev d with ⟨b, hcaches, -⟩ | ⟨-, ⟨b, hb, hzero, -⟩ | ⟨-, hpanic⟩⟩
  · have hmem := (hshelf.all_pinned hfull hcaches.1).2
    rw [hcaches.2.2] at hmem
    exact absurd hmem hd
  · have hrefs := hshelf.refs b hb
    have hpin : pinOf (c.buf b) pins = 1 := if_pos (hshelf.all_pinned hfull hb)
    omega
  · exact hpanic

theorem refcnt_alone (hcons : Consistent sequential start size s grip pins)
    (hscript : s.script = []) (halone : Alone s) (hi : i < nbuf) :
    (s.cache.buf i).refcnt = pinOf (s.cache.buf i) s.log.lh := by
  obtain ⟨rfl, rfl⟩ := hcons.quiet hscript
  have hholder := hcons.coherent.holder_eq_none halone (forall_reg.mpr ⟨rfl, rfl⟩) hi
  have hrefs := hcons.coherent.shelf.refs i hi
  rw [halone.waiting, if_pos hholder] at hrefs
  simpa using hrefs

theorem runCommit_full {log : Log} (hcons : Consistent sequential start size s grip pins)
    (hop : 1 ≤ s.log.outstanding) (hend : endOp s.log = .ok (log, true)) (hfull : ¬ log.n < nbuf) :
    runCommit (commitScript log) { s with log := log, script := commitScript log } =
      .error .noBuffers := by
  have hscript := hcons.script_eq_nil hop
  obtain ⟨-, -, hlog⟩ := endOp_eq_ok_iff.mp hend
  have hlh : log.lh = s.log.lh := by rw [hlog]
  have hstart : log.start = start := by
    rw [hlog]
    exact hcons.logStart
  have hshelf := hcons.coherent.shelf
  rw [(hcons.quiet hscript).1] at hshelf
  have hlen : nbuf ≤ s.log.lh.length := by
    rw [← hlh]
    exact Nat.not_lt.mp hfull
  have hpos : 0 < log.n := by
    refine lt_of_lt_of_le ?_ (Nat.not_lt.mp hfull)
    unfold nbuf
    omega
  have hout : log.start + 0 + 1 ∉ s.log.lh := by
    intro hmem
    rw [hstart] at hmem
    refine hcons.names.home _ hmem (hcons.names.inLog (i := 0) ?_)
    rw [← hlh]
    exact hpos
  have hget := hshelf.bget_full hlen hout
  obtain ⟨rest, hrest⟩ : ∃ rest, commitScript log = .bget .log (log.start + 0 + 1) :: rest := by
    unfold commitScript writeLog
    rw [if_pos hpos]
    cases hcase : log.lh with
    | nil =>
      rw [Log.n, hcase] at hpos
      exact absurd hpos (lt_irrefl 0)
    | cons b lh => exact ⟨_, rfl⟩
  rw [hrest, runCommit]
  simp only [System.exec, hget]

end Progress

/-- A commit that runs alone, nobody taking a buffer before it returns, comes to its end with
all pins dropped exactly when the transaction has fewer than `NBUF` blocks, and panics in its
first `bget` otherwise. -/
theorem commit_buffers {sequential : Bool} {start size : ℕ} {disk : ℕ → Memory} {s : System}
    {log : Log} (hreached : Reached sequential start size disk s) (hop : 1 ≤ s.log.outstanding)
    (hend : endOp s.log = .ok (log, true)) (halone : Alone s) :
    (∀ i < nbuf, (s.cache.buf i).refcnt = pinOf (s.cache.buf i) log.lh) ∧
    ((∃ s', runCommit (commitScript log) { s with log := log, script := commitScript log } =
        .ok (some s') ∧ s'.script = [] ∧ s'.log.lh = [] ∧
          ∀ i < nbuf, (s'.cache.buf i).refcnt = 0) ↔ log.n < nbuf) ∧
    (¬ log.n < nbuf →
      runCommit (commitScript log) { s with log := log, script := commitScript log } =
        .error .noBuffers) := by
  have hinv := Invariant.reached hreached
  have hstarted := hreached.step (Step.endOp hop hend)
  have hinv' := Invariant.reached hstarted
  obtain ⟨grip, pins, hcons⟩ := hinv
  have hscript := hcons.script_eq_nil hop
  have hlh : log.lh = s.log.lh := by
    obtain ⟨-, -, rfl⟩ := endOp_eq_ok_iff.mp hend
    rfl
  have hpanic := runCommit_full hcons hop hend
  refine ⟨fun i hi => ?_, ⟨?_, fun hfew => ?_⟩, hpanic⟩
  · rw [hlh]
    exact refcnt_alone hcons hscript halone hi
  · rintro ⟨s', hrun, -⟩
    by_contra hfull
    rw [hpanic hfull] at hrun
    cases hrun
  · have hsome : commitScript log ≠ [] := by
      unfold commitScript
      simp
    obtain ⟨s', hrun, ⟨grip', pins', hcons'⟩, hdone, hclear, halone'⟩ :=
      runCommit_alone (paired_commitScript log) hinv' rfl ⟨halone.waiting, halone.held⟩ hfew
        fun hnil => absurd hnil hsome
    refine ⟨s', hrun, hdone, hclear, fun i hi => ?_⟩
    rw [refcnt_alone hcons' hdone halone' hi, hclear]
    exact if_neg fun h => absurd h.2 not_mem_nil

section Full

variable {sequential : Bool} {start size : ℕ} {disk : ℕ → Memory} {s : System}

theorem log_block {d : ℕ} {log : Log} {pin : Bool} (hreached : Reached sequential start size disk s)
    (halone : Alone s) (hhome : ¬ InLog s.log.start s.log.size d) (hsmall : d < 2 ^ 32)
    (hwrite : logWrite s.log d = .ok (log, pin)) :
    ∃ s', Reached sequential start size disk s' ∧ Alone s' ∧ s'.log = log := by
  obtain ⟨grip, pins, hcons⟩ := Invariant.reached hreached
  obtain ⟨hroom, -, hop, -⟩ := logWrite_eq_ok_iff.mp hwrite
  obtain ⟨rfl, rfl⟩ := hcons.quiet (hcons.script_eq_nil hop)
  have hshelf := hcons.coherent.shelf
  obtain ⟨b, cache, hget⟩ : ∃ b cache, bget s.cache rootDev d = .ok (b, cache) := by
    obtain ⟨i, hi, hzero⟩ := hcons.coherent.exists_unused halone (forall_reg.mpr ⟨rfl, rfl⟩)
      (by unfold nbuf; exact hroom)
    rcases hshelf.listed.bget_cases rootDev d with ⟨b, -, hok⟩ | ⟨-, ⟨b, -, -, hok⟩ | ⟨hfull, -⟩⟩
    · exact ⟨b, _, hok⟩
    · exact ⟨b, _, hok⟩
    · exact absurd hzero (hfull i hi)
  have htaken := (hshelf.bget (.caller 0) hget).2
  have hb := htaken.caches.1
  have hholders : ∀ i < nbuf, (s.cache.buf i).holder = none := fun i hi =>
    hcons.coherent.holder_eq_none halone (forall_reg.mpr ⟨rfl, rfl⟩) hi
  have hentered := hreached.step (Step.bget 0 d hget)
  obtain ⟨filled, hfill, ⟨hheld, rfl⟩, hothers⟩ : ∃ filled,
      fill cache s.disk b (.caller 0) = some filled ∧
      ((filled.buf b).holder = some (.caller 0) ∧ (filled.buf b).blockno = d) ∧
        ∀ i, i ≠ b → (filled.buf i).holder = (cache.buf i).holder := by
    refine ⟨_, fill_eq_some_iff.mpr ⟨htaken.holder.trans (hholders b hb), rfl⟩, ?_, fun i hi => ?_⟩
    · rw [buf_set_self]
      exact ⟨rfl, htaken.caches.2.2⟩
    · rw [buf_set_of_ne _ hi]
  have hfilled := hentered.step (@Step.fill _ _ 0 b _ mem_cons_self hfill)
  have hlogged := hfilled.step (@Step.logWrite _ _ 0 b (fun _ => 1) _ _ hb hheld hhome hsmall hwrite)
  have hsame : ∀ i, ((if pin then bpin (modify filled b fun _ => 1) b
      else modify filled b fun _ => 1).buf i).holder = (filled.buf i).holder := by
    intro i
    unfold bpin modify
    by_cases hib : i = b
    · subst hib
      cases pin <;> simp
    · cases pin <;> simp [buf_set_of_ne _ hib]
  have hrelease := brelse_eq_ok_iff.mpr ⟨(hsame b).trans hheld, rfl⟩
  refine ⟨_, hlogged.step (Step.brelse hb hrelease), ⟨?_, fun i hi pid => ?_⟩, rfl⟩
  · change ((Owner.caller 0, b) :: s.waiting).erase (Owner.caller 0, b) = []
    rw [erase_cons_head]
    exact halone.waiting
  · dsimp only
    rw [buf_brelse hrelease]
    by_cases hib : i = b
    · subst hib
      rw [update_self]
      simp
    · rw [update_of_ne hib, hsame, hothers i hib, (htaken.holder_data i).1, hholders i hi]
      simp

theorem log_blocks {ds : List ℕ} {log : Log} (hreached : Reached sequential start size disk s)
    (halone : Alone s) (hall : logAll s.log ds = some log) :
    ∃ s', Reached sequential start size disk s' ∧ Alone s' ∧ s'.log = log := by
  induction ds generalizing s with
  | nil => exact ⟨s, hreached, halone, Option.some.inj hall⟩
  | cons d ds ih =>
    obtain ⟨hhome, hsmall, log1, pin, hwrite, hall⟩ := logAll_cons_eq_some_iff.mp hall
    obtain ⟨s1, hreached1, halone1, rfl⟩ := log_block hreached halone hhome hsmall hwrite
    exact ih hreached1 halone1 hall

end Full

theorem begun_alone (size : ℕ) : ∃ s, Reached true 2 size (fun _ _ => 0) s ∧ Alone s ∧
    s.log = { start := 2, size := size, outstanding := 1, committing := false, lh := [] } := by
  have hboot : Reached true 2 size (fun _ _ => 0) _ := Reached.boot
  refine ⟨_, hboot.step (Step.beginOp rfl), ⟨rfl, fun i _ pid => ?_⟩, rfl⟩
  change (binit.buf i).holder ≠ _
  rw [buf_binit]
  simp

theorem logged_alone {ds : List ℕ} {log : Log} (hall : logAll ⟨2, 31, 1, false, []⟩ ds = some log) :
    ∃ s, Reached true 2 31 (fun _ _ => 0) s ∧ Alone s ∧ s.log = log := by
  obtain ⟨s, hreached, halone, hlog⟩ := begun_alone 31
  rw [← hlog] at hall
  exact log_blocks hreached halone hall

/-- A transaction of thirty blocks, which `nlog = 31` admits, cannot commit. -/
theorem commit_starved : ∃ s log, Reached true 2 31 (fun _ _ => 0) s ∧ Alone s ∧
    1 ≤ s.log.outstanding ∧ endOp s.log = .ok (log, true) ∧ log.n = 30 ∧
    runCommit (commitScript log) { s with log := log, script := commitScript log } =
      .error .noBuffers := by
  obtain ⟨s, hreached, halone, hlog⟩ := @logged_alone (List.range' 100 30) _ rfl
  obtain ⟨grip, pins, hcons⟩ := Invariant.reached hreached
  have hop : 1 ≤ s.log.outstanding := by rw [hlog]
  have hend : endOp s.log = .ok ({ s.log with outstanding := 0, committing := true }, true) := by
    rw [hlog]
    rfl
  have hn : ({ s.log with outstanding := 0, committing := true } : Log).n = 30 := by
    rw [hlog]
    rfl
  refine ⟨s, _, hreached, halone, hop, hend, hn, runCommit_full hcons hop hend ?_⟩
  rw [hn]
  unfold nbuf
  omega

theorem commit_buffers_sample : ∃ s log s', Reached true 2 31 (fun _ _ => 0) s ∧ log.n = 29 ∧
    endOp s.log = .ok (log, true) ∧
    runCommit (commitScript log) { s with log := log, script := commitScript log } =
      .ok (some s') ∧ ∀ i < nbuf, (s'.cache.buf i).refcnt = 0 := by
  obtain ⟨s, hreached, halone, hlog⟩ := @logged_alone (List.range' 100 29) _ rfl
  have hop : 1 ≤ s.log.outstanding := by rw [hlog]
  have hend : endOp s.log = .ok ({ s.log with outstanding := 0, committing := true }, true) := by
    rw [hlog]
    rfl
  have hn : ({ s.log with outstanding := 0, committing := true } : Log).n = 29 := by
    rw [hlog]
    rfl
  have hfew : ({ s.log with outstanding := 0, committing := true } : Log).n < nbuf := by
    rw [hn]
    unfold nbuf
    omega
  obtain ⟨s', hrun, -, -, hzero⟩ := (commit_buffers hreached hop hend halone).2.1.mpr hfew
  exact ⟨s, _, s', hreached, hn, hend, hrun, hzero⟩

end Xv6MallocLab.BufferCache
