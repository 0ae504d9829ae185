import Xv6MallocLab.CommitScript

/-!
# Runs of the buffer cache

Every step of the callers and of `commit` keeps the cache coherent, so that
after any run a `bread` returns what was last stored for its block.
-/

namespace Xv6MallocLab.BufferCache

open ByteMemory Function List LogLayer

attribute [local irreducible] encodeHead nbuf

structure Consistent (sequential : Bool) (start size : ℕ) (s : System) (grip : Reg → Grip)
    (pins : List ℕ) : Prop where
  coherent : Coherent s grip pins
  logStart : s.log.start = start
  logSpan : s.log.size = size
  names : Names start size s.log.lh
  nodup : s.log.lh.Nodup
  few : pins.length ≤ s.log.lh.length
  quiet : s.script = [] → pins = s.log.lh ∧ grip = both .free .free
  busy : s.script ≠ [] → Sound s.script s.log.lh pins grip ∧ s.log.committing = true ∧
    s.log.outstanding = 0
  harmless : sequential = true → ∃ block data,
    Harmless (InLog start size) s.script s.log.lh block data s.stored ∧
      ∀ r d, (grip r = .waiting d → block r = d) ∧
        ∀ sy w, grip r = .held d sy w → block r = d ∧ data r = (s.cache.buf (s.regs r)).data

def Invariant (sequential : Bool) (start size : ℕ) (s : System) : Prop :=
  ∃ grip pins, Consistent sequential start size s grip pins

section Callers

variable {sequential : Bool} {start size : ℕ} {s s' : System} {grip : Reg → Grip} {pins : List ℕ}

theorem Consistent.frame (hcons : Consistent sequential start size s grip pins)
    (hcoherent : Coherent s' grip pins) (hlog : s'.log = s.log) (hscript : s'.script = s.script)
    (hregs : s'.regs = s.regs)
    (hstored : sequential = true → s.script ≠ [] → s'.stored = s.stored)
    (hdata : ∀ i < nbuf, (s.cache.buf i).holder = some .commit →
      (s'.cache.buf i).data = (s.cache.buf i).data) :
    Consistent sequential start size s' grip pins := by
  refine ⟨hcoherent, by rw [hlog]; exact hcons.logStart, by rw [hlog]; exact hcons.logSpan,
    by rw [hlog]; exact hcons.names, by rw [hlog]; exact hcons.nodup,
    by rw [hlog]; exact hcons.few, by rw [hlog, hscript]; exact hcons.quiet,
    by rw [hlog, hscript]; exact hcons.busy, ?_⟩
  intro hseq
  obtain ⟨block, data, hharmless, hgrips⟩ := hcons.harmless hseq
  refine ⟨block, data, ?_, fun r d => ⟨(hgrips r d).1, fun sy w hr => ?_⟩⟩
  · rw [hscript, hlog]
    by_cases hnil : s.script = []
    · rw [hnil]
      trivial
    · rw [hstored hseq hnil]
      exact hharmless
  · obtain ⟨hcaches, hheld, -, -⟩ := hcons.coherent.hands.held r d sy w hr
    rw [hregs, hdata _ hcaches.1 hheld]
    exact (hgrips r d).2 sy w hr

variable {pid b : ℕ} {cache : Bcache} {log : Log}

section

variable (hcons : Consistent sequential start size s grip pins)

include hcons

theorem Consistent.bget {blockno : ℕ} (hget : bget s.cache rootDev blockno = .ok (b, cache)) :
    Consistent sequential start size (s.enter (.caller pid) b cache) grip pins := by
  refine hcons.frame (hcons.coherent.bget_caller hget) rfl rfl rfl (fun _ _ => rfl) fun i _ _ => ?_
  exact ((hcons.coherent.shelf.bget (.caller pid) hget).2.holder_data i).2

theorem Consistent.fill (hwait : (.caller pid, b) ∈ s.waiting)
    (hfill : fill s.cache s.disk b (.caller pid) = some cache) :
    Consistent sequential start size (s.leave (.caller pid) b cache) grip pins := by
  refine hcons.frame (hcons.coherent.fill_caller hwait hfill) rfl rfl rfl (fun _ _ => rfl)
    fun i _ hheld => ?_
  obtain ⟨hfree, rfl⟩ := fill_eq_some_iff.mp hfill
  have hib : i ≠ b := by
    rintro rfl
    rw [hfree] at hheld
    cases hheld
  change ((s.cache.set b _).buf i).data = _
  rw [buf_set_of_ne _ hib]

theorem Consistent.bwrite {data : Memory} {disk : ℕ → Memory} (hb : b < nbuf)
    (hquiet : sequential = true → s.script = [])
    (hwrite : bwrite (modify s.cache b data) s.disk b (.caller pid) = .ok disk) :
    Consistent sequential start size { s with
      cache := modify s.cache b data
      disk := disk
      stored := update s.stored (s.cache.buf b).blockno data } grip pins := by
  obtain ⟨hheld, hdisk⟩ := bwrite_eq_ok_iff.mp hwrite
  have hbuf : (modify s.cache b data).buf b = { s.cache.buf b with data := data } := buf_set_self _
  rw [hbuf] at hheld hdisk
  dsimp only at hheld hdisk
  have hshelf := hcons.coherent.shelf.modify hb data
  refine hcons.frame ?_ rfl rfl rfl (fun hseq hne => absurd (hquiet hseq) hne) fun i _ hcommit => ?_
  · refine hcons.coherent.store_caller hb hheld rfl rfl rfl rfl hshelf (fun d hd => ?_)
      (fun d hd _ => hd) fun _ => ?_
    · rw [hdisk, update_of_ne hd]
    · rw [hdisk, update_self]
  · have hib : i ≠ b := by
      rintro rfl
      rw [hheld] at hcommit
      cases hcommit
    change ((s.cache.set b _).buf i).data = _
    rw [buf_set_of_ne _ hib]

theorem Consistent.brelse (hb : b < nbuf) (hrelease : brelse s.cache b (.caller pid) = .ok cache) :
    Consistent sequential start size { s with cache := cache } grip pins := by
  refine hcons.frame (hcons.coherent.brelse_caller hb hrelease) rfl rfl rfl (fun _ _ => rfl)
    fun i _ _ => ?_
  dsimp only
  rw [buf_brelse hrelease]
  by_cases hib : i = b
  · subst hib
    rw [update_self]
  · rw [update_of_ne hib]

theorem Consistent.script_eq_nil (hout : 1 ≤ s.log.outstanding) : s.script = [] := by
  by_contra hne
  have hzero := (hcons.busy hne).2.2
  omega

end

variable {lh : List ℕ}

theorem both_free (r : Reg) : both Grip.free .free r = .free := by
  cases r with
  | log => rfl
  | home => rfl

theorem eq_free {g : Grip} {r : Reg} (h : both Grip.free .free r = g) : g = .free :=
  h.symm.trans (both_free r)

theorem harmless_nil {stored : ℕ → Memory} {regs : Reg → ℕ} :
    ∃ block data, Harmless (InLog start size) [] lh block data stored ∧
      ∀ r d, (both Grip.free .free r = .waiting d → block r = d) ∧
        ∀ sy w, both Grip.free .free r = .held d sy w →
          block r = d ∧ data r = (cache.buf (regs r)).data := by
  refine ⟨fun _ => 0, fun _ _ => 0, trivial, fun r d => ⟨fun h => ?_, fun sy w h => ?_⟩⟩
  · cases eq_free h
  · cases eq_free h

theorem names_record {blockno : ℕ} (hnames : Names start size lh)
    (hhome : ¬ InLog start size blockno) (hsmall : blockno < 2 ^ 32) (hn : lh.length < logSize)
    (hspan : lh.length + 1 < size) : Names start size (record lh blockno) := by
  have hlen := length_record_le lh blockno
  refine ⟨fun b hb => ?_, fun b hb => ?_, by omega, fun _ => by omega⟩
  · rcases mem_record.mp hb with rfl | hb
    · exact hhome
    · exact hnames.home b hb
  · rcases mem_record.mp hb with rfl | hb
    · exact hsmall
    · exact hnames.small b hb

section

variable (hcons : Consistent sequential start size s grip pins)

include hcons

theorem Consistent.logWrite {data : Memory} {pin : Bool} (hb : b < nbuf)
    (hheld : (s.cache.buf b).holder = some (.caller pid))
    (hhome : ¬ InLog s.log.start s.log.size (s.cache.buf b).blockno)
    (hsmall : (s.cache.buf b).blockno < 2 ^ 32)
    (hwrite : logWrite s.log (s.cache.buf b).blockno = .ok (log, pin)) :
    Consistent sequential start size { s with
      cache := if pin then bpin (modify s.cache b data) b else modify s.cache b data
      log := log
      stored := update s.stored (s.cache.buf b).blockno data } grip
      (record s.log.lh (s.cache.buf b).blockno) := by
  obtain ⟨hn, hspan, hout, rfl, rfl⟩ := logWrite_eq_ok_iff.mp hwrite
  have hscript := hcons.script_eq_nil hout
  obtain ⟨rfl, rfl⟩ := hcons.quiet hscript
  have hbuf : (modify s.cache b data).buf b = { s.cache.buf b with data := data } := buf_set_self _
  have hmodified := hcons.coherent.shelf.modify hb data
  rw [hcons.logStart, hcons.logSpan] at hhome
  rw [hcons.logSpan] at hspan
  refine ⟨?_, hcons.logStart, hcons.logSpan,
    names_record hcons.names hhome hsmall hn hspan, nodup_record hcons.nodup, le_rfl,
    fun _ => ⟨rfl, rfl⟩, fun hne => absurd hscript hne, fun _ => ?_⟩
  · by_cases hmem : (s.cache.buf b).blockno ∈ s.log.lh
    · have hrecord : record s.log.lh (s.cache.buf b).blockno = s.log.lh := if_pos hmem
      simp only [hmem, not_true_eq_false, decide_false, Bool.false_eq_true, if_false, hrecord]
      exact hcons.coherent.store_caller hb hheld rfl rfl rfl rfl hmodified (fun _ _ => rfl)
        (fun d hd _ => hd) fun hout => absurd hmem hout
    · have hrecord : record s.log.lh (s.cache.buf b).blockno =
          s.log.lh ++ [(s.cache.buf b).blockno] := if_neg hmem
      simp only [hmem, not_false_eq_true, decide_true, if_true, hrecord]
      have hpinned := hmodified.bpin hb (by rw [hbuf]; simp [hheld]) (by rw [hbuf]; exact hmem)
      rw [hbuf] at hpinned
      have hset : bpin (modify s.cache b data) b = s.cache.set b
          { s.cache.buf b with data := data, refcnt := (s.cache.buf b).refcnt + 1 } := by
        unfold bpin
        rw [hbuf]
        unfold modify Bcache.set
        simp
      rw [hset] at hpinned ⊢
      refine hcons.coherent.store_caller hb hheld rfl rfl rfl rfl hpinned (fun _ _ => rfl)
        (fun d hd _ hin => hd (mem_append_left _ hin)) fun hout => ?_
      exact absurd (mem_append_right _ (mem_singleton.mpr rfl)) hout
  · dsimp only
    rw [hscript]
    exact harmless_nil

theorem Consistent.beginOp (hbegin : beginOp s.log = some log) :
    Consistent sequential start size { s with log := log } grip pins := by
  obtain ⟨hcommitting, -, rfl⟩ := beginOp_eq_some_iff.mp hbegin
  have hscript : s.script = [] := by
    by_contra hne
    rw [(hcons.busy hne).2.1] at hcommitting
    cases hcommitting
  exact { hcons with
    coherent := { hcons.coherent with }
    busy := fun hne => absurd hscript hne }

theorem Consistent.endOp {commit : Bool} (hop : 1 ≤ s.log.outstanding)
    (hend : endOp s.log = .ok (log, commit)) :
    Consistent sequential start size
      { s with log := log, script := if commit then commitScript log else s.script } grip pins := by
  obtain ⟨-, hcommit, rfl⟩ := endOp_eq_ok_iff.mp hend
  have hscript := hcons.script_eq_nil hop
  obtain ⟨rfl, rfl⟩ := hcons.quiet hscript
  have hcoherent : Coherent { s with
      log := { s.log with outstanding := s.log.outstanding - 1, committing := commit }
      script := if commit then commitScript
        { s.log with outstanding := s.log.outstanding - 1, committing := commit } else s.script }
      (both .free .free) s.log.lh :=
    { hcons.coherent with }
  cases commit with
  | false =>
    exact { hcons with coherent := hcoherent, busy := fun hne => absurd hscript hne }
  | true =>
    have hone : s.log.outstanding = 1 := by
      rw [eq_comm, decide_eq_true_iff] at hcommit
      exact hcommit
    have hnames := hcons.names
    rw [← hcons.logStart] at hnames
    refine ⟨hcoherent, hcons.logStart, hcons.logSpan, hcons.names, hcons.nodup, le_rfl,
      fun hnil => ⟨rfl, rfl⟩, fun _ => ⟨sound_commitScript hnames, rfl, ?_⟩, fun _ => ?_⟩
    · change s.log.outstanding - 1 = 0
      omega
    · refine ⟨fun _ => 0, fun _ _ => 0, ?_, fun r d => ⟨fun h => ?_, fun sy w h => ?_⟩⟩
      · rw [← hcons.logStart]
        exact harmless_commitScript hnames
      · cases eq_free h
      · cases eq_free h

end

end Callers

section Commit

variable {sequential : Bool} {start size : ℕ} {s s' : System} {grip grip' : Reg → Grip}
  {pins pins' : List ℕ} {rest : List Instr}

def Follows (s : System) (grip : Reg → Grip) (block : Reg → ℕ) (data : Reg → Memory) : Prop :=
  ∀ r d, (grip r = .waiting d → block r = d) ∧
    ∀ sy w, grip r = .held d sy w → block r = d ∧ data r = (s.cache.buf (s.regs r)).data

theorem sound_ne_nil {lh : List ℕ} (hsound : Sound rest lh pins grip) : rest ≠ [] := by
  rintro rfl
  exact hsound

variable {i : Instr} {d : ℕ}

theorem Consistent.advance (hcons : Consistent sequential start size s grip pins)
    (hscript : s.script = i :: rest) (hcoherent : Coherent s' grip' pins') (hlog : s'.log = s.log)
    (hsound : Sound rest s.log.lh pins' grip') (hfew : pins'.length ≤ pins.length)
    (hharmless : ∀ block data, Harmless (InLog start size) (i :: rest) s.log.lh block data s.stored →
      Follows s grip block data → ∃ block data,
        Harmless (InLog start size) rest s.log.lh block data s'.stored ∧
          Follows s' grip' block data) :
    Consistent sequential start size { s' with script := rest } grip' pins' := by
  have hbusy := hcons.busy (by rw [hscript]; exact cons_ne_nil _ _)
  refine ⟨{ hcoherent with }, by
    dsimp only; rw [hlog]; exact hcons.logStart, by dsimp only; rw [hlog]; exact hcons.logSpan, by
    dsimp only; rw [hlog]; exact hcons.names, by dsimp only; rw [hlog]; exact hcons.nodup, by
    dsimp only; rw [hlog]; exact hfew.trans hcons.few,
    fun hnil => absurd hnil (sound_ne_nil hsound), fun _ => ?_, fun hseq => ?_⟩
  · dsimp only
    rw [hlog]
    exact ⟨hsound, hbusy.2⟩
  · obtain ⟨block, data, hold, hfollows⟩ := hcons.harmless hseq
    rw [hscript] at hold
    dsimp only
    rw [hlog]
    exact hharmless block data hold hfollows

variable {r : Reg}

/-- The script of a commit is in order at every instruction. -/
theorem Consistent.next (hcons : Consistent sequential start size s grip pins)
    (hscript : s.script = i :: rest) : Sound (i :: rest) s.log.lh pins grip := by
  rw [← hscript]
  exact (hcons.busy (by rw [hscript]; exact cons_ne_nil _ _)).1

variable {block block' : Reg → ℕ} {data data' : Reg → Memory}

/-- What the registers stand for when the grip on one of them has changed. -/
theorem Follows.regrip {g : Grip} (hfollows : Follows s grip block data)
    (hwait : ∀ e, g = .waiting e → block' r = e) (hheld : ∀ e sy w, g = .held e sy w →
      block' r = e ∧ data' r = (s'.cache.buf (s'.regs r)).data)
    (hother : ∀ r' ≠ r, block' r' = block r' ∧ ∀ e sy w, grip r' = .held e sy w →
      data' r' = data r' ∧ (s'.cache.buf (s'.regs r')).data = (s.cache.buf (s.regs r')).data) :
    Follows s' (update grip r g) block' data' := by
  intro r' e
  by_cases hrr : r' = r
  · subst hrr
    rw [update_self]
    exact ⟨hwait e, hheld e⟩
  · obtain ⟨hblock, hsame⟩ := hother r' hrr
    rw [update_of_ne hrr, hblock]
    refine ⟨(hfollows r' e).1, fun sy w hr' => ?_⟩
    obtain ⟨hdata, hbuf⟩ := hsame e sy w hr'
    rw [hdata, hbuf]
    exact (hfollows r' e).2 sy w hr'

section

variable (hcons : Consistent sequential start size s grip pins)

include hcons

theorem Consistent.commit_bget (hscript : s.script = .bget r d :: rest)
    (hexec : s.exec (.bget r d) = .ok (some s')) :
    Invariant sequential start size { s' with script := rest } := by
  obtain ⟨hfree, hwaits, -, hsound⟩ := hcons.next hscript
  have hcoherent := hcons.coherent.exec_bget hfree hwaits hexec
  obtain ⟨b, cache, hget, rfl⟩ := exec_bget_inv hexec
  have htaken := (hcons.coherent.shelf.bget .commit hget).2
  refine ⟨_, _, hcons.advance hscript hcoherent rfl hsound le_rfl fun block data hharmless hfollows =>
    ⟨_, _, hharmless, hfollows.regrip (fun e he => ?_) nofun fun r' hrr =>
      ⟨update_of_ne hrr _ _, fun e sy w _ => ⟨rfl, ?_⟩⟩⟩⟩
  · cases he
    exact update_self ..
  · dsimp only
    rw [update_of_ne hrr]
    exact (htaken.holder_data (s.regs r')).2

theorem Consistent.commit_fill (hscript : s.script = .fill r :: rest)
    (hexec : s.exec (.fill r) = .ok (some s')) :
    Invariant sequential start size { s' with script := rest } := by
  obtain ⟨d, hr, -, hsound⟩ := hcons.next hscript
  obtain ⟨hcoherent, hvalue⟩ := hcons.coherent.exec_fill hr hexec
  obtain ⟨cache, hfill, rfl⟩ := exec_fill_inv hexec
  obtain ⟨hfree, rfl⟩ := fill_eq_some_iff.mp hfill
  refine ⟨_, _, hcons.advance hscript hcoherent rfl hsound le_rfl fun block data hharmless hfollows =>
    ⟨_, _, hharmless, hfollows.regrip nofun (fun e sy w he => ?_) fun r' hrr =>
      ⟨rfl, fun e sy w hr' => ⟨update_of_ne hrr _ _, ?_⟩⟩⟩⟩
  · cases he
    have hblock := (hfollows r d).1 hr
    rw [update_self, hblock]
    exact ⟨rfl, hvalue.symm⟩
  · have hheld := (hcons.coherent.hands.held r' e sy w hr').2.1
    change ((s.cache.set (s.regs r) _).buf (s.regs r')).data = _
    rw [buf_set_of_ne]
    intro heq
    rw [heq, hfree] at hheld
    cases hheld

omit hcons in
theorem follows_modify {sy w : Bool}
    (hhands : Hands s.cache s.disk s.stored s.waiting s.regs grip) (hr : grip r = .held d sy w)
    (hfollows : Follows s grip block data) (new : Memory) :
    Follows { s with cache := modify s.cache (s.regs r) new }
      (update grip r (.held d false false)) block (update data r new) := by
  refine hfollows.regrip nofun (fun e _ _ he => ?_) fun r' hrr => ⟨rfl, fun e sy' w' hr' =>
    ⟨update_of_ne hrr _ _, ?_⟩⟩
  · cases he
    change _ ∧ _ = ((s.cache.set _ _).buf _).data
    rw [update_self, buf_set_self]
    exact ⟨((hfollows r d).2 sy w hr).1, rfl⟩
  · change ((s.cache.set _ _).buf _).data = _
    rw [buf_set_of_ne _ (hhands.ne_of_held hr r' hrr e sy' w' hr')]

theorem Consistent.commit_memmove {dst src : Reg} (hscript : s.script = .memmove dst src :: rest)
    (hexec : s.exec (.memmove dst src) = .ok (some s')) :
    Invariant sequential start size { s' with script := rest } := by
  obtain ⟨⟨e, sy', w', hsrc⟩, d, sy, w, hdst, hsound⟩ := hcons.next hscript
  cases hexec
  refine ⟨_, _, hcons.advance hscript (hcons.coherent.exec_modify hdst _) rfl hsound le_rfl
    fun block data hharmless hfollows => ⟨_, _, hharmless, ?_⟩⟩
  rw [((hfollows src e).2 sy' w' hsrc).2]
  exact follows_modify hcons.coherent.hands hdst hfollows _

theorem Consistent.commit_putHead (hscript : s.script = .putHead r :: rest)
    (hexec : s.exec (.putHead r) = .ok (some s')) :
    Invariant sequential start size { s' with script := rest } := by
  obtain ⟨d, sy, w, hr, hsound⟩ := hcons.next hscript
  cases hexec
  refine ⟨_, _, hcons.advance hscript (hcons.coherent.exec_modify hr _) rfl hsound le_rfl
    fun block data hharmless hfollows => ⟨_, _, hharmless, ?_⟩⟩
  rw [((hfollows r d).2 sy w hr).2]
  exact follows_modify hcons.coherent.hands hr hfollows _

theorem Consistent.commit_bwrite (hscript : s.script = .bwrite r :: rest)
    (hexec : s.exec (.bwrite r) = .ok (some s')) :
    Invariant sequential start size { s' with script := rest } := by
  obtain ⟨d, sy, w, hr, hsound⟩ := hcons.next hscript
  have hcoherent := hcons.coherent.exec_bwrite hr hexec
  have hs' := exec_bwrite_inv hexec
  obtain ⟨⟨-, -, hblock⟩, -⟩ := hcons.coherent.hands.held r d sy w hr
  subst hs'
  refine ⟨_, _, hcons.advance hscript hcoherent rfl hsound le_rfl fun block data hharmless hfollows => ?_⟩
  obtain ⟨hd, hdata⟩ := (hfollows r d).2 sy w hr
  refine ⟨block, data, ?_, hfollows.regrip nofun (fun e _ _ he => ?_) fun r' _ =>
    ⟨rfl, fun _ _ _ _ => ⟨rfl, rfl⟩⟩⟩
  · have hnext := hharmless.2
    rw [hd, hdata] at hnext
    dsimp only
    rw [hblock]
    exact hnext
  · cases he
    exact ⟨hd, hdata⟩

theorem Consistent.commit_brelse (hscript : s.script = .brelse r :: rest)
    (hexec : s.exec (.brelse r) = .ok (some s')) :
    Invariant sequential start size { s' with script := rest } := by
  obtain ⟨d, w, hr, hsound⟩ := hcons.next hscript
  have hcoherent := hcons.coherent.exec_brelse hr hexec
  obtain ⟨cache, hrelease, rfl⟩ := exec_brelse_inv hexec
  refine ⟨_, _, hcons.advance hscript hcoherent rfl hsound le_rfl fun block data hharmless hfollows =>
    ⟨block, data, hharmless, hfollows.regrip nofun nofun fun r' hrr =>
      ⟨rfl, fun e sy w hr' => ⟨rfl, ?_⟩⟩⟩⟩
  dsimp only
  rw [buf_brelse hrelease, update_of_ne (hcons.coherent.hands.ne_of_held hr r' hrr e sy w hr')]

theorem Consistent.commit_bunpin (hscript : s.script = .bunpin r :: rest)
    (hexec : s.exec (.bunpin r) = .ok (some s')) :
    Invariant sequential start size { s' with script := rest } := by
  obtain ⟨d, hr, hmem, hsound⟩ := hcons.next hscript
  cases hexec
  refine ⟨_, _, hcons.advance hscript (hcons.coherent.exec_bunpin hr hmem) rfl hsound
    length_erase_le
    fun block data hharmless hfollows => ⟨_, _, hharmless, fun r' e => ⟨(hfollows r' e).1,
      fun sy' w' hr' => ?_⟩⟩⟩
  dsimp only
  rw [show ((bunpin s.cache (s.regs r)).buf (s.regs r')).data = _ from
    field_set Buf.data (by rfl) (s.regs r')]
  exact (hfollows r' e).2 sy' w' hr'

theorem Consistent.commit_clear (hscript : s.script = .clear :: rest)
    (hexec : s.exec .clear = .ok (some s')) :
    Invariant sequential start size { s' with script := rest } := by
  obtain ⟨hsound, hcommitting, hout⟩ := hcons.busy (by rw [hscript]; exact cons_ne_nil _ _)
  rw [hscript] at hsound
  obtain ⟨rfl, hsound⟩ := hsound
  cases hexec
  refine ⟨grip, [], { hcons.coherent with }, hcons.logStart, hcons.logSpan, names_nil, nodup_nil, le_rfl,
    fun hnil => absurd hnil (sound_ne_nil hsound), fun _ => ⟨hsound, hcommitting, hout⟩,
    fun hseq => ?_⟩
  obtain ⟨block, data, hharmless, hfollows⟩ := hcons.harmless hseq
  rw [hscript] at hharmless
  exact ⟨block, data, hharmless, hfollows⟩

theorem Consistent.commit_finish (hscript : s.script = .finish :: rest)
    (hexec : s.exec .finish = .ok (some s')) :
    Invariant sequential start size { s' with script := rest } := by
  obtain ⟨rfl, hlh, rfl, hfree⟩ := hcons.next hscript
  cases hexec
  obtain rfl : grip = both .free .free := funext fun r => (hfree r).trans (both_free r).symm
  exact ⟨_, _, { hcons with
    coherent := { hcons.coherent with }
    quiet := fun _ => ⟨hlh.symm, rfl⟩
    busy := fun hne => absurd rfl hne
    harmless := fun _ => harmless_nil }⟩

end

theorem Invariant.commit (hinv : Invariant sequential start size s)
    (hscript : s.script = i :: rest) (hexec : s.exec i = .ok (some s')) :
    Invariant sequential start size { s' with script := rest } := by
  obtain ⟨grip, pins, hcons⟩ := hinv
  cases i with
  | bget r d => exact hcons.commit_bget hscript hexec
  | fill r => exact hcons.commit_fill hscript hexec
  | memmove dst src => exact hcons.commit_memmove hscript hexec
  | putHead r => exact hcons.commit_putHead hscript hexec
  | bwrite r => exact hcons.commit_bwrite hscript hexec
  | brelse r => exact hcons.commit_brelse hscript hexec
  | bunpin r => exact hcons.commit_bunpin hscript hexec
  | clear => exact hcons.commit_clear hscript hexec
  | finish => exact hcons.commit_finish hscript hexec

end Commit

section Runs

variable {sequential : Bool} {start size : ℕ} {s s' : System}

/-- No step breaks the invariant, however the commit and the callers interleave. -/
theorem Invariant.step (hinv : Invariant sequential start size s)
    (hstep : Step sequential s s') : Invariant sequential start size s' := by
  obtain ⟨grip, pins, hcons⟩ := id hinv
  cases hstep with
  | commit hscript hexec => exact hinv.commit hscript hexec
  | bget pid blockno hget => exact ⟨grip, pins, hcons.bget hget⟩
  | fill hwait hfill => exact ⟨grip, pins, hcons.fill hwait hfill⟩
  | bwrite hb hquiet hwrite => exact ⟨grip, pins, hcons.bwrite hb hquiet hwrite⟩
  | logWrite hb hheld hhome hsmall hwrite => exact ⟨grip, _, hcons.logWrite hb hheld hhome hsmall hwrite⟩
  | brelse hb hrelease => exact ⟨grip, pins, hcons.brelse hb hrelease⟩
  | beginOp hbegin => exact ⟨grip, pins, hcons.beginOp hbegin⟩
  | endOp hop hend => exact ⟨grip, pins, hcons.endOp hop hend⟩

theorem buf_linkFront_foldl (bs : List ℕ) (c : Bcache) : (bs.foldl linkFront c).buf = c.buf := by
  induction bs generalizing c with
  | nil => rfl
  | cons b bs ih =>
    rw [foldl_cons, ih]
    rfl

theorem buf_binit (i : ℕ) : binit.buf i = ⟨false, 0, 0, none, 0, fun _ => 0⟩ := by
  unfold binit
  rw [buf_linkFront_foldl]
  rfl

theorem Invariant.boot (disk : ℕ → Memory) :
    Invariant sequential start size (boot start size disk) := by
  have hdev : ∀ {i d}, ¬ Caches binit i rootDev d := by
    rintro i d ⟨-, h, -⟩
    rw [buf_binit] at h
    cases h
  refine ⟨both .free .free, [], ⟨⟨listed_binit, ?_, ?_, ?_, ?_, ?_, nodup_nil, ?_⟩, ⟨?_, ?_⟩, ?_⟩,
    rfl, rfl, names_nil, nodup_nil, le_rfl, fun _ => ⟨rfl, rfl⟩, fun h => absurd rfl h,
    fun _ => harmless_nil⟩
  · rintro i j dev d rfl hi _
    exact absurd hi hdev
  · intro i _ _
    change (binit.buf i).refcnt = 0 ∧ (binit.buf i).valid = false
    rw [buf_binit]
    exact ⟨rfl, rfl⟩
  · intro i _
    change (binit.buf i).refcnt = _ + (if (binit.buf i).holder = none then 0 else 1) +
      pinOf (binit.buf i) []
    rw [buf_binit]
    rfl
  · intro w hw
    exact absurd hw not_mem_nil
  · intro i _ hheld
    change (binit.buf i).holder ≠ none at hheld
    rw [buf_binit] at hheld
    exact absurd rfl hheld
  · intro d hd
    exact absurd hd not_mem_nil
  · intro i _ hvalid
    change (binit.buf i).valid = true at hvalid
    rw [buf_binit] at hvalid
    cases hvalid
  · intro d _
    rfl
  · refine ⟨fun r d h => ?_, fun r d sy w h => ?_, fun r r' d d' h => ?_, fun i _ hheld => ?_,
      fun r r' d d' sy sy' w w' h => ?_⟩
    · cases eq_free h
    · cases eq_free h
    · cases eq_free h
    · change (binit.buf i).holder = _ at hheld
      rw [buf_binit] at hheld
      cases hheld
    · cases eq_free h

theorem Invariant.reached {disk : ℕ → Memory} (hreached : Reached sequential start size disk s) :
    Invariant sequential start size s := by
  induction hreached with
  | boot => exact Invariant.boot disk
  | step hreached hstep ih => exact ih.step hstep

def SameBlock (c c' : Bcache) (i : ℕ) : Prop :=
  (c'.buf i).dev = (c.buf i).dev ∧ (c'.buf i).blockno = (c.buf i).blockno

variable {c : Bcache} {b : ℕ}

theorem sameBlock_set {buf : Buf} (hdev : buf.dev = (c.buf b).dev)
    (hblock : buf.blockno = (c.buf b).blockno) (i : ℕ) : SameBlock c (c.set b buf) i :=
  key_set hdev hblock i

variable {c' : Bcache} {i : Instr}

theorem Taken.sameBlock {blockno i : ℕ} (htaken : Taken c c' b blockno)
    (hpos : 0 < (c.buf i).refcnt) : SameBlock c c' i := by
  by_cases hib : i = b
  · subst hib
    obtain ⟨hdev, hblock, -⟩ := htaken.kept (Or.inl hpos)
    exact ⟨hdev, hblock⟩
  · unfold SameBlock
    rw [htaken.frame i hib]
    exact ⟨rfl, rfl⟩

theorem sameBlock_brelse {owner : Owner} (hrelease : brelse c b owner = .ok c') (i : ℕ) :
    SameBlock c c' i := by
  unfold SameBlock
  rw [buf_brelse hrelease]
  exact key_set (c := c) (b := b) (by rfl) (by rfl) i

theorem Invariant.exec_sameBlock (hinv : Invariant sequential start size s)
    (hexec : s.exec i = .ok (some s')) {b : ℕ} (hpos : 0 < (s.cache.buf b).refcnt) :
    SameBlock s.cache s'.cache b := by
  obtain ⟨grip, pins, hcons⟩ := hinv
  cases i with
  | bget r d =>
    obtain ⟨c, cache, hget, rfl⟩ := exec_bget_inv hexec
    exact (hcons.coherent.shelf.bget .commit hget).2.sameBlock hpos
  | fill r =>
    obtain ⟨cache, hfill, rfl⟩ := exec_fill_inv hexec
    obtain ⟨-, rfl⟩ := fill_eq_some_iff.mp hfill
    exact sameBlock_set (by rfl) (by rfl) b
  | memmove dst src =>
    cases hexec
    exact sameBlock_set (by rfl) (by rfl) b
  | putHead r =>
    cases hexec
    exact sameBlock_set (by rfl) (by rfl) b
  | bwrite r =>
    rw [exec_bwrite_inv hexec]
    exact ⟨rfl, rfl⟩
  | brelse r =>
    obtain ⟨cache, hrelease, rfl⟩ := exec_brelse_inv hexec
    exact sameBlock_brelse hrelease b
  | bunpin r =>
    cases hexec
    exact sameBlock_set (by rfl) (by rfl) b
  | clear =>
    cases hexec
    exact ⟨rfl, rfl⟩
  | finish =>
    cases hexec
    exact ⟨rfl, rfl⟩

theorem Invariant.step_sameBlock (hinv : Invariant sequential start size s)
    (hstep : Step sequential s s') (hpos : 0 < (s.cache.buf b).refcnt) :
    SameBlock s.cache s'.cache b := by
  cases hstep with
  | commit hscript hexec => exact hinv.exec_sameBlock hexec hpos
  | bget pid blockno hget =>
    obtain ⟨grip, pins, hcons⟩ := hinv
    exact (hcons.coherent.shelf.bget (.caller pid) hget).2.sameBlock hpos
  | fill hwait hfill =>
    obtain ⟨-, rfl⟩ := fill_eq_some_iff.mp hfill
    exact sameBlock_set (by rfl) (by rfl) b
  | bwrite hb hquiet hwrite =>
    exact sameBlock_set (by rfl) (by rfl) b
  | @logWrite pid c data log pin hb hheld hhome hsmall hwrite =>
    have hmodify : SameBlock s.cache (modify s.cache c data) b := by
      exact sameBlock_set (by rfl) (by rfl) b
    dsimp only
    split
    · have hpin : SameBlock (modify s.cache c data) (bpin (modify s.cache c data) c) b := by
        exact sameBlock_set (by rfl) (by rfl) b
      exact ⟨hpin.1.trans hmodify.1, hpin.2.trans hmodify.2⟩
    · exact hmodify
  | brelse hb hrelease => exact sameBlock_brelse hrelease b
  | beginOp hbegin => exact ⟨rfl, rfl⟩
  | endOp hop hend => exact ⟨rfl, rfl⟩

theorem Invariant.exec_stored {rest : List Instr} (hinv : Invariant true start size s)
    (hscript : s.script = i :: rest) (hexec : s.exec i = .ok (some s')) {d : ℕ}
    (hd : ¬ InLog start size d) : s'.stored d = s.stored d := by
  obtain ⟨grip, pins, hcons⟩ := hinv
  cases i with
  | bget r e =>
    obtain ⟨c, cache, hget, rfl⟩ := exec_bget_inv hexec
    rfl
  | fill r =>
    obtain ⟨cache, hfill, rfl⟩ := exec_fill_inv hexec
    rfl
  | brelse r =>
    obtain ⟨cache, hrelease, rfl⟩ := exec_brelse_inv hexec
    rfl
  | bwrite r =>
    rw [exec_bwrite_inv hexec]
    obtain ⟨e, sy, w, hr, -⟩ := hcons.next hscript
    obtain ⟨⟨-, -, hblock⟩, -⟩ := hcons.coherent.hands.held r e sy w hr
    obtain ⟨block, data, hharmless, hfollows⟩ := hcons.harmless rfl
    rw [hscript] at hharmless
    obtain ⟨he, hdata⟩ := (hfollows r e).2 sy w hr
    have hstore := hharmless.1
    rw [he, hdata] at hstore
    dsimp only
    rw [hblock]
    by_cases heq : d = e
    · subst heq
      rw [update_self]
      exact hstore.resolve_left hd
    · rw [update_of_ne heq]
  | memmove dst src =>
    cases hexec
    rfl
  | putHead r =>
    cases hexec
    rfl
  | bunpin r =>
    cases hexec
    rfl
  | clear =>
    cases hexec
    rfl
  | finish =>
    cases hexec
    rfl

/-- After any run a block has at most one buffer, no step gives a buffer in use to
another block, and whoever comes out of `bread` sees what was last stored for the block
that was asked for. -/
theorem bread_coherent {disk : ℕ → Memory} (hreached : Reached sequential start size disk s) :
    (∀ i j d, Caches s.cache i rootDev d → Caches s.cache j rootDev d → i = j) ∧
    Listed s.cache ∧
    (∀ i < nbuf, ((s.cache.buf i).holder ≠ none ∨ (∃ owner, (owner, i) ∈ s.waiting) ∨
      s.script = [] ∧ (s.cache.buf i).dev = rootDev ∧ (s.cache.buf i).blockno ∈ s.log.lh) →
        0 < (s.cache.buf i).refcnt) ∧
    (∀ s', Step sequential s s' → ∀ i, 0 < (s.cache.buf i).refcnt →
      SameBlock s.cache s'.cache i) ∧
    (∀ d b cache, bget s.cache rootDev d = .ok (b, cache) → Caches cache b rootDev d) ∧
    (∀ owner b cache, (owner, b) ∈ s.waiting → fill s.cache s.disk b owner = some cache →
      (cache.buf b).data = s.stored (s.cache.buf b).blockno) ∧
    (sequential = true → ∀ i rest s', s.script = i :: rest → s.exec i = .ok (some s') →
      ∀ d, ¬ InLog start size d → s'.stored d = s.stored d) := by
  have hinv := Invariant.reached hreached
  obtain ⟨grip, pins, hcons⟩ := hinv
  have hshelf := hcons.coherent.shelf
  refine ⟨fun i j d hi hj => hshelf.unique i j rootDev d rfl hi hj, hshelf.listed, ?_, ?_, ?_, ?_, ?_⟩
  · rintro i hi (hheld | ⟨owner, hwait⟩ | ⟨hscript, hdev, hmem⟩)
    · exact hshelf.refcnt_of_holder hi hheld
    · exact hshelf.refcnt_of_waiting hwait
    · have hrefs := hshelf.refs i hi
      have hpin : pinOf (s.cache.buf i) s.log.lh = 1 := if_pos ⟨hdev, hmem⟩
      rw [(hcons.quiet hscript).1, hpin] at hrefs
      omega
  · intro s' hstep i hpos
    exact Invariant.step_sameBlock ⟨grip, pins, hcons⟩ hstep hpos
  · intro d b cache hget
    exact (hshelf.bget .commit hget).2.caches
  · intro owner b cache hwait hfill
    obtain ⟨hfree, rfl⟩ := fill_eq_some_iff.mp hfill
    have hb := hshelf.bound _ hwait
    have hdev := hshelf.dev_of_refcnt hb (hshelf.refcnt_of_waiting hwait)
    rw [buf_set_self]
    exact hshelf.filled hcons.coherent.shown hb hdev hfree
  · rintro rfl i rest s' hscript hexec d hd
    exact Invariant.exec_stored ⟨grip, pins, hcons⟩ hscript hexec hd

attribute [local semireducible] nbuf

/-- A disk whose block `d` is full of the byte `d`. -/
def numbered (d : ℕ) : Memory := fun _ => UInt8.ofNat d

def opened : System := { boot 2 31 numbered with log := ⟨2, 31, 1, false, []⟩ }

def asked : System := opened.enter (.caller 1) 0
  (binit.set 0 { binit.buf 0 with dev := rootDev, blockno := 50, valid := false, refcnt := 1 })

def holding : System := asked.leave (.caller 1) 0 (asked.cache.set 0 { asked.cache.buf 0 with
  holder := some (.caller 1), valid := true, data := numbered 50 })

def logged : System := { holding with
  cache := bpin (modify holding.cache 0 fun _ => 9) 0
  log := ⟨2, 31, 1, false, [50]⟩
  stored := update numbered 50 fun _ => 9 }

def released : System := { logged with
  cache := logged.cache.set 0 { logged.cache.buf 0 with holder := none, refcnt := 1 } }

/-- Process 1 has read block 50, logged new data for it and released the buffer, and now
process 2 asks for the block. -/
def asking : System := released.enter (.caller 2) 0
  (released.cache.set 0 { released.cache.buf 0 with refcnt := 2 })

set_option maxRecDepth 8000 in
theorem asking_reached : Reached true 2 31 numbered asking := by
  have hget : bget binit rootDev 50 = .ok (0, _) := rfl
  have hopened : Reached true 2 31 numbered opened := .step .boot (.beginOp rfl)
  have hasked : Reached true 2 31 numbered asked := hopened.step (.bget 1 50 hget)
  have hholding : Reached true 2 31 numbered holding := hasked.step (.fill mem_cons_self rfl)
  have hhome : ¬ InLog 2 31 50 := by
    unfold InLog
    omega
  have hlogged : Reached true 2 31 numbered logged :=
    hholding.step (@Step.logWrite true holding 1 0 (fun _ => 9) _ true (by decide) rfl hhome
      (show 50 < 2 ^ 32 by decide) rfl)
  have hrelse : brelse logged.cache 0 (.caller 1) = .ok _ := rfl
  have hreleased : Reached true 2 31 numbered released := hlogged.step (.brelse (by decide) hrelse)
  have hget' : bget released.cache rootDev 50 = .ok (0, _) := rfl
  exact hreleased.step (.bget 2 50 hget')

/-- The data that was logged is seen, though the disk does not have it yet. -/
theorem bread_coherent_sample : asking.disk 50 = (fun _ => 50) ∧
    ∃ cache, fill asking.cache asking.disk 0 (.caller 2) = some cache ∧
      (cache.buf 0).data = fun _ => 9 := by
  have hfill : fill asking.cache asking.disk 0 (.caller 2) = some _ := rfl
  exact ⟨rfl, _, hfill, (bread_coherent asking_reached).2.2.2.2.2.1 _ _ _ mem_cons_self hfill⟩

end Runs

end Xv6MallocLab.BufferCache
