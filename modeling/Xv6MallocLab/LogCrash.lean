import Xv6MallocLab.LogMachine

/-!
# Crashes and recovery

At every moment the disk can be completed to the committed contents from what its own
header names, so a recovery ends with them, however often it is interrupted.
-/

namespace Xv6MallocLab.LogLayer

open ByteMemory Function List RedoLog

section Runs

attribute [local irreducible] load store encodeHead decodeHead

/-! ## Steps on blocks -/

namespace Machine

variable (m : Machine)

@[simp] theorem data_modify (b : ℕ) (v : Memory) : (m.modify b v).data = update m.data b v := by
  funext c
  unfold data modify
  by_cases hc : c = b
  · subst hc
    simp
  · simp [update_of_ne hc]

@[simp] theorem data_bread (b : ℕ) : (m.bread b).data = m.data := by
  change (m.modify b (m.data b)).data = m.data
  rw [data_modify, update_eq_self]

@[simp] theorem log_bread (b : ℕ) : (m.bread b).log = m.log := rfl

@[simp] theorem data_bwrite (b : ℕ) : (m.bwrite b).data = m.data := by
  funext c
  unfold data bwrite
  by_cases hc : c = b
  · subst hc
    cases hcache : m.cache c with
    | none => simp [data, hcache]
    | some v => simp
  · simp [update_of_ne hc]

@[simp] theorem disk_copyBlock (src dst : ℕ) :
    (m.copyBlock src dst).disk = update m.disk dst (m.data src) := by
  change update m.disk dst (((((m.bread src).bread dst).modify dst _).data) dst) = _
  simp

@[simp] theorem data_copyBlock (src dst : ℕ) :
    (m.copyBlock src dst).data = update m.data dst (m.data src) := by
  simp [copyBlock]

@[simp] theorem disk_writeHead :
    m.writeHead.disk =
      update m.disk m.log.start (encodeHead m.log.lh (m.data m.log.start)) := by
  change update m.disk m.log.start ((((m.bread m.log.start).modify m.log.start _).data)
    m.log.start) = _
  simp

@[simp] theorem data_writeHead :
    m.writeHead.data =
      update m.data m.log.start (encodeHead m.log.lh (m.data m.log.start)) := by
  simp [writeHead]

end Machine

/-! ## What holds of every reachable machine -/

section Invariant

variable (start size : ℕ) (initial : ℕ → Memory) (history : List Event)

structure Names (lh : List ℕ) : Prop where
  home : ∀ b ∈ lh, ¬ InLog start size b
  small : ∀ b ∈ lh, b < 2 ^ 32
  length : lh.length ≤ logSize
  room : lh ≠ [] → lh.length + 1 ≤ size

/-- The disk is completed to the committed contents by the blocks it names. -/
structure Recoverable (disk : ℕ → Memory) (lh : List ℕ) : Prop where
  header : decodeHead (disk start) = lh
  names : Names start size lh
  redo : Redo (fun b => ¬ InLog start size b) (committed initial history) disk lh
    fun i => disk (start + i + 1)

/-- Before the header write: the disk holds the committed contents, the cache
the current ones, and the first `tail` log blocks their copies. -/
structure Gathering (m : Machine) (tail : ℕ) : Prop where
  header : decodeHead (m.disk start) = []
  disk : ∀ b, ¬ InLog start size b → m.disk b = committed initial history b
  data : ∀ b, ¬ InLog start size b → m.data b = view initial history b
  written : ∀ u ∈ updates (groups history).current, u.1 ∈ m.log.lh
  pinned : ∀ b ∈ m.log.lh, b ∈ m.pinned
  copied : ∀ i (hi : i < m.log.lh.length), i < tail →
    m.disk (start + i + 1) = view initial history m.log.lh[i]

/-- Between a header write and the next start: nothing is pending. -/
structure Settling (m : Machine) (lh : List ℕ) : Prop where
  recoverable : Recoverable start size initial history m.disk lh
  seen : ∀ b, ¬ InLog start size b →
    m.data b = m.disk b ∨ m.data b = committed initial history b
  empty : (groups history).current = []

structure Contents (m : Machine) : Prop where
  coherent : ∀ b, InLog start size b → m.data b = m.disk b
  phase : match m.phase with
    | .idle => Gathering start size initial history m 0
    | .commit => Gathering start size initial history m 0
    | .writeLog tail => m.log.lh ≠ [] ∧ Gathering start size initial history m tail
    | .installTrans _ tail => Settling start size initial history m m.log.lh ∧
        Installed (committed initial history) m.disk m.log.lh tail
    | .readHead => ∃ lh, Settling start size initial history m lh

structure Control (m : Machine) : Prop where
  logStart : m.log.start = start
  logSpan : m.log.size = size
  names : Names start size m.log.lh
  ledger : Ledger history m.running m.next
  outstanding : m.log.outstanding = m.running.length
  busy : m.phase ≠ .idle → m.running = []
  committing : m.phase.isRecovery = false → m.phase ≠ .idle → m.log.committing = true

end Invariant

variable {start size : ℕ} {initial : ℕ → Memory} {history : List Event} {m : Machine}

theorem names_nil : Names start size [] :=
  ⟨fun _ h => absurd h not_mem_nil, fun _ h => absurd h not_mem_nil, Nat.zero_le _,
    fun h => absurd rfl h⟩

theorem inLog_start : InLog start size start := Or.inl rfl

variable {lh : List ℕ} {tail : ℕ} {m' : Machine}

theorem Names.inLog (hnames : Names start size lh) {i : ℕ} (hi : i < lh.length) :
    InLog start size (start + i + 1) := by
  have hroom := hnames.room (ne_nil_of_length_pos (by omega))
  exact .inr ⟨by omega, by omega⟩

theorem Gathering.view_eq (hgather : Gathering start size initial history m tail) {b : ℕ}
    (hb : b ∉ m.log.lh) : view initial history b = committed initial history b := by
  refine replay_of_forall_ne ?_ _
  rintro u hu rfl
  exact hb (hgather.written u hu)

theorem Gathering.recoverable (hgather : Gathering start size initial history m tail) :
    Recoverable start size initial history m.disk [] :=
  ⟨hgather.header, names_nil, redo_nil hgather.disk⟩

theorem Contents.recoverable (hcontents : Contents start size initial history m) :
    ∃ lh, Recoverable start size initial history m.disk lh := by
  have hphase := hcontents.phase
  cases hm : m.phase with
  | idle =>
    rw [hm] at hphase
    exact ⟨_, hphase.recoverable⟩
  | commit =>
    rw [hm] at hphase
    exact ⟨_, hphase.recoverable⟩
  | writeLog tail =>
    rw [hm] at hphase
    exact ⟨_, hphase.2.recoverable⟩
  | installTrans recovering tail =>
    rw [hm] at hphase
    exact ⟨_, hphase.1.recoverable⟩
  | readHead =>
    rw [hm] at hphase
    exact hphase.imp fun lh hlh => hlh.recoverable

/-! ## The cache -/

section

variable (hcontents : Contents start size initial history m)

include hcontents

theorem Contents.recache (hdisk : m'.disk = m.disk) (hlog : m'.log = m.log)
    (hphase : m'.phase = m.phase) (hpinned : m'.pinned = m.pinned)
    (hdata : ∀ b, m'.data b = m.data b ∨ m'.data b = m.disk b ∧ b ∉ m.pinned) :
    Contents start size initial history m' := by
  have hgathering : ∀ tail, Gathering start size initial history m tail →
      Gathering start size initial history m' tail := by
    intro tail hgather
    refine ⟨?_, ?_, ?_, ?_, ?_, ?_⟩
    · rw [hdisk]
      exact hgather.header
    · rw [hdisk]
      exact hgather.disk
    · intro b hb
      rcases hdata b with h | ⟨h, hfree⟩
      · rw [h, hgather.data b hb]
      · have hout : b ∉ m.log.lh := fun hmem => hfree (hgather.pinned b hmem)
        rw [h, hgather.disk b hb, hgather.view_eq hout]
    · rw [hlog]
      exact hgather.written
    · rw [hlog, hpinned]
      exact hgather.pinned
    · rw [hlog, hdisk]
      exact hgather.copied
  have hsettling : ∀ lh, Settling start size initial history m lh →
      Settling start size initial history m' lh := by
    intro lh hsettle
    refine ⟨by rw [hdisk]; exact hsettle.recoverable, ?_, hsettle.empty⟩
    intro b hb
    rw [hdisk]
    rcases hdata b with h | ⟨h, -⟩
    · rw [h]
      exact hsettle.seen b hb
    · exact .inl h
  refine ⟨?_, ?_⟩
  · intro b hb
    rw [hdisk]
    rcases hdata b with h | ⟨h, -⟩
    · rw [h, hcontents.coherent b hb]
    · exact h
  · have hold := hcontents.phase
    rw [hphase]
    cases hm : m.phase with
    | idle =>
      rw [hm] at hold
      exact hgathering 0 hold
    | commit =>
      rw [hm] at hold
      exact hgathering 0 hold
    | writeLog tail =>
      rw [hm] at hold
      dsimp only
      rw [hlog]
      exact ⟨hold.1, hgathering tail hold.2⟩
    | installTrans recovering tail =>
      rw [hm] at hold
      dsimp only
      rw [hlog, hdisk]
      exact ⟨hsettling _ hold.1, hold.2⟩
    | readHead =>
      rw [hm] at hold
      exact hold.imp hsettling

theorem Contents.fetch (blockno : ℕ) : Contents start size initial history (m.bread blockno) :=
  hcontents.recache rfl rfl rfl rfl fun b => .inl (by rw [Machine.data_bread])

theorem Contents.recycle {blockno : ℕ} (hfree : blockno ∉ m.pinned) :
    Contents start size initial history
      { m with cache := update m.cache blockno none } := by
  refine hcontents.recache rfl rfl rfl rfl fun b => ?_
  by_cases hb : b = blockno
  · subst hb
    exact .inr ⟨by simp [Machine.data], hfree⟩
  · exact .inl (by simp [Machine.data, update_of_ne hb])

end

/-! ## The calls of the operations -/

theorem Gathering.congr {history' : List Event}
    (hgather : Gathering start size initial history m tail) (hdisk : m'.disk = m.disk)
    (hdata : m'.data = m.data) (hpinned : m'.pinned = m.pinned) (hlh : m'.log.lh = m.log.lh)
    (hcommitted : committed initial history' = committed initial history)
    (hview : view initial history' = view initial history)
    (hwritten : updates (groups history').current = updates (groups history).current) :
    Gathering start size initial history' m' tail := by
  refine ⟨?_, ?_, ?_, ?_, ?_, ?_⟩
  · rw [hdisk]
    exact hgather.header
  · rw [hdisk, hcommitted]
    exact hgather.disk
  · rw [hdata, hview]
    exact hgather.data
  · rw [hwritten, hlh]
    exact hgather.written
  · rw [hlh, hpinned]
    exact hgather.pinned
  · simp only [hlh, hdisk, hview]
    exact hgather.copied

variable {e : Event} {disk : ℕ → Memory}

theorem updates_concat_of_none {es : List Event} (hnone : e.update = none) :
    updates (es ++ [e]) = updates es := by
  rw [updates_append]
  simp [updates, hnone]

theorem Gathering.event (hgather : Gathering start size initial history m tail)
    (hop : e.op.isSome) (hnone : e.update = none) (hdisk : m'.disk = m.disk)
    (hdata : m'.data = m.data) (hpinned : m'.pinned = m.pinned) (hlh : m'.log.lh = m.log.lh) :
    Gathering start size initial (history ++ [e]) m' tail := by
  refine hgather.congr hdisk hdata hpinned hlh (committed_op initial history hop)
    (view_of_update_eq_none initial history hop hnone) ?_
  rw [groups_op history hop]
  exact updates_concat_of_none hnone

theorem Control.idle (hcontrol : Control start size history m) {op : ℕ} (hop : op ∈ m.running) :
    m.phase = .idle := by
  by_contra hphase
  rw [hcontrol.busy hphase] at hop
  exact not_mem_nil hop

theorem Contents.gathering (hcontents : Contents start size initial history m)
    (hidle : m.phase = .idle) : Gathering start size initial history m 0 := by
  have hphase := hcontents.phase
  rwa [hidle] at hphase

theorem contents_of_idle (hcoherent : ∀ b, InLog start size b → m.data b = m.disk b)
    (hidle : m.phase = .idle) (hgather : Gathering start size initial history m 0) :
    Contents start size initial history m := by
  refine ⟨hcoherent, ?_⟩
  rw [hidle]
  exact hgather

section Calls

variable (hcontrol : Control start size history m)
  (hcontents : Contents start size initial history m)

include hcontrol

variable {log : Log} {op : ℕ}

theorem Control.beginOp (hup : m.phase.isRecovery = false) (hbegin : beginOp m.log = some log) :
    m.phase = .idle ∧ Control start size (history ++ [.start m.next])
      { m with log := log, running := m.next :: m.running, next := m.next + 1 } := by
  obtain ⟨hcommitting, -, rfl⟩ := beginOp_eq_some_iff.mp hbegin
  have hidle : m.phase = .idle := by
    by_contra hphase
    rw [hcontrol.committing hup hphase] at hcommitting
    cases hcommitting
  refine ⟨hidle, hcontrol.logStart, hcontrol.logSpan, hcontrol.names, hcontrol.ledger.start, ?_,
    fun hphase => absurd hidle hphase, fun _ hphase => absurd hidle hphase⟩
  have hcount := hcontrol.outstanding
  simp only [length_cons, Nat.cast_add, Nat.cast_one, hcount]

variable {pin commit : Bool} {blockno : ℕ} {data : Memory}

theorem Control.logWrite (hop : op ∈ m.running) (hhome : ¬ InLog m.log.start m.log.size blockno)
    (hsmall : blockno < 2 ^ 32) (hwrite : logWrite m.log blockno = .ok (log, pin))
    (pinned : List ℕ) :
    Control start size (history ++ [.write op blockno data])
      { m.modify blockno data with log := log, pinned := pinned } := by
  obtain ⟨hn, hspan, -, rfl, -⟩ := logWrite_eq_ok_iff.mp hwrite
  have hidle := hcontrol.idle hop
  have hlen : (record m.log.lh blockno).length ≤ m.log.n + 1 := length_record_le _ _
  rw [hcontrol.logStart, hcontrol.logSpan] at hhome
  refine ⟨hcontrol.logStart, hcontrol.logSpan, ⟨?_, ?_, ?_, ?_⟩,
    hcontrol.ledger.write hop blockno data, hcontrol.outstanding,
    fun hphase => absurd hidle hphase, fun _ hphase => absurd hidle hphase⟩
  · intro b hb
    rcases mem_record.mp hb with rfl | hb
    · exact hhome
    · exact hcontrol.names.home b hb
  · intro b hb
    rcases mem_record.mp hb with rfl | hb
    · exact hsmall
    · exact hcontrol.names.small b hb
  · change (record m.log.lh blockno).length ≤ logSize
    omega
  · intro _
    rw [hcontrol.logSpan] at hspan
    change (record m.log.lh blockno).length + 1 ≤ size
    omega

theorem Control.endOp (hop : op ∈ m.running) (hend : endOp m.log = .ok (log, commit)) :
    Control start size (history ++ [.finish op])
      { m with log := log, running := m.running.erase op,
               phase := if commit then .commit else m.phase } := by
  obtain ⟨-, hcommit, rfl⟩ := endOp_eq_ok_iff.mp hend
  have hidle := hcontrol.idle hop
  have hcount := hcontrol.outstanding
  have hpos : 0 < m.running.length := length_pos_of_mem hop
  have hlen : (m.running.erase op).length = m.running.length - 1 := length_erase_of_mem hop
  refine ⟨hcontrol.logStart, hcontrol.logSpan, hcontrol.names, hcontrol.ledger.finish hop, ?_, ?_, ?_⟩
  · dsimp only
    omega
  · intro hphase
    dsimp only at hphase ⊢
    have hlast : commit = true := by
      by_contra hno
      rw [if_neg hno] at hphase
      exact hphase hidle
    rw [hlast, eq_comm, decide_eq_true_iff] at hcommit
    exact eq_nil_of_length_eq_zero (by omega)
  · intro _ hphase
    dsimp only at hphase ⊢
    by_contra hno
    rw [if_neg hno] at hphase
    exact hphase hidle

include hcontents

theorem Contents.logWrite (hop : op ∈ m.running) (hhome : ¬ InLog m.log.start m.log.size blockno)
    (hwrite : logWrite m.log blockno = .ok (log, pin)) :
    Contents start size initial (history ++ [.write op blockno data])
      { m.modify blockno data with
        log := log
        pinned := if pin then blockno :: m.pinned else m.pinned } := by
  obtain ⟨-, -, -, rfl, hpin⟩ := logWrite_eq_ok_iff.mp hwrite
  have hidle := hcontrol.idle hop
  have hgather := hcontents.gathering hidle
  rw [hcontrol.logStart, hcontrol.logSpan] at hhome
  have hdata : ({ m.modify blockno data with
      log := { m.log with lh := record m.log.lh blockno }
      pinned := if pin then blockno :: m.pinned else m.pinned } : Machine).data =
        update m.data blockno data := Machine.data_modify m blockno data
  refine contents_of_idle ?_ hidle ⟨hgather.header, ?_, ?_, ?_, ?_, ?_⟩
  · intro b hb
    have hne : b ≠ blockno := by
      rintro rfl
      exact hhome hb
    rw [hdata, update_of_ne hne]
    exact hcontents.coherent b hb
  · rw [committed_op initial history rfl]
    exact hgather.disk
  · intro b hb
    rw [hdata, view_write]
    by_cases heq : b = blockno
    · subst heq
      simp
    · rw [update_of_ne heq, update_of_ne heq, hgather.data b hb]
  · intro u hu
    rw [groups_op history rfl, updates_append] at hu
    refine mem_record.mpr ?_
    rcases mem_append.mp hu with hu | hu
    · exact .inr (hgather.written u hu)
    · have hu' : u = (blockno, data) := by simpa [updates, Event.update] using hu
      exact .inl (by rw [hu'])
  · intro b hb
    dsimp only
    rcases mem_record.mp hb with rfl | hb
    · by_cases hmem : b ∈ m.log.lh
      · have hold := hgather.pinned b hmem
        split
        · exact mem_cons_of_mem _ hold
        · exact hold
      · rw [if_pos (by simp [hpin, hmem])]
        exact mem_cons_self
    · have hold := hgather.pinned b hb
      split
      · exact mem_cons_of_mem _ hold
      · exact hold
  · intro i hi htail
    omega

theorem Contents.endOp (hop : op ∈ m.running) (hend : endOp m.log = .ok (log, commit)) :
    Contents start size initial (history ++ [.finish op])
      { m with log := log, running := m.running.erase op,
               phase := if commit then .commit else m.phase } := by
  obtain ⟨-, -, rfl⟩ := endOp_eq_ok_iff.mp hend
  have hidle := hcontrol.idle hop
  have hgather := hcontents.gathering hidle
  refine ⟨hcontents.coherent, ?_⟩
  dsimp only
  rw [hidle]
  cases commit with
  | true => exact hgather.event rfl rfl rfl rfl rfl rfl
  | false => exact hgather.event rfl rfl rfl rfl rfl rfl

end Calls

/-! ## The rounds of `commit` and `recover_from_log` -/

theorem Gathering.copy (hnames : Names start size m.log.lh)
    (hgather : Gathering start size initial history m tail) (ht : tail < m.log.lh.length)
    (phase : Phase) :
    Gathering start size initial history
      { m.copyBlock m.log.lh[tail] (start + tail + 1) with phase := phase } (tail + 1) := by
  have hin : InLog start size (start + tail + 1) := hnames.inLog ht
  have hsource := hnames.home _ (getElem_mem ht)
  have hdisk : ({ m.copyBlock m.log.lh[tail] (start + tail + 1) with phase := phase } :
      Machine).disk = update m.disk (start + tail + 1) (m.data m.log.lh[tail]) :=
    Machine.disk_copyBlock m _ _
  have hdata : ({ m.copyBlock m.log.lh[tail] (start + tail + 1) with phase := phase } :
      Machine).data = update m.data (start + tail + 1) (m.data m.log.lh[tail]) :=
    Machine.data_copyBlock m _ _
  have hne : ∀ b, ¬ InLog start size b → b ≠ start + tail + 1 := by
    rintro b hb rfl
    exact hb hin
  refine ⟨?_, ?_, ?_, hgather.written, hgather.pinned, ?_⟩
  · rw [hdisk, update_of_ne (by omega)]
    exact hgather.header
  · intro b hb
    rw [hdisk, update_of_ne (hne b hb)]
    exact hgather.disk b hb
  · intro b hb
    rw [hdata, update_of_ne (hne b hb)]
    exact hgather.data b hb
  · intro i hi hlt
    rw [hdisk]
    by_cases heq : i = tail
    · subst heq
      rw [update_self]
      exact hgather.data _ hsource
    · rw [update_of_ne (by omega)]
      exact hgather.copied i hi (by omega)

theorem Gathering.commit (hnames : Names start size m.log.lh)
    (hgather : Gathering start size initial history m tail) (hstart : m.log.start = start)
    (hne : m.log.lh ≠ []) (ht : m.log.lh.length ≤ tail) (phase : Phase) :
    Settling start size initial (history ++ [.header m.log.n])
      { m.writeHead with phase := phase } m.log.lh := by
  have hn : 0 < m.log.n := length_pos_of_ne_nil hne
  have hdisk : ({ m.writeHead with phase := phase } : Machine).disk =
      update m.disk start (encodeHead m.log.lh (m.data start)) := by
    rw [← hstart]
    exact Machine.disk_writeHead m
  have hdata : ({ m.writeHead with phase := phase } : Machine).data =
      update m.data start (encodeHead m.log.lh (m.data start)) := by
    rw [← hstart]
    exact Machine.data_writeHead m
  have hout : ∀ b, ¬ InLog start size b → b ≠ start := by
    rintro b hb rfl
    exact hb inLog_start
  have hlen : m.log.lh.length < 2 ^ 31 := lt_of_le_of_lt hnames.length (by decide)
  refine ⟨⟨?_, hnames, ⟨?_, ?_⟩⟩, ?_, ?_⟩
  · rw [hdisk, update_self]
    exact decodeHead_encodeHead _ hlen hnames.small
  · intro b hb hmem
    rw [hdisk, update_of_ne (hout b hb), committed_header_pos initial history hn,
      hgather.view_eq hmem]
    exact hgather.disk b hb
  · intro i hi
    rw [hdisk, update_of_ne (by omega), committed_header_pos initial history hn]
    exact hgather.copied i hi (by omega)
  · intro b hb
    right
    rw [hdata, update_of_ne (hout b hb), committed_header_pos initial history hn]
    exact hgather.data b hb
  · rw [groups_header_pos history hn]

theorem Settling.install (hcoherent : ∀ b, InLog start size b → m.data b = m.disk b)
    (hsettle : Settling start size initial history m lh)
    (hdone : Installed (committed initial history) m.disk lh tail) (ht : tail < lh.length)
    (hdisk : m'.disk = update m.disk lh[tail] (m.data (start + tail + 1)))
    (hdata : m'.data = update m.data lh[tail] (m.data (start + tail + 1))) :
    Settling start size initial history m' lh ∧
      Installed (committed initial history) m'.disk lh (tail + 1) := by
  have hnames := hsettle.recoverable.names
  have hredo := hsettle.recoverable.redo
  have htarget := hnames.home _ (getElem_mem ht)
  have hlogged : ∀ b, InLog start size b → b ≠ lh[tail] := by
    rintro b hb rfl
    exact htarget hb
  rw [hcoherent _ (hnames.inLog ht)] at hdisk hdata
  refine ⟨⟨⟨?_, hnames, ?_⟩, ?_, hsettle.empty⟩, ?_⟩
  · rw [hdisk, update_of_ne (hlogged _ inLog_start)]
    exact hsettle.recoverable.header
  · rw [hdisk]
    refine (hredo.install ht).congr (fun _ _ => rfl) fun i hi => ?_
    exact update_of_ne (hlogged _ (hnames.inLog hi)) _ _
  · intro b hb
    rw [hdisk, hdata]
    by_cases heq : b = lh[tail]
    · subst heq
      simp
    · rw [update_of_ne heq, update_of_ne heq]
      exact hsettle.seen b hb
  · rw [hdisk]
    exact hdone.step hredo ht

theorem Settling.clear (hsettle : Settling start size initial history m lh)
    (hdone : Installed (committed initial history) m.disk lh tail) (ht : lh.length ≤ tail)
    (hlh : m'.log.lh = [])
    (hdisk : m'.disk = update m.disk start (encodeHead [] (m.data start)))
    (hdata : m'.data = update m.data start (encodeHead [] (m.data start))) :
    Gathering start size initial (history ++ [.header 0]) m' 0 := by
  have hcurrent : (groups (history ++ [.header 0])).current = [] := by
    rw [groups_header_zero]
    exact hsettle.empty
  have hview := view_of_current_eq_nil initial (history ++ [.header 0]) hcurrent
  have hhome : ∀ b, ¬ InLog start size b → m.disk b = committed initial history b := fun b hb =>
    hsettle.recoverable.redo.complete (fun i hi _ => hdone i hi (by omega)) hb
  have hout : ∀ b, ¬ InLog start size b → b ≠ start := by
    rintro b hb rfl
    exact hb inLog_start
  refine ⟨?_, ?_, ?_, ?_, ?_, fun i _ hi => absurd hi (Nat.not_lt_zero i)⟩
  · rw [hdisk, update_self]
    exact decodeHead_encodeHead _ (by decide) fun _ h => absurd h not_mem_nil
  · intro b hb
    rw [hdisk, update_of_ne (hout b hb), committed_header_zero]
    exact hhome b hb
  · intro b hb
    rw [hdata, update_of_ne (hout b hb), hview, committed_header_zero]
    rcases hsettle.seen b hb with h | h
    · rw [h, hhome b hb]
    · exact h
  · rw [hcurrent]
    intro u hu
    exact absurd hu not_mem_nil
  · rw [hlh]
    intro b hb
    exact absurd hb not_mem_nil

/-! ## Every step keeps the invariant -/

structure Invariant (start size : ℕ) (initial : ℕ → Memory) (history : List Event)
    (m : Machine) : Prop where
  control : Control start size history m
  contents : Contents start size initial history m

namespace Invariant

variable {es : List Event} {m' : Machine}

section

variable (hinv : Invariant start size initial history m)

include hinv

theorem advance_commit (hphase : m.phase = .commit) (hnext : m.advance = some (es, m')) :
    Invariant start size initial (history ++ es) m' := by
  obtain ⟨hcontrol, hcontents⟩ := hinv
  have hgather := hcontents.phase
  have hquiet := hcontrol.busy (by simp [hphase])
  have hcommitting := hcontrol.committing (by simp [hphase, Phase.isRecovery]) (by simp [hphase])
  rw [hphase] at hgather
  simp only [Machine.advance, hphase] at hnext
  by_cases hn : 0 < m.log.n
  · rw [if_pos hn] at hnext
    cases hnext
    rw [append_nil]
    exact ⟨{ hcontrol with busy := fun _ => hquiet, committing := fun _ _ => hcommitting },
      hcontents.coherent,
      ne_nil_of_length_pos hn, hgather.congr rfl rfl rfl rfl rfl rfl rfl⟩
  · rw [if_neg hn] at hnext
    cases hnext
    rw [append_nil]
    exact ⟨{ hcontrol with busy := fun _ => hquiet, committing := fun _ h => absurd rfl h },
      hcontents.coherent,
      hgather.congr rfl rfl rfl rfl rfl rfl rfl⟩

theorem advance_writeLog {tail : ℕ} (hphase : m.phase = .writeLog tail)
    (hnext : m.advance = some (es, m')) : Invariant start size initial (history ++ es) m' := by
  obtain ⟨hcontrol, hcontents⟩ := hinv
  have hpart := hcontents.phase
  have hquiet := hcontrol.busy (by simp [hphase])
  have hcommitting := hcontrol.committing (by simp [hphase, Phase.isRecovery]) (by simp [hphase])
  rw [hphase] at hpart
  obtain ⟨hne, hgather⟩ := hpart
  simp only [Machine.advance, hphase] at hnext
  cases hget : m.log.lh[tail]? with
  | some blockno =>
    rw [hget] at hnext
    cases hnext
    obtain ⟨ht, rfl⟩ := List.getElem?_eq_some_iff.mp hget
    rw [List.append_nil, hcontrol.logStart]
    refine ⟨{ hcontrol with busy := fun _ => hquiet, committing := fun _ _ => hcommitting }, ?_, hne,
      hgather.copy hcontrol.names ht _⟩
    intro b hb
    have hdisk := Machine.disk_copyBlock m m.log.lh[tail] (start + tail + 1)
    have hdata := Machine.data_copyBlock m m.log.lh[tail] (start + tail + 1)
    change (m.copyBlock _ _).data b = (m.copyBlock _ _).disk b
    rw [hdisk, hdata, update_apply, update_apply, hcontents.coherent b hb]
  | none =>
    rw [hget] at hnext
    cases hnext
    have ht := getElem?_eq_none_iff.mp hget
    have hledger := hcontrol.ledger
    rw [hquiet] at hledger
    refine ⟨⟨hcontrol.logStart, hcontrol.logSpan, hcontrol.names, ?_, hcontrol.outstanding,
      fun _ => hquiet, fun _ _ => hcommitting⟩, ?_,
      hgather.commit hcontrol.names hcontrol.logStart hne ht _, installed_zero⟩
    · change Ledger _ m.running m.next
      rw [hquiet]
      exact hledger.commit (length_pos_of_ne_nil hne)
    · intro b hb
      change m.writeHead.data b = m.writeHead.disk b
      rw [Machine.disk_writeHead, Machine.data_writeHead, update_apply, update_apply,
        hcontents.coherent b hb]

theorem advance_installTrans {tail : ℕ} {recovering : Bool}
    (hphase : m.phase = .installTrans recovering tail) (hnext : m.advance = some (es, m')) :
    Invariant start size initial (history ++ es) m' := by
  obtain ⟨hcontrol, hcontents⟩ := hinv
  have hpart := hcontents.phase
  have hquiet := hcontrol.busy (by simp [hphase])
  rw [hphase] at hpart
  obtain ⟨hsettle, hdone⟩ := hpart
  simp only [Machine.advance, hphase] at hnext
  cases hget : m.log.lh[tail]? with
  | some blockno =>
    rw [hget] at hnext
    cases hnext
    obtain ⟨ht, rfl⟩ := List.getElem?_eq_some_iff.mp hget
    rw [List.append_nil, hcontrol.logStart]
    have hdisk := Machine.disk_copyBlock m (start + tail + 1) m.log.lh[tail]
    have hdata := Machine.data_copyBlock m (start + tail + 1) m.log.lh[tail]
    refine ⟨{ hcontrol with busy := fun _ => hquiet, committing := ?_ }, ?_,
      hsettle.install hcontents.coherent hdone ht hdisk hdata⟩
    · intro hup _
      exact hcontrol.committing (by rw [hphase]; exact hup) (by simp [hphase])
    · intro b hb
      have hne : b ≠ m.log.lh[tail] := by
        rintro rfl
        exact hcontrol.names.home _ (getElem_mem ht) hb
      change (m.copyBlock _ _).data b = (m.copyBlock _ _).disk b
      rw [hdisk, hdata, update_of_ne hne, update_of_ne hne, hcontents.coherent b hb]
  | none =>
    rw [hget] at hnext
    cases hnext
    have ht := getElem?_eq_none_iff.mp hget
    have hdisk := Machine.disk_writeHead { m with log := { m.log with lh := [] } }
    have hdata := Machine.data_writeHead { m with log := { m.log with lh := [] } }
    have hcoherent : ∀ b, InLog start size b →
        ({ m with log := { m.log with lh := [] } } : Machine).writeHead.data b =
          ({ m with log := { m.log with lh := [] } } : Machine).writeHead.disk b := by
      intro b hb
      rw [hdisk, hdata, update_apply, update_apply]
      exact if_congr Iff.rfl rfl (hcontents.coherent b hb)
    obtain rfl := hcontrol.logStart
    exact ⟨⟨hcontrol.logStart, hcontrol.logSpan, names_nil, hcontrol.ledger.clear,
      hcontrol.outstanding, fun _ => hquiet, fun _ h => absurd rfl h⟩, hcoherent,
      hsettle.clear hdone ht rfl hdisk hdata⟩

theorem advance_readHead (hphase : m.phase = .readHead) (hnext : m.advance = some (es, m')) :
    Invariant start size initial (history ++ es) m' := by
  obtain ⟨hcontrol, hcontents⟩ := hinv
  have hpart := hcontents.phase
  have hquiet := hcontrol.busy (by simp [hphase])
  rw [hphase] at hpart
  obtain ⟨lh, hsettle⟩ := hpart
  simp only [Machine.advance, hphase] at hnext
  cases hnext
  obtain rfl := hcontrol.logStart
  rw [append_nil, hcontents.coherent _ inLog_start, hsettle.recoverable.header]
  have hdata := Machine.data_bread m m.log.start
  refine ⟨⟨hcontrol.logStart, hcontrol.logSpan, hsettle.recoverable.names, hcontrol.ledger,
    hcontrol.outstanding, fun _ => hquiet, fun h => absurd h (by simp [Phase.isRecovery])⟩, ?_,
    ⟨hsettle.recoverable, ?_, hsettle.empty⟩, installed_zero⟩
  · intro b hb
    change (m.bread m.log.start).data b = m.disk b
    rw [hdata, hcontents.coherent b hb]
  · intro b hb
    change (m.bread m.log.start).data b = m.disk b ∨ (m.bread m.log.start).data b = _
    rw [hdata]
    exact hsettle.seen b hb

theorem advance (hnext : m.advance = some (es, m')) :
    Invariant start size initial (history ++ es) m' := by
  cases hphase : m.phase with
  | idle =>
    unfold Machine.advance at hnext
    rw [hphase] at hnext
    cases hnext
  | commit => exact hinv.advance_commit hphase hnext
  | writeLog tail => exact hinv.advance_writeLog hphase hnext
  | installTrans recovering tail => exact hinv.advance_installTrans hphase hnext
  | readHead => exact hinv.advance_readHead hphase hnext

theorem crash : Invariant start size initial (history ++ [.crash]) m.crash := by
  obtain ⟨hcontrol, hcontents⟩ := hinv
  obtain ⟨lh, hrecoverable⟩ := hcontents.recoverable
  refine ⟨⟨hcontrol.logStart, hcontrol.logSpan, names_nil, hcontrol.ledger.crash, rfl,
    fun _ => rfl, fun h => absurd h (by simp [Machine.crash, Phase.isRecovery])⟩,
    fun _ _ => rfl, lh, ⟨hrecoverable.header, hrecoverable.names, ?_⟩, fun _ _ => .inl rfl, ?_⟩
  · rw [committed_crash]
    exact hrecoverable.redo
  · rw [groups_crash]

/-- Every step, a crash among them, keeps the invariant. -/
theorem step (hstep : Step m es m') : Invariant start size initial (history ++ es) m' := by
  have hcontrol := hinv.control
  have hcontents := hinv.contents
  cases hstep with
  | beginOp hup hbegin =>
    obtain ⟨hidle, hcontrol'⟩ := hcontrol.beginOp hup hbegin
    obtain ⟨-, -, rfl⟩ := beginOp_eq_some_iff.mp hbegin
    exact ⟨hcontrol', contents_of_idle hcontents.coherent hidle
      ((hcontents.gathering hidle).event rfl rfl rfl rfl rfl rfl)⟩
  | logWrite hop hhome hsmall hwrite =>
    exact ⟨hcontrol.logWrite hop hhome hsmall hwrite _,
      Contents.logWrite hcontrol hcontents hop hhome hwrite⟩
  | endOp hop hend => exact ⟨hcontrol.endOp hop hend, Contents.endOp hcontrol hcontents hop hend⟩
  | advance hnext => exact hinv.advance hnext
  | fetch blockno =>
    rw [append_nil]
    exact ⟨{ hcontrol with }, hcontents.fetch blockno⟩
  | recycle hfree =>
    rw [append_nil]
    exact ⟨{ hcontrol with }, hcontents.recycle hfree⟩
  | crash => exact hinv.crash

end

variable {disk : ℕ → Memory}

theorem boot (hclean : decodeHead (disk start) = []) :
    Invariant start size disk [] (boot start size disk) := by
  refine ⟨⟨rfl, rfl, names_nil, Ledger.initial, rfl, fun _ => rfl,
    fun h => absurd h (by simp [LogLayer.boot, Phase.isRecovery])⟩, fun _ _ => rfl, [],
    ⟨hclean, names_nil, redo_nil fun _ _ => rfl⟩, fun _ _ => .inl rfl, rfl⟩

theorem reached (hclean : decodeHead (disk start) = [])
    (hreached : Reached start size disk history m) : Invariant start size disk history m := by
  induction hreached with
  | boot => exact boot hclean
  | step hreached hstep ih => exact ih.step hstep

end Invariant

/-! ## Recovery ends -/

theorem decodeHead_of_clean {block : Memory} (hclean : load 4 block 0 = 0) :
    decodeHead block = [] := by
  unfold decodeHead
  simp [hclean]

theorem installTrans_ends {recovering : Bool} (hreached : Reached start size disk history m)
    (hphase : m.phase = .installTrans recovering tail) :
    ∃ m', Reached start size disk (history ++ [.header 0]) m' ∧ m'.phase = .idle := by
  induction hrest : m.log.lh.length - tail generalizing m tail with
  | zero =>
    have hget : m.log.lh[tail]? = none := getElem?_eq_none_iff.mpr (by omega)
    have hnext : m.advance = some ([.header 0],
        { ({ m with log := { m.log with lh := [] } } : Machine).writeHead with
          log := { m.log with lh := [], committing := false }
          phase := .idle }) := by
      unfold Machine.advance
      rw [hphase]
      dsimp only
      rw [hget]
    exact ⟨_, hreached.step (Step.advance hnext), rfl⟩
  | succ k ih =>
    have hget : m.log.lh[tail]? = some m.log.lh[tail] := getElem?_eq_getElem (by omega)
    have hnext : m.advance = some ([], { m.copyBlock (m.log.start + tail + 1) m.log.lh[tail] with
        pinned := if recovering then m.pinned else m.pinned.erase m.log.lh[tail]
        phase := .installTrans recovering (tail + 1) }) := by
      unfold Machine.advance
      rw [hphase]
      dsimp only
      rw [hget]
    have hstep := hreached.step (Step.advance hnext)
    rw [append_nil] at hstep
    refine ih hstep rfl ?_
    change m.log.lh.length - (tail + 1) = k
    omega

theorem recovery_ends (hreached : Reached start size disk history m)
    (hphase : m.phase = .readHead) :
    ∃ m', Reached start size disk (history ++ [.header 0]) m' ∧ m'.phase = .idle := by
  have hnext : m.advance = some ([], { m.bread m.log.start with
      log := { m.log with lh := decodeHead (m.data m.log.start) }
      phase := .installTrans true 0 }) := by
    unfold Machine.advance
    rw [hphase]
  have hstep := hreached.step (Step.advance hnext)
  rw [append_nil] at hstep
  exact installTrans_ends hstep rfl

/-- A machine that is up has on its disk, outside the log, the groups whose header write
reached the disk and nothing else; a group holds whole operations; and a crash can be
followed by a recovery that ends. -/
theorem crash_atomic {disk : ℕ → Memory} (hclean : load 4 (disk start) 0 = 0)
    (hreached : Reached start size disk history m) :
    (m.phase = .idle → ∀ b, ¬ InLog start size b →
      m.disk b = replay (updates (groups history).done.flatten) disk b) ∧
    (groups history).done.length = headerWrites history ∧
    (∀ g ∈ (groups history).done, ∀ op, Touches op g →
      opEvents op history = opEvents op g ∧ Complete op g) ∧
    ∃ m', Reached start size disk (history ++ [.crash] ++ [.header 0]) m' ∧ m'.phase = .idle := by
  have hinv := Invariant.reached (decodeHead_of_clean hclean) hreached
  refine ⟨?_, length_groups history, hinv.control.ledger.done, ?_⟩
  · intro hidle
    exact (hinv.contents.gathering hidle).disk
  · exact recovery_ends (hreached.step Step.crash) rfl

def sampleBlock : Memory := fun _ => 1

def sampleEvents : List Event :=
  [.header 0, .start 0, .write 0 40 sampleBlock, .finish 0, .header 1]

end Runs

theorem not_inLog_sample : ¬ InLog 2 31 40 := by
  unfold InLog
  omega

theorem sampleEvents_reached : ∃ m, Reached 2 31 (fun _ _ => 0) sampleEvents m := by
  have hboot : Reached 2 31 (fun _ _ => 0) [] _ := Reached.boot
  have hup := (hboot.step (Step.advance rfl)).step (Step.advance rfl)
  have hbegun := hup.step (Step.beginOp rfl rfl)
  have hwritten := hbegun.step
    (@Step.logWrite _ _ _ 0 40 sampleBlock mem_cons_self not_inLog_sample (by decide) rfl)
  have hended := hwritten.step (@Step.endOp _ _ _ 0 mem_cons_self rfl)
  have hlogged := (hended.step (Step.advance rfl)).step (Step.advance rfl)
  exact ⟨_, hlogged.step (Step.advance rfl)⟩

theorem crash_atomic_sample : ∃ m, Reached 2 31 (fun _ _ => 0)
    (sampleEvents ++ [.crash] ++ [.header 0]) m ∧ m.phase = .idle ∧ m.disk 40 = sampleBlock := by
  obtain ⟨m, hm⟩ := sampleEvents_reached
  obtain ⟨-, -, -, m', hreached, hidle⟩ := crash_atomic rfl hm
  refine ⟨m', hreached, hidle, ?_⟩
  exact (crash_atomic rfl hreached).1 hidle 40 not_inLog_sample

end Xv6MallocLab.LogLayer
