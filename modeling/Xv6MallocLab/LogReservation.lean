import Xv6MallocLab.LogCrash

/-!
# Space reserved by `begin_op`

What all running operations may still write always fits into `LOGSIZE` next to the
blocks already logged; but `log_write` looks at the room before it looks whether the
block is new, and the header takes one block of the log.
-/

namespace Xv6MallocLab.LogLayer

open ByteMemory List

def blocks (events : List Event) : Finset ℕ := ((updates events).map Prod.fst).toFinset

def opBlocks (op : ℕ) (history : List Event) : Finset ℕ := blocks (opEvents op history)

/-- Every operation writes at most `MAXOPBLOCKS` distinct blocks. -/
def InBudget (history : List Event) : Prop := ∀ op, (opBlocks op history).card ≤ maxOpBlocks

def reserve (history : List Event) (running : List ℕ) : ℕ :=
  ∑ op ∈ running.toFinset, (maxOpBlocks - (opBlocks op history).card)

theorem blocks_append (es fs : List Event) : blocks (es ++ fs) = blocks es ∪ blocks fs := by
  rw [blocks, updates_append, map_append, toFinset_append, ← blocks, ← blocks]

theorem blocks_write (op blockno : ℕ) (data : Memory) :
    blocks [.write op blockno data] = {blockno} := rfl

variable {es : List Event} {e : Event} {op : ℕ}

theorem mem_blocks {b : ℕ} : b ∈ blocks es ↔ ∃ op data, Event.write op b data ∈ es := by
  simp only [blocks, updates, mem_toFinset, mem_map, mem_filterMap]
  constructor
  · rintro ⟨u, ⟨e, he, hu⟩, rfl⟩
    cases e with
    | write op blockno data =>
      cases hu
      exact ⟨op, data, he⟩
    | start op => cases hu
    | finish op => cases hu
    | header n => cases hu
    | crash => cases hu
  · rintro ⟨op, data, he⟩
    exact ⟨(b, data), ⟨_, he, rfl⟩, rfl⟩

theorem blocks_opEvents_subset (op : ℕ) (es : List Event) : blocks (opEvents op es) ⊆ blocks es := by
  intro b hb
  obtain ⟨o, data, he⟩ := mem_blocks.mp hb
  exact mem_blocks.mpr ⟨o, data, mem_of_mem_filter he⟩

theorem blocks_concat_of_none (hnone : e.update = none) : blocks (es ++ [e]) = blocks es := by
  rw [blocks, updates_concat_of_none hnone, ← blocks]

theorem opBlocks_concat_of_none {history : List Event} (op : ℕ) (hnone : e.update = none) :
    opBlocks op (history ++ [e]) = opBlocks op history := by
  by_cases he : e.op = some op
  · rw [opBlocks, opEvents_concat_of_eq _ he, blocks_concat_of_none hnone, ← opBlocks]
  · rw [opBlocks, opEvents_concat_of_ne _ he, ← opBlocks]

theorem opBlocks_write_self (history : List Event) (op blockno : ℕ) (data : Memory) :
    opBlocks op (history ++ [.write op blockno data]) = insert blockno (opBlocks op history) := by
  rw [opBlocks, opEvents_concat_of_eq _ rfl, blocks_append, blocks_write, ← opBlocks,
    Finset.union_comm, ← Finset.insert_eq]

theorem opBlocks_write_of_ne (history : List Event) {o : ℕ} (blockno : ℕ) (data : Memory)
    (hne : o ≠ op) : opBlocks o (history ++ [.write op blockno data]) = opBlocks o history := by
  have he : (Event.write op blockno data).op ≠ some o := by
    intro h
    exact hne (Option.some.inj h).symm
  rw [opBlocks, opEvents_concat_of_ne _ he, ← opBlocks]

theorem opBlocks_subset_append (op : ℕ) (history es : List Event) :
    opBlocks op history ⊆ opBlocks op (history ++ es) := by
  rw [opBlocks, opBlocks, opEvents, opEvents, filter_append, blocks_append]
  exact Finset.subset_union_left

theorem InBudget.of_append {history : List Event} (hbudget : InBudget (history ++ es)) :
    InBudget history := fun op =>
  (Finset.card_le_card (opBlocks_subset_append op history es)).trans (hbudget op)

theorem reserve_le (history : List Event) (running : List ℕ) :
    reserve history running ≤ running.length * maxOpBlocks := by
  calc reserve history running
      ≤ ∑ _op ∈ running.toFinset, maxOpBlocks := Finset.sum_le_sum fun _ _ => Nat.sub_le _ _
    _ = running.toFinset.card * maxOpBlocks := by rw [Finset.sum_const, smul_eq_mul]
    _ ≤ running.length * maxOpBlocks := Nat.mul_le_mul_right _ running.toFinset_card_le

theorem reserve_concat_of_none {history : List Event} (running : List ℕ) (hnone : e.update = none) :
    reserve (history ++ [e]) running = reserve history running :=
  Finset.sum_congr rfl fun op _ => by rw [opBlocks_concat_of_none op hnone]

theorem reserve_write_new {history : List Event} {running : List ℕ} {blockno : ℕ} {data : Memory}
    (hop : op ∈ running) (hbudget : InBudget (history ++ [.write op blockno data]))
    (hnew : blockno ∉ opBlocks op history) :
    reserve (history ++ [.write op blockno data]) running + 1 = reserve history running := by
  have hmem : op ∈ running.toFinset := mem_toFinset.mpr hop
  have hself := hbudget op
  rw [opBlocks_write_self, Finset.card_insert_of_notMem hnew] at hself
  have hrest : ∑ o ∈ running.toFinset.erase op,
        (maxOpBlocks - (opBlocks o (history ++ [.write op blockno data])).card) =
      ∑ o ∈ running.toFinset.erase op, (maxOpBlocks - (opBlocks o history).card) := by
    refine Finset.sum_congr rfl fun o ho => ?_
    rw [opBlocks_write_of_ne _ _ _ (Finset.ne_of_mem_erase ho)]
  unfold reserve
  rw [← Finset.add_sum_erase _ _ hmem, ← Finset.add_sum_erase _ _ hmem, hrest,
    opBlocks_write_self, Finset.card_insert_of_notMem hnew]
  omega

theorem reserve_write_le {history : List Event} (running : List ℕ) (op blockno : ℕ)
    (data : Memory) :
    reserve (history ++ [.write op blockno data]) running ≤ reserve history running :=
  Finset.sum_le_sum fun o _ =>
    Nat.sub_le_sub_left (Finset.card_le_card (opBlocks_subset_append o history _)) _

def Phase.gathers : Phase → Bool
  | .installTrans _ _ => false
  | _ => true

structure Reserved (history : List Event) (m : Machine) : Prop where
  nodup : m.phase.gathers = true → m.log.lh.Nodup
  recorded : m.phase.gathers = true → ∀ b ∈ m.log.lh, b ∈ blocks (groups history).current
  room : InBudget history → m.log.n + reserve history m.running ≤ logSize

variable {start size : ℕ} {disk : ℕ → Memory} {history : List Event} {m : Machine}

theorem room_of_running_eq_nil (hcontrol : Control start size history m)
    (hnil : m.running = []) : m.log.n + reserve history m.running ≤ logSize := by
  rw [hnil]
  exact hcontrol.names.length

namespace Reserved

theorem of_lh_eq_nil (hcontrol : Control start size history m) (hnil : m.running = [])
    (hlh : m.log.lh = []) : Reserved history m := by
  refine ⟨fun _ => ?_, fun _ b hb => ?_, fun _ => room_of_running_eq_nil hcontrol hnil⟩
  · rw [hlh]
    exact nodup_nil
  · rw [hlh] at hb
    exact absurd hb not_mem_nil

theorem of_gathers_eq_false (hcontrol : Control start size history m) (hnil : m.running = [])
    (hfalse : m.phase.gathers = false) : Reserved history m :=
  ⟨fun h => absurd h (by simp [hfalse]), fun h => absurd h (by simp [hfalse]),
    fun _ => room_of_running_eq_nil hcontrol hnil⟩

variable {log : Log} {op : ℕ} {m' : Machine}

section

variable (hreserved : Reserved history m)

include hreserved

theorem beginOp (hcontrol : Control start size history m) (hbegin : beginOp m.log = some log) :
    Reserved (history ++ [.start m.next])
      { m with log := log, running := m.next :: m.running, next := m.next + 1 } := by
  obtain ⟨-, hroom, rfl⟩ := beginOp_eq_some_iff.mp hbegin
  refine ⟨hreserved.nodup, fun hgathers b hb => ?_, fun _ => ?_⟩
  · rw [groups_op history rfl, blocks_concat_of_none rfl]
    exact hreserved.recorded hgathers b hb
  · have hle := reserve_le (history ++ [.start m.next]) (m.next :: m.running)
    have hcount := hcontrol.outstanding
    rw [length_cons] at hle
    rw [hcount] at hroom
    have hroom' : m.log.n + (m.running.length + 1) * maxOpBlocks ≤ logSize := by exact_mod_cast hroom
    exact (Nat.add_le_add_left hle _).trans hroom'

theorem logWrite {pin : Bool} {blockno : ℕ} {data : Memory}
    (hinv : Invariant start size disk history m) (hop : op ∈ m.running)
    (hwrite : logWrite m.log blockno = .ok (log, pin)) (hlog : m'.log = log)
    (hrunning : m'.running = m.running) : Reserved (history ++ [.write op blockno data]) m' := by
  obtain ⟨-, -, -, rfl, -⟩ := logWrite_eq_ok_iff.mp hwrite
  have hidle := hinv.control.idle hop
  have hgathers : m.phase.gathers = true := by rw [hidle]; rfl
  have hblocks : blocks (groups (history ++ [.write op blockno data])).current =
      blocks (groups history).current ∪ {blockno} := by
    rw [groups_op history rfl, blocks_append, blocks_write]
  refine ⟨fun _ => ?_, fun _ b hb => ?_, fun hbudget => ?_⟩
  · rw [hlog]
    exact nodup_record (hreserved.nodup hgathers)
  · rw [hlog] at hb
    rw [hblocks, Finset.mem_union, Finset.mem_singleton]
    rcases mem_record.mp hb with rfl | hb
    · exact Or.inr rfl
    · exact Or.inl (hreserved.recorded hgathers b hb)
  · have hroom := hreserved.room hbudget.of_append
    rw [hrunning, Log.n, hlog]
    dsimp only
    by_cases hmem : blockno ∈ m.log.lh
    · have hle := @reserve_write_le history m.running op blockno data
      have hsame : record m.log.lh blockno = m.log.lh := if_pos hmem
      rw [hsame]
      change m.log.n + _ ≤ logSize
      omega
    · have hnew : blockno ∉ opBlocks op history := by
        intro hin
        have htouch := (hinv.control.ledger.active op hop).touches
        rw [opBlocks, (hinv.control.ledger.current op htouch).1] at hin
        have hcurrent := blocks_opEvents_subset op _ hin
        obtain ⟨o, v, he⟩ := mem_blocks.mp hcurrent
        have hupdate : (blockno, v) ∈ updates (groups history).current :=
          mem_filterMap.mpr ⟨_, he, rfl⟩
        exact hmem ((hinv.contents.gathering hidle).written _ hupdate)
      have hone := reserve_write_new hop hbudget hnew
      have hlen : (record m.log.lh blockno).length = m.log.n + 1 := by
        rw [record, if_neg hmem, length_append]
        rfl
      omega

theorem endOp {commit : Bool} (hcontrol : Control start size history m) (hop : op ∈ m.running)
    (hend : endOp m.log = .ok (log, commit)) :
    Reserved (history ++ [.finish op])
      { m with log := log, running := m.running.erase op,
               phase := if commit then .commit else m.phase } := by
  obtain ⟨-, -, rfl⟩ := endOp_eq_ok_iff.mp hend
  have hgathers : m.phase.gathers = true := by rw [hcontrol.idle hop]; rfl
  refine ⟨fun _ => hreserved.nodup hgathers, fun _ b hb => ?_, fun hbudget => ?_⟩
  · rw [groups_op history rfl, blocks_concat_of_none rfl]
    exact hreserved.recorded hgathers b hb
  · have hroom := hreserved.room hbudget.of_append
    have hle : reserve (history ++ [.finish op]) (m.running.erase op) ≤
        reserve history m.running := by
      rw [reserve_concat_of_none _ rfl]
      refine Finset.sum_le_sum_of_subset fun o ho => ?_
      rw [mem_toFinset] at ho ⊢
      exact mem_of_mem_erase ho
    exact (Nat.add_le_add_left hle _).trans hroom

theorem keep (hcontrol' : Control start size history m') (hgathers : m.phase.gathers = true)
    (hlh : m'.log.lh = m.log.lh) (hnil : m'.running = []) : Reserved history m' := by
  refine ⟨fun _ => ?_, fun _ => ?_, fun _ => room_of_running_eq_nil hcontrol' hnil⟩
  · rw [hlh]
    exact hreserved.nodup hgathers
  · rw [hlh]
    exact hreserved.recorded hgathers

theorem advance {es : List Event} (hcontrol : Control start size history m)
    (hcontrol' : Control start size (history ++ es) m') (hnext : m.advance = some (es, m')) :
    Reserved (history ++ es) m' := by
  unfold Machine.advance at hnext
  cases hphase : m.phase with
  | idle =>
    rw [hphase] at hnext
    cases hnext
  | commit =>
    have hnil := hcontrol.busy (by simp [hphase])
    simp only [hphase] at hnext
    split at hnext
    all_goals
      obtain ⟨rfl, rfl⟩ := Prod.mk.inj (Option.some.inj hnext)
      rw [append_nil] at hcontrol' ⊢
      exact hreserved.keep hcontrol' (by rw [hphase]; rfl) rfl hnil
  | writeLog tail =>
    have hnil := hcontrol.busy (by simp [hphase])
    simp only [hphase] at hnext
    split at hnext
    all_goals obtain ⟨rfl, rfl⟩ := Prod.mk.inj (Option.some.inj hnext)
    · rw [append_nil] at hcontrol' ⊢
      exact hreserved.keep hcontrol' (by rw [hphase]; rfl) rfl hnil
    · exact of_gathers_eq_false hcontrol' hnil rfl
  | installTrans recovering tail =>
    have hnil := hcontrol.busy (by simp [hphase])
    simp only [hphase] at hnext
    split at hnext
    all_goals obtain ⟨rfl, rfl⟩ := Prod.mk.inj (Option.some.inj hnext)
    · exact of_gathers_eq_false hcontrol' hnil rfl
    · exact of_lh_eq_nil hcontrol' hnil rfl
  | readHead =>
    have hnil := hcontrol.busy (by simp [hphase])
    rw [hphase] at hnext
    obtain ⟨rfl, rfl⟩ := Prod.mk.inj (Option.some.inj hnext)
    exact of_gathers_eq_false hcontrol' hnil rfl

theorem step {es : List Event} (hinv : Invariant start size disk history m) (hstep : Step m es m') :
    Reserved (history ++ es) m' := by
  have hinv' := hinv.step hstep
  cases hstep with
  | beginOp hup hbegin => exact hreserved.beginOp hinv.control hbegin
  | logWrite hop hhome hsmall hwrite => exact hreserved.logWrite hinv hop hwrite rfl rfl
  | endOp hop hend => exact hreserved.endOp hinv.control hop hend
  | advance hnext => exact hreserved.advance hinv.control hinv'.control hnext
  | fetch blockno =>
    rw [append_nil]
    exact ⟨hreserved.nodup, hreserved.recorded, hreserved.room⟩
  | recycle hfree =>
    rw [append_nil]
    exact ⟨hreserved.nodup, hreserved.recorded, hreserved.room⟩
  | crash => exact of_lh_eq_nil hinv'.control rfl rfl

end

theorem reached (hclean : load 4 (disk start) 0 = 0)
    (hreached : Reached start size disk history m) : Reserved history m := by
  induction hreached with
  | boot => exact of_lh_eq_nil (Invariant.boot (decodeHead_of_clean hclean)).control rfl rfl
  | step hreached hstep ih =>
    exact ih.step (Invariant.reached (decodeHead_of_clean hclean) hreached) hstep

theorem n_eq (hreserved : Reserved history m) (hinv : Invariant start size disk history m)
    (hop : op ∈ m.running) : m.log.n = (blocks (groups history).current).card := by
  have hidle := hinv.control.idle hop
  have hgathers : m.phase.gathers = true := by rw [hidle]; rfl
  have hset : m.log.lh.toFinset = blocks (groups history).current := by
    refine Finset.Subset.antisymm (fun b hb => ?_) (fun b hb => ?_)
    · exact hreserved.recorded hgathers b (mem_toFinset.mp hb)
    · obtain ⟨o, data, he⟩ := mem_blocks.mp hb
      have hupdate : (b, data) ∈ updates (groups history).current :=
        mem_filterMap.mpr ⟨_, he, rfl⟩
      exact mem_toFinset.mpr ((hinv.contents.gathering hidle).written _ hupdate)
  rw [← hset, toFinset_card_of_nodup (hreserved.nodup hgathers)]
  rfl

end Reserved

/-- A call of `log_write` by a running operation returns exactly when fewer than `LOGSIZE` and
fewer than `nlog - 1` distinct blocks have been written since the last commit.  So it is for an
operation within its budget that writes a new block, if the log has more than `LOGSIZE` blocks. -/
theorem logWrite_reserved {op blockno : ℕ} (hclean : load 4 (disk start) 0 = 0)
    (hreached : Reached start size disk history m) (hop : op ∈ m.running) :
    ((∃ log pin, logWrite m.log blockno = .ok (log, pin) ∧ log.lh.count blockno = 1 ∧
        log.n ≤ logSize) ↔
      (blocks (groups history).current).card < logSize ∧
        (blocks (groups history).current).card < size - 1) ∧
    (logWrite m.log blockno = .error .tooBig ↔
      ¬ ((blocks (groups history).current).card < logSize ∧
        (blocks (groups history).current).card < size - 1)) ∧
    (∀ data, InBudget (history ++ [.write op blockno data]) → logSize < size →
      blockno ∉ blocks (groups history).current →
      (blocks (groups history).current).card < logSize ∧
        (blocks (groups history).current).card < size - 1) := by
  have hinv := Invariant.reached (decodeHead_of_clean hclean) hreached
  have hreserved := Reserved.reached hclean hreached
  have hn := hreserved.n_eq hinv hop
  have hspan := hinv.control.logSpan
  have hnodup := hreserved.nodup (by rw [hinv.control.idle hop]; rfl)
  have hpos : 0 < m.running.length := length_pos_of_mem hop
  have hout : 1 ≤ m.log.outstanding := by
    rw [hinv.control.outstanding]
    omega
  have hlog : 0 < logSize := by decide
  rw [← hn]
  refine ⟨?_, ?_, ?_⟩
  · constructor
    · rintro ⟨log, pin, hwrite, -⟩
      obtain ⟨hroom, hspan', -⟩ := logWrite_eq_ok_iff.mp hwrite
      omega
    · rintro ⟨hroom, hspan'⟩
      refine ⟨_, _, logWrite_eq_ok_iff.mpr ⟨hroom, by omega, hout, rfl, rfl⟩, ?_, ?_⟩
      · exact count_eq_one_of_mem (nodup_record hnodup) (mem_record.mpr (Or.inl rfl))
      · exact (length_record_le m.log.lh blockno).trans hroom
  · constructor
    · intro hpanic hok
      rw [logWrite_eq_ok_iff.mpr ⟨hok.1, by omega, hout, rfl, rfl⟩] at hpanic
      cases hpanic
    · intro hfull
      unfold logWrite
      rw [if_pos (by omega)]
  · intro data hbudget hlarge hnew
    have hroom := hreserved.room hbudget.of_append
    have hfresh : blockno ∉ opBlocks op history := by
      intro hin
      have htouch := (hinv.control.ledger.active op hop).touches
      rw [opBlocks, (hinv.control.ledger.current op htouch).1] at hin
      exact hnew (blocks_opEvents_subset op _ hin)
    have hone := reserve_write_new hop hbudget hfresh
    omega

theorem begun_reached (size : ℕ) : ∃ m, Reached 2 size (fun _ _ => 0)
    [.header 0, .start 0, .start 1, .start 2] m ∧ m.running = [2, 1, 0] ∧
      m.log = { start := 2, size := size, outstanding := 3, committing := false, lh := [] } := by
  have hboot : Reached 2 size (fun _ _ => 0) [] _ := Reached.boot
  have hup := (hboot.step (Step.advance rfl)).step (Step.advance rfl)
  have hone := hup.step (Step.beginOp rfl rfl)
  have htwo := hone.step (Step.beginOp rfl rfl)
  exact ⟨_, htwo.step (Step.beginOp rfl rfl), rfl, rfl⟩

def sampleWrites (op : ℕ) (bs : List ℕ) : List Event := bs.map fun b => .write op b sampleBlock

def fullEvents (bs : List ℕ) : List Event :=
  [.header 0, .start 0, .start 1, .start 2] ++ sampleWrites 0 (List.range' 100 10) ++
    sampleWrites 1 (List.range' 200 10) ++ sampleWrites 2 bs

theorem write_all {op : ℕ} {bs : List ℕ} {log : Log} (hreached : Reached start size disk history m)
    (hop : op ∈ m.running) (hall : logAll m.log bs = some log) :
    ∃ m', Reached start size disk (history ++ sampleWrites op bs) m' ∧ m'.log = log ∧
      m'.running = m.running := by
  induction bs generalizing history m with
  | nil => exact ⟨m, by simpa [sampleWrites] using hreached, Option.some.inj hall, rfl⟩
  | cons b bs ih =>
    obtain ⟨hhome, hsmall, log1, pin, hwrite, hall⟩ := logAll_cons_eq_some_iff.mp hall
    obtain ⟨m', hm', hlog, hrun⟩ := ih
      (hreached.step (@Step.logWrite _ _ _ op b sampleBlock hop hhome hsmall hwrite)) hop hall
    exact ⟨m', by simpa [sampleWrites] using hm', hlog, hrun⟩

theorem fullEvents_reached {size : ℕ} {bs : List ℕ} {log0 log1 log : Log}
    (h0 : logAll ⟨2, size, 3, false, []⟩ (List.range' 100 10) = some log0)
    (h1 : logAll log0 (List.range' 200 10) = some log1) (h2 : logAll log1 bs = some log) :
    ∃ m, Reached 2 size (fun _ _ => 0) (fullEvents bs) m ∧ m.running = [2, 1, 0] ∧ m.log = log := by
  obtain ⟨m, hm, hrun, hlog⟩ := begun_reached size
  rw [← hlog] at h0
  obtain ⟨m0, hm0, rfl, hrun0⟩ := write_all hm (show 0 ∈ m.running by simp [hrun]) h0
  rw [hrun] at hrun0
  obtain ⟨m1, hm1, rfl, hrun1⟩ := write_all hm0 (show 1 ∈ m0.running by simp [hrun0]) h1
  rw [hrun0] at hrun1
  obtain ⟨m2, hm2, hlog2, hrun2⟩ := write_all hm1 (show 2 ∈ m1.running by simp [hrun1]) h2
  exact ⟨m2, hm2, hrun2.trans hrun1, hlog2⟩

theorem inBudget_of_lt {history : List Event} {k : ℕ}
    (hops : ∀ e ∈ history, ∀ op, e.op = some op → op < k)
    (hcard : ∀ op < k, (opBlocks op history).card ≤ maxOpBlocks) : InBudget history := by
  intro op
  by_cases hop : op < k
  · exact hcard op hop
  · have hnone : opEvents op history = [] := by
      refine filter_eq_nil_iff.mpr fun e he => ?_
      simp only [beq_iff_eq]
      intro h
      exact hop (hops e he op h)
    rw [opBlocks, hnone]
    exact Nat.zero_le _

theorem op_lt_of_all {history : List Event} (hall : history.all (fun e => e.op.getD 0 < 3) = true) :
    ∀ e ∈ history, ∀ op, e.op = some op → op < 3 := by
  intro e he op hop
  have hlt := all_eq_true.mp hall e he
  rw [hop] at hlt
  simpa using hlt

theorem inBudget_rewrite : InBudget (fullEvents (List.range' 300 10) ++ [.write 2 309 sampleBlock]) := by
  refine inBudget_of_lt (op_lt_of_all (by decide)) fun op hop => ?_
  interval_cases op <;> decide

theorem inBudget_tenth : InBudget (fullEvents (List.range' 300 9) ++ [.write 2 309 sampleBlock]) := by
  refine inBudget_of_lt (op_lt_of_all (by decide)) fun op hop => ?_
  interval_cases op <;> decide

/-- Two calls within their budgets that panic: with `nlog = LOGSIZE + 1` a block
that is already in the full log, with `nlog = LOGSIZE` the thirtieth block. -/
theorem logWrite_overrun :
    (∃ m, Reached 2 31 (fun _ _ => 0) (fullEvents (List.range' 300 10)) m ∧ 2 ∈ m.running ∧
      InBudget (fullEvents (List.range' 300 10) ++ [.write 2 309 sampleBlock]) ∧
      logWrite m.log 309 = .error .tooBig) ∧
    (∃ m, Reached 2 30 (fun _ _ => 0) (fullEvents (List.range' 300 9)) m ∧ 2 ∈ m.running ∧
      InBudget (fullEvents (List.range' 300 9) ++ [.write 2 309 sampleBlock]) ∧
      logWrite m.log 309 = .error .tooBig) := by
  refine ⟨?_, ?_⟩
  · obtain ⟨m, hm, hrun, hlog⟩ := @fullEvents_reached 31 (List.range' 300 10) _ _ _ rfl rfl rfl
    refine ⟨m, hm, by simp [hrun], inBudget_rewrite, ?_⟩
    rw [hlog]
    rfl
  · obtain ⟨m, hm, hrun, hlog⟩ := @fullEvents_reached 30 (List.range' 300 9) _ _ _ rfl rfl rfl
    refine ⟨m, hm, by simp [hrun], inBudget_tenth, ?_⟩
    rw [hlog]
    rfl

theorem logWrite_reserved_sample : ∃ m, Reached 2 31 (fun _ _ => 0) (fullEvents (List.range' 300 9)) m ∧
    ∃ log pin, logWrite m.log 309 = .ok (log, pin) ∧ log.lh.count 309 = 1 ∧ log.n ≤ logSize := by
  obtain ⟨m, hm, hrun, -⟩ := @fullEvents_reached 31 (List.range' 300 9) _ _ _ rfl rfl rfl
  refine ⟨m, hm, ?_⟩
  have hop : 2 ∈ m.running := by simp [hrun]
  exact (logWrite_reserved rfl hm hop).1.mpr
    ((logWrite_reserved rfl hm hop).2.2 _ inBudget_tenth (by decide) (by decide))

end Xv6MallocLab.LogLayer
