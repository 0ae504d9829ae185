import Xv6MallocLab.RedoLog
import Xv6MallocLab.ByteMemory

/-!
# Commit groups

Operations begin, write blocks and end, header writes reach the disk, and the machine
crashes.  The events between two header writes that name blocks form a commit group;
what a crash interrupts belongs to none.
-/

namespace Xv6MallocLab.LogLayer

open ByteMemory List

inductive Event
  | start (op : ℕ)
  | write (op : ℕ) (blockno : ℕ) (data : Memory)
  | finish (op : ℕ)
  | header (n : ℕ)
  | crash

namespace Event

def op : Event → Option ℕ
  | start op => some op
  | write op _ _ => some op
  | finish op => some op
  | header _ => none
  | crash => none

def update : Event → Option (ℕ × Memory)
  | write _ blockno data => some (blockno, data)
  | _ => none

end Event

/-- The commit groups of a history, and the events that follow the last one. -/
structure Groups where
  done : List (List Event)
  current : List Event

def Groups.observe (groups : Groups) : Event → Groups
  | .header 0 => groups
  | .header (_ + 1) => ⟨groups.done ++ [groups.current], []⟩
  | .crash => ⟨groups.done, []⟩
  | e => ⟨groups.done, groups.current ++ [e]⟩

def groups (history : List Event) : Groups := history.foldl Groups.observe ⟨[], []⟩

def headerWrites (history : List Event) : ℕ :=
  history.countP fun
    | .header (_ + 1) => true
    | _ => false

def updates (events : List Event) : List (ℕ × Memory) := events.filterMap Event.update

theorem groups_concat (history : List Event) (e : Event) :
    groups (history ++ [e]) = (groups history).observe e := by
  simp [groups]

theorem groups_header_zero (history : List Event) :
    groups (history ++ [.header 0]) = groups history := groups_concat _ _

theorem groups_header_pos (history : List Event) {n : ℕ} (hn : 0 < n) :
    groups (history ++ [.header n]) =
      ⟨(groups history).done ++ [(groups history).current], []⟩ := by
  obtain ⟨k, rfl⟩ := Nat.exists_eq_succ_of_ne_zero hn.ne'
  exact groups_concat _ _

theorem groups_crash (history : List Event) :
    groups (history ++ [.crash]) = ⟨(groups history).done, []⟩ := groups_concat _ _

variable {e : Event} {op : ℕ}

theorem groups_op (history : List Event) (he : e.op.isSome) :
    groups (history ++ [e]) = ⟨(groups history).done, (groups history).current ++ [e]⟩ := by
  rw [groups_concat]
  cases e with
  | start op => rfl
  | write op blockno data => rfl
  | finish op => rfl
  | header n => simp [Event.op] at he
  | crash => simp [Event.op] at he

theorem updates_append (es fs : List Event) : updates (es ++ fs) = updates es ++ updates fs :=
  filterMap_append

theorem length_groups (history : List Event) :
    (groups history).done.length = headerWrites history := by
  induction history using List.reverseRecOn with
  | nil => rfl
  | append_singleton history e ih =>
    rw [groups_concat, headerWrites, countP_append, ← headerWrites, ← ih]
    cases e with
    | start op => rfl
    | write op blockno data => rfl
    | finish op => rfl
    | header n =>
      cases n with
      | zero => rfl
      | succ n => simp [Groups.observe]
    | crash => rfl

def opEvents (op : ℕ) (events : List Event) : List Event := events.filter fun e => e.op == some op

def Touches (op : ℕ) (events : List Event) : Prop := opEvents op events ≠ []

def Unfinished (op : ℕ) (events : List Event) : Prop :=
  ∃ us : List (ℕ × Memory), opEvents op events = .start op :: us.map fun u => .write op u.1 u.2

def Complete (op : ℕ) (events : List Event) : Prop :=
  ∃ us : List (ℕ × Memory),
    opEvents op events = .start op :: (us.map fun u => .write op u.1 u.2) ++ [.finish op]

theorem opEvents_concat_of_eq (events : List Event) (he : e.op = some op) :
    opEvents op (events ++ [e]) = opEvents op events ++ [e] := by
  simp [opEvents, filter_append, he]

theorem opEvents_concat_of_ne (events : List Event) (he : e.op ≠ some op) :
    opEvents op (events ++ [e]) = opEvents op events := by
  simp [opEvents, filter_append, he]

theorem Unfinished.not_complete {es : List Event} (hun : Unfinished op es) : ¬ Complete op es := by
  obtain ⟨us, hus⟩ := hun
  rintro ⟨vs, hvs⟩
  have hmem : Event.finish op ∈ opEvents op es := by
    rw [hvs]
    simp
  rw [hus] at hmem
  simp at hmem

/-- How the operations of a history stand: those that are `running` are the
unfinished ones of the current group, and all others that left a trace in a
group are complete in it. -/
structure Ledger (history : List Event) (running : List ℕ) (next : ℕ) : Prop where
  nodup : running.Nodup
  fresh : ∀ op, next ≤ op → opEvents op history = []
  done : ∀ g ∈ (groups history).done, ∀ op, Touches op g →
    opEvents op history = opEvents op g ∧ Complete op g
  current : ∀ op, Touches op (groups history).current →
    opEvents op history = opEvents op (groups history).current ∧
      (op ∉ running → Complete op (groups history).current)
  active : ∀ op ∈ running, Unfinished op (groups history).current

theorem Unfinished.touches {es : List Event} (hun : Unfinished op es) : Touches op es := by
  obtain ⟨us, hus⟩ := hun
  simp [Touches, hus]

namespace Ledger

variable {history : List Event} {running : List ℕ} {next : ℕ}

theorem initial : Ledger [] [] 0 :=
  ⟨nodup_nil, fun _ _ => rfl, fun _ hg => absurd hg not_mem_nil,
    fun _ h => absurd rfl h, fun _ h => absurd h not_mem_nil⟩

variable {op : ℕ}

section

variable (hledger : Ledger history running next)

include hledger

theorem lt_next (hop : op ∈ running) : op < next := by
  by_contra hge
  have htouch := (hledger.active op hop).touches
  have hnone := hledger.fresh op (by omega)
  rw [(hledger.current op htouch).1] at hnone
  exact htouch hnone

theorem not_touches_done (hop : op ∈ running ∨ next ≤ op) {g : List Event}
    (hg : g ∈ (groups history).done) : ¬ Touches op g := by
  intro htouch
  obtain ⟨hsame, us, hus⟩ := hledger.done g hg op htouch
  rcases hop with hop | hop
  · have hun := hledger.active op hop
    have hcur := (hledger.current op hun.touches).1
    refine hun.not_complete ⟨us, ?_⟩
    rw [← hcur, hsame, hus]
  · rw [hledger.fresh op hop] at hsame
    exact htouch hsame.symm

theorem step {next' : ℕ} {running' : List ℕ} {e : Event} (he : e.op = some op)
    (hop : op ∈ running ∨ next ≤ op) (hnodup : running'.Nodup) (hnext : next ≤ next')
    (hlt : op < next') (hother : ∀ o, o ≠ op → (o ∈ running' ↔ o ∈ running))
    (hopen : op ∈ running' → Unfinished op ((groups history).current ++ [e]))
    (hclosed : op ∉ running' → Complete op ((groups history).current ++ [e])) :
    Ledger (history ++ [e]) running' next' := by
  have hgroups := groups_op history (e := e) (by simp [he])
  have hself : opEvents op history = opEvents op (groups history).current := by
    rcases hop with hop | hop
    · exact (hledger.current op (hledger.active op hop).touches).1
    · have hnone := hledger.fresh op hop
      rw [hnone]
      by_contra hne
      exact hne ((hledger.current op (Ne.symm hne)).1 ▸ hnone).symm
  have hne : ∀ {o}, o ≠ op → e.op ≠ some o := by
    intro o ho h
    rw [he, Option.some.injEq] at h
    exact ho h.symm
  have hframe : ∀ {o}, o ≠ op → ∀ es, opEvents o (es ++ [e]) = opEvents o es := fun ho es =>
    opEvents_concat_of_ne es (hne ho)
  refine ⟨hnodup, ?_, ?_, ?_, ?_⟩
  · intro o ho
    rw [hframe (by omega)]
    exact hledger.fresh o (by omega)
  · intro g hg o htouch
    rw [hgroups] at hg
    have ho : o ≠ op := by
      rintro rfl
      exact hledger.not_touches_done hop hg htouch
    rw [hframe ho]
    exact hledger.done g hg o htouch
  · intro o htouch
    rw [hgroups] at htouch ⊢
    dsimp only at htouch ⊢
    by_cases ho : o = op
    · subst ho
      refine ⟨?_, hclosed⟩
      rw [opEvents_concat_of_eq _ he, opEvents_concat_of_eq _ he, hself]
    · unfold Touches at htouch
      unfold Complete
      rw [hframe ho] at htouch
      rw [hframe ho, hframe ho, hother o ho]
      exact hledger.current o htouch
  · intro o ho
    rw [hgroups]
    dsimp only
    by_cases heq : o = op
    · subst heq
      exact hopen ho
    · unfold Unfinished
      rw [hframe heq]
      exact hledger.active o ((hother o heq).mp ho)

theorem start : Ledger (history ++ [.start next]) (next :: running) (next + 1) := by
  have hnone : opEvents next (groups history).current = [] := by
    by_contra hne
    exact hne ((hledger.current next hne).1 ▸ hledger.fresh next le_rfl)
  refine hledger.step rfl (Or.inr le_rfl) ?_ (by omega) (by omega) ?_ ?_ ?_
  · refine nodup_cons.mpr ⟨fun hmem => ?_, hledger.nodup⟩
    exact absurd (hledger.lt_next hmem) (lt_irrefl _)
  · intro o ho
    simp [ho]
  · intro _
    refine ⟨[], ?_⟩
    rw [opEvents_concat_of_eq _ rfl, hnone]
    rfl
  · intro hout
    exact absurd (mem_cons_self) hout

theorem write (hop : op ∈ running) (blockno : ℕ) (data : Memory) :
    Ledger (history ++ [.write op blockno data]) running next := by
  refine hledger.step rfl (Or.inl hop) hledger.nodup le_rfl (hledger.lt_next hop)
    (fun _ _ => Iff.rfl) ?_ (fun hout => absurd hop hout)
  intro _
  obtain ⟨us, hus⟩ := hledger.active op hop
  refine ⟨us ++ [(blockno, data)], ?_⟩
  rw [opEvents_concat_of_eq _ rfl, hus]
  simp

theorem finish (hop : op ∈ running) : Ledger (history ++ [.finish op]) (running.erase op) next := by
  refine hledger.step rfl (Or.inl hop) (hledger.nodup.erase op) le_rfl (hledger.lt_next hop)
    (fun o ho => mem_erase_of_ne ho) ?_ ?_
  · intro hmem
    exact absurd hmem hledger.nodup.not_mem_erase
  · intro _
    obtain ⟨us, hus⟩ := hledger.active op hop
    refine ⟨us, ?_⟩
    rw [opEvents_concat_of_eq _ rfl, hus]

end

theorem commit (hledger : Ledger history [] next) {n : ℕ} (hn : 0 < n) :
    Ledger (history ++ [.header n]) [] next := by
  have hgroups := groups_header_pos history hn
  have hframe : ∀ o, opEvents o (history ++ [.header n]) = opEvents o history := fun o =>
    opEvents_concat_of_ne _ (by simp [Event.op])
  refine ⟨nodup_nil, ?_, ?_, ?_, fun _ h => absurd h not_mem_nil⟩
  · intro o ho
    rw [hframe]
    exact hledger.fresh o ho
  · intro g hg o htouch
    rw [hgroups, mem_append, mem_singleton] at hg
    rw [hframe]
    rcases hg with hg | rfl
    · exact hledger.done g hg o htouch
    · obtain ⟨hsame, hcomplete⟩ := hledger.current o htouch
      exact ⟨hsame, hcomplete not_mem_nil⟩
  · intro o htouch
    rw [hgroups] at htouch
    exact absurd rfl htouch

theorem clear (hledger : Ledger history running next) :
    Ledger (history ++ [.header 0]) running next := by
  have hgroups := groups_header_zero history
  have hframe : ∀ o, opEvents o (history ++ [.header 0]) = opEvents o history := fun o =>
    opEvents_concat_of_ne _ (by simp [Event.op])
  refine ⟨hledger.nodup, ?_, ?_, ?_, ?_⟩
  · simpa only [hframe] using hledger.fresh
  · simpa only [hframe, hgroups] using hledger.done
  · simpa only [hframe, hgroups] using hledger.current
  · simpa only [hgroups] using hledger.active

theorem crash (hledger : Ledger history running next) : Ledger (history ++ [.crash]) [] next := by
  have hgroups := groups_crash history
  have hframe : ∀ o, opEvents o (history ++ [.crash]) = opEvents o history := fun o =>
    opEvents_concat_of_ne _ (by simp [Event.op])
  refine ⟨nodup_nil, ?_, ?_, ?_, fun _ h => absurd h not_mem_nil⟩
  · simpa only [hframe] using hledger.fresh
  · simpa only [hframe, hgroups] using hledger.done
  · intro o htouch
    rw [hgroups] at htouch
    exact absurd rfl htouch

end Ledger

variable (initial : ℕ → Memory) (history : List Event)

def committed : ℕ → Memory := RedoLog.replay (updates (groups history).done.flatten) initial

def view : ℕ → Memory := RedoLog.replay (updates (groups history).current) (committed initial history)

theorem committed_crash : committed initial (history ++ [.crash]) = committed initial history := by
  rw [committed, groups_crash, ← committed]

theorem committed_header_zero :
    committed initial (history ++ [.header 0]) = committed initial history := by
  rw [committed, groups_header_zero, ← committed]

theorem committed_header_pos {n : ℕ} (hn : 0 < n) :
    committed initial (history ++ [.header n]) = view initial history := by
  rw [committed, groups_header_pos history hn, flatten_append, updates_append,
    RedoLog.replay_append, view, committed]
  simp

theorem committed_op (he : e.op.isSome) :
    committed initial (history ++ [e]) = committed initial history := by
  rw [committed, groups_op history he, ← committed]

theorem view_of_current_eq_nil (hnil : (groups history).current = []) :
    view initial history = committed initial history := by
  rw [view, hnil]
  rfl

theorem view_write (op blockno : ℕ) (data : Memory) :
    view initial (history ++ [.write op blockno data]) =
      Function.update (view initial history) blockno data := by
  rw [view, committed_op initial history rfl, groups_op history rfl, updates_append]
  exact RedoLog.replay_concat _ _ _ _

theorem view_of_update_eq_none (he : e.op.isSome) (hnone : e.update = none) :
    view initial (history ++ [e]) = view initial history := by
  have hempty : updates [e] = [] := by simp [updates, hnone]
  rw [view, committed_op initial history he, groups_op history he, updates_append, hempty,
    append_nil, ← view]

end Xv6MallocLab.LogLayer
