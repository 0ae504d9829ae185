import Xv6MallocLab.ProcFamily

/-!
# Pids and exit statuses

The process table keeps the book of `Lifecycle`: a successful first section of `fork` is
a birth, `exit` a death, and a `wait` that reaps collects.  With fewer than `2 ^ 31`
forks the counter `nextpid` does not come round.
-/

namespace Xv6MallocLab.ProcTable

open Function Lifecycle List Kernel

def Face.life (f : Face) : Life (BitVec 32) (BitVec 32) :=
  match f.kind with
  | .unused => none
  | .nascent | .active => some (f.pid, none)
  | .zombie => some (f.pid, some f.xstate)

variable {f : Face} {c : Slot}

theorem Face.life_of_unused (h : f.kind = .unused) : f.life = none := by
  simp [life, h]

theorem Face.life_of_zombie (h : f.kind = .zombie) : f.life = some (f.pid, some f.xstate) := by
  simp [life, h]

theorem Face.life_of_active (h : f.kind = .active) : f.life = some (f.pid, none) := by
  simp [life, h]

def Kernel.book (s : Kernel) : Book Slot (BitVec 32) (BitVec 32) where
  life := fun c => (s.face c).life
  used := {k | k.toNat < s.nextpid.toNat}
  deaths := s.exits
  collected := s.deliveries.map fun d => (d.pid, d.status)

theorem used_succ {n : BitVec 32} (h : n.toNat + 1 < 2 ^ 32) :
    {k : BitVec 32 | k.toNat < (n + 1).toNat} = insert n {k : BitVec 32 | k.toNat < n.toNat} := by
  have hn : (n + 1).toNat = n.toNat + 1 := by
    rw [BitVec.toNat_add]
    exact Nat.mod_eq_of_lt h
  ext k
  simp only [Set.mem_ofPred_eq, Set.mem_insert_iff, hn, ← BitVec.toNat_inj]
  omega

theorem life_update {s s' : Kernel} (h : s'.face = update s.face c f) :
    (fun d => (s'.face d).life) = update (fun d => (s.face d).life) c f.life := by
  funext d
  rw [h]
  by_cases hd : d = c
  · subst hd
    simp
  · simp [hd]

variable {aim : Kernel → BitVec 32 → Prop} {s s' : Kernel}

theorem Change.forks (h : Change s s') :
    (s'.forks = s.forks ∧ s'.nextpid = s.nextpid) ∨
      (s'.forks = s.forks + 1 ∧ s'.nextpid = s.nextpid + 1) := by
  cases h with
  | alike h => exact .inl ⟨h.forks, h.nextpid⟩
  | forkAlloc memory hrun hpos hc =>
    refine .inr ?_
    cases memory <;> exact ⟨rfl, rfl⟩
  | forkParent hrun hpos => exact .inl ⟨rfl, rfl⟩
  | forkReady hpos => exact .inl ⟨rfl, rfl⟩
  | exit status hrun hpos hi => exact .inl ⟨(s.exit_rest _ _).2.2.1, (s.exit_rest _ _).1⟩
  | reap addr hrun hpos hparent hpp => exact .inl ⟨rfl, rfl⟩
  | scan addr hpos hq hrun h => exact .inl ⟨h.forks, h.nextpid⟩

theorem Kernel.Alike.book (h : s.Alike s') : s'.book = s.book := by
  simp [Kernel.book, h.face, h.nextpid, h.exits, h.deliveries]

theorem Change.book (h : Change s s') (hs : Family s.face s.position)
    (hnext : s.nextpid.toNat + 1 < 2 ^ 32) : Book.Step s.book s'.book := by
  cases h with
  | alike h =>
    rw [h.book]
    exact .skip _
  | @forkAlloc i c memory hrun hpos hc =>
    cases memory with
    | true =>
      have hbook : (s.forkAlloc i c true).book =
          { s.book with
            life := update s.book.life c (some (s.nextpid, none))
            used := insert s.nextpid s.book.used } := by
        simp only [Kernel.book, life_update (Kernel.face_forkAlloc_memory s i c)]
        congr 1
        exact used_succ hnext
      rw [hbook]
      exact .birth _ c _ (Face.life_of_unused hc) (by simp [Kernel.book])
    | false =>
      have hbook : (s.forkAlloc i c false).book =
          { s.book with used := insert s.nextpid s.book.used } := by
        have hlife : (fun d => ((s.forkAlloc i c false).face d).life) = s.book.life := by
          rw [life_update (Kernel.face_forkAlloc_noMemory s i c)]
          exact update_eq_self_iff.mpr (Face.life_of_unused hc).symm
        unfold Kernel.book at hlife ⊢
        rw [hlife]
        congr 1
        exact used_succ hnext
      rw [hbook]
      exact .waste _ _
  | @forkParent i np pid hrun hpos =>
    have hbook : (s.forkParent i np pid).book = s.book := by
      have hlife : (fun d => ((s.forkParent i np pid).face d).life) = s.book.life := by
        rw [life_update (Kernel.face_forkParent s i np pid)]
        exact update_eq_self_iff.mpr rfl
      unfold Kernel.book at hlife ⊢
      rw [hlife]
      rfl
    rw [hbook]
    exact .skip _
  | @forkReady i np pid hpos =>
    have hbook : (s.forkReady i np).book = s.book := by
      have hnascent := (hs.publisher (c := np) (by rw [hpos]; rfl)).2
      have hlife : (fun d => ((s.forkReady i np).face d).life) = s.book.life := by
        rw [life_update (Kernel.face_forkReady s i np)]
        refine update_eq_self_iff.mpr ?_
        simp [Face.life, hnascent]
      unfold Kernel.book at hlife ⊢
      rw [hlife]
      rfl
    rw [hbook]
    exact .skip _
  | @exit i status hrun hpos hi =>
    have hbook : (s.exit i status).book =
        { s.book with
          life := update s.book.life i (some ((s.face i).pid, some status))
          deaths := s.book.deaths ++ [((s.face i).pid, status)] } := by
      obtain ⟨hnextpid, -, -, hdeliveries⟩ := s.exit_rest i status
      have hlife : (fun d => ((s.exit i status).face d).life) =
          update s.book.life i (some ((s.face i).pid, some status)) := by
        funext d
        rw [Kernel.face_exit]
        by_cases hd : d = i
        · subst hd
          simp [Face.life]
        · simp [Face.life, Kernel.book, hd]
      simp only [Kernel.book, hnextpid, hdeliveries, Kernel.exits_exit]
      exact congrArg (fun l => Book.mk l _ _ _) hlife
    rw [hbook]
    exact .death _ i _ _ (Face.life_of_active hrun)
  | @reap i pp addr hrun hpos hparent hpp =>
    have hbook : (s.reap i pp).book =
        { s.book with
          life := update s.book.life pp none
          collected := s.book.collected ++ [((s.face pp).pid, (s.face pp).xstate)] } := by
      simp only [Kernel.book, life_update (Kernel.face_reap s i pp)]
      simp [Kernel.reap, Kernel.face, Face.life, Face.free]
    rw [hbook]
    exact .collect _ pp _ _ (Face.life_of_zombie hpp)
  | scan addr hpos hq hrun h =>
    rw [h.book]
    exact .skip _

theorem sound_boot : Book.Sound boot.book := by
  have hlife : ∀ {c k x}, boot.book.life c = some (k, x) → c = initproc ∧ k = 1 ∧ x = none := by
    intro c k x hc
    by_cases hci : c = initproc
    · subst hci
      have : some ((1 : BitVec 32), (none : Option (BitVec 32))) = some (k, x) := hc
      simp only [Option.some.injEq, Prod.mk.injEq] at this
      exact ⟨rfl, this.1.symm, this.2.symm⟩
    · have : boot.book.life c = none :=
        Face.life_of_unused (by simp [face, boot, hci, ProcState.kind])
      simp [this] at hc
  refine ⟨?_, ?_, fun h => absurd h not_mem_nil, fun _ _ => not_mem_nil, ?_,
    nodup_nil, nodup_nil, fun h => absurd h not_mem_nil⟩
  · exact fun hc hd => (hlife hc).1.trans (hlife hd).1.symm
  · intro c k x hc
    rw [(hlife hc).2.1]
    change (1 : BitVec 32).toNat < (2 : BitVec 32).toNat
    decide
  · intro c k v hc
    cases (hlife hc).2.2

theorem Reached.sound (h : Reached aim s) (hf : s.forks < 2 ^ 31) :
    s.nextpid.toNat = s.forks + 2 ∧ Book.Sound s.book := by
  induction h with
  | boot => exact ⟨rfl, sound_boot⟩
  | @step s s' h hs ih =>
    have hforks := hs.change.forks
    obtain ⟨hnext, hsound⟩ := ih (by omega)
    refine ⟨?_, hsound.step (hs.change.book h.family (by omega))⟩
    rcases hforks with ⟨hf', hn⟩ | ⟨hf', hn⟩
    · rw [hn, hf', hnext]
    · rw [hn, hf', BitVec.toNat_add, hnext]
      exact Nat.mod_eq_of_lt (by change _ + 1 < 2 ^ 32; omega)

theorem Change.deliveries (h : Change s s') :
    s'.deliveries = s.deliveries ∨
      ∃ c i, (s.proc c).state = .zombie ∧ (s.proc c).parent = some i ∧
        (s'.proc c).state = .unused ∧
        s'.deliveries = s.deliveries ++ [⟨i, (s.proc c).pid, (s.proc c).xstate⟩] := by
  cases h with
  | alike h => exact .inl h.deliveries
  | forkAlloc memory hrun hpos hc => exact .inl (by cases memory <;> rfl)
  | forkParent hrun hpos => exact .inl rfl
  | forkReady hpos => exact .inl rfl
  | exit status hrun hpos hi => exact .inl (s.exit_rest _ _).2.2.2
  | @reap i pp addr hrun hpos hparent hpp =>
    refine .inr ⟨pp, i, kind_eq_zombie_iff.mp hpp, hparent, ?_, rfl⟩
    simp [Kernel.reap, freeproc]
  | scan addr hpos hq hrun h => exact .inl h.deliveries

theorem Change.kept (h : Change s s') (hc : (s.face c).kind ≠ .unused) :
    ((s'.face c).kind ≠ .unused ∧ (s'.face c).pid = (s.face c).pid) ∨
      ∃ i, (s.face c).kind = .zombie ∧ (s.face c).parent = some i ∧
        s'.deliveries = s.deliveries ++ [⟨i, (s.face c).pid, (s.face c).xstate⟩] := by
  -- a section that writes to another slot, or changes only the kind and the parent of this one
  have hupdate : ∀ {d : Slot} {f : Face}, s'.face = update s.face d f →
      (d = c → f.kind ≠ .unused ∧ f.pid = (s.face c).pid) →
      (s'.face c).kind ≠ .unused ∧ (s'.face c).pid = (s.face c).pid := by
    intro d f hface hd
    rw [hface]
    by_cases hdc : c = d
    · subst hdc
      rw [update_self]
      exact hd rfl
    · rw [update_of_ne hdc]
      exact ⟨hc, rfl⟩
  cases h with
  | alike h =>
    rw [h.face]
    exact .inl ⟨hc, rfl⟩
  | @forkAlloc i d memory hrun hpos hd =>
    have hne : d ≠ c := by
      rintro rfl
      exact hc hd
    cases memory with
    | true => exact .inl (hupdate (face_forkAlloc_memory s i d) fun e => absurd e hne)
    | false => exact .inl (hupdate (face_forkAlloc_noMemory s i d) fun e => absurd e hne)
  | @forkParent i np pid hrun hpos =>
    refine .inl (hupdate (face_forkParent s i np pid) ?_)
    rintro rfl
    exact ⟨hc, rfl⟩
  | @forkReady i np pid hpos =>
    refine .inl (hupdate (face_forkReady s i np) ?_)
    rintro rfl
    exact ⟨by simp, rfl⟩
  | exit status hrun hpos hi =>
    rw [face_exit]
    refine .inl ⟨?_, rfl⟩
    simp only
    split_ifs
    · simp
    · exact hc
  | @reap i pp addr hrun hpos hparent hpp =>
    by_cases hcp : pp = c
    · subst hcp
      exact .inr ⟨i, hpp, hparent, rfl⟩
    · exact .inl (hupdate (face_reap s i pp) fun e => absurd e hcp)
  | scan addr hpos hq hrun h =>
    rw [h.face]
    exact .inl ⟨hc, rfl⟩

end Xv6MallocLab.ProcTable
