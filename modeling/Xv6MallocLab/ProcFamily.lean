import Xv6MallocLab.Lifecycle
import Xv6MallocLab.ProcTable

/-!
# Parents and exit statuses

What the other processes see of a slot is its pid, its parent, its status and whether it
is unused, being created, active or a zombie.  Over these faces every process except
`init` has an active parent once `fork` has assigned it.
-/

namespace Xv6MallocLab.ProcTable

open Function Lifecycle Kernel

inductive Kind
  | unused | nascent | active | zombie
  deriving DecidableEq

def ProcState.kind : ProcState → Kind
  | .unused => .unused
  | .used => .nascent
  | .sleeping | .runnable | .running => .active
  | .zombie => .zombie

structure Face where
  kind : Kind
  pid : BitVec 32
  xstate : BitVec 32
  parent : Option Slot

def Proc.face (p : Proc) : Face :=
  { kind := p.state.kind, pid := p.pid, xstate := p.xstate, parent := p.parent }

@[simp] theorem Proc.face_kind (p : Proc) : p.face.kind = p.state.kind := rfl
@[simp] theorem Proc.face_pid (p : Proc) : p.face.pid = p.pid := rfl
@[simp] theorem Proc.face_xstate (p : Proc) : p.face.xstate = p.xstate := rfl
@[simp] theorem Proc.face_parent (p : Proc) : p.face.parent = p.parent := rfl

variable {p : ProcState} {s s' : Kernel} {aim : Kernel → BitVec 32 → Prop}

theorem kind_eq_unused_iff : p.kind = .unused ↔ p = .unused := by
  cases p <;> simp [ProcState.kind]

theorem kind_eq_zombie_iff : p.kind = .zombie ↔ p = .zombie := by
  cases p <;> simp [ProcState.kind]

def Face.free : Face := { kind := .unused, pid := 0, xstate := 0, parent := none }

theorem face_freeproc (p : Proc) : (freeproc p).face = Face.free := rfl

namespace Kernel

def face (s : Kernel) (c : Slot) : Face := (s.proc c).face

structure Alike (s s' : Kernel) : Prop where
  face : s'.face = s.face
  nextpid : s'.nextpid = s.nextpid
  position : s'.position = s.position
  forks : s'.forks = s.forks
  exits : s'.exits = s.exits
  deliveries : s'.deliveries = s.deliveries

theorem face_setProc (s : Kernel) (c : Slot) (p : Proc) :
    (s.setProc c p).face = update s.face c p.face := by
  funext j
  by_cases hj : j = c
  · subst hj
    simp [face, setProc]
  · simp [face, setProc, hj]

theorem alike_setProc (s : Kernel) (c : Slot) {p : Proc} (h : p.face = s.face c) :
    Alike s (s.setProc c p) where
  face := by rw [face_setProc, h, update_eq_self]
  nextpid := rfl
  position := rfl
  forks := rfl
  exits := rfl
  deliveries := rfl

theorem face_wakeup (s : Kernel) (i : Slot) (ch : Option Chan) : (s.wakeup i ch).face = s.face := by
  funext j
  simp only [face, wakeup]
  split_ifs with h
  · simp [Proc.face, h.2.1, ProcState.kind]
  · rfl

theorem alike_wakeup (s : Kernel) (i : Slot) (ch : Option Chan) : Alike s (s.wakeup i ch) where
  face := face_wakeup s i ch
  nextpid := rfl
  position := rfl
  forks := rfl
  exits := rfl
  deliveries := rfl

theorem alike_mark (s : Kernel) (c : Slot) : Alike s (s.mark c) := by
  refine alike_setProc s c ?_
  simp only [face, Proc.face]
  split_ifs with h
  · simp [h, ProcState.kind]
  · rfl

theorem alike_kill (s : Kernel) (pid : BitVec 32) : Alike s (s.kill pid).1 := by
  unfold kill
  cases s.target pid with
  | none => exact ⟨rfl, rfl, rfl, rfl, rfl, rfl⟩
  | some c => exact alike_mark s c

theorem face_forkAlloc_memory (s : Kernel) (i c : Slot) :
    (s.forkAlloc i c true).face =
      update s.face c { s.face c with kind := .nascent, pid := s.nextpid } := by
  funext j
  by_cases hj : j = c
  · subst hj
    simp [face, forkAlloc, allocproc, setPosition, Proc.face, ProcState.kind]
  · simp [face, forkAlloc, allocproc, setPosition, hj]

theorem face_forkAlloc_noMemory (s : Kernel) (i c : Slot) :
    (s.forkAlloc i c false).face = update s.face c Face.free := by
  funext j
  by_cases hj : j = c
  · subst hj
    simp [face, forkAlloc, setProc, face_freeproc]
  · simp [face, forkAlloc, allocproc, setProc, hj]

theorem face_forkParent (s : Kernel) (i np : Slot) (pid : BitVec 32) :
    (s.forkParent i np pid).face =
      update s.face np { s.face np with parent := some i } :=
  face_setProc s np _

theorem face_forkReady (s : Kernel) (i np : Slot) :
    (s.forkReady i np).face = update s.face np { s.face np with kind := .active } :=
  face_setProc s np _

theorem face_reap (s : Kernel) (i pp : Slot) : (s.reap i pp).face = update s.face pp Face.free :=
  face_setProc s pp _

def adopter (i : Slot) (q : Option Slot) : Option Slot := if q = some i then some initproc else q

theorem haveKids_iff (s : Kernel) (i : Slot) :
    s.haveKids i = true ↔ ∃ c, (s.proc c).parent = some i := by
  simp [haveKids, isChild]

theorem face_reparent (s : Kernel) (i c : Slot) :
    (s.reparent i).face c = { s.face c with parent := adopter i (s.face c).parent } := by
  unfold reparent
  split_ifs with h
  · rw [face_wakeup]
    unfold face adopt adopter isChild
    by_cases hc : (s.proc c).parent = some i <;> simp [hc, Proc.face]
  · have hno : (s.proc c).parent ≠ some i := fun hc => h ((haveKids_iff s i).mpr ⟨c, hc⟩)
    simp [face, Proc.face, adopter, hno]

theorem face_exit (s : Kernel) (i : Slot) (status : BitVec 32) (c : Slot) :
    (s.exit i status).face c =
      { kind := if c = i then .zombie else (s.face c).kind
        pid := (s.face c).pid
        xstate := if c = i then status else (s.face c).xstate
        parent := adopter i (s.face c).parent } := by
  have hface : ∀ j, ((s.reparent i).wakeup i (((s.reparent i).proc i).parent.map .proc)).face j =
      { s.face j with parent := adopter i (s.face j).parent } := by
    intro j
    rw [face_wakeup, face_reparent]
  have hc := hface c
  by_cases hci : c = i
  · subst hci
    simp only [exit, face, update_self, if_true]
    simp only [face, Proc.face, Face.mk.injEq] at hc
    simp [Proc.face, hc, ProcState.kind]
  · simp only [exit, face, update_of_ne hci, if_neg hci]
    exact hc

theorem exits_exit (s : Kernel) (i : Slot) (status : BitVec 32) :
    (s.exit i status).exits = s.exits ++ [((s.proc i).pid, status)] := by
  have hpid : ((s.reparent i).proc i).pid = (s.proc i).pid :=
    congrArg Face.pid (face_reparent s i i)
  have hexits : (s.reparent i).exits = s.exits := by
    unfold reparent
    split_ifs <;> rfl
  have hwake : (((s.reparent i).wakeup i (((s.reparent i).proc i).parent.map .proc)).proc i).pid =
      ((s.reparent i).proc i).pid := congrArg Face.pid (congrFun (face_wakeup _ _ _) i)
  simp only [exit, hwake, hpid]
  exact congrArg (· ++ _) hexits

theorem exit_rest (s : Kernel) (i : Slot) (status : BitVec 32) :
    (s.exit i status).nextpid = s.nextpid ∧ (s.exit i status).position = s.position ∧
      (s.exit i status).forks = s.forks ∧ (s.exit i status).deliveries = s.deliveries := by
  unfold exit reparent
  split_ifs <;> exact ⟨rfl, rfl, rfl, rfl⟩

end Kernel

/-- The sections that others see.  Every other step leaves the kernel alike. -/
inductive Change (s : Kernel) : Kernel → Prop
  | alike {s' : Kernel} (h : s.Alike s') : Change s s'
  | forkAlloc {i c : Slot} (memory : Bool) (hrun : (s.face i).kind = .active)
      (hpos : s.position i = .user) (hc : (s.face c).kind = .unused) :
      Change s (s.forkAlloc i c memory)
  | forkParent {i np : Slot} {pid : BitVec 32} (hrun : (s.face i).kind = .active)
      (hpos : s.position i = .forked np pid) : Change s (s.forkParent i np pid)
  | forkReady {i np : Slot} {pid : BitVec 32} (hpos : s.position i = .parented np pid) :
      Change s (s.forkReady i np)
  | exit {i : Slot} (status : BitVec 32) (hrun : (s.face i).kind = .active)
      (hpos : s.position i = .user) (hi : i ≠ initproc) : Change s (s.exit i status)
  | reap {i pp : Slot} (addr : BitVec 64) (hrun : (s.face i).kind = .active)
      (hpos : s.position i = .user ∨ s.position i = .waiting addr)
      (hparent : (s.face pp).parent = some i) (hpp : (s.face pp).kind = .zombie) :
      Change s (s.reap i pp)
  | scan {i : Slot} {s' : Kernel} (addr : BitVec 64) {q : Position}
      (hpos : s.position i = .user ∨ s.position i = .waiting addr)
      (hq : q = .user ∨ q = .waiting addr) (hrun : (s.face i).kind = .active)
      (h : (s.setPosition i q).Alike s') : Change s s'

theorem Kernel.zombieChild_some {i pp : Slot} (h : s.zombieChild i = some pp) :
    (s.proc pp).parent = some i ∧ (s.proc pp).state = .zombie := by
  simpa [zombieChild, isChild] using List.find?_some h

theorem Step.change (h : Step aim s s') : Change s s' := by
  have hactive : ∀ {i}, (s.proc i).state = .running → (s.face i).kind = .active := by
    intro i hi
    simp [face, hi, ProcState.kind]
  cases h with
  | forkAlloc memory hrun hpos hc =>
    exact .forkAlloc memory (hactive hrun) hpos (kind_eq_unused_iff.mpr hc)
  | forkParent hrun hpos => exact .forkParent (hactive hrun) hpos
  | forkReady hrun hpos => exact .forkReady hpos
  | exit status hrun hpos hi => exact .exit status (hactive hrun) hpos hi
  | @wait i addr copied hrun hpos =>
    unfold Kernel.wait
    cases hz : s.zombieChild i with
    | some pp =>
      obtain ⟨hparent, hzombie⟩ := zombieChild_some hz
      simp only
      split_ifs
      · exact .scan addr hpos (.inl rfl) (hactive hrun) ⟨rfl, rfl, rfl, rfl, rfl, rfl⟩
      · exact .reap addr (hactive hrun) hpos hparent (kind_eq_zombie_iff.mpr hzombie)
    | none =>
      simp only
      split_ifs
      · exact .scan addr hpos (.inl rfl) (hactive hrun) ⟨rfl, rfl, rfl, rfl, rfl, rfl⟩
      · refine .scan addr hpos (.inr rfl) (hactive hrun) ⟨?_, rfl, rfl, rfl, rfl, rfl⟩
        refine (alike_setProc s i ?_).face
        simp [face, Proc.face, hrun, ProcState.kind]
  | kill pid hrun hpos haim => exact .alike (alike_kill s pid)
  | setkilled hrun => exact .alike (alike_setProc s _ rfl)
  | schedule hrun =>
    exact .alike (alike_setProc s _ (by simp [face, Proc.face, hrun, ProcState.kind]))
  | yield hrun =>
    exact .alike (alike_setProc s _ (by simp [face, Proc.face, hrun, ProcState.kind]))
  | sleep k hrun hpos =>
    exact .alike (alike_setProc s _ (by simp [face, Proc.face, hrun, ProcState.kind]))
  | awake hrun => exact .alike (alike_setProc s _ rfl)
  | wakeup k hrun => exact .alike (alike_wakeup s _ _)

def Position.child : Position → Option Slot
  | .forked np _ | .parented np _ => some np
  | .user | .waiting _ => none

/-- Who is whose parent, and which half-made child a `fork` works on. -/
structure Family (face : Slot → Face) (position : Slot → Position) : Prop where
  clean : ∀ {c}, (face c).kind = .unused → (face c).pid = 0 ∧ (face c).parent = none
  initActive : (face initproc).kind = .active
  initParent : (face initproc).parent = none
  parentActive : ∀ {c q}, (face c).parent = some q → (face q).kind = .active
  orphan : ∀ {c}, (face c).kind ≠ .unused → c ≠ initproc → (face c).parent = none →
    ∃ i pid, position i = .forked c pid
  publisher : ∀ {i c}, (position i).child = some c →
    (face i).kind = .active ∧ (face c).kind = .nascent
  forked : ∀ {i c pid}, position i = .forked c pid → (face c).parent = none
  parented : ∀ {i c pid}, position i = .parented c pid → (face c).parent = some i
  single : ∀ {i j c}, (position i).child = some c → (position j).child = some c → i = j

namespace Family

variable {face : Slot → Face} {position : Slot → Position} {i c np pp : Slot} {pid : BitVec 32}

theorem boot : Family boot.face boot.position where
  clean := by
    intro c hc
    by_cases h : c = initproc
    · simp [face, ProcTable.boot, h, ProcState.kind] at hc
    · simp [face, ProcTable.boot, h]
  initActive := rfl
  initParent := rfl
  parentActive := nofun
  orphan := by
    intro c hc h
    simp [face, ProcTable.boot, h, ProcState.kind] at hc
  publisher := nofun
  forked := nofun
  parented := nofun
  single := nofun

section

variable (h : Family face position)

include h

theorem parent_ne (hc : (face c).kind ≠ .active) (d : Slot) : (face d).parent ≠ some c :=
  fun hd => hc (h.parentActive hd)

theorem child_ne (hc : (face c).kind ≠ .nascent) (j : Slot) : (position j).child ≠ some c :=
  fun hj => hc (h.publisher hj).2

theorem move {q : Position} (hold : (position i).child = none) (hnew : q.child = none) :
    Family face (update position i q) := by
  have hchild : ∀ j, (update position i q j).child = (position j).child := by
    intro j
    by_cases hj : j = i
    · rw [hj, update_self, hnew, hold]
    · rw [update_of_ne hj]
  have hsame : ∀ {j}, (update position i q j).child ≠ none →
      update position i q j = position j := by
    intro j hj
    refine update_of_ne (fun hji => hj ?_) _ _
    rw [hchild, hji, hold]
  refine { h with orphan := ?_, publisher := ?_, forked := ?_, parented := ?_, single := ?_ }
  · intro c hc hinit hnone
    obtain ⟨j, pid, hj⟩ := h.orphan hc hinit hnone
    refine ⟨j, pid, (hsame ?_).trans hj⟩
    rw [hchild, hj]
    exact Option.some_ne_none c
  · exact fun hj => h.publisher ((hchild _).symm.trans hj)
  · exact fun hj => h.forked ((hsame (by simp [hj, Position.child])).symm.trans hj)
  · exact fun hj => h.parented ((hsame (by simp [hj, Position.child])).symm.trans hj)
  · exact fun hi hj => h.single ((hchild _).symm.trans hi) ((hchild _).symm.trans hj)

theorem free (hpp : (face pp).kind = .unused ∨ (face pp).kind = .zombie) :
    Family (update face pp Face.free) position := by
  have hactive : (face pp).kind ≠ .active := by rintro ha; simp [ha] at hpp
  have hnascent : (face pp).kind ≠ .nascent := by rintro ha; simp [ha] at hpp
  have hinit : initproc ≠ pp := fun e => hactive (e ▸ h.initActive)
  have hother : ∀ {d}, d ≠ pp → update face pp Face.free d = face d :=
    fun hd => update_of_ne hd _ _
  have hchild : ∀ {j d}, (position j).child = some d → d ≠ pp :=
    fun hj e => h.child_ne hnascent _ (e ▸ hj)
  have hself : ∀ {d}, d = pp → update face pp Face.free d = Face.free := by
    rintro d rfl
    exact update_self ..
  refine ⟨?_, ?_, ?_, ?_, ?_, ?_, ?_, ?_, h.single⟩
  · intro d hd
    by_cases hdp : d = pp
    · rw [hself hdp]
      exact ⟨rfl, rfl⟩
    · rw [hother hdp] at hd ⊢
      exact h.clean hd
  · rw [hother hinit]
    exact h.initActive
  · rw [hother hinit]
    exact h.initParent
  · intro d q hd
    by_cases hdp : d = pp
    · rw [hself hdp] at hd
      cases hd
    · rw [hother hdp] at hd
      rw [hother fun e => hactive (e ▸ h.parentActive hd)]
      exact h.parentActive hd
  · intro d hd hdinit hnone
    by_cases hdp : d = pp
    · rw [hself hdp] at hd
      exact absurd rfl hd
    · rw [hother hdp] at hd hnone
      exact h.orphan hd hdinit hnone
  · intro j d hj
    obtain ⟨hja, hd⟩ := h.publisher hj
    rw [hother (hchild hj), hother fun e => hactive (e ▸ hja)]
    exact ⟨hja, hd⟩
  · intro j d k hj
    rw [hother (hchild (by rw [hj]; rfl))]
    exact h.forked hj
  · intro j d k hj
    rw [hother (hchild (by rw [hj]; rfl))]
    exact h.parented hj

theorem forkAlloc (hrun : (face i).kind = .active) (hpos : position i = .user)
    (hc : (face c).kind = .unused) :
    Family (update face c { face c with kind := .nascent, pid := pid })
      (update position i (.forked c pid)) := by
  have hclean := h.clean hc
  have hinit : initproc ≠ c := by
    rintro rfl
    simp [h.initActive] at hc
  have hic : i ≠ c := by
    rintro rfl
    simp [hrun] at hc
  have hparent := h.parent_ne (c := c) (by simp [hc])
  have hchild := h.child_ne (c := c) (by simp [hc])
  constructor
  case orphan =>
    intro d hd hdinit hnone
    by_cases hdc : d = c
    · exact ⟨i, pid, by rw [hdc, update_self]⟩
    · rw [update_of_ne hdc] at hd hnone
      obtain ⟨j, k, hj⟩ := h.orphan hd hdinit hnone
      exact ⟨j, k, by grind⟩
  case clean | initActive | initParent | parentActive =>
    grind [h.clean, h.initActive, h.initParent, h.parentActive]
  case publisher | forked | parented | single =>
    grind [h.publisher, h.forked, h.parented, h.single, Position.child]

/-- The two last stores of `fork`: its child has a parent, and stays as it is or starts to run. -/
theorem publish (pid : BitVec 32) {f : Face} {q : Position} (hnp : (position i).child = some np)
    (hparent : f.parent = some i)
    (hq : f.kind = (face np).kind ∧ q = .parented np pid ∨ f.kind = .active ∧ q = .user) :
    Family (update face np f) (update position i q) := by
  obtain ⟨hrun, hkind⟩ := h.publisher hnp
  have hinit : initproc ≠ np := by
    rintro rfl
    simp [h.initActive] at hkind
  have hsingle : ∀ {j}, (position j).child = some np → j = i := fun hj => h.single hj hnp
  constructor
  case orphan =>
    intro d hd hdinit hnone
    have hdnp : d ≠ np := by
      rintro rfl
      simp [hparent] at hnone
    rw [update_of_ne hdnp] at hd hnone
    obtain ⟨j, k, hj⟩ := h.orphan hd hdinit hnone
    exact ⟨j, k, by grind [Position.child]⟩
  case clean | initActive | initParent | parentActive =>
    grind [h.clean, h.initActive, h.initParent, h.parentActive]
  case publisher | forked | parented | single =>
    grind [h.publisher, h.forked, h.parented, h.single, Position.child]

theorem forkParent (hpos : position i = .forked np pid) :
    Family (update face np { face np with parent := some i })
      (update position i (.parented np pid)) :=
  h.publish pid (by rw [hpos]; rfl) rfl (.inl ⟨rfl, rfl⟩)

theorem forkReady (hpos : position i = .parented np pid) :
    Family (update face np { face np with kind := .active }) (update position i .user) :=
  h.publish pid (by rw [hpos]; rfl) (h.parented hpos) (.inr ⟨rfl, rfl⟩)

theorem exit (hrun : (face i).kind = .active) (hpos : position i = .user) (hi : i ≠ initproc)
    {face' : Slot → Face} (hkind : ∀ c, (face' c).kind = if c = i then .zombie else (face c).kind)
    (hpid : ∀ c, (face' c).pid = (face c).pid)
    (hparent : ∀ c, (face' c).parent = adopter i (face c).parent) :
    Family face' position := by
  constructor
  case orphan =>
    intro d hd hdinit hnone
    have hold : (face d).parent = none := by grind [adopter]
    exact h.orphan (by grind) hdinit hold
  case clean => grind [h.clean, adopter]
  case initActive => grind [h.initActive]
  case initParent => grind [h.initParent, adopter]
  case parentActive => grind [h.parentActive, h.initActive, adopter]
  case publisher => grind [h.publisher, Position.child]
  case forked => grind [h.forked, adopter]
  case parented => grind [h.parented, adopter]
  case single => exact h.single

end

end Family

theorem Change.family (h : Change s s') (hs : Family s.face s.position) :
    Family s'.face s'.position := by
  cases h with
  | alike h =>
    rw [h.face, h.position]
    exact hs
  | forkAlloc memory hrun hpos hc =>
    cases memory with
    | true =>
      rw [face_forkAlloc_memory]
      exact hs.forkAlloc hrun hpos hc
    | false =>
      rw [face_forkAlloc_noMemory]
      exact hs.free (.inl hc)
  | forkParent hrun hpos =>
    rw [face_forkParent]
    exact hs.forkParent hpos
  | forkReady hpos =>
    rw [face_forkReady]
    exact hs.forkReady hpos
  | exit status hrun hpos hi =>
    rw [(exit_rest _ _ _).2.1]
    refine hs.exit hrun hpos hi (fun c => ?_) (fun c => ?_) fun c => ?_ <;>
      rw [face_exit]
  | reap addr hrun hpos hparent hpp =>
    rw [face_reap]
    refine (hs.free (.inr hpp)).move ?_ rfl
    rcases hpos with h | h <;> rw [h] <;> rfl
  | scan addr hpos hq hrun h =>
    rw [h.face, h.position]
    refine hs.move ?_ ?_
    · rcases hpos with h | h <;> rw [h] <;> rfl
    · rcases hq with rfl | rfl <;> rfl

theorem Reached.family (h : Reached aim s) : Family s.face s.position := by
  induction h with
  | boot => exact Family.boot
  | step _ hs ih => exact hs.change.family ih

end Xv6MallocLab.ProcTable
