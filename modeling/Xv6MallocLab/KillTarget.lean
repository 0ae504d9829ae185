import Xv6MallocLab.ProcFamily

/-!
# The target of kill

`kill` takes the first slot whose `pid` field matches and does not look at its state.
`freeproc` leaves `pid` at `0`, so `kill(0)` strikes an unused slot when one stands first.
-/

namespace Xv6MallocLab.ProcTable

open Kernel

variable {s s' : Kernel} {i c : Slot} {pid : BitVec 32}

/-- The first slot with this `pid`, if there is one, is in use. -/
def Kernel.Aimed (s : Kernel) (pid : BitVec 32) : Prop :=
  ∀ c, (s.proc c).pid = pid → (∀ d < c, (s.proc d).pid ≠ pid) → (s.proc c).state ≠ .unused

structure Kernel.Hits (s : Kernel) (pid : BitVec 32) : Prop where
  zero_iff : (s.kill pid).2 = 0 ↔ ∃ c, (s.proc c).state ≠ .unused ∧ (s.proc c).pid = pid
  struck : (s.kill pid).2 = 0 → ∃ c, (s.proc c).state ≠ .unused ∧ (s.proc c).pid = pid ∧
    (s.kill pid).1 = s.setProc c
      { s.proc c with
        killed := true
        state := if (s.proc c).state = .sleeping then .runnable else (s.proc c).state }
  missed : (s.kill pid).2 ≠ 0 → (s.kill pid).2 = -1 ∧ (s.kill pid).1 = s

theorem Kernel.target_eq_some_iff :
    s.target pid = some c ↔ (s.proc c).pid = pid ∧ ∀ d < c, (s.proc d).pid ≠ pid := by
  rw [target, List.find?_eq_some_iff_getElem]
  simp only [beq_iff_eq, List.length_finRange, List.getElem_finRange]
  refine and_congr_right fun _ => ⟨?_, fun h => ?_⟩
  · rintro ⟨k, hk, rfl, hbefore⟩ d hd
    simpa using hbefore d.val hd
  · refine ⟨c.val, c.isLt, rfl, fun j hj => ?_⟩
    simpa using h ⟨j, hj.trans c.isLt⟩ hj

theorem Kernel.target_eq_none_iff : s.target pid = none ↔ ∀ c, (s.proc c).pid ≠ pid := by
  simp [target]

theorem Kernel.aimed_iff :
    s.Aimed pid ↔ ∀ c, s.target pid = some c → (s.proc c).state ≠ .unused := by
  simp only [Kernel.Aimed, target_eq_some_iff, and_imp]

def Kernel.Spared (s : Kernel) : Prop := ∀ c, (s.proc c).state = .unused → (s.proc c).killed = false

theorem Kernel.Spared.setProc (hs : s.Spared) {p : Proc}
    (hp : p.state = .unused → p.killed = false) : (s.setProc c p).Spared := by
  intro d hd
  by_cases hdc : d = c
  · subst hdc
    simp only [setProc, Function.update_self] at hd ⊢
    exact hp hd
  · simp only [Kernel.setProc, Function.update_of_ne hdc] at hd ⊢
    exact hs d hd

theorem killed_wakeup (s : Kernel) (i : Slot) (ch : Option Chan) (c : Slot) :
    ((s.wakeup i ch).proc c).killed = (s.proc c).killed := by
  simp only [wakeup]
  split_ifs <;> rfl

theorem killed_reparent (s : Kernel) (i c : Slot) :
    ((s.reparent i).proc c).killed = (s.proc c).killed := by
  unfold reparent
  split_ifs
  · rw [killed_wakeup]
    simp only [adopt]
    split_ifs <;> rfl
  · rfl

theorem killed_exit (s : Kernel) (i : Slot) (status : BitVec 32) (c : Slot) :
    ((s.exit i status).proc c).killed = (s.proc c).killed := by
  by_cases hc : c = i
  · subst hc
    simp [exit, killed_wakeup, killed_reparent]
  · simp [exit, hc, killed_wakeup, killed_reparent]

theorem Kernel.Spared.of_face (hs : s.Spared)
    (hkind : ∀ c, (s'.face c).kind = .unused → (s.face c).kind = .unused)
    (hkilled : ∀ c, (s'.proc c).killed = (s.proc c).killed) : s'.Spared := by
  intro c hc
  rw [hkilled c]
  exact hs c (kind_eq_unused_iff.mp (hkind c (kind_eq_unused_iff.mpr hc)))

theorem Step.spared (h : Step Kernel.Aimed s s') (hs : s.Spared) : s'.Spared := by
  have hrunning : ∀ {i : Slot} {p : Proc}, (s.proc i).state = .running →
      p.state = (s.proc i).state → p.state = .unused → p.killed = false := by
    intro i p hi hp hu
    rw [hp, hi] at hu
    cases hu
  cases h with
  | @forkAlloc i c memory hrun hpos hc =>
    cases memory with
    | true => exact hs.setProc (s := s) (c := c) nofun
    | false =>
      have halloc : (s.allocproc c).Spared := hs.setProc (s := s) (c := c) nofun
      exact halloc.setProc fun _ => rfl
  | @forkParent i np pid hrun hpos => exact hs.setProc (s := s) (c := np) (hs np)
  | @forkReady i np pid hrun hpos => exact hs.setProc (s := s) (c := np) nofun
  | exit status hrun hpos hi =>
    refine hs.of_face (fun c hc => ?_) (killed_exit s _ status)
    rw [face_exit] at hc
    simp only at hc
    split_ifs at hc
    exact hc
  | @wait i addr copied hrun hpos =>
    unfold Kernel.wait
    cases s.zombieChild i with
    | some pp =>
      simp only
      split_ifs
      · exact hs
      · exact hs.setProc (s := s) (c := pp) fun _ => rfl
    | none =>
      simp only
      split_ifs
      · exact hs
      · exact hs.setProc (s := s) (c := i) nofun
  | kill pid hrun hpos haim =>
    unfold Kernel.kill
    cases htarget : s.target pid with
    | none => exact hs
    | some c =>
      have hused := aimed_iff.mp haim c htarget
      refine hs.setProc fun hu => absurd ?_ hused
      simp only at hu
      split_ifs at hu
      exact hu
  | setkilled hrun => exact hs.setProc (hrunning hrun rfl)
  | schedule hrun => exact hs.setProc nofun
  | yield hrun => exact hs.setProc nofun
  | sleep k hrun hpos => exact hs.setProc nofun
  | awake hrun => exact hs.setProc (hrunning hrun rfl)
  | wakeup k hrun =>
    refine hs.of_face (fun c hc => ?_) (killed_wakeup s _ _)
    rwa [face_wakeup] at hc

theorem Reached.spared (h : Reached Kernel.Aimed s) : s.Spared := by
  induction h with
  | boot => exact fun _ _ => rfl
  | step _ hs ih => exact hs.spared ih

theorem Kernel.Aimed.hits (h : s.Aimed pid) : s.Hits pid := by
  cases htarget : s.target pid with
  | none =>
    have hkill : s.kill pid = (s, -1) := by rw [kill, htarget]
    have hminus : (-1 : BitVec 32) ≠ 0 := by decide
    have hnone := target_eq_none_iff.mp htarget
    rw [aimed_iff] at h
    refine ⟨?_, fun h0 => ?_, fun _ => ⟨by rw [hkill], by rw [hkill]⟩⟩
    · rw [hkill]
      exact ⟨fun h0 => absurd h0 hminus, fun ⟨c, _, hc⟩ => absurd hc (hnone c)⟩
    · rw [hkill] at h0
      exact absurd h0 hminus
  | some c =>
    have hkill : s.kill pid = (s.mark c, 0) := by rw [kill, htarget]
    have hused := aimed_iff.mp h c htarget
    have hpid := (target_eq_some_iff.mp htarget).1
    refine ⟨?_, fun _ => ⟨c, hused, hpid, by rw [hkill, mark]⟩, fun h0 => ?_⟩
    · rw [hkill]
      exact ⟨fun _ => ⟨c, hused, hpid⟩, fun _ => rfl⟩
    · rw [hkill] at h0
      exact absurd rfl h0

theorem Kernel.Hits.aimed (h : s.Hits pid) (hs : s.Spared) : s.Aimed pid := by
  rw [aimed_iff]
  intro c htarget hunused
  have hkill : s.kill pid = (s.mark c, 0) := by rw [kill, htarget]
  obtain ⟨d, hd, -, hstruck⟩ := h.struck (by rw [hkill])
  have hcd : c ≠ d := by
    rintro rfl
    exact hd hunused
  have hmarked : ((s.kill pid).1.proc c).killed = true := by
    rw [hkill]
    simp [mark, setProc]
  rw [hstruck] at hmarked
  simp [setProc, hcd, hs c hunused] at hmarked

/-- In a run whose calls of `kill` are all aimed at slots in use, a further call
hits its target exactly when it is aimed too, and a successful `fork` makes an
unkilled process. -/
theorem kill_hits_iff_aimed (h : Reached Kernel.Aimed s) :
    (∀ pid, s.Hits pid ↔ s.Aimed pid) ∧
      ∀ i c, (s.proc c).state = .unused → ((s.forkAlloc i c true).proc c).killed = false := by
  refine ⟨fun pid => ⟨fun hhits => hhits.aimed h.spared, Kernel.Aimed.hits⟩, fun i c hc => ?_⟩
  have hkilled : ((s.forkAlloc i c true).proc c).killed = (s.proc c).killed := by
    simp [forkAlloc, allocproc, setPosition]
  rw [hkilled]
  exact h.spared c hc

theorem kill_hits_iff_aimed_init :
    ∃ s : Kernel, Reached Kernel.Aimed s ∧ (s.proc initproc).state = .running ∧ s.Hits 1 := by
  have h : Reached Kernel.Aimed _ := Reached.boot.step (.schedule (i := initproc) rfl)
  refine ⟨_, h, rfl, ((kill_hits_iff_aimed h).1 1).mpr ?_⟩
  intro c hc _ hunused
  by_cases hci : c = initproc
  · subst hci
    cases hunused
  · simp [setProc, boot, hci] at hc

/-- `init` calls `kill(0)`: it returns `0` although no process has pid `0`, and
the next child of `fork` is born killed. -/
theorem kill_zero_strikes_unused :
    ∃ (s : Kernel) (c : Slot), Reached (fun _ _ => True) s ∧
      (s.proc initproc).state = .running ∧ s.position initproc = .user ∧
      (∀ d, (s.proc d).state ≠ .unused → (s.proc d).pid ≠ 0) ∧ (s.kill 0).2 = 0 ∧
      ((s.kill 0).1.proc c).state = .unused ∧
      (((s.kill 0).1.forkAlloc initproc c true).proc c).killed = true := by
  have h : Reached (fun _ _ => True) _ := Reached.boot.step (.schedule (i := initproc) rfl)
  refine ⟨_, ⟨1, by decide⟩, h, rfl, rfl, ?_, rfl, rfl, rfl⟩
  intro d hd
  by_cases hdi : d = initproc
  · subst hdi
    decide
  · simp [setProc, boot, hdi] at hd

end Xv6MallocLab.ProcTable
