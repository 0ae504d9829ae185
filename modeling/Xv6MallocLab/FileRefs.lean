import Xv6MallocLab.Tally
import Xv6MallocLab.FileTable

/-!
# References to open files

An entry's `ref` is the number of descriptors that point to it plus the references a
call in progress holds.  Each end of a pipe belongs to one entry, and its flag says
whether that entry is still in use.
-/

namespace Xv6MallocLab.FileTable

open Function List

open ProcTable (Slot nproc)

def Pipe.isOpen (q : Pipe) (writable : Bool) : Bool := if writable then q.writeopen else q.readopen

def File.role (x : File) : Option (ℕ × Bool) :=
  if x.type = .pipe then some (x.pipe, x.writable) else none

structure Ends (role : FileIx → Option (ℕ × Bool)) (pipe : ℕ → Pipe) (npipes : ℕ) : Prop where
  bound : ∀ {f q w}, role f = some (q, w) → q < npipes
  single : ∀ {f g e}, role f = some e → role g = some e → f = g
  ends : ∀ {q}, q < npipes → ∀ w, (pipe q).isOpen w = true ↔ ∃ f, role f = some (q, w)
  frees : ∀ {q}, q < npipes → (pipe q).frees = if (pipe q).readopen || (pipe q).writeopen then 0 else 1

namespace Ends

variable {role : FileIx → Option (ℕ × Bool)} {pipe : ℕ → Pipe} {npipes q : ℕ} {f rf wf : FileIx}
  {w : Bool}

theorem isOpen_close (x : Pipe) (w v : Bool) :
    (State.Pipe.close x w).isOpen v = (x.isOpen v && v != w) := by
  cases w <;> cases v <;> cases hr : x.readopen <;> cases hw : x.writeopen <;>
    simp [State.Pipe.close, Pipe.isOpen, hr, hw]

theorem frees_close (x : Pipe) (w : Bool) (hopen : x.isOpen w = true) (hfrees : x.frees = 0) :
    (State.Pipe.close x w).frees =
      if (State.Pipe.close x w).readopen || (State.Pipe.close x w).writeopen then 0 else 1 := by
  cases w <;> cases hr : x.readopen <;> cases hw : x.writeopen <;>
    simp_all [State.Pipe.close, Pipe.isOpen]

theorem close (h : Ends role pipe npipes) (hf : role f = some (q, w)) :
    Ends (update role f none) (update pipe q (State.Pipe.close (pipe q) w))
      npipes := by
  have hrole : ∀ {g e}, update role f none g = some e ↔ g ≠ f ∧ role g = some e := by
    intro g e
    by_cases hg : g = f <;> simp [hg]
  have hq := h.bound hf
  have hopen : (pipe q).isOpen w = true := (h.ends hq w).mpr ⟨f, hf⟩
  refine ⟨fun hg => h.bound (hrole.mp hg).2,
    fun hg hg' => h.single (hrole.mp hg).2 (hrole.mp hg').2, fun {r} hr v => ?_, fun {r} hr => ?_⟩
  · have hother : (∃ g, update role f none g = some (r, v)) ↔
        (∃ g, role g = some (r, v)) ∧ ¬ (r = q ∧ v = w) := by
      constructor
      · rintro ⟨g, hg⟩
        obtain ⟨hne, hg⟩ := hrole.mp hg
        refine ⟨⟨g, hg⟩, ?_⟩
        rintro ⟨rfl, rfl⟩
        exact hne (h.single hg hf)
      · rintro ⟨⟨g, hg⟩, hne⟩
        refine ⟨g, hrole.mpr ⟨?_, hg⟩⟩
        rintro rfl
        rw [hf] at hg
        cases hg
        exact hne ⟨rfl, rfl⟩
    rw [hother, ← h.ends hr v]
    by_cases hrq : r = q
    · subst hrq
      simp [isOpen_close]
    · simp [hrq]
  · by_cases hrq : r = q
    · subst hrq
      rw [update_self]
      refine frees_close _ w hopen ?_
      rw [h.frees hr]
      cases w <;> simp_all [Pipe.isOpen]
    · rw [update_of_ne hrq]
      exact h.frees hr

theorem newPipe (h : Ends role pipe npipes) (hrf : role rf = none) (hwf : role wf = none)
    (hne : rf ≠ wf) :
    Ends (update (update role rf (some (npipes, false))) wf (some (npipes, true)))
      (update pipe npipes { readopen := true, writeopen := true, frees := 0 })
      (npipes + 1) := by
  have hrole : ∀ {g q w}, update (update role rf (some (npipes, false))) wf
      (some (npipes, true)) g = some (q, w) ↔
        (q = npipes ∧ g = if w then wf else rf) ∨ (q < npipes ∧ role g = some (q, w)) := by
    intro g q w
    have hb := @h.bound g q w
    grind
  refine ⟨fun hg => ?_, fun {g g'} e hg hg' => ?_, fun {q} hq w => ?_, fun {q} hq => ?_⟩
  · rcases hrole.mp hg with ⟨rfl, -⟩ | ⟨hlt, -⟩ <;> omega
  · obtain ⟨q, w⟩ := e
    rcases hrole.mp hg with ⟨rfl, rfl⟩ | ⟨hlt, hg⟩ <;>
      rcases hrole.mp hg' with ⟨he, rfl⟩ | ⟨hlt', hg'⟩
    · rfl
    · omega
    · omega
    · exact h.single hg hg'
  · simp only [hrole]
    by_cases hqn : q = npipes
    · subst hqn
      cases w <;> simp [Pipe.isOpen]
    · have hlt : q < npipes := by omega
      simp [hqn, hlt, h.ends hlt w]
  · by_cases hqn : q = npipes
    · simp [hqn]
    · rw [update_of_ne hqn]
      exact h.frees (by omega)

end Ends

def State.withPipes (s : State) (pipe : ℕ → Pipe) (npipes : ℕ) : State :=
  { s with pipe := pipe, npipes := npipes }

def State.roles (s : State) (f : FileIx) : Option (ℕ × Bool) := (s.file f).role

/-- The references are counted, with `loc` of them in local variables. -/
structure Counted (loc : FileIx → ℤ) (s : State) : Prop where
  refs : ∀ f, (s.file f).ref = tally s.ofile (some f) + loc f
  nonneg : ∀ f, 0 ≤ (s.file f).ref
  free : ∀ f, (s.file f).ref = 0 → (s.file f).type = .none
  ends : Ends s.roles s.pipe s.npipes
  dead : ∀ p, s.live p = false → ∀ fd, s.ofile (p, fd) = none

theorem roles_setFile (s : State) (f : FileIx) (x : File) :
    (s.setFile f x).roles = update s.roles f x.role := by
  funext g
  by_cases hg : g = f
  · subst hg
    simp [State.roles, State.setFile]
  · simp [State.roles, State.setFile, hg]

namespace Counted

variable {loc : FileIx → ℤ} {s s' : State} {f g : FileIx} {p : Slot} {fd : Fd}

theorem boot (init : Slot) : Counted 0 (boot init) where
  refs := fun f => by simp [FileTable.boot, tally]
  nonneg := fun f => le_refl 0
  free := fun f _ => rfl
  ends := ⟨nofun, nofun, nofun, nofun⟩
  dead := fun p _ fd => rfl

section

variable (h : Counted loc s)

include h

theorem setFile {x : File} {P : ℕ → Pipe} {n : ℕ} (hn : 0 ≤ x.ref)
    (hfree : x.ref = 0 → x.type = .none) (hends : Ends (update s.roles f x.role) P n) :
    Counted (loc + Pi.single f (x.ref - (s.file f).ref)) ((s.setFile f x).withPipes P n) := by
  have hfile : ∀ g, (s.setFile f x).file g = if g = f then x else s.file g := by
    intro g
    simp [State.setFile, update_apply]
  have hroles : ((s.setFile f x).withPipes P n).roles = update s.roles f x.role :=
    roles_setFile s f x
  refine ⟨fun g => ?_, fun g => ?_, fun g => ?_, by rw [hroles]; exact hends, h.dead⟩
  · have hg := h.refs g
    change ((s.setFile f x).file g).ref = _
    rw [hfile]
    by_cases hgf : g = f
    · subst hgf
      rw [if_pos rfl, Pi.add_apply, Pi.single_eq_same]
      change x.ref = (tally s.ofile (some g) : ℤ) + _
      omega
    · rw [if_neg hgf, Pi.add_apply, Pi.single_eq_of_ne hgf, add_zero]
      exact hg
  · change 0 ≤ ((s.setFile f x).file g).ref
    rw [hfile]
    split_ifs
    · exact hn
    · exact h.nonneg g
  · change ((s.setFile f x).file g).ref = 0 → ((s.setFile f x).file g).type = .none
    rw [hfile]
    split_ifs
    · exact hfree
    · exact h.free g

theorem setFd (fd : Fd) (x : Option FileIx) (hlive : s.live p = true) :
    Counted (fun f => loc f + (if s.ofile (p, fd) = some f then 1 else 0) -
      if x = some f then 1 else 0) (s.setFd p fd x) := by
  refine ⟨fun f => ?_, h.nonneg, h.free, h.ends, fun p' hp' fd' => ?_⟩
  · have hf := h.refs f
    have htally := tally_update s.ofile (p, fd) x (some f)
    change (s.file f).ref = (tally (update s.ofile (p, fd) x) (some f) : ℤ) + _
    split_ifs at htally ⊢ <;> omega
  · have hne : (p', fd') ≠ (p, fd) := by
      rintro heq
      obtain ⟨rfl, -⟩ := Prod.mk.inj heq
      change s.live p' = false at hp'
      simp [hlive] at hp'
    change update s.ofile (p, fd) x (p', fd') = none
    rw [update_of_ne hne]
    exact h.dead p' hp' fd'

theorem give (hlive : s.live p = true) (hfd : s.ofile (p, fd) = none) (f : FileIx) :
    Counted (loc - Pi.single f 1) (s.setFd p fd (some f)) := by
  have hset := h.setFd fd (some f) hlive
  rw [hfd] at hset
  convert hset using 1
  funext g
  by_cases hg : f = g
  · subst hg
    simp
  · simp [hg, Ne.symm hg]

theorem take (hlive : s.live p = true) (hfd : s.ofile (p, fd) = some f) :
    Counted (loc + Pi.single f 1) (s.setFd p fd none) := by
  have hset := h.setFd fd none hlive
  rw [hfd] at hset
  convert hset using 1
  funext g
  by_cases hg : f = g
  · subst hg
    simp
  · simp [hg, Ne.symm hg]

theorem ref_pos (hloc : 0 ≤ loc f) (hfd : s.ofile (p, fd) = some f) : 1 ≤ (s.file f).ref := by
  have hpos : 0 < tally s.ofile (some f) := tally_pos_iff.mpr ⟨(p, fd), hfd⟩
  have := h.refs f
  omega

theorem role_of_ref_zero (hf : (s.file f).ref = 0) : s.roles f = none := by
  simp [State.roles, File.role, h.free f hf]

end

end Counted

structure Kept (s s' : State) : Prop where
  ofile : s'.ofile = s.ofile
  live : s'.live = s.live

theorem Kept.refl (s : State) : Kept s s := ⟨rfl, rfl⟩

theorem Kept.trans {s s' s'' : State} (h : Kept s s') (h' : Kept s' s'') : Kept s s'' :=
  ⟨h'.ofile.trans h.ofile, h'.live.trans h.live⟩

namespace State

variable {loc : FileIx → ℤ} {s s' : State} {f rf wf : FileIx} {p np : Slot} {fd : Fd}

theorem filealloc_some (h : s.filealloc = (some f, s')) :
    (s.file f).ref = 0 ∧ s' = s.setFile f { s.file f with ref := 1 } := by
  unfold filealloc at h
  split at h
  · rename_i g hg
    cases h
    exact ⟨by simpa using find?_some hg, rfl⟩
  · cases h

theorem filealloc_none (h : s.filealloc = (none, s')) : s' = s := by
  unfold filealloc at h
  split at h
  · cases h
  · cases h
    rfl

theorem setRef_counted (hs : Counted loc s) {n : ℤ} (hn : 0 < n) :
    Counted (loc + Pi.single f (n - (s.file f).ref)) (s.setFile f { s.file f with ref := n }) := by
  refine hs.setFile (x := { s.file f with ref := n }) (P := s.pipe) (n := s.npipes) hn.le
    (fun h0 => absurd h0 hn.ne') ?_
  rw [show (File.role { s.file f with ref := n }) = s.roles f from rfl, update_eq_self]
  exact hs.ends

theorem filealloc_counted (h : s.filealloc = (some f, s')) (hs : Counted loc s) :
    Counted (loc + Pi.single f 1) s' ∧ Kept s s' ∧ (s'.file f).ref = 1 ∧ s'.roles f = none := by
  obtain ⟨href, rfl⟩ := filealloc_some h
  have hset := setRef_counted (f := f) hs (n := 1) one_pos
  rw [href] at hset
  refine ⟨by simpa using hset, ⟨rfl, rfl⟩, by simp [setFile], ?_⟩
  rw [roles_setFile, update_self]
  exact hs.role_of_ref_zero href

theorem filedup_counted (hs : Counted loc s) (hf : 1 ≤ (s.file f).ref) :
    ∃ s', s.filedup f = .ok s' ∧ Counted (loc + Pi.single f 1) s' ∧ Kept s s' := by
  refine ⟨_, if_neg (by omega), ?_, ⟨rfl, rfl⟩⟩
  have hset := setRef_counted (f := f) hs (n := (s.file f).ref + 1) (by omega)
  rwa [add_sub_cancel_left] at hset

theorem free_counted (hs : Counted loc s) (hf : (s.file f).ref = 1) :
    Counted (loc - Pi.single f 1)
      (if (s.file f).type = .pipe then
        (s.setFile f { s.file f with ref := 0, type := .none }).pipeclose (s.file f).pipe
          (s.file f).writable
      else s.setFile f { s.file f with ref := 0, type := .none }) := by
  have hone : loc + Pi.single f (0 - (s.file f).ref) = loc - Pi.single f 1 := by
    rw [hf, sub_eq_add_neg loc, ← Pi.single_neg]
    rfl
  rw [← hone]
  split_ifs with hpipe
  · have hrole : s.roles f = some ((s.file f).pipe, (s.file f).writable) := by
      simp [roles, File.role, hpipe]
    exact hs.setFile (x := { s.file f with ref := 0, type := .none }) (n := s.npipes) le_rfl
      (fun _ => rfl) (hs.ends.close hrole)
  · have hrole : s.roles f = none := by simp [roles, File.role, hpipe]
    refine hs.setFile (x := { s.file f with ref := 0, type := .none }) (P := s.pipe)
      (n := s.npipes) le_rfl (fun _ => rfl) ?_
    rw [show (File.role { s.file f with ref := 0, type := .none }) = s.roles f by rw [hrole]; rfl,
      update_eq_self]
    exact hs.ends

theorem fileclose_counted (hs : Counted loc s) (hf : 1 ≤ (s.file f).ref) :
    ∃ s', s.fileclose f = .ok s' ∧ Counted (loc - Pi.single f 1) s' ∧ Kept s s' := by
  have hlow : ¬ (s.file f).ref < 1 := by omega
  by_cases hmore : 0 < (s.file f).ref - 1
  · have hset := setRef_counted (f := f) hs (n := (s.file f).ref - 1) hmore
    rw [sub_sub_cancel_left, Pi.single_neg, ← sub_eq_add_neg] at hset
    exact ⟨_, by rw [fileclose, if_neg hlow, if_pos hmore], hset, ⟨rfl, rfl⟩⟩
  · refine ⟨_, ?_, free_counted hs (f := f) (by omega), ?_⟩
    · rw [fileclose, if_neg hlow, if_neg hmore]
      by_cases hpipe : (s.file f).type = .pipe <;> simp [hpipe]
    · split_ifs <;> exact ⟨rfl, rfl⟩

theorem fdalloc_some (h : s.fdalloc p f = (some fd, s')) :
    s.ofile (p, fd) = none ∧ s' = s.setFd p fd (some f) := by
  unfold fdalloc at h
  split at h
  · rename_i fd' hfd
    cases h
    exact ⟨by simpa using find?_some hfd, rfl⟩
  · cases h

theorem fdalloc_none (h : s.fdalloc p f = (none, s')) : s' = s := by
  unfold fdalloc at h
  split at h
  · cases h
  · cases h
    rfl

theorem fileclose_two_counted (hs : Counted (loc + Pi.single rf 1 + Pi.single wf 1) s)
    (hloc : ∀ f, 0 ≤ loc f) :
    ∃ t s', s.fileclose rf = .ok t ∧ t.fileclose wf = .ok s' ∧ Counted loc s' ∧ Kept s s' := by
  have hsingle : ∀ g h : FileIx, (0 : ℤ) ≤ Pi.single (M := fun _ => ℤ) g 1 h := by
    intro g h
    by_cases hgh : h = g
    · subst hgh
      simp
    · simp [hgh]
  have hrf : 1 ≤ (s.file rf).ref := by
    rw [hs.refs rf]
    have := hloc rf
    have := hsingle wf rf
    simp only [Pi.add_apply, Pi.single_eq_same]
    omega
  obtain ⟨s1, hclose1, hs1, hkept1⟩ := fileclose_counted hs hrf
  rw [add_right_comm, add_sub_cancel_right] at hs1
  have hwf : 1 ≤ (s1.file wf).ref := by
    rw [hs1.refs wf]
    have := hloc wf
    simp only [Pi.add_apply, Pi.single_eq_same]
    omega
  obtain ⟨s2, hclose2, hs2, hkept2⟩ := fileclose_counted hs1 hwf
  rw [add_sub_cancel_right] at hs2
  exact ⟨s1, s2, hclose1, hclose2, hs2, hkept1.trans hkept2⟩

theorem newPipe_counted (hs : Counted loc s) (hrf : s.roles rf = none) (hwf : s.roles wf = none)
    (hne : rf ≠ wf) (hrf1 : 1 ≤ (s.file rf).ref) (hwf1 : 1 ≤ (s.file wf).ref) :
    Counted loc (s.newPipe rf wf) ∧ Kept s (s.newPipe rf wf) := by
  have hfile : ∀ g, ((s.newPipe rf wf).file g).ref = (s.file g).ref := by
    intro g
    by_cases hgw : g = wf
    · subst hgw
      simp [newPipe, setFile, pipeEnd, hne.symm]
    · by_cases hgr : g = rf
      · subst hgr
        simp [newPipe, setFile, pipeEnd, hne]
      · simp [newPipe, setFile, hgw, hgr]
  have hroles : (s.newPipe rf wf).roles =
      update (update s.roles rf (some (s.npipes, false))) wf
        (some (s.npipes, true)) := by
    unfold newPipe
    rw [roles_setFile, roles_setFile]
    rfl
  refine ⟨⟨fun g => ?_, fun g => ?_, fun g hg => ?_, ?_, hs.dead⟩, ⟨rfl, rfl⟩⟩
  · rw [hfile]
    exact hs.refs g
  · rw [hfile]
    exact hs.nonneg g
  · rw [hfile] at hg
    have hgw : g ≠ wf := by
      rintro rfl
      omega
    have hgr : g ≠ rf := by
      rintro rfl
      omega
    simpa [newPipe, setFile, hgw, hgr] using hs.free g hg
  · rw [hroles]
    exact hs.ends.newPipe hrf hwf hne

theorem pipealloc_counted (hs : Counted 0 s) (memory : Bool) :
    ∃ r s', s.pipealloc memory = .ok (r, s') ∧ Kept s s' ∧
      (r = none ∧ Counted 0 s' ∨
        ∃ rf wf, r = some (rf, wf) ∧ Counted (Pi.single rf 1 + Pi.single wf 1) s') := by
  unfold pipealloc
  cases hrf : s.filealloc with
  | mk orf s1 =>
    cases orf with
    | none =>
      rw [filealloc_none hrf]
      exact ⟨none, s, rfl, .refl s, .inl ⟨rfl, hs⟩⟩
    | some rf =>
      obtain ⟨hs1, hkept1, href1, hrole1⟩ := filealloc_counted hrf hs
      cases hwf : s1.filealloc with
      | mk owf s2 =>
        cases owf with
        | none =>
          obtain rfl := filealloc_none hwf
          obtain ⟨s3, hclose, hs3, hkept3⟩ := fileclose_counted hs1 href1.ge
          rw [add_sub_cancel_right] at hs3
          refine ⟨none, s3, ?_, hkept1.trans hkept3, .inl ⟨rfl, hs3⟩⟩
          simp only [hwf, hclose]
          rfl
        | some wf =>
          obtain ⟨hs2, hkept2, href2, hrole2⟩ := filealloc_counted hwf hs1
          obtain ⟨hzero, hset⟩ := filealloc_some hwf
          have hne : rf ≠ wf := by
            rintro rfl
            omega
          have hrf2 : s2.file rf = s1.file rf := by
            rw [hset]
            simp [setFile, hne]
          simp only [hwf]
          cases memory with
          | true =>
            rw [zero_add] at hs2
            obtain ⟨hnew, hkeptn⟩ := newPipe_counted hs2
              (by rw [roles, hrf2]; exact hrole1) hrole2 hne (by rw [hrf2, href1]) href2.ge
            exact ⟨_, _, rfl, (hkept1.trans hkept2).trans hkeptn, .inr ⟨rf, wf, rfl, hnew⟩⟩
          | false =>
            obtain ⟨t, s3, ht, ht', hs3, hkept3⟩ :=
              fileclose_two_counted hs2 fun _ => le_rfl
            refine ⟨none, s3, ?_, (hkept1.trans hkept2).trans hkept3, .inl ⟨rfl, hs3⟩⟩
            simp only [Bool.false_eq_true, if_false, ht]
            change (do let s ← t.fileclose wf; return (none, s) : Except Panic _) = _
            rw [ht']
            rfl

def Keeps (r : Except Panic State) : Prop := ∃ s', r = .ok s' ∧ Counted 0 s'

theorem sysOpen_keeps (hs : Counted 0 s) (hp : s.live p = true) (device readable writable : Bool) :
    Keeps (s.sysOpen p device readable writable) := by
  unfold sysOpen
  cases hf : s.filealloc with
  | mk o s1 =>
    cases o with
    | none => exact ⟨s1, rfl, filealloc_none hf ▸ hs⟩
    | some f =>
      obtain ⟨hs1, hkept, href, hrole⟩ := filealloc_counted hf hs
      simp only
      cases hfd : s1.fdalloc p f with
      | mk o s2 =>
        cases o with
        | none =>
          obtain rfl := fdalloc_none hfd
          obtain ⟨s3, hclose, hs3, -⟩ := fileclose_counted hs1 href.ge
          exact ⟨s3, hclose, by simpa using hs3⟩
        | some fd =>
          obtain ⟨hnone, rfl⟩ := fdalloc_some hfd
          have hs2 := hs1.give (hkept.live ▸ hp) hnone f
          rw [add_sub_cancel_right] at hs2
          refine ⟨_, rfl, ?_⟩
          -- the entry gets a type, but is no end of a pipe
          have hset := hs2.setFile (f := f)
            (x := openFile (s1.file f) device readable writable) (P := s1.pipe) (n := s1.npipes)
            (by simp [openFile, href]) (by simp [openFile, href]) (by
              have hnorole : (openFile (s1.file f) device readable writable).role =
                  (s1.setFd p fd (some f)).roles f := by
                rw [show (s1.setFd p fd (some f)).roles f = s1.roles f from rfl, hrole]
                cases device <;> rfl
              rw [hnorole, update_eq_self]
              exact hs2.ends)
          have hsame : (openFile (s1.file f) device readable writable).ref -
              ((s1.setFd p fd (some f)).file f).ref = 0 := sub_self _
          rw [hsame, Pi.single_zero, add_zero] at hset
          exact hset

theorem sysDup_keeps (hs : Counted 0 s) (hp : s.live p = true) (fd : Fd) : Keeps (s.sysDup p fd) := by
  unfold sysDup
  cases hf : s.ofile (p, fd) with
  | none => exact ⟨s, rfl, hs⟩
  | some f =>
    have href := hs.ref_pos le_rfl hf
    simp only
    cases hfd : s.fdalloc p f with
    | mk o s1 =>
      cases o with
      | none => exact ⟨s1, rfl, fdalloc_none hfd ▸ hs⟩
      | some fd' =>
        obtain ⟨hnone, rfl⟩ := fdalloc_some hfd
        obtain ⟨s2, hdup, hs2, -⟩ := filedup_counted (hs.give hp hnone f) href
        exact ⟨s2, hdup, by simpa using hs2⟩

theorem sysClose_keeps (hs : Counted 0 s) (hp : s.live p = true) (fd : Fd) :
    Keeps (s.sysClose p fd) := by
  unfold sysClose
  cases hf : s.ofile (p, fd) with
  | none => exact ⟨s, rfl, hs⟩
  | some f =>
    obtain ⟨s1, hclose, hs1, -⟩ :=
      fileclose_counted (f := f) (hs.take hp hf) (hs.ref_pos le_rfl hf)
    exact ⟨s1, hclose, by simpa using hs1⟩

theorem sysPipe_of_files {rf wf : FileIx} {s1 : State} {memory : Bool}
    (hpipe : s.pipealloc memory = .ok (some (rf, wf), s1)) (copied : Bool) :
    s.sysPipe p memory copied =
      match s1.fdalloc p rf with
      | (none, s) => (do (← s.fileclose rf).fileclose wf)
      | (some fd0, s) =>
        match s.fdalloc p wf with
        | (none, s) => (do (← (s.setFd p fd0 none).fileclose rf).fileclose wf)
        | (some fd1, s) =>
          if copied then .ok s
          else (do (← ((s.setFd p fd0 none).setFd p fd1 none).fileclose rf).fileclose wf) := by
  rw [sysPipe, hpipe]
  rfl

theorem sysPipe_keeps (hs : Counted 0 s) (hp : s.live p = true) (memory copied : Bool) :
    Keeps (s.sysPipe p memory copied) := by
  obtain ⟨r, s1, hpipe, hkept, ⟨rfl, hs1⟩ | ⟨rf, wf, rfl, hs1⟩⟩ := pipealloc_counted hs memory
  · exact ⟨s1, by rw [sysPipe, hpipe]; rfl, hs1⟩
  · have hp1 : s1.live p = true := hkept.live ▸ hp
    rw [sysPipe_of_files hpipe]
    -- every error exit ends by closing both files, with both references in local variables
    have hdrop : ∀ {t : State}, Counted (Pi.single rf 1 + Pi.single wf 1) t →
        Keeps (do (← t.fileclose rf).fileclose wf) := by
      intro t ht
      rw [← zero_add (Pi.single rf 1)] at ht
      obtain ⟨t', s', hrf, hwf, hs', -⟩ := fileclose_two_counted ht fun _ => le_rfl
      exact ⟨s', by rw [hrf]; exact hwf, hs'⟩
    cases hfd : s1.fdalloc p rf with
    | mk o s2 =>
      cases o with
      | none =>
        obtain rfl := fdalloc_none hfd
        exact hdrop hs1
      | some fd0 =>
        obtain ⟨hnone, rfl⟩ := fdalloc_some hfd
        have hs2 := hs1.give hp1 hnone rf
        have hfd0 : (s1.setFd p fd0 (some rf)).ofile (p, fd0) = some rf := by simp [setFd]
        simp only
        cases hfd' : (s1.setFd p fd0 (some rf)).fdalloc p wf with
        | mk o s3 =>
          cases o with
          | none =>
            obtain rfl := fdalloc_none hfd'
            refine hdrop ?_
            have := hs2.take hp1 hfd0
            rwa [sub_add_cancel] at this
          | some fd1 =>
            obtain ⟨hnone', rfl⟩ := fdalloc_some hfd'
            have hs3 := hs2.give hp1 hnone' wf
            cases copied with
            | true =>
              refine ⟨_, rfl, ?_⟩
              rwa [add_comm (Pi.single rf 1), add_sub_cancel_right, sub_self] at hs3
            | false =>
              refine hdrop ?_
              have hne : fd0 ≠ fd1 := by
                rintro rfl
                rw [hfd0] at hnone'
                cases hnone'
              have hrf : ((s1.setFd p fd0 (some rf)).setFd p fd1 (some wf)).ofile (p, fd0) =
                  some rf := by
                simp [setFd, hne]
              have hwf : (((s1.setFd p fd0 (some rf)).setFd p fd1 (some wf)).setFd p fd0
                  none).ofile (p, fd1) = some wf := by
                simp [setFd, hne.symm]
              convert (hs3.take hp1 hrf).take hp1 hwf using 1
              abel

theorem foldlM_forkFd_keeps {fds : List Fd} (hs : Counted 0 s) (hnp : s.live np = true)
    (hnodup : fds.Nodup) (hfree : ∀ fd ∈ fds, s.ofile (np, fd) = none) :
    Keeps (fds.foldlM (forkFd p np) s) := by
  induction fds generalizing s with
  | nil => exact ⟨s, rfl, hs⟩
  | cons fd fds ih =>
    rw [nodup_cons] at hnodup
    rw [foldlM_cons]
    have hfd := hfree fd (by simp)
    cases hf : s.ofile (p, fd) with
    | none =>
      have hturn : forkFd p np s fd = .ok s := by simp [forkFd, hf]
      rw [hturn]
      exact ih hs hnp hnodup.2 fun fd' h' => hfree fd' (by simp [h'])
    | some f =>
      obtain ⟨s1, hdup, hs1, hkept⟩ := filedup_counted hs (hs.ref_pos le_rfl hf)
      have hturn : forkFd p np s fd = .ok (s1.setFd np fd (some f)) := by
        simp only [forkFd, hf, hdup]
        rfl
      have hfd1 : s1.ofile (np, fd) = none := hkept.ofile ▸ hfd
      have hs2 := hs1.give (hkept.live ▸ hnp) hfd1 f
      rw [add_sub_cancel_right] at hs2
      rw [hturn]
      refine ih hs2 (hkept.live ▸ hnp) hnodup.2 fun fd' h' => ?_
      have hother : fd' ≠ fd := by
        rintro rfl
        exact hnodup.1 h'
      simp [setFd, hother, hkept.ofile, hfree fd' (by simp [h'])]

theorem fork_keeps (hs : Counted 0 s) (hnp : s.live np = false) : Keeps (s.fork p np) := by
  have hborn : Counted 0 { s with live := update s.live np true } := by
    refine { hs with dead := fun q hq => hs.dead q ?_ }
    by_cases hqn : q = np
    · simp [hqn] at hq
    · simpa [hqn] using hq
  exact foldlM_forkFd_keeps hborn (by simp) (nodup_finRange nofile) fun fd _ =>
    hs.dead np hnp fd

theorem foldlM_exitFd_keeps (fds : List Fd) (hs : Counted 0 s) (hp : s.live p = true) :
    ∃ s', fds.foldlM (exitFd p) s = .ok s' ∧ Counted 0 s' ∧ s'.live = s.live ∧
      ∀ fd, (fd ∈ fds ∨ s.ofile (p, fd) = none) → s'.ofile (p, fd) = none := by
  induction fds generalizing s with
  | nil => exact ⟨s, rfl, hs, rfl, by simp⟩
  | cons fd fds ih =>
    rw [foldlM_cons]
    cases hf : s.ofile (p, fd) with
    | none =>
      have hturn : exitFd p s fd = .ok s := by simp [exitFd, hf]
      obtain ⟨s', hrun, hs', hlive, hclosed⟩ := ih hs hp
      refine ⟨s', by rw [hturn]; exact hrun, hs', hlive, fun fd' h' => hclosed fd' ?_⟩
      rcases h' with h' | h'
      · rcases mem_cons.mp h' with rfl | h'
        · exact .inr hf
        · exact .inl h'
      · exact .inr h'
    | some f =>
      obtain ⟨s1, hclose, hs1, hkept⟩ := fileclose_counted hs (hs.ref_pos le_rfl hf)
      have hturn : exitFd p s fd = .ok (s1.setFd p fd none) := by
        simp only [exitFd, hf, hclose]
        rfl
      have hf1 : s1.ofile (p, fd) = some f := hkept.ofile ▸ hf
      have hs2 := hs1.take (hkept.live ▸ hp) hf1
      rw [sub_add_cancel] at hs2
      obtain ⟨s', hrun, hs', hlive, hclosed⟩ := ih hs2 (hkept.live ▸ hp)
      refine ⟨s', by rw [hturn]; exact hrun, hs', hlive.trans hkept.live,
        fun fd' h' => hclosed fd' ?_⟩
      by_cases hfd' : fd' = fd
      · exact .inr (by simp [setFd, hfd'])
      · rcases h' with h' | h'
        · exact .inl (mem_of_ne_of_mem hfd' h')
        · exact .inr (by simpa [setFd, hfd', hkept.ofile] using h')

theorem exit_keeps (hs : Counted 0 s) (hp : s.live p = true) : Keeps (s.exit p) := by
  obtain ⟨s', hrun, hs', hlive, hclosed⟩ := foldlM_exitFd_keeps (List.finRange nofile) hs hp
  refine ⟨{ s' with live := update s'.live p false }, by rw [exit, hrun]; rfl,
    hs'.refs, hs'.nonneg, hs'.free, hs'.ends, fun q hq fd => ?_⟩
  by_cases hqp : q = p
  · subst hqp
    exact hclosed fd (.inl (mem_finRange fd))
  · exact hs'.dead q (by simpa [hqp] using hq) fd

theorem call_keeps (hs : Counted 0 s) (hp : s.live p = true) {c : Call} (hc : s.admits c) :
    Keeps (s.call p c) := by
  cases c with
  | «open» device readable writable => exact sysOpen_keeps hs hp device readable writable
  | dup fd => exact sysDup_keeps hs hp fd
  | close fd => exact sysClose_keeps hs hp fd
  | pipe memory copied => exact sysPipe_keeps hs hp memory copied
  | fork np => exact fork_keeps hs hc
  | exit => exact exit_keeps hs hp

end State

/-- In every run, `ref` is the number of descriptors that hold the file. -/
theorem Reached.counted {s : State} (h : Reached s) : Counted 0 s := by
  induction h with
  | boot init => exact Counted.boot init
  | call h hp hc hs ih =>
    obtain ⟨s', hs', hcounted⟩ := State.call_keeps ih hp hc
    rw [hs] at hs'
    cases hs'
    exact hcounted

def State.Descriptor (s : State) (q : ℕ) (writable : Bool) : Prop :=
  ∃ x f, s.ofile x = some f ∧ (s.file f).type = .pipe ∧ (s.file f).pipe = q ∧
    (s.file f).writable = writable

namespace Counted

variable {s : State} {f : FileIx}

theorem ref_eq_zero_iff (h : Counted 0 s) : (s.file f).ref = 0 ↔ ∀ x, s.ofile x ≠ some f := by
  rw [h.refs f, Pi.zero_apply, add_zero, Nat.cast_eq_zero, tally_eq_zero_iff]

theorem descriptor_iff (h : Counted 0 s) {q : ℕ} {w : Bool} :
    s.Descriptor q w ↔ ∃ f, s.roles f = some (q, w) := by
  constructor
  · rintro ⟨x, f, -, ht, rfl, rfl⟩
    exact ⟨f, by simp [State.roles, File.role, ht]⟩
  · rintro ⟨f, hf⟩
    have ht : (s.file f).type = .pipe ∧ (s.file f).pipe = q ∧ (s.file f).writable = w := by
      simpa [State.roles, File.role] using hf
    have hused : (s.file f).ref ≠ 0 := by
      intro h0
      rw [h.free f h0] at ht
      exact nomatch ht.1
    rw [Ne, h.ref_eq_zero_iff] at hused
    push Not at hused
    obtain ⟨x, hx⟩ := hused
    exact ⟨x, f, hx, ht⟩

end Counted

/-- Reference counts, free entries and the lives of pipes, after any sequence of
calls; and no call panics. -/
theorem file_references {s : State} (h : Reached s) :
    (∀ f, (s.file f).ref = tally s.ofile (some f)) ∧
      (∀ f, (s.file f).ref = 0 ↔ ∀ x, s.ofile x ≠ some f) ∧
      (∀ f, (s.file f).ref = 0 → (s.file f).type = .none) ∧
      (∀ q < s.npipes,
        ((s.pipe q).readopen = true ↔ s.Descriptor q false) ∧
        ((s.pipe q).writeopen = true ↔ s.Descriptor q true) ∧
        ((s.pipe q).frees = 0 ↔ s.Descriptor q false ∨ s.Descriptor q true) ∧
        (s.pipe q).frees ≤ 1) ∧
      ∀ p c, s.live p = true → s.admits c → ∃ s', s.call p c = .ok s' := by
  have hs := h.counted
  refine ⟨fun f => ?_, fun f => hs.ref_eq_zero_iff, hs.free, fun q hq => ?_, fun p c hp hc => ?_⟩
  · exact (hs.refs f).trans (add_zero _)
  · have hread := (hs.ends.ends hq false).trans hs.descriptor_iff.symm
    have hwrite := (hs.ends.ends hq true).trans hs.descriptor_iff.symm
    have hfrees := hs.ends.frees hq
    refine ⟨hread, hwrite, ?_, ?_⟩
    · rw [← hread, ← hwrite, hfrees]
      cases hr : (s.pipe q).readopen <;> cases hw : (s.pipe q).writeopen <;>
        simp [Pipe.isOpen, hr, hw]
    · rw [hfrees]
      split_ifs <;> omega
  · obtain ⟨s', hs', -⟩ := State.call_keeps hs hp hc
    exact ⟨s', hs'⟩

theorem file_references_pipe :
    ∃ s, Reached s ∧ s.npipes = 1 ∧ (s.pipe 0).readopen = true ∧ s.Descriptor 0 false := by
  let init : Slot := ⟨0, by decide⟩
  have h : Reached _ := Reached.call (p := init) (c := .pipe true true) (.boot init) rfl trivial rfl
  exact ⟨_, h, rfl, rfl, ((file_references h).2.2.2.1 0 (by decide)).1.mp rfl⟩

end Xv6MallocLab.FileTable
