import Mathlib.Data.List.DropRight
import Xv6MallocLab.Directories
import Xv6MallocLab.InodeSteps

/-!
# Path names

One loop serves `namei` and `nameiparent`.  What a path means is said without it: its
elements are what stands between the slashes, cut to `DIRSIZ` bytes, and `Leads` goes
from directory to directory along them.
-/

namespace Xv6MallocLab.FileSystem

open List

abbrev Path := List UInt8

def slash : UInt8 := 47

/-- `skipelem`: the rest of the path, and the element before it. -/
def skipelem (path : Path) : Option (Path × Name) :=
  let s := path.dropWhile (· == slash)
  if s.isEmpty then none
  else some ((s.dropWhile (· != slash)).dropWhile (· == slash),
    (s.takeWhile (· != slash)).take dirsiz)

variable {path rest : Path} {name : Name}

theorem skipelem_none : skipelem path = none ↔ path.dropWhile (· == slash) = [] := by
  unfold skipelem
  cases path.dropWhile (· == slash) <;> simp

theorem skipelem_some (h : skipelem path = some (rest, name)) :
    ∃ w t, path.dropWhile (· == slash) = w ++ t ∧ (∀ c ∈ w, c ≠ slash) ∧ w ≠ [] ∧
      (t = [] ∨ t.head? = some slash) ∧ rest = t.dropWhile (· == slash) ∧ name = w.take dirsiz := by
  unfold skipelem at h
  set s := path.dropWhile (· == slash) with hs
  cases hcase : s with
  | nil =>
    rw [hcase] at h
    cases h
  | cons c r =>
    have hc : c ≠ slash := by
      have hne : path.dropWhile (· == slash) ≠ [] := by
        rw [← hs, hcase]
        exact cons_ne_nil c r
      have := head_dropWhile_not (· == slash) hne
      simpa only [← hs, hcase, head_cons, beq_eq_false_iff_ne] using this
    rw [if_neg (by simp [hcase])] at h
    obtain ⟨hrest, hname⟩ := Prod.mk.inj (Option.some.inj h)
    refine ⟨s.takeWhile (· != slash), s.dropWhile (· != slash), ?_, ?_, ?_, ?_, hrest.symm, hname.symm⟩
    · rw [takeWhile_append_dropWhile, hcase]
    · intro d hd
      simpa using mem_takeWhile_imp hd
    · rw [hcase, takeWhile_cons_of_pos (by simpa using hc)]
      exact cons_ne_nil _ _
    · by_cases hnil : s.dropWhile (· != slash) = []
      · exact Or.inl hnil
      · have := head_dropWhile_not (· != slash) hnil
        rw [head?_eq_some_head hnil]
        exact Or.inr (congrArg some (by simpa using this))

theorem skipelem_length (h : skipelem path = some (rest, name)) : rest.length < path.length := by
  obtain ⟨w, t, hpath, -, hw, -, rfl, -⟩ := skipelem_some h
  have h1 := (dropWhile_suffix (l := t) (· == slash)).length_le
  have h2 := (dropWhile_suffix (l := path) (· == slash)).length_le
  have h3 := length_pos_iff.2 hw
  rw [hpath, length_append] at h2
  omega

variable (sb : Super)

/-- The loop of `namex`, with a reference to `ip`. -/
def namexLoop (parent : Bool) (ip : ISlot) (path : Path) (name : Name) :
    InodeM (Option (ISlot × Name)) :=
  match _ : skipelem path with
  | none =>
    if parent then do
      iput ip
      return none
    else return some (ip, name)
  | some (path, name) => do
      ilock ip
      let s ← get
      if (s.inode ip).copy.type ≠ .dir then do
        iunlockput ip
        return none
      else if parent && path.isEmpty then do
        iunlock ip
        return some (ip, name)
      else
        match ← dirlookup sb ip name with
        | none => do
            iunlockput ip
            return none
        | some (next, _) => do
            iunlockput ip
            namexLoop parent next path name
termination_by path.length
decreasing_by exact skipelem_length ‹_›

def startDir (cwd : ISlot) (path : Path) : InodeM ISlot :=
  if path.head? = some slash then iget rootino
  else do
    idup cwd
    return cwd

/-- `namex`, from the root or from `cwd`. -/
def namex (cwd : ISlot) (path : Path) (parent : Bool) : InodeM (Option (ISlot × Name)) := do
  let ip ← startDir cwd path
  namexLoop sb parent ip path []

def namei (cwd : ISlot) (path : Path) : InodeM (Option ISlot) := do
  let r ← namex sb cwd path false
  return r.map Prod.fst

/-- `nameiparent`: the directory of the last element, and its name. -/
def nameiparent (cwd : ISlot) (path : Path) : InodeM (Option (ISlot × Name)) := namex sb cwd path true

def runs (path : Path) : List Path := (path.splitOn slash).filter (!·.isEmpty)

def elements (path : Path) : List Name :=
  ((path.splitOn slash).filter (!·.isEmpty)).map (·.take dirsiz)

theorem elements_eq_runs (path : Path) : elements path = (runs path).map (·.take dirsiz) := rfl

theorem runs_slash (path : Path) : runs (slash :: path) = runs path := by
  unfold runs List.splitOn
  rw [splitOnP_cons_eq_if_modifyHead, if_pos (beq_self_eq_true _), filter_cons_of_neg]
  exact nofun

theorem runs_dropWhile (path : Path) : runs (path.dropWhile (· == slash)) = runs path := by
  induction path with
  | nil => rfl
  | cons c t ih =>
    by_cases hc : c = slash
    · rw [dropWhile_cons_of_pos (by simp [hc]), ih, hc, runs_slash]
    · rw [dropWhile_cons_of_neg (by simp [hc])]

variable {w t : Path}

theorem runs_word (hw : ∀ c ∈ w, c ≠ slash) (hne : w ≠ []) (ht : t = [] ∨ t.head? = some slash) :
    runs (w ++ t) = w :: runs t := by
  have hno : ∀ c ∈ w, (c == slash) = false := fun c hc => beq_false_of_ne (hw c hc)
  have hkeep : (!w.isEmpty) = true := by simp [hne]
  cases t with
  | nil =>
    rw [append_nil]
    unfold runs List.splitOn
    rw [splitOnP_eq_singleton hno, filter_cons_of_pos (by exact hkeep)]
    rfl
  | cons c t =>
    obtain rfl : c = slash := by simpa using ht
    rw [runs_slash]
    unfold runs List.splitOn
    rw [splitOnP_append_cons_of_forall_mem hno _ (beq_self_eq_true _),
      filter_cons_of_pos (by exact hkeep)]

theorem runs_of_dropWhile (hpath : path.dropWhile (· == slash) = w ++ t) (hw : ∀ c ∈ w, c ≠ slash)
    (hne : w ≠ []) (ht : t = [] ∨ t.head? = some slash) :
    runs path = w :: runs (t.dropWhile (· == slash)) := by
  rw [← runs_dropWhile, hpath, runs_word hw hne ht, runs_dropWhile]

theorem elements_of_skipelem (h : skipelem path = some (rest, name)) :
    elements path = name :: elements rest := by
  obtain ⟨w, t, hpath, hw, hne, ht, rfl, rfl⟩ := skipelem_some h
  rw [elements_eq_runs, runs_of_dropWhile hpath hw hne ht]
  rfl

theorem elements_eq_nil : elements path = [] ↔ skipelem path = none := by
  constructor
  · intro h
    cases hskip : skipelem path with
    | none => rfl
    | some r =>
      rw [elements_of_skipelem hskip] at h
      cases h
  · intro h
    rw [elements_eq_runs, ← runs_dropWhile, skipelem_none.1 h]
    rfl

theorem isEmpty_rest (h : skipelem path = some (rest, name)) :
    rest.isEmpty = true ↔ elements rest = [] := by
  obtain ⟨-, t, -, -, -, -, rfl, -⟩ := skipelem_some h
  rw [elements_eq_nil, skipelem_none, List.dropWhile_idempotent, List.isEmpty_iff]

theorem skipelem_of_elements {names : List Name} (h : elements path = name :: names) :
    ∃ rest, skipelem path = some (rest, name) ∧ elements rest = names := by
  cases hskip : skipelem path with
  | none =>
    rw [elements_eq_nil.2 hskip] at h
    cases h
  | some r =>
    obtain ⟨rest, name'⟩ := r
    rw [elements_of_skipelem hskip] at h
    cases h
    exact ⟨rest, rfl, rfl⟩

section Rounds

variable {sb} {parent : Bool} {ip : ISlot} {path rest : Path} {name name' : Name} {s s1 : Itable}

theorem namexLoop_end (h : skipelem path = none) :
    namexLoop sb parent ip path name =
      if parent then do
        iput ip
        return none
      else return some (ip, name) := by
  rw [namexLoop]
  split
  · rfl
  · rename_i hskip
    rw [h] at hskip
    cases hskip

section

variable (h : skipelem path = some (rest, name'))

include h

theorem namexLoop_round :
    namexLoop sb parent ip path name = (do
      ilock ip
      let s ← get
      if (s.inode ip).copy.type ≠ .dir then do
        iunlockput ip
        return none
      else if parent && rest.isEmpty then do
        iunlock ip
        return some (ip, name')
      else
        match ← dirlookup sb ip name' with
        | none => do
            iunlockput ip
            return none
        | some (next, _) => do
            iunlockput ip
            namexLoop sb parent next rest name') := by
  rw [namexLoop]
  split
  · rename_i hskip
    rw [h] at hskip
    cases hskip
  · rename_i hskip
    rw [h] at hskip
    cases hskip
    rfl

theorem namexLoop_panic {e : Panic} (hlock : ilock ip s = .error e) :
    namexLoop sb parent ip path name s = .error e := by
  rw [namexLoop_round h]
  exact bind_of_error hlock

theorem namexLoop_file (hlock : ilock ip s = .ok ((), s1))
    (hfile : (s1.inode ip).copy.type ≠ .dir) :
    namexLoop sb parent ip path name s = (do
      iunlockput ip
      return none) s1 := by
  rw [namexLoop_round h, bind_of_ok hlock, bind_of_ok (a := s1) (t := s1) rfl, if_pos hfile]

theorem namexLoop_enters {x : ISlot × Name} {s' : Itable}
    (hrun : namexLoop sb parent ip path name s = .ok (some x, s')) :
    ∃ s1, ilock ip s = .ok ((), s1) ∧ (s1.inode ip).copy.type = .dir := by
  cases hlock : ilock ip s with
  | error e =>
    rw [namexLoop_panic h hlock] at hrun
    cases hrun
  | ok r =>
    refine ⟨r.2, rfl, ?_⟩
    by_contra hfile
    rw [namexLoop_file h hlock hfile] at hrun
    obtain ⟨⟨⟩, s2, -, hret⟩ := bind_ok hrun
    cases hret

theorem namexLoop_stop (hlock : ilock ip s = .ok ((), s1)) (hdir : (s1.inode ip).copy.type = .dir)
    (hrest : rest.isEmpty = true) :
    namexLoop sb true ip path name s = (do
      iunlock ip
      return some (ip, name')) s1 := by
  rw [namexLoop_round h, bind_of_ok hlock, bind_of_ok (a := s1) (t := s1) rfl,
    if_neg (not_not.2 hdir), hrest]
  rfl

theorem namexLoop_next (hlock : ilock ip s = .ok ((), s1)) (hdir : (s1.inode ip).copy.type = .dir)
    (hrest : ¬(parent && rest.isEmpty) = true) :
    namexLoop sb parent ip path name s = (do
      match ← dirlookup sb ip name' with
      | none => do
          iunlockput ip
          return none
      | some (next, _) => do
          iunlockput ip
          namexLoop sb parent next rest name') s1 := by
  rw [namexLoop_round h, bind_of_ok hlock, bind_of_ok (a := s1) (t := s1) rfl,
    if_neg (not_not.2 hdir), if_neg hrest]

end

end Rounds

section Composition

variable {sb}

theorem elements_append (p q : Path) : elements (p ++ slash :: q) = elements p ++ elements q := by
  rw [elements, splitOn_append_cons_self, filter_append, map_append]
  rfl

/-- The walk along some names; `name` is the last one before them. -/
def follow (sb : Super) (ip : ISlot) (name : Name) : List Name → InodeM (Option (ISlot × Name))
  | [] => return some (ip, name)
  | name :: names => do
      ilock ip
      let s ← get
      if (s.inode ip).copy.type ≠ .dir then do
        iunlockput ip
        return none
      else
        match ← dirlookup sb ip name with
        | none => do
            iunlockput ip
            return none
        | some (next, _) => do
            iunlockput ip
            follow sb next name names

theorem namexLoop_follow {names : List Name} {path : Path} (h : elements path = names) (ip : ISlot)
    (name : Name) : namexLoop sb false ip path name = follow sb ip name names := by
  induction names generalizing path ip name with
  | nil => exact namexLoop_end (elements_eq_nil.mp h)
  | cons n names ih =>
    obtain ⟨rest, hskip, hrest⟩ := skipelem_of_elements h
    simp only [namexLoop_round hskip, follow, ih hrest, Bool.false_and]
    rfl

theorem follow_append (xs ys : List Name) (ip : ISlot) (name : Name) :
    follow sb ip name (xs ++ ys) = (do
      match ← follow sb ip name xs with
      | none => return none
      | some (k, name) => follow sb k name ys) := by
  induction xs generalizing ip name with
  | nil => simp [follow]
  | cons n xs ih =>
    simp only [cons_append, follow, ih, bind_assoc]
    congr 1
    funext _
    congr 1
    funext s
    split
    · simp
    · rw [bind_assoc]
      congr 1
      funext r
      cases r <;> simp

/-- Looking up `p/q` is looking up `p` and going on along `q` from what is found, with all
locks, references and panics on the way. -/
theorem namei_composes (cwd : ISlot) {p : Path} (hp : p ≠ []) (q : Path) :
    namei sb cwd (p ++ slash :: q) = (do
      match ← namei sb cwd p with
      | none => return none
      | some k => do
        let r ← namexLoop sb false k q []
        return r.map Prod.fst) := by
  have hstart : startDir cwd (p ++ slash :: q) = startDir cwd p := by
    rw [startDir, startDir, head?_append_of_ne_nil p hp]
  -- the name of the last element is not part of what `namei` returns
  have hname : ∀ k (name : Name), (do return (← follow sb k name (elements q)).map Prod.fst) =
      (do return (← follow sb k [] (elements q)).map Prod.fst) := by
    intro k name
    cases elements q <;> simp [follow]
  simp only [namei, namex, hstart, namexLoop_follow rfl, elements_append, follow_append, bind_assoc,
    pure_bind]
  congr 1
  funext ip
  congr 1
  funext r
  cases r with
  | none => simp
  | some x => exact hname x.1 x.2

theorem namei_composes_two : namei smallSuper firstSlot [97, 47, 98] = (do
    match ← namei smallSuper firstSlot [97] with
    | none => return none
    | some k => do
      let r ← namexLoop smallSuper false k [98] []
      return r.map Prod.fst) :=
  namei_composes _ (cons_ne_nil 97 []) [98]

end Composition

/-- Each element is looked up in a directory, from `i` on, and the last one found is `k`. -/
inductive Leads : Itable → ISlot → List Name → Itable → ISlot → Prop
  | here {s : Itable} {i : ISlot} : Leads s i [] s i
  | into {s s1 s2 s3 s' : Itable} {i j k : ISlot} {name : Name} {names : List Name} {off : ℕ}
      (hlock : ilock i s = .ok ((), s1)) (hdir : (s1.inode i).copy.type = .dir)
      (hlook : dirlookup sb i name s1 = .ok (some (j, off), s2))
      (hput : iunlockput i s2 = .ok ((), s3)) (h : Leads s3 j names s' k) :
      Leads s i (name :: names) s' k

def Itable.directory (s : Itable) (i : ISlot) : Prop :=
  ∃ s', ilock i s = .ok ((), s') ∧ (s'.inode i).copy.type = .dir

/-- What is left of `namei` after `nameiparent`. -/
def lookupLast : Option (ISlot × Name) → InodeM (Option (ISlot × Name))
  | none => return none
  | some (dp, name) => do
      ilock dp
      match ← dirlookup sb dp name with
      | none => do
          iunlockput dp
          return none
      | some (ip, _) => do
          iunlockput dp
          return some (ip, name)

section Lookups

variable {sb}

variable {names : List Name} {last : Name}

theorem parent_iff {path : Path} (h : elements path = names ++ [last]) {s s' : Itable}
    {i dp : ISlot} {nm name : Name} :
    namexLoop sb true i path nm s = .ok (some (dp, name), s') ↔
      name = last ∧ ∃ s1 s2, Leads sb s i names s1 dp ∧ ilock dp s1 = .ok ((), s2) ∧
        (s2.inode dp).copy.type = .dir ∧ iunlock dp s2 = .ok ((), s') := by
  induction names generalizing path i nm s with
  | nil =>
    obtain ⟨rest, hskip, hrest⟩ := skipelem_of_elements h
    have hempty := (isEmpty_rest hskip).2 hrest
    constructor
    · intro hrun
      obtain ⟨s1, hlock, hdir⟩ := namexLoop_enters hskip hrun
      rw [namexLoop_stop hskip hlock hdir hempty] at hrun
      obtain ⟨⟨⟩, s2, hunlock, hret⟩ := bind_ok hrun
      cases hret
      exact ⟨rfl, s, s1, .here, hlock, hdir, hunlock⟩
    · rintro ⟨rfl, s1, s2, hleads, hlock, hdir, hunlock⟩
      cases hleads
      rw [namexLoop_stop hskip hlock hdir hempty, bind_of_ok hunlock]
      rfl
  | cons first names ih =>
    obtain ⟨rest, hskip, hrest⟩ := skipelem_of_elements h
    have hmore : ¬(true && rest.isEmpty) = true := by simp [isEmpty_rest hskip, hrest]
    constructor
    · intro hrun
      obtain ⟨s1, hlock, hdir⟩ := namexLoop_enters hskip hrun
      rw [namexLoop_next hskip hlock hdir hmore] at hrun
      obtain ⟨found, s2, hlook, hrun⟩ := bind_ok hrun
      cases found with
      | none =>
        obtain ⟨⟨⟩, s3, -, hret⟩ := bind_ok hrun
        cases hret
      | some x =>
        obtain ⟨⟨⟩, s3, hput, hrun⟩ := bind_ok hrun
        obtain ⟨hname, s4, s5, hleads, hend⟩ := (ih hrest).1 hrun
        exact ⟨hname, s4, s5, .into hlock hdir hlook hput hleads, hend⟩
    · rintro ⟨rfl, s1, s2, hleads, hend⟩
      cases hleads with
      | into hlock hdir hlook hput hleads =>
        have hrun : namexLoop sb true _ rest first _ = .ok (some (dp, name), s') :=
          (ih hrest).2 ⟨rfl, s1, s2, hleads, hend⟩
        rw [namexLoop_next hskip hlock hdir hmore, bind_of_ok hlook]
        dsimp only
        rw [bind_of_ok hput, hrun]

theorem namexLoop_eq_of_dir {path rest : Path} {name : Name}
    (hskip : skipelem path = some (rest, name)) {i : ISlot} {nm : Name} {s : Itable}
    (hdir : ∀ s1, ilock i s = .ok ((), s1) → (s1.inode i).copy.type = .dir →
      namexLoop sb false i path nm s = (namexLoop sb true i path nm >>= lookupLast sb) s) :
    namexLoop sb false i path nm s = (namexLoop sb true i path nm >>= lookupLast sb) s := by
  cases hlock : ilock i s with
  | error e => rw [namexLoop_panic hskip hlock, bind_of_error (namexLoop_panic hskip hlock)]
  | ok r =>
    by_cases htype : (r.2.inode i).copy.type = .dir
    · exact hdir r.2 hlock htype
    · rw [namexLoop_file hskip hlock htype, bind_eq_of_eq (namexLoop_file hskip hlock htype),
        bind_assoc]
      rfl

theorem namexLoop_eq {path : Path} (h : elements path = names ++ [last]) (i : ISlot) (nm : Name)
    (s : Itable) :
    namexLoop sb false i path nm s = (namexLoop sb true i path nm >>= lookupLast sb) s := by
  induction names generalizing path i nm s with
  | nil =>
    obtain ⟨rest, hskip, hrest⟩ := skipelem_of_elements h
    have hempty := (isEmpty_rest hskip).2 hrest
    refine namexLoop_eq_of_dir hskip fun s1 hlock hdir => ?_
    obtain ⟨s2, hunlock, hagain⟩ := ilock_again hlock
    rw [namexLoop_next hskip hlock hdir (by simp),
      bind_eq_of_eq (namexLoop_stop hskip hlock hdir hempty), bind_assoc, bind_of_ok hunlock,
      pure_bind, lookupLast, bind_of_ok hagain]
    refine congrFun (bind_congr fun found => ?_) s1
    cases found with
    | none => rfl
    | some x =>
      refine bind_congr fun _ => ?_
      rw [namexLoop_end (elements_eq_nil.1 hrest)]
      rfl
  | cons first names ih =>
    obtain ⟨rest, hskip, hrest⟩ := skipelem_of_elements h
    have hmore : ¬(true && rest.isEmpty) = true := by simp [isEmpty_rest hskip, hrest]
    refine namexLoop_eq_of_dir hskip fun s1 hlock hdir => ?_
    rw [namexLoop_next hskip hlock hdir (by simp),
      bind_eq_of_eq (namexLoop_next hskip hlock hdir hmore), bind_assoc]
    refine congrFun (bind_congr fun found => ?_) s1
    cases found with
    | none =>
      rw [bind_assoc]
      rfl
    | some x =>
      rw [bind_assoc]
      exact bind_congr fun _ => funext fun s3 => ih hrest x.1 first s3

end Lookups

/-- Directories are whole entries, which name inodes of the file system. -/
def InRange (d : Disk) : Prop :=
  ∀ inum < sb.ninodes, (d.dinode inum).type = .dir → (d.dinode inum).size % direntSize = 0 ∧
    ∀ k < (d.dinode inum).size / direntSize, ((d.dinode inum).entry d.block k).inum < sb.ninodes

structure Quiescent (s : Itable) : Prop where
  sound : s.Sound sb 0
  unlocked : ∀ i, (s.inode i).locked = false
  inRange : InRange sb s.disk

structure Here (s : Itable) (i : ISlot) : Prop extends Quiescent sb s where
  ref : 0 < (s.inode i).ref
  inum : (s.inode i).inum < sb.ninodes

section Walk

variable {sb} {s s1 s2 : Itable} {i j : ISlot}

theorem InRange.freed {d d' : Disk} (h : InRange sb d) (hd : Freed d d') : InRange sb d' := by
  intro inum hlt hdir
  rcases hd.dinode inum with hsame | hfree
  · rw [hsame] at hdir
    rw [hsame, hd.block]
    exact h inum hlt hdir
  · rw [hfree] at hdir
    cases hdir

variable {off : ℕ}

theorem dirlookup_locked {L : ℕ → ℕ} {name : Name} (hs : s.Sound sb L) (hr : InRange sb s.disk)
    (hl : (s.inode i).locked = true) (h : dirlookup sb i name s = .ok (some (j, off), s1)) :
    ∃ v < sb.ninodes, iget v s = .ok (j, s1) := by
  obtain ⟨hdir, d', ip, found, hrun, hfound⟩ := dirlookup_ok h
  obtain ⟨href, hvalid⟩ := hs.locked i hl
  obtain ⟨hlt, hcopy, halloc⟩ := hs.copies i href hvalid
  rw [hcopy] at hdir halloc
  have hno := hs.tidy.noHoles _ hlt halloc
  obtain ⟨hwhole, hentries⟩ := hr _ hlt hdir
  set dp := s.disk.dinode (s.inode i).inum with hdp
  have hsize : direntSize * (0 + dp.nslots) = dp.size := by
    rw [Nat.zero_add, Dinode.nslots]
    simp only [direntSize] at *
    omega
  have hcount : dp.nslots = dp.size / direntSize := by
    rw [Dinode.nslots]
    simp only [direntSize] at *
    omega
  obtain ⟨r, hloop, -, hsome⟩ := lookupLoop_found sb hno.full hno.small name hsize
  have hsame : lookupLoop sb name (s.inode i).copy.nslots (s.inode i).copy 0 s.disk =
      .ok ((dp, r), s.disk) := by
    rw [hcopy]
    exact hloop
  rw [hsame] at hrun
  obtain ⟨hpair, rfl⟩ := Prod.mk.inj (Except.ok.inj hrun)
  obtain ⟨rfl, rfl⟩ := Prod.mk.inj hpair
  cases r with
  | none => cases hfound.1
  | some x =>
    obtain ⟨v, off'⟩ := x
    obtain ⟨j', hj, hget⟩ := hfound
    cases hj
    have hstate : (s.setDisk s.disk).setInode i ((s.inode i).setCopy dp) = s := by
      rw [← hcopy]
      simp only [Itable.setInode, Itable.setDisk, Inode.setCopy, Function.update_eq_self]
    rw [hstate] at hget
    obtain ⟨k, hk, -, hslot⟩ := hsome v off rfl
    obtain ⟨-, -, rfl⟩ := slot_eq_some.1 hslot
    rw [Nat.zero_add, hcount] at hk
    exact ⟨_, hentries k hk, hget⟩

theorem Here.enter {name : Name} (h : Here sb s i) (hlock : ilock i s = .ok ((), s1))
    (hlook : dirlookup sb i name s1 = .ok (some (j, off), s2)) :
    Runs (iunlockput i) s2 fun _ s3 => Here sb s3 j := by
  have ht := (ilock_keeps h.inum h.sound).of_ok hlock
  obtain ⟨href, -, ip, rfl, -⟩ := ilock_ok hlock
  obtain ⟨v, hv, hget⟩ := dirlookup_locked ht h.inRange (by rw [setInode_inode, if_pos rfl]; rfl) hlook
  have hs2 := ((iget_keeps v ht).of_ok hget).1
  obtain ⟨x, rfl, hxinum, hxref, hxlocked, -⟩ := iget_ok hget
  set t := s.setInode i ((s.inode i).loaded ip) with htdef
  have hti : t.inode i = (s.inode i).loaded ip := by rw [htdef, setInode_inode, if_pos rfl]
  have htk : ∀ k, k ≠ i → t.inode k = s.inode k := fun k hk => by
    rw [htdef, setInode_inode, if_neg hk]
  have hxj : (t.setInode j x).inode j = x := by rw [setInode_inode, if_pos rfl]
  have hxk : ∀ k, k ≠ j → (t.setInode j x).inode k = t.inode k := fun k hk => by
    rw [setInode_inode, if_neg hk]
  -- the directory is still locked, and has a reference of its own
  have hi : ((t.setInode j x).inode i).locked = true ∧ 1 ≤ ((t.setInode j x).inode i).ref := by
    by_cases hij : i = j
    · subst hij
      rw [hxj, hxlocked, hxref, hti]
      exact ⟨rfl, le_add_of_le_of_nonneg href zero_le_one⟩
    · rw [hxk i hij, hti]
      exact ⟨rfl, href⟩
  unfold iunlockput
  refine runs_bind_of_ok (iunlock_locked hi.1 hi.2) ?_
  have hs3 := (iunlock_keeps hs2).of_ok (iunlock_locked hi.1 hi.2)
  set u := (t.setInode j x).setInode i (((t.setInode j x).inode i).setLocked false) with hu
  have hui : u.inode i = ((t.setInode j x).inode i).setLocked false := by
    rw [hu, setInode_inode, if_pos rfl]
  have huk : ∀ k, k ≠ i → u.inode k = (t.setInode j x).inode k := fun k hk => by
    rw [hu, setInode_inode, if_neg hk]
  obtain ⟨⟨⟩, s4, hput, hsound, hfreed⟩ := iput_runs hs3 (i := i) (by rw [hui]; exact hi.2)
    (by rw [hui]; rfl)
  obtain ⟨d', y, rfl, hyinum, hyref, hylocked⟩ := iput_ok hput
  have hyk : ∀ k, k ≠ i → ((u.setDisk d').setInode i y).inode k = u.inode k := fun k hk => by
    rw [setInode_inode, if_neg hk, setDisk_inode]
  have hyi : ((u.setDisk d').setInode i y).inode i = y := by rw [setInode_inode, if_pos rfl]
  refine ⟨_, _, hput, ⟨hsound, fun k => ?_, h.inRange.freed hfreed⟩, ?_, ?_⟩
  · by_cases hk : k = i
    · rw [hk, hyi, hylocked, hui]
      rfl
    · rw [hyk k hk, huk k hk]
      by_cases hkj : k = j
      · rw [hkj, hxj, hxlocked, htk j (hkj ▸ hk)]
        exact h.unlocked j
      · rw [hxk k hkj, htk k hk]
        exact h.unlocked k
  · by_cases hij : j = i
    · subst hij
      rw [hyi, hyref, hui, hxj]
      change 0 < x.ref - 1
      rw [hxref, hti]
      change 0 < (s.inode j).ref + 1 - 1
      omega
    · rw [hyk j hij, huk j hij, hxj, hxref, htk j hij]
      have := h.sound.ref j
      omega
  · by_cases hij : j = i
    · subst hij
      rw [hyi, hyinum, hui, hxj]
      exact hxinum ▸ hv
    · rw [hyk j hij, huk j hij, hxj, hxinum]
      exact hv

theorem Leads.arrives {names : List Name} (hleads : Leads sb s i names s1 j) (h : Here sb s i) :
    Here sb s1 j := by
  induction hleads with
  | here => exact h
  | into hlock _ hlook hput _ ih => exact ih ((h.enter hlock hlook).of_eq hput)

theorem Here.relock (h : Here sb s i) (hlock : ilock i s = .ok ((), s1))
    (hunlock : iunlock i s1 = .ok ((), s2)) : Here sb s2 i := by
  have hs1 := (ilock_keeps h.inum h.sound).of_ok hlock
  have hs2 := (iunlock_keeps hs1).of_ok hunlock
  obtain ⟨-, -, ip, rfl, -⟩ := ilock_ok hlock
  obtain ⟨-, -, rfl⟩ := iunlock_ok hunlock
  refine ⟨⟨hs2, fun k => ?_, h.inRange⟩, ?_, ?_⟩
  · rw [setInode_inode]
    split_ifs with hk
    · rfl
    · rw [setInode_inode, if_neg hk]
      exact h.unlocked k
  · rw [setInode_inode, if_pos rfl, setInode_inode, if_pos rfl]
    exact h.ref
  · rw [setInode_inode, if_pos rfl, setInode_inode, if_pos rfl]
    exact h.inum

theorem Here.directory_iff (h : Here sb s i) :
    s.directory i ↔ (s.disk.dinode (s.inode i).inum).type = .dir := by
  constructor
  · rintro ⟨s', hlock, hdir⟩
    obtain ⟨-, -, ip, rfl, hip⟩ := ilock_ok hlock
    rw [setInode_inode, if_pos rfl] at hdir
    change ip.type = _ at hdir
    rcases hip with ⟨hvalid, rfl⟩ | ⟨rfl, -⟩
    · rwa [← (h.sound.copies i h.ref hvalid).2.1]
    · exact hdir
  · intro hdir
    by_cases hvalid : (s.inode i).valid = true
    · refine ⟨_, ilock_valid h.ref (h.unlocked i) hvalid, ?_⟩
      rw [setInode_inode, if_pos rfl]
      change (s.inode i).copy.type = _
      rwa [(h.sound.copies i h.ref hvalid).2.1]
    · refine ⟨s.setInode i ((s.inode i).loaded (s.disk.dinode (s.inode i).inum)), ?_, ?_⟩
      · have href := h.ref
        unfold ilock
        rw [bind_of_ok (a := s) (t := s) rfl, if_neg (by omega), if_neg (by simp [h.unlocked i]),
          if_neg hvalid, if_neg (by rw [hdir]; exact nofun)]
        rfl
      · rw [setInode_inode, if_pos rfl]
        exact hdir

theorem startDir_here {cwd : ISlot} {path : Path} (h : Quiescent sb s) (hroot : rootino < sb.ninodes)
    (hcwd : 0 < (s.inode cwd).ref) (hinum : (s.inode cwd).inum < sb.ninodes)
    (hstart : startDir cwd path s = .ok (i, s1)) : Here sb s1 i := by
  unfold startDir at hstart
  split_ifs at hstart with hslash
  · have hs := ((iget_keeps rootino h.sound).of_ok hstart).1
    obtain ⟨x, rfl, hxinum, hxref, hxlocked, -⟩ := iget_ok hstart
    refine ⟨⟨hs, fun k => ?_, h.inRange⟩, ?_, ?_⟩
    · rw [setInode_inode]
      split_ifs with hk
      · exact hxlocked.trans (h.unlocked i)
      · exact h.unlocked k
    · rw [setInode_inode, if_pos rfl, hxref]
      have := h.sound.ref i
      omega
    · rw [setInode_inode, if_pos rfl, hxinum]
      exact hroot
  · cases hstart
    refine ⟨⟨h.sound.addRef hcwd, fun k => ?_, h.inRange⟩, ?_, ?_⟩
    · rw [setInode_inode]
      split_ifs with hk
      · exact h.unlocked _
      · exact h.unlocked k
    · rw [setInode_inode, if_pos rfl]
      change 0 < (s.inode i).ref + 1
      omega
    · rw [setInode_inode, if_pos rfl]
      exact hinum

/-- In every quiescent state `nameiparent` returns the directory before the last element
and the name of that, and `namei` what a lookup of the name in this directory returns.
-/
theorem path_lookups_agree {cwd : ISlot} (h : Quiescent sb s) (hroot : rootino < sb.ninodes)
    (hcwd : 0 < (s.inode cwd).ref) (hinum : (s.inode cwd).inum < sb.ninodes) (path : Path) :
    (elements path = [] → ∀ i s0, startDir cwd path s = .ok (i, s0) →
      namei sb cwd path s = .ok (some i, s0) ∧ ∃ s', nameiparent sb cwd path s = .ok (none, s')) ∧
    ∀ names last, elements path = names ++ [last] →
      (∀ dp name, (∃ s', nameiparent sb cwd path s = .ok (some (dp, name), s')) ↔
        name = last ∧ ∃ i s0 s1, startDir cwd path s = .ok (i, s0) ∧ Leads sb s0 i names s1 dp ∧
          (s1.disk.dinode (s1.inode dp).inum).type = .dir) ∧
      ∀ ip, (∃ s', namei sb cwd path s = .ok (some ip, s')) ↔
        ∃ dp name s1 s2 s3 off, nameiparent sb cwd path s = .ok (some (dp, name), s1) ∧
          ilock dp s1 = .ok ((), s2) ∧ dirlookup sb dp name s2 = .ok (some (ip, off), s3) := by
  have hhere : ∀ i s0, startDir cwd path s = .ok (i, s0) → Here sb s0 i :=
    fun _ _ => startDir_here h hroot hcwd hinum
  refine ⟨fun hnil i s0 hstart => ?_, fun names last helem => ⟨fun dp name => ?_, fun ip => ?_⟩⟩
  · have hskip := elements_eq_nil.1 hnil
    have hput := iput_runs (hhere i s0 hstart).sound (hhere i s0 hstart).ref
      ((hhere i s0 hstart).unlocked i)
    obtain ⟨⟨⟩, s', hput, -⟩ := hput
    refine ⟨?_, s', ?_⟩
    · rw [namei, namex, bind_assoc, bind_of_ok hstart, namexLoop_end hskip]
      rfl
    · rw [nameiparent, namex, bind_of_ok hstart, namexLoop_end hskip, if_pos rfl, bind_of_ok hput]
      rfl
  · constructor
    · rintro ⟨s', hrun⟩
      obtain ⟨i, s0, hstart, hrun⟩ := bind_ok hrun
      obtain ⟨hname, s1, s2, hleads, hlock, hdir, -⟩ := (parent_iff helem).1 hrun
      refine ⟨hname, i, s0, s1, hstart, hleads, ?_⟩
      exact (hleads.arrives (hhere i s0 hstart)).directory_iff.1 ⟨s2, hlock, hdir⟩
    · rintro ⟨hname, i, s0, s1, hstart, hleads, htype⟩
      obtain ⟨s2, hlock, hdir⟩ := (hleads.arrives (hhere i s0 hstart)).directory_iff.2 htype
      obtain ⟨s3, hunlock, -⟩ := ilock_again hlock
      refine ⟨s3, ?_⟩
      rw [nameiparent, namex, bind_of_ok hstart]
      exact (parent_iff helem).2 ⟨hname, s1, s2, hleads, hlock, hdir, hunlock⟩
  · constructor
    · rintro ⟨s', hrun⟩
      obtain ⟨r, t, hrun, hret⟩ := bind_ok hrun
      obtain ⟨i, s0, hstart, hrun⟩ := bind_ok hrun
      rw [namexLoop_eq helem] at hrun
      obtain ⟨parent, s1, hparent, hlast⟩ := bind_ok hrun
      cases parent with
      | none =>
        cases hlast
        cases hret
      | some x =>
        obtain ⟨⟨⟩, s2, hlock, hlast⟩ := bind_ok hlast
        obtain ⟨found, s3, hlook, hlast⟩ := bind_ok hlast
        cases found with
        | none =>
          obtain ⟨⟨⟩, s4, -, hnone⟩ := bind_ok hlast
          cases hnone
          cases hret
        | some y =>
          obtain ⟨⟨⟩, s4, -, hsome⟩ := bind_ok hlast
          cases hsome
          cases hret
          refine ⟨x.1, x.2, s1, s2, s3, y.2, ?_, hlock, hlook⟩
          rw [nameiparent, namex, bind_of_ok hstart]
          exact hparent
    · rintro ⟨dp, name, s1, s2, s3, off, hparent, hlock, hlook⟩
      obtain ⟨i, s0, hstart, hrun⟩ := bind_ok hparent
      obtain ⟨-, t, t', hleads, hlock', -, hunlock⟩ := (parent_iff helem).1 hrun
      have hdp : Here sb s1 dp := (hleads.arrives (hhere i s0 hstart)).relock hlock' hunlock
      obtain ⟨⟨⟩, s4, hput, -⟩ := hdp.enter hlock hlook
      refine ⟨s4, ?_⟩
      rw [namei, namex, bind_assoc, bind_of_ok hstart,
        bind_eq_of_eq (namexLoop_eq helem i [] s0), bind_assoc, bind_of_ok hrun, lookupLast,
        bind_assoc, bind_of_ok hlock, bind_assoc, bind_of_ok hlook]
      dsimp only
      rw [bind_assoc, bind_of_ok hput]
      rfl

end Walk

/-- A root directory in which `a` names the root. -/
def rootTable : Itable :=
  after smallSuper (.iunlock firstSlot) (after smallSuper (.dirlink firstSlot [97] 1)
    (after smallSuper (.ilock firstSlot) (after smallSuper (.iget 1) (boot emptyDir))))

theorem rootTable_reached : Reached smallSuper (boot emptyDir) rootTable := by
  refine .step (.iunlock firstSlot) (.step (.dirlink firstSlot [97] 1) (.step (.ilock firstSlot)
    (.step (.iget 1) .refl ?_ rfl) ?_ rfl) rfl rfl) trivial rfl
  · change 1 < 2
    decide
  · change 1 < 2
    decide

theorem rootTable_quiescent : Quiescent smallSuper rootTable := by
  have hunlocked : ∀ i, (rootTable.inode i).locked = false := by decide +kernel
  refine ⟨rootTable_reached.sound (boot_sound emptyDir_image.tidy), hunlocked, fun inum hlt _ => ?_⟩
  have hlt : inum < 2 := hlt
  interval_cases inum
  · exact ⟨rfl, fun k hk => absurd hk (Nat.not_lt_zero k)⟩
  · refine ⟨by decide, fun k hk => ?_⟩
    have hk : k < 1 := hk
    interval_cases k
    decide

def rootStart : Itable := after smallSuper (.iget 1) rootTable

def rootLocked : Itable := after smallSuper (.ilock firstSlot) rootStart

/-- What `nameiparent` leaves. -/
def rootParent : Itable := after smallSuper (.iunlock firstSlot) rootLocked

theorem path_lookups_agree_root :
    elements [slash, slash, 97, slash] = [[97]] ∧
      ∃ s', namei smallSuper firstSlot [slash, slash, 97, slash] rootTable =
        .ok (some firstSlot, s') := by
  have helem : elements [slash, slash, 97, slash] = [] ++ [[97]] := by decide
  have hcwd : 0 < (rootTable.inode firstSlot).ref := by decide
  have hstart : startDir firstSlot [slash, slash, 97, slash] rootTable = .ok (firstSlot, rootStart) :=
    rfl
  have hparent : nameiparent smallSuper firstSlot [slash, slash, 97, slash] rootTable =
      .ok (some (firstSlot, [97]), rootParent) := by
    rw [nameiparent, namex, bind_of_ok hstart]
    exact (parent_iff helem).2 ⟨rfl, rootStart, rootLocked, .here, rfl, rfl, rfl⟩
  have hagree := (path_lookups_agree rootTable_quiescent (by decide) hcwd (by decide) _).2 [] [97] helem
  exact ⟨helem, (hagree.2 firstSlot).2 ⟨firstSlot, [97], rootParent,
    after smallSuper (.ilock firstSlot) rootParent, _, 0, hparent, rfl, rfl⟩⟩

end Xv6MallocLab.FileSystem
