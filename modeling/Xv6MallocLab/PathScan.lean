import Xv6MallocLab.CStrings
import Xv6MallocLab.PathLookup
import Xv6MallocLab.UserStores

/-!
# Splitting a path in memory

`skipelem` as it goes over the bytes of a path and fills the caller's `name`, which it
leaves without a NUL when the element is `DIRSIZ` bytes or longer.
-/

namespace Xv6MallocLab.FileSystem

open ByteMemory Function List
open Paging (memmove)

namespace PathScan

/-- The element in `name`.  `len` is an `int`, and `memmove` takes it as a `uint`. -/
def fill (m : Memory) (s name : ℕ) (len : Int32) : Memory :=
  if (dirsiz : ℤ) ≤ len.toInt then memmove m name (fun j => m (s + j)) dirsiz
  else update (memmove m name (fun j => m (s + j)) len.toUInt32.toNat)
    (name + len.toInt).toNat 0

/-- `skipelem`, each loop with `fuel` rounds: the pointer it returns, and the memory with
`name` filled in. -/
def skipelem (fuel : ℕ) (m : Memory) (path name : ℕ) : Option (Option (ℕ × Memory)) := do
  let s ← scanBytes (· == slash) m fuel path
  if m s = 0 then return none
  else do
    let path ← scanBytes (fun c => c != slash && c != 0) m fuel s
    let m := fill m s name (Int32.ofNat (path - s))
    let path ← scanBytes (· == slash) m fuel path
    return some (path, m)

/-- `skipelem` until it returns 0: what each call before returned. -/
def split (fuel : ℕ) : ℕ → Memory → ℕ → ℕ → Option (List (ℕ × Memory))
  | 0, _, _, _ => none
  | c + 1, m, path, name => do
      match ← skipelem fuel m path name with
      | none => return []
      | some (rest, m) => do
          let calls ← split fuel c m rest name
          return (rest, m) :: calls

end PathScan

structure NameHolds (m : Memory) (name : ℕ) (w : Path) : Prop where
  bytes : ∀ j (hj : j < w.length), j < dirsiz → m (name + j) = w[j]
  nul : w.length < dirsiz → m (name + w.length) = 0

def Apart (p n name : ℕ) : Prop := name + dirsiz ≤ p ∨ p + n < name

structure Skips (m : Memory) (path : ℕ) (l : Path) (name p' : ℕ) (m' : Memory) (w rest : Path) :
    Prop where
  string : CString m' p' rest
  pointer : p' + rest.length = path + l.length
  shorter : rest.length < l.length
  held : NameHolds m' name w
  frame : ∀ a, ¬(name ≤ a ∧ a < name + dirsiz) → m' a = m a
  head : rest.head? ≠ some slash
  runs : runs l = w :: runs rest

variable {m : Memory} {path name : ℕ} {l : Path}

theorem length_takeWhile_add (p : UInt8 → Bool) (l : List UInt8) :
    (l.takeWhile p).length + (l.dropWhile p).length = l.length := by
  rw [← length_append, takeWhile_append_dropWhile]

def fillName (m : Memory) (s len name : ℕ) : Memory :=
  if dirsiz ≤ len then memmove m name (fun j => m (s + j)) dirsiz
  else update (memmove m name (fun j => m (s + j)) len) (name + len) 0

theorem fill_eq_fillName {s len : ℕ} (hlen : len < 2 ^ 31) :
    PathScan.fill m s name (Int32.ofNat len) = fillName m s len name := by
  have hint : (Int32.ofNat len).toInt = len := Int32.toInt_ofNat_of_lt hlen
  have huint : (Int32.ofNat len).toUInt32.toNat = len := by
    rw [← UInt32.toNat_toBitVec]
    exact Nat.mod_eq_of_lt (by omega)
  have haddr : ((name : ℤ) + len).toNat = name + len := by omega
  unfold PathScan.fill fillName
  rw [hint, huint, haddr]
  simp only [Nat.cast_le]

theorem fillName_frame {s len a : ℕ} (ha : ¬(name ≤ a ∧ a < name + dirsiz)) :
    fillName m s len name a = m a := by
  unfold fillName
  split_ifs with hlen
  · exact if_neg ha
  · rw [update_of_ne (by omega)]
    exact if_neg (by omega)

theorem fillName_holds {s : ℕ} {w : Path} (hw : ∀ j (hj : j < w.length), m (s + j) = w[j]) :
    NameHolds (fillName m s w.length name) name w := by
  unfold fillName
  split_ifs with hlen
  · refine ⟨fun j hj hdir => ?_, fun hshort => absurd hlen (Nat.not_le.2 hshort)⟩
    rw [memmove, if_pos (by omega), Nat.add_sub_cancel_left, hw j hj]
  · refine ⟨fun j hj hdir => ?_, fun _ => update_self ..⟩
    rw [update_of_ne (by omega), memmove, if_pos (by omega), Nat.add_sub_cancel_left, hw j hj]

theorem inWord_append {w t : Path} (hw : ∀ c ∈ w, c ≠ slash) (hw0 : ∀ c ∈ w, c ≠ 0)
    (ht : t = [] ∨ t.head? = some slash) :
    (w ++ t).takeWhile (fun c => c != slash && c != 0) = w ∧
      (w ++ t).dropWhile (fun c => c != slash && c != 0) = t := by
  have hpass : ∀ c ∈ w, (c != slash && c != 0) = true := by
    intro c hc
    rw [bne_iff_ne.2 (hw c hc), bne_iff_ne.2 (hw0 c hc)]
    rfl
  refine takeWhile_append_stop hpass fun c hc => ?_
  rcases ht with rfl | hslash
  · cases hc
  · rw [hslash] at hc
    cases hc
    rfl

theorem head?_dropWhile_slash (t : Path) : (t.dropWhile (· == slash)).head? ≠ some slash := by
  intro hslash
  have hrest := ne_nil_of_mem (mem_of_mem_head? hslash)
  have hstop := head_dropWhile_not (· == slash) hrest
  rw [head?_eq_some_head hrest] at hslash
  rw [Option.some.inj hslash] at hstop
  cases hstop

theorem PathScan.skipelem_spec (h : CString m path l) (hint : l.length < 2 ^ 31)
    (hapart : Apart path l.length name) :
    (runs l = [] ∧ ∀ fuel, l.length < fuel → PathScan.skipelem fuel m path name = some none) ∨
      ∃ p' m' w rest, Skips m path l name p' m' w rest ∧
        ∀ fuel, l.length < fuel → PathScan.skipelem fuel m path name = some (some (p', m')) := by
  have hscan := h.scanBytes_eq (· == slash) rfl
  have hstr := h.drop (· == slash)
  have hlen := length_takeWhile_add (· == slash) l
  set s := path + (l.takeWhile (· == slash)).length with hs
  cases hskip : FileSystem.skipelem l with
  | none =>
    have hnil := skipelem_none.1 hskip
    rw [hnil] at hstr
    refine Or.inl ⟨by rw [← runs_dropWhile, hnil]; rfl, fun fuel hfuel => ?_⟩
    rw [PathScan.skipelem, hscan fuel hfuel]
    exact if_pos hstr.nul
  | some r =>
    obtain ⟨w, t, hpath, hw, hne, ht, -, -⟩ := skipelem_some hskip
    rw [hpath] at hstr hlen
    rw [length_append] at hlen
    have hw0 : ∀ c ∈ w, c ≠ 0 := fun c hc => hstr.ne_zero c (mem_append_left t hc)
    have hbytes : ∀ j (hj : j < w.length), m (s + j) = w[j] := by
      intro j hj
      rw [hstr.getElem (by rw [length_append]; omega), getElem_append_left hj]
    have hpos := length_pos_iff.2 hne
    have hstart : m s ≠ 0 := by
      have hfirst := hbytes 0 hpos
      rw [Nat.add_zero] at hfirst
      rw [hfirst]
      exact hw0 _ (getElem_mem _)
    obtain ⟨htake, hdrop⟩ := inWord_append hw hw0 ht
    have hscan' := hstr.scanBytes_eq (fun c => c != slash && c != 0) rfl
    have htail := hstr.drop (fun c => c != slash && c != 0)
    rw [htake] at hscan' htail
    rw [hdrop] at htail
    -- the bytes behind the element are not those that `name` gets
    have hstr' : CString (fillName m s w.length name) (s + w.length) t := by
      refine htail.congr fun a hlo hhi => fillName_frame ?_
      rcases hapart with hap | hap <;> omega
    have hscan'' := hstr'.scanBytes_eq (· == slash) rfl
    have hlen' := length_takeWhile_add (· == slash) t
    refine Or.inr ⟨_, _, w, _, ⟨hstr'.drop (· == slash), ?_, ?_, fillName_holds hbytes,
      fun a ha => fillName_frame ha, head?_dropWhile_slash t, runs_of_dropWhile hpath hw hne ht⟩,
      fun fuel hfuel => ?_⟩
    · omega
    · omega
    · rw [PathScan.skipelem, hscan fuel hfuel]
      dsimp only [bind, Option.bind]
      rw [if_neg hstart, hscan' fuel (by rw [length_append]; omega)]
      dsimp only
      rw [Nat.add_sub_cancel_left, fill_eq_fillName (by omega), hscan'' fuel (by omega)]
      rfl

theorem runs_eq_nil (hhead : l.head? ≠ some slash) : runs l = [] ↔ l = [] := by
  constructor
  · intro hruns
    have hdrop := skipelem_none.1 (elements_eq_nil.1 (by rw [elements_eq_runs, hruns]; rfl))
    cases l with
    | nil => rfl
    | cons c t =>
      rwa [dropWhile_cons_of_neg] at hdrop
      simpa using fun hc : c = slash => hhead (by rw [hc]; rfl)
  · rintro rfl
    rfl

theorem Skips.pointer_spec {p' : ℕ} {m' : Memory} {w rest : Path}
    (h : Skips m path l name p' m' w rest) (hapart : Apart path l.length name) :
    path ≤ p' ∧ p' ≤ path + l.length ∧ m p' ≠ slash ∧ (p' = path + l.length ↔ m p' = 0) ∧
      (p' = path + l.length ↔ FileSystem.runs rest = []) := by
  have hptr := h.pointer
  have hshort := h.shorter
  have hsame : m' p' = m p' := h.frame p' (by rcases hapart with hap | hap <;> omega)
  rw [runs_eq_nil h.head, ← hsame]
  refine ⟨by omega, by omega, ?_⟩
  cases hstr : h.string with
  | nil hnul =>
    rw [length_nil] at hptr
    rw [hnul]
    exact ⟨by decide, iff_of_true hptr rfl, iff_of_true hptr rfl⟩
  | @cons _ c rest hc hne hl =>
    rw [length_cons] at hptr
    rw [hc]
    refine ⟨fun hslash => h.head (by rw [hslash]; rfl), ?_, ?_⟩
    · exact iff_of_false (by omega) hne
    · exact iff_of_false (by omega) (cons_ne_nil _ _)

/-- Calls until `skipelem` returns 0 give the runs of the path, one after the other.  The
length is an `int`: no string in 128 MB of memory is longer. -/
theorem path_splits_into_runs (h : CString m path l) (hint : l.length < 2 ^ 31)
    (hapart : Apart path l.length name) :
    ∃ calls, (∀ fuel c, l.length < fuel → l.length < c →
        PathScan.split fuel c m path name = some calls) ∧
      List.Forall₂ (fun call w => NameHolds call.2 name w) calls (runs l) ∧
      ∀ i (hi : i < calls.length), path ≤ calls[i].1 ∧ calls[i].1 ≤ path + l.length ∧
        m calls[i].1 ≠ slash ∧
        (calls[i].1 = path + l.length ↔ m calls[i].1 = 0) ∧
        (calls[i].1 = path + l.length ↔ i + 1 = calls.length) := by
  induction hn : l.length using Nat.strong_induction_on generalizing l m path with
  | h n ih =>
    subst hn
    rcases PathScan.skipelem_spec h hint hapart with ⟨hruns, hcall⟩ | ⟨p', m', w, rest, hskip, hcall⟩
    · refine ⟨[], fun fuel c hfuel hc => ?_, ?_, fun i hi => absurd hi (Nat.not_lt_zero i)⟩
      · obtain ⟨c, rfl⟩ := Nat.exists_eq_succ_of_ne_zero (Nat.ne_of_gt (Nat.zero_lt_of_lt hc))
        rw [PathScan.split, hcall fuel hfuel]
        rfl
      · rw [hruns]
        exact .nil
    · have hptr := hskip.pointer
      have hshort := hskip.shorter
      have hapart' : Apart p' rest.length name := by
        rcases hapart with hap | hap
        · exact Or.inl (by omega)
        · exact Or.inr (by omega)
      obtain ⟨calls, hsplit, hnames, hptrs⟩ := ih rest.length hshort hskip.string (by omega) hapart' rfl
      have hlen := hnames.length_eq
      refine ⟨(p', m') :: calls, fun fuel c hfuel hc => ?_, ?_, fun i hi => ?_⟩
      · obtain ⟨c, rfl⟩ := Nat.exists_eq_succ_of_ne_zero (Nat.ne_of_gt (Nat.zero_lt_of_lt hc))
        rw [PathScan.split, hcall fuel hfuel]
        dsimp only [bind, Option.bind]
        rw [hsplit fuel c (by omega) (by omega)]
        rfl
      · rw [hskip.runs]
        exact .cons hskip.held hnames
      · cases i with
        | zero =>
          obtain ⟨hlo, hhi, hslash, hzero, hlast⟩ := hskip.pointer_spec hapart
          refine ⟨hlo, hhi, hslash, hzero, hlast.trans ?_⟩
          rw [← length_eq_zero_iff, ← hlen, length_cons]
          omega
        | succ i =>
          have hi' : i < calls.length := Nat.lt_of_succ_lt_succ hi
          obtain ⟨hlo, hhi, hslash, hzero, hlast⟩ := hptrs i hi'
          have hin : ¬(name ≤ calls[i].1 ∧ calls[i].1 < name + dirsiz) := by
            rcases hapart with hap | hap <;> omega
          rw [getElem_cons_succ, ← hskip.frame _ hin, ← hptr]
          refine ⟨by omega, hhi, hslash, hzero, hlast.trans ?_⟩
          rw [length_cons]
          omega

theorem path_splits_into_runs_usr :
    let m : Memory := fun a => ([47, 47, 117, 115, 114, 47, 97] : Path).getD (a - 64) 0
    ∃ calls, (∀ fuel c, 7 < fuel → 7 < c → PathScan.split fuel c m 64 0 = some calls) ∧
      List.Forall₂ (fun call w => NameHolds call.2 0 w) calls [[117, 115, 114], [97]] := by
  intro m
  have hstring : CString m 64 [47, 47, 117, 115, 114, 47, 97] := by
    iterate 7 refine .cons rfl (by decide) ?_
    exact .nil rfl
  have hapart : Apart 64 7 0 := Or.inl (by decide)
  obtain ⟨calls, hsplit, hnames, -⟩ := path_splits_into_runs hstring (by decide) hapart
  exact ⟨calls, hsplit, hnames⟩

end Xv6MallocLab.FileSystem
