import Xv6MallocLab.GrepMatch
import Xv6MallocLab.UserStores

/-!
# The lines that grep prints

`grep` reads a file in pieces, as long as `read` makes them, into a buffer of 1024 bytes
and moves the last, unfinished line to the front.  It stops when `read` returns 0, also
when the buffer is full.
-/

namespace Xv6MallocLab.Grep

open ByteMemory Function List
open Paging (memmove)

def newline : UInt8 := 10

/-- `strchr`: no result without fuel, and `some none` for a null pointer. -/
def strchr (m : Memory) (fuel s : ℕ) (c : UInt8) : Option (Option ℕ) := do
  let s ← scanBytes (fun x => x != 0 && x != c) m fuel s
  return if m s = 0 then none else some s

def lineLoop (re fuel : ℕ) : ℕ → Memory → ℕ → List UInt8 → Option (Memory × ℕ × List UInt8)
  | 0, _, _, _ => none
  | k + 1, m, p, out => do
      match ← strchr m fuel p newline with
      | none => return (m, p, out)
      | some q => do
          let m := update m q 0
          if ← match_ m fuel re p then
            let m := update m q newline
            lineLoop re fuel k m (q + 1) (out ++ (List.range (q + 1 - p)).map fun i => m (p + i))
          else lineLoop re fuel k m (q + 1) out

/-- The outer loop.  The next `read` would return `want 0` bytes; it gives at least one, and
no more than there are and were asked for. -/
def grepLoop (re buf fuel : ℕ) : ℕ → (ℕ → ℕ) → Memory → ℕ → List UInt8 → List UInt8 →
    Option (List UInt8)
  | 0, _, _, _, _, _ => none
  | k + 1, want, mem, m, file, out => do
      let n := min (max (want 0) 1) (min (1024 - m - 1) file.length)
      if n = 0 then return out
      else do
        let mem := memmove mem (buf + m) (fun j => file.getD j 0) n
        let m := m + n
        let mem := update mem (buf + m) 0
        let (mem, p, out) ← lineLoop re fuel fuel mem buf out
        let m := m - (p - buf)
        let mem := memmove mem buf (fun j => mem (p + j)) m
        grepLoop re buf fuel k (fun i => want (i + 1)) mem m (file.drop n) out

/-- The output of `grep` on a file that `read` delivers in pieces. -/
def grep (re buf fuel k : ℕ) (want : ℕ → ℕ) (mem : Memory) (file : List UInt8) :
    Option (List UInt8) :=
  grepLoop re buf fuel k want mem 0 file []

/-- The lines of a file, each with its newline; the last one may have none. -/
def fileLines : List UInt8 → List (List UInt8)
  | [] => []
  | c :: t =>
    if c = newline then [newline] :: fileLines t
    else match fileLines t with
      | [] => [[c]]
      | l :: ls => (c :: l) :: ls

def lineText (l : List UInt8) : List UInt8 := l.takeWhile (· != newline)

def Fits (l : List UInt8) : Prop := l.getLast? = some newline ∧ l.length ≤ 1023

instance : DecidablePred Fits := fun _ => inferInstanceAs (Decidable (_ ∧ _))

open Classical in
noncomputable def matching (re : List UInt8) (ls : List (List UInt8)) : List UInt8 :=
  (ls.filter fun l => Found re (lineText l)).flatten

variable {re s t w file : List UInt8}

theorem fileLines_ended (hw : newline ∉ w) :
    fileLines (w ++ newline :: t) = (w ++ [newline]) :: fileLines t := by
  induction w with
  | nil => exact if_pos rfl
  | cons c w ih =>
    rw [mem_cons, not_or] at hw
    rw [cons_append, fileLines, if_neg (Ne.symm hw.1), ih hw.2]
    rfl

theorem fileLines_unended (hw : newline ∉ w) (hne : w ≠ []) : fileLines w = [w] := by
  induction w with
  | nil => exact absurd rfl hne
  | cons c w ih =>
    rw [mem_cons, not_or] at hw
    rw [fileLines, if_neg (Ne.symm hw.1)]
    cases w with
    | nil => rfl
    | cons d w => rw [ih hw.2 (cons_ne_nil d w)]

theorem lineText_ended (hw : newline ∉ w) : lineText (w ++ [newline]) = w := by
  refine (takeWhile_append_stop (fun c hc => ?_) fun c hc => ?_).1
  · exact bne_iff_ne.2 fun heq => hw (heq ▸ hc)
  · cases hc
    rfl

theorem fileLines_ne_nil (file : List UInt8) : ∀ l ∈ fileLines file, l ≠ [] := by
  induction file with
  | nil => exact nofun
  | cons c t ih =>
    rw [fileLines]
    split_ifs with hc
    · intro l hl
      rcases mem_cons.1 hl with rfl | hl
      · exact cons_ne_nil _ _
      · exact ih l hl
    · cases hrest : fileLines t with
      | nil =>
        intro l hl
        rw [mem_singleton.1 hl]
        exact cons_ne_nil _ _
      | cons d ls =>
        intro l hl
        rcases mem_cons.1 hl with rfl | hl
        · exact cons_ne_nil _ _
        · exact ih l (hrest ▸ mem_cons_of_mem d hl)

def served (file : List UInt8) : List (List UInt8) := (fileLines file).takeWhile (Fits ·)

theorem matching_append (re : List UInt8) (ls ls' : List (List UInt8)) :
    matching re (ls ++ ls') = matching re ls ++ matching re ls' := by
  unfold matching
  rw [filter_append, flatten_append]

open Classical in
theorem matching_eq_nil {ls : List (List UInt8)} (hne : ∀ l ∈ ls, l ≠ []) :
    matching re ls = [] ↔ ∀ l ∈ ls, ¬Found re (lineText l) := by
  unfold matching
  rw [flatten_eq_nil_iff]
  constructor
  · intro h l hl hfound
    exact hne l hl (h l (mem_filter.2 ⟨hl, decide_eq_true hfound⟩))
  · intro h l hl
    obtain ⟨hl, hfound⟩ := mem_filter.1 hl
    exact absurd (of_decide_eq_true hfound) (h l hl)

theorem matching_found (hw : newline ∉ w) (hfound : Found re w) :
    matching re [w ++ [newline]] = w ++ [newline] := by
  unfold matching
  rw [filter_cons_of_pos (by simpa [lineText_ended hw] using hfound)]
  exact append_nil _

theorem matching_not_found (hw : newline ∉ w) (hfound : ¬Found re w) :
    matching re [w ++ [newline]] = [] := by
  unfold matching
  rw [filter_cons_of_neg (by simpa [lineText_ended hw] using hfound)]
  rfl

theorem matching_served_iff :
    matching re (served file) = matching re (fileLines file) ↔
      ∀ l ∈ (fileLines file).dropWhile (Fits ·), ¬Found re (lineText l) := by
  have hsplit : matching re (fileLines file) =
      matching re (served file) ++ matching re ((fileLines file).dropWhile (Fits ·)) := by
    rw [← matching_append, served, takeWhile_append_dropWhile]
  have hne : ∀ l ∈ (fileLines file).dropWhile (Fits ·), l ≠ [] := fun l hl =>
    fileLines_ne_nil file l ((dropWhile_suffix _).subset hl)
  rw [← matching_eq_nil hne, hsplit]
  constructor
  · exact fun h => self_eq_append_right.1 h
  · exact fun h => self_eq_append_right.2 h

theorem served_line (hw : newline ∉ w) (hlen : w.length < 1023) :
    served (w ++ newline :: t) = (w ++ [newline]) :: served t := by
  have hfits : Fits (w ++ [newline]) := by
    refine ⟨getLast?_concat, ?_⟩
    rw [length_append, length_singleton]
    omega
  rw [served, fileLines_ended hw, takeWhile_cons_of_pos (by simpa using hfits)]
  rfl

theorem served_unended (hw : newline ∉ w) : served w = [] := by
  by_cases hne : w = []
  · rw [hne]
    rfl
  · have hfits : ¬Fits w := fun h => hw (mem_of_getLast? h.1)
    rw [served, fileLines_unended hw hne, takeWhile_cons_of_neg (by simpa using hfits)]

theorem served_long (hw : newline ∉ w) (hlen : 1023 ≤ w.length) : served (w ++ t) = [] := by
  by_cases ht : newline ∈ t
  · obtain ⟨u, r, rfl, hu⟩ := eq_append_cons_of_mem ht
    have hwu : newline ∉ w ++ u := by
      rw [mem_append, not_or]
      exact ⟨hw, hu⟩
    have hfits : ¬Fits (w ++ u ++ [newline]) := by
      intro h
      have hlong := h.2
      rw [length_append, length_append, length_singleton] at hlong
      omega
    rw [← append_assoc, served, fileLines_ended hwu, takeWhile_cons_of_neg (by simpa using hfits)]
  · apply served_unended
    rw [mem_append, not_or]
    exact ⟨hw, ht⟩

section InnerLoop

variable {m : Memory} {p r : ℕ}

theorem strchr_none (h : CString m p s) (hs : newline ∉ s) {fuel : ℕ} (hfuel : s.length < fuel) :
    strchr m fuel p newline = some none := by
  have hall : s.takeWhile (fun x => x != 0 && x != newline) = s := by
    rw [takeWhile_eq_self_iff]
    intro c hc
    have hc' : c ≠ newline := fun heq => hs (heq ▸ hc)
    rw [bne_iff_ne.2 (h.ne_zero c hc), bne_iff_ne.2 hc']
    rfl
  rw [strchr, h.scanBytes_eq (fun x => x != 0 && x != newline) rfl fuel hfuel, hall]
  dsimp only [bind, Option.bind]
  rw [if_pos h.nul]
  rfl

theorem strchr_some (h : CString m p (w ++ newline :: t)) (hw : newline ∉ w) {fuel : ℕ}
    (hfuel : (w ++ newline :: t).length < fuel) :
    strchr m fuel p newline = some (some (p + w.length)) := by
  have hword : (w ++ newline :: t).takeWhile (fun x => x != 0 && x != newline) = w := by
    refine (takeWhile_append_stop (fun c hc => ?_) fun c hc => ?_).1
    · have hc' : c ≠ newline := fun heq => hw (heq ▸ hc)
      rw [bne_iff_ne.2 (h.ne_zero c (mem_append_left _ hc)), bne_iff_ne.2 hc']
      rfl
    · cases hc
      rfl
  have hfound : m (p + w.length) ≠ 0 := by
    cases h.append_right with
    | cons hc hne _ => exact hc ▸ hne
  rw [strchr, h.scanBytes_eq (fun x => x != 0 && x != newline) rfl fuel hfuel, hword]
  dsimp only [bind, Option.bind]
  rw [if_neg hfound]
  rfl

/-- What the inner loop leaves of the string `s` at `p`: the unfinished line `t` at `p'`. -/
structure LinesDone (re : List UInt8) (m : Memory) (p : ℕ) (s : List UInt8) (m' : Memory) (p' : ℕ)
    (t out : List UInt8) : Prop where
  string : CString m' p' t
  unended : newline ∉ t
  start : p ≤ p'
  stop : p' + t.length = p + s.length
  frame : ∀ a, ¬(p ≤ a ∧ a < p + s.length) → m' a = m a
  printed : ∀ rest, matching re (served (s ++ rest)) = out ++ matching re (served (t ++ rest))

def Clear (r : ℕ) (re : List UInt8) (p n : ℕ) : Prop := r + re.length < p ∨ p + n ≤ r

theorem clear_congr {m' : Memory} {n : ℕ} (hre : CString m r re) (hclear : Clear r re p n)
    (hframe : ∀ a, ¬(p ≤ a ∧ a < p + n) → m' a = m a) : CString m' r re := by
  refine hre.congr fun a hlo hhi => hframe a ?_
  rcases hclear with h | h <;> omega

theorem lineLoop_round (hstr : CString m p (w ++ newline :: t)) (hw : newline ∉ w)
    (hre : CString m r re) (hclear : Clear r re p (w ++ newline :: t).length) :
    ∃ m1, (∀ a, a ≠ p + w.length → m1 a = m a) ∧
      ∀ fuel k out, re.length + (w ++ newline :: t).length + 1 < fuel →
        lineLoop r fuel (k + 1) m p out =
          lineLoop r fuel k m1 (p + w.length + 1) (out ++ matching re [w ++ [newline]]) := by
  have hsum : (w ++ newline :: t).length = w.length + 1 + t.length := by
    rw [length_append, length_cons]
    omega
  set q := p + w.length with hq
  have hsame : ∀ a, a ≠ q → update m q 0 a = m a := fun a ha => update_of_ne ha ..
  have hre' : CString (update m q 0) r re :=
    clear_congr hre hclear fun a ha => hsame a (by omega)
  have hmatch : ∀ fuel, re.length + (w ++ newline :: t).length + 1 < fuel →
      Answers (match_ (update m q 0) fuel r p) (Found re w) :=
    fun fuel hfuel => match_answers hre' hstr.cut (by omega)
  by_cases hfound : Found re w
  · set m1 := update (update m q 0) q newline with hm1
    have hsame1 : ∀ a, a ≠ q → m1 a = m a := fun a ha => by
      rw [hm1, update_of_ne ha, hsame a ha]
    have hline : (List.range (q + 1 - p)).map (fun i => m1 (p + i)) = w ++ [newline] := by
      have hcount : q + 1 - p = w.length + 1 := by omega
      rw [hcount, range_succ, map_append]
      congr 1
      · refine ext_getElem (by simp) fun i hi hi' => ?_
        rw [getElem_map, getElem_range, hsame1 _ (by omega),
          hstr.getElem (by omega), getElem_append_left hi']
      · rw [map_singleton, ← hq, hm1, update_self]
    refine ⟨m1, hsame1, fun fuel k out hfuel => ?_⟩
    obtain ⟨b, hb, hiff⟩ := hmatch fuel hfuel
    rw [lineLoop, strchr_some hstr hw (by omega)]
    dsimp only [bind, Option.bind]
    rw [hb, hiff.2 hfound, matching_found hw hfound, ← hline]
    rfl
  · refine ⟨update m q 0, hsame, fun fuel k out hfuel => ?_⟩
    obtain ⟨b, hb, hiff⟩ := hmatch fuel hfuel
    rw [lineLoop, strchr_some hstr hw (by omega)]
    dsimp only [bind, Option.bind]
    rw [hb, Bool.eq_false_iff.2 fun h => hfound (hiff.1 h), matching_not_found hw hfound,
      append_nil]
    rfl

theorem lineLoop_spec (hstr : CString m p s) (hre : CString m r re) (hclear : Clear r re p s.length)
    (hlen : s.length ≤ 1023) :
    ∃ m' p' t printed, LinesDone re m p s m' p' t printed ∧
      ∀ fuel k out, re.length + 1024 < fuel → s.length < k →
        lineLoop r fuel k m p out = some (m', p', out ++ printed) := by
  induction hn : s.length using Nat.strong_induction_on generalizing s m p with
  | h n ih =>
    subst hn
    by_cases hs : newline ∈ s
    · obtain ⟨w, t, rfl, hw⟩ := eq_append_cons_of_mem hs
      obtain ⟨m1, hsame, hround⟩ := lineLoop_round hstr hw hre hclear
      have hsum : (w ++ newline :: t).length = w.length + 1 + t.length := by
        rw [length_append, length_cons]
        omega
      have hrest : CString m1 (p + w.length + 1) t := by
        cases hstr.append_right with
        | cons _ _ h => exact h.congr fun a hlo _ => hsame a (by omega)
      have hre1 : CString m1 r re := clear_congr hre hclear fun a ha => hsame a (by omega)
      have hclear1 : Clear r re (p + w.length + 1) t.length := by
        rcases hclear with h | h
        · exact Or.inl (by omega)
        · exact Or.inr (by omega)
      obtain ⟨m', p', t', printed, hdone, hloop⟩ :=
        ih t.length (by omega) hrest hre1 hclear1 (by omega) rfl
      have hstop := hdone.stop
      have hstart := hdone.start
      refine ⟨m', p', t', matching re [w ++ [newline]] ++ printed,
        ⟨hdone.string, hdone.unended, by omega, by omega, fun a ha => ?_, fun rest => ?_⟩,
        fun fuel k out hfuel hk => ?_⟩
      · rw [hdone.frame a (by omega), hsame a (by omega)]
      · rw [append_assoc, cons_append, served_line hw (by omega), append_assoc,
          ← hdone.printed rest, ← matching_append]
        rfl
      · obtain ⟨k, rfl⟩ := Nat.exists_eq_succ_of_ne_zero (Nat.ne_of_gt (Nat.zero_lt_of_lt hk))
        rw [hround fuel k out (by omega), hloop fuel k _ hfuel (by omega), append_assoc]
    · refine ⟨m, p, s, [], ⟨hstr, hs, le_rfl, rfl, fun _ _ => rfl, fun rest => rfl⟩, ?_⟩
      intro fuel k out hfuel hk
      obtain ⟨k, rfl⟩ := Nat.exists_eq_succ_of_ne_zero (Nat.ne_of_gt (Nat.zero_lt_of_lt hk))
      rw [lineLoop, strchr_none hstr hs (by omega), append_nil]
      rfl

end InnerLoop

section OuterLoop

variable {mem : Memory} {r buf n : ℕ} {tail : List UInt8}

theorem read_string (htail : ∀ i (hi : i < tail.length), mem (buf + i) = tail[i])
    (hnul : ∀ c ∈ tail ++ file, c ≠ 0) (hn : n ≤ file.length) :
    CString (update (memmove mem (buf + tail.length) (fun j => file.getD j 0) n)
      (buf + (tail.length + n)) 0) buf (tail ++ file.take n) := by
  have hlen : (file.take n).length = n := length_take_of_le hn
  refine CString.of_bytes (fun i hi => ?_) (fun c hc => hnul c ?_) ?_
  · rw [length_append, hlen] at hi
    rw [update_of_ne (by omega), memmove]
    by_cases hold : i < tail.length
    · rw [if_neg (by omega), htail i hold, getElem_append_left hold]
    · have hidx : buf + i - (buf + tail.length) = i - tail.length := by omega
      rw [if_pos (by omega), hidx, getElem_append_right (by omega), getElem_take,
        getD_eq_getElem?_getD, getElem?_eq_getElem (by omega), Option.getD_some]
  · rcases mem_append.1 hc with hc | hc
    · exact mem_append_left file hc
    · exact mem_append_right tail (mem_of_mem_take hc)
  · rw [length_append, hlen, update_self]

theorem grepLoop_spec {fuel : ℕ} (hfuel : re.length + 1024 < fuel) (hclear : Clear r re buf 1024)
    (k : ℕ) : ∀ {want : ℕ → ℕ} {mem : Memory} {tail file out : List UInt8}, CString mem r re →
      (∀ i (hi : i < tail.length), mem (buf + i) = tail[i]) → newline ∉ tail → tail.length ≤ 1023 →
      (∀ c ∈ tail ++ file, c ≠ 0) → file.length < k →
      grepLoop r buf fuel k want mem tail.length file out =
        some (out ++ matching re (served (tail ++ file))) := by
  induction k with
  | zero => exact fun _ _ _ _ _ hk => absurd hk (Nat.not_lt_zero _)
  | succ k ih =>
    intro want mem tail file out hre htail hended hfull hnul hk
    rw [grepLoop]
    set n := min (max (want 0) 1) (min (1024 - tail.length - 1) file.length) with hn
    by_cases hzero : n = 0
    · -- the buffer is full or the file at its end
      have hserved : served (tail ++ file) = [] := by
        by_cases hfile : file = []
        · rw [hfile, append_nil, served_unended hended]
        · have hpos := length_pos_iff.2 hfile
          exact served_long hended (by omega)
      rw [if_pos hzero, hserved]
      exact congrArg some (append_nil out).symm
    · have hfile : n ≤ file.length := by omega
      have hroom : tail.length + n ≤ 1023 := by omega
      have hsum : (tail ++ file.take n).length = tail.length + n := by
        rw [length_append, length_take_of_le hfile]
      have hstr := read_string htail hnul hfile
      set mem1 := update (memmove mem (buf + tail.length) (fun j => file.getD j 0) n)
        (buf + (tail.length + n)) 0 with hmem1
      have hre1 : CString mem1 r re := by
        refine clear_congr hre hclear fun a ha => ?_
        rw [hmem1, update_of_ne (by omega)]
        exact if_neg (by omega)
      have hclear1 : Clear r re buf (tail ++ file.take n).length := by
        rcases hclear with h | h
        · exact Or.inl h
        · exact Or.inr (by omega)
      obtain ⟨mem2, p, t, printed, hdone, hloop⟩ := lineLoop_spec hstr hre1 hclear1 (by omega)
      have hstop := hdone.stop
      have hstart := hdone.start
      have hleft : tail.length + n - (p - buf) = t.length := by omega
      rw [if_neg hzero]
      dsimp only
      rw [← hmem1, hloop fuel fuel out hfuel (by omega)]
      dsimp only [bind, Option.bind]
      rw [hleft, ih]
      · have hwhole : tail ++ file = tail ++ file.take n ++ file.drop n := by
          rw [append_assoc, take_append_drop]
        rw [hwhole, hdone.printed, append_assoc]
      · refine clear_congr (clear_congr hre1 hclear1 hdone.frame) hclear fun a ha => ?_
        exact if_neg (by omega)
      · intro i hi
        rw [memmove, if_pos (by omega), Nat.add_sub_cancel_left, hdone.string.getElem hi]
      · exact hdone.unended
      · omega
      · intro c hc
        rcases mem_append.1 hc with hc | hc
        · exact hdone.string.ne_zero c hc
        · exact hnul c (mem_append_right tail (mem_of_mem_drop hc))
      · rw [length_drop]
        omega

/-- However the file arrives, `grep` prints the lines that match if and only if no line
matches from the first one on that does not fit the buffer or has no newline. -/
theorem grep_prints_matching_iff (hre : CString mem r re) (hclear : Clear r re buf 1024)
    (hnul : ∀ c ∈ file, c ≠ 0) (want : ℕ → ℕ) :
    ∃ out, (∀ fuel k, re.length + 1024 < fuel → file.length < k →
        grep r buf fuel k want mem file = some out) ∧
      (out = matching re (fileLines file) ↔
        ∀ l ∈ (fileLines file).dropWhile (Fits ·), ¬Found re (lineText l)) := by
  refine ⟨matching re (served file), fun fuel k hfuel hk => ?_, matching_served_iff⟩
  have hempty : ∀ i (hi : i < ([] : List UInt8).length), mem (buf + i) = [].get ⟨i, hi⟩ := nofun
  exact grepLoop_spec hfuel hclear k hre hempty nofun (by decide) hnul hk

theorem grep_prints_matching_iff_two_lines :
    let mem : Memory := fun a => if a = 1024 then 98 else 0
    ∃ out, (∀ fuel k, 1025 < fuel → 4 < k →
        grep 1024 0 fuel k (fun _ => 1) mem [97, 10, 98, 10] = some out) ∧
      out = matching [98] (fileLines [97, 10, 98, 10]) := by
  intro mem
  have hre : CString mem 1024 [98] := .cons rfl (by decide) (.nil rfl)
  have hclear : Clear 1024 [98] 0 1024 := Or.inr (by decide)
  have hnul : ∀ c ∈ ([97, 10, 98, 10] : List UInt8), c ≠ 0 := by simp
  obtain ⟨out, hrun, hiff⟩ := grep_prints_matching_iff hre hclear hnul (fun _ => 1)
  have hall : (fileLines [97, 10, 98, 10]).dropWhile (Fits ·) = [] := by decide
  refine ⟨out, hrun, hiff.2 ?_⟩
  rw [hall]
  exact nofun

/-- The last line matches, and `grep` prints nothing. -/
theorem last_line_not_printed :
    let mem : Memory := fun a => if a = 1024 then 97 else 0
    CString mem 1024 [97] ∧ grep 1024 0 3 3 (fun _ => 1) mem [97] = some [] ∧
      matching [97] (fileLines [97]) ≠ [] := by
  intro mem
  refine ⟨.cons rfl (by decide) (.nil rfl), by decide, fun hnil => ?_⟩
  have hfound : Found [97] (lineText [97]) := ⟨[], [97], [], rfl, .char (Or.inr rfl) .nil⟩
  exact (matching_eq_nil (by decide)).1 hnil [97] mem_cons_self hfound

end OuterLoop

end Xv6MallocLab.Grep
