import Mathlib.Data.List.TakeWhile
import Xv6MallocLab.ByteMemory

/-!
# Strings in memory

A C string is a run of bytes that are not 0, with a 0 behind it.  Loops that move a
pointer along one stop at the 0 at the latest.
-/

namespace Xv6MallocLab

open ByteMemory Function List

/-- The string `l` at `p`, with a 0 behind it. -/
inductive CString (m : Memory) : ℕ → List UInt8 → Prop
  | nil {p : ℕ} (hnul : m p = 0) : CString m p []
  | cons {p : ℕ} {c : UInt8} {l : List UInt8} (hc : m p = c) (hne : c ≠ 0) (hl : CString m (p + 1) l) :
      CString m p (c :: l)

namespace CString

variable {m m' : Memory} {p : ℕ} {l : List UInt8}

theorem nul (h : CString m p l) : m (p + l.length) = 0 := by
  induction h with
  | nil hnul => exact hnul
  | cons _ _ _ ih =>
    rw [length_cons, add_comm _ 1, ← add_assoc]
    exact ih

theorem ne_zero (h : CString m p l) : ∀ c ∈ l, c ≠ 0 := by
  induction h with
  | nil _ => exact nofun
  | cons _ hne _ ih =>
    intro d hd
    rcases mem_cons.1 hd with rfl | hd
    · exact hne
    · exact ih d hd

theorem getElem (h : CString m p l) {i : ℕ} (hi : i < l.length) : m (p + i) = l[i] := by
  induction h generalizing i with
  | nil _ => exact absurd hi (Nat.not_lt_zero i)
  | @cons p c l hc _ _ ih =>
    cases i with
    | zero => exact hc
    | succ i =>
      have hnext : p + (i + 1) = p + 1 + i := by omega
      rw [hnext, ih (Nat.lt_of_succ_lt_succ hi), getElem_cons_succ]

theorem congr (h : CString m p l) (hsame : ∀ a, p ≤ a → a ≤ p + l.length → m' a = m a) :
    CString m' p l := by
  induction h with
  | nil hnul => exact .nil (by rw [hsame _ le_rfl le_rfl, hnul])
  | cons hc hne _ ih =>
    rw [length_cons] at hsame
    refine .cons (by rw [hsame _ le_rfl (by omega), hc]) hne (ih fun a hlo hhi => ?_)
    exact hsame a (by omega) (by omega)

theorem of_bytes (hbytes : ∀ i (hi : i < l.length), m (p + i) = l[i]) (hne : ∀ c ∈ l, c ≠ 0)
    (hnul : m (p + l.length) = 0) : CString m p l := by
  induction l generalizing p with
  | nil => exact .nil hnul
  | cons c l ih =>
    refine .cons (hbytes 0 (Nat.zero_lt_succ _)) (hne c mem_cons_self) (ih ?_ ?_ ?_)
    · intro i hi
      have hnext : p + 1 + i = p + (i + 1) := by omega
      rw [hnext, hbytes (i + 1) (Nat.succ_lt_succ hi), getElem_cons_succ]
    · exact fun d hd => hne d (mem_cons_of_mem c hd)
    · rw [length_cons] at hnul
      rw [← hnul, add_assoc, add_comm 1]

variable {w t : List UInt8}

theorem append_right (h : CString m p (w ++ t)) : CString m (p + w.length) t := by
  induction w generalizing p with
  | nil => exact h
  | cons c w ih =>
    cases h with
    | cons hc hne hl =>
      rw [length_cons, add_comm w.length, ← add_assoc]
      exact ih hl

theorem cut {c : UInt8} (h : CString m p (w ++ c :: t)) :
    CString (update m (p + w.length) 0) p w := by
  refine of_bytes (fun i hi => ?_) (fun d hd => h.ne_zero d (mem_append_left _ hd))
    (update_self ..)
  rw [update_of_ne (by omega), h.getElem (by rw [length_append]; omega),
    getElem_append_left hi]

end CString

theorem takeWhile_append_stop {cond : UInt8 → Bool} {w t : List UInt8} (hw : ∀ c ∈ w, cond c = true)
    (ht : ∀ c ∈ t.head?, cond c = false) :
    (w ++ t).takeWhile cond = w ∧ (w ++ t).dropWhile cond = t := by
  rw [takeWhile_append_of_pos hw, dropWhile_append_of_pos hw]
  cases t with
  | nil => exact ⟨append_nil w, rfl⟩
  | cons c t =>
    have hc : ¬cond c = true := by simp [ht c rfl]
    rw [takeWhile_cons_of_neg hc, dropWhile_cons_of_neg hc]
    exact ⟨append_nil w, rfl⟩

/-- `while(cond(*p)) p++`, for fewer than `fuel` rounds. -/
def scanBytes (cond : UInt8 → Bool) (m : Memory) : ℕ → ℕ → Option ℕ
  | 0, _ => none
  | fuel + 1, p => if cond (m p) then scanBytes cond m fuel (p + 1) else some p

variable {m : Memory} {p : ℕ} {l : List UInt8}

theorem CString.drop (cond : UInt8 → Bool) (h : CString m p l) :
    CString m (p + (l.takeWhile cond).length) (l.dropWhile cond) := by
  induction h with
  | nil hnul => exact .nil hnul
  | @cons p c l hc hne hl ih =>
    cases hcase : cond c with
    | false =>
      rw [takeWhile_cons_of_neg (by simp [hcase]), dropWhile_cons_of_neg (by simp [hcase])]
      exact .cons hc hne hl
    | true =>
      have hnext : p + ((l.takeWhile cond).length + 1) = p + 1 + (l.takeWhile cond).length := by omega
      rw [takeWhile_cons_of_pos hcase, dropWhile_cons_of_pos hcase, length_cons, hnext]
      exact ih

theorem CString.scanBytes_eq (cond : UInt8 → Bool) (hcond : cond 0 = false) (h : CString m p l)
    (fuel : ℕ) (hfuel : l.length < fuel) :
    scanBytes cond m fuel p = some (p + (l.takeWhile cond).length) := by
  induction h generalizing fuel with
  | nil hnul =>
    obtain ⟨fuel, rfl⟩ := Nat.exists_eq_succ_of_ne_zero (Nat.ne_of_gt hfuel)
    rw [scanBytes, hnul, hcond]
    rfl
  | @cons p c l hc hne hl ih =>
    obtain ⟨fuel, rfl⟩ := Nat.exists_eq_succ_of_ne_zero (Nat.ne_of_gt (Nat.zero_lt_of_lt hfuel))
    rw [scanBytes, hc]
    cases hcase : cond c with
    | false =>
      rw [takeWhile_cons_of_neg (by simp [hcase])]
      rfl
    | true =>
      have hnext : p + ((l.takeWhile cond).length + 1) = p + 1 + (l.takeWhile cond).length := by omega
      rw [takeWhile_cons_of_pos hcase, length_cons, hnext, if_pos rfl]
      exact ih fuel (Nat.lt_of_succ_lt_succ hfuel)

end Xv6MallocLab
