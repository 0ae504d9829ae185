import Xv6MallocLab.CStrings

/-!
# The matcher of grep

`match`, `matchhere` and `matchstar` move pointers along a pattern and a text.  A pattern
means a list of items, and `Matches` says which strings such a list matches, given what
comes behind.
-/

namespace Xv6MallocLab.Grep

open ByteMemory List

def caret : UInt8 := 94
def dollar : UInt8 := 36
def dot : UInt8 := 46
def asterisk : UInt8 := 42

section Code

variable (m : Memory)

mutual

/-- `matchhere(re, text)`, with at most `fuel` calls or loop rounds open. -/
def matchhere : ℕ → ℕ → ℕ → Option Bool
  | 0, _, _ => none
  | fuel + 1, re, text =>
    if m re = 0 then some true
    else if m (re + 1) = asterisk then matchstar fuel (m re) (re + 2) text
    else if m re = dollar ∧ m (re + 1) = 0 then some (m text == 0)
    else if m text ≠ 0 ∧ (m re = dot ∨ m re = m text) then matchhere fuel (re + 1) (text + 1)
    else some false

/-- `matchstar(c, re, text)`, from one round of its loop on. -/
def matchstar : ℕ → UInt8 → ℕ → ℕ → Option Bool
  | 0, _, _, _ => none
  | fuel + 1, c, re, text => do
      if ← matchhere fuel re text then return true
      else if m text ≠ 0 ∧ (m text = c ∨ c = dot) then matchstar fuel c re (text + 1)
      else return false

end

def matchLoop : ℕ → ℕ → ℕ → Option Bool
  | 0, _, _ => none
  | fuel + 1, re, text => do
      if ← matchhere m fuel re text then return true
      else if m text ≠ 0 then matchLoop fuel re (text + 1)
      else return false

/-- `match(re, text)`: no result if the fuel runs out. -/
def match_ (fuel re text : ℕ) : Option Bool :=
  if m re = caret then matchhere m fuel (re + 1) text else matchLoop m fuel re text

end Code

inductive Item
  | star (c : UInt8)
  | char (c : UInt8)
  | atEnd
deriving DecidableEq, Repr

/-- A pattern from left to right.  A character is starred if the next one is `*`, and `$` is
special if it is the last one. -/
def items : List UInt8 → List Item
  | [] => []
  | [c] => [if c = dollar then .atEnd else .char c]
  | c :: d :: re => if d = asterisk then .star c :: items re else .char c :: items (d :: re)

def Accepts (c x : UInt8) : Prop := c = dot ∨ c = x

/-- The items match the string `u` when the text goes on with `v`. -/
inductive Matches (v : List UInt8) : List Item → List UInt8 → Prop
  | nil : Matches v [] []
  | star {c : UInt8} {is : List Item} {u u' : List UInt8} (hc : ∀ x ∈ u, Accepts c x)
      (h : Matches v is u') : Matches v (.star c :: is) (u ++ u')
  | char {c x : UInt8} {is : List Item} {u : List UInt8} (hc : Accepts c x) (h : Matches v is u) :
      Matches v (.char c :: is) (x :: u)
  | atEnd {is : List Item} {u : List UInt8} (hend : u ++ v = []) (h : Matches v is u) :
      Matches v (.atEnd :: is) u

def Found (re text : List UInt8) : Prop :=
  ∃ pre u v, text = pre ++ u ++ v ∧
    if re.head? = some caret then pre = [] ∧ Matches v (items re.tail) u else Matches v (items re) u

def Starts (is : List Item) (text : List UInt8) : Prop := ∃ u v, text = u ++ v ∧ Matches v is u

theorem starts_nil (text : List UInt8) : Starts [] text := ⟨[], text, rfl, .nil⟩

variable {c : UInt8} {is : List Item} {P : Prop} {o : Option Bool}

theorem starts_char {text : List UInt8} :
    Starts (.char c :: is) text ↔ ∃ x t, text = x :: t ∧ Accepts c x ∧ Starts is t := by
  constructor
  · rintro ⟨_, v, rfl, hm⟩
    cases hm with
    | @char _ x _ u hc h => exact ⟨x, u ++ v, rfl, hc, u, v, rfl, h⟩
  · rintro ⟨x, _, rfl, hc, u, v, rfl, h⟩
    exact ⟨x :: u, v, rfl, .char hc h⟩

theorem starts_star {text : List UInt8} :
    Starts (.star c :: is) text ↔
      Starts is text ∨ ∃ x t, text = x :: t ∧ Accepts c x ∧ Starts (.star c :: is) t := by
  constructor
  · rintro ⟨_, v, rfl, hm⟩
    cases hm with
    | @star _ _ u u' hc h =>
      cases u with
      | nil => exact .inl ⟨u', v, rfl, h⟩
      | cons x u =>
        refine .inr ⟨x, u ++ u' ++ v, rfl, hc x mem_cons_self, u ++ u', v, rfl, ?_⟩
        exact .star (fun y hy => hc y (mem_cons_of_mem x hy)) h
  · rintro (⟨u, v, rfl, h⟩ | ⟨x, _, rfl, hx, _, v, rfl, hm⟩)
    · exact ⟨u, v, rfl, .star (u := []) nofun h⟩
    · cases hm with
      | @star _ _ u u' hc h =>
        refine ⟨x :: (u ++ u'), v, rfl, .star (u := x :: u) (fun y hy => ?_) h⟩
        rcases mem_cons.1 hy with rfl | hy
        · exact hx
        · exact hc y hy

theorem starts_atEnd {text : List UInt8} : Starts [.atEnd] text ↔ text = [] := by
  constructor
  · rintro ⟨u, v, rfl, hm⟩
    cases hm with
    | atEnd hend _ => exact hend
  · rintro rfl
    exact ⟨[], [], rfl, .atEnd rfl .nil⟩

theorem found_caret {re text : List UInt8} : Found (caret :: re) text ↔ Starts (items re) text := by
  have hhead : (caret :: re).head? = some caret := rfl
  constructor
  · rintro ⟨pre, u, v, rfl, h⟩
    rw [if_pos hhead] at h
    obtain ⟨rfl, hm⟩ := h
    exact ⟨u, v, rfl, hm⟩
  · rintro ⟨u, v, rfl, hm⟩
    refine ⟨[], u, v, rfl, ?_⟩
    rw [if_pos hhead]
    exact ⟨rfl, hm⟩

theorem found_iff {re text : List UInt8} (hre : re.head? ≠ some caret) :
    Found re text ↔ Starts (items re) text ∨ ∃ x t, text = x :: t ∧ Found re t := by
  unfold Found
  simp only [if_neg hre]
  constructor
  · rintro ⟨pre, u, v, rfl, hm⟩
    cases pre with
    | nil => exact .inl ⟨u, v, rfl, hm⟩
    | cons x pre => exact .inr ⟨x, pre ++ u ++ v, rfl, pre, u, v, rfl, hm⟩
  · rintro (⟨u, v, rfl, hm⟩ | ⟨x, _, rfl, pre, u, v, rfl, hm⟩)
    · exact ⟨[], u, v, rfl, hm⟩
    · exact ⟨x :: pre, u, v, rfl, hm⟩

def Answers (o : Option Bool) (P : Prop) : Prop := ∃ b, o = some b ∧ (b = true ↔ P)

variable {m : Memory} {p q : ℕ} {re text : List UInt8}

theorem Answers.yes (h : P) : Answers (some true) P := ⟨true, rfl, iff_of_true rfl h⟩

theorem Answers.no (h : ¬P) : Answers (some false) P := ⟨false, rfl, iff_of_false nofun h⟩

theorem Answers.congr {Q : Prop} (h : Answers o P) (hiff : P ↔ Q) : Answers o Q := by
  obtain ⟨b, ho, hb⟩ := h
  exact ⟨b, ho, hb.trans hiff⟩

theorem Answers.or {o' : Option Bool} {Q : Prop} (h : Answers o P) (h' : Answers o' Q) :
    Answers (do if ← o then return true else o') (P ∨ Q) := by
  obtain ⟨b, rfl, hb⟩ := h
  cases b with
  | true => exact .yes (.inl (hb.1 rfl))
  | false =>
    apply h'.congr
    constructor
    · exact .inr
    · rintro (hp | hq)
      · cases hb.2 hp
      · exact hq

theorem Answers.next {C : Prop} [Decidable C] {R : UInt8 → Prop} {P : List UInt8 → Prop}
    (htext : CString m q text) (hC : C ↔ m q ≠ 0 ∧ R (m q))
    (h : ∀ x t, text = x :: t → R x → CString m (q + 1) t → Answers o (P t)) :
    Answers (if C then o else some false) (∃ x t, text = x :: t ∧ R x ∧ P t) := by
  cases htext with
  | nil hnul =>
    rw [if_neg fun hc => (hC.1 hc).1 hnul]
    exact .no nofun
  | @cons _ x t hx hne ht =>
    by_cases hR : R x
    · rw [if_pos (hC.2 ⟨hx ▸ hne, hx ▸ hR⟩)]
      apply (h x t rfl hR ht).congr
      constructor
      · exact fun hP => ⟨x, t, rfl, hR, hP⟩
      · rintro ⟨_, _, heq, -, hP⟩
        cases heq
        exact hP
    · rw [if_neg fun hc => hR (hx ▸ (hC.1 hc).2)]
      apply Answers.no
      rintro ⟨_, _, heq, hR', -⟩
      cases heq
      exact hR hR'

theorem Answers.char (htext : CString m q text)
    (h : ∀ x t, text = x :: t → CString m (q + 1) t → Answers o (Starts is t)) :
    Answers (if m q ≠ 0 ∧ (c = dot ∨ c = m q) then o else some false)
      (Starts (.char c :: is) text) := by
  have hnext : Answers (if m q ≠ 0 ∧ (c = dot ∨ c = m q) then o else some false)
      (∃ x t, text = x :: t ∧ Accepts c x ∧ Starts is t) :=
    Answers.next htext Iff.rfl fun x t heq _ ht => h x t heq ht
  exact hnext.congr starts_char.symm

theorem matchhere_answers (fuel : ℕ) :
    (∀ {p q : ℕ} {re text : List UInt8}, CString m p re → CString m q text →
      re.length + text.length < fuel → Answers (matchhere m fuel p q) (Starts (items re) text)) ∧
    (∀ {p q : ℕ} {re text : List UInt8} {c : UInt8}, CString m p re → CString m q text →
      re.length + text.length + 1 < fuel →
      Answers (matchstar m fuel c p q) (Starts (.star c :: items re) text)) := by
  induction fuel with
  | zero => exact ⟨fun _ _ h => absurd h (Nat.not_lt_zero _), fun _ _ h => absurd h (Nat.not_lt_zero _)⟩
  | succ fuel ih =>
    obtain ⟨ihHere, ihStar⟩ := ih
    constructor
    · intro p q re text hre htext hfuel
      rw [matchhere]
      cases hre with
      | nil hnul =>
        rw [if_pos hnul]
        exact .yes (starts_nil text)
      | @cons _ c re hc hne hre =>
        rw [if_neg (hc ▸ hne), hc]
        rw [length_cons] at hfuel
        cases hre with
        | nil hnul =>
          rw [hnul, if_neg (by decide)]
          by_cases hd : c = dollar
          · rw [if_pos ⟨hd, rfl⟩, items, if_pos hd]
            refine ⟨_, rfl, Iff.trans ?_ starts_atEnd.symm⟩
            rw [beq_iff_eq]
            cases htext with
            | nil hend => exact iff_of_true hend rfl
            | cons hx hne _ => exact iff_of_false (hx ▸ hne) (cons_ne_nil _ _)
          · rw [if_neg fun h => hd h.1, items, if_neg hd]
            apply Answers.char htext
            intro x t heq ht
            subst heq
            rw [length_cons] at hfuel
            exact ihHere (.nil hnul) ht (by rw [length_nil] at hfuel ⊢; omega)
        | @cons _ d re hd hne' hre =>
          rw [hd, items]
          rw [length_cons] at hfuel
          by_cases hstar : d = asterisk
          · rw [if_pos hstar, if_pos hstar]
            exact ihStar hre htext (by omega)
          · rw [if_neg hstar, if_neg hstar, if_neg fun h => hne' h.2]
            apply Answers.char htext
            intro x t heq ht
            subst heq
            rw [length_cons] at hfuel
            exact ihHere (.cons hd hne' hre) ht (by rw [length_cons]; omega)
    · intro p q re text c hre htext hfuel
      rw [matchstar]
      apply ((ihHere hre htext (by omega)).or ?_).congr starts_star.symm
      apply Answers.next htext
      · unfold Accepts
        rw [eq_comm, or_comm]
      · intro x t heq _ ht
        subst heq
        rw [length_cons] at hfuel
        exact ihStar hre ht (by omega)

theorem matchLoop_answers (hre : CString m p re) (hhead : re.head? ≠ some caret)
    (htext : CString m q text) {fuel : ℕ} (hfuel : re.length + text.length + 1 < fuel) :
    Answers (matchLoop m fuel p q) (Found re text) := by
  induction fuel generalizing q text with
  | zero => exact absurd hfuel (Nat.not_lt_zero _)
  | succ fuel ih =>
    rw [matchLoop]
    have hrest : Answers (if m q ≠ 0 then matchLoop m fuel p (q + 1) else some false)
        (∃ x t, text = x :: t ∧ True ∧ Found re t) := by
      apply Answers.next htext (by rw [and_true])
      intro x t heq _ ht
      subst heq
      rw [length_cons] at hfuel
      exact ih ht (by omega)
    apply (((matchhere_answers fuel).1 hre htext (by omega)).or hrest).congr
    rw [found_iff hhead]
    simp only [true_and]

theorem match_answers (hre : CString m p re) (htext : CString m q text) {fuel : ℕ}
    (hfuel : re.length + text.length + 1 < fuel) : Answers (match_ m fuel p q) (Found re text) := by
  unfold match_
  cases hre with
  | nil hnul =>
    rw [hnul, if_neg (by decide)]
    exact matchLoop_answers (.nil hnul) nofun htext hfuel
  | @cons _ c re hc hne hre =>
    rw [hc]
    by_cases hcaret : c = caret
    · rw [if_pos hcaret, hcaret]
      rw [length_cons] at hfuel
      exact ((matchhere_answers fuel).1 hre htext (by omega)).congr found_caret.symm
    · rw [if_neg hcaret]
      exact matchLoop_answers (.cons hc hne hre) (fun h => hcaret (Option.some.inj h)) htext hfuel

/-- `match` ends with 1 or 0, and 1 says that the pattern matches in the text. -/
theorem match_iff_found (hre : CString m p re) (htext : CString m q text) :
    ∀ fuel, re.length + text.length + 1 < fuel →
      ∃ b, match_ m fuel p q = some b ∧ (b = true ↔ Found re text) :=
  fun _ hfuel => match_answers hre htext hfuel

theorem match_iff_found_star :
    let m : Memory := fun a => ([98, 42, 99, 36, 0, 97, 98, 98, 99] : List UInt8).getD a 0
    match_ m 10 0 5 = some true ∧ Found [98, 42, 99, 36] [97, 98, 98, 99] := by
  intro m
  have hre : CString m 0 [98, 42, 99, 36] := by
    iterate 4 refine .cons rfl (by decide) ?_
    exact .nil rfl
  have htext : CString m 5 [97, 98, 98, 99] := by
    iterate 4 refine .cons rfl (by decide) ?_
    exact .nil rfl
  have hrun : match_ m 10 0 5 = some true := by decide
  obtain ⟨b, hb, hiff⟩ := match_iff_found hre htext 10 (by decide)
  rw [hrun] at hb
  exact ⟨hrun, hiff.1 (Option.some.inj hb).symm⟩

end Xv6MallocLab.Grep
