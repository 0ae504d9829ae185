import Mathlib.Tactic

/-!
# Circular doubly linked lists

A ring is a head node with its members, threaded through a forward and a backward
link that are arbitrary functions on nodes.  It is described as one open chain
`head, x1, …, xk, head`, of which insertion and removal touch one seam.
-/

namespace Xv6MallocLab.CircularList

open Function List

variable {α : Type*} {next prev next' prev' : α → α}

def Circuit (next : α → α) (head : α) (members : List α) : Prop :=
  (head :: members ++ [head]).IsChain fun x y => next x = y

def Linked (next prev : α → α) (nodes : List α) : Prop :=
  nodes.IsChain fun x y => next x = y ∧ prev y = x

def Ring (next prev : α → α) (head : α) (members : List α) : Prop :=
  Linked next prev (head :: members ++ [head])

variable {nodes : List α} {p : α → Bool} {fuel : ℕ} {head x y : α}
  {members before after : List α}

theorem isChain_next_congr (hchain : nodes.IsChain fun x y => next x = y)
    (hnext : ∀ x ∈ nodes.dropLast, next' x = next x) : nodes.IsChain fun x y => next' x = y := by
  induction nodes with
  | nil => exact List.IsChain.nil
  | cons x rest ih =>
    cases rest with
    | nil => exact List.IsChain.singleton x
    | cons y rest =>
      obtain ⟨hxy, htail⟩ := isChain_cons_cons.mp hchain
      refine isChain_cons_cons.mpr ⟨?_, ih htail fun z hz => hnext z (by simp [hz])⟩
      rw [hnext x (by simp), hxy]

theorem Circuit.congr (hcircuit : Circuit next head members)
    (hnext : ∀ x ∈ head :: members, next' x = next x) : Circuit next' head members := by
  refine isChain_next_congr hcircuit fun x hx => hnext x ?_
  rwa [dropLast_concat] at hx

theorem Circuit.rotate (hcircuit : Circuit next head members) (hx : x ∈ head :: members) :
    ∃ others, Circuit next x others ∧ (x :: others).Perm (head :: members) := by
  obtain ⟨before, after, hsplit⟩ := append_of_mem hx
  cases before with
  | nil =>
    obtain ⟨rfl, rfl⟩ := List.cons.inj hsplit
    exact ⟨members, hcircuit, List.Perm.refl _⟩
  | cons y before =>
    obtain ⟨rfl, rfl⟩ := List.cons.inj hsplit
    refine ⟨after ++ head :: before, ?_, ?_⟩
    · have hchain : (head :: before ++ x :: (after ++ [head])).IsChain fun x y => next x = y := by
        simpa [Circuit] using hcircuit
      obtain ⟨hfirst, hsecond⟩ := isChain_split.mp hchain
      have hgoal : (x :: after ++ head :: (before ++ [x])).IsChain fun x y => next x = y :=
        isChain_split.mpr ⟨by simpa using hsecond, by simpa using hfirst⟩
      simpa [Circuit] using hgoal
    · have hperm : (x :: after ++ head :: before).Perm (head :: before ++ x :: after) :=
        perm_append_comm
      simpa using hperm

theorem Circuit.next_head (hcircuit : Circuit next head members) :
    next head = members.headD head := by
  cases members with
  | nil => exact (isChain_cons_cons.mp hcircuit).1
  | cons x rest => exact (isChain_cons_cons.mp hcircuit).1

theorem Circuit.links_member (hcircuit : Circuit next head (before ++ x :: after)) :
    next ((head :: before).getLast (by simp)) = x ∧ next x = after.headD head := by
  have hlist : (head :: before).dropLast ++
      (head :: before).getLast (by simp) :: x :: (after ++ [head]) =
        head :: (before ++ x :: after) ++ [head] := by
    rw [← singleton_append (l := x :: (after ++ [head])), ← append_assoc,
      dropLast_append_getLast]
    simp
  rw [Circuit, ← hlist, isChain_append_cons_cons] at hcircuit
  refine ⟨hcircuit.2.1, ?_⟩
  cases after with
  | nil => exact (isChain_cons_cons.mp hcircuit.2.2).1
  | cons y rest => exact (isChain_cons_cons.mp hcircuit.2.2).1

theorem Circuit.iterate_mem (hcircuit : Circuit next head members) (hx : x ∈ head :: members)
    (k : ℕ) : next^[k] x ∈ head :: members := by
  induction k with
  | zero => exact hx
  | succ k ih =>
    rw [iterate_succ_apply']
    obtain ⟨others, hrotated, hperm⟩ := hcircuit.rotate ih
    rw [hrotated.next_head]
    apply hperm.mem_iff.mp
    cases others with
    | nil => simp
    | cons y others => simp

theorem Circuit.exists_iterate (hcircuit : Circuit next head members) (hx : x ∈ head :: members)
    (hy : y ∈ head :: members) : ∃ k, next^[k] x = y := by
  obtain ⟨others, hrotated, hperm⟩ := hcircuit.rotate hx
  have hmem : y ∈ x :: others := hperm.mem_iff.mpr hy
  rcases mem_cons.mp hmem with rfl | hother
  · exact ⟨0, rfl⟩
  · obtain ⟨before, after, rfl⟩ := append_of_mem hother
    clear hperm hother hmem hy
    induction before using List.reverseRecOn generalizing y after with
    | nil => exact ⟨1, hrotated.next_head⟩
    | append_singleton before z ih =>
      rw [append_assoc, singleton_append] at hrotated
      obtain ⟨k, hk⟩ := ih (y :: after) hrotated
      refine ⟨k + 1, ?_⟩
      rw [iterate_succ_apply', hk]
      exact hrotated.links_member.2

theorem Circuit.next_last (hcircuit : Circuit next head members) :
    next ((head :: members).getLast (by simp)) = head := by
  rcases eq_nil_or_concat members with rfl | ⟨before, x, rfl⟩
  · exact hcircuit.next_head
  · rw [concat_eq_append] at hcircuit
    have hlast : (head :: before.concat x).getLast (by simp) = x := by simp
    rw [hlast]
    exact hcircuit.links_member.2

theorem Circuit.next_front (hcircuit : Circuit next head (before ++ after)) :
    next ((head :: before).getLast (by simp)) = after.headD head := by
  cases after with
  | nil =>
    rw [append_nil] at hcircuit
    exact hcircuit.next_last
  | cons x rest => exact hcircuit.links_member.1

theorem Circuit.next_injective (hcircuit : Circuit next head members)
    (hnodup : (head :: members).Nodup) (hx : x ∈ head :: members) (hy : y ∈ head :: members)
    (heq : next x = next y) : x = y := by
  obtain ⟨others, hrotated, hperm⟩ := hcircuit.rotate hx
  have hnodup' : (x :: others).Nodup := hperm.nodup_iff.mpr hnodup
  rcases mem_cons.mp (hperm.mem_iff.mpr hy) with rfl | hmem
  · rfl
  · obtain ⟨before, after, rfl⟩ := append_of_mem hmem
    have hfirst := hrotated.next_head
    have hsecond := hrotated.links_member.2
    rw [heq, hsecond] at hfirst
    exfalso
    cases before with
    | nil =>
      cases after with
      | nil => simp_all
      | cons z after => simp_all
    | cons w before =>
      cases after with
      | nil => simp_all
      | cons z after => simp_all

/-- The part of a circuit between two places is exchanged. -/
theorem Circuit.splice {old new : List α} (hcircuit : Circuit next head (before ++ old ++ after))
    (hnodup : (head :: (before ++ old ++ after)).Nodup)
    (hnew : ((head :: before).getLast (by simp) :: new ++ [after.headD head]).IsChain
      fun x y => next' x = y)
    (hnext : ∀ y ∈ head :: (before ++ after),
      y ≠ (head :: before).getLast (by simp) → next' y = next y) :
    Circuit next' head (before ++ new ++ after) := by
  obtain ⟨init, p, hfront⟩ : ∃ init p, head :: before = init ++ [p] :=
    ⟨_, _, (dropLast_append_getLast (by simp)).symm⟩
  obtain ⟨rest, hback⟩ : ∃ rest, after ++ [head] = after.headD head :: rest := by
    cases after with
    | nil => exact ⟨[], rfl⟩
    | cons z rest => exact ⟨rest ++ [head], rfl⟩
  have hlast : (head :: before).getLast (by simp) = p := by simp [hfront]
  rw [hlast] at hnew hnext
  have hlist : ∀ mid, head :: (before ++ mid ++ after) ++ [head] =
      init ++ p :: (mid ++ after.headD head :: rest) := by
    intro mid
    have hparts : head :: (before ++ mid ++ after) ++ [head] =
        (head :: before) ++ (mid ++ (after ++ [head])) := by simp
    rw [hparts, hfront, hback]
    simp
  have hsplit : ∀ {f : α → α} {mid}, Circuit f head (before ++ mid ++ after) ↔
      (init ++ [p]).IsChain (fun x y => f x = y) ∧
        (p :: mid ++ [after.headD head]).IsChain (fun x y => f x = y) ∧
        (after.headD head :: rest).IsChain fun x y => f x = y := by
    intro f mid
    rw [Circuit, hlist, isChain_split]
    exact and_congr_right fun _ => @isChain_split _ _ _ (p :: mid) rest
  obtain ⟨hleft, -, hright⟩ := hsplit.mp hcircuit
  rw [append_assoc, ← cons_append, hfront] at hnodup
  refine hsplit.mpr ⟨isChain_next_congr hleft fun y hy => ?_, hnew,
    isChain_next_congr hright fun y hy => ?_⟩
  · rw [dropLast_concat] at hy
    have hmem : y ∈ head :: before := by simp [hfront, hy]
    refine hnext y ?_ ?_
    · simp only [mem_cons, mem_append] at hmem ⊢
      tauto
    · rintro rfl
      simp only [nodup_append, mem_singleton] at hnodup
      exact hnodup.1.2.2 y hy y rfl rfl
  · rw [← hback, dropLast_concat] at hy
    refine hnext y (by simp [hy]) ?_
    rintro rfl
    simp [nodup_append, hy] at hnodup

theorem Circuit.remove (hcircuit : Circuit next head (before ++ x :: after))
    (hnodup : (head :: (before ++ x :: after)).Nodup)
    (hpred : next' ((head :: before).getLast (by simp)) = next x)
    (hnext : ∀ y ∈ head :: (before ++ after),
      y ≠ (head :: before).getLast (by simp) → next' y = next y) :
    Circuit next' head (before ++ after) := by
  have hx := hcircuit.links_member.2
  have hmid : before ++ x :: after = before ++ [x] ++ after := by simp
  rw [hmid] at hcircuit hnodup
  rw [← append_nil before]
  exact hcircuit.splice hnodup (isChain_pair.mpr (hpred.trans hx)) hnext

theorem Circuit.insert (hcircuit : Circuit next head (before ++ after))
    (hnodup : (head :: (before ++ after)).Nodup)
    (hpred : next' ((head :: before).getLast (by simp)) = x)
    (hx : next' x = next ((head :: before).getLast (by simp)))
    (hnext : ∀ y ∈ head :: (before ++ after),
      y ≠ (head :: before).getLast (by simp) → next' y = next y) :
    Circuit next' head (before ++ x :: after) := by
  rw [← append_nil before] at hcircuit hnodup
  rw [← singleton_append, ← append_assoc]
  refine hcircuit.splice hnodup ?_ hnext
  rw [append_nil] at hcircuit
  exact isChain_cons_cons.mpr ⟨hpred, isChain_pair.mpr (hx.trans hcircuit.next_front)⟩

/-- A ring is a circuit in each of the two directions. -/
theorem ring_iff : Ring next prev head members ↔
    Circuit next head members ∧ Circuit prev head members.reverse := by
  have hlist : head :: members.reverse ++ [head] = (head :: members ++ [head]).reverse := by simp
  rw [Ring, Linked, Circuit, Circuit, hlist, isChain_reverse]
  simp only [isChain_iff_getElem]
  exact ⟨fun h => ⟨fun i hi => (h i hi).1, fun i hi => (h i hi).2⟩,
    fun h i hi => ⟨h.1 i hi, h.2 i hi⟩⟩

theorem Ring.reverse (hring : Ring next prev head members) :
    Ring prev next head members.reverse := by
  rw [ring_iff, reverse_reverse]
  exact (ring_iff.mp hring).symm

theorem Ring.congr (hring : Ring next prev head members)
    (hnext : ∀ x ∈ head :: members, next' x = next x)
    (hprev : ∀ x ∈ head :: members, prev' x = prev x) : Ring next' prev' head members := by
  obtain ⟨hforth, hback⟩ := ring_iff.mp hring
  exact ring_iff.mpr ⟨hforth.congr hnext, hback.congr fun x hx => hprev x (by simpa using hx)⟩

theorem ring_nil : Ring next prev head [] ↔ next head = head ∧ prev head = head := by
  simp [Ring, Linked]

theorem Ring.next_head (hring : Ring next prev head members) : next head = members.headD head :=
  (ring_iff.mp hring).1.next_head

theorem Ring.next_head_eq_iff (hring : Ring next prev head members) (hhead : head ∉ members) :
    next head = head ↔ members = [] := by
  rw [hring.next_head]
  cases members with
  | nil => simp
  | cons x rest =>
    simp only [headD_cons, reduceCtorEq, iff_false]
    rintro rfl
    simp at hhead

theorem getLast_eq_headD_reverse (head : α) (l : List α) :
    (head :: l).getLast (by simp) = l.reverse.headD head := by
  rcases eq_nil_or_concat l with rfl | ⟨init, x, rfl⟩
  · rfl
  · simp

theorem Ring.links_member (hring : Ring next prev head (before ++ x :: after)) :
    prev x = (head :: before).getLast (by simp) ∧
      next x = after.headD head := by
  obtain ⟨hforth, hback⟩ := ring_iff.mp hring
  rw [reverse_append, reverse_cons, append_assoc, singleton_append] at hback
  rw [getLast_eq_headD_reverse]
  exact ⟨hback.links_member.2, hforth.links_member.2⟩

section

variable (hring : Ring next prev head members)

include hring

theorem Ring.iterate_mem (k : ℕ) : next^[k] head ∈ head :: members :=
  (ring_iff.mp hring).1.iterate_mem mem_cons_self k

theorem Ring.next_head_mem : next head ∈ head :: members := hring.iterate_mem 1

theorem Ring.links_mem (hx : x ∈ members) :
    prev x ∈ head :: members ∧ next x ∈ head :: members := by
  obtain ⟨hforth, hback⟩ := ring_iff.mp hring
  have hprev := hback.iterate_mem (x := x) (by simp [hx]) 1
  exact ⟨by simpa using hprev, hforth.iterate_mem (mem_cons_of_mem _ hx) 1⟩

theorem Ring.exists_iterate (hx : x ∈ members) : ∃ k, next^[k] head = x :=
  (ring_iff.mp hring).1.exists_iterate mem_cons_self (mem_cons_of_mem _ hx)

end

theorem Ring.prev_eq_next_iff (hring : Ring next prev head (before ++ x :: after))
    (hnodup : (head :: (before ++ x :: after)).Nodup) :
    prev x = next x ↔ before = [] ∧ after = [] := by
  obtain ⟨hprev, hnext⟩ := hring.links_member
  constructor
  · intro heq
    rw [hprev, hnext] at heq
    have hlast : (head :: before).getLast (by simp) ∈ head :: before :=
      getLast_mem _
    rw [heq] at hlast
    cases after with
    | nil =>
      refine ⟨?_, rfl⟩
      by_contra hbefore
      rw [getLast_cons hbefore] at heq
      have hmem : head ∈ before := by
        simpa [heq] using getLast_mem hbefore
      simp [hmem] at hnodup
    | cons y rest =>
      exfalso
      simp only [headD_cons] at hlast
      simp only [nodup_cons, nodup_append, mem_append, mem_cons] at hnodup hlast
      grind
  · rintro ⟨rfl, rfl⟩
    rw [hprev, hnext]
    simp

theorem Ring.push {first : α} (hring : Ring next prev head members)
    (hnodup : (head :: members).Nodup) (hfirst : next head = first) (hnextx : next' x = first)
    (hprevFirst : prev' first = x) (hnextHead : next' head = x) (hprevx : prev' x = head)
    (hnext : ∀ y ∈ members, next' y = next y)
    (hprev : ∀ y ∈ head :: members, y ≠ first → prev' y = prev y) :
    Ring next' prev' head (x :: members) := by
  obtain ⟨hforth, hback⟩ := ring_iff.mp hring
  have hlast : (head :: members.reverse).getLast (by simp) = first := by
    rw [getLast_eq_headD_reverse, reverse_reverse, ← hring.next_head, hfirst]
  refine ring_iff.mpr ⟨?_, ?_⟩
  · rw [← nil_append members] at hforth hnodup
    exact hforth.insert hnodup hnextHead (hnextx.trans hfirst.symm)
      fun y hy hne => hnext y (mem_of_ne_of_mem hne hy)
  · rw [reverse_cons]
    rw [← append_nil members.reverse] at hback
    refine hback.insert (by simpa using hnodup) ?_ ?_ fun y hy hne => ?_
    · rw [hlast, hprevFirst]
    · rw [append_nil] at hback
      rw [hprevx, hback.next_last]
    · rw [hlast] at hne
      exact hprev y (by simpa using hy) hne

theorem Ring.remove {a b : α} (hring : Ring next prev head (before ++ x :: after))
    (hnodup : (head :: (before ++ x :: after)).Nodup) (ha : prev x = a) (hb : next x = b)
    (hnexta : next' a = b) (hprevb : prev' b = a)
    (hnext : ∀ y ∈ head :: (before ++ after), y ≠ a → next' y = next y)
    (hprev : ∀ y ∈ head :: (before ++ after), y ≠ b → prev' y = prev y) :
    Ring next' prev' head (before ++ after) := by
  obtain ⟨hforth, hback⟩ := ring_iff.mp hring
  obtain ⟨hprevx, hnextx⟩ := hring.links_member
  rw [reverse_append, reverse_cons, append_assoc, singleton_append] at hback
  have hlast : (head :: after.reverse).getLast (by simp) = b := by
    rw [getLast_eq_headD_reverse, reverse_reverse, ← hnextx, hb]
  refine ring_iff.mpr ⟨hforth.remove hnodup ?_ ?_, ?_⟩
  · rw [← hprevx, ha, hnexta, hb]
  · rw [← hprevx, ha]
    exact hnext
  · rw [reverse_append]
    refine hback.remove ?_ ?_ fun y hy hne => ?_
    · refine (Perm.nodup_iff (Perm.cons _ ?_)).mpr hnodup
      simpa using (reverse_perm (before ++ x :: after))
    · rw [hlast, hprevb, ha]
    · rw [hlast] at hne
      refine hprev y ?_ hne
      simp only [mem_cons, mem_append, mem_reverse] at hy ⊢
      tauto

/-- Follow the links from `x` to the first node that satisfies `p`, and stop at
the head. -/
def scan [DecidableEq α] (next : α → α) (head : α) (p : α → Bool) : ℕ → α → Option α
  | 0, _ => none
  | fuel + 1, x =>
    if x = head then none
    else if p x then some x
    else scan next head p fuel (next x)

theorem Ring.scan_eq_find [DecidableEq α] {rest : List α}
    (hring : Ring next prev head (before ++ rest)) (hhead : head ∉ rest)
    (hfuel : rest.length < fuel) : scan next head p fuel (rest.headD head) = rest.find? p := by
  induction rest generalizing before fuel with
  | nil =>
    obtain ⟨k, rfl⟩ := Nat.exists_eq_succ_of_ne_zero (Nat.ne_of_gt hfuel)
    simp [scan]
  | cons x rest ih =>
    rw [length_cons] at hfuel
    obtain ⟨k, rfl⟩ := Nat.exists_eq_succ_of_ne_zero (Nat.ne_of_gt (Nat.zero_lt_of_lt hfuel))
    have hne : x ≠ head := fun h => hhead (h ▸ mem_cons_self)
    have hnext : next x = rest.headD head := hring.links_member.2
    rw [headD_cons, scan, if_neg hne, find?_cons]
    cases hp : p x with
    | true => rfl
    | false =>
      have hrest : Ring next prev head ((before ++ [x]) ++ rest) := by simpa using hring
      rw [hnext]
      exact ih hrest (fun h => hhead (mem_cons_of_mem _ h)) (by omega)

theorem Ring.scan_head [DecidableEq α] (hring : Ring next prev head members)
    (hhead : head ∉ members) (hfuel : members.length < fuel) :
    scan next head p fuel (next head) = members.find? p := by
  have hwhole : Ring next prev head ([] ++ members) := hring
  rw [hring.next_head]
  exact hwhole.scan_eq_find hhead hfuel

end Xv6MallocLab.CircularList
