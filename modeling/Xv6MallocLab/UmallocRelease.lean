import Xv6MallocLab.UmallocPool

/-!
# Giving a block back

`free` walks the circular list from wherever `freep` stands until it finds the two headers
between which the block belongs, and joins the block to the neighbours it touches, the
upper one first.
-/

namespace Xv6MallocLab.Umalloc

open ByteMemory CircularList Function List Prog

attribute [local irreducible] load store

variable {static low : ℕ}

def Stops (m : Memory) (bp x : ℕ) : Prop :=
  (bp > x ∧ bp < ptr m x) ∨ (x ≥ ptr m x ∧ (bp > x ∨ bp < ptr m x))

variable {bp p high : ℕ} {m : Memory} {b : Block} {before after : List Block}

variable {s : Process} {taken free' : List Block} {x : ℕ}

theorem run_freeSearch {q : ℕ} (bound : ℕ) (xs : List ℕ)
    (hchain : (xs ++ [q]).IsChain fun x y => ptr s.mem x = y) (hgo : ∀ x ∈ xs, ¬ Stops s.mem bp x)
    (hstop : Stops s.mem bp q) :
    (freeSearch bp (xs.length + 1 + bound) (xs.headD q)).run s = .ok q s := by
  induction xs with
  | nil =>
    rw [show ([] : List ℕ).length + 1 + bound = bound + 1 by simp [Nat.add_comm], freeSearch,
      run_bind_ok (run_mem _), headD_nil, run_ite, run_ite]
    rcases hstop with hbetween | hwrap
    · rw [if_pos hbetween]
      rfl
    · rw [if_pos hwrap, EStateM.run_pure, ite_self]
  | cons x rest ih =>
    have hx := hgo x (by simp)
    unfold Stops at hx
    rw [not_or] at hx
    have hnext : ptr s.mem x = rest.headD q := by
      cases rest with
      | nil => exact (isChain_cons_cons.mp hchain).1
      | cons y rest => exact (isChain_cons_cons.mp hchain).1
    rw [show (x :: rest).length + 1 + bound = (rest.length + 1 + bound) + 1 by
        simp only [length_cons]; omega,
      freeSearch, run_bind_ok (run_mem _), headD_cons, run_ite, if_neg hx.1, run_ite,
      if_neg hx.2, hnext]
    exact ih hchain.tail fun y hy => hgo y (by simp [hy])

theorem stops_iff {members : List ℕ} {y : ℕ} (hcircuit : Circuit (ptr m) static members)
    (hsorted : (static :: members).Pairwise fun x y => x < y) (hp : p ∈ static :: members)
    (hlt : p < bp) (hgap : ∀ x ∈ static :: members, x ≤ p ∨ bp < x) (hy : y ∈ static :: members) :
    Stops m bp y ↔ y = p := by
  have hstatic : static ≤ p := by
    rcases mem_cons.mp hp with rfl | hp
    · exact le_rfl
    · exact ((pairwise_cons.mp hsorted).1 p hp).le
  have hplace := hgap y hy
  obtain ⟨pre, rest, hsplit⟩ := append_of_mem hy
  rw [Circuit, hsplit] at hcircuit
  rw [hsplit, pairwise_append, pairwise_cons] at hsorted
  obtain ⟨-, ⟨habove, hrest⟩, hbelow⟩ := hsorted
  rw [hsplit, mem_append, mem_cons] at hp
  unfold Stops
  cases rest with
  | nil =>
    have hnext : ptr m y = static := by
      rw [append_assoc, cons_append, nil_append, isChain_append_cons_cons] at hcircuit
      exact hcircuit.2.1
    have hle : p ≤ y := by
      rcases hp with hp | rfl | hp
      · exact (hbelow p hp y (by simp)).le
      · exact le_rfl
      · exact absurd hp not_mem_nil
    rw [hnext]
    omega
  | cons z rest =>
    have hnext : ptr m y = z := by
      rw [append_assoc, cons_append, cons_append, isChain_append_cons_cons] at hcircuit
      exact hcircuit.2.1
    have hyz := habove z (by simp)
    have hz := hgap z (by simp [hsplit])
    have hpz : p ≤ y ∨ z ≤ p := by
      rcases hp with hp | rfl | hp
      · exact .inl (hbelow p hp y (by simp)).le
      · exact .inl le_rfl
      · rcases mem_cons.mp hp with rfl | hp
        · exact .inr le_rfl
        · exact .inr ((pairwise_cons.mp hrest).1 p hp).le
    rw [hnext]
    omega

/-- `b` and the free blocks above it, and what they become when the first of
these is joined to `b` if it touches it. -/
inductive Up (b : Block) : List Block → Block → List Block → Prop
  | keep {after : List Block} (gap : ∀ a ∈ after, b.stop < a.addr) : Up b after b after
  | join {a : Block} {rest : List Block} (touch : b.stop = a.addr) :
      Up b (a :: rest) ⟨b.addr, b.units + a.units⟩ rest

/-- The free blocks below `b`, and the list they form with `b` and the blocks
above it when the last of them is joined to `b` if it touches it. -/
inductive Down (b : Block) (after : List Block) : List Block → List Block → Prop
  | keep {before : List Block} (gap : ∀ l ∈ before, l.stop < b.addr) :
      Down b after before (before ++ b :: after)
  | join {before : List Block} {l : Block} (touch : l.stop = b.addr) :
      Down b after (before ++ [l]) (before ++ ⟨l.addr, l.units + b.units⟩ :: after)

structure Arena.Outside (A : Arena) (b : Block) (low high : ℕ) : Prop where
  pos : 1 ≤ b.units
  low_le : low ≤ b.addr
  stop_le : b.stop ≤ high
  free : ∀ c ∈ A.free, Apart b c
  taken : ∀ c ∈ A.taken, Apart b c

theorem Arena.Outside.split {A : Arena} (hb : A.Outside b low high) (hA : A.Shape static low high) :
    ∃ before after, A.free = before ++ after ∧ (∀ c ∈ before, c.stop ≤ b.addr) ∧
      ∀ c ∈ after, b.stop ≤ c.addr := by
  have hpos := hb.pos
  have hin := fun c hc => hA.free_inside (b := c) hc
  have hfree := hb.free
  have hsorted := hA.sorted
  generalize A.free = free at hin hfree hsorted
  induction free with
  | nil => exact ⟨[], [], rfl, by simp, by simp⟩
  | cons c rest ih =>
    obtain ⟨hnext, hrest⟩ := pairwise_cons.mp hsorted
    rcases hfree c (by simp) with hle | hle
    · refine ⟨[], c :: rest, rfl, by simp, ?_⟩
      intro d hd
      rcases mem_cons.mp hd with rfl | hd
      · exact hle
      · have hcd := hnext d hd
        unfold Block.stop at hle hcd ⊢
        omega
    · obtain ⟨before, after, rfl, hbefore, hafter⟩ := ih (fun d hd => hin d (by simp [hd]))
        (fun d hd => hfree d (by simp [hd])) hrest
      refine ⟨c :: before, after, rfl, ?_, hafter⟩
      intro d hd
      rcases mem_cons.mp hd with rfl | hd
      · exact hle
      · exact hbefore d hd

section Join

variable {taken before after after1 free' : List Block} {b b1 : Block} {high : ℕ}

theorem Up.addr_eq (hup : Up b after b1 after1) : b1.addr = b.addr := by
  cases hup <;> rfl

theorem Up.subset (hup : Up b after b1 after1) : ∀ c ∈ after1, c ∈ after := by
  cases hup with
  | keep gap => exact fun c hc => hc
  | join touch => exact fun c hc => mem_cons_of_mem _ hc

theorem apart_join {b a c : Block} (touch : b.stop = a.addr) (hc : 1 ≤ c.units)
    (hb : Apart b c) (ha : Apart a c) : Apart ⟨b.addr, b.units + a.units⟩ c := by
  unfold Apart Block.stop at *
  dsimp only
  omega

theorem Up.outside (hup : Up b after b1 after1)
    (hA : (⟨before ++ after, taken⟩ : Arena).Shape static low high)
    (hb : (⟨before ++ after, taken⟩ : Arena).Outside b low high) :
    (⟨before ++ after1, taken⟩ : Arena).Shape static low high ∧
      (⟨before ++ after1, taken⟩ : Arena).Outside b1 low high := by
  cases hup with
  | keep gap => exact ⟨hA, hb⟩
  | @join a rest touch =>
    have hin := hA.inside a (by simp)
    have hsorted : (before ++ a :: after1).Pairwise fun b c => b.stop ≤ c.addr := hA.sorted
    rw [pairwise_append, pairwise_cons] at hsorted
    obtain ⟨hbefore, ⟨hnext, hafter⟩, hacross⟩ := hsorted
    have hold : ∀ c ∈ before ++ after1, c ∈ before ++ a :: after1 := by
      intro c hc
      simp only [mem_append, mem_cons] at hc ⊢
      tauto
    have hunits : ∀ c ∈ (before ++ a :: after1) ++ taken, 1 ≤ c.units :=
      fun c hc => (hA.inside c hc).1
    have haway : ∀ c ∈ before ++ after1, Apart a c := by
      intro c hc
      rcases mem_append.mp hc with hc | hc
      · exact .inr (hacross c hc a (by simp))
      · exact .inl (hnext c hc)
    refine ⟨⟨hA.static_pos, hA.static_le, hA.low_le, ?_, ?_, hA.apart, ?_⟩, ?_, hb.low_le, ?_,
      ?_, ?_⟩
    · intro c hc
      apply hA.inside
      simp only [mem_append, mem_cons] at hc ⊢
      tauto
    · refine pairwise_append.mpr ⟨hbefore, hafter, ?_⟩
      intro c hc d hd
      exact hacross c hc d (by simp [hd])
    · intro c hc d hd
      exact hA.cross c (hold c hc) d hd
    · exact Nat.le_add_right_of_le hb.pos
    · have hstop := hin.2.2
      unfold Block.stop at touch hstop ⊢
      dsimp only
      omega
    · intro c hc
      exact apart_join touch (hunits c (mem_append_left _ (hold c hc)))
        (hb.free c (hold c hc)) (haway c hc)
    · intro c hc
      exact apart_join touch (hunits c (mem_append_right _ hc)) (hb.taken c hc)
        (hA.cross a (by simp) c hc)

theorem Arena.Shape.sorted_around {a : Block}
    (hA : (⟨before ++ a :: after, taken⟩ : Arena).Shape static low high) :
    (∀ c ∈ before, c.stop ≤ a.addr) ∧ ∀ c ∈ after, a.stop ≤ c.addr := by
  have hsorted := pairwise_append.mp hA.sorted
  exact ⟨fun c hc => hsorted.2.2 c hc a (by simp), (pairwise_cons.mp hsorted.2.1).1⟩

theorem Up.above (hup : Up b after b1 after1)
    (hA : (⟨before ++ after, taken⟩ : Arena).Shape static low high)
    (hafter : ∀ c ∈ after, b.stop ≤ c.addr) : ∀ c ∈ after1, b1.stop ≤ c.addr := by
  cases hup with
  | keep gap => exact hafter
  | @join a rest touch =>
    intro c hc
    have hac := hA.sorted_around.2 c hc
    unfold Block.stop at touch hac ⊢
    dsimp only
    omega

theorem Down.shape (hdown : Down b after before free')
    (hA : (⟨before ++ after, taken⟩ : Arena).Shape static low high)
    (hb : (⟨before ++ after, taken⟩ : Arena).Outside b low high)
    (hbefore : ∀ c ∈ before, c.stop ≤ b.addr) (hafter : ∀ c ∈ after, b.stop ≤ c.addr) :
    (⟨free', taken⟩ : Arena).Shape static low high := by
  cases hdown with
  | keep gap =>
    have hsorted : (before ++ after).Pairwise fun b c => b.stop ≤ c.addr := hA.sorted
    rw [pairwise_append] at hsorted
    refine ⟨hA.static_pos, hA.static_le, hA.low_le, ?_, ?_, hA.apart, ?_⟩
    · intro c hc
      by_cases heq : c = b
      · rw [heq]
        exact ⟨hb.pos, hb.low_le, hb.stop_le⟩
      · apply hA.inside
        simp only [mem_append, mem_cons] at hc ⊢
        tauto
    · refine pairwise_append.mpr
        ⟨hsorted.1, pairwise_cons.mpr ⟨hafter, hsorted.2.1⟩, ?_⟩
      intro c hc d hd
      rcases mem_cons.mp hd with rfl | hd
      · exact hbefore c hc
      · exact hsorted.2.2 c hc d hd
    · intro c hc d hd
      by_cases heq : c = b
      · rw [heq]
        exact hb.taken d hd
      · refine hA.cross c ?_ d hd
        simp only [mem_append, mem_cons] at hc ⊢
        tauto
  | @join before l touch =>
    have hl : l ∈ (before ++ [l]) ++ after := by simp
    have hin := hA.inside l (mem_append_left _ hl)
    have hsorted : ((before ++ [l]) ++ after).Pairwise fun b c => b.stop ≤ c.addr := hA.sorted
    rw [append_assoc, pairwise_append, singleton_append, pairwise_cons] at hsorted
    have hstop : (⟨l.addr, l.units + b.units⟩ : Block).stop = b.stop := by
      unfold Block.stop at touch ⊢
      dsimp only
      omega
    refine ⟨hA.static_pos, hA.static_le, hA.low_le, ?_, ?_, hA.apart, ?_⟩
    · intro c hc
      by_cases heq : c = ⟨l.addr, l.units + b.units⟩
      · have hend := hb.stop_le
        rw [heq, hstop]
        exact ⟨Nat.le_add_right_of_le hin.1, hin.2.1, hend⟩
      · apply hA.inside
        simp only [mem_append, mem_cons] at hc ⊢
        tauto
    · refine pairwise_append.mpr
        ⟨hsorted.1, pairwise_cons.mpr ⟨?_, hsorted.2.1.2⟩, ?_⟩
      · intro c hc
        rw [hstop]
        exact hafter c hc
      · intro c hc d hd
        rcases mem_cons.mp hd with rfl | hd
        · exact hsorted.2.2 c hc l (by simp)
        · exact hsorted.2.2 c hc d (by simp [hd])
    · intro c hc d hd
      by_cases heq : c = ⟨l.addr, l.units + b.units⟩
      · rw [heq]
        exact apart_join touch (hA.inside d (mem_append_right _ hd)).1
          (hA.cross l hl d hd) (hb.taken d hd)
      · refine hA.cross c ?_ d hd
        simp only [mem_append, mem_cons] at hc ⊢
        tauto

end Join

def Rejoined (free : List Block) (b : Block) (free' : List Block) : Prop :=
  ∃ before after b1 after1, free = before ++ after ∧ (∀ c ∈ before, c.stop ≤ b.addr) ∧
    (∀ c ∈ after, b.stop ≤ c.addr) ∧ Up b after b1 after1 ∧ Down b1 after1 before free'

theorem exists_up (hA : (⟨before ++ after, taken⟩ : Arena).Shape static low high)
    (hafter : ∀ c ∈ after, b.stop ≤ c.addr) : ∃ b1 after1, Up b after b1 after1 := by
  cases after with
  | nil => exact ⟨b, [], .keep (by simp)⟩
  | cons a rest =>
    by_cases htouch : b.stop = a.addr
    · exact ⟨_, rest, .join htouch⟩
    · refine ⟨b, a :: rest, .keep fun c hc => ?_⟩
      have hab := hafter a (by simp)
      rcases mem_cons.mp hc with rfl | hc
      · omega
      · have hac := hA.sorted_around.2 c hc
        unfold Block.stop at hac ⊢
        unfold Block.stop at hab htouch
        omega

theorem exists_down (hA : (⟨before ++ after, taken⟩ : Arena).Shape static low high)
    (hbefore : ∀ c ∈ before, c.stop ≤ b.addr) : ∃ free', Down b after before free' := by
  rcases eq_nil_or_concat before with rfl | ⟨init, l, hconcat⟩
  · exact ⟨_, .keep (by simp)⟩
  · rw [concat_eq_append] at hconcat
    subst hconcat
    by_cases htouch : l.stop = b.addr
    · exact ⟨_, .join htouch⟩
    · refine ⟨_, .keep fun c hc => ?_⟩
      have hlb := hbefore l (by simp)
      rcases mem_append.mp hc with hc | hc
      · have hpos := (hA.inside l (by simp)).1
        rw [append_assoc] at hA
        have hcl := hA.sorted_around.1 c hc
        unfold Block.stop at hlb hcl ⊢
        omega
      · rw [mem_singleton.mp hc]
        omega

/-- The memory after `free` has dealt with the upper neighbour of `bp`, having
found its place behind `p`. -/
def joinUp (m : Memory) (bp p : ℕ) : Memory :=
  if advance bp (units m bp) = ptr m p then
    let m1 := store 4 m (bp + 8) (units m bp + units m (ptr m p))
    store 8 m1 bp (ptr m1 (ptr m1 p))
  else
    store 8 m bp (ptr m p)

def joinDown (m : Memory) (bp p : ℕ) : Memory :=
  if advance p (units m p) = bp then
    let m1 := store 4 m (p + 8) (units m p + units m bp)
    store 8 m1 p (ptr m1 bp)
  else
    store 8 m p bp

theorem run_free {ap : ℕ} (hbp : (ap + 2 ^ 64 - 16) % 2 ^ 64 = bp)
    (hsearch : (freeSearch bp (s.brk + 1) s.freep).run s = .ok p s) :
    (free ap).run s =
      .ok () { s with mem := joinDown (joinUp s.mem bp p) bp p, freep := p } := by
  have hdown : ∀ s : Process, (do
      if advance p (units (← Prog.mem) p) = bp then
        Prog.poke32 (p + 8) (units (← Prog.mem) p + units (← Prog.mem) bp)
        Prog.poke64 p (ptr (← Prog.mem) bp)
      else
        Prog.poke64 p bp
      modify fun s => { s with freep := p } : Prog PUnit).run s =
        .ok () { s with mem := joinDown s.mem bp p, freep := p } := by
    intro s
    unfold joinDown
    rw [run_bind_ok (run_mem _)]
    split
    · rfl
    · rfl
  unfold free
  dsimp only
  rw [hbp, run_bind_ok (EStateM.run_get _), run_bind_ok (EStateM.run_get _),
    run_bind_ok hsearch, run_bind_ok (run_mem _), run_bind_ok (run_mem _)]
  unfold joinUp
  split
  · rw [run_bind_ok (run_mem _), run_bind_ok (run_mem _), run_bind_ok (run_poke32 _ _ _),
      run_bind_ok (run_mem _), run_bind_ok (run_mem _), run_bind_ok (run_poke64 _ _ _), hdown]
  · rw [run_bind_ok (run_mem _), run_bind_ok (run_poke64 _ _ _), hdown]

theorem joinUp_apply (hx : x < bp ∨ bp + 16 ≤ x) : joinUp m bp p x = m x := by
  unfold joinUp
  split
  · simp (disch := omega) only [store_apply_of_outside]
  · rw [store_apply_of_outside (by omega)]

theorem joinDown_apply (hx : x < p ∨ p + 16 ≤ x) : joinDown m bp p x = m x := by
  unfold joinDown
  split
  · simp (disch := omega) only [store_apply_of_outside]
  · rw [store_apply_of_outside (by omega)]

/-- Between the two halves `b` already points at what follows it, and header
`p` would close the ring if it pointed there as well. -/
structure Half (static : ℕ) (m : Memory) (before after : List Block) (b : Block) : Prop where
  circuit : Circuit (update (ptr m) (lastNode static before) (ptr m b.addr)) static
    ((before ++ after).map Block.addr)
  static : units m static = 0
  size : ∀ c ∈ before ++ after, units m c.addr = c.units
  own : units m b.addr = b.units

section Halves

variable {taken before after after1 free' : List Block} {b b1 : Block} {high : ℕ} {m : Memory}

theorem Arena.Outside.node {A : Arena} (hb : A.Outside b low high) (hA : A.Shape static low high)
    {x : ℕ} (hx : x ∈ A.nodes static) : x + 16 ≤ b.addr ∨ b.stop ≤ x := by
  have hlow := hb.low_le
  have hstatic := hA.static_le
  rcases Arena.Shape.mem_nodes.mp hx with rfl | ⟨c, hc, rfl⟩
  · exact .inl (by omega)
  · have hpos := (hA.free_inside hc).1
    rcases hb.free c hc with hle | hle
    · exact .inr hle
    · unfold Block.stop at hle
      exact .inl (by omega)

theorem Arena.free_node {A : Arena} {c : Block} (hc : c ∈ A.free) : c.addr ∈ A.nodes static :=
  Arena.Shape.mem_nodes.mpr (.inr ⟨c, hc, rfl⟩)

theorem half_joinUp {p : ℕ} (hp : lastNode static before = p)
    (hA : (⟨before ++ after, taken⟩ : Arena).Shape static low high)
    (hb : (⟨before ++ after, taken⟩ : Arena).Outside b low high) (hhigh : high < 2 ^ 64)
    (hm : (⟨before ++ after, taken⟩ : Arena).Stored static m) (hsize : units m b.addr = b.units)
    (hup : Up b after b1 after1) (hunits : b1.units < 2 ^ 32) :
    Half static (joinUp m b.addr p) before after1 b1 := by
  have hpos := hb.pos
  have hplace : ∀ x ∈ (⟨before ++ after, taken⟩ : Arena).nodes static,
      x + 16 ≤ b.addr ∨ b.addr + 16 ≤ x := by
    intro x hx
    have hapart := hb.node hA hx
    unfold Block.stop at hapart
    omega
  have hpnode : p ∈ (⟨before ++ after, taken⟩ : Arena).nodes static := hp ▸ lastNode_nodes rfl
  have hsame : ∀ x ∈ (⟨before ++ after, taken⟩ : Arena).nodes static,
      ptr (joinUp m b.addr p) x = ptr m x ∧ units (joinUp m b.addr p) x = units m x := fun x hx => by
    have hapart := hplace x hx
    exact ⟨load_congr fun y _ _ => joinUp_apply (by omega),
      load_congr fun y _ _ => joinUp_apply (by omega)⟩
  have hcircuit := hm.circuit
  rw [map_append] at hcircuit
  have hnext : ptr m p = (after.map Block.addr).headD static := hp ▸ hcircuit.next_front
  have hadvance : advance b.addr (units m b.addr) = b.stop := by
    have hstop := hb.stop_le
    rw [hsize]
    unfold advance
    unfold Block.stop at hstop ⊢
    exact Nat.mod_eq_of_lt (by omega)
  have hstatic : units (joinUp m b.addr p) static = 0 :=
    (hsame static mem_cons_self).2.trans hm.static
  cases hup with
  | keep gap =>
    have hcond : ¬ advance b.addr (units m b.addr) = ptr m p := by
      rw [hadvance, hnext]
      cases after with
      | nil =>
        have hlow := hb.low_le
        have hbelow := hA.static_le
        change ¬ b.stop = static
        unfold Block.stop
        omega
      | cons a rest => exact (gap a (by simp)).ne
    have hjoin : joinUp m b.addr p = store 8 m b.addr (ptr m p) := if_neg hcond
    have hlink : ptr (joinUp m b.addr p) b.addr = ptr m p := by
      rw [hjoin]
      exact load_store_of_lt (load_lt 8 _ _)
    refine ⟨hm.circuit.congr ?_, hstatic,
      fun c hc => (hsame _ (Arena.free_node hc)).2.trans (hm.size c hc),
      ?_⟩
    · intro x hx
      rw [hlink, hp]
      by_cases heq : x = p
      · rw [heq, update_self]
      · rw [update_of_ne heq, (hsame x hx).1]
    · rw [hjoin, ← hsize]
      exact load_store_of_disjoint (by omega)
  | @join a rest touch =>
    have ha : a.addr ∈ (⟨before ++ a :: after1, taken⟩ : Arena).nodes static :=
      Arena.free_node (by simp)
    have hjoin : joinUp m b.addr p =
        store 8 (store 4 m (b.addr + 8) (b.units + a.units)) b.addr (ptr m a.addr) := by
      have hcond : advance b.addr (units m b.addr) = ptr m p := by
        rw [hadvance, hnext]
        exact touch
      have hpa : ptr m p = a.addr := hnext
      have hthrough : ∀ x ∈ (⟨before ++ a :: after1, taken⟩ : Arena).nodes static,
          ptr (store 4 m (b.addr + 8) (b.units + a.units)) x = ptr m x := fun x hx => by
        have hapart := hplace x hx
        exact load_store_of_disjoint (by omega)
      unfold joinUp
      rw [if_pos hcond, hpa, hsize, hm.size a (by simp)]
      dsimp only
      rw [hthrough p hpnode, hpa, hthrough a.addr ha]
    have hlink : ptr (joinUp m b.addr p) b.addr = ptr m a.addr := by
      rw [hjoin]
      exact load_store_of_lt (load_lt 8 _ _)
    have hrest : ∀ c ∈ before ++ after1, c ∈ before ++ a :: after1 := by
      intro c hc
      simp only [mem_append, mem_cons] at hc ⊢
      tauto
    have hnodup := hA.nodes_nodup
    rw [Arena.nodes] at hnodup
    dsimp only at hnodup
    rw [map_append] at hnodup
    refine ⟨?_, hstatic,
      fun c hc => (hsame _ (Arena.free_node (hrest c hc))).2.trans (hm.size c (hrest c hc)), ?_⟩
    · rw [map_append, hlink, hp]
      refine hcircuit.remove hnodup ?_ ?_
      · change update _ p _ (lastNode static before) = _
        rw [hp, update_self]
      · intro y hy hne
        change y ≠ lastNode static before at hne
        rw [hp] at hne
        rw [update_of_ne hne, (hsame y ?_).1]
        rcases mem_cons.mp hy with rfl | hy
        · exact mem_cons_self
        · rw [← map_append] at hy
          obtain ⟨c, hc, rfl⟩ := mem_map.mp hy
          exact Arena.free_node (hrest c hc)
    · rw [hjoin]
      unfold units
      rw [load_store_of_disjoint (by dsimp only; omega)]
      exact load_store_of_lt (by omega)

theorem stored_joinDown {p : ℕ} (hp : lastNode static before = p)
    (hA : (⟨before ++ after, taken⟩ : Arena).Shape static low high)
    (hb : (⟨before ++ after, taken⟩ : Arena).Outside b low high) (hhigh : high < 2 ^ 64)
    (hm : Half static m before after b) (hdown : Down b after before free')
    (hunits : ∀ c ∈ free', c.units < 2 ^ 32) :
    (⟨free', taken⟩ : Arena).Stored static (joinDown m b.addr p) := by
  have hpos := hb.pos
  have hlow := hb.low_le
  have hstop := hb.stop_le
  have hbelow := hA.static_le
  have hbb : b.addr + 16 ≤ b.stop := by
    unfold Block.stop
    omega
  have hpnode : p ∈ (⟨before ++ after, taken⟩ : Arena).nodes static := hp ▸ lastNode_nodes rfl
  have hpb := hb.node hA hpnode
  have hfar : ∀ x, x + 16 ≤ p ∨ p + 16 ≤ x →
      ptr (joinDown m b.addr p) x = ptr m x ∧ units (joinDown m b.addr p) x = units m x := fun x hx =>
    ⟨load_congr fun y _ _ => joinDown_apply (by omega),
      load_congr fun y _ _ => joinDown_apply (by omega)⟩
  have hsame : ∀ x ∈ (⟨before ++ after, taken⟩ : Arena).nodes static, x ≠ p →
      ptr (joinDown m b.addr p) x = ptr m x ∧ units (joinDown m b.addr p) x = units m x :=
    fun x hx hne => hfar x (by have hapart := hA.node_apart hpnode hx; omega)
  have hown := hfar b.addr (by omega)
  cases hdown with
  | keep gap =>
    have hcond : ¬ advance p (units m p) = b.addr := by
      unfold advance
      rcases eq_nil_or_concat before with rfl | ⟨init, l, hconcat⟩
      · have hps : static = p := hp
        rw [← hps, hm.static]
        omega
      · rw [concat_eq_append] at hconcat
        subst hconcat
        have hl := gap l (by simp)
        have hpl : l.addr = p := by
          rw [← hp]
          simp [lastNode]
        rw [← hpl, hm.size l (by simp)]
        unfold Block.stop at hl
        omega
    have hjoin : joinDown m b.addr p = store 8 m p b.addr := if_neg hcond
    have hcircuit := hm.circuit
    rw [map_append, hp] at hcircuit
    have hnodup := hA.nodes_nodup
    rw [Arena.nodes] at hnodup
    dsimp only at hnodup
    rw [map_append] at hnodup
    have hpsize : units (joinDown m b.addr p) p = units m p := by
      rw [hjoin]
      exact load_store_of_disjoint (by omega)
    have hall : ∀ x ∈ (⟨before ++ after, taken⟩ : Arena).nodes static,
        units (joinDown m b.addr p) x = units m x := by
      intro x hx
      by_cases heq : x = p
      · rw [heq, hpsize]
      · exact (hsame x hx heq).2
    refine ⟨?_, (hall static mem_cons_self).trans hm.static, ?_⟩
    · dsimp only
      rw [map_append, map_cons]
      refine hcircuit.insert hnodup ?_ ?_ ?_
      · change ptr _ (lastNode static before) = _
        rw [hp, hjoin]
        exact load_store_of_lt (by omega)
      · change _ = update (ptr m) p (ptr m b.addr) (lastNode static before)
        rw [hp, update_self, hown.1]
      · intro y hy hne
        change y ≠ lastNode static before at hne
        rw [hp] at hne
        rw [update_of_ne hne]
        refine (hsame y ?_ hne).1
        rw [Arena.nodes]
        dsimp only
        rwa [map_append]
    · intro c hc
      by_cases heq : c = b
      · rw [heq, hown.2]
        exact hm.own
      · have hold : c ∈ before ++ after := by
          dsimp only at hc
          simp only [mem_append, mem_cons] at hc ⊢
          tauto
        rw [hall _ (Arena.free_node hold)]
        exact hm.size c hold
  | @join init l touch =>
    have hpl : l.addr = p := by
      rw [← hp]
      simp [lastNode]
    have hlsize := hm.size l (by simp)
    have hsum := hunits ⟨l.addr, l.units + b.units⟩ (by simp)
    have hjoin : joinDown m b.addr p =
        store 8 (store 4 m (p + 8) (l.units + b.units)) p (ptr m b.addr) := by
      have hcond : advance p (units m p) = b.addr := by
        rw [← hpl, hlsize, ← touch]
        unfold advance
        unfold Block.stop at touch ⊢
        exact Nat.mod_eq_of_lt (by omega)
      unfold joinDown
      rw [if_pos hcond, hm.own, ← hpl, hlsize]
      dsimp only
      congr 1
      exact load_store_of_disjoint (by omega)
    have hps : static ≠ p := by
      have hin := (hA.inside l (by simp)).2.1
      omega
    refine ⟨?_, (hsame static mem_cons_self hps).2.trans hm.static, ?_⟩
    · have hcircuit := hm.circuit
      have hmap : (init ++ (⟨l.addr, l.units + b.units⟩ : Block) :: after).map Block.addr =
          ((init ++ [l]) ++ after).map Block.addr := by simp
      dsimp only
      rw [hmap]
      refine hcircuit.congr fun x hx => ?_
      rw [hp]
      by_cases heq : x = p
      · rw [heq, update_self, hjoin]
        exact load_store_of_lt (load_lt 8 _ _)
      · rw [update_of_ne heq]
        exact (hsame x hx heq).1
    · intro c hc
      by_cases heq : c = ⟨l.addr, l.units + b.units⟩
      · rw [heq, hjoin]
        dsimp only
        rw [hpl]
        unfold units
        rw [load_store_of_disjoint (by omega)]
        exact load_store_of_lt (by dsimp only at hsum; omega)
      · have hold : c ∈ init ++ after := by
          dsimp only at hc
          simp only [mem_append, mem_cons] at hc ⊢
          tauto
        have hin : c ∈ (init ++ [l]) ++ after := by
          simp only [mem_append, mem_cons] at hold ⊢
          tauto
        have hne : c.addr ≠ p := by
          have hcpos := (hA.inside c (mem_append_left _ hin)).1
          have hlpos := (hA.inside l (by simp)).1
          rw [append_assoc] at hA
          rcases mem_append.mp hold with hc | hc
          · have hle := hA.sorted_around.1 c hc
            unfold Block.stop at hle
            omega
          · have hle := hA.sorted_around.2 c hc
            unfold Block.stop at hle
            omega
        rw [(hsame _ (Arena.free_node hin) hne).2]
        exact hm.size c hin

end Halves

theorem Down.units_lt (hdown : Down b after before free') (hunits : ∀ c ∈ free', c.units < 2 ^ 32) :
    b.units < 2 ^ 32 := by
  cases hdown with
  | keep gap => exact hunits b (by simp)
  | @join init l touch =>
    have hsum := hunits ⟨l.addr, l.units + b.units⟩ (by simp)
    dsimp only at hsum
    omega

/-- What `free` makes of a pool that has a block `b` beside its own. -/
structure Released (P : Pool static low) (b : Block) (P' : Pool static low) : Prop where
  rejoined : Rejoined P.arena.free b P'.arena.free
  taken : P'.arena.taken = P.arena.taken
  process : P'.process =
    { P.process with mem := P'.process.mem, freep := P'.process.freep }
  mem : ∀ x, (∀ n ∈ P.arena.nodes static, x < n ∨ n + 16 ≤ x) →
    (x < b.addr ∨ b.addr + 16 ≤ x) → P'.process.mem x = P.process.mem x

theorem le_lastNode {c : Block} (hsorted : (before ++ after).Pairwise fun b c => b.stop ≤ c.addr)
    (hc : c ∈ before) : c.addr ≤ lastNode static before := by
  rcases eq_nil_or_concat before with rfl | ⟨init, l, hconcat⟩
  · exact absurd hc not_mem_nil
  · rw [concat_eq_append] at hconcat
    subst hconcat
    have hlast : lastNode static (init ++ [l]) = l.addr := by simp [lastNode]
    rw [hlast]
    rcases mem_append.mp hc with hc | hc
    · rw [append_assoc, pairwise_append] at hsorted
      have hle := hsorted.2.2 c hc l (by simp)
      unfold Block.stop at hle
      omega
    · rw [mem_singleton.mp hc]

theorem Down.lastNode_mem (hdown : Down b after before free') :
    lastNode static before ∈ static :: free'.map Block.addr := by
  cases hdown with
  | keep gap =>
    have hmem := Umalloc.lastNode_mem static before
    simp only [map_append, mem_cons, mem_append] at hmem ⊢
    tauto
  | @join init l touch =>
    have hlast : lastNode static (init ++ [l]) = l.addr := by simp [lastNode]
    rw [hlast]
    simp

section Release

variable (P : Pool static low) {b : Block} {before after : List Block}

theorem Pool.run_freeSearch (hfree : P.arena.free = before ++ after)
    (hb : P.arena.Outside b low P.process.brk) (hbefore : ∀ c ∈ before, c.stop ≤ b.addr)
    (hafter : ∀ c ∈ after, b.stop ≤ c.addr) :
    (freeSearch b.addr (P.process.brk + 1) P.process.freep).run P.process =
      .ok (lastNode static before) P.process := by
  have hlast : lastNode static before ∈ P.arena.nodes static := lastNode_nodes hfree
  have hsorted : (P.arena.nodes static).Pairwise fun x y => x < y :=
    P.shape.nodes_lt.imp fun h => by omega
  have hpos := hb.pos
  have hsort := P.shape.sorted
  have hlt : lastNode static before < b.addr := by
    have hlow := hb.low_le
    have hstatic := P.shape.static_le
    rcases mem_cons.mp (lastNode_mem static before) with heq | hmem
    · omega
    · obtain ⟨c, hc, heq⟩ := mem_map.mp hmem
      have hunits := (P.shape.free_inside (b := c) (by simp [hfree, hc])).1
      have hle := hbefore c hc
      unfold Block.stop at hle
      omega
  have hgap : ∀ x ∈ P.arena.nodes static, x ≤ lastNode static before ∨ b.addr < x := by
    intro x hx
    rcases Arena.Shape.mem_nodes.mp hx with rfl | ⟨c, hc, rfl⟩
    · exact .inl (P.shape.node_bounds hlast).2.1
    · rw [hfree] at hc
      rcases mem_append.mp hc with hc | hc
      · exact .inl (le_lastNode (by rw [hfree] at hsort; exact hsort) hc)
      · have hle := hafter c hc
        unfold Block.stop at hle
        exact .inr (by omega)
  obtain ⟨others, hcircuit, hperm⟩ := P.stored.circuit.rotate P.freep
  obtain ⟨xs, ys, hsplit⟩ := append_of_mem (hperm.mem_iff.mpr hlast)
  have hstop : ∀ y ∈ P.arena.nodes static,
      (Stops P.process.mem b.addr y ↔ y = lastNode static before) := fun y hy =>
    stops_iff P.stored.circuit hsorted hlast hlt hgap hy
  have hnodup : (xs ++ lastNode static before :: ys).Nodup := by
    rw [← hsplit]
    exact hperm.nodup_iff.mpr P.shape.nodes_nodup
  have hstart : xs.headD (lastNode static before) = P.process.freep := by
    cases xs with
    | nil => exact (List.cons.inj hsplit).1.symm
    | cons x rest => exact (List.cons.inj hsplit).1.symm
  have hchain : (xs ++ [lastNode static before]).IsChain fun x y => ptr P.process.mem x = y := by
    rw [Circuit, hsplit, append_assoc, cons_append] at hcircuit
    exact (isChain_split.mp hcircuit).1
  have hlength : xs.length ≤ P.process.brk := by
    have hcount := hperm.length_eq
    have hle := P.shape.length_le
    rw [hsplit] at hcount
    simp only [length_cons, length_append, length_map] at hcount
    omega
  obtain ⟨extra, hextra⟩ : ∃ extra, P.process.brk + 1 = xs.length + 1 + extra :=
    ⟨P.process.brk - xs.length, by omega⟩
  rw [hextra, ← hstart]
  refine Umalloc.run_freeSearch extra xs hchain ?_ ((hstop _ hlast).mpr rfl)
  intro x hx
  have hxnode : x ∈ P.arena.nodes static := by
    apply hperm.mem_iff.mp
    rw [hsplit]
    exact mem_append_left _ hx
  rw [hstop x hxnode]
  rintro rfl
  exact (nodup_append.mp hnodup).2.2 _ hx _ mem_cons_self rfl

theorem Pool.exists_release (hb : P.arena.Outside b low P.process.brk)
    (hsize : units P.process.mem b.addr = b.units)
    (hfits : ∀ free', Rejoined P.arena.free b free' → ∀ c ∈ free', c.units < 2 ^ 32) :
    ∃ P' : Pool static low, (free (b.addr + 16)).run P.process = .ok () P'.process ∧
      Released P b P' := by
  obtain ⟨before, after, hfree, hbefore, hafter⟩ := hb.split P.shape
  have hspace := P.space
  have harena : P.arena = ⟨before ++ after, P.arena.taken⟩ := by
    rw [← hfree]
  have hshape := P.shape
  have hstored := P.stored
  have hout := hb
  rw [harena] at hshape hstored hout
  obtain ⟨b1, after1, hup⟩ := exists_up hshape hafter
  obtain ⟨hshape1, hout1⟩ := hup.outside hshape hout
  obtain ⟨free', hdown⟩ := exists_down (b := b1) hshape1 (hup.addr_eq ▸ hbefore)
  have hrejoined : Rejoined P.arena.free b free' :=
    ⟨before, after, b1, after1, hfree, hbefore, hafter, hup, hdown⟩
  have hunits := hfits free' hrejoined
  have hhalf := half_joinUp rfl hshape hout P.space hstored hsize hup (hdown.units_lt hunits)
  have hfinal := stored_joinDown rfl hshape1 hout1 P.space hhalf hdown hunits
  rw [hup.addr_eq] at hfinal
  have hend := hb.stop_le
  have hpos := hb.pos
  have haddr : (b.addr + 16 + 2 ^ 64 - 16) % 2 ^ 64 = b.addr := by
    unfold Block.stop at hend
    omega
  have hrun := run_free haddr (P.run_freeSearch hfree hb hbefore hafter)
  refine ⟨⟨⟨free', P.arena.taken⟩,
    { P.process with
      mem := joinDown (joinUp P.process.mem b.addr (lastNode static before)) b.addr
        (lastNode static before)
      freep := lastNode static before }, ?_, hfinal, hdown.lastNode_mem, hspace⟩,
    hrun, hrejoined, rfl, rfl, ?_⟩
  · exact hdown.shape hshape1 hout1 (hup.addr_eq ▸ hbefore) (hup.above hshape hafter)
  · intro x hx hxb
    have hplace := hx _ (lastNode_nodes hfree)
    dsimp only
    rw [joinDown_apply hplace, joinUp_apply hxb]

end Release

end Xv6MallocLab.Umalloc
