import Xv6MallocLab.UmallocGrowth
import Xv6MallocLab.ProcessRuns

/-!
# Requests to the K&R allocator

The loop of `malloc` goes once around the list from behind `freep`.  If some block is
large enough it finds one; otherwise it asks for more memory and finds a block on the
second round.
-/

namespace Xv6MallocLab.Umalloc

open ByteMemory CircularList List Prog

attribute [local irreducible] load store

variable {static low : ℕ}

variable {s : Process} {n : ℕ} {before : List ℕ}

theorem run_mallocLoop_skip {x : ℕ} (bound prevp : ℕ) (hnext : ptr s.mem prevp = x)
    (hx : units s.mem x < n) (hne : x ≠ s.freep) :
    (mallocLoop n (bound + 1) prevp (ptr s.mem prevp)).run s =
      (mallocLoop n bound x (ptr s.mem x)).run s := by
  rw [mallocLoop, run_bind_ok (run_mem _), hnext, run_ite, if_neg (by omega),
    run_bind_ok (EStateM.run_get _), run_ite, if_neg hne, run_bind_ok (run_mem _)]

theorem run_mallocLoop_skips {q : ℕ} (bound prevp : ℕ)
    (hchain : (prevp :: before ++ [q]).IsChain fun x y => ptr s.mem x = y)
    (hsmall : ∀ x ∈ before, units s.mem x < n ∧ x ≠ s.freep) :
    (mallocLoop n (before.length + 1 + bound) prevp (ptr s.mem prevp)).run s =
      (mallocLoop n (bound + 1) ((prevp :: before).getLast (by simp)) q).run s := by
  induction before generalizing prevp with
  | nil =>
    rw [← (isChain_cons_cons.mp hchain).1, length_nil, Nat.zero_add, Nat.add_comm 1]
    rfl
  | cons x rest ih =>
    obtain ⟨hnext, htail⟩ := isChain_cons_cons.mp hchain
    obtain ⟨hx, hne⟩ := hsmall x (by simp)
    rw [show (x :: rest).length + 1 + bound = (rest.length + 1 + bound) + 1 by
        simp only [length_cons]; omega,
      run_mallocLoop_skip _ _ hnext hx hne, ih x htail fun y hy => hsmall y (by simp [hy]),
      getLast_cons_cons]

theorem run_mallocLoop_found {q : ℕ} (bound prevp : ℕ)
    (hchain : (prevp :: before ++ [q]).IsChain fun x y => ptr s.mem x = y)
    (hsmall : ∀ x ∈ before, units s.mem x < n ∧ x ≠ s.freep) (hq : n ≤ units s.mem q) :
    (mallocLoop n (before.length + 1 + bound) prevp (ptr s.mem prevp)).run s =
      (carve n ((prevp :: before).getLast (by simp)) q).run s := by
  rw [run_mallocLoop_skips bound prevp hchain hsmall, mallocLoop, run_bind_ok (run_mem _), run_ite,
    if_pos hq]

theorem run_mallocLoop_none (bound prevp : ℕ)
    (hchain : (prevp :: before ++ [s.freep]).IsChain fun x y => ptr s.mem x = y)
    (hsmall : ∀ x ∈ before, units s.mem x < n ∧ x ≠ s.freep) (hfreep : units s.mem s.freep < n) :
    (mallocLoop n (before.length + 1 + bound) prevp (ptr s.mem prevp)).run s =
      (do
        let p ← morecore n
        if p = 0 then
          return 0
        else
          mallocLoop n bound p (ptr (← Prog.mem) p) : Prog ℕ).run s := by
  rw [run_mallocLoop_skips bound prevp hchain hsmall, mallocLoop, run_bind_ok (run_mem _), run_ite,
    if_neg (by omega), run_bind_ok (EStateM.run_get _), run_ite, if_pos rfl]

/-- A block of `n` units at `q` is taken from the free list, or cut off the
end of a larger one. -/
inductive Cut : List Block → ℕ → ℕ → List Block → Prop
  | whole (before after : List Block) (b : Block) :
      Cut (before ++ b :: after) b.units b.addr (before ++ after)
  | back (before after : List Block) {b : Block} {n : ℕ} (hn : n < b.units) :
      Cut (before ++ b :: after) n (b.back n).addr (before ++ b.front n :: after)

structure Carved (P : Pool static low) (n q : ℕ) (P' : Pool static low) : Prop where
  cut : Cut P.arena.free n q P'.arena.free
  taken : P'.arena.taken = ⟨q, n⟩ :: P.arena.taken
  header : units P'.process.mem q = n
  process : P'.process =
    { P.process with mem := P'.process.mem, freep := P'.process.freep }
  mem : ∀ x, (∀ c ∈ P.arena.nodes static, x < c ∨ c + 16 ≤ x) → (x < q ∨ q + 16 ≤ x) →
    P'.process.mem x = P.process.mem x

variable {P P' : Pool static low} {n : ℕ} {nbytes : UInt32}

theorem Carved.frame {q : ℕ} (hcarved : Carved P n q P') : Frame P P' := by
  have hprocess := hcarved.process
  have hbrk : P'.process.brk = P.process.brk := by rw [hprocess]
  refine ⟨?_, hbrk.ge, ?_, ?_, ?_, ?_⟩
  · intro x hx
    have hin := P'.shape.inside ⟨q, n⟩ (by simp [hcarved.taken])
    have hstatic : ¬ (static ≤ x ∧ x < static + 16) := fun h => hx (.inl h)
    have hhigh : ¬ (low ≤ x ∧ x < P'.process.brk) := fun h => hx (.inr h)
    unfold Block.stop at hin
    dsimp only at hin
    refine hcarved.mem x ?_ (by omega)
    intro c hc
    have hbounds := P.shape.node_bounds hc
    omega
  all_goals rw [hprocess]

structure Granted (P : Pool static low) (n p : ℕ) (P' : Pool static low) : Prop where
  frame : Frame P P'
  block : ∃ q, p = q + 16 ∧ P'.arena.taken = ⟨q, n⟩ :: P.arena.taken

def Served (P : Pool static low) (n p : ℕ) (P' : Pool static low) : Prop :=
  ∃ P1 q, (P1 = P ∨ Grown P n P1) ∧ p = q + 16 ∧ Carved P1 n q P'

theorem Served.granted {p : ℕ} (hserved : Served P n p P') : Granted P n p P' := by
  obtain ⟨P1, q, hsupply, hp, hcarved⟩ := hserved
  have htaken := hcarved.taken
  rcases hsupply with rfl | hgrown
  · exact ⟨hcarved.frame, q, hp, htaken⟩
  · rw [hgrown.taken] at htaken
    exact ⟨hgrown.frame.trans hcarved.frame, q, hp, htaken⟩

section Serve

variable (P : Pool static low) {n : ℕ}

theorem Pool.exists_carve (hpos : 1 ≤ n) {b : Block} (hb : b ∈ P.arena.free)
    (hn : n ≤ b.units) {prevp : ℕ} (hprevp : prevp ∈ P.arena.nodes static)
    (hlink : ptr P.process.mem prevp = b.addr) :
    ∃ q P', (carve n prevp b.addr).run P.process = .ok (q + 16) P'.process ∧ Carved P n q P' := by
  obtain ⟨before, after, hfree⟩ := append_of_mem hb
  have hsize := P.stored.size b hb
  have hbrk := P.space
  have hnode := P.node_lt (P.node_of_mem hb)
  unfold carve
  rw [run_bind_ok (run_mem _), hsize]
  by_cases hexact : b.units = n
  · have hcircuit := P.stored.circuit
    rw [hfree, map_append, map_cons] at hcircuit
    have hlast : lastNode static before ∈ P.arena.nodes static := lastNode_nodes hfree
    have hprev : prevp = lastNode static before := by
      refine P.stored.circuit.next_injective P.shape.nodes_nodup hprevp hlast ?_
      rw [hlink]
      exact hcircuit.links_member.1.symm
    refine ⟨b.addr, P.unlink hfree, ?_, ?_, ?_, ?_, rfl, ?_⟩
    · rw [if_pos hexact, run_bind_ok (run_mem _), run_bind_ok (run_poke64 _ _ _),
        run_bind_ok (EStateM.run_modify _ _), hprev, Nat.mod_eq_of_lt (by omega)]
      rfl
    · rw [hfree, ← hexact]
      exact Cut.whole before after b
    · rw [← hexact]
      rfl
    · rw [← hexact, ← hsize]
      exact P.units_store hlast (P.node_of_mem hb) _
    · intro x hx _
      have hplace := hx _ hlast
      exact store_apply_of_outside (by omega)
  · have hlt : n < b.units := by omega
    have hstop := (P.shape.free_inside hb).2.2
    have hback : (b.back n).addr + 16 ≤ b.stop := by
      unfold Block.stop Block.back
      dsimp only
      omega
    have hunits := P.units_lt hb
    have hrest : units (store 4 P.process.mem (b.addr + 8) (b.units - n)) b.addr = b.units - n :=
      load_store_of_lt (by omega)
    have hadvance : advance b.addr (b.units - n) = (b.back n).addr := by
      unfold advance
      rw [Nat.mod_eq_of_lt]
      · rfl
      · change (b.back n).addr < _
        omega
    refine ⟨(b.back n).addr, P.shrink hfree hpos hlt hprevp, ?_, ?_, rfl, ?_, rfl, ?_⟩
    · rw [if_neg hexact, run_bind_ok (run_poke32 _ _ _), run_bind_ok (run_mem _)]
      dsimp only
      rw [hrest, hadvance, run_bind_ok (run_poke32 _ _ _), run_bind_ok (EStateM.run_modify _ _),
        Nat.mod_eq_of_lt (by omega)]
      rfl
    · rw [hfree]
      exact Cut.back before after hlt
    · exact load_store_of_lt (by omega)
    · intro x hx hxq
      have hplace := hx _ (P.node_of_mem hb)
      change shrinkMem P.process.mem b n x = _
      unfold shrinkMem
      simp (disch := omega) only [store_apply_of_outside]

theorem Pool.visit : ∃ others, Circuit (ptr P.process.mem) P.process.freep others ∧
    (P.process.freep :: others).Perm (P.arena.nodes static) ∧ P.process.freep ∉ others ∧
    others.length = P.arena.free.length := by
  obtain ⟨others, hcircuit, hperm⟩ := P.stored.circuit.rotate P.freep
  refine ⟨others, hcircuit, hperm, ?_, ?_⟩
  · exact (nodup_cons.mp (hperm.nodup_iff.mpr P.shape.nodes_nodup)).1
  · have hlength := hperm.length_eq
    simpa using hlength

theorem Pool.units_node {x : ℕ} (hx : x ∈ P.arena.nodes static) (hpos : 1 ≤ n)
    (hn : n ≤ units P.process.mem x) : ∃ b ∈ P.arena.free, b.addr = x ∧ n ≤ b.units := by
  rcases Arena.Shape.mem_nodes.mp hx with rfl | ⟨b, hb, rfl⟩
  · rw [P.stored.static] at hn
    omega
  · exact ⟨b, hb, rfl, by rwa [P.stored.size b hb] at hn⟩

theorem Pool.exists_first (hpos : 1 ≤ n) (hfit : ∃ b ∈ P.arena.free, n ≤ b.units) :
    ∃ (before : List ℕ) (b : Block), b ∈ P.arena.free ∧ n ≤ b.units ∧
      before.length ≤ P.arena.free.length ∧
      (P.process.freep :: before ++ [b.addr]).IsChain (fun x y => ptr P.process.mem x = y) ∧
      (∀ x ∈ before, units P.process.mem x < n ∧ x ≠ P.process.freep) ∧
      (P.process.freep :: before).getLast (by simp) ∈ P.arena.nodes static := by
  obtain ⟨others, hcircuit, hperm, hnotin, hlength⟩ := P.visit
  have hnodes : ∀ x ∈ others ++ [P.process.freep], x ∈ P.arena.nodes static := by
    intro x hx
    apply hperm.mem_iff.mp
    simp only [mem_append, mem_cons] at hx ⊢
    tauto
  obtain ⟨q, hq⟩ : ∃ q, (others ++ [P.process.freep]).find?
      (fun x => decide (n ≤ units P.process.mem x)) = some q := by
    rw [← Option.isSome_iff_exists, find?_isSome]
    obtain ⟨b, hb, hn⟩ := hfit
    refine ⟨b.addr, ?_, ?_⟩
    · have hmem := hperm.mem_iff.mpr (P.node_of_mem hb)
      simp only [mem_append, mem_cons] at hmem ⊢
      tauto
    · rw [P.stored.size b hb]
      exact decide_eq_true hn
  rw [find?_eq_some_iff_append] at hq
  obtain ⟨hlarge, before, after, hsplit, hsmall⟩ := hq
  have hcount : before.length ≤ others.length := by
    have hcount := congrArg List.length hsplit
    simp only [length_append, length_cons, length_nil] at hcount
    omega
  have hfront : ∀ x ∈ before, x ∈ others := by
    intro x hx
    have hdrop : before = (others ++ [P.process.freep]).take before.length := by
      rw [hsplit, take_left]
    rw [hdrop, take_append_of_le_length hcount] at hx
    exact mem_of_mem_take hx
  have hchain : (P.process.freep :: before ++ [q]).IsChain
      fun x y => ptr P.process.mem x = y := by
    have hwhole : (P.process.freep :: before ++ q :: after).IsChain
        fun x y => ptr P.process.mem x = y := by
      have hcircuit' := hcircuit
      rw [Circuit, cons_append, hsplit] at hcircuit'
      exact hcircuit'
    exact (isChain_split.mp hwhole).1
  have hq : n ≤ units P.process.mem q := of_decide_eq_true hlarge
  obtain ⟨b, hb, rfl, hn⟩ := P.units_node (hnodes q (by simp [hsplit])) hpos hq
  refine ⟨before, b, hb, hn, by omega, hchain, ?_, ?_⟩
  · intro x hx
    refine ⟨by simpa using hsmall x hx, ?_⟩
    rintro rfl
    exact hnotin (hfront _ hx)
  · have hmem := getLast_mem (l := P.process.freep :: before) (by simp)
    rcases mem_cons.mp hmem with heq | hmem
    · rw [heq]
      exact P.freep
    · exact hnodes _ (by simp [hfront _ hmem])

theorem Pool.exists_carved (hpos : 1 ≤ n) (hfit : ∃ b ∈ P.arena.free, n ≤ b.units) :
    ∃ b prevp q P', (carve n prevp b).run P.process = .ok (q + 16) P'.process ∧ Carved P n q P' ∧
      ∀ (s : Process) (bound : ℕ), s.mem = P.process.mem → s.freep = P.process.freep →
        P.arena.free.length + 1 ≤ bound →
        (mallocLoop n bound s.freep (ptr s.mem s.freep)).run s = (carve n prevp b).run s := by
  obtain ⟨before, b, hb, hn, hcount, hchain, hsmall, hlast⟩ := P.exists_first hpos hfit
  have hlink : ptr P.process.mem ((P.process.freep :: before).getLast (by simp)) = b.addr := by
    have hlist : P.process.freep :: before ++ [b.addr] = (P.process.freep :: before).dropLast ++
        (P.process.freep :: before).getLast (by simp) :: [b.addr] := by
      rw [← singleton_append (l := [b.addr]), ← append_assoc,
        dropLast_append_getLast]
    rw [hlist, isChain_append_cons_cons] at hchain
    exact hchain.2.1
  obtain ⟨q, P', hrun, hcarved⟩ := P.exists_carve hpos hb hn hlast hlink
  refine ⟨b.addr, _, q, P', hrun, hcarved, fun s bound hmem hfreep hbound => ?_⟩
  obtain ⟨extra, rfl⟩ : ∃ extra, bound = before.length + 1 + extra :=
    ⟨bound - before.length - 1, by omega⟩
  rw [← hmem, ← hfreep] at hchain
  rw [← hmem, ← hfreep] at hsmall
  have hlarge : n ≤ units s.mem b.addr := by
    rw [hmem, P.stored.size b hb]
    exact hn
  rw [run_mallocLoop_found extra s.freep hchain hsmall hlarge]
  simp only [hfreep]

variable {bound : ℕ}

theorem Pool.run_round (hpos : 1 ≤ n) (hsmall : ∀ b ∈ P.arena.free, b.units < n)
    (hbound : P.arena.free.length + 1 ≤ bound) :
    (mallocLoop n bound P.process.freep (ptr P.process.mem P.process.freep)).run P.process =
      (do
        let p ← morecore n
        if p = 0 then
          return 0
        else
          mallocLoop n (bound - P.arena.free.length - 1) p (ptr (← Prog.mem) p) : Prog ℕ).run
        P.process := by
  have hunits : ∀ x ∈ P.arena.nodes static, units P.process.mem x < n := by
    intro x hx
    by_contra hle
    obtain ⟨b, hb, -, hle⟩ := P.units_node hx hpos (not_lt.mp hle)
    exact absurd (hsmall b hb) (by omega)
  obtain ⟨others, hcircuit, hperm, hnotin, hlength⟩ := P.visit
  obtain ⟨extra, rfl⟩ : ∃ extra, bound = others.length + 1 + extra :=
    ⟨bound - others.length - 1, by omega⟩
  have hround := run_mallocLoop_none (n := n) extra P.process.freep hcircuit
    (fun x hx => ⟨hunits x (hperm.mem_iff.mp (mem_cons_of_mem _ hx)), by
      rintro rfl
      exact hnotin hx⟩) (hunits _ P.freep)
  have hextra : others.length + 1 + extra - P.arena.free.length - 1 = extra := by omega
  rw [hround, hextra]

theorem Pool.served_mallocLoop (hpos : 1 ≤ n)
    (hfit : (∃ b ∈ P.arena.free, n ≤ b.units) ∨ 16 * n < 2 ^ 31)
    (hbound : 2 * P.arena.free.length + 4 ≤ bound) :
    (mallocLoop n bound P.process.freep (ptr P.process.mem P.process.freep)).run P.process =
        .ok 0 (refusedState P.process) ∨
      ∃ p P', (mallocLoop n bound P.process.freep (ptr P.process.mem P.process.freep)).run
        P.process = .ok p P'.process ∧ Served P n p P' := by
  by_cases hhere : ∃ b ∈ P.arena.free, n ≤ b.units
  · obtain ⟨b, prevp, q, P', hrun, hcarved, hround⟩ := P.exists_carved hpos hhere
    refine .inr ⟨q + 16, P', ?_, P, q, .inl rfl, rfl, hcarved⟩
    rw [hround P.process bound rfl rfl (by omega), hrun]
  · have hn := hfit.resolve_left hhere
    have hsmall : ∀ b ∈ P.arena.free, b.units < n := by
      intro b hb
      by_contra hle
      exact hhere ⟨b, hb, by omega⟩
    rw [P.run_round hpos hsmall (by omega)]
    rcases P.run_morecore hn hsmall with hrefused | ⟨P1, hmore, hgrown⟩
    · left
      rw [run_bind_ok hrefused, if_pos rfl]
      rfl
    · right
      obtain ⟨hfit1, hlength1⟩ := hgrown.free
      obtain ⟨b, prevp, q, P2, hrun, hcarved, hround⟩ := P1.exists_carved hpos hfit1
      refine ⟨q + 16, P2, ?_, P1, q, .inr hgrown, rfl, hcarved⟩
      rw [run_bind_ok hmore, if_neg P1.freep_ne_zero, run_bind_ok (run_mem _),
        hround P1.process _ rfl rfl (by omega), hrun]

end Serve

theorem nunits_pos (nbytes : UInt32) : 1 ≤ nunits nbytes := Nat.le_add_left 1 _

theorem nbytes_le (nbytes : UInt32) : nbytes.toNat + 16 ≤ 16 * nunits nbytes := by
  unfold nunits
  omega

theorem Pool.run_malloc (P : Pool static low) (nbytes : UInt32) :
    (malloc static nbytes).run P.process =
      (mallocLoop (nunits nbytes) (2 * P.process.brk + 8) P.process.freep
        (ptr P.process.mem P.process.freep)).run P.process := by
  unfold malloc
  rw [run_bind_ok (EStateM.run_get _), if_neg P.freep_ne_zero]
  rfl

theorem Pool.served_malloc (P : Pool static low)
    (hfit : (∃ b ∈ P.arena.free, nunits nbytes ≤ b.units) ∨ 16 * nunits nbytes < 2 ^ 31) :
    (malloc static nbytes).run P.process = .ok 0 (refusedState P.process) ∨
      ∃ p P', (malloc static nbytes).run P.process = .ok p P'.process ∧
        Served P (nunits nbytes) p P' := by
  have hlength := P.shape.length_le
  rw [P.run_malloc]
  exact P.served_mallocLoop (nunits_pos nbytes) hfit (by omega)

theorem Pool.granted_malloc (P : Pool static low)
    (hfit : (∃ b ∈ P.arena.free, nunits nbytes ≤ b.units) ∨ 16 * nunits nbytes < 2 ^ 31) :
    (malloc static nbytes).run P.process = .ok 0 (refusedState P.process) ∨
      ∃ p P', (malloc static nbytes).run P.process = .ok p P'.process ∧
        Granted P (nunits nbytes) p P' := by
  rcases P.served_malloc hfit with hrefused | ⟨p, P', hrun, hserved⟩
  · exact .inl hrefused
  · exact .inr ⟨p, P', hrun, hserved.granted⟩

def startPool (s : Process) (hpos : 0 < static) (hstatic : static + 16 ≤ low)
    (hlow : low ≤ s.brk) (hspace : s.brk < 2 ^ 64) : Pool static low where
  arena := ⟨[], []⟩
  process := { s with
    mem := store 4 (store 8 s.mem static static) (static + 8) 0
    freep := static }
  shape := ⟨hpos, hstatic, hlow, by simp, List.Pairwise.nil, List.Pairwise.nil, by simp⟩
  stored := by
    refine ⟨isChain_pair.mpr ?_, ?_, by simp⟩
    · unfold ptr
      rw [load_store_of_disjoint (by omega)]
      exact load_store_of_lt (by omega)
    · exact load_store_of_lt (by omega)
  freep := mem_cons_self
  space := hspace

theorem run_malloc_start {s : Process} (hfreep : s.freep = 0) (hpos : 0 < static)
    (hstatic : static + 16 ≤ low) (hlow : low ≤ s.brk) (hspace : s.brk < 2 ^ 64)
    (nbytes : UInt32) :
    (malloc static nbytes).run s =
      (malloc static nbytes).run (startPool s hpos hstatic hlow hspace).process := by
  have hne : (startPool s hpos hstatic hlow hspace).process.freep ≠ 0 := by
    change static ≠ 0
    omega
  unfold malloc
  rw [run_bind_ok (EStateM.run_get _), if_pos hfreep, run_bind_ok (EStateM.run_get _), if_neg hne,
    run_bind_ok (run_poke64 _ _ _), run_bind_ok (EStateM.run_modify _ _),
    run_bind_ok (run_poke32 _ _ _)]
  rfl

theorem lasting_poke32 (address value : ℕ) : Lasting (Prog.poke32 address value) :=
  .of_internal (.poke32 _ _)

theorem lasting_poke64 (address value : ℕ) : Lasting (Prog.poke64 address value) :=
  .of_internal (.poke64 _ _)

theorem lasting_mem : Lasting Prog.mem := .of_internal .mem

theorem lasting_setFreep (p : ℕ) : Lasting (modify fun s => { s with freep := p } : Prog PUnit) :=
  fun _ => le_rfl

theorem lasting_freeSearch (bp bound p : ℕ) : Lasting (freeSearch bp bound p) := by
  induction bound generalizing p with
  | zero => exact fun _ => le_rfl
  | succ bound ih =>
    exact .bind lasting_mem fun m => .ite (fun _ => le_rfl)
      (.ite (fun _ => le_rfl) (ih _))

theorem lasting_free (ap : ℕ) : Lasting (free ap) := by
  have htail : ∀ bp p, Lasting (do
      if advance p (units (← Prog.mem) p) = bp then
        Prog.poke32 (p + 8) (units (← Prog.mem) p + units (← Prog.mem) bp)
        Prog.poke64 p (ptr (← Prog.mem) bp)
      else
        Prog.poke64 p bp
      modify fun s => { s with freep := p } : Prog PUnit) := fun bp p =>
    .bind lasting_mem fun _ => .ite
      (.bind lasting_mem fun _ => .bind lasting_mem fun _ =>
        .bind (lasting_poke32 _ _) fun _ => .bind lasting_mem fun _ =>
          .bind (lasting_poke64 _ _) fun _ => lasting_setFreep p)
      (.bind (lasting_poke64 _ _) fun _ => lasting_setFreep p)
  refine .bind (fun _ => le_rfl) fun _ => .bind (fun _ => le_rfl) fun _ =>
    .bind (lasting_freeSearch _ _ _) fun p => .bind lasting_mem fun _ =>
      .bind lasting_mem fun _ => .ite ?_ ?_
  · exact .bind lasting_mem fun _ => .bind lasting_mem fun _ =>
      .bind (lasting_poke32 _ _) fun _ => .bind lasting_mem fun _ =>
        .bind lasting_mem fun _ => .bind (lasting_poke64 _ _) fun _ => htail _ p
  · exact .bind lasting_mem fun _ => .bind (lasting_poke64 _ _) fun _ => htail _ p

theorem lasting_morecore (nu : ℕ) : Lasting (morecore nu) :=
  .bind (lasting_sbrk _) fun _ => .ite (fun _ => le_rfl)
    (.bind (lasting_poke32 _ _) fun _ => .bind (lasting_free _) fun _ _ => le_rfl)

theorem lasting_carve (n prevp p : ℕ) : Lasting (carve n prevp p) :=
  .bind lasting_mem fun _ => .ite
    (.bind lasting_mem fun _ => .bind (lasting_poke64 _ _) fun _ =>
      .bind (lasting_setFreep _) fun _ _ => le_rfl)
    (.bind (lasting_poke32 _ _) fun _ => .bind lasting_mem fun _ =>
      .bind (lasting_poke32 _ _) fun _ => .bind (lasting_setFreep _) fun _ _ => le_rfl)

theorem lasting_mallocLoop (n bound prevp p : ℕ) : Lasting (mallocLoop n bound prevp p) := by
  induction bound generalizing prevp p with
  | zero => exact fun _ => le_rfl
  | succ bound ih =>
    exact .bind lasting_mem fun _ => .ite (lasting_carve _ _ _)
      (.bind (fun _ => le_rfl) fun _ => .ite
        (.bind (lasting_morecore _) fun _ => .ite (fun _ => le_rfl)
          (.bind lasting_mem fun _ => ih _ _))
        (.bind lasting_mem fun _ => ih _ _))

theorem lasting_malloc (nbytes : UInt32) : Lasting (malloc static nbytes) := by
  have hloop : Lasting (do
      let prevp := (← get).freep
      mallocLoop (nunits nbytes) (2 * (← get).brk + 8) prevp (ptr (← Prog.mem) prevp) : Prog ℕ) :=
    .bind (fun _ => le_rfl) fun _ => .bind (fun _ => le_rfl) fun _ =>
      .bind lasting_mem fun _ => lasting_mallocLoop _ _ _ _
  exact .bind (fun _ => le_rfl) fun _ => .ite
    (.bind (lasting_poke64 _ _) fun _ => .bind (lasting_setFreep _) fun _ =>
      .bind (lasting_poke32 _ _) fun _ => hloop) hloop

end Xv6MallocLab.Umalloc
