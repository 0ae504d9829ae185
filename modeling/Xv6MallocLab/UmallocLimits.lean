import Xv6MallocLab.UmallocRuns

/-!
# Requests of every size

`morecore` passes a number of 64 bits to `sbrk`, whose parameter is an `int`.  From
`2 ^ 27` units on the kernel is asked to shrink the process, for nothing, or for 16 bytes,
and a block of the full size comes on the list.
-/

namespace Xv6MallocLab.Umalloc

open ByteMemory CircularList List Prog

attribute [local irreducible] load store

variable {static low : ℕ}

def maxva : ℕ := 2 ^ 38

/-- A call that failed and left the list and the break, or returned memory below it. -/
def Safe (static : ℕ) (s : Process) (nbytes : UInt32) (p : ℕ) (s' : Process) : Prop :=
  (p = 0 ∧ s'.brk = s.brk ∧ s'.mem = (initialised static s).mem ∧
      s'.freep = (initialised static s).freep) ∨
    (p ≠ 0 ∧ p + nbytes.toNat ≤ s'.brk ∧ s.brk ≤ s'.brk)

/-- The request is small, or there is a free block for it, or the kernel refuses. -/
def Servable (s : Process) (nbytes : UInt32) : Prop :=
  16 * nunits nbytes < 2 ^ 31 ∨
    (s.freep ≠ 0 ∧ ∃ k, nunits nbytes ≤ units s.mem ((ptr s.mem)^[k] s.freep)) ∨
    (nunits nbytes = 2 ^ 28 + 1 ∧ ¬(s.grants s.calls ∧ s.brk + 16 < 2 ^ 64))

section Break

def setBrk (s : Process) (k : ℕ) : Process := { s with brk := k }

variable {s s1 : Process} {bp p k n : ℕ}

theorem freeSearch_keeps (bound x : ℕ) (s : Process) :
    (∃ p, (freeSearch bp bound x).run s = .ok p s) ∨
      (freeSearch bp bound x).run s = .error .diverge s := by
  induction bound generalizing x with
  | zero => exact .inr rfl
  | succ bound ih =>
    rw [freeSearch, run_bind_ok (run_mem _), run_ite, run_ite]
    split_ifs
    · exact .inl ⟨x, rfl⟩
    · exact .inl ⟨x, rfl⟩
    · exact ih _

theorem freeSearch_bound {bound x : ℕ} {s' : Process} (hmem : s'.mem = s.mem)
    (h : (freeSearch bp bound x).run s = .ok p s) (bound' : ℕ) :
    (freeSearch bp bound' x).run s' = .ok p s' ∨
      (freeSearch bp bound' x).run s' = .error .diverge s' := by
  induction bound' generalizing bound x with
  | zero => exact .inr rfl
  | succ bound' ih =>
    cases bound with
    | zero => cases h
    | succ bound =>
      rw [freeSearch, run_bind_ok (run_mem _), run_ite, run_ite] at h
      rw [freeSearch, run_bind_ok (run_mem _), run_ite, run_ite, hmem]
      split_ifs at h ⊢
      · cases h
        exact .inl rfl
      · cases h
        exact .inl rfl
      · exact ih h

variable {ap prevp q : ℕ}

theorem run_free_lost (hbp : (ap + 2 ^ 64 - 16) % 2 ^ 64 = bp)
    (hsearch : (freeSearch bp (s.brk + 1) s.freep).run s = .error .diverge s) :
    (free ap).run s = .error .diverge s := by
  unfold free
  rw [hbp, run_bind_ok (EStateM.run_get _), run_bind_ok (EStateM.run_get _)]
  exact run_bind_error hsearch

theorem free_setBrk (h : (free ap).run s = .ok () s1) (k : ℕ) :
    (free ap).run (setBrk s k) = .ok () (setBrk s1 k) ∨
      (free ap).run (setBrk s k) = .error .diverge (setBrk s k) := by
  obtain ⟨bp, hbp⟩ : ∃ bp, (ap + 2 ^ 64 - 16) % 2 ^ 64 = bp := ⟨_, rfl⟩
  have hsame : (setBrk s k).mem = s.mem := rfl
  rcases freeSearch_keeps (s.brk + 1) s.freep s with ⟨p, hsearch⟩ | hsearch
  · rw [run_free hbp hsearch] at h
    obtain ⟨-, rfl⟩ := EStateM.Result.ok.inj h
    rcases freeSearch_bound hsame hsearch (k + 1) with hfound | hlost
    · exact .inl (run_free hbp hfound)
    · exact .inr (run_free_lost hbp hlost)
  · rw [run_free_lost hbp hsearch] at h
    cases h

theorem run_carve_whole (h : units s.mem p = n) :
    (carve n prevp p).run s = .ok ((p + 16) % 2 ^ 64)
      { s with mem := store 8 s.mem prevp (ptr s.mem p), freep := prevp } := by
  unfold carve
  rw [run_bind_ok (run_mem _), if_pos h, run_bind_ok (run_mem _), run_bind_ok (run_poke64 _ _ _),
    run_bind_ok (EStateM.run_modify _ _)]
  rfl

theorem run_carve_back {m : Memory} (h : units s.mem p ≠ n)
    (hm : store 4 s.mem (p + 8) (units s.mem p - n) = m) (hq : advance p (units m p) = q) :
    (carve n prevp p).run s = .ok ((q + 16) % 2 ^ 64)
      { s with mem := store 4 m (q + 8) n, freep := prevp } := by
  unfold carve
  rw [run_bind_ok (run_mem _), if_neg h, run_bind_ok (run_poke32 _ _ _), run_bind_ok (run_mem _)]
  dsimp only
  rw [hm, hq, run_bind_ok (run_poke32 _ _ _), run_bind_ok (EStateM.run_modify _ _)]
  rfl

theorem carve_setBrk {b : ℕ} (h : (carve n prevp b).run s = .ok q s1) (k : ℕ) :
    (carve n prevp b).run (setBrk s k) = .ok q (setBrk s1 k) := by
  by_cases hunits : units s.mem b = n
  · rw [run_carve_whole hunits] at h
    obtain ⟨rfl, rfl⟩ := EStateM.Result.ok.inj h
    have hk : units (setBrk s k).mem b = n := hunits
    exact run_carve_whole hk
  · rw [run_carve_back hunits rfl rfl] at h
    obtain ⟨rfl, rfl⟩ := EStateM.Result.ok.inj h
    have hk : units (setBrk s k).mem b ≠ n := hunits
    exact run_carve_back hk rfl rfl

end Break

section Overlarge

variable (P : Pool static low) {n c k : ℕ}

/-- The pool as if `sbrk` had given all that `morecore` believes it has. -/
def Pool.pretend (c : ℕ) (hspace : P.process.brk + n * 16 < 2 ^ 64) : Pool static low :=
  P.move
    { P.process with
      brk := P.process.brk + n * 16
      calls := c
      mem := store 4 P.process.mem (P.process.brk + 8) n }
    (P.shape_above n) rfl hspace (P.mem_above n)

theorem Pool.run_morecore_overlarge (hn : 4096 ≤ n) (hn' : n < 2 ^ 31)
    (hsmall : ∀ b ∈ P.arena.free, b.units < n) (hspace : P.process.brk + n * 16 < 2 ^ 64)
    (hsbrk : (sbrk (toInt (n * 16))).run P.process =
      .ok P.process.brk { P.process with brk := k, calls := c }) :
    (∃ P' : Pool static low, (morecore n).run P.process =
        .ok P'.process.freep (setBrk P'.process k) ∧
        Released (P.pretend c hspace) ⟨P.process.brk, n⟩ P') ∨
      ∃ s', (morecore n).run P.process = .error .diverge s' := by
  have hcore : coreUnits n = n := if_neg (by omega)
  have haddr : (P.process.brk + 16) % 2 ^ 64 = P.process.brk + 16 := Nat.mod_eq_of_lt (by omega)
  have hsize : units (P.pretend c hspace).process.mem P.process.brk = n :=
    load_store_of_lt (by omega)
  obtain ⟨P', hrun, hreleased⟩ := (P.pretend c hspace).exists_release
    (P.fresh_outside (by omega)) hsize fun _ => P.fresh_units_lt (by omega)
      (fun b hb => by have := hsmall b hb; omega) (by omega)
  have hrun' : (free (P.process.brk + 16)).run (P.pretend c hspace).process = .ok () P'.process := hrun
  have hstart : (morecore n).run P.process =
      (do
        free (P.process.brk + 16)
        return (← get).freep : Prog ℕ).run (setBrk (P.pretend c hspace).process k) := by
    unfold morecore
    rw [hcore, run_bind_ok hsbrk, if_neg (by unfold minusOne; omega), run_bind_ok (run_poke32 _ _ _),
      haddr]
    rfl
  rw [hstart]
  rcases free_setBrk hrun' k with hfree | hlost
  · refine .inl ⟨P', ?_, hreleased⟩
    rw [run_bind_ok hfree, run_bind_ok (EStateM.run_get _)]
    rfl
  · refine .inr ⟨setBrk (P.pretend c hspace).process k, ?_⟩
    exact run_bind_error hlost

theorem Pool.cut_fresh {P' : Pool static low} (hpos : 1 ≤ n) (hsmall : ∀ b ∈ P.arena.free, b.units < n)
    (hrejoined : Rejoined P.arena.free ⟨P.process.brk, n⟩ P'.arena.free) {q : ℕ} {free'' : List Block}
    (hcut : Cut P'.arena.free n q free'') : q = P.process.brk := by
  have hlarge : ∀ b ∈ P'.arena.free, n ≤ b.units →
      b = ⟨P.process.brk, n⟩ ∨ n < b.units ∧ b.addr + 16 * (b.units - n) = P.process.brk := by
    intro b hb hn
    rcases P.fresh_cases hpos hrejoined with hfree | ⟨init, l, hold, htouch, hfree⟩
    · rw [hfree] at hb
      rcases mem_append.mp hb with hb | hb
      · exact absurd (hsmall b hb) (by omega)
      · exact .inl (mem_singleton.mp hb)
    · rw [hfree] at hb
      rcases mem_append.mp hb with hb | hb
      · exact absurd (hsmall b (by simp [hold, hb])) (by omega)
      · have hl := (P.shape.free_inside (b := l) (by simp [hold])).1
        rw [mem_singleton.mp hb]
        unfold Block.stop at htouch
        refine .inr ⟨by dsimp only; omega, ?_⟩
        dsimp only
        rw [Nat.add_sub_cancel, htouch]
  generalize hfree : P'.arena.free = free' at hcut
  cases hcut with
  | whole before after b =>
    rcases hlarge b (by simp [hfree]) le_rfl with heq | ⟨hlt, -⟩
    · rw [heq]
    · omega
  | @back before after b n hlt =>
    rcases hlarge b (by simp [hfree]) hlt.le with heq | ⟨-, haddr⟩
    · rw [heq] at hlt
      exact absurd hlt (lt_irrefl _)
    · exact haddr

theorem Pool.malloc_overlarge {nbytes : UInt32} (hn : 4096 ≤ nunits nbytes)
    (hn' : nunits nbytes < 2 ^ 31) (hsmall : ∀ b ∈ P.arena.free, b.units < nunits nbytes)
    (hspace : P.process.brk + nunits nbytes * 16 < 2 ^ 64)
    (hsbrk : (sbrk (toInt (nunits nbytes * 16))).run P.process =
      .ok P.process.brk { P.process with brk := k, calls := c }) {p : ℕ} {s' : Process}
    (hrun : (malloc static nbytes).run P.process = .ok p s') :
    p = P.process.brk + 16 ∧ s'.brk = k := by
  have hlength := P.shape.length_le
  have hpos := nunits_pos nbytes
  rw [P.run_malloc, P.run_round hpos hsmall (by omega)] at hrun
  rcases P.run_morecore_overlarge hn hn' hsmall hspace hsbrk with ⟨P', hmore, hreleased⟩ | ⟨s, hlost⟩
  · have hfresh := P.fresh_cases hpos hreleased.rejoined
    have hfit : ∃ b ∈ P'.arena.free, nunits nbytes ≤ b.units := by
      rcases hfresh with hfree | ⟨init, l, -, -, hfree⟩
      · exact ⟨⟨P.process.brk, nunits nbytes⟩, by simp [hfree], le_rfl⟩
      · exact ⟨⟨l.addr, l.units + nunits nbytes⟩, by simp [hfree], by dsimp only; omega⟩
    have hcount : P'.arena.free.length ≤ P.arena.free.length + 1 := by
      rcases hfresh with hfree | ⟨init, l, hold, -, hfree⟩
      · rw [hfree]
        simp
      · rw [hfree, hold]
        simp
    obtain ⟨b, prevp, q, P2, hcarve, hcarved, hround⟩ := P'.exists_carved hpos hfit
    have hq := P.cut_fresh hpos hsmall hreleased.rejoined hcarved.cut
    rw [run_bind_ok hmore, if_neg P'.freep_ne_zero, run_bind_ok (run_mem _)] at hrun
    have hround' := hround (setBrk P'.process k) (2 * P.process.brk + 8 - P.arena.free.length - 1)
      rfl rfl (by omega)
    rw [carve_setBrk hcarve k] at hround'
    obtain ⟨rfl, rfl⟩ := EStateM.Result.ok.inj (hround'.symm.trans hrun)
    rw [hq]
    exact ⟨rfl, rfl⟩
  · rw [run_bind_error hlost] at hrun
    cases hrun

end Overlarge

section Calls

variable (P : Pool static low) {nbytes : UInt32}

theorem nunits_le (nbytes : UInt32) : nunits nbytes ≤ 2 ^ 28 + 1 := by
  have hbytes := nbytes.toNat_lt
  unfold nunits
  omega

variable {n : ℕ}

theorem Pool.large_iff (hpos : 1 ≤ n) :
    (P.process.freep ≠ 0 ∧ ∃ k, n ≤ units P.process.mem ((ptr P.process.mem)^[k] P.process.freep)) ↔
      ∃ b ∈ P.arena.free, n ≤ b.units := by
  constructor
  · rintro ⟨-, k, hk⟩
    obtain ⟨b, hb, -, hn⟩ := P.units_node (P.stored.circuit.iterate_mem P.freep k) hpos hk
    exact ⟨b, hb, hn⟩
  · rintro ⟨b, hb, hn⟩
    obtain ⟨k, hk⟩ := P.stored.circuit.exists_iterate P.freep (P.node_of_mem hb)
    refine ⟨P.freep_ne_zero, k, ?_⟩
    rw [hk, P.stored.size b hb]
    exact hn

theorem run_sbrk_nonpos {i : ℤ} (hi : i ≤ 0) (s : Process) :
    ∃ k ≤ s.brk, (sbrk i).run s = .ok s.brk { s with brk := k } := by
  have hrun : (sbrk i).run s = .ok s.brk
      { s with brk := if 0 ≤ s.brk + i then (s.brk + i).toNat else s.brk } := by
    simp only [sbrk, EStateM.run_bind, EStateM.run_get, EStateM.run_set,
      EStateM.run_pure, if_neg (not_lt.mpr hi)]
  refine ⟨_, ?_, hrun⟩
  split_ifs <;> omega

theorem toInt_nonpos (hlow : 2 ^ 31 ≤ n) (hhigh : n ≤ 2 ^ 32) : toInt n ≤ 0 := by
  rw [toInt, BitVec.toInt_eq_toNat_cond, BitVec.toNat_ofNat]
  split_ifs <;> omega

theorem sbrk_overlarge (hlow : 2 ^ 27 ≤ n) (hhigh : n ≤ 2 ^ 28 + 1) {s : Process}
    (hgrant : n = 2 ^ 28 + 1 → s.grants s.calls ∧ s.brk + 16 < 2 ^ 64) :
    ∃ k c, k ≤ s.brk + 16 ∧
      (sbrk (toInt (n * 16))).run s = .ok s.brk { s with brk := k, calls := c } := by
  by_cases hn : n = 2 ^ 28 + 1
  · have hword : toInt (n * 16) = toInt 16 := by
      rw [hn]
      decide
    refine ⟨s.brk + 16, s.calls + 1, le_rfl, ?_⟩
    rw [hword]
    exact run_sbrk_granted (by decide) (by decide) (hgrant hn)
  · obtain ⟨k, hk, hrun⟩ := run_sbrk_nonpos (toInt_nonpos (n := n * 16) (by omega) (by omega)) s
    exact ⟨k, s.calls, by omega, hrun⟩

theorem Pool.malloc_refused (hn : nunits nbytes = 2 ^ 28 + 1)
    (hsmall : ∀ b ∈ P.arena.free, b.units < nunits nbytes)
    (hgrant : ¬(P.process.grants P.process.calls ∧ P.process.brk + 16 < 2 ^ 64)) :
    (malloc static nbytes).run P.process = .ok 0 (refusedState P.process) := by
  have hlength := P.shape.length_le
  have hword : toInt (coreUnits (nunits nbytes) * 16) = toInt 16 := by
    rw [hn]
    decide
  have hmore : (morecore (nunits nbytes)).run P.process = .ok 0 (refusedState P.process) := by
    unfold morecore
    rw [hword, run_bind_ok (run_sbrk_refused (by decide) (by decide) hgrant), if_pos rfl]
    rfl
  rw [P.run_malloc, P.run_round (nunits_pos nbytes) hsmall (by omega), run_bind_ok hmore, if_pos rfl]
  rfl

theorem Pool.outcome_of_servable (h : Servable P.process nbytes) : Outcome P nbytes := by
  have hpos := nunits_pos nbytes
  by_cases hlarge : ∃ b ∈ P.arena.free, nunits nbytes ≤ b.units
  · exact P.served_malloc (.inl hlarge)
  · rcases h with hsmall | hlist | ⟨hn, hgrant⟩
    · exact P.served_malloc (.inr hsmall)
    · exact absurd ((P.large_iff hpos).1 hlist) hlarge
    · refine .inl (P.malloc_refused hn (fun b hb => ?_) hgrant)
      by_contra hle
      exact hlarge ⟨b, hb, not_lt.1 hle⟩

theorem Outcome.safe {P : Pool static low} (h : Outcome P nbytes) :
    ∃ p s', (malloc static nbytes).run P.process = .ok p s' ∧ Safe static P.process nbytes p s' := by
  rcases h with hrefused | ⟨p, P', hrun, hserved⟩
  · refine ⟨0, _, hrefused, .inl ⟨rfl, rfl, ?_⟩⟩
    rw [initialised_of_ne P.freep_ne_zero]
    exact ⟨rfl, rfl⟩
  · obtain ⟨hframe, q, rfl, htaken⟩ := hserved.granted
    have hin := P'.shape.inside ⟨q, nunits nbytes⟩ (by simp [htaken])
    have hbytes := nbytes_le nbytes
    unfold Block.stop at hin
    refine ⟨q + 16, P'.process, hrun, .inr ⟨by omega, ?_, hframe.brk_le⟩⟩
    dsimp only at hin
    omega

theorem Pool.malloc_safe_iff (nbytes : UInt32) (hmax : P.process.brk ≤ maxva) :
    (∃ p s', (malloc static nbytes).run P.process = .ok p s' ∧ Safe static P.process nbytes p s') ↔
      Servable P.process nbytes := by
  constructor
  · rintro ⟨p, s', hrun, hsafe⟩
    by_contra hnot
    unfold Servable at hnot
    rw [P.large_iff (nunits_pos nbytes), not_or, not_or, not_and_not_right] at hnot
    obtain ⟨hbig, hlarge, hgrant⟩ := hnot
    have hhigh := nunits_le nbytes
    have hsmall : ∀ b ∈ P.arena.free, b.units < nunits nbytes := by
      intro b hb
      by_contra hle
      exact hlarge ⟨b, hb, not_lt.1 hle⟩
    unfold maxva at hmax
    obtain ⟨k, c, hk, hsbrk⟩ := sbrk_overlarge (s := P.process) (by omega) hhigh hgrant
    obtain ⟨rfl, rfl⟩ := P.malloc_overlarge (by omega) (by omega) hsmall (by omega) hsbrk hrun
    rcases hsafe with ⟨hzero, -⟩ | ⟨-, hbelow, -⟩
    · omega
    · unfold nunits at hbig
      omega
  · exact fun h => (P.outcome_of_servable h).safe

end Calls

inductive ServedRun (static : ℕ) : Session → Prop
  | start {s : Process} (hfreep : s.freep = 0) (hpos : 0 < static) (hbrk : static + 16 ≤ s.brk)
      (hspace : s.brk < 2 ^ 64) : ServedRun static ⟨s, [], []⟩
  | malloc {S : Session} {nbytes : UInt32} {p : ℕ} {s' : Process} (hrun : ServedRun static S)
      (hservable : Servable S.process nbytes)
      (hcall : (malloc static nbytes).run S.process = .ok p s') :
      ServedRun static ⟨s', if p = 0 then S.live else ⟨p, nbytes⟩ :: S.live,
        obtained S.process s' ++ S.regions⟩
  | step {S S' : Session} (hrun : ServedRun static S) (hstep : Step static S S') :
      ServedRun static S'

section Runs

variable {S : Session} {nbytes : UInt32}

theorem servable_initialised (hS : Sound static S) :
    Servable (initialised static S.process) nbytes ↔ Servable S.process nbytes := by
  by_cases hfreep : S.process.freep = 0
  · obtain ⟨P, hP, hprocess, -⟩ := hS.exists_pool nbytes
    have hregions : S.regions = [] := by
      rcases hS with ⟨-, -, hregions, -⟩ | ⟨P, hP⟩
      · exact hregions
      · exact absurd (hP.process ▸ hfreep) P.freep_ne_zero
    have hempty : ¬∃ b ∈ P.arena.free, nunits nbytes ≤ b.units := by
      rintro ⟨b, hb, hn⟩
      have htotal := hP.total
      have hle := units_le_total hb
      have hpos := nunits_pos nbytes
      rw [hregions, total_nil] at htotal
      omega
    have hlist := (P.large_iff (nunits_pos nbytes)).not.2 hempty
    have hstart : initialised static S.process = { S.process with
        mem := store 4 (store 8 S.process.mem static static) (static + 8) 0, freep := static } :=
      if_pos hfreep
    unfold Servable
    rw [hprocess] at hlist
    rw [or_iff_right (a := _ ∧ ∃ k, _) hlist,
      or_iff_right (a := S.process.freep ≠ 0 ∧ _) fun h => h.1 hfreep,
      hstart]
  · rw [initialised_of_ne hfreep]

theorem safe_initialised {s s' : Process} {p : ℕ} (hpos : 0 < static) :
    Safe static (initialised static s) nbytes p s' ↔ Safe static s nbytes p s' := by
  have hne : (initialised static s).freep ≠ 0 := by
    unfold initialised
    split_ifs with hfreep
    · exact Nat.ne_of_gt hpos
    · exact hfreep
  unfold Safe
  rw [initialised_of_ne hne, initialised_brk]

theorem Sound.exists_served (hS : Sound static S) (hservable : Servable S.process nbytes) :
    ∃ p s', (Umalloc.malloc static nbytes).run S.process = .ok p s' ∧
      Sound static ⟨s', if p = 0 then S.live else ⟨p, nbytes⟩ :: S.live,
        obtained S.process s' ++ S.regions⟩ := by
  refine hS.exists_outcome fun P hprocess => P.outcome_of_servable ?_
  rw [hprocess]
  exact (servable_initialised hS).2 hservable

theorem ServedRun.sound (hrun : ServedRun static S) (hunits : total S.regions < 2 ^ 32) :
    Sound static S := by
  induction hrun with
  | start hfreep hpos hbrk hspace => exact .inl ⟨hfreep, rfl, rfl, hpos, hbrk, hspace⟩
  | malloc hrun hservable hcall ih =>
    rw [total_append] at hunits
    obtain ⟨p, s', hcall', hsound⟩ := (ih (by omega)).exists_served hservable
    obtain ⟨rfl, rfl⟩ := EStateM.Result.ok.inj (hcall.symm.trans hcall')
    exact hsound
  | step hrun hstep ih => exact (ih (hstep.total_le.trans_lt hunits)).step hstep hunits

/-- After any run in which all requests were servable, a call of `malloc` is safe if and only
if the next one is.  Memory has no unmapped pages here: where the call is not safe, the machine
may end the process inside it. -/
theorem malloc_safe_iff_servable (hrun : ServedRun static S) (hunits : total S.regions < 2 ^ 32)
    (hmax : S.process.brk ≤ maxva) (nbytes : UInt32) :
    (∃ p s', (malloc static nbytes).run S.process = .ok p s' ∧ Safe static S.process nbytes p s') ↔
      Servable S.process nbytes := by
  have hS := hrun.sound hunits
  obtain ⟨P, -, hprocess, hsame⟩ := hS.exists_pool nbytes
  have hmax' : P.process.brk ≤ maxva := by rwa [hprocess, initialised_brk]
  have hiff := P.malloc_safe_iff nbytes hmax'
  rw [hprocess, servable_initialised hS] at hiff
  rw [hsame, hprocess, ← hiff]
  simp only [safe_initialised P.shape.static_pos]

end Runs

theorem malloc_safe_iff_servable_fresh :
    (∃ p s', (malloc 4096 100).run freshProcess = .ok p s' ∧ Safe 4096 freshProcess 100 p s') ∧
      Servable freshProcess 100 := by
  have hservable : Servable freshProcess 100 := Or.inl (by decide)
  have hrun : ServedRun 4096 ⟨freshProcess, [], []⟩ := .start rfl (by decide) (by decide) (by decide)
  exact ⟨(malloc_safe_iff_servable hrun (by decide) (by decide) 100).2 hservable, hservable⟩

theorem large_eval :
    (malloc 4096 2147483617).value freshProcess = some 8208 ∧
      ((malloc 4096 2147483617).final freshProcess).brk = 8192 := by
  decide +kernel

/-- A first request of `2 ^ 31 - 31` bytes gets a pointer beyond the break. -/
theorem large_request_beyond_break : ∃ p s', (malloc 4096 2147483617).run freshProcess = .ok p s' ∧
    ¬Safe 4096 freshProcess 2147483617 p s' := by
  obtain ⟨hvalue, hbrk⟩ := large_eval
  refine ⟨8208, _, run_of_value hvalue, ?_⟩
  rintro (⟨hzero, -⟩ | ⟨-, hbelow, -⟩)
  · exact absurd hzero (by decide)
  · rw [hbrk] at hbelow
    exact absurd hbelow (by decide)

end Xv6MallocLab.Umalloc
