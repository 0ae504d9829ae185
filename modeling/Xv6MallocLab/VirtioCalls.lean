import Xv6MallocLab.VirtioDisk

/-!
# Calls of the disk driver

In every run a descriptor is free or belongs to one call, the chain of a call is as
`virtio_disk_rw` wrote it, and the rings and the device carry each head once.  No step
panics, each command is carried out once, and every call can return.
-/

namespace Xv6MallocLab.VirtioDisk.Machine

open Function List

variable {β : Type*}

/-! ## What holds in every state -/

/-- Heads the device has not read. -/
def queued (s : Machine β) : List ℕ := between s.availRing s.availSeen s.availIdx

/-- Heads the device has returned and `virtio_disk_intr` has not read. -/
def returned (s : Machine β) : List ℕ := between s.usedRing s.usedSeen s.usedIdx

def flying (s : Machine β) : List ℕ := s.queued ++ s.work ++ s.returned

/-- Descriptor `i` belongs to the call on `b`. -/
def Holds (s : Machine β) (b : β) (i : ℕ) : Prop := ∃ c, s.place b = .sent c ∧ i ∈ c.idx

/-- The chain of a call is in memory as `virtio_disk_rw` wrote it. -/
structure Laid (s : Machine β) (b : β) (c : Call) : Prop where
  head : s.desc c.head = ⟨.op c.head, 16, 1, c.mid⟩
  mid : s.desc c.mid = ⟨.data b, 1024, (if c.req.write then 0 else 2) ||| 1, c.tail⟩
  tail : s.desc c.tail = ⟨.status c.head, 1, 2, 0⟩
  op : s.ops c.head = c.req.op
  buf : (s.info c.head).b = some b
  nodup : c.idx.Nodup
  lt : ∀ i ∈ c.idx, i < 8

/-- The taken descriptors are those of the calls, and no two calls share one. -/
structure Chains (s : Machine β) : Prop where
  laid : ∀ {b c}, s.place b = .sent c → s.Laid b c
  apart : ∀ {b b' i}, s.Holds b i → s.Holds b' i → b = b'
  free_iff : ∀ {i}, i < 8 → (s.free i = false ↔ ∃ b, s.Holds b i)

/-- The rings and the device carry the head of each call whose flag is set, once.
The device carries out a call's command once, before it returns the head. -/
structure Rings (s : Machine β) : Prop where
  nodup : s.flying.Nodup
  mem_iff : ∀ h, h ∈ s.flying ↔ ∃ b c, s.place b = .sent c ∧ s.busy b = true ∧ c.head = h
  done : ∀ {b c}, s.place b = .sent c →
    s.done b = if c.head ∈ s.queued ++ s.work then [] else [c.req.op]

/-- The device has reported success for every chain it has returned. -/
def Succeeded (s : Machine β) : Prop := ∀ h ∈ s.returned, (s.info h).status = 0

/-- Fewer than three descriptors are free. -/
def Scarce (s : Machine β) : Prop :=
  ∃ idx : List ℕ, idx.length < 3 ∧ ∀ i < 8, s.free i = true → i ∈ idx

/-- Who sleeps has a reason to. -/
def Sleepers (s : Machine β) : Prop :=
  ∀ b, s.asleep b = true → (∃ c, s.place b = .sent c ∧ s.busy b = true) ∨
    (∃ r, s.place b = .trying r) ∧ s.Scarce

structure Sound (s : Machine β) : Prop where
  chains : s.Chains
  rings : s.Rings
  sleepers : s.Sleepers

variable {s t : Machine β} {b b' : β} {c d : Call} {r : Request} {h i : ℕ}
  {status : UInt8}

theorem mem_idx (c : Call) : c.head ∈ c.idx ∧ c.mid ∈ c.idx ∧ c.tail ∈ c.idx := by
  simp [Call.idx]

theorem Holds.head (hc : s.place b = .sent c) : s.Holds b c.head := ⟨c, hc, (mem_idx c).1⟩

/-- The descriptors of the call on `b`, if there is one. -/
def cells (s : Machine β) (b : β) : Finset ℕ :=
  match s.place b with
  | .sent c => c.idx.toFinset
  | _ => ∅

theorem mem_cells : i ∈ s.cells b ↔ s.Holds b i := by
  cases hb : s.place b <;> simp [cells, Holds, hb]

theorem Laid.congr (hl : s.Laid b c) (hdesc : ∀ i ∈ c.idx, t.desc i = s.desc i)
    (hop : t.ops c.head = s.ops c.head) (hbuf : (t.info c.head).b = (s.info c.head).b) :
    t.Laid b c where
  head := (hdesc _ (mem_idx c).1).trans hl.head
  mid := (hdesc _ (mem_idx c).2.1).trans hl.mid
  tail := (hdesc _ (mem_idx c).2.2).trans hl.tail
  op := hop.trans hl.op
  buf := hbuf.trans hl.buf
  nodup := hl.nodup
  lt := hl.lt

theorem Chains.taken (hs : s.Chains) (h : s.Holds b i) : i < 8 ∧ s.free i = false := by
  obtain ⟨c, hc, hi⟩ := h
  have hlt := (hs.laid hc).lt i hi
  exact ⟨hlt, (hs.free_iff hlt).mpr ⟨b, c, hc, hi⟩⟩

theorem sound_init : (init : Machine β).Sound := by
  have hnil : (init : Machine β).flying = [] := by simp [flying, queued, returned, between, init]
  have hnone : ∀ b i, ¬ (init : Machine β).Holds b i := by
    rintro b i ⟨c, hc, -⟩
    cases hc
  constructor
  · refine ⟨?_, fun hb => absurd hb (hnone _ _), fun hi => ?_⟩
    · intro b c hc
      cases hc
    · simp only [hnone]
      simp [init, hi]
  · refine ⟨by simp [hnil], fun h => ?_, ?_⟩
    · rw [hnil]
      simp [init]
    · intro b c hc
      cases hc
  · intro b hb
    cases hb

theorem Chains.congr (hs : s.Chains) (hcall : ∀ b c, t.place b = .sent c ↔ s.place b = .sent c)
    (hdesc : ∀ i, s.free i = false → t.desc i = s.desc i) (hfree : t.free = s.free)
    (hops : t.ops = s.ops) (hbuf : ∀ i, (t.info i).b = (s.info i).b) : t.Chains := by
  have hholds : ∀ b i, t.Holds b i ↔ s.Holds b i := by
    intro b i
    simp only [Holds, hcall]
  constructor
  · intro b c hc
    rw [hcall] at hc
    apply (hs.laid hc).congr _ (by rw [hops]) (hbuf _)
    intro i hi
    exact hdesc i (hs.taken ⟨c, hc, hi⟩).2
  · intro b b' i
    rw [hholds, hholds]
    exact hs.apart
  · intro i hi
    simp only [hfree, hholds]
    exact hs.free_iff hi

theorem length_le_eight {l : List ℕ} (hnd : l.Nodup) (hlt : ∀ x ∈ l, x < 8) : l.length ≤ 8 := by
  have hsub : l ⊆ List.range 8 := fun x hx => mem_range.mpr (hlt x hx)
  simpa using (subperm_of_subset hnd hsub).length_le

theorem Chains.finite (hch : s.Chains) : {b | ∃ c, s.place b = .sent c}.Finite := by
  have hone : ∀ i, {b | s.Holds b i}.Finite := fun i =>
    Set.Subsingleton.finite fun _ hb _ hb' => hch.apart hb hb'
  refine ((Set.finite_Iio 8).biUnion fun i _ => hone i).subset ?_
  rintro b ⟨c, hc⟩
  exact Set.mem_biUnion (Set.mem_Iio.mpr (hch.taken (.head hc)).1) (Holds.head hc)

theorem Chains.conserved (hch : s.Chains) :
    ∃ bs : Finset β, (∀ b, b ∈ bs ↔ ∃ c, s.place b = .sent c) ∧
      (bs : Set β).PairwiseDisjoint s.cells ∧
      ((Finset.range 8).filter fun i => s.free i = true).card + 3 * bs.card = 8 := by
  let bs := hch.finite.toFinset
  have hbs : ∀ b, b ∈ bs ↔ ∃ c, s.place b = .sent c := fun b => hch.finite.mem_toFinset
  have hdisj : (bs : Set β).PairwiseDisjoint s.cells := by
    intro b _ b' _ hne
    rw [onFun, Finset.disjoint_left]
    intro i hi hi'
    exact hne (hch.apart (mem_cells.mp hi) (mem_cells.mp hi'))
  have hcells : ((Finset.range 8).filter fun i => ¬ s.free i = true) = bs.biUnion s.cells := by
    ext i
    simp only [Finset.mem_filter, Finset.mem_range, Finset.mem_biUnion, Bool.not_eq_true, mem_cells]
    constructor
    · rintro ⟨hi, hf⟩
      obtain ⟨b, c, hc, hic⟩ := (hch.free_iff hi).mp hf
      exact ⟨b, (hbs b).mpr ⟨c, hc⟩, c, hc, hic⟩
    · rintro ⟨b, -, hi⟩
      exact hch.taken hi
  have hthree : ∀ b ∈ bs, (s.cells b).card = 3 := by
    intro b hb
    obtain ⟨c, hc⟩ := (hbs b).mp hb
    have hcells : s.cells b = c.idx.toFinset := by rw [cells, hc]
    rw [hcells, toFinset_card_of_nodup (hch.laid hc).nodup]
    rfl
  have hsum := Finset.card_filter_add_card_filter_not (s := Finset.range 8)
    fun i => s.free i = true
  rw [hcells, Finset.card_biUnion hdisj, Finset.sum_const_nat hthree, Finset.card_range,
    Nat.mul_comm] at hsum
  exact ⟨bs, hbs, hdisj, hsum⟩

theorem freeChain_laid (hl : s.Laid b c) (hdesc : t.desc = s.desc)
    (htaken : ∀ i ∈ c.idx, i < 8 ∧ t.free i = false) :
    freeChain 8 t c.head = .ok (t.release c.idx) := by
  have hne : c.mid ≠ c.head ∧ c.tail ≠ c.head ∧ c.tail ≠ c.mid := by
    have := hl.nodup
    simp only [Call.idx, nodup_cons, mem_cons] at this
    tauto
  have hflag : ((if c.req.write then 0 else 2) ||| 1 : UInt16) &&& 1 ≠ 0 := by
    cases c.req.write <;> decide
  have hhead := htaken _ (mem_idx c).1
  have hmid := htaken _ (mem_idx c).2.1
  have htail := htaken _ (mem_idx c).2.2
  have hmid' : (t.release [c.head]).desc c.mid = s.desc c.mid := by
    simp [release, hne, hdesc]
  have htail' : ((t.release [c.head]).release [c.mid]).desc c.tail = s.desc c.tail := by
    simp [release, hne, hdesc]
  rw [freeChain_next 7 hhead.1 hhead.2, hdesc, hl.head,
    if_pos (show (1 : UInt16) &&& 1 ≠ 0 by decide),
    freeChain_next 6 hmid.1 (by simp [release, hne, hmid.2]), hmid', hl.mid, if_pos hflag,
    freeChain_next 5 htail.1 (by simp [release, hne, htail.2]), htail', hl.tail,
    if_neg (show ¬ (2 : UInt16) &&& 1 ≠ 0 by decide), release_cons _ c.mid, release_cons]
  rfl

theorem Sound.flying_taken (hs : s.Sound) (hh : h ∈ s.flying) : h < 8 ∧ s.free h = false := by
  obtain ⟨b, c, hc, -, rfl⟩ := (hs.rings.mem_iff h).mp hh
  exact hs.chains.taken (.head hc)

theorem Sound.head_inj (hs : s.Sound) (hc : s.place b = .sent c)
    (hd : s.place b' = .sent d) (h : c.head = d.head) : b = b' :=
  hs.chains.apart (.head hc) (h ▸ .head hd)

theorem Sound.busy_of_returned (hs : s.Sound) (hc : s.place b = .sent c) (hh : c.head ∈ s.returned) :
    s.busy b = true ∧ s.done b = [c.req.op] := by
  obtain ⟨b', d, hd, hbusy, hhead⟩ := (hs.rings.mem_iff _).mp (mem_append_right _ hh)
  have hapart := (nodup_append.mp hs.rings.nodup).2.2
  rw [hs.rings.done hc, if_neg fun h => hapart _ h _ hh rfl]
  exact ⟨hs.head_inj hd hc hhead ▸ hbusy, rfl⟩

/-- A step that moves no call, and writes at most free descriptors. -/
theorem Sound.replace (hs : s.Sound) {desc : ℕ → Desc β} {place : β → Place} {asleep : β → Bool}
    (hdesc : ∀ i, s.free i = false → desc i = s.desc i)
    (hcall : ∀ b c, place b = .sent c ↔ s.place b = .sent c)
    (hsl : { s with desc := desc, place := place, asleep := asleep }.Sleepers) :
    { s with desc := desc, place := place, asleep := asleep }.Sound where
  chains := hs.chains.congr hcall hdesc rfl rfl fun _ => rfl
  rings :=
    { nodup := hs.rings.nodup
      mem_iff := by
        intro h
        simp only [hcall]
        exact hs.rings.mem_iff h
      done := by
        intro b c hc
        rw [hcall] at hc
        exact hs.rings.done hc }
  sleepers := hsl

variable [DecidableEq β]

namespace Sound

theorem call (hs : s.Sound) (hb : s.place b = .out) :
    { s with place := update s.place b (.trying r) }.Sound := by
  apply hs.replace (fun _ _ => rfl)
  · intro b' c
    by_cases h : b' = b
    · simp [h, hb]
    · rw [update_of_ne h]
  · intro b' ha
    have hold := hs.sleepers b' ha
    by_cases h : b' = b
    · simp [h, hb] at hold
    · simp only [update_of_ne h]
      exact hold

theorem sleep (hs : s.Sound) (hb : s.place b = .sent c) (hbusy : s.busy b = true) :
    { s with asleep := update s.asleep b true }.Sound := by
  apply hs.replace (fun _ _ => rfl) (fun _ _ => .rfl)
  intro b' ha
  by_cases h : b' = b
  · rw [h]
    exact .inl ⟨c, hb, hbusy⟩
  · exact hs.sleepers b' ((update_of_ne h ..).symm.trans ha)

theorem wake (hs : s.Sound) : { s with asleep := update s.asleep b false }.Sound := by
  apply hs.replace (fun _ _ => rfl) (fun _ _ => .rfl)
  intro b' ha
  by_cases h : b' = b
  · simp [h] at ha
  · exact hs.sleepers b' ((update_of_ne h ..).symm.trans ha)

/-- `alloc3_desc` fails: the descriptors it took are free again. -/
theorem starve (hs : s.Sound) (hb : s.place b = .trying r) {idx : List ℕ} (hidx : Short s.free idx) :
    { (s.claim idx).release idx with
      asleep := update ((s.claim idx).release idx).asleep b true }.Sound := by
  have hback := hidx.free_back
  have hscarce : s.Scarce := ⟨idx, hidx.few, hidx.all⟩
  have heq : { (s.claim idx).release idx with
      asleep := update ((s.claim idx).release idx).asleep b true } =
    { s with
      desc := ((s.claim idx).release idx).desc
      asleep := update ((s.claim idx).release idx).asleep b true } := by
    simp only [← hback]
    rfl
  refine heq ▸ ?_
  apply hs.replace _ (fun _ _ => .rfl)
  · intro b' ha
    by_cases h : b' = b
    · rw [h]
      exact .inr ⟨⟨r, hb⟩, hscarce⟩
    · have hold : s.asleep b' = true := by
        simp only [update_of_ne h, release, claim] at ha
        split at ha
        · exact ha
        · exact (Bool.and_eq_true_iff.mp ha).1
      rcases hs.sleepers b' hold with hold | hold
      · exact .inl hold
      · exact .inr ⟨hold.1, hscarce⟩
  · intro i hi
    have hni : i ∉ idx := by
      intro hin
      rw [(hidx.free i hin).2] at hi
      cases hi
    simp [release, claim, hni]

end Sound

/-! ### A call gets its descriptors -/

/-- The call `c` on `b` has found three free descriptors. -/
structure Fresh (s : Machine β) (b : β) (c : Call) : Prop where
  trying : s.place b = .trying c.req
  avail : Avail s.free c.idx

def launch (s : Machine β) (b : β) (c : Call) : Machine β :=
  { (s.claim c.idx).format b c with
    place := update s.place b (.sent c)
    asleep := update s.asleep b true }

theorem launch_self : (s.launch b c).place b = .sent c := update_self ..

namespace Fresh

omit [DecidableEq β] in
theorem not_mem (hf : s.Fresh b c) (hs : s.Sound) (h : s.Holds b' i) : i ∉ c.idx := by
  intro hi
  have htaken := (hs.chains.taken h).2
  rw [(hf.avail.free i hi).2] at htaken
  cases htaken

theorem call_iff (hf : s.Fresh b c) : (s.launch b c).place b' = .sent d ↔
    b' = b ∧ d = c ∨ b' ≠ b ∧ s.place b' = .sent d := by
  by_cases hb : b' = b
  · subst hb
    rw [launch_self]
    simp [eq_comm]
  · simp [launch, hb]

theorem call_of_old (hf : s.Fresh b c) (hd : s.place b' = .sent d) :
    b' ≠ b ∧ (s.launch b c).place b' = .sent d := by
  have hb : b' ≠ b := by
    rintro rfl
    rw [hf.trying] at hd
    cases hd
  exact ⟨hb, hf.call_iff.mpr (.inr ⟨hb, hd⟩)⟩

theorem holds_iff (hf : s.Fresh b c) :
    (s.launch b c).Holds b' i ↔ b' = b ∧ i ∈ c.idx ∨ s.Holds b' i := by
  constructor
  · rintro ⟨d, hd, hi⟩
    obtain ⟨rfl, rfl⟩ | ⟨-, hd⟩ := hf.call_iff.mp hd
    · exact .inl ⟨rfl, hi⟩
    · exact .inr ⟨d, hd, hi⟩
  · rintro (⟨rfl, hi⟩ | ⟨d, hd, hi⟩)
    · exact ⟨c, launch_self, hi⟩
    · exact ⟨d, (hf.call_of_old hd).2, hi⟩

omit [DecidableEq β] in
theorem not_flying (hf : s.Fresh b c) (hs : s.Sound) : c.head ∉ s.flying := by
  intro hh
  have htaken := (hs.flying_taken hh).2
  rw [(hf.avail.free _ (mem_idx c).1).2] at htaken
  cases htaken

omit [DecidableEq β] in
theorem queued_lt (hf : s.Fresh b c) (hs : s.Sound) : s.queued.length < 8 := by
  have hnd := nodup_cons.mpr ⟨hf.not_flying hs, hs.rings.nodup⟩
  have hle := length_le_eight hnd fun x hx => by
    rcases mem_cons.mp hx with rfl | hx
    · exact (hf.avail.free _ (mem_idx c).1).1
    · exact (hs.flying_taken hx).1
  simp only [Machine.flying, length_cons, length_append] at hle
  omega

theorem queued (hf : s.Fresh b c) (hs : s.Sound) :
    (s.launch b c).queued = s.queued ++ [c.head] :=
  between_push s.availRing s.availSeen s.availIdx c.head (hf.queued_lt hs)

theorem flying (hf : s.Fresh b c) (hs : s.Sound) :
    (s.launch b c).flying.Perm (c.head :: s.flying) := by
  rw [Machine.flying, hf.queued hs, append_assoc, append_assoc, Machine.flying, append_assoc]
  exact perm_middle

theorem laid (hf : s.Fresh b c) : (s.launch b c).Laid b c := by
  have hne : c.head ≠ c.mid ∧ c.head ≠ c.tail ∧ c.mid ≠ c.tail := by
    simpa [Call.idx, and_assoc] using hf.avail.nodup
  constructor
  · simp [launch, format, hne]
  · simp [launch, format, hne]
  · simp [launch, format]
  · simp [launch, format]
  · simp [launch, format]
  · exact hf.avail.nodup
  · exact fun i hi => (hf.avail.free i hi).1

theorem chains (hf : s.Fresh b c) (hs : s.Sound) : (s.launch b c).Chains where
  laid := by
    intro b' d hd
    obtain ⟨rfl, rfl⟩ | ⟨-, hd⟩ := hf.call_iff.mp hd
    · exact hf.laid
    have hfar : ∀ i ∈ d.idx, i ≠ c.head ∧ i ≠ c.mid ∧ i ≠ c.tail := by
      intro i hi
      simpa [Call.idx, not_or] using hf.not_mem hs ⟨d, hd, hi⟩
    have hhead := hfar d.head (mem_idx d).1
    apply (hs.chains.laid hd).congr
    · intro i hi
      simp [launch, format, claim, hfar i hi]
    · simp [launch, format, claim, hhead]
    · simp [launch, format, claim, hhead]
  apart := by
    intro x y i hx hy
    rw [hf.holds_iff] at hx hy
    rcases hx with ⟨rfl, hi⟩ | hx
    · rcases hy with ⟨rfl, -⟩ | hy
      · rfl
      · exact absurd hi (hf.not_mem hs hy)
    · rcases hy with ⟨-, hi⟩ | hy
      · exact absurd hi (hf.not_mem hs hx)
      · exact hs.chains.apart hx hy
  free_iff := by
    intro i hi
    have hold := hs.chains.free_iff hi
    simp only [hf.holds_iff, exists_or, exists_eq_left, ← hold]
    by_cases hic : i ∈ c.idx <;> simp [launch, format, claim, hic]

theorem rings (hf : s.Fresh b c) (hs : s.Sound) : (s.launch b c).Rings where
  nodup := (hf.flying hs).nodup_iff.mpr
    (nodup_cons.mpr ⟨hf.not_flying hs, hs.rings.nodup⟩)
  mem_iff := by
    intro h
    rw [(hf.flying hs).mem_iff, mem_cons, hs.rings.mem_iff]
    constructor
    · rintro (rfl | ⟨b', d, hd, hbusy, hhead⟩)
      · exact ⟨b, c, launch_self, update_self .., rfl⟩
      · obtain ⟨hne, hd⟩ := hf.call_of_old hd
        exact ⟨b', d, hd, (update_of_ne hne ..).trans hbusy, hhead⟩
    · rintro ⟨b', d, hd, hbusy, hhead⟩
      obtain ⟨-, rfl⟩ | ⟨hne, hd⟩ := hf.call_iff.mp hd
      · exact .inl hhead.symm
      · exact .inr ⟨b', d, hd, (update_of_ne hne ..).symm.trans hbusy, hhead⟩
  done := by
    intro b' d hd
    rw [hf.queued hs]
    change update s.done b [] b' = if d.head ∈ s.queued ++ [c.head] ++ s.work then _ else _
    obtain ⟨rfl, rfl⟩ | ⟨hne, hd⟩ := hf.call_iff.mp hd
    · simp
    · have hhead : d.head ≠ c.head := by
        intro h
        exact hf.not_mem hs (.head hd) (h ▸ (mem_idx c).1)
      rw [update_of_ne hne, hs.rings.done hd]
      simp [hhead]

theorem succeeded (hf : s.Fresh b c) (hs : s.Sound) (hok : s.Succeeded) :
    (s.launch b c).Succeeded := by
  intro h hh
  have hhead : h ≠ c.head := by
    rintro rfl
    exact hf.not_flying hs (mem_append_right _ hh)
  simpa [launch, format, claim, hhead] using hok h hh

theorem sound (hf : s.Fresh b c) (hs : s.Sound) : (s.launch b c).Sound where
  chains := hf.chains hs
  rings := hf.rings hs
  sleepers := by
    intro b' ha
    by_cases hb : b' = b
    · rw [hb]
      exact .inl ⟨c, launch_self, update_self ..⟩
    · rcases hs.sleepers b' ((update_of_ne hb ..).symm.trans ha) with
        ⟨d, hd, hbusy⟩ | ⟨⟨r, hr⟩, idx, hlen, hall⟩
      · exact .inl ⟨d, (hf.call_of_old hd).2, (update_of_ne hb ..).trans hbusy⟩
      · refine .inr ⟨⟨r, (update_of_ne hb ..).trans hr⟩, idx, hlen, ?_⟩
        intro i hi hfree
        exact hall i hi (Bool.and_eq_true_iff.mp hfree).1

end Fresh

theorem submit_cases (hb : s.place b = .trying r) :
    (∃ c, s.Fresh b c ∧ s.submit b r = .ok (s.launch b c)) ∨
    ∃ idx, Short s.free idx ∧ s.submit b r = .ok { (s.claim idx).release idx with
      asleep := update ((s.claim idx).release idx).asleep b true } := by
  obtain ⟨i, j, k, havail, h⟩ | ⟨idx, hidx, h⟩ := s.alloc3Desc_cases
  · refine .inl ⟨⟨r, i, j, k⟩, ⟨hb, havail⟩, ?_⟩
    have hbusy : ((s.claim [i, j, k]).format b ⟨r, i, j, k⟩).busy b = true :=
      update_self ..
    rw [submit, h]
    change await _ b _ = _
    rw [await, if_pos hbusy]
    rfl
  · refine .inr ⟨idx, hidx, ?_⟩
    rw [submit, h]
    rfl

/-! ### The end of a call -/

def retire (s : Machine β) (b : β) (c : Call) : Machine β :=
  { { s with info := update s.info c.head { s.info c.head with b := none } }.release
      c.idx with
    place := update s.place b .out }

theorem retire_call_iff : (s.retire b c).place b' = .sent d ↔
    b' ≠ b ∧ s.place b' = .sent d := by
  by_cases hb : b' = b
  · simp [retire, hb]
  · simp [retire, hb]

namespace Sound

theorem retire (hs : s.Sound) (hc : s.place b = .sent c) (hbusy : s.busy b = false) :
    (s.retire b c).Sound := by
  have hholds : ∀ {b' i}, (s.retire b c).Holds b' i ↔ b' ≠ b ∧ s.Holds b' i := by
    intro b' i
    simp only [Holds, retire_call_iff]
    tauto
  have hmine : ∀ {b' i}, s.Holds b' i → (b' = b ↔ i ∈ c.idx) := by
    intro b' i h
    constructor
    · rintro rfl
      obtain ⟨d, hd, hi⟩ := h
      rwa [Place.sent.inj (hc.symm.trans hd)]
    · intro hi
      exact hs.chains.apart h ⟨c, hc, hi⟩
  constructor
  · constructor
    · intro b' d hd
      obtain ⟨hb, hd⟩ := retire_call_iff.mp hd
      have hhead : d.head ≠ c.head := fun h => hb (hs.head_inj hd hc h)
      apply (hs.chains.laid hd).congr
      · intro i hi
        have hout : i ∉ c.idx := fun hic => hb ((hmine ⟨d, hd, hi⟩).mpr hic)
        simp [Machine.retire, release, hout]
      · rfl
      · simp [Machine.retire, release, hhead]
    · intro x y i hx hy
      exact hs.chains.apart (hholds.mp hx).2 (hholds.mp hy).2
    · intro i hi
      have hold := hs.chains.free_iff hi
      simp only [hholds]
      by_cases hic : i ∈ c.idx
      · refine iff_of_false (by simp [Machine.retire, release, hic]) ?_
        rintro ⟨b', hb, h⟩
        exact hb ((hmine h).mpr hic)
      · refine Iff.trans (by simp [Machine.retire, release, hic]) (hold.trans ?_)
        refine exists_congr fun b' => ⟨fun h => ⟨fun hb => hic ((hmine h).mp hb), h⟩, And.right⟩
  · constructor
    · exact hs.rings.nodup
    · intro h
      refine (hs.rings.mem_iff h).trans (exists₂_congr fun b' d => ?_)
      rw [retire_call_iff]
      have hne : s.busy b' = true → b' ≠ b := by
        rintro h rfl
        rw [hbusy] at h
        cases h
      change _ ↔ _ ∧ s.busy b' = true ∧ _
      tauto
    · exact fun hd => hs.rings.done (retire_call_iff.mp hd).2
  · intro b' ha
    obtain ⟨ha, hsome⟩ : s.asleep b' = true ∧ (s.place b').isSent = true :=
      Bool.and_eq_true_iff.mp ha
    rcases hs.sleepers b' ha with ⟨d, hd, hb⟩ | ⟨⟨r, hr⟩, -⟩
    · refine .inl ⟨d, retire_call_iff.mpr ⟨?_, hd⟩, hb⟩
      rintro rfl
      rw [hbusy] at hb
      cases hb
    · rw [hr] at hsome
      cases hsome

theorem await_clear (hs : s.Sound) (hc : s.place b = .sent c) (hbusy : s.busy b = false) :
    s.await b c = .ok (s.retire b c) := by
  have hchain := freeChain_laid (t := { s with
    info := update s.info c.head { s.info c.head with b := none } })
    (hs.chains.laid hc) rfl fun i hi => hs.chains.taken ⟨c, hc, hi⟩
  rw [await, if_neg (by simp [hbusy]), hchain]
  rfl

/-! ### The device and the interrupt handler -/

omit [DecidableEq β] in
theorem take (hs : s.Sound) (h : s.availSeen ≠ s.availIdx) : s.take.Sound := by
  set x := s.availRing (s.availSeen.toNat % 8) with hx
  have hq : s.queued = x :: s.take.queued := between_pop _ _ _ h
  have hold : (s.take.queued ++ s.take.work).Perm (s.queued ++ s.work) := by
    change (s.take.queued ++ (s.work ++ [x])).Perm _
    rw [hq, ← append_assoc, cons_append]
    exact perm_append_singleton ..
  have hfly : s.take.flying.Perm s.flying := hold.append_right s.returned
  refine ⟨hs.chains.congr (fun _ _ => .rfl) (fun _ _ => rfl) rfl rfl fun _ => rfl, ?_, hs.sleepers⟩
  exact {
    nodup := hfly.nodup_iff.mpr hs.rings.nodup
    mem_iff := fun h => hfly.mem_iff.trans (hs.rings.mem_iff h)
    done := by
      intro b c hc
      simp only [hold.mem_iff]
      exact hs.rings.done hc }

end Sound

/-- The state after the device has carried out the call `c` on `b` and reported `status`. -/
def served (s : Machine β) (b : β) (c : Call) (status : UInt8) : Machine β :=
  { s with
    done := update s.done b (s.done b ++ [c.req.op])
    info := update s.info c.head { s.info c.head with status }
    usedRing := update s.usedRing (s.usedIdx.toNat % 8) c.head
    usedIdx := s.usedIdx + 1
    work := s.work.erase c.head }

theorem complete_laid (hl : s.Laid b c) (status : UInt8) :
    s.complete c.head status = .ok (s.served b c status) := by
  have hflags : (2 ||| 1 : UInt16) = 3 := rfl
  rw [complete]
  simp only [hl.head, hl.mid, hl.tail, hl.op]
  cases hw : c.req.write <;> simp [served, Request.op, hw, hflags]

/-- The state after the interrupt handler has read the head of the call on `b`. -/
def acked (s : Machine β) (b : β) : Machine β :=
  { s with
    busy := update s.busy b false
    asleep := update s.asleep b false
    usedSeen := s.usedSeen + 1 }

namespace Sound

omit [DecidableEq β] in
theorem returned_lt (hs : s.Sound) (hw : h ∈ s.work) : s.returned.length < 8 := by
  have hle := length_le_eight hs.rings.nodup fun x hx => (hs.flying_taken hx).1
  have hpos := length_pos_of_mem hw
  simp only [flying, length_append] at hle
  omega

theorem returned_served (hs : s.Sound) (hw : c.head ∈ s.work) :
    (s.served b c status).returned = s.returned ++ [c.head] :=
  between_push s.usedRing s.usedSeen s.usedIdx c.head (hs.returned_lt hw)

theorem served (hs : s.Sound) (hc : s.place b = .sent c) (hw : c.head ∈ s.work) :
    (s.served b c status).Sound := by
  have hnd := hs.rings.nodup
  have hret : (s.served b c status).returned = _ := hs.returned_served hw
  have hfly : (s.served b c status).flying.Perm s.flying := by
    have herase := (perm_cons_erase hw).symm
    refine List.Perm.trans ?_ ((herase.append_left s.queued).append_right s.returned)
    rw [flying, hret, perm_iff_count]
    intro a
    simp only [count_append, count_cons, count_nil]
    change List.count a s.queued + List.count a (s.work.erase c.head) + _ = _
    omega
  have hgone : c.head ∉ s.queued ++ s.work.erase c.head := by
    obtain ⟨-, hwork, hapart⟩ := nodup_append.mp (nodup_append.mp hnd).1
    rw [mem_append, not_or]
    exact ⟨fun hq => hapart _ hq _ hw rfl, hwork.not_mem_erase⟩
  constructor
  · refine hs.chains.congr (fun _ _ => .rfl) (fun _ _ => rfl) rfl rfl fun i => ?_
    by_cases hi : i = c.head <;> simp [Machine.served, hi]
  · constructor
    · exact hfly.nodup_iff.mpr hnd
    · exact fun h => hfly.mem_iff.trans (hs.rings.mem_iff h)
    · intro b' d hd
      change update s.done b _ b' =
        if d.head ∈ s.queued ++ s.work.erase c.head then _ else _
      by_cases hb : b' = b
      · subst hb
        obtain rfl : c = d := Place.sent.inj (hc.symm.trans hd)
        rw [update_self, if_neg hgone, hs.rings.done hc, if_pos (mem_append_right _ hw)]
        rfl
      · have hhead : d.head ≠ c.head := fun h => hb (hs.head_inj hd hc h)
        rw [update_of_ne hb, hs.rings.done hd]
        simp only [mem_append, mem_erase_of_ne hhead]
  · exact hs.sleepers

theorem acked (hs : s.Sound) (hc : s.place b = .sent c)
    (hret : s.returned = c.head :: (s.acked b).returned) : (s.acked b).Sound := by
  have hfly : s.flying.Perm (c.head :: (s.acked b).flying) := by
    rw [flying, hret]
    exact perm_middle
  obtain ⟨hout, hnd⟩ := nodup_cons.mp (hfly.nodup_iff.mp hs.rings.nodup)
  have hbusy : ∀ {b'}, (s.acked b).busy b' = true ↔ b' ≠ b ∧ s.busy b' = true := by
    intro b'
    by_cases hb : b' = b <;> simp [Machine.acked, hb]
  constructor
  · exact hs.chains.congr (fun _ _ => .rfl) (fun _ _ => rfl) rfl rfl fun _ => rfl
  · constructor
    · exact hnd
    · intro h
      have hold := hfly.mem_iff.symm.trans (hs.rings.mem_iff h)
      rw [mem_cons] at hold
      simp only [hbusy]
      constructor
      · intro hh
        obtain ⟨b', d, hd, hb, rfl⟩ := hold.mp (.inr hh)
        refine ⟨b', d, hd, ⟨?_, hb⟩, rfl⟩
        rintro rfl
        rw [← Place.sent.inj (hc.symm.trans hd)] at hh
        exact hout hh
      · rintro ⟨b', d, hd, ⟨hne, hb⟩, rfl⟩
        refine (hold.mpr ⟨b', d, hd, hb, rfl⟩).resolve_left fun h => hne ?_
        exact hs.head_inj hd hc h
    · exact hs.rings.done
  · intro b' ha
    obtain ⟨hne, ha⟩ : b' ≠ b ∧ s.asleep b' = true := by
      by_cases hb : b' = b <;> simp_all [Machine.acked]
    refine (hs.sleepers b' ha).imp_left ?_
    rintro ⟨d, hd, hb⟩
    exact ⟨d, hd, hbusy.mpr ⟨hne, hb⟩⟩

/-- A round of the interrupt handler finds the call of the head it reads.  It panics on any
status but 0. -/
theorem intrRound (hs : s.Sound) (h : s.usedSeen ≠ s.usedIdx) :
    ∃ b c, s.place b = .sent c ∧ s.returned = c.head :: (s.acked b).returned ∧
      s.intrRound = if (s.info c.head).status = 0 then .ok (s.acked b)
        else .error "virtio_disk_intr status" := by
  have hret : s.returned = s.usedRing (s.usedSeen.toNat % 8) ::
      between s.usedRing (s.usedSeen + 1) s.usedIdx := between_pop _ _ _ h
  have hmem : s.usedRing (s.usedSeen.toNat % 8) ∈ s.returned := by
    rw [hret]
    exact mem_cons_self ..
  obtain ⟨b, c, hc, -, hhead⟩ := (hs.rings.mem_iff _).mp (mem_append_right _ hmem)
  have hbuf := (hs.chains.laid hc).buf
  rw [← hhead] at hret
  refine ⟨b, c, hc, hret, ?_⟩
  rw [Machine.intrRound]
  by_cases hstatus : (s.info c.head).status = 0
  · simp [← hhead, hstatus, hbuf, wakeBuf, hc, Place.isSent, Machine.acked]
  · simp [← hhead, hstatus]

omit [DecidableEq β] in
theorem head_succeeded (hok : s.Succeeded) {rest : List ℕ} (hret : s.returned = c.head :: rest) :
    (s.info c.head).status = 0 := by
  apply hok
  rw [hret]
  exact mem_cons_self ..

end Sound

/-! ## Runs -/

/-- The entries from index `a` up to `b` are the same in both rings. -/
def Kept (ring ring' : ℕ → ℕ) (a b : UInt16) : Prop :=
  ∀ k < (b - a).toNat, ring' ((a.toNat + k) % 8) = ring ((a.toNat + k) % 8)

omit [DecidableEq β] in
theorem kept_push {ring : ℕ → ℕ} {x y : UInt16} (hlen : (between ring x y).length < 8) :
    Kept ring (update ring (y.toNat % 8) h) x y := by
  intro k hk
  have hgap : (y - x).toNat < 8 := by simpa [between] using hlen
  have hcell := cell_of_gap x y
  exact update_of_ne (by omega) ..

/-- The store to a `disk` flag between two states: `virtio_disk_rw` sets the flag of the buffer
whose head it puts in the avail ring, the handler clears that of the head it has read. -/
def flagStore (s t : Machine β) : Option (β × Bool) :=
  if t.availIdx ≠ s.availIdx then
    (t.info (t.availRing (s.availIdx.toNat % 8))).b.map (·, true)
  else if t.usedSeen ≠ s.usedSeen then
    (s.info (s.usedRing (s.usedSeen.toNat % 8))).b.map (·, false)
  else none

/-- What a step does to flags and rings.  A flag is set when a call gets its descriptors, and
cleared when the head of the call has come back.  A call ends with its flag clear, and no entry
that is not consumed is overwritten. -/
structure Orderly (s t : Machine β) : Prop where
  flags : t.busy = (flagStore s t).elim s.busy fun x => update s.busy x.1 x.2
  set : ∀ b, flagStore s t = some (b, true) ↔ (∃ r, s.place b = .trying r) ∧ ∃ c, t.place b = .sent c
  cleared : ∀ b, flagStore s t = some (b, false) → s.busy b = true ∧
    ∃ c, s.place b = .sent c ∧ c.head ∈ s.returned ∧ s.done b = [c.req.op]
  ends : ∀ b c, s.place b = .sent c → t.place b = .sent c ∨ s.busy b = false
  avail : Kept s.availRing t.availRing s.availSeen s.availIdx
  used : Kept s.usedRing t.usedRing s.usedSeen s.usedIdx

/-- A step that stores no flag. -/
theorem Orderly.quiet (hbusy : t.busy = s.busy) (hidx : t.availIdx = s.availIdx)
    (hring : t.availRing = s.availRing) (hseen : t.usedSeen = s.usedSeen)
    (hused : Kept s.usedRing t.usedRing s.usedSeen s.usedIdx)
    (hsent : ∀ b c, t.place b = .sent c → s.place b = .sent c)
    (hends : ∀ b c, s.place b = .sent c → t.place b = .sent c ∨ s.busy b = false) :
    Orderly s t := by
  have hnone : flagStore s t = none := by simp [flagStore, hidx, hseen]
  refine ⟨by rw [hnone]; exact hbusy, fun b => iff_of_false (by simp [hnone]) ?_,
    by simp [hnone], hends, fun _ _ => by rw [hring], hused⟩
  rintro ⟨⟨r, hr⟩, c, hc⟩
  cases hr.symm.trans (hsent b c hc)

theorem Fresh.orderly (hf : s.Fresh b c) (hs : s.Sound) : Orderly s (s.launch b c) := by
  have hstore : flagStore s (s.launch b c) = some (b, true) := by
    simp [flagStore, launch, format, claim]
  refine ⟨by rw [hstore]; rfl, fun b' => ?_, by simp [hstore],
    fun b' d hd => .inl (hf.call_of_old hd).2, kept_push (hf.queued_lt hs), fun _ _ => rfl⟩
  rw [hstore, Option.some_inj, Prod.mk.injEq, and_iff_left rfl]
  constructor
  · rintro rfl
    exact ⟨⟨_, hf.trying⟩, c, launch_self⟩
  · rintro ⟨⟨r, hr⟩, d, hd⟩
    by_contra hne
    cases hr.symm.trans ((hf.call_iff.mp hd).resolve_left fun h => hne h.1.symm).2

theorem between_ne_nil {ring : ℕ → ℕ} {x y : UInt16} (h : i ∈ between ring x y) : x ≠ y := by
  rintro rfl
  simp [between] at h

theorem Sound.orderly_acked (hs : s.Sound) (hc : s.place b = .sent c)
    (hret : s.returned = c.head :: (s.acked b).returned) : Orderly s (s.acked b) := by
  have hh : c.head ∈ s.returned := hret ▸ mem_cons_self ..
  have hhead := (cons.inj ((between_pop _ _ _ (between_ne_nil hh)).symm.trans hret)).1
  have hstore : flagStore s (s.acked b) = some (b, false) := by
    simp [flagStore, Machine.acked, hhead, (hs.chains.laid hc).buf]
  refine ⟨by rw [hstore]; rfl, fun b' => iff_of_false (by simp [hstore]) ?_, fun b' hb => ?_,
    fun _ _ => .inl, fun _ _ => rfl, fun _ _ => rfl⟩
  · rintro ⟨⟨r, hr⟩, d, hd⟩
    cases hr.symm.trans hd
  · cases hstore.symm.trans hb
    obtain ⟨hbusy, hdone⟩ := hs.busy_of_returned hc hh
    exact ⟨hbusy, c, hc, hh, hdone⟩

/-- A step keeps the invariant, or the handler panics on a status that the device reported. -/
theorem Step.sound {o : Except String (Machine β)} (hstep : Step s o) (hs : s.Sound) :
    (∃ t, o = .ok t ∧ t.Sound ∧ Orderly s t) ∨
      o = .error "virtio_disk_intr status" ∧ ¬ s.Succeeded := by
  rcases hstep with hmove | b
  · cases hmove with
    | call b r hb =>
      refine .inl ⟨_, rfl, hs.call hb, .quiet rfl rfl rfl rfl (fun _ _ => rfl) (fun b' c => ?_)
        fun b' c hc => .inl ?_⟩
      · by_cases h : b' = b <;> simp [h]
      · by_cases h : b' = b <;> simp_all
    | submit b r hb =>
      obtain ⟨c, hc, heq⟩ | ⟨idx, hidx, heq⟩ := s.submit_cases hb
      · exact .inl ⟨_, heq, hc.sound hs, hc.orderly hs⟩
      · exact .inl ⟨_, heq, hs.starve hb hidx,
          .quiet rfl rfl rfl rfl (fun _ _ => rfl) (fun _ _ => id) fun _ _ => .inl⟩
    | look b c hb =>
      cases hbusy : s.busy b with
      | true =>
        exact .inl ⟨_, if_pos hbusy, hs.sleep hb hbusy,
          .quiet rfl rfl rfl rfl (fun _ _ => rfl) (fun _ _ => id) fun _ _ => .inl⟩
      | false =>
        refine .inl ⟨_, hs.await_clear hb hbusy, hs.retire hb hbusy,
          .quiet rfl rfl rfl rfl (fun _ _ => rfl) (fun _ _ h => (retire_call_iff.mp h).2) ?_⟩
        intro b' d hd
        by_cases h : b' = b
        · exact .inr (h ▸ hbusy)
        · exact .inl (retire_call_iff.mpr ⟨h, hd⟩)
    | take h =>
      exact .inl ⟨_, rfl, hs.take h,
        .quiet rfl rfl rfl rfl (fun _ _ => rfl) (fun _ _ => id) fun _ _ => .inl⟩
    | complete h status hh =>
      obtain ⟨b, c, hc, -, rfl⟩ := (hs.rings.mem_iff h).mp
        (mem_append_left _ (mem_append_right _ hh))
      exact .inl ⟨_, complete_laid (hs.chains.laid hc) status, hs.served hc hh,
        .quiet rfl rfl rfl rfl (kept_push (hs.returned_lt hh)) (fun _ _ => id) fun _ _ => .inl⟩
    | intr h =>
      obtain ⟨b, c, hc, hret, heq⟩ := hs.intrRound h
      by_cases hstatus : (s.info c.head).status = 0
      · exact .inl ⟨_, heq.trans (if_pos hstatus), hs.acked hc hret, hs.orderly_acked hc hret⟩
      · exact .inr ⟨heq.trans (if_neg hstatus), fun hok => hstatus (Sound.head_succeeded hok hret)⟩
  · exact .inl ⟨_, rfl, hs.wake,
      .quiet rfl rfl rfl rfl (fun _ _ => rfl) (fun _ _ => id) fun _ _ => .inl⟩

theorem Step.orderly (hstep : Step s (.ok t)) (hs : s.Sound) : Orderly s t := by
  obtain ⟨_, h, -, horderly⟩ | ⟨h, -⟩ := hstep.sound hs
  · cases h
    exact horderly
  · cases h

theorem Reachable.sound (hs : Reachable s) : s.Sound := by
  induction hs with
  | init => exact sound_init
  | step _ hstep ih =>
    obtain ⟨t, ht, hsound, -⟩ | ⟨ht, -⟩ := hstep.sound ih
    · rw [Except.ok.inj ht]
      exact hsound
    · cases ht

/-- No chain is malformed when the device follows it, no head that it returns belongs to no
buffer, and the driver panics only on a status, which it never does while the device reports
success. -/
theorem never_panics (hs : Reachable s) {o : Except String (Machine β)} (hstep : Step s o) :
    (s.Succeeded → ∃ t, o = .ok t) ∧ ∀ msg, o = .error msg → msg = "virtio_disk_intr status" := by
  obtain ⟨t, rfl, -⟩ | ⟨rfl, hfailed⟩ := hstep.sound hs.sound
  · exact ⟨fun _ => ⟨t, rfl⟩, fun msg h => by cases h⟩
  · exact ⟨fun hok => absurd hok hfailed, fun msg h => (Except.error.inj h).symm⟩

/-- The first call: block 5 is read. -/
def firstCall : Machine Unit :=
  { init with place := update init.place () (.trying ⟨5, false⟩) }

theorem firstCall_reachable : Reachable firstCall := .step .init (.move (.call () ⟨5, false⟩ rfl))

/-- The first call has its descriptors. -/
def firstSent : Machine Unit := (firstCall.submit () ⟨5, false⟩).toOption.getD firstCall

theorem firstSent_reachable : Reachable firstSent :=
  .step firstCall_reachable (.move (.submit () ⟨5, false⟩ rfl rfl))

/-- The device has carried it out and reports success. -/
theorem never_panics_first :
    ∃ s : Machine Unit, Reachable s ∧ s.returned = [0] ∧ ∃ t, s.intrRound = .ok t := by
  have htake : Step firstSent (.ok firstSent.take) := .move (.take (by decide))
  have hdone : Step firstSent.take (firstSent.take.complete 0 0) :=
    .move (.complete 0 0 (by decide))
  have hs := (firstSent_reachable.step htake).step hdone
  refine ⟨_, hs, rfl, (never_panics hs (.move (.intr (by decide)))).1 ?_⟩
  intro h hh
  rw [mem_singleton.mp (show h ∈ [0] from hh)]
  rfl

/-- A call's command is carried out once, before its flag is cleared; until then
its head is in one place among the rings and the device. -/
theorem commands_carried_out_once (hs : Reachable s) (hc : s.place b = .sent c) :
    (s.busy b = false → s.done b = [c.req.op]) ∧
    (s.busy b = true → s.flying.count c.head = 1 ∧
      (s.done b = [] ∨ s.done b = [c.req.op] ∧ c.head ∈ s.returned)) := by
  have hrings := hs.sound.rings
  have hdone := hrings.done hc
  constructor
  · intro hbusy
    have hnot : c.head ∉ s.flying := by
      intro hh
      obtain ⟨b', d, hd, hbusy', hhead⟩ := (hrings.mem_iff _).mp hh
      rw [hs.sound.head_inj hd hc hhead, hbusy] at hbusy'
      cases hbusy'
    rw [hdone, if_neg fun hh => hnot (mem_append_left _ hh)]
  · intro hbusy
    have hin : c.head ∈ s.flying := (hrings.mem_iff _).mpr ⟨b, c, hc, hbusy, rfl⟩
    refine ⟨count_eq_one_of_mem hrings.nodup hin, ?_⟩
    rw [hdone]
    split
    · exact .inl rfl
    · rename_i hnot
      exact .inr ⟨rfl, (mem_append.mp hin).resolve_left hnot⟩

theorem commands_carried_out_once_first :
    ∃ (s : Machine Unit) (c : Call), Reachable s ∧ s.place () = .sent c ∧ s.busy () = true ∧
      s.flying.count c.head = 1 :=
  ⟨_, _, firstSent_reachable, rfl, rfl,
    ((commands_carried_out_once firstSent_reachable (b := ()) rfl).2 rfl).1⟩

/-! ### Every call can finish -/

/-- Steps without a panic and without a `kill`: who sleeps is woken by the driver. -/
abbrev Run : Machine β → Machine β → Prop := Relation.ReflTransGen fun s t => Move s (.ok t)

/-- The device and the handler bring the call on `b` to the point where its flag is clear. -/
def Settles (s : Machine β) (b : β) : Prop :=
  ∃ t, Run s t ∧ t.Sound ∧ t.Succeeded ∧ t.place = s.place ∧ t.busy b = false

theorem Settles.step (hmove : Move s (.ok t)) (hplace : t.place = s.place) (h : t.Settles b) :
    s.Settles b := by
  obtain ⟨u, hrun, hsound, hok, hu, hbusy⟩ := h
  exact ⟨u, hrun.head hmove, hsound, hok, hu.trans hplace, hbusy⟩

theorem settles_returned (n : ℕ) : ∀ s : Machine β, s.Sound → s.Succeeded →
    s.returned.length = n → s.place b = .sent c → c.head ∈ s.returned → s.Settles b := by
  induction n with
  | zero =>
    intro s _ _ hlen _ hmem
    rw [eq_nil_of_length_eq_zero hlen] at hmem
    cases hmem
  | succ n ih =>
    intro s hs hok hlen hc hmem
    have hne := between_ne_nil hmem
    obtain ⟨b', d, hd, hret, heq⟩ := hs.intrRound hne
    rw [if_pos (Sound.head_succeeded hok hret)] at heq
    have hmove : Move s (.ok (s.acked b')) := heq ▸ Move.intr hne
    have hsound := hs.acked hd hret
    have hok' : (s.acked b').Succeeded := by
      intro h hh
      apply hok
      rw [hret]
      exact mem_cons_of_mem _ hh
    by_cases hb : b = b'
    · rw [hb]
      exact ⟨_, .single hmove, hsound, hok', rfl, update_self ..⟩
    · have hhead : c.head ≠ d.head := fun h => hb (hs.head_inj hc hd h)
      rw [hret] at hmem hlen
      exact Settles.step hmove rfl (ih _ hsound hok' (by simpa using hlen) hc
        ((mem_cons.mp hmem).resolve_left hhead))

/-- The device reports success for the chains it still has to return. -/
theorem settles_queued (n : ℕ) : ∀ s : Machine β, s.Sound → s.Succeeded →
    s.queued.length = n → s.place b = .sent c → c.head ∈ s.queued ++ s.work → s.Settles b := by
  induction n with
  | zero =>
    intro s hs hok hlen hc hmem
    rw [eq_nil_of_length_eq_zero hlen] at hmem
    have hmove : Move s (.ok (s.served b c 0)) :=
      complete_laid (hs.chains.laid hc) 0 ▸ Move.complete c.head 0 hmem
    have hret : (s.served b c 0).returned = _ := hs.returned_served hmem
    refine Settles.step hmove rfl (settles_returned _ _ (hs.served hc hmem) ?_ rfl hc ?_)
    · intro h hh
      rw [hret, mem_append, mem_singleton] at hh
      by_cases hhead : h = c.head
      · simp [served, hhead]
      · simpa [served, hhead] using hok h (hh.resolve_right hhead)
    · rw [hret]
      exact mem_append_right _ (mem_singleton_self _)
  | succ n ih =>
    intro s hs hok hlen hc hmem
    have hne : s.availSeen ≠ s.availIdx := by
      intro h
      simp [queued, between, h] at hlen
    have hpop : s.queued = s.availRing (s.availSeen.toNat % 8) :: s.take.queued :=
      between_pop _ _ _ hne
    rw [hpop] at hlen hmem
    refine Settles.step (.take hne) rfl (ih _ (hs.take hne) hok (by simpa using hlen) hc ?_)
    change c.head ∈ s.take.queued ++ (s.work ++ [s.availRing (s.availSeen.toNat % 8)])
    simp only [mem_append, mem_cons, not_mem_nil, or_false] at hmem ⊢
    tauto

theorem settles (hs : s.Sound) (hok : s.Succeeded) (hc : s.place b = .sent c) : s.Settles b := by
  cases hbusy : s.busy b with
  | true =>
    have hin := (hs.rings.mem_iff c.head).mpr ⟨b, c, hc, hbusy, rfl⟩
    rcases mem_append.mp hin with hin | hin
    · exact settles_queued _ _ hs hok rfl hc hin
    · exact settles_returned _ _ hs hok rfl hc hin
  | false => exact ⟨s, .refl, hs, hok, rfl, hbusy⟩

/-- A call that has its descriptors can return, which wakes those that wait for some. -/
theorem finishes (hs : s.Sound) (hok : s.Succeeded) (hc : s.place b = .sent c) :
    ∃ t, Run s t ∧ t.Sound ∧ t.Succeeded ∧ t.place b = .out ∧ (∀ i ∈ c.idx, t.free i = true) ∧
      ∀ b' r, s.place b' = .trying r → t.place b' = .trying r ∧ t.asleep b' = false := by
  obtain ⟨t, hrun, hsound, hok, hplace, hbusy⟩ := settles hs hok hc
  rw [← hplace] at hc ⊢
  have hawake : t.asleep b = false := by
    by_contra ha
    simpa [hc, hbusy] using hsound.sleepers b (Bool.eq_true_of_not_eq_false ha)
  have hmove : Move t (.ok (t.retire b c)) := by
    rw [← hsound.await_clear hc hbusy]
    exact .look b c hc hawake
  refine ⟨_, hrun.tail hmove, hsound.retire hc hbusy, ?_, update_self .., ?_, ?_⟩
  · intro h hh
    by_cases hhead : h = c.head
    · simpa [retire, release, hhead] using hok h hh
    · simpa [retire, release, hhead] using hok h hh
  · intro i hi
    simp [retire, release, hi]
  · intro b' r hb
    have hne : b' ≠ b := by
      rintro rfl
      rw [hc] at hb
      cases hb
    refine ⟨(update_of_ne hne ..).trans hb, ?_⟩
    simp [retire, release, Call.idx, wakeFree, hb, Place.isSent]

theorem finishes_launch (hf : s.Fresh b c) (hs : s.Sound) (hok : s.Succeeded)
    (ha : s.asleep b = false) (heq : s.submit b c.req = .ok (s.launch b c)) :
    ∃ t, Run s t ∧ t.place b = .out := by
  obtain ⟨t, hrun, -, -, hout, -⟩ := finishes (hf.sound hs) (hf.succeeded hs hok) launch_self
  exact ⟨t, hrun.head (heq ▸ Move.submit b c.req hf.trying ha), hout⟩

/-- Fewer than three descriptors are free, so some call has three; after its return
there are enough. -/
theorem finishes_starved (hs : s.Sound) (hok : s.Succeeded) (hb : s.place b = .trying r)
    (hscarce : s.Scarce) : ∃ t, Run s t ∧ t.place b = .out := by
  obtain ⟨idx, hlen, hall⟩ := hscarce
  obtain ⟨i, hi, hni⟩ : ∃ i < 8, i ∉ idx := by
    by_contra hcon
    have hsub : List.range 8 ⊆ idx := by
      intro i hi
      by_contra hni
      exact hcon ⟨i, mem_range.mp hi, hni⟩
    have := (subperm_of_subset nodup_range hsub).length_le
    rw [length_range] at this
    omega
  have htaken : s.free i = false := Bool.eq_false_of_not_eq_true fun hf => hni (hall i hi hf)
  obtain ⟨b1, c, hc, -⟩ := (hs.chains.free_iff hi).mp htaken
  have hl := hs.chains.laid hc
  obtain ⟨t, hrun, hsound, hok, -, hfree, hwake⟩ := finishes hs hok hc
  obtain ⟨hplace, hawake⟩ := hwake b r hb
  obtain ⟨d, hd, heq⟩ | ⟨idx', hidx', -⟩ := t.submit_cases hplace
  · have hreq : d.req = r := Place.trying.inj (hd.trying.symm.trans hplace)
    obtain ⟨u, hrun', hout⟩ := finishes_launch hd hsound hok hawake (hreq ▸ heq)
    exact ⟨u, hrun.trans hrun', hout⟩
  · have hle := (subperm_of_subset hl.nodup fun i hi =>
      hidx'.all i (hl.lt i hi) (hfree i hi)).length_le
    exact absurd (hle.trans_lt hidx'.few) (by simp [Call.idx])

/-- From every state a run reaches, each call can still return while the device reports
success.  No `kill` is needed for it: a call that sleeps is woken by the end of its transfer or
of a call that has descriptors. -/
theorem every_call_can_return (hs : Reachable s) (hok : s.Succeeded) (b : β) :
    ∃ t, Run s t ∧ t.place b = .out := by
  have hs := hs.sound
  cases hb : s.place b with
  | out => exact ⟨s, .refl, hb⟩
  | sent c =>
    obtain ⟨t, hrun, -, -, hout, -⟩ := finishes hs hok hb
    exact ⟨t, hrun, hout⟩
  | trying r =>
    obtain hscarce | ⟨ha, c, hc, heq⟩ : s.Scarce ∨ s.asleep b = false ∧
        ∃ c, s.Fresh b c ∧ s.submit b r = .ok (s.launch b c) := by
      cases ha : s.asleep b with
      | true => exact .inl (by simpa [hb] using hs.sleepers b ha)
      | false =>
        obtain hc | ⟨idx, hidx, -⟩ := s.submit_cases hb
        · exact .inr ⟨rfl, hc⟩
        · exact .inl ⟨idx, hidx.few, hidx.all⟩
    · exact finishes_starved hs hok hb hscarce
    · have hreq : c.req = r := Place.trying.inj (hc.trying.symm.trans hb)
      exact finishes_launch hc hs hok ha (hreq ▸ heq)

theorem every_call_can_return_first : firstSent.asleep () = true ∧
    ∃ t, Run firstSent t ∧ t.place () = .out :=
  ⟨rfl, every_call_can_return firstSent_reachable (fun _ h => by cases h) ()⟩

/-- A descriptor is free or belongs to one call: the free ones and three for each
call make eight. -/
theorem descriptors_conserved (hs : Reachable s) :
    ∃ bs : Finset β, (∀ b, b ∈ bs ↔ ∃ c, s.place b = .sent c) ∧
      (bs : Set β).PairwiseDisjoint s.cells ∧
      ((Finset.range 8).filter fun i => s.free i = true).card + 3 * bs.card = 8 :=
  hs.sound.chains.conserved

theorem descriptors_conserved_first :
    ((Finset.range 8).filter fun i => firstSent.free i = true).card = 5 ∧
      ∃ bs : Finset Unit, () ∈ bs ∧
        ((Finset.range 8).filter fun i => firstSent.free i = true).card + 3 * bs.card = 8 := by
  obtain ⟨bs, hbs, -, hsum⟩ := descriptors_conserved firstSent_reachable
  exact ⟨by decide, bs, (hbs ()).mpr ⟨_, rfl⟩, hsum⟩

/-! ### The flags -/

/-- Runs with their stores to `disk` flags. -/
inductive Traced : List (β × Bool) → Machine β → Prop
  | init : Traced [] init
  | step {l : List (β × Bool)} {s t : Machine β} (hs : Traced l s) (h : Step s (.ok t)) :
      Traced (l ++ (flagStore s t).toList) t

theorem Traced.reachable {l : List (β × Bool)} (hs : Traced l s) : Reachable s := by
  induction hs with
  | init => exact .init
  | step _ hstep ih => exact ih.step hstep

/-- The flags are those the stores leave.  A flag that is set belongs to a call, and it has been
cleared once for every other request. -/
structure Tally (l : List (β × Bool)) (s : Machine β) : Prop where
  flags : s.busy = l.foldl (fun f x => update f x.1 x.2) fun _ => false
  sent : ∀ b, s.busy b = true → ∃ c, s.place b = .sent c
  count : ∀ b, l.count (b, true) = l.count (b, false) + (s.busy b).toNat

theorem Traced.tally {l : List (β × Bool)} (hs : Traced l s) : Tally l s := by
  induction hs with
  | init => exact ⟨rfl, nofun, fun _ => rfl⟩
  | @step l s t hs hstep ih =>
    have ho := hstep.orderly hs.reachable.sound
    have hflags := ho.flags
    have hends : ∀ b, s.busy b = true → ∃ c, t.place b = .sent c := fun b hb => by
      obtain ⟨c, hc⟩ := ih.sent b hb
      exact ⟨c, (ho.ends b c hc).resolve_right (by simp [hb])⟩
    cases hstore : flagStore s t with
    | none =>
      rw [hstore, Option.elim_none] at hflags
      rw [Option.toList_none, append_nil]
      exact ⟨hflags.trans ih.flags, fun b hb => hends b (hflags ▸ hb), hflags ▸ ih.count⟩
    | some x =>
      obtain ⟨b, set⟩ := x
      rw [hstore, Option.elim_some] at hflags
      have hold : s.busy b = !set := by
        cases set with
        | true =>
          obtain ⟨⟨r, hr⟩, -⟩ := (ho.set b).mp hstore
          by_contra hbusy
          obtain ⟨c, hc⟩ := ih.sent b (by simpa using hbusy)
          cases hr.symm.trans hc
        | false => exact (ho.cleared b hstore).1
      refine ⟨?_, fun b' hb => ?_, fun b' => ?_⟩
      · rw [hflags, Option.toList_some, foldl_append, ← ih.flags]
        rfl
      · by_cases h : b' = b
        · rw [hflags, h, update_self] at hb
          exact h ▸ ((ho.set b).mp (hb ▸ hstore)).2
        · exact hends b' (by rwa [hflags, update_of_ne h] at hb)
      · have hcount := ih.count b'
        by_cases h : b' = b
        · cases set <;> simp_all
        · simp_all [Ne.symm h]

/-- In every run the chains of the calls are apart and taken, descriptors are neither lost nor
freed twice, every request's flag is cleared once, after the device has returned the request, and
the rings overwrite nothing that is not consumed. -/
theorem disk_protocol {l : List (β × Bool)} (hs : Traced l s) :
    (∀ b c, s.place b = .sent c → s.Laid b c ∧ (∀ i ∈ c.idx, s.free i = false) ∧
      ∀ b' d, s.place b' = .sent d → b' ≠ b → c.idx.Disjoint d.idx) ∧
    (∃ bs : Finset β, (∀ b, b ∈ bs ↔ ∃ c, s.place b = .sent c) ∧
      ((Finset.range 8).filter fun i => s.free i = true).card + 3 * bs.card = 8) ∧
    (∀ t, s.alloc3Desc = .ok (none, t) → t.free = s.free) ∧
    (∀ msg, Step s (.error msg) → msg ≠ "free_desc 1" ∧ msg ≠ "free_desc 2") ∧
    s.busy = l.foldl (fun f x => update f x.1 x.2) (fun _ => false) ∧
    (∀ b, l.count (b, true) = l.count (b, false) + (s.busy b).toNat) ∧
    (s.Succeeded → ∀ b c, s.place b = .sent c → s.Settles b) ∧
    ∀ t, Step s (.ok t) → Orderly s t := by
  have hsound := hs.reachable.sound
  have hch := hsound.chains
  obtain ⟨bs, hbs, -, hsum⟩ := hch.conserved
  refine ⟨fun b c hc => ⟨hch.laid hc, fun i hi => (hch.taken ⟨c, hc, hi⟩).2, ?_⟩, ⟨bs, hbs, hsum⟩,
    fun t ht => ?_, fun msg hstep => ?_, hs.tally.flags, hs.tally.count,
    fun hok b c hc => settles hsound hok hc, fun t hstep => hstep.orderly hsound⟩
  · intro b' d hd hne i hi hi'
    exact hne (hch.apart ⟨d, hd, hi'⟩ ⟨c, hc, hi⟩)
  · obtain ⟨i, j, k, -, h⟩ | ⟨idx, hidx, h⟩ := s.alloc3Desc_cases
    · cases h.symm.trans ht
    · cases h.symm.trans ht
      exact hidx.free_back
  · obtain ⟨_, h, -⟩ | ⟨h, -⟩ := hstep.sound hsound
    · cases h
    · cases h
      decide

/-- The first call is sent, carried out and acknowledged; its flag has been cleared once. -/
theorem disk_protocol_first : ∃ s : Machine Unit, Traced [((), true), ((), false)] s ∧
    (∃ c, s.place () = .sent c ∧ s.Laid () c) ∧ s.busy () = false := by
  have hcall : Traced [] firstCall := .step .init (.move (.call () ⟨5, false⟩ rfl))
  have hsent : Traced [((), true)] firstSent :=
    hcall.step (.move (.submit () ⟨5, false⟩ rfl rfl))
  have htake : Traced [((), true)] firstSent.take := hsent.step (.move (.take (by decide)))
  have hdone := htake.step (.move (.complete 0 0 (by decide)))
  have hack := hdone.step (.move (.intr (by decide)))
  exact ⟨_, hack, ⟨_, rfl, ((disk_protocol hack).1 () _ rfl).1⟩, rfl⟩

end Xv6MallocLab.VirtioDisk.Machine
