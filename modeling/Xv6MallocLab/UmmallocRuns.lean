import Xv6MallocLab.UmmallocInit
import Xv6MallocLab.UmmallocMemoryView

/-!
# Runs of the slot allocator

A session is `mm_init` followed by any finite sequence of `mm_malloc` requests.  The run
lemma carries the idle heap through the sequence with the ownership of everything handed
out.
-/

namespace Xv6MallocLab.Ummalloc

open ByteMemory CircularList List Prog

attribute [local irreducible] load store

variable {L : Layout} {first : ℕ}

def session (L : Layout) (sizes : List UInt32) : Prog (List ℕ) := do
  let _ ← mmInit L
  serveAll (mmMalloc L) sizes

/-- The state in which a program is loaded: the bitmap is zero, and the list
heads lie below the break. -/
structure Startable (L : Layout) (s : Process) : Prop where
  bitmap : s.bitmap = 0
  below : L.Below (align s.brk)

def sampleProcess : Process := ⟨fun _ => 0, 0, 0, 0, 65536, 0, 0, fun _ => true⟩

def sampleLayout : Layout := ⟨4096, 8192⟩

theorem sample_startable : Startable sampleLayout sampleProcess :=
  ⟨rfl, ⟨by decide, by decide, by decide⟩⟩

def sampleSizes : List UInt32 := [100, 10, 24, 5000]

theorem sample_limit : ∀ size ∈ sampleSizes, (size.toNat + 7) / 8 * 8 + 8 ≤ 61440 := by
  intro size hsize
  simp only [sampleSizes, mem_cons, not_mem_nil, or_false] at hsize
  rcases hsize with rfl | rfl | rfl | rfl <;> decide

theorem lasting_mmMalloc (size : UInt32) : Lasting (mmMalloc L size) :=
  fun s => refusals_mmMalloc size s

structure Run (h : Heap L first) (need : UInt32 → ℕ) (sizes : List UInt32) (ps : List ℕ)
    (h' : Heap L first) : Prop where
  idle : h'.held = ∅
  evolves : Evolves h h'
  length : ps.length = sizes.length
  nodup : ps.Nodup
  fresh : ∀ p ∈ ps, ∀ n, ¬ Owned h p n
  owned : ∀ pair ∈ sizes.zip ps, Owned h' pair.2 (need pair.1)

/-- The run lemma: if the kernel refuses nothing and every step leaves room
for what it promises, the whole sequence succeeds. -/
theorem run_requests {P : Process → UInt32 → Prop} {need : UInt32 → ℕ}
    (hP : ∀ (h : Heap L first) size, h.held = ∅ → P h.process size →
      need size ≤ (chunkSize size).toNat ∧ (32 < (chunkSize size).toNat →
        (chunkSize size).toNat ≤ 512 → ∀ c ∈ h.arena.chunks,
          (h.arena.bins (((chunkSize size).toNat - 1) / 16)).head? = some c.node →
            need size ≤ c.size))
    (sizes : List UInt32) (hlimit : ∀ size ∈ sizes, (chunkSize size).toNat ≤ 61440)
    (h : Heap L first) (hidle : h.held = ∅) (halong : Along (mmMalloc L) P sizes h.process)
    (hgranted : ((serveAll (mmMalloc L) sizes).final h.process).refusals = h.process.refusals) :
    ∃ ps h', (serveAll (mmMalloc L) sizes).run h.process = .ok ps h'.process ∧
      Run h need sizes ps h' := by
  induction sizes generalizing h with
  | nil =>
    exact ⟨[], h, rfl, hidle, Evolves.refl h, rfl, nodup_nil, by simp, by simp⟩
  | cons size rest ih =>
    obtain ⟨hroom, hrest⟩ := halong
    obtain ⟨hneed, hfit⟩ := hP h size hidle hroom
    have hstep := granted_first lasting_mmMalloc hgranted
    rcases answers_mmMalloc h hidle (.of_le (hlimit size (by simp))) hneed hfit with
      hrefused | ⟨p, h1, hrun, hh⟩
    · omega
    · obtain ⟨ps, h2, hrun2, hR⟩ := ih (fun x hx => hlimit x (by simp [hx])) h1 hh.idle
        (hrest p h1.process hrun) (granted_rest hrun hh.evolves.refusals hgranted)
      refine ⟨p :: ps, h2, run_serveAll_cons hrun hrun2, hR.idle, hh.evolves.trans hR.evolves,
        by simp [hR.length], ?_, ?_, ?_⟩
      · refine nodup_cons.mpr ⟨fun hin => hR.fresh p hin _ hh.owned, hR.nodup⟩
      · intro q hq n howned
        rcases mem_cons.mp hq with rfl | hq
        · exact hh.fresh n howned
        · exact hR.fresh q hq n (howned.evolves hh.evolves)
      · intro pair hpair
        rw [zip_cons_cons] at hpair
        rcases mem_cons.mp hpair with rfl | hpair
        · exact hh.owned.evolves hR.evolves
        · exact hR.owned pair hpair

variable {s : Process} {sizes : List UInt32} {size : UInt32}

theorem granted_start {ρ : Type} {serve : ρ → Prog ℕ}
    (hserve : ∀ request, Lasting (serve request)) (hs : Startable L s) (requests : List ρ)
    (hgranted : ((mmInit L >>= fun _ => serveAll serve requests).final s).refusals = s.refusals) :
    ∃ h : Heap L (align s.brk), (mmInit L).run s = .ok 0 h.process ∧ Fresh s h ∧
      ((serveAll serve requests).final h.process).refusals = h.process.refusals ∧
      (mmInit L >>= fun _ => serveAll serve requests).run s =
        (serveAll serve requests).run h.process := by
  have hafter := lasting_after (fun _ : ℤ => lasting_serveAll hserve requests) (x := mmInit L) s
  rw [hgranted] at hafter
  rcases mmInit_cases s hs.below hs.bitmap with hrefused | ⟨h, hinit, hfresh⟩
  · omega
  · refine ⟨h, hinit, hfresh, ?_, run_bind_ok hinit⟩
    have hseq : (mmInit L >>= fun _ => serveAll serve requests).final s =
        (serveAll serve requests).final h.process := final_bind_ok hinit
    rw [← hseq, hgranted, hfresh.refusals]

theorem session_start (hs : Startable L s) (sizes : List UInt32)
    (hgranted : ((session L sizes).final s).refusals = s.refusals) :
    ∃ h : Heap L (align s.brk), (mmInit L).run s = .ok 0 h.process ∧ Fresh s h ∧
      ((serveAll (mmMalloc L) sizes).final h.process).refusals = h.process.refusals ∧
      (session L sizes).run s = (serveAll (mmMalloc L) sizes).run h.process :=
  granted_start lasting_mmMalloc hs sizes hgranted

theorem run_requests_any (hlimit : ∀ size ∈ sizes, (chunkSize size).toNat ≤ 61440)
    (h : Heap L first) (hidle : h.held = ∅)
    (hgranted : ((serveAll (mmMalloc L) sizes).final h.process).refusals = h.process.refusals) :
    ∃ ps h', (serveAll (mmMalloc L) sizes).run h.process = .ok ps h'.process ∧
      Run h (fun _ => 0) sizes ps h' :=
  run_requests (P := fun _ _ => True)
    (fun _ _ _ _ => ⟨Nat.zero_le _, fun _ _ _ _ _ => Nat.zero_le _⟩) sizes hlimit h hidle
    (along_of_forall (fun _ _ _ => trivial) _) hgranted

theorem chunkSize_of_limit (hlimit : (size.toNat + 7) / 8 * 8 + 8 ≤ 61440) :
    (chunkSize size).toNat = (size.toNat + 7) / 8 * 8 + 8 :=
  chunkSize_of_lt (by omega)

theorem chunkSize_le (hlimit : ∀ size ∈ sizes, (size.toNat + 7) / 8 * 8 + 8 ≤ 61440) :
    ∀ size ∈ sizes, (chunkSize size).toNat ≤ 61440 := by
  intro size hsize
  rw [chunkSize_of_limit (hlimit size hsize)]
  exact hlimit size hsize

theorem sample_granted :
    ((session sampleLayout sampleSizes).final sampleProcess).refusals = sampleProcess.refusals := by
  decide +kernel

/-- After `mm_init` and any sequence of requests the heap invariant holds. -/
theorem heapInvariant_session {s : Process} (hs : Startable L s) (sizes : List UInt32)
    (hlimit : ∀ size ∈ sizes, (chunkSize size).toNat ≤ 61440)
    (hgranted : ((session L sizes).final s).refusals = s.refusals) :
    ∃ ps s', (session L sizes).run s = .ok ps s' ∧ HeapInvariant L (align s.brk) s' := by
  obtain ⟨h, -, hfresh, hrest, hrun⟩ := session_start hs sizes hgranted
  obtain ⟨ps, h', hrun', hR⟩ := run_requests_any hlimit h hfresh.idle hrest
  exact ⟨ps, h'.process, hrun.trans hrun', h'.invariant hR.idle⟩

theorem heapInvariant_sample :
    ∃ ps s', (session sampleLayout sampleSizes).run sampleProcess = .ok ps s' ∧
      HeapInvariant sampleLayout (align sampleProcess.brk) s' :=
  heapInvariant_session sample_startable sampleSizes (chunkSize_le sample_limit)
    sample_granted

/-- After `mm_init` bit 2 is clear. -/
theorem bitmap_sample :
    (session sampleLayout []).run sampleProcess =
        .ok [] ((session sampleLayout []).final sampleProcess) ∧
      ((session sampleLayout []).final sampleProcess).bitmap.getLsbD 2 = false :=
  ⟨run_of_value (by decide +kernel), by decide +kernel⟩

theorem tiny_slack {h : Heap L first} (hlow : 32 < (chunkSize size).toNat)
    (hhigh : (chunkSize size).toNat ≤ 512) {c : Chunk} (hc : c ∈ h.arena.chunks)
    (hhead : (h.arena.bins (((chunkSize size).toNat - 1) / 16)).head? = some c.node) :
    (chunkSize size).toNat ≤ c.size + 8 := by
  have hmem : c.node ∈ h.arena.bins (((chunkSize size).toNat - 1) / 16) :=
    mem_of_mem_head? (Option.mem_def.mpr hhead)
  obtain ⟨d, hd, -, -, hnode, hslot⟩ := h.free_of_mem (by omega) (by omega) hmem
  obtain rfl := h.shape.eq_of_addr hd hc (Nat.add_right_cancel hnode)
  have hmod := chunkSize_mod size
  have hcases := h.shape.size_cases hc
  unfold slotIndex at hslot
  split at hslot <;> omega

/-- The contract of `mm_malloc`: every pointer is non-null and aligned, the
blocks lie between the start of the heap and the break, and no two of them
share a byte. -/
theorem contract_session {s : Process} (hs : Startable L s) (sizes : List UInt32)
    (hlimit : ∀ size ∈ sizes, (size.toNat + 7) / 8 * 8 + 8 ≤ 61440)
    (hgranted : ((session L sizes).final s).refusals = s.refusals) :
    ∃ ps s', (session L sizes).run s = .ok ps s' ∧ ps.length = sizes.length ∧
      (∀ pair ∈ sizes.zip ps, pair.2 ≠ 0 ∧ pair.2 % 8 = 0 ∧ s.brk ≤ pair.2 ∧
        pair.2 + pair.1.toNat ≤ s'.brk) ∧
      (sizes.zip ps).Pairwise fun a b =>
        a.2 + a.1.toNat ≤ b.2 ∨ b.2 + b.1.toNat ≤ a.2 := by
  obtain ⟨h, -, hfresh, hrest, hrun⟩ := session_start hs sizes hgranted
  have halong : Along (mmMalloc L)
    (fun _ size => (size.toNat + 7) / 8 * 8 + 8 ≤ 61440) sizes h.process :=
    along_of_forall (fun size hsize _ => hlimit size hsize) _
  have hroom : ∀ (h : Heap L (align s.brk)) (size : UInt32), h.held = ∅ →
      (size.toNat + 7) / 8 * 8 + 8 ≤ 61440 →
      size.toNat ≤ (chunkSize size).toNat ∧ (32 < (chunkSize size).toNat →
        (chunkSize size).toNat ≤ 512 → ∀ c ∈ h.arena.chunks,
          (h.arena.bins (((chunkSize size).toNat - 1) / 16)).head? = some c.node →
            size.toNat ≤ c.size) := by
    intro h size _ hsize
    have hchunk := chunkSize_of_limit hsize
    refine ⟨by omega, ?_⟩
    intro hlow hhigh c hc hhead
    have hslack := tiny_slack hlow hhigh hc hhead
    omega
  obtain ⟨ps, h', hrun', hR⟩ := run_requests hroom sizes (chunkSize_le hlimit) h hfresh.idle
    halong hrest
  refine ⟨ps, h'.process, hrun.trans hrun', hR.length, ?_, ?_⟩
  · intro pair hpair
    obtain ⟨hlow, hhigh, hmod⟩ := (hR.owned pair hpair).bounds
    have hstart := hfresh.low
    have htop := h'.stored.room
    exact ⟨by omega, hmod, by omega, by omega⟩
  · have hdistinct : (sizes.zip ps).Pairwise fun a b => a.2 ≠ b.2 := by
      have hmap : (sizes.zip ps).map Prod.snd = ps := map_snd_zip hR.length.le
      have hnodup := hR.nodup
      rw [← hmap] at hnodup
      exact pairwise_map.mp hnodup
    refine hdistinct.imp_of_mem ?_
    intro a b ha hb hne
    exact (hR.owned a ha).disjoint (hR.owned b hb) hne

theorem contract_sample :
    ∃ ps s', (session sampleLayout sampleSizes).run sampleProcess = .ok ps s' ∧
      ps.length = sampleSizes.length ∧
      (∀ pair ∈ sampleSizes.zip ps, pair.2 ≠ 0 ∧ pair.2 % 8 = 0 ∧ sampleProcess.brk ≤ pair.2 ∧
        pair.2 + pair.1.toNat ≤ s'.brk) ∧
      (sampleSizes.zip ps).Pairwise fun a b =>
        a.2 + a.1.toNat ≤ b.2 ∨ b.2 + b.1.toNat ≤ a.2 :=
  contract_session sample_startable sampleSizes sample_limit sample_granted

end Xv6MallocLab.Ummalloc
