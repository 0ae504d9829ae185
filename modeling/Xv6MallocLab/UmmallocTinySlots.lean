import Xv6MallocLab.UmmallocRuns

/-!
# Room for the caller

`malloc_tiny` takes the first chunk of a slot unseen, but remainders of splits are filed
there with sizes that are only multiples of eight, so it may be eight bytes short.
-/

namespace Xv6MallocLab.Ummalloc

open ByteMemory CircularList List Prog

attribute [local irreducible] load store

variable {L : Layout} {first : ℕ}

/-- If the request is tiny and its slot is not empty, the first chunk there is
as large as the request. -/
def Roomy (L : Layout) (s : Process) (size : UInt32) : Prop :=
  32 < (chunkSize size).toNat → (chunkSize size).toNat ≤ 512 →
    listEmpty s.mem (L.slot (((chunkSize size).toNat - 1) / 16)) = false →
      (chunkSize size).toNat ≤ packSize s.mem (listPack (nodeNext s.mem
        (L.slot (((chunkSize size).toNat - 1) / 16))))

variable {c : Chunk} {h : Heap L first} {size : UInt32} {sizes : List UInt32}

theorem packSize_first (h : Heap L first) {i : ℕ} (hi : 2 ≤ i) (hi' : i < 64)
    (hc : c ∈ h.arena.chunks) (hhead : (h.arena.bins i).head? = some c.node) :
    packSize h.process.mem (listPack (nodeNext h.process.mem (L.slot i))) = c.size := by
  have hring := (h.stored.ring i (by omega) (by omega)).next_head
  rw [Layout.head_of_lt hi', headD_eq_head?_getD, hhead, Option.getD_some] at hring
  rw [hring, h.listPack hc, h.packSize hc]

theorem Roomy.fit (hroomy : Roomy L h.process size) (hlow : 32 < (chunkSize size).toNat)
    (hhigh : (chunkSize size).toNat ≤ 512) (hc : c ∈ h.arena.chunks)
    (hhead : (h.arena.bins (((chunkSize size).toNat - 1) / 16)).head? = some c.node) :
    (chunkSize size).toNat ≤ c.size := by
  rw [← packSize_first h (by omega) (by omega) hc hhead]
  apply hroomy hlow hhigh
  rw [Bool.eq_false_iff, Ne, listEmpty_iff h (by omega) (by omega)]
  intro hnil
  rw [hnil] at hhead
  cases hhead

theorem short_of_not_roomy (hidle : h.held = ∅) (hnot : ¬ Roomy L h.process size) :
    ∃ (c : Chunk) (h' : Heap L first), (mmMalloc L size).run h.process = .ok c.node h'.process ∧
      h'.arena.Has c.addr c.size true ∧ c.size ≠ 0 ∧ c.size < (chunkSize size).toNat ∧
      Handed h 0 c.node h' := by
  simp only [Roomy, not_forall, not_le] at hnot
  obtain ⟨hlow, hhigh, hempty, hshort⟩ := hnot
  rw [Bool.eq_false_iff, Ne, listEmpty_iff h (by omega) (by omega)] at hempty
  obtain ⟨n, rest, hbins⟩ := exists_cons_of_ne_nil hempty
  obtain ⟨c, hc, hnode, h', hrun, hhas, hsize, hh⟩ := handed_of_tiny_slot h hidle hlow hhigh hbins
  rw [packSize_first h (by omega) (by omega) hc (by rw [hbins, hnode, head?_cons])] at hshort
  exact ⟨c, h', hrun, hhas, hsize, hshort, hh.mono (Nat.zero_le _)⟩

theorem short_requests (hlimit : ∀ size ∈ sizes, (size.toNat + 7) / 8 * 8 + 8 ≤ 61440)
    (h : Heap L first) (hidle : h.held = ∅)
    (hgranted : ((serveAll (mmMalloc L) sizes).final h.process).refusals = h.process.refusals)
    (hnot : ¬ Along (mmMalloc L) (Roomy L) sizes h.process) :
    ∃ ps s', (serveAll (mmMalloc L) sizes).run h.process = .ok ps s' ∧
      ∃ pair ∈ sizes.zip ps, ¬ InPayload L first s' pair.2 pair.1.toNat := by
  induction sizes generalizing h with
  | nil => exact absurd trivial hnot
  | cons size rest ih =>
    have hsize := hlimit size (by simp)
    have hchunk := chunkSize_of_limit hsize
    have hlimit' : ∀ x ∈ rest, (x.toNat + 7) / 8 * 8 + 8 ≤ 61440 :=
      fun x hx => hlimit x (by simp [hx])
    by_cases hroomy : Roomy L h.process size
    · rcases answers_mmMalloc h hidle (.of_le (chunkSize_le hlimit size (by simp))) (Nat.zero_le _)
        (fun _ _ _ _ _ => Nat.zero_le _) with hrefused | ⟨p, h1, hrun, hh⟩
      · have := granted_first lasting_mmMalloc hgranted
        omega
      · have hrest : ¬ Along (mmMalloc L) (Roomy L) rest h1.process := by
          intro halong
          refine hnot ⟨hroomy, fun p' s' hrun' => ?_⟩
          rw [hrun] at hrun'
          cases hrun'
          exact halong
        obtain ⟨ps, s', hrun', pair, hpair, hout⟩ := ih hlimit' h1 hh.idle
          (granted_rest hrun hh.evolves.refusals hgranted) hrest
        exact ⟨p :: ps, s', run_serveAll_cons hrun hrun', pair, mem_cons_of_mem _ hpair,
          hout⟩
    · obtain ⟨c, h1, hrun, hhas, hne, hshort, hh⟩ := short_of_not_roomy hidle hroomy
      obtain ⟨ps, h2, hrun2, hR⟩ := run_requests_any (chunkSize_le hlimit') h1 hh.idle
        (granted_rest hrun hh.evolves.refusals hgranted)
      refine ⟨c.node :: ps, h2.process, run_serveAll_cons hrun hrun2, (size, c.node),
        mem_cons_self, ?_⟩
      rw [h2.inPayload_iff]
      intro howned
      have hkept := hR.evolves.kept _ _ hne hhas
      have hfit := Owned.fit howned hkept
      obtain ⟨d, hd, -, hdsize, -⟩ := hkept
      have hmod := h2.shape.size_cases hd
      dsimp only at hfit
      omega

theorem owned_requests (hlimit : ∀ size ∈ sizes, (size.toNat + 7) / 8 * 8 + 8 ≤ 61440)
    (h : Heap L first) (hidle : h.held = ∅)
    (hgranted : ((serveAll (mmMalloc L) sizes).final h.process).refusals = h.process.refusals)
    (halong : Along (mmMalloc L) (Roomy L) sizes h.process) :
    ∃ ps h', (serveAll (mmMalloc L) sizes).run h.process = .ok ps h'.process ∧
      Run h (fun size => (chunkSize size).toNat) sizes ps h' :=
  run_requests (fun _ _ _ hroomy => ⟨le_rfl, fun hlow hhigh _ hc hhead =>
      hroomy.fit hlow hhigh hc hhead⟩) sizes
    (chunkSize_le hlimit) h hidle halong hgranted

/-- The blocks of a run all fit their requests exactly when every tiny request
found room, and then no caller can reach metadata. -/
theorem payload_session {s : Process} (hs : Startable L s) (sizes : List UInt32)
    (hlimit : ∀ size ∈ sizes, (size.toNat + 7) / 8 * 8 + 8 ≤ 61440)
    (hgranted : ((session L sizes).final s).refusals = s.refusals) :
    ∃ s0 ps s', (mmInit L).run s = .ok 0 s0 ∧ (serveAll (mmMalloc L) sizes).run s0 = .ok ps s' ∧
      ps.length = sizes.length ∧
      ((∀ pair ∈ sizes.zip ps, InPayload L (align s.brk) s' pair.2 pair.1.toNat) ↔
        Along (mmMalloc L) (Roomy L) sizes s0) ∧
      (Along (mmMalloc L) (Roomy L) sizes s0 → ∀ pair ∈ sizes.zip ps, ∀ x, pair.2 ≤ x →
        x < pair.2 + pair.1.toNat → ¬ Metadata L (align s.brk) s' x) := by
  obtain ⟨h, hinit, hfresh, hrest, -⟩ := session_start hs sizes hgranted
  by_cases halong : Along (mmMalloc L) (Roomy L) sizes h.process
  · obtain ⟨ps, h', hrun, hR⟩ := owned_requests hlimit h hfresh.idle hrest halong
    have howned : ∀ pair ∈ sizes.zip ps, Owned h' pair.2 (pair.1.toNat + 8) := by
      intro pair hpair
      refine (hR.owned pair hpair).mono ?_
      have hsize := hlimit pair.1 (of_mem_zip hpair).1
      have hchunk := chunkSize_of_limit hsize
      omega
    refine ⟨h.process, ps, h'.process, hinit, hrun, hR.length, ?_, ?_⟩
    · exact iff_of_true (fun pair hpair => h'.inPayload_iff.mpr (howned pair hpair)) halong
    · intro _ pair hpair x hlow hhigh
      exact h'.not_metadata (howned pair hpair) hlow hhigh
  · obtain ⟨ps, s', hrun, pair, hpair, hout⟩ := short_requests hlimit h hfresh.idle hrest halong
    obtain ⟨ps', h', hrun', hR⟩ := run_requests_any (chunkSize_le hlimit) h hfresh.idle hrest
    obtain ⟨rfl, -⟩ : ps = ps' ∧ s' = h'.process := by
      rw [hrun] at hrun'
      cases hrun'
      exact ⟨rfl, rfl⟩
    refine ⟨h.process, ps, s', hinit, hrun, hR.length, ?_, fun hroomy => absurd hroomy halong⟩
    exact iff_of_false (fun hall => hout (hall pair hpair)) halong

theorem payload_sample :
    ∃ s0 ps s', (mmInit sampleLayout).run sampleProcess = .ok 0 s0 ∧
      (serveAll (mmMalloc sampleLayout) sampleSizes).run s0 = .ok ps s' ∧
      ps.length = sampleSizes.length ∧
      ((∀ pair ∈ sampleSizes.zip ps,
          InPayload sampleLayout (align sampleProcess.brk) s' pair.2 pair.1.toNat) ↔
        Along (mmMalloc sampleLayout) (Roomy sampleLayout) sampleSizes s0) ∧
      (Along (mmMalloc sampleLayout) (Roomy sampleLayout) sampleSizes s0 → ∀ pair ∈ sampleSizes.zip ps,
        ∀ x, pair.2 ≤ x → x < pair.2 + pair.1.toNat →
          ¬ Metadata sampleLayout (align sampleProcess.brk) s' x) :=
  payload_session sample_startable sampleSizes sample_limit sample_granted

theorem not_inPayload_of_size {s : Process} {p size : ℕ}
    (hslot : nodeNext s.mem (L.slot 1) = L.slot 1) (hfull : nodeNext s.mem L.fastFull = L.fastFull)
    (hshort : packSize s.mem (p - 8) < size + 8) : ¬ InPayload L first s p size := by
  rintro (⟨a, -, -, -, rfl, hsize⟩ | ⟨n, k, ⟨list, hlist, hne, j, hj⟩, -⟩)
  · rw [Nat.add_sub_cancel] at hshort
    omega
  · apply hne
    rw [← hj]
    rcases hlist with rfl | rfl
    · exact Function.iterate_fixed hslot j
    · exact Function.iterate_fixed hfull j

theorem short_sample_eval :
    (session sampleLayout [3560, 40, 472]).value sampleProcess = some [65544, 69112, 69160] ∧
      ((session sampleLayout [3560, 40, 472]).final sampleProcess).refusals = 0 ∧
      ((session sampleLayout [3560, 40, 472]).final sampleProcess).base = 69632 ∧
      packSize ((session sampleLayout [3560, 40, 472]).final sampleProcess).mem 69152 = 472 ∧
      nodeNext ((session sampleLayout [3560, 40, 472]).final sampleProcess).mem 4112 = 4112 ∧
      nodeNext ((session sampleLayout [3560, 40, 472]).final sampleProcess).mem 8192 = 8192 := by
  decide +kernel

/-- The third request of 472 bytes gets a chunk of 472 bytes, header included;
the last eight bytes it asked for are the sentinel. -/
theorem short_sample :
    ∃ s', (session sampleLayout [3560, 40, 472]).run sampleProcess =
        .ok [65544, 69112, 69160] s' ∧ s'.refusals = sampleProcess.refusals ∧
      packSize s'.mem (69160 - 8) = 472 ∧
      ¬ InPayload sampleLayout (align sampleProcess.brk) s' 69160 472 ∧
      Metadata sampleLayout (align sampleProcess.brk) s' (69160 + 464) := by
  obtain ⟨hvalue, hrefusals, hbase, hsize, hslot, hfull⟩ := short_sample_eval
  refine ⟨_, run_of_value hvalue, hrefusals, hsize, ?_, ?_⟩
  · exact not_inPayload_of_size hslot hfull (hsize.trans_lt (by decide))
  · exact Or.inl ⟨_, Or.inr rfl, by omega, by omega⟩

end Xv6MallocLab.Ummalloc
