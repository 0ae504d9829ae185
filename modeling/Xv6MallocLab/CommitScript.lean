import Xv6MallocLab.BufferCoherence
import Xv6MallocLab.LogCrash

/-!
# The script of a commit

What `commit` does to the buffers, on its instructions alone: every round takes and
releases its buffers in order and, as long as nobody else stores into the log or into
a logged block, changes no block outside the log.
-/

namespace Xv6MallocLab.BufferCache

open ByteMemory Function List LogLayer

attribute [local irreducible] encodeHead

def both {β : Type} (l h : β) : Reg → β
  | .log => l
  | .home => h

section Both

variable {β : Type} {l h g : β}

@[simp] theorem both_log : both l h .log = l := rfl

@[simp] theorem both_home : both l h .home = h := rfl

@[simp] theorem update_both_log : update (both l h) .log g = both g h := by
  funext r
  cases r with
  | log => simp
  | home => simp

@[simp] theorem update_both_home : update (both l h) .home g = both l g := by
  funext r
  cases r with
  | log => simp
  | home => simp

theorem forall_reg {p : Reg → Prop} : (∀ r, p r) ↔ p .log ∧ p .home := by
  constructor
  · intro hall
    exact ⟨hall _, hall _⟩
  · rintro ⟨hlog, hhome⟩ r
    cases r with
    | log => exact hlog
    | home => exact hhome

end Both

section Sound

variable {rest : List Instr} {lh pins : List ℕ} {start blockno tail : ℕ}

theorem sound_writeLogRound (hmem : blockno ∈ pins) (hne : blockno ≠ start + tail + 1)
    (hrest : Sound rest lh pins (both .free .free)) :
    Sound (writeLogRound start (blockno, tail) ++ rest) lh pins (both .free .free) := by
  simp [writeLogRound, bread, Sound, forall_reg, hmem, Ne.symm hne, hrest]

theorem sound_installRound (hmem : blockno ∈ pins) (hne : blockno ≠ start + tail + 1)
    (hrest : Sound rest lh (pins.erase blockno) (both .free .free)) :
    Sound (installRound start (blockno, tail) ++ rest) lh pins (both .free .free) := by
  simp [installRound, bread, Sound, forall_reg, hmem, Ne.symm hne, hrest]

variable {log : Log} {entries : List (ℕ × ℕ)} {size : ℕ}

theorem sound_writeHead (hrest : Sound rest lh pins (both .free .free)) :
    Sound (writeHead log ++ rest) lh pins (both .free .free) := by
  simp [writeHead, bread, Sound, forall_reg, hrest]

theorem sound_writeLog (hentries : ∀ e ∈ entries, e.1 ∈ pins ∧ e.1 ≠ start + e.2 + 1)
    (hrest : Sound rest lh pins (both .free .free)) :
    Sound (entries.flatMap (writeLogRound start) ++ rest) lh pins (both .free .free) := by
  induction entries with
  | nil => exact hrest
  | cons e entries ih =>
    rw [flatMap_cons, append_assoc]
    obtain ⟨hmem, hne⟩ := hentries e mem_cons_self
    exact sound_writeLogRound hmem hne (ih fun f hf => hentries f (mem_cons_of_mem _ hf))

theorem sound_installTrans (hpins : pins = entries.map Prod.fst)
    (hentries : ∀ e ∈ entries, e.1 ≠ start + e.2 + 1)
    (hrest : Sound rest lh [] (both .free .free)) :
    Sound (entries.flatMap (installRound start) ++ rest) lh pins (both .free .free) := by
  induction entries generalizing pins with
  | nil =>
    subst hpins
    exact hrest
  | cons e entries ih =>
    rw [flatMap_cons, append_assoc]
    subst hpins
    refine sound_installRound (by simp) (hentries e mem_cons_self) ?_
    refine ih ?_ fun f hf => hentries f (mem_cons_of_mem _ hf)
    rw [map_cons, erase_cons_head]

theorem ne_of_names (hnames : Names start size lh) :
    ∀ e ∈ lh.zipIdx, e.1 ∈ lh ∧ e.1 ≠ start + e.2 + 1 := by
  rintro ⟨b, i⟩ he
  obtain ⟨-, hi, hb⟩ := mem_zipIdx he
  have hi' : i < lh.length := by omega
  have hmem : b ∈ lh := hb ▸ getElem_mem _
  refine ⟨hmem, fun heq => hnames.home b hmem ?_⟩
  have hin := hnames.inLog hi'
  rwa [show start + i + 1 = b from heq.symm] at hin

theorem sound_commitScript (hnames : Names log.start size log.lh) :
    Sound (commitScript log) log.lh log.lh (both .free .free) := by
  have hentries := ne_of_names hnames
  have hpins : log.lh = log.lh.zipIdx.map Prod.fst := zipIdx_map_fst 0 log.lh |>.symm
  unfold commitScript
  split
  · simp only [append_assoc]
    refine sound_writeLog hentries (sound_writeHead ?_)
    refine sound_installTrans hpins (fun e he => (hentries e he).2) ?_
    refine ⟨rfl, sound_writeHead ?_⟩
    exact ⟨rfl, rfl, rfl, fun r => by cases r <;> rfl⟩
  · rename_i hn
    have hnil : log.lh = [] := eq_nil_of_length_eq_zero (by unfold Log.n at hn; omega)
    exact ⟨rfl, hnil, hnil, fun r => by cases r <;> rfl⟩

end Sound

/-- Followed by what the pointers' buffers hold, and with nobody else storing, the
script stores into the log or what is stored already. -/
def Harmless (inLog : ℕ → Prop) :
    List Instr → List ℕ → (Reg → ℕ) → (Reg → Memory) → (ℕ → Memory) → Prop
  | [], _, _, _, _ => True
  | .bget r d :: rest, lh, block, data, stored =>
    Harmless inLog rest lh (update block r d) data stored
  | .fill r :: rest, lh, block, data, stored =>
    Harmless inLog rest lh block (update data r (stored (block r))) stored
  | .memmove dst src :: rest, lh, block, data, stored =>
    Harmless inLog rest lh block (update data dst (data src)) stored
  | .putHead r :: rest, lh, block, data, stored =>
    Harmless inLog rest lh block (update data r (encodeHead lh (data r))) stored
  | .bwrite r :: rest, lh, block, data, stored =>
    (inLog (block r) ∨ data r = stored (block r)) ∧
      Harmless inLog rest lh block data (update stored (block r) (data r))
  | .brelse _ :: rest, lh, block, data, stored => Harmless inLog rest lh block data stored
  | .bunpin _ :: rest, lh, block, data, stored => Harmless inLog rest lh block data stored
  | .clear :: rest, _, block, data, stored => Harmless inLog rest [] block data stored
  | .finish :: rest, lh, block, data, stored => Harmless inLog rest lh block data stored

section Harmless

variable {inLog : ℕ → Prop} {rest : List Instr} {lh : List ℕ} {block : Reg → ℕ}
  {data : Reg → Memory} {stored : ℕ → Memory} {start blockno tail : ℕ}

theorem harmless_writeLogRound (hlog : inLog (start + tail + 1))
    (hrest : ∀ block data, Harmless inLog rest lh block data
      (update stored (start + tail + 1) (stored blockno))) :
    Harmless inLog (writeLogRound start (blockno, tail) ++ rest) lh block data stored := by
  simp [writeLogRound, bread, Harmless, hlog, hrest]

theorem harmless_installRound (hcopy : stored (start + tail + 1) = stored blockno)
    (hrest : ∀ block data, Harmless inLog rest lh block data stored) :
    Harmless inLog (installRound start (blockno, tail) ++ rest) lh block data stored := by
  simp [installRound, bread, Harmless, hcopy, hrest]

variable {log : Log} {entries : List (ℕ × ℕ)}

theorem harmless_writeHead (hlog : inLog log.start)
    (hrest : ∀ block data stored', (∀ d, d ≠ log.start → stored' d = stored d) →
      Harmless inLog rest lh block data stored') :
    Harmless inLog (writeHead log ++ rest) lh block data stored := by
  simp only [writeHead, bread, cons_append, nil_append, Harmless, update_self]
  refine ⟨Or.inl hlog, hrest _ _ _ fun d hd => ?_⟩
  exact update_of_ne hd _ _

theorem harmless_writeLog (hnodup : (entries.map Prod.snd).Nodup)
    (hlog : ∀ e ∈ entries, inLog (start + e.2 + 1)) (hhome : ∀ e ∈ entries, ¬ inLog e.1)
    (hrest : ∀ block data stored',
      (∀ d, (∀ e ∈ entries, d ≠ start + e.2 + 1) → stored' d = stored d) →
      (∀ e ∈ entries, stored' (start + e.2 + 1) = stored e.1) →
      Harmless inLog rest lh block data stored') :
    Harmless inLog (entries.flatMap (writeLogRound start) ++ rest) lh block data stored := by
  induction entries generalizing block data stored with
  | nil => exact hrest _ _ _ (fun _ _ => rfl) fun _ h => absurd h not_mem_nil
  | cons e entries ih =>
    rw [flatMap_cons, append_assoc]
    have he := hlog e mem_cons_self
    refine harmless_writeLogRound he fun block data => ?_
    refine ih (nodup_cons.mp hnodup).2 (fun f hf => hlog f (mem_cons_of_mem _ hf))
      (fun f hf => hhome f (mem_cons_of_mem _ hf)) fun block data stored' hsame hcopies => ?_
    have hhead : ∀ f ∈ entries, start + e.2 + 1 ≠ start + f.2 + 1 := by
      intro f hf heq
      refine (nodup_cons.mp hnodup).1 ?_
      have htail : e.2 = f.2 := by omega
      rw [htail]
      exact mem_map_of_mem hf
    refine hrest _ _ _ (fun d hd => ?_) fun f hf => ?_
    · rw [hsame d fun f hf => hd f (mem_cons_of_mem _ hf), update_of_ne (hd e mem_cons_self)]
    · rcases mem_cons.mp hf with rfl | hf
      · rw [hsame _ hhead, update_self]
      · have hne : f.1 ≠ start + e.2 + 1 := by
          intro heq
          exact hhome f (mem_cons_of_mem _ hf) (heq ▸ he)
        rw [hcopies f hf, update_of_ne hne]

theorem harmless_installTrans (hcopies : ∀ e ∈ entries, stored (start + e.2 + 1) = stored e.1)
    (hrest : ∀ block data, Harmless inLog rest lh block data stored) :
    Harmless inLog (entries.flatMap (installRound start) ++ rest) lh block data stored := by
  induction entries generalizing block data with
  | nil => exact hrest _ _
  | cons e entries ih =>
    rw [flatMap_cons, append_assoc]
    refine harmless_installRound (hcopies e mem_cons_self) fun block data => ?_
    exact ih fun f hf => hcopies f (mem_cons_of_mem _ hf)

theorem harmless_commitScript {size : ℕ} (hnames : Names log.start size log.lh) :
    Harmless (InLog log.start size) (commitScript log) log.lh block data stored := by
  unfold commitScript
  split
  · have hlog : ∀ e ∈ log.lh.zipIdx, InLog log.start size (log.start + e.2 + 1) := by
      rintro ⟨b, i⟩ he
      obtain ⟨-, hi, -⟩ := mem_zipIdx he
      exact hnames.inLog (by omega)
    have hhome : ∀ e ∈ log.lh.zipIdx, ¬ InLog log.start size e.1 := fun e he =>
      hnames.home _ (ne_of_names hnames e he).1
    have hnodup : (log.lh.zipIdx.map Prod.snd).Nodup := by
      rw [zipIdx_map_snd]
      exact nodup_range'
    simp only [append_assoc]
    refine harmless_writeLog hnodup hlog hhome fun block data copied hsame hcopies => ?_
    refine harmless_writeHead inLog_start fun block data marked hsame' => ?_
    have hout : ∀ d, ¬ InLog log.start size d → marked d = stored d := by
      intro d hd
      have hstart : d ≠ log.start := by
        rintro rfl
        exact hd inLog_start
      rw [hsame' d hstart]
      refine hsame d ?_
      rintro e he rfl
      exact hd (hlog e he)
    refine harmless_installTrans (fun e he => ?_) fun block data => ?_
    · rw [hsame' _ (by omega), hcopies e he, hout _ (hhome e he)]
    · refine harmless_writeHead inLog_start fun block data cleared _ => ?_
      trivial
  · trivial

end Harmless

end Xv6MallocLab.BufferCache
