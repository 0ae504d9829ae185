import Xv6MallocLab.PageTableWords

/-!
# Page tables as finite maps

`mappages` and `uvmunmap` go over their range page by page; a step stores to the entry of
one page, and what `walk` adds to the table translates nothing.  On the tree that is read
from the table they do what `Paging` says.
-/

namespace Xv6MallocLab.PageTable

open ByteMemory PointerTree
open Paging (pgsize maxva Image Kmem Panic Stocked memmove)

variable {s s' s'' : Ram} {root va a b pa perm last stop : UInt64}

/-- What a function that maps pages keeps: the table stays one, every entry stays where
it is, and the addresses in `P` translate as before. -/
structure Keeps (root : UInt64) (P : UInt64 → Prop) (s s' : Ram) : Prop where
  tables : Tables s'.phys root
  fresh : Fresh s' root
  entry : ∀ b e, entry s.phys root b = some e → entry s'.phys root b = some e
  translate : ∀ b, b.toNat < maxva → P b → translate s'.phys root b = translate s.phys root b

variable {P Q : UInt64 → Prop} {e : UInt64} {fuel : ℕ}

theorem Keeps.trans (h : Keeps root P s s') (h' : Keeps root Q s' s'') :
    Keeps root (fun b => P b ∧ Q b) s s'' where
  tables := h'.tables
  fresh := h'.fresh
  entry b e he := h'.entry b e (h.entry b e he)
  translate b hb hP := (h'.translate b hb hP.2).trans (h.translate b hb hP.1)

theorem Keeps.mono (h : Keeps root P s s') (hPQ : ∀ b, Q b → P b) : Keeps root Q s s' :=
  { h with translate := fun b hb hQ => h.translate b hb (hPQ b hQ) }

theorem Grown.keeps_all (h : Grown root s s') : Keeps root (fun _ => True) s s' where
  tables := h.tables
  fresh := h.fresh
  entry _ _ he := h.entry he
  translate b _ _ := h.translate b

theorem keeps_store (h : Tables s.phys root) (hf : Fresh s root) (ha : a.toNat < maxva)
    (he : entry s.phys root a = some e) (v : UInt64) :
    Keeps root (fun b => b.toNat / 4096 ≠ a.toNat / 4096) s
      { s with phys := store 8 s.phys e.toNat v.toNat } where
  tables := h.store_entry he v.toNat
  fresh := by
    refine ⟨hf.nodup, hf.page, ?_⟩
    intro r hr p hp
    rw [table_store_entry h he v.toNat hp]
    exact hf.unused r hr p hp
  entry b e' hb := by rw [entry_store_entry h he, hb]
  translate b hb hne := by rw [translate_store_entry h he ha hb, if_neg hne]

theorem readTable_store (h : Tables s.phys root) (he : entry s.phys root a = some e) (v : UInt64) :
    readTable (store 8 s.phys e.toNat v.toNat) 2 root =
      Paging.setPte (readTable s.phys 2 root) a.toNat
        (if v &&& pteV ≠ 0 then some (readPte v) else none) := by
  obtain ⟨t, ht, rfl⟩ := entry_eq_some he
  have helse : Elsewhere root ([] ++ way a 2 ++ [index 0 a]) s.phys
      (store 8 s.phys (slot t (index 0 a)).toNat v.toNat) := by
    intro q u j hq hu hoff
    apply word_store_slot (table_aligned h.aligned ht) (table_aligned h.aligned hu)
    by_contra hhere
    push Not at hhere
    obtain ⟨rfl, rfl⟩ := hhere
    rw [h.apart q _ u hq (by simp) hu ht] at hoff
    exact hoff List.prefix_rfl
  rw [helse.store rfl rfl ht, Paging.setPte, next, word_store_self]
  split_ifs with hvalid
  · rfl
  · rfl

/-- The tree `T` that `walk` leaves for the page of `a` gets the entry `v`. -/
def Puts (root a v : UInt64) (s s' : Ram) : Prop :=
  ∃ T, Paging.walk (readTable s.phys 2 root) a.toNat true s.kmem = .ok ((T, true), s'.kmem) ∧
    Paging.pte T a.toNat = none ∧
    readTable s'.phys 2 root = Paging.setPte T a.toNat (some (readPte v))

theorem map_step (h : Tables s.phys root) (hf : Fresh s root) (ha : a.toNat < maxva)
    (hnone : translate s.phys root a = none) (v : UInt64) (k : RamM ℤ) (Q : ℤ → Ram → Prop)
    (hfail : ∀ s', Keeps root (fun _ => True) s s' →
      Paging.walk (readTable s.phys 2 root) a.toNat true s.kmem =
        .ok ((readTable s'.phys 2 root, false), s'.kmem) →
      (∀ n, ¬ Stocked s.kmem (n + 2)) → Q (-1) s')
    (hstep : ∀ s', Keeps root (fun b => b.toNat / 4096 ≠ a.toNat / 4096) s s' →
      translate s'.phys root a = some (v ||| pteV) → Puts root a (v ||| pteV) s s' →
      (∀ n, Stocked s.kmem (n + 2) → Stocked s'.kmem n) → Runs k s' Q) :
    Runs (do
      let pte ← walk root a true
      if pte = 0 then return -1
      else do
        let s ← get
        if word s.phys pte &&& pteV ≠ 0 then throw .remap
        else do
          assign pte (v ||| pteV)
          k) s Q := by
  refine .bind (walk_true ha h hf) ?_
  intro e s1 hwalked
  have hgrown := hwalked.grown
  have htree := hwalked.walk ha
  rcases hwalked.entry with rfl | he
  · exact .pure (hfail s1 hgrown.keeps_all htree fun n hn => (hwalked.granted hn).1 rfl)
  · have hne := hgrown.tables.entry_ne_zero he
    rw [if_neg hne]
    rw [decide_eq_true hne] at htree
    apply runs_get_bind
    have hclear : ¬ word s1.phys e &&& pteV ≠ 0 := by
      intro hvalid
      have hsome := hgrown.translate a
      rw [hnone, translate_of_entry he, if_pos hvalid] at hsome
      cases hsome
    rw [if_neg hclear]
    apply runs_modify_bind
    have hkeeps := keeps_store hgrown.tables hgrown.fresh ha he (v ||| pteV)
    apply hstep
    · exact (hgrown.keeps_all.trans hkeeps).mono fun b hb => ⟨trivial, hb⟩
    · rw [translate_store_entry hgrown.tables he ha ha, if_pos rfl, if_pos (or_pteV_and v)]
    · refine ⟨readTable s1.phys 2 root, htree, ?_, ?_⟩
      · rw [pte_readTable, hgrown.translate, hnone]
        rfl
      · exact (readTable_store hgrown.tables he _).trans (by rw [if_pos (or_pteV_and v)])
    · exact fun n hn => (hwalked.granted hn).2

theorem toNat_add_PGSIZE (h : a.toNat < maxva) : (a + PGSIZE).toNat = a.toNat + 4096 := by
  simp only [maxva] at h
  rw [UInt64.toNat_add, toNat_PGSIZE]
  omega

theorem pgRoundDown_sub_of_page (ha : a.toNat % 4096 = 0) (hpage : b.toNat / 4096 = a.toNat / 4096) :
    pgRoundDown b - a = 0 := by
  have hround : pgRoundDown b = a := by
    apply UInt64.toNat_inj.mp
    rw [toNat_pgRoundDown]
    omega
  rw [hround, UInt64.sub_self]

theorem or_pteV_lt (h : perm.toNat < 1024) : (perm ||| pteV).toNat < 1024 := by
  rw [UInt64.toNat_or]
  exact Nat.or_lt_two_pow (n := 10) h (by decide)

theorem readPte_pa2pte_or (pa : UInt64) (hperm : perm.toNat < 1024) :
    readPte (pa2pte pa ||| perm ||| pteV) = ⟨pa.toNat / pgsize, (readPte perm).perm⟩ := by
  have hflags := pteFlags_pa2pte_or pa (or_pteV_lt hperm)
  -- the flags are the low ten bits
  have hbit : ∀ b : UInt64, 0x3FF &&& b = b → pteV &&& b = 0 →
      (pa2pte pa ||| (perm ||| pteV)) &&& b = perm &&& b := by
    intro b hb hv
    have hlow : ∀ e : UInt64, pteFlags e &&& b = e &&& b := by
      intro e
      rw [pteFlags, UInt64.and_assoc, hb]
    have hor : (perm ||| pteV) &&& b = perm &&& b ||| pteV &&& b := by
      apply UInt64.toNat_inj.mp
      simp only [UInt64.toNat_and, UInt64.toNat_or, Nat.and_or_distrib_right]
    rw [← hlow, hflags, hor, hv, UInt64.or_zero]
  rw [UInt64.or_assoc, readPte, readPte, hbit pteR rfl rfl, hbit pteW rfl rfl, hbit pteX rfl rfl,
    hbit pteU rfl rfl, pte2pa_pa2pte_or pa (or_pteV_lt hperm), toNat_pgRoundDown]
  exact congrArg (fun page => Paging.Pte.mk page _) (Nat.mul_div_cancel _ (by norm_num))

/-- A round of the loop on a tree in which `walk` came to the page and found no entry. -/
theorem mapLoop_put {t T : Paging.Table} {k k' : Kmem} {x pa : ℕ} {perm : Paging.Perm}
    (hwalk : Paging.walk t x true k = .ok ((T, true), k')) (hpte : Paging.pte T x = none) :
    Paging.mapLoop perm 0 x pa t k = .ok ((Paging.setPte T x (some ⟨pa, perm⟩), true), k') ∧
      ∀ n, Paging.mapLoop perm (n + 1) x pa t k =
        Paging.mapLoop perm n (x + pgsize) (pa + 1) (Paging.setPte T x (some ⟨pa, perm⟩)) k' := by
  refine ⟨?_, fun n => ?_⟩
  · unfold Paging.mapLoop
    rw [bind_of_ok hwalk]
    simp only [hpte]
    rfl
  · rw [Paging.mapLoop]
    rw [bind_of_ok hwalk]
    simp only [hpte]
    rfl

theorem mapLoop_runs (h : Tables s.phys root) (hf : Fresh s root) (ha : a.toNat % 4096 = 0)
    (hlast : last.toNat % 4096 = 0) (hle : a.toNat ≤ last.toNat) (htop : last.toNat < maxva)
    (hfuel : (last.toNat - a.toNat) / 4096 < fuel)
    (hnone : ∀ b : UInt64, a.toNat ≤ b.toNat → b.toNat < last.toNat + 4096 →
      translate s.phys root b = none) :
    Runs (mapLoop root last perm fuel a pa) s fun r s' =>
      Keeps root (fun b => b.toNat < a.toNat ∨ last.toNat + 4096 ≤ b.toNat) s s' ∧
      (perm.toNat < 1024 → pa.toNat + (last.toNat - a.toNat) < 2 ^ 64 →
        Paging.mapLoop (readPte perm).perm ((last.toNat - a.toNat) / 4096) a.toNat (pa.toNat / pgsize)
          (readTable s.phys 2 root) s.kmem = .ok ((readTable s'.phys 2 root, decide (r = 0)), s'.kmem)) ∧
      (Stocked s.kmem (2 * ((last.toNat - a.toNat) / 4096 + 1)) → r = 0) ∧
      (r = -1 ∨ r = 0 ∧ ∀ b : UInt64, a.toNat ≤ b.toNat → b.toNat < last.toNat + 4096 →
        translate s'.phys root b = some (pa2pte (pa + (pgRoundDown b - a)) ||| perm ||| pteV)) := by
  induction fuel generalizing s a pa with
  | zero => omega
  | succ fuel ih =>
    have hatop : a.toNat < maxva := lt_of_le_of_lt hle htop
    rw [mapLoop]
    refine map_step h hf hatop (hnone a le_rfl (by omega)) (pa2pte pa ||| perm) _ _ ?_ ?_
    · intro s' hkeeps hwalk hrefused
      refine ⟨hkeeps.mono fun _ _ => trivial, fun _ _ => ?_, fun hsup => ?_, .inl rfl⟩
      · unfold Paging.mapLoop
        exact bind_of_ok hwalk
      · exact absurd ⟨hsup.1, hsup.2⟩ (hrefused (2 * ((last.toNat - a.toNat) / 4096)))
    · rintro s1 hkeeps hhere ⟨T, hwalk, hpte, hput⟩ hsupply
      -- what the page of `a` translates to stays until the loop is done
      have hpage : ∀ b : UInt64, b.toNat / 4096 = a.toNat / 4096 → translate s1.phys root b =
          some (pa2pte (pa + (pgRoundDown b - a)) ||| perm ||| pteV) := by
        intro b hb
        rw [translate_congr hb, hhere, pgRoundDown_sub_of_page ha hb, UInt64.add_zero]
      split
      · rename_i heq
        subst heq
        refine .pure ⟨hkeeps.mono fun b hb => by omega, fun hperm _ => ?_, fun _ => rfl,
          .inr ⟨rfl, ?_⟩⟩
        · rw [Nat.sub_self, Nat.zero_div, hput, readPte_pa2pte_or pa hperm]
          exact (mapLoop_put hwalk hpte).1
        · intro b hlo hhi
          exact hpage b (by omega)
      · rename_i hne
        have hne : a.toNat ≠ last.toNat := fun heq => hne (UInt64.toNat_inj.mp heq)
        have hnext := toNat_add_PGSIZE hatop
        refine .mono (ih hkeeps.tables hkeeps.fresh (by omega) (by omega) (by omega) ?_) ?_
        · intro b hlo hhi
          simp only [maxva] at htop
          rw [hkeeps.translate b (by simp only [maxva]; omega) (by omega)]
          exact hnone b (by omega) hhi
        · rintro r s2 ⟨hkeeps', htree, hgranted, hres⟩
          have hcount : (last.toNat - a.toNat) / 4096 =
              (last.toNat - (a + PGSIZE).toNat) / 4096 + 1 := by
            omega
          refine ⟨(hkeeps.trans hkeeps').mono fun b hb => by omega, fun hperm hpa => ?_,
            fun hsup => hgranted (hsupply _ (by rwa [hcount] at hsup)), ?_⟩
          · have hnextpa : (pa + PGSIZE).toNat = pa.toNat + 4096 := by
              rw [UInt64.toNat_add, toNat_PGSIZE]
              omega
            have hpages : (pa + PGSIZE).toNat / pgsize = pa.toNat / pgsize + 1 := by
              rw [hnextpa]
              exact Nat.add_div_right _ (by norm_num)
            have hrest := htree hperm (by omega)
            rw [hput, readPte_pa2pte_or pa hperm, hpages, hnext] at hrest
            rw [hcount, (mapLoop_put hwalk hpte).2, hnext]
            exact hrest
          rcases hres with rfl | ⟨rfl, hmapped⟩
          · exact .inl rfl
          · refine .inr ⟨rfl, ?_⟩
            intro b hlo hhi
            by_cases hb : b.toNat < a.toNat + 4096
            · simp only [maxva] at htop
              rw [hkeeps'.translate b (by simp only [maxva]; omega) (by omega)]
              exact hpage b (by omega)
            · have hshift : pa + PGSIZE + (pgRoundDown b - (a + PGSIZE)) = pa + (pgRoundDown b - a) := by
                grind
              rw [hmapped b (by omega) hhi, hshift]

theorem kfree_runs (im : Image) {u : UInt64} (hu : u.toNat % 4096 = 0)
    (hmanaged : im.managed (u.toNat / 4096)) (s : Ram) :
    Runs (kfree im u) s fun _ s' => Paging.kfree im (u.toNat / pgsize) s.kmem = .ok ((), s'.kmem) ∧
      ∀ b, b < u.toNat ∨ u.toNat + 4096 ≤ b → s'.phys b = s.phys b := by
  have halign : ¬ u % PGSIZE ≠ 0 := by
    intro hne
    apply hne
    apply UInt64.toNat_inj.mp
    rw [UInt64.toNat_mod]
    exact hu
  have hrange : ¬ (u.toNat / pgsize < im.first ∨ Paging.phystop ≤ u.toNat / pgsize) := by
    rw [not_or, not_lt, not_le]
    exact hmanaged
  have hfree : Paging.kfree im (u.toNat / pgsize) s.kmem =
      .ok ((), { s.kmem with freelist := u.toNat / pgsize :: s.kmem.freelist }) := by
    rw [Paging.kfree, if_neg hrange]
    rfl
  have hpush : onKmem (Paging.kfree im (u.toNat / pgsize)) s = .ok ((), { s with kmem :=
      { s.kmem with freelist := u.toNat / pgsize :: s.kmem.freelist } }) := by
    rw [onKmem, Fallible.zoom, hfree]
  rw [kfree, if_neg halign]
  refine runs_get_bind (runs_bind_of_ok hpush ?_)
  refine ⟨(), _, rfl, hfree, ?_⟩
  intro b hb
  dsimp only
  rw [store_apply_of_outside (by omega)]
  exact memmove_outside _ _ hb

def Data (im : Image) (phys : Memory) (root u : UInt64) : Prop :=
  im.managed (u.toNat / 4096) ∧ ∀ p, p.length ≤ 2 → table phys root p ≠ some u

/-- Of the tree, the page `e` of the address `a` is taken away, and freed if `doFree`. -/
structure Drops (im : Image) (doFree : Bool) (root a e : UInt64) (s s' : Ram) : Prop where
  found : Paging.walk (readTable s.phys 2 root) a.toNat false s.kmem =
    .ok ((readTable s.phys 2 root, true), s.kmem)
  pte : Paging.pte (readTable s.phys 2 root) a.toNat = some (readPte e)
  frees : (if doFree then Paging.kfree im (readPte e).page else pure ()) s.kmem = .ok ((), s'.kmem)
  reads : readTable s'.phys 2 root = Paging.setPte (readTable s.phys 2 root) a.toNat none

theorem unmap_step (im : Image) (doFree : Bool) (h : Tables s.phys root) (ha : a.toNat < maxva)
    (halign : a.toNat % 4096 = 0) (he : translate s.phys root a = some e)
    (hleaf : pteFlags e ≠ pteV) (hdata : doFree → Data im s.phys root (pte2pa e)) (k : RamM Unit)
    (Q : Unit → Ram → Prop)
    (hstep : ∀ s', Tables s'.phys root →
      (∀ p, p.length ≤ 2 → table s'.phys root p = table s.phys root p) →
      (∀ b, b.toNat < maxva → translate s'.phys root b =
        if b.toNat / 4096 = a.toNat / 4096 then none else translate s.phys root b) →
      Drops im doFree root a e s s' → Runs k s' Q) :
    Runs (do
      let pte ← walk root a false
      if pte = 0 then throw .unmapWalk
      else do
        let s ← get
        if word s.phys pte &&& pteV = 0 then throw .notMapped
        else if pteFlags (word s.phys pte) = pteV then throw .notLeaf
        else do
          if doFree then kfree im (pte2pa (word s.phys pte))
          assign pte 0
          k) s Q := by
  cases hentry : entry s.phys root a with
  | none =>
    rw [translate_of_none hentry] at he
    cases he
  | some p =>
    have hword := translate_of_entry hentry
    rw [he] at hword
    split at hword
    · rename_i hvalid
      cases hword
      have hwalk : walk root a false s = .ok (p, s) := by rw [walk_false ha, hentry]; rfl
      refine runs_bind_of_ok hwalk ?_
      rw [if_neg (h.entry_ne_zero hentry)]
      apply runs_get_bind
      rw [if_neg hvalid, if_neg hleaf]
      have hpte : Paging.pte (readTable s.phys 2 root) a.toNat = some (readPte (word s.phys p)) := by
        rw [pte_readTable, he]
        rfl
      have hfound : Paging.walk (readTable s.phys 2 root) a.toNat false s.kmem =
          .ok ((readTable s.phys 2 root, true), s.kmem) := by
        have hpage : a.toNat / 4096 * pgsize = a.toNat :=
          Nat.div_mul_cancel (Nat.dvd_of_mod_eq_zero halign)
        have hlt : a.toNat / 4096 < 2 ^ 26 := Paging.mul_pgsize_lt_maxva.mp (by rwa [hpage])
        rw [← hpage, Paging.pte_mul hlt] at hpte
        obtain ⟨_, _, hwalk, rfl, rfl⟩ := Paging.walk_found hlt hpte s.kmem
        rwa [hpage] at hwalk
      have hclear : ∀ s1, SameWords s.phys s1.phys root →
          (if doFree then Paging.kfree im (readPte (word s.phys p)).page else pure ()) s.kmem =
            .ok ((), s1.kmem) → Runs (do assign p 0; k) s1 Q := by
        intro s1 hsame hfree
        apply runs_modify_bind
        have htables := hsame.tables h
        have hentry' := (hsame.entry a).trans hentry
        apply hstep
        · exact htables.store_entry hentry' _
        · intro q hq
          rw [table_store_entry htables hentry' _ hq, hsame.table hq]
        · intro b hb
          rw [translate_store_entry htables hentry' ha hb, hsame.translate]
          rfl
        · refine ⟨hfound, hpte, hfree, (readTable_store htables hentry' 0).trans ?_⟩
          rw [readTable_congr (p := []) (by simp) rfl fun q t j _ => hsame q t j]
          rfl
      cases doFree with
      | false => exact hclear s (fun _ _ _ _ _ => rfl) rfl
      | true =>
        -- the bytes `kfree` leaves in the page are none of the table
        obtain ⟨hmanaged, hother⟩ := hdata rfl
        have halign : (pte2pa (word s.phys p)).toNat % 4096 = 0 := by
          rw [toNat_pte2pa]
          omega
        refine .bind (kfree_runs im halign hmanaged s) ?_
        rintro _ s1 ⟨hfree, hsame⟩
        exact hclear s1 (sameWords_of_page h.aligned halign hother hsame) hfree
    · cases hword

theorem unmapLoop_drop {im : Image} {doFree : Bool} {n : ℕ} (h : Drops im doFree root a e s s')
    (hperm : (readPte e).perm ≠ ⟨false, false, false, false⟩) :
    Paging.unmapLoop im doFree (n + 1) a.toNat (readTable s.phys 2 root) s.kmem =
      Paging.unmapLoop im doFree n (a.toNat + pgsize)
        (Paging.setPte (readTable s.phys 2 root) a.toNat none) s'.kmem := by
  rw [Paging.unmapLoop, bind_of_ok h.found]
  simp only [h.pte, if_neg hperm]
  have hfree := h.frees
  cases doFree with
  | false =>
    rw [show s.kmem = s'.kmem from (Prod.mk.inj (Except.ok.inj hfree)).2]
    rfl
  | true => exact bind_of_ok hfree

theorem unmapLoop_runs (im : Image) (doFree : Bool) (h : Tables s.phys root)
    (ha : a.toNat % 4096 = 0) (hstop : stop.toNat % 4096 = 0) (hle : a.toNat ≤ stop.toNat)
    (htop : stop.toNat ≤ maxva) (hfuel : (stop.toNat - a.toNat) / 4096 < fuel)
    (hmapped : ∀ b : UInt64, a.toNat ≤ b.toNat → b.toNat < stop.toNat →
      ∃ e, translate s.phys root b = some e ∧ pteFlags e ≠ pteV ∧
        (doFree → Data im s.phys root (pte2pa e))) :
    Runs (unmapLoop im root stop doFree fuel a) s fun _ s' =>
      Tables s'.phys root ∧ (∀ p, p.length ≤ 2 → table s'.phys root p = table s.phys root p) ∧
      (∀ b, b.toNat < maxva → translate s'.phys root b =
        if a.toNat ≤ b.toNat ∧ b.toNat < stop.toNat then none else translate s.phys root b) ∧
      ((∀ b : UInt64, a.toNat ≤ b.toNat → b.toNat < stop.toNat → ∀ e, translate s.phys root b = some e →
          (readPte e).perm ≠ ⟨false, false, false, false⟩) →
        Paging.unmapLoop im doFree ((stop.toNat - a.toNat) / 4096) a.toNat (readTable s.phys 2 root)
          s.kmem = .ok (readTable s'.phys 2 root, s'.kmem)) := by
  induction fuel generalizing s a with
  | zero => omega
  | succ fuel ih =>
    rw [unmapLoop]
    split
    · rename_i hlt
      rw [UInt64.lt_iff_toNat_lt] at hlt
      have hatop : a.toNat < maxva := lt_of_lt_of_le hlt htop
      have hnext := toNat_add_PGSIZE hatop
      obtain ⟨e, he, hleaf, hdata⟩ := hmapped a le_rfl hlt
      refine unmap_step im doFree h hatop ha he hleaf hdata _ _ ?_
      intro s1 htables hsame htrans hdrops
      refine .mono (ih htables (by omega) (by omega) (by omega) ?_) ?_
      · intro b hlo hhi
        obtain ⟨e', he', hleaf', hdata'⟩ := hmapped b (by omega) hhi
        refine ⟨e', ?_, hleaf', ?_⟩
        · rw [htrans b (by omega), if_neg (by omega), he']
        · intro hfree
          obtain ⟨hmanaged, hother⟩ := hdata' hfree
          refine ⟨hmanaged, fun p hp => ?_⟩
          rw [hsame p hp]
          exact hother p hp
      · rintro _ s2 ⟨htables', hsame', htrans', htree⟩
        refine ⟨htables', fun p hp => (hsame' p hp).trans (hsame p hp), ?_, fun hperm => ?_⟩
        · intro b hb
          rw [htrans' b hb, htrans b hb]
          split_ifs
          all_goals first | rfl | omega
        · have hcount : (stop.toNat - a.toNat) / 4096 =
              (stop.toNat - (a + PGSIZE).toNat) / 4096 + 1 := by
            omega
          rw [hcount, unmapLoop_drop hdrops (hperm a le_rfl hlt e he), ← hdrops.reads, ← htree ?_, hnext]
          · rfl
          · intro b hlo hhi e' he'
            rw [htrans b (by omega), if_neg (by omega)] at he'
            exact hperm b (by omega) hhi e' he'
    · rename_i hge
      rw [UInt64.lt_iff_toNat_lt] at hge
      refine .pure ⟨h, fun _ _ => rfl, ?_, fun _ => ?_⟩
      · intro b _
        rw [if_neg (by omega)]
      · rw [show stop.toNat - a.toNat = 0 by omega]
        rfl

/-- Where the entry is there already, `walk` neither allocates nor writes. -/
theorem walk_of_entry (hva : va.toNat < maxva) (he : entry s.phys root va = some e) (alloc : Bool) :
    walk root va alloc s = .ok (e, s) := by
  have hloop : ∀ level ≤ 2, ∀ t u, table s.phys t (way va level) = some u →
      walkLoop alloc va level t s = .ok (slot u (index 0 va), s) := by
    intro level hlevel
    induction level with
    | zero =>
      intro t u hu
      cases hu
      rw [walkLoop, add_px (by omega)]
      rfl
    | succ level ih =>
      intro t u hu
      have hstep : (next s.phys t (index (level + 1) va)).bind
          (fun v => table s.phys v (way va level)) = some u := hu
      rw [walkLoop, add_px hlevel, bind_of_ok rfl]
      rw [next] at hstep
      split at hstep
      · rename_i hvalid
        rw [if_pos hvalid]
        exact ih (by omega) _ u hstep
      · cases hstep
  obtain ⟨t, ht, rfl⟩ := entry_eq_some he
  rw [walk, if_neg (not_MAXVA_le hva)]
  exact hloop 2 le_rfl root t ht

theorem entry_of_walk (hva : va.toNat < maxva) (he : walk root va false s = .ok (e, s))
    (hne : e ≠ 0) : entry s.phys root va = some e := by
  rw [walk_false hva] at he
  cases hentry : entry s.phys root va with
  | none =>
    rw [hentry] at he
    cases he
    exact absurd rfl hne
  | some e' =>
    rw [hentry] at he
    cases he
    rfl

def SameEntries (root : UInt64) (s s' : Ram) : Prop :=
  ∀ b e alloc, b < MAXVA → walk root b false s = .ok (e, s) → e ≠ 0 →
    walk root b alloc s' = .ok (e, s')

theorem sameEntries_of_entry
    (h : ∀ b e, entry s.phys root b = some e → entry s'.phys root b = some e) :
    SameEntries root s s' := by
  intro b e alloc hb he hne
  rw [UInt64.lt_iff_toNat_lt] at hb
  exact walk_of_entry hb (h b e (entry_of_walk hb he hne)) alloc

/-- `mappages` of a range that was not mapped: what the call returns and leaves, and when it
cannot fail.  Two pages for page tables are enough for every page of the range. -/
structure Maps (root va size pa perm : UInt64) (s : Ram) (r : ℤ) (s' : Ram) : Prop where
  result : r = 0 ∨ r = -1
  granted : Stocked s.kmem (2 * ((va + size - 1).toNat / pgsize - va.toNat / pgsize + 1)) → r = 0
  reads : perm < 1024 → pa.toNat < 2 ^ 56 →
    Paging.mappages (readTable s.phys 2 root) va.toNat size.toNat (pa.toNat / pgsize) (readPte perm).perm
      s.kmem = .ok ((readTable s'.phys 2 root, decide (r = 0)), s'.kmem)
  tables : Tables s'.phys root
  fresh : Fresh s' root
  mapped : r = 0 → ∀ i < size, ∃ e, translate s'.phys root (va + i) = some e ∧
    e = pa2pte (pa + (pgRoundDown (va + i) - pgRoundDown va)) ||| perm ||| pteV ∧
    (perm < 1024 → pte2pa e = pgRoundDown (pa + (pgRoundDown (va + i) - pgRoundDown va)) ∧
      pteFlags e = perm ||| pteV)
  others : ∀ b < MAXVA, (∀ i < size, pgRoundDown b ≠ pgRoundDown (va + i)) →
    translate s'.phys root b = translate s.phys root b
  entries : SameEntries root s s'

theorem pgRoundDown_eq_iff : pgRoundDown a = pgRoundDown b ↔ a.toNat / 4096 = b.toNat / 4096 := by
  rw [← UInt64.toNat_inj, toNat_pgRoundDown, toNat_pgRoundDown]
  omega

theorem mappages_runs {size : UInt64} (h : Tables s.phys root) (hf : Fresh s root) (hsize : 0 < size)
    (hrange : va.toNat + size.toNat ≤ maxva)
    (hnone : ∀ i < size, translate s.phys root (va + i) = none) :
    Runs (mappages root va size pa perm) s (Maps root va size pa perm s) := by
  rw [UInt64.lt_iff_toNat_lt, UInt64.toNat_zero] at hsize
  simp only [maxva] at hrange
  have hend : (va + size - 1).toNat = va.toNat + size.toNat - 1 := by
    rw [UInt64.toNat_sub, UInt64.toNat_add]
    simp only [UInt64.reduceToNat]
    omega
  have hadd : ∀ i : UInt64, i < size → (va + i).toNat = va.toNat + i.toNat := by
    intro i hi
    rw [UInt64.lt_iff_toNat_lt] at hi
    rw [UInt64.toNat_add]
    omega
  have hfirst := toNat_pgRoundDown va
  have hlast := toNat_pgRoundDown (va + size - 1)
  rw [hend] at hlast
  -- every page of the loop holds an address of the range
  have hhit : ∀ b : UInt64, (pgRoundDown va).toNat ≤ b.toNat →
      b.toNat < (pgRoundDown (va + size - 1)).toNat + 4096 →
      ∃ i < size, b.toNat / 4096 = (va + i).toNat / 4096 := by
    intro b hlo hhi
    by_cases hb : va.toNat ≤ b.toNat
    · by_cases hb' : b.toNat < va.toNat + size.toNat
      · have hsub := UInt64.toNat_sub_of_le b va (UInt64.le_iff_toNat_le.mpr hb)
        have hi : b - va < size := by
          rw [UInt64.lt_iff_toNat_lt, hsub]
          omega
        refine ⟨b - va, hi, ?_⟩
        rw [hadd _ hi, hsub]
        omega
      · have hsub : (size - 1).toNat = size.toNat - 1 :=
          UInt64.toNat_sub_of_le size 1 (UInt64.le_iff_toNat_le.mpr hsize)
        have hi : size - 1 < size := by
          rw [UInt64.lt_iff_toNat_lt, hsub]
          omega
        refine ⟨size - 1, hi, ?_⟩
        rw [hadd _ hi, hsub]
        omega
    · have hi : (0 : UInt64) < size := by
        rw [UInt64.lt_iff_toNat_lt]
        exact hsize
      refine ⟨0, hi, ?_⟩
      rw [hadd _ hi, UInt64.toNat_zero]
      omega
  have hne : size ≠ 0 := by
    rintro rfl
    exact absurd hsize (by simp)
  rw [mappages, if_neg hne]
  refine .mono (mapLoop_runs h hf (by omega) (by omega) (by omega) (by simp only [maxva]; omega)
    (by simp only [steps]; omega) ?_) ?_
  · intro b hlo hhi
    obtain ⟨i, hi, hpage⟩ := hhit b hlo hhi
    rw [translate_congr hpage]
    exact hnone i hi
  · rintro r s' ⟨hkeeps, htree, hgranted, hres⟩
    have hcount : ((pgRoundDown (va + size - 1)).toNat - (pgRoundDown va).toNat) / 4096 =
        (va.toNat + size.toNat - 1) / 4096 - va.toNat / 4096 := by
      omega
    rw [hcount] at htree hgranted
    refine ⟨by tauto, by rwa [hend], fun hperm hpa => ?_, hkeeps.tables, hkeeps.fresh, ?_, ?_,
      sameEntries_of_entry hkeeps.entry⟩
    · have hround : Paging.pgRoundDown ((va.toNat + size.toNat - 1) % 2 ^ 64) =
          (pgRoundDown (va + size - 1)).toNat := by
        rw [Nat.mod_eq_of_lt (by omega), hlast]
        rfl
      have hsteps : ((pgRoundDown (va + size - 1)).toNat + 2 ^ 64 - (pgRoundDown va).toNat) % 2 ^ 64 /
          pgsize = (va.toNat + size.toNat - 1) / 4096 - va.toNat / 4096 := by
        simp only [pgsize]
        omega
      rw [Paging.mappages, if_neg (by omega), hround, 
        ← show (pgRoundDown va).toNat = Paging.pgRoundDown va.toNat from hfirst, hsteps]
      exact htree (UInt64.lt_iff_toNat_lt.mp hperm) (by omega)
    · rintro rfl i hi
      have hmapped := (hres.resolve_left (by decide)).2
      have hi' := hi
      rw [UInt64.lt_iff_toNat_lt] at hi'
      refine ⟨_, hmapped (va + i) ?_ ?_, rfl, ?_⟩
      · rw [hadd i hi]
        omega
      · rw [hadd i hi]
        omega
      · intro hperm
        rw [UInt64.lt_iff_toNat_lt] at hperm
        rw [UInt64.or_assoc]
        exact ⟨pte2pa_pa2pte_or _ (or_pteV_lt hperm), pteFlags_pa2pte_or _ (or_pteV_lt hperm)⟩
    · intro b hb hother
      rw [UInt64.lt_iff_toNat_lt] at hb
      refine hkeeps.translate b hb ?_
      by_contra hin
      push Not at hin
      obtain ⟨i, hi, hpage⟩ := hhit b hin.1 hin.2
      exact hother i hi (pgRoundDown_eq_iff.mpr hpage)

/-- `uvmunmap` of a range all of whose pages are mapped. -/
structure Unmaps (im : Image) (doFree : Bool) (root va npages : UInt64) (s s' : Ram) : Prop where
  tables : Tables s'.phys root
  reads : (∀ b, va ≤ b → b < va + npages * PGSIZE → ∀ e, translate s.phys root b = some e →
      (readPte e).perm ≠ ⟨false, false, false, false⟩) →
    Paging.uvmunmap im (readTable s.phys 2 root) va.toNat npages.toNat doFree s.kmem =
      .ok (readTable s'.phys 2 root, s'.kmem)
  translate : ∀ b < MAXVA, translate s'.phys root b =
    if va ≤ b ∧ b < va + npages * PGSIZE then none else translate s.phys root b
  entries : SameEntries root s s'

theorem uvmunmap_runs (im : Image) (doFree : Bool) {npages : UInt64} (h : Tables s.phys root)
    (halign : va % PGSIZE = 0) (hrange : va.toNat + npages.toNat * 4096 ≤ maxva)
    (hmapped : ∀ b, va ≤ b → b < va + npages * PGSIZE → ∃ e, translate s.phys root b = some e ∧
      pteFlags e ≠ pteV ∧ (doFree → Data im s.phys root (pte2pa e))) :
    Runs (uvmunmap im root va npages doFree) s fun _ s' =>
      Unmaps im doFree root va npages s s' := by
  have hva : va.toNat % 4096 = 0 := by
    have hmod := congrArg UInt64.toNat halign
    rw [UInt64.toNat_mod] at hmod
    exact hmod
  have hstop : (va + npages * PGSIZE).toNat = va.toNat + npages.toNat * 4096 := by
    simp only [maxva] at hrange
    rw [UInt64.toNat_add, UInt64.toNat_mul, toNat_PGSIZE]
    omega
  rw [uvmunmap, if_neg (not_not.mpr halign)]
  refine .mono (unmapLoop_runs im doFree h hva (by omega) (by omega) (by omega) ?_ ?_) ?_
  · simp only [maxva] at hrange
    simp only [steps]
    omega
  · intro b hlo hhi
    exact hmapped b hlo hhi
  · rintro _ s' ⟨htables, hsame, htrans, htree⟩
    refine ⟨htables, fun hperm => ?_, ?_, ?_⟩
    · have hsteps : ((va.toNat + npages.toNat * pgsize) % 2 ^ 64 - va.toNat) / pgsize =
          ((va + npages * PGSIZE).toNat - va.toNat) / 4096 := by
        simp only [maxva] at hrange
        simp only [pgsize]
        omega
      rw [Paging.uvmunmap, if_neg (not_not.mpr (show va.toNat % pgsize = 0 from hva)), hsteps]
      exact htree hperm
    · intro b hb
      rw [UInt64.lt_iff_toNat_lt] at hb
      rw [htrans b hb]
      rfl
    · apply sameEntries_of_entry
      intro b e he
      rw [entry, hsame _ (by simp)]
      exact he

/-- Page tables are finite maps from pages to entries. -/
theorem page_table_is_finite_map (im : Image) (h : Tables s.phys root) (hf : Fresh s root) :
    (∀ va size pa perm : UInt64, 0 < size → va.toNat + size.toNat ≤ maxva →
      (∀ i < size, translate s.phys root (va + i) = none) →
      ∃ r s', mappages root va size pa perm s = .ok (r, s') ∧ Maps root va size pa perm s r s') ∧
    (∀ (va npages : UInt64) (doFree : Bool), va % PGSIZE = 0 →
      va.toNat + npages.toNat * 4096 ≤ maxva →
      (∀ b, va ≤ b → b < va + npages * PGSIZE → ∃ e, translate s.phys root b = some e ∧
        pteFlags e ≠ pteV ∧ (doFree → Data im s.phys root (pte2pa e))) →
      ∃ s', uvmunmap im root va npages doFree s = .ok ((), s') ∧
        Unmaps im doFree root va npages s s') ∧
    (∀ va < MAXVA, ∃ r s', walk root va true s = .ok (r, s') ∧ Tables s'.phys root ∧ Fresh s' root ∧
      Paging.walk (readTable s.phys 2 root) va.toNat true s.kmem =
        .ok ((readTable s'.phys 2 root, decide (r ≠ 0)), s'.kmem) ∧ (Stocked s.kmem 2 → r ≠ 0) ∧
      (∀ b, translate s'.phys root b = translate s.phys root b) ∧ SameEntries root s s') ∧
    (∀ a b e, a < MAXVA → b < MAXVA → walk root a false s = .ok (e, s) →
      walk root b false s = .ok (e, s) → e ≠ 0 → pgRoundDown a = pgRoundDown b) := by
  refine ⟨?_, ?_, ?_, ?_⟩
  · intro va size pa perm hsize hrange hnone
    exact mappages_runs h hf hsize hrange hnone
  · intro va npages doFree halign hrange hmapped
    obtain ⟨⟨⟩, s', hrun, hdone⟩ := uvmunmap_runs im doFree h halign hrange hmapped
    exact ⟨s', hrun, hdone⟩
  · intro va hva
    rw [UInt64.lt_iff_toNat_lt] at hva
    obtain ⟨r, s', hrun, hwalked⟩ := walk_true hva h hf
    have hgrown := hwalked.grown
    exact ⟨r, s', hrun, hgrown.tables, hgrown.fresh, hwalked.walk hva,
      fun hs => (hwalked.granted (n := 0) hs).1, hgrown.translate,
      sameEntries_of_entry fun _ _ he => hgrown.entry he⟩
  · intro a b e ha hb hae hbe hne
    rw [UInt64.lt_iff_toNat_lt] at ha hb
    exact pgRoundDown_eq_iff.mpr
      (h.entry_inj ha hb (entry_of_walk ha hae hne) (entry_of_walk hb hbe hne))

def blank : Ram := ⟨fun _ => 0, ⟨[2, 3, 4, 5], fun _ => false⟩⟩

theorem word_blank (p : UInt64) : word blank.phys p = 0 := by
  have hload : load 8 blank.phys p.toNat = 0 % 256 ^ 8 :=
    load_of_bytes fun d _ => by rw [Nat.zero_div]; rfl
  rw [word, hload]
  rfl

theorem next_blank (t : UInt64) (i : Fin 512) : next blank.phys t i = none := by
  rw [next, word_blank]
  rfl

theorem table_blank (root : UInt64) {p : List (Fin 512)} {t : UInt64}
    (ht : table blank.phys root p = some t) : p = [] ∧ t = root := by
  cases p with
  | nil =>
    cases ht
    exact ⟨rfl, rfl⟩
  | cons i p =>
    have hstep : (next blank.phys root i).bind (fun u => table blank.phys u p) = some t := ht
    rw [next_blank] at hstep
    cases hstep

theorem translate_blank (root va : UInt64) : translate blank.phys root va = none := by
  cases he : entry blank.phys root va with
  | none => exact translate_of_none he
  | some e =>
    obtain ⟨t, ht, -⟩ := entry_eq_some he
    cases (table_blank root ht).1

theorem blank_tables : Tables blank.phys 0x1000 where
  aligned := rfl
  apart p q t _ _ hp hq := (table_blank _ hp).1.trans (table_blank _ hq).1.symm
  nonnull p _ hp := absurd (table_blank _ hp).2 (by decide)

theorem blank_fresh : Fresh blank 0x1000 where
  nodup := by decide
  page := by decide
  unused r hr p _ hp := by
    have hother : ∀ r ∈ blank.kmem.freelist, UInt64.ofNat (r * pgsize) ≠ 0x1000 := by decide
    exact hother r hr (table_blank _ hp).2

/-- Eight bytes on either side of a page boundary are mapped: both pages get an entry. -/
theorem page_table_is_finite_map_blank :
    ∃ s', mappages 0x1000 0x2ffc 8 0x80000000 6 blank = .ok (0, s') ∧
      translate s'.phys 0x1000 0x2ffc = some 0x20000007 ∧
      translate s'.phys 0x1000 0x3003 = some 0x20000407 ∧
      Maps 0x1000 0x2ffc 8 0x80000000 6 blank 0 s' := by
  obtain ⟨r, s', hrun, hmaps⟩ := (page_table_is_finite_map Paging.textImage blank_tables blank_fresh).1
    0x2ffc 8 0x80000000 6 (by decide) (by decide) fun _ _ => translate_blank _ _
  obtain rfl : r = 0 := hmaps.granted ⟨fun _ => rfl, by decide⟩
  obtain ⟨e, he, heq, -⟩ := hmaps.mapped rfl 0 (by decide)
  obtain ⟨e', he', heq', -⟩ := hmaps.mapped rfl 7 (by decide)
  rw [heq] at he
  rw [heq'] at he'
  exact ⟨s', hrun, he, he', hmaps⟩

end Xv6MallocLab.PageTable
