import Xv6MallocLab.ProgramImage

/-!
# The argument stack

What `exec` pushes on the stack page.  The stack pointer is always a multiple of 16, so
the layout is known before anything is copied.
-/

namespace Xv6MallocLab.PhysicalMemory

open ByteMemory List Paging

def slot (n : ℕ) : ℕ := (n + 15) / 16 * 16

def need (argv : List (List UInt8)) : ℕ := (argv.map fun s => slot (s.length + 1)).sum

def argBytes (argv : List (List UInt8)) : ℕ := need argv + slot ((argv.length + 1) * 8)

def pointers : List (List UInt8) → ℕ → List ℕ
  | [], _ => []
  | s :: rest, sp => (sp - slot (s.length + 1)) :: pointers rest (sp - slot (s.length + 1))

@[simp] theorem need_nil : need [] = 0 := rfl

@[simp] theorem need_cons (s : List UInt8) (rest : List (List UInt8)) :
    need (s :: rest) = slot (s.length + 1) + need rest := by
  simp [need]

theorem le_slot (n : ℕ) : n ≤ slot n := by
  simp only [slot]
  omega

theorem slot_mod (n : ℕ) : slot n % 16 = 0 := Nat.mul_mod_left _ _

theorem need_mod (argv : List (List UInt8)) : need argv % 16 = 0 := by
  induction argv with
  | nil => rfl
  | cons s rest ih =>
    have := slot_mod (s.length + 1)
    rw [need_cons]
    omega

theorem length_pointers (argv : List (List UInt8)) (sp : ℕ) :
    (pointers argv sp).length = argv.length := by
  induction argv generalizing sp with
  | nil => rfl
  | cons s rest ih => rw [pointers, length_cons, ih, length_cons]

variable {sp n q : ℕ} {argv : List (List UInt8)}

theorem pushDown_eq (hsp : sp % 16 = 0) (hn : n ≤ sp) (hlt : sp < 2 ^ 64) :
    pushDown sp n = sp - slot n := by
  have hmod : (sp + 2 ^ 64 - n) % 2 ^ 64 = sp - n := by omega
  simp only [pushDown, hmod, slot]
  omega

variable {t : Table} {j : ℕ} {e : Pte} {r : Ram}

variable {dst len base : ℕ} {phys phys' : Memory}

theorem copyoutTo_page (hj : j < 2 ^ 26) (he : contents t j = some e) (hu : e.perm.u = true)
    (hlo : j * pgsize ≤ dst) (hlen : 0 < len) (hhi : dst + len ≤ (j + 1) * pgsize)
    (src phys : Memory) :
    copyoutTo t dst src len phys =
      (memmove phys (e.page * pgsize + (dst - j * pgsize)) src len, true) := by
  have hdown : pgRoundDown dst = j * pgsize := by
    simp only [pgRoundDown, pgsize] at *
    omega
  have hpage : userPage t (j * pgsize) = some e.page := by
    rw [userPage, if_neg (not_le.2 (mul_pgsize_lt_maxva.2 hj)), pte_mul hj, he]
    simp [hu]
  have hn : min (pgsize - (dst - j * pgsize)) len = len := by
    rw [add_mul, one_mul] at hhi
    omega
  rw [copyoutTo, dif_neg hlen.ne', hdown, hpage]
  dsimp only
  rw [hn, Nat.sub_self, copyoutTo_zero]

theorem copyout_runs (hj : j < 2 ^ 26) (he : contents t j = some e) (hu : e.perm.u = true)
    (hlo : j * pgsize ≤ dst) (hlen : 0 < len) (hhi : dst + len ≤ (j + 1) * pgsize) (src : Memory)
    (r : Ram) :
    Runs (copyout t dst src len) r fun ok r' => ok = true ∧
      r' = { r with phys := memmove r.phys (e.page * pgsize + (dst - j * pgsize)) src len } := by
  refine runs_get_bind ?_
  rw [copyoutTo_page hj he hu hlo hlen hhi]
  exact ⟨true, _, rfl, rfl, rfl⟩

def StringAt (phys : Memory) (base : ℕ) (j : ℕ) (s : List UInt8) (q : ℕ) : Prop :=
  ∀ d ≤ s.length, phys (base + (q - j * pgsize) + d) = cstring s d

def OnlyBelow (base n : ℕ) (phys phys' : Memory) : Prop :=
  ∀ a, a < base ∨ base + n ≤ a → phys' a = phys a

structure Pushed (base j : ℕ) (argv : List (List UInt8)) (sp : ℕ) (ustack : List ℕ) (r : Ram)
    (x : Option (ℕ × List ℕ)) (r' : Ram) : Prop where
  kmem : r'.kmem = r.kmem
  below : OnlyBelow base (sp - j * pgsize) r.phys r'.phys
  full : sp - j * pgsize < need argv → x = none
  fits : need argv ≤ sp - j * pgsize → x = some (sp - need argv, ustack ++ pointers argv sp) ∧
    List.Forall₂ (StringAt r'.phys base j) argv (pointers argv sp)

theorem StringAt.mono {s : List UInt8} (h : StringAt phys base j s q)
    (hbelow : OnlyBelow base n phys phys') (hq : n ≤ q - j * pgsize) :
    StringAt phys' base j s q := by
  intro d hd
  rw [hbelow _ (.inr (by omega))]
  exact h d hd

theorem strings_mono {ps : List ℕ} (h : List.Forall₂ (StringAt phys base j) argv ps)
    (hbelow : OnlyBelow base n phys phys') (hps : ∀ q ∈ ps, n ≤ q - j * pgsize) :
    List.Forall₂ (StringAt phys' base j) argv ps := by
  rw [List.forall₂_iff_zip] at h ⊢
  exact ⟨h.1, fun hmem => (h.2 hmem).mono hbelow (hps _ (of_mem_zip hmem).2)⟩

theorem pushArgs_runs (hj : j < 2 ^ 26) (hpos : 0 < j) (he : contents t j = some e)
    (hu : e.perm.u = true) (argv : List (List UInt8)) (hlen : ∀ s ∈ argv, s.length < pgsize)
    {ustack : List ℕ} {r : Ram} (hcount : ustack.length + argv.length ≤ maxarg)
    (hmod : sp % 16 = 0) (hlo : j * pgsize ≤ sp) (hhi : sp ≤ (j + 1) * pgsize) :
    Runs (pushArgs t (j * pgsize) argv sp ustack) r
      (Pushed (e.page * pgsize) j argv sp ustack r) := by
  induction argv generalizing sp ustack r with
  | nil =>
    refine .pure ⟨rfl, fun _ _ => rfl, fun h => absurd h (Nat.not_lt_zero _), fun _ => ⟨?_, .nil⟩⟩
    simp [pointers]
  | cons s rest ih =>
    have hs := hlen s mem_cons_self
    have hpage : pgsize ≤ j * pgsize := Nat.le_mul_of_pos_left _ hpos
    have htop : (j + 1) * pgsize < 2 ^ 64 := by
      simp only [pgsize] at *
      omega
    rw [length_cons] at hcount
    rw [pushArgs, if_neg (by omega), pushDown_eq hmod (by omega) (by omega)]
    dsimp only
    have hslot := le_slot (s.length + 1)
    have hslotmod := slot_mod (s.length + 1)
    by_cases hfull : sp - slot (s.length + 1) < j * pgsize
    · rw [if_pos hfull]
      refine .pure ⟨rfl, fun _ _ => rfl, fun _ => rfl, fun h => ?_⟩
      rw [need_cons] at h
      omega
    · rw [if_neg hfull]
      refine .bind (copyout_runs hj he hu (not_lt.1 hfull) (Nat.succ_pos _) (by omega) _ r) ?_
      rintro _ _ ⟨rfl, rfl⟩
      rw [if_pos rfl]
      refine (ih (fun s' hs' => hlen s' (mem_cons_of_mem s hs')) (by simp; omega) (by omega)
        (not_lt.1 hfull) (by omega)).mono ?_
      rintro x r' ⟨hkmem, hbelow, hnone, hsome⟩
      refine ⟨hkmem, fun a ha => ?_, fun h => ?_, fun h => ?_⟩
      · rw [hbelow a (by omega)]
        exact if_neg (by omega)
      · rw [need_cons] at h
        exact hnone (by omega)
      · rw [need_cons] at h
        obtain ⟨hx, hstrings⟩ := hsome (by omega)
        refine ⟨?_, .cons (StringAt.mono ?_ hbelow le_rfl) hstrings⟩
        · rw [hx, need_cons, Nat.sub_sub, pointers, append_assoc, singleton_append]
        · intro d hd
          refine (if_pos (by omega)).trans ?_
          rw [Nat.add_sub_cancel_left]

structure Stacked (base j : ℕ) (argv : List (List UInt8)) (r : Ram) (x : Option (ℕ × ℕ)) (r' : Ram) :
    Prop where
  kmem : r'.kmem = r.kmem
  below : OnlyBelow base pgsize r.phys r'.phys
  full : pgsize < argBytes argv → x = none
  fits : argBytes argv ≤ pgsize →
    x = some (argv.length, (j + 1) * pgsize - argBytes argv) ∧
    List.Forall₂ (StringAt r'.phys base j) argv (pointers argv ((j + 1) * pgsize)) ∧
    ∀ d < (argv.length + 1) * 8, r'.phys (base + (pgsize - argBytes argv) + d) =
      wordBytes (pointers argv ((j + 1) * pgsize) ++ [0]) d

theorem pointers_ge (argv : List (List UInt8)) (sp : ℕ) (hq : q ∈ pointers argv sp) :
    sp - need argv ≤ q := by
  induction argv generalizing sp with
  | nil => simp [pointers] at hq
  | cons s rest ih =>
    rw [pointers, mem_cons] at hq
    rw [need_cons]
    rcases hq with rfl | hq
    · omega
    · have := ih _ hq
      omega

theorem pushStack_runs (hj : j < 2 ^ 26) (hpos : 0 < j) (he : contents t j = some e)
    (hu : e.perm.u = true) (hcount : argv.length < maxarg) (hlen : ∀ s ∈ argv, s.length < pgsize)
    (r : Ram) :
    Runs (pushStack t ((j + 1) * pgsize) argv) r (Stacked (e.page * pgsize) j argv r) := by
  have hbase : (j + 1) * pgsize - pgsize = j * pgsize := by
    rw [add_mul, one_mul, Nat.add_sub_cancel]
  have hsize : (j + 1) * pgsize - j * pgsize = pgsize := by
    rw [add_mul, one_mul, Nat.add_sub_cancel_left]
  have hpage : pgsize ≤ j * pgsize := Nat.le_mul_of_pos_left _ hpos
  have htop : (j + 1) * pgsize < 2 ^ 64 := by
    simp only [pgsize] at *
    omega
  have hmod : (j + 1) * pgsize % 16 = 0 := by
    simp only [pgsize]
    omega
  unfold pushStack
  rw [hbase]
  refine .bind (pushArgs_runs hj hpos he hu argv hlen (by simpa using hcount.le) hmod (by omega)
    le_rfl) ?_
  rintro x r1 ⟨hkmem, hbelow, hnone, hsome⟩
  rw [hsize] at hbelow hnone hsome
  by_cases hstrings : need argv ≤ pgsize
  · obtain ⟨rfl, hat⟩ := hsome hstrings
    have hneed := need_mod argv
    have hslot := le_slot ((argv.length + 1) * 8)
    have hwords : (argv.length + 1) * 8 ≤ pgsize := by
      simp only [maxarg, pgsize] at *
      omega
    have hsp : pushDown ((j + 1) * pgsize - need argv) ((argv.length + 1) * 8) =
        (j + 1) * pgsize - argBytes argv := by
      rw [pushDown_eq (by omega) (by omega) (by omega), argBytes, Nat.sub_sub]
    simp only [nil_append, length_pointers, hsp]
    have hargs : argBytes argv = need argv + slot ((argv.length + 1) * 8) := rfl
    split
    · refine .pure ⟨hkmem, hbelow, fun _ => rfl, fun h => ?_⟩
      omega
    · rename_i hfits
      refine .bind (copyout_runs hj he hu (not_lt.1 hfits) (by omega) (by omega) _ r1) ?_
      rintro _ _ ⟨rfl, rfl⟩
      have hoff : (j + 1) * pgsize - argBytes argv - j * pgsize = pgsize - argBytes argv := by omega
      rw [if_pos rfl, hoff]
      refine .pure ⟨hkmem, fun a ha => ?_, fun h => ?_, fun h => ⟨rfl, ?_, fun d hd => ?_⟩⟩
      · rw [← hbelow a ha]
        exact if_neg (by omega)
      · omega
      · -- the array lies below every string
        refine strings_mono (n := pgsize - need argv) hat (fun a ha => if_neg (by omega)) fun q hq => ?_
        have := pointers_ge argv _ hq
        omega
      · refine (if_pos (by omega)).trans ?_
        rw [Nat.add_sub_cancel_left]
  · obtain rfl := hnone (not_le.1 hstrings)
    refine .pure ⟨hkmem, hbelow, fun _ => rfl, fun h => absurd h ?_⟩
    rw [argBytes]
    omega

def userMem (t : Table) (phys : Memory) : Memory := fun va => (userByte t phys va).getD 0

def pieces (argv : List (List UInt8)) (sp : ℕ) (ptrs : List ℕ) : List (ℕ × ℕ) :=
  (sp, sp + (argv.length + 1) * 8) ::
    (argv.zip ptrs).map fun x => (x.2, x.2 + (x.1.length + 1))

/-- The argument stack of a user space of `sz` bytes: at `sp` the pointers, ending with
0, each to a copy of its string; all in the last page, which user code can reach. -/
structure Arguments (t : Table) (phys : Memory) (sz : ℕ) (argv : List (List UInt8)) (sp : ℕ)
    (ptrs : List ℕ) : Prop where
  aligned : sp % 16 = 0
  count : ptrs.length = argv.length
  words : ∀ i ≤ argv.length, load 8 (userMem t phys) (sp + 8 * i) = (ptrs ++ [0]).getD i 0
  strings : List.Forall₂ (fun s q => ∀ d ≤ s.length, userByte t phys (q + d) = some (cstring s d))
    argv ptrs
  disjoint : (pieces argv sp ptrs).Pairwise fun a b => a.2 ≤ b.1 ∨ b.2 ≤ a.1
  inside : ∀ a ∈ pieces argv sp ptrs, sz - pgsize ≤ a.1 ∧ a.2 ≤ sz
  user : ∀ va, sz - pgsize ≤ va → va < sz → (userPage t va).isSome

theorem userByte_page (he : contents t j = some e) {va : ℕ} (phys : Memory) (hlo : j * pgsize ≤ va)
    (hhi : va < (j + 1) * pgsize) :
    userByte t phys va = some (phys (e.page * pgsize + (va - j * pgsize))) := by
  have hdiv : va / pgsize = j := Nat.div_eq_of_lt_le hlo hhi
  have hmod : va % pgsize = va - j * pgsize := by
    have := Nat.div_add_mod va pgsize
    rw [hdiv, mul_comm] at this
    omega
  rw [userByte, hdiv, he, Option.map_some, hmod]

theorem string_bounds (hneed : need argv ≤ sp) {x : List UInt8 × ℕ}
    (hx : x ∈ argv.zip (pointers argv sp)) :
    sp - need argv ≤ x.2 ∧ x.2 + (x.1.length + 1) ≤ sp := by
  induction argv generalizing sp with
  | nil => simp at hx
  | cons s rest ih =>
    have := le_slot (s.length + 1)
    rw [need_cons] at hneed ⊢
    rw [pointers, zip_cons_cons, mem_cons] at hx
    rcases hx with rfl | hx
    · dsimp only
      omega
    · have := ih (by omega) hx
      omega

theorem strings_disjoint (hneed : need argv ≤ sp) :
    ((argv.zip (pointers argv sp)).map fun x => (x.2, x.2 + (x.1.length + 1))).Pairwise
      fun a b => a.2 ≤ b.1 ∨ b.2 ≤ a.1 := by
  induction argv generalizing sp with
  | nil => exact .nil
  | cons s rest ih =>
    rw [need_cons] at hneed
    rw [pointers, zip_cons_cons, map_cons]
    refine .cons (fun a ha => .inr ?_) (ih (by omega))
    obtain ⟨x, hx, rfl⟩ := mem_map.1 ha
    exact (string_bounds (by omega) hx).2

theorem pointers_lt (hneed : need argv ≤ sp) (hq : q ∈ pointers argv sp) : q < sp := by
  induction argv generalizing sp with
  | nil => simp [pointers] at hq
  | cons s rest ih =>
    have := le_slot (s.length + 1)
    rw [need_cons] at hneed
    rw [pointers, mem_cons] at hq
    rcases hq with rfl | hq
    · omega
    · have := ih (by omega) hq
      omega

theorem Stacked.arguments {x : Option (ℕ × ℕ)} {r' : Ram}
    (h : Stacked (e.page * pgsize) j argv r x r') (hj : j < 2 ^ 26) (he : contents t j = some e)
    (hu : e.perm.u = true) (hfits : argBytes argv ≤ pgsize) :
    Arguments t r'.phys ((j + 1) * pgsize) argv ((j + 1) * pgsize - argBytes argv)
      (pointers argv ((j + 1) * pgsize)) := by
  obtain ⟨-, hstrings, hwords⟩ := h.fits hfits
  have hargs : argBytes argv = need argv + slot ((argv.length + 1) * 8) := rfl
  have hneed := need_mod argv
  have hslot := le_slot ((argv.length + 1) * 8)
  have hslotmod := slot_mod ((argv.length + 1) * 8)
  have hsize : (j + 1) * pgsize = j * pgsize + pgsize := by rw [add_mul, one_mul]
  have hlow : (j + 1) * pgsize - pgsize = j * pgsize := by omega
  refine ⟨?_, length_pointers _ _, fun i hi => ?_, ?_, ?_, fun a ha => ?_, fun va hlo hhi => ?_⟩
  · have : (j + 1) * pgsize % 16 = 0 := by
      simp only [pgsize]
      omega
    omega
  · have hword : (pointers argv ((j + 1) * pgsize) ++ [0]).getD i 0 < 256 ^ 8 := by
      rw [getD_eq_getElem?_getD]
      cases hi : (pointers argv ((j + 1) * pgsize) ++ [0])[i]? with
      | none => decide
      | some q =>
        rcases mem_append.1 (mem_of_getElem? hi) with hq | hq
        · have hlt := pointers_lt (by omega) hq
          have htop : (j + 1) * pgsize < 256 ^ 8 := by
            simp only [pgsize]
            omega
          exact hlt.trans htop
        · rw [mem_singleton.1 hq]
          decide
    rw [← Nat.mod_eq_of_lt hword]
    refine load_of_bytes fun d hd => ?_
    have hoff : (j + 1) * pgsize - argBytes argv + 8 * i + d - j * pgsize =
        pgsize - argBytes argv + (8 * i + d) := by omega
    rw [userMem, userByte_page he r'.phys (by omega) (by omega), Option.getD_some, hoff,
      ← add_assoc, hwords _ (by omega), wordBytes,
      show (8 * i + d) / 8 = i by omega, show (8 * i + d) % 8 = d by omega]
  · rw [List.forall₂_iff_zip] at hstrings ⊢
    refine ⟨hstrings.1, fun {s q} hmem d hd => ?_⟩
    have hbounds := string_bounds (by omega) hmem
    dsimp only at hbounds
    have hsub : q + d - j * pgsize = q - j * pgsize + d := by omega
    rw [userByte_page he r'.phys (by omega) (by omega), hsub, ← add_assoc, hstrings.2 hmem d hd]
  · refine .cons (fun a ha => .inl ?_) (strings_disjoint (by omega))
    obtain ⟨x, hx, rfl⟩ := mem_map.1 ha
    have := string_bounds (by omega) hx
    dsimp only
    omega
  · rw [pieces, mem_cons, mem_map] at ha
    rcases ha with rfl | ⟨x, hx, rfl⟩
    · dsimp only
      omega
    · have := string_bounds (by omega) hx
      dsimp only
      omega
  · have hdiv : va / pgsize = j * pgsize / pgsize := by
      rw [Nat.mul_div_cancel _ pgsize_pos]
      exact Nat.div_eq_of_lt_le (by omega) hhi
    rw [userPage_congr t hdiv, userPage, if_neg (not_le.2 (mul_pgsize_lt_maxva.2 hj)), pte_mul hj, he]
    simp [hu]

end Xv6MallocLab.PhysicalMemory
