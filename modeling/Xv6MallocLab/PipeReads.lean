import Xv6MallocLab.PipeChannel
import Xv6MallocLab.UserStores

/-!
# Reads from a pipe into user memory

The loop of `piperead` takes a byte out of the ring before it calls `copyout`, and counts
it after: where `copyout` fails, the byte is gone and not counted.
-/

namespace Xv6MallocLab.PipeChannel

open ByteMemory Function
open Paging (Table Page userPage paddr copyoutTo pgsize Image State Proc)
open ProcTable (Slot initproc)

def copyLoop (t : Table) (addr : ℕ) : ℕ → ℕ → Pipe → Memory → Pipe × Memory × ℕ
  | 0, i, p, phys => (p, phys, i)
  | c + 1, i, p, phys =>
    if p.empty then (p, phys, i)
    else
      match copyoutTo t ((addr + i) % 2 ^ 64) (fun _ => p.front) 1 phys with
      | (phys, true) => copyLoop t addr c (i + 1) p.drop phys
      | (phys, false) => (p.drop, phys, i)

/-- `piperead` from one test of its waiting loop on; `none` when it sleeps. -/
def piperead (t : Table) (killed : Bool) (p : Pipe) (addr : ℕ) (n : ℤ) (phys : Memory) :
    Option (Pipe × Memory × ℤ) :=
  if p.empty && p.writeopen then
    if killed then some (p, phys, -1) else none
  else
    let (p, phys, i) := copyLoop t addr n.toNat 0 p phys
    some (p, phys, i)

structure Lossless (t : Table) (addr : ℕ) (p p' : Pipe) (phys' : Memory) (r : ℕ) : Prop where
  removed : r ≤ p.held ∧ p'.contents = p.contents.drop r
  stored : ∀ j < r, ∃ q, paddr t ((addr + j) % 2 ^ 64) = some q ∧ p.contents[j]? = some (phys' q)

variable {t : Table} {addr : ℕ}

theorem paddr_isSome {va : ℕ} : (paddr t va).isSome = (userPage t va).isSome := by
  rw [paddr, Option.isSome_map]

theorem copyout_byte (va : ℕ) (ch : UInt8) (phys : Memory) :
    copyoutTo t va (fun _ => ch) 1 phys =
      match paddr t va with
      | some q => (update phys q ch, true)
      | none => (phys, false) := by
  rw [Paging.copyoutTo_eq]
  cases hq : paddr t va with
  | none =>
    rw [Paging.reach_of_none (Option.map_eq_none_iff.1 hq)]
    rfl
  | some q =>
    have hreach : Paging.reach t va 1 = 1 := by
      rw [Paging.reach, ← paddr_isSome, hq]
      rfl
    simp [hreach, Paging.storeUser, hq]

theorem contents_length (p : Pipe) : p.contents.length = p.held := by
  rw [Pipe.contents, RingWindow.window_length]

theorem copyLoop_stored (addr : ℕ) (hinj : ∀ a b q, paddr t a = some q → paddr t b = some q → a = b)
    (c i : ℕ) (p : Pipe) (phys : Memory) (hi : i + p.held ≤ 2 ^ 64)
    (h : ∀ j < min c p.held, (userPage t ((addr + (i + j)) % 2 ^ 64)).isSome) :
    (copyLoop t addr c i p phys).2.2 = i + min c p.held ∧
      (copyLoop t addr c i p phys).1.contents = p.contents.drop (min c p.held) ∧
      (∀ q, (∀ j < min c p.held, paddr t ((addr + (i + j)) % 2 ^ 64) ≠ some q) →
        (copyLoop t addr c i p phys).2.1 q = phys q) ∧
      ∀ j < min c p.held, ∃ q, paddr t ((addr + (i + j)) % 2 ^ 64) = some q ∧
        p.contents[j]? = some ((copyLoop t addr c i p phys).2.1 q) := by
  induction c generalizing i p phys with
  | zero =>
    rw [Nat.zero_min]
    exact ⟨rfl, rfl, fun _ _ => rfl, fun j hj => absurd hj (Nat.not_lt_zero j)⟩
  | succ c ih =>
    by_cases hempty : p.empty = true
    · have hzero := p.empty_iff.1 hempty
      rw [copyLoop, if_pos hempty, hzero, Nat.min_zero]
      exact ⟨rfl, rfl, fun _ _ => rfl, fun j hj => absurd hj (Nat.not_lt_zero j)⟩
    · have hne : p.held ≠ 0 := fun hzero => hempty (p.empty_iff.2 hzero)
      have hdrop := Pipe.held_drop hne
      have hmin : min (c + 1) p.held = min c p.drop.held + 1 := by omega
      obtain ⟨q0, hq0⟩ := Option.isSome_iff_exists.1
        (paddr_isSome.trans (h 0 (by omega)) : (paddr t ((addr + (i + 0)) % 2 ^ 64)).isSome = true)
      rw [add_zero] at hq0
      have hshift : ∀ j, i + 1 + j = i + (j + 1) := fun j => by omega
      obtain ⟨hcount, hcont, hframe, hstored⟩ := ih (i + 1) p.drop (update phys q0 p.front)
        (by omega) fun j hj => by rw [hshift]; exact h (j + 1) (by omega)
      rw [copyLoop, if_neg hempty, copyout_byte, hq0]
      dsimp only
      rw [hcount, hcont, hmin]
      refine ⟨by omega, ?_, fun q hq => ?_, fun j hj => ?_⟩
      · rw [Pipe.contents_drop hne, List.drop_succ_cons]
      · rw [hframe q fun j hj => by rw [hshift]; exact hq (j + 1) (by omega)]
        refine update_of_ne ?_ ..
        rintro rfl
        exact hq 0 (by omega) (by rw [add_zero]; exact hq0)
      · cases j with
        | zero =>
          refine ⟨q0, by rw [add_zero]; exact hq0, ?_⟩
          rw [hframe q0, update_self, Pipe.contents_drop hne]
          · rfl
          · intro j hj heq
            have := hinj _ _ _ heq hq0
            omega
        | succ j =>
          obtain ⟨q, hq, hbyte⟩ := hstored j (by omega)
          refine ⟨q, by rw [← hshift]; exact hq, ?_⟩
          rw [Pipe.contents_drop hne, List.getElem?_cons_succ]
          exact hbyte

theorem copyLoop_lost (addr c i : ℕ) (p : Pipe) (phys : Memory)
    (h : ¬∀ j < min c p.held, (userPage t ((addr + (i + j)) % 2 ^ 64)).isSome) :
    ∃ j < min c p.held, (copyLoop t addr c i p phys).2.2 = i + j ∧
      (copyLoop t addr c i p phys).1.held + (j + 1) = p.held := by
  induction c generalizing i p phys with
  | zero => exact absurd (fun j hj => absurd hj (by omega)) h
  | succ c ih =>
    by_cases hempty : p.empty = true
    · have hzero := p.empty_iff.1 hempty
      exact absurd (fun j hj => absurd hj (by omega)) h
    · have hne : p.held ≠ 0 := fun hzero => hempty (p.empty_iff.2 hzero)
      have hdrop := Pipe.held_drop hne
      rw [copyLoop, if_neg hempty, copyout_byte]
      cases hq : paddr t ((addr + i) % 2 ^ 64) with
      | none => exact ⟨0, by omega, rfl, by dsimp only; omega⟩
      | some q =>
        dsimp only
        obtain ⟨j, hj, hcount, hheld⟩ := ih (i + 1) p.drop (update phys q p.front) fun hall =>
          h fun j hj => by
            cases j with
            | zero =>
              rw [add_zero, ← paddr_isSome, hq]
              rfl
            | succ j =>
              have := hall j (by omega)
              rwa [show i + 1 + j = i + (j + 1) by omega] at this
        exact ⟨j + 1, by omega, by omega, by omega⟩

variable {im : Image} {s : State} {i : Slot} {x : Proc}

theorem paddr_injective (h : Paging.Sound im s) (hx : s.proc i = some x) {a b q : ℕ}
    (ha : paddr x.pagetable a = some q) (hb : paddr x.pagetable b = some q) : a = b := by
  obtain ⟨pa, hpa, rfl⟩ := Option.map_eq_some_iff.1 ha
  obtain ⟨pb, hpb, hq⟩ := Option.map_eq_some_iff.1 hb
  obtain ⟨hamax, e, he, heu, rfl⟩ := Paging.userPage_some hpa
  obtain ⟨hbmax, e', he', heu', rfl⟩ := Paging.userPage_some hpb
  have hpage : e'.page = e.page := by
    rw [← Paging.page_of_address e'.page (Nat.mod_lt b Paging.pgsize_pos), hq,
      Paging.page_of_address e.page (Nat.mod_lt a Paging.pgsize_pos)]
  rw [Paging.pte, Paging.contents_of_lt (Paging.page_lt_span hamax)] at he
  rw [Paging.pte, Paging.contents_of_lt (Paging.page_lt_span hbmax)] at he'
  have hdiv := h.page_inj hx (h.lt_of_user hx he' heu') (h.lt_of_user hx he heu) he' he hpage
  have h1 := Nat.div_add_mod a pgsize
  have h2 := Nat.div_add_mod b pgsize
  rw [hpage] at hq
  rw [hdiv] at h2
  omega

/-- A read that returns a count is lossless if and only if `copyout` can reach each
address that the bytes in the pipe would go to. -/
theorem piperead_lossless_iff (h : Paging.Reached im s) (hx : s.proc i = some x) {killed : Bool}
    {p p' : Pipe} {n r : ℤ} {phys phys' : Memory}
    (hcall : piperead x.pagetable killed p addr n phys = some (p', phys', r)) (hr : 0 ≤ r) :
    Lossless x.pagetable addr p p' phys' r.toNat ↔
      ∀ j < min n.toNat p.held, (userPage x.pagetable ((addr + j) % 2 ^ 64)).isSome := by
  have hend : (p', phys', r) = ((copyLoop x.pagetable addr n.toNat 0 p phys).1,
      (copyLoop x.pagetable addr n.toNat 0 p phys).2.1,
      ((copyLoop x.pagetable addr n.toNat 0 p phys).2.2 : ℤ)) := by
    unfold piperead at hcall
    split_ifs at hcall
    · cases hcall
      omega
    · exact (Option.some.inj hcall).symm
  obtain ⟨rfl, rfl, rfl⟩ := hend
  have hzero : ∀ j, addr + (0 + j) = addr + j := fun j => by omega
  have hheld : p.held < 2 ^ 32 := (p.nwrite - p.nread).toNat_lt
  rw [Int.toNat_natCast]
  constructor
  · intro hl
    by_contra hno
    obtain ⟨j, hj, hcount, hlost⟩ := copyLoop_lost addr n.toNat 0 p phys
      (fun hall => hno fun j hj => by rw [← hzero]; exact hall j hj)
    have hlen := congrArg List.length hl.removed.2
    rw [contents_length, List.length_drop, contents_length, hcount] at hlen
    omega
  · intro hall
    obtain ⟨hcount, hcont, -, hstored⟩ := copyLoop_stored addr
      (fun a b q => paddr_injective h.sound hx) n.toNat 0 p phys (by omega)
      fun j hj => by rw [hzero]; exact hall j hj
    rw [zero_add] at hcount
    rw [hcount]
    refine ⟨⟨min_le_right _ _, hcont⟩, fun j hj => ?_⟩
    obtain ⟨q, hq, hbyte⟩ := hstored j hj
    exact ⟨q, by rw [← hzero]; exact hq, hbyte⟩

def twoBytePipe : Pipe where
  data := fun k => if k = 0 then 10 else 11
  nread := 0
  nwrite := 2
  readopen := true
  writeopen := true

theorem smallImage_page : ∃ s x, Paging.Reached Paging.smallImage s ∧ s.proc initproc = some x ∧
    (userPage x.pagetable 4095).isSome ∧ userPage x.pagetable 4096 = none := by
  obtain ⟨s, x, hs, hx, hpages⟩ := Paging.reached_of_bootRun (f := fun _ x =>
    (userPage x.pagetable 4095).isSome ∧ userPage x.pagetable 4096 = none)
    (show ((Paging.bootRun Paging.smallImage (fun _ => false) []).any _) = true by decide +kernel)
  exact ⟨s, x, hs, hx, of_decide_eq_true hpages⟩

theorem copyout_first {x : Proc} {q : ℕ} (hq : paddr x.pagetable 4095 = some q) (phys : Memory) :
    copyoutTo x.pagetable ((4095 + 0) % 2 ^ 64) (fun _ => twoBytePipe.front) 1 phys =
      (update phys q 10, true) := by
  rw [show (4095 + 0) % 2 ^ 64 = 4095 by decide, copyout_byte, hq]
  rfl

theorem piperead_lossless_iff_first : ∃ s x phys', Paging.Reached Paging.smallImage s ∧
    s.proc initproc = some x ∧
    piperead x.pagetable false twoBytePipe 4095 1 (fun _ => 0) = some (twoBytePipe.drop, phys', 1) ∧
    Lossless x.pagetable 4095 twoBytePipe twoBytePipe.drop phys' 1 := by
  obtain ⟨s, x, hs, hx, hfirst, -⟩ := smallImage_page
  obtain ⟨q, hq⟩ := Option.isSome_iff_exists.1 (paddr_isSome.trans hfirst)
  have hcall : piperead x.pagetable false twoBytePipe 4095 1 (fun _ => 0) =
      some (twoBytePipe.drop, update (fun _ => 0) q 10, 1) := by
    rw [piperead, if_neg (by decide), show (1 : ℤ).toNat = 1 by decide, copyLoop, if_neg (by decide),
      copyout_first hq]
    rfl
  refine ⟨s, x, _, hs, hx, hcall, (piperead_lossless_iff hs hx hcall (by decide)).2 fun j hj => ?_⟩
  have hj : j < 1 := lt_of_lt_of_le hj (min_le_left _ _)
  rw [Nat.lt_one_iff.1 hj]
  exact hfirst

/-- A read of two bytes whose second address is not mapped reports one and takes both. -/
theorem piperead_loses_byte : ∃ s x, Paging.Reached Paging.smallImage s ∧ s.proc initproc = some x ∧
    ∀ phys, ∃ p' phys', piperead x.pagetable false twoBytePipe 4095 2 phys = some (p', phys', 1) ∧
      twoBytePipe.contents = [10, 11] ∧ p'.contents = [] := by
  obtain ⟨s, x, hs, hx, hfirst, hsecond⟩ := smallImage_page
  refine ⟨s, x, hs, hx, fun phys => ?_⟩
  obtain ⟨q, hq⟩ := Option.isSome_iff_exists.1 (paddr_isSome.trans hfirst)
  have hnone : paddr x.pagetable 4096 = none := by rw [paddr, hsecond]; rfl
  refine ⟨twoBytePipe.drop.drop, update phys q 10, ?_, by decide, by decide⟩
  have hlast : copyoutTo x.pagetable 4096 (fun _ => twoBytePipe.drop.front) 1 (update phys q 10) =
      (update phys q 10, false) := by
    rw [copyout_byte, hnone]
  have hloop : copyLoop x.pagetable 4095 2 0 twoBytePipe phys =
      (twoBytePipe.drop.drop, update phys q 10, 1) := by
    rw [copyLoop, if_neg (by decide), copyout_first hq]
    dsimp only
    rw [copyLoop, if_neg (by decide), show (4095 + (0 + 1)) % 2 ^ 64 = 4096 by decide, hlast]
  rw [piperead, if_neg (by decide), show (2 : ℤ).toNat = 2 by decide, hloop]
  rfl

end Xv6MallocLab.PipeChannel
