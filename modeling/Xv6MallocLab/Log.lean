import Xv6MallocLab.ByteMemory

/-!
# The log in memory

`struct log`: the blocks of the current transaction, the number of calls that have
begun and not ended, and whether a commit is running.  `begin_op`, `log_write` and
`end_op` are each one section under the log's lock.
-/

namespace Xv6MallocLab.LogLayer

open ByteMemory List

def maxOpBlocks : ℕ := 10

def logSize : ℕ := maxOpBlocks * 3

/-- `struct log`.  The list holds `lh.block[0]` to `lh.block[lh.n - 1]`. -/
structure Log where
  start : ℕ
  size : ℕ
  outstanding : ℤ
  committing : Bool
  lh : List ℕ
  deriving DecidableEq, Repr

inductive Panic
  /-- `"log.committing"` -/
  | committing
  /-- `"too big a transaction"` -/
  | tooBig
  /-- `"log_write outside of trans"` -/
  | outside
  deriving DecidableEq, Repr

def Log.n (log : Log) : ℕ := log.lh.length

/-- One round of `begin_op`: `none` when it has to sleep. -/
def beginOp (log : Log) : Option Log :=
  if log.committing then
    none
  else if (log.n : ℤ) + (log.outstanding + 1) * maxOpBlocks > logSize then
    none
  else
    some { log with outstanding := log.outstanding + 1 }

/-- The part of `end_op` under the lock; the result says whether the caller
has to commit. -/
def endOp (log : Log) : Except Panic (Log × Bool) :=
  let log := { log with outstanding := log.outstanding - 1 }
  if log.committing then
    .error .committing
  else if log.outstanding = 0 then
    .ok ({ log with committing := true }, true)
  else
    .ok (log, false)

def place (lh : List ℕ) (blockno : ℕ) : ℕ := lh.findIdx (· == blockno)

/-- `log_write`; the result says whether the block has to be pinned. -/
def logWrite (log : Log) (blockno : ℕ) : Except Panic (Log × Bool) :=
  if log.n ≥ logSize ∨ log.n + 1 ≥ log.size then
    .error .tooBig
  else if log.outstanding < 1 then
    .error .outside
  else
    let i := place log.lh blockno
    if i = log.n then
      .ok ({ log with lh := log.lh ++ [blockno] }, true)
    else
      .ok ({ log with lh := log.lh.set i blockno }, false)

variable {lh : List ℕ} {blockno : ℕ} {log log' : Log}

theorem place_eq_length_iff : place lh blockno = lh.length ↔ blockno ∉ lh := by
  unfold place
  rw [findIdx_eq_length]
  constructor
  · intro hall hmem
    simpa using hall blockno hmem
  · intro hmem x hx
    simp only [beq_eq_false_iff_ne, ne_eq]
    rintro rfl
    exact hmem hx

theorem set_place (hmem : blockno ∈ lh) : lh.set (place lh blockno) blockno = lh := by
  have hlt : place lh blockno < lh.length := findIdx_lt_length_of_exists ⟨blockno, hmem, by simp⟩
  have hget : lh[place lh blockno] = blockno := by
    exact beq_iff_eq.mp (findIdx_getElem (p := (· == blockno)) (w := hlt))
  apply ext_getElem
  · simp
  · intro i hi hi'
    by_cases heq : place lh blockno = i
    · subst heq
      simp [hget]
    · rw [getElem_set_ne heq]

def record (lh : List ℕ) (blockno : ℕ) : List ℕ := if blockno ∈ lh then lh else lh ++ [blockno]

variable {b a : ℕ} {ws : List ℕ} {block : Memory}

theorem mem_record : b ∈ record lh blockno ↔ b = blockno ∨ b ∈ lh := by
  unfold record
  split
  · constructor
    · exact Or.inr
    · rintro (rfl | hb)
      · assumption
      · exact hb
  · rw [mem_append, mem_singleton, or_comm]

theorem nodup_record (hnodup : lh.Nodup) : (record lh blockno).Nodup := by
  unfold record
  split
  · exact hnodup
  · rename_i hmem
    exact nodup_append.mpr ⟨hnodup, nodup_singleton _, by
      intro a ha b hb
      rw [mem_singleton] at hb
      rintro rfl
      exact hmem (hb ▸ ha)⟩

theorem length_record_le (lh : List ℕ) (blockno : ℕ) :
    (record lh blockno).length ≤ lh.length + 1 := by
  unfold record
  split
  · omega
  · simp

theorem logWrite_eq_ok_iff {pin : Bool} :
    logWrite log blockno = .ok (log', pin) ↔
      log.n < logSize ∧ log.n + 1 < log.size ∧ 1 ≤ log.outstanding ∧
        log' = { log with lh := record log.lh blockno } ∧ pin = decide (blockno ∉ log.lh) := by
  unfold logWrite
  by_cases hfull : log.n ≥ logSize ∨ log.n + 1 ≥ log.size
  · rw [if_pos hfull]
    constructor
    · intro h
      cases h
    · rintro ⟨hn, hsize, -⟩
      omega
  · rw [if_neg hfull]
    by_cases hout : log.outstanding < 1
    · rw [if_pos hout]
      constructor
      · intro h
        cases h
      · rintro ⟨-, -, hone, -⟩
        omega
    · rw [if_neg hout]
      dsimp only
      by_cases hmem : blockno ∈ log.lh
      · have hplace : ¬ place log.lh blockno = log.n := fun h =>
          place_eq_length_iff.mp h hmem
        rw [if_neg hplace, set_place hmem]
        simp only [record, hmem, if_true, Except.ok.injEq, Prod.mk.injEq, not_true_eq_false,
          decide_false]
        constructor
        · rintro ⟨rfl, rfl⟩
          exact ⟨by omega, by omega, by omega, rfl, rfl⟩
        · rintro ⟨-, -, -, rfl, rfl⟩
          exact ⟨rfl, rfl⟩
      · have hplace : place log.lh blockno = log.n := place_eq_length_iff.mpr hmem
        rw [if_pos hplace]
        simp only [record, hmem, if_false, Except.ok.injEq, Prod.mk.injEq, not_false_eq_true,
          decide_true]
        constructor
        · rintro ⟨rfl, rfl⟩
          exact ⟨by omega, by omega, by omega, rfl, rfl⟩
        · rintro ⟨-, -, -, rfl, rfl⟩
          exact ⟨rfl, rfl⟩

theorem endOp_eq_ok_iff {commit : Bool} :
    endOp log = .ok (log', commit) ↔ log.committing = false ∧
      commit = decide (log.outstanding = 1) ∧
        log' = { log with outstanding := log.outstanding - 1, committing := commit } := by
  unfold endOp
  cases hcommit : log.committing with
  | true => simp
  | false =>
    by_cases hlast : log.outstanding = 1
    · simp only [hlast, sub_self, Bool.false_eq_true, if_false, if_true, Except.ok.injEq,
        Prod.mk.injEq, decide_true, true_and]
      constructor
      · rintro ⟨rfl, rfl⟩
        exact ⟨rfl, rfl⟩
      · rintro ⟨rfl, rfl⟩
        exact ⟨rfl, rfl⟩
    · have hmore : ¬ log.outstanding - 1 = 0 := by omega
      simp only [hlast, hmore, Bool.false_eq_true, if_false, Except.ok.injEq, Prod.mk.injEq,
        decide_false, true_and]
      constructor
      · rintro ⟨rfl, rfl⟩
        exact ⟨rfl, rfl⟩
      · rintro ⟨rfl, rfl⟩
        exact ⟨rfl, rfl⟩

theorem beginOp_eq_some_iff :
    beginOp log = some log' ↔ log.committing = false ∧
      (log.n : ℤ) + (log.outstanding + 1) * maxOpBlocks ≤ logSize ∧
        log' = { log with outstanding := log.outstanding + 1 } := by
  unfold beginOp
  cases hcommit : log.committing with
  | true => simp
  | false =>
    by_cases hroom : (log.n : ℤ) + (log.outstanding + 1) * maxOpBlocks > logSize
    · simp only [hroom, Bool.false_eq_true, if_false, if_true]
      constructor
      · intro h
        cases h
      · rintro ⟨-, hle, -⟩
        omega
    · simp only [hroom, Bool.false_eq_true, if_false, Option.some.injEq, true_and]
      constructor
      · rintro rfl
        exact ⟨by omega, rfl⟩
      · rintro ⟨-, rfl⟩
        rfl

def storeWords (a : ℕ) : List ℕ → Memory → Memory
  | [], block => block
  | w :: ws, block => storeWords (a + 4) ws (store 4 block a w)

/-- What `write_head` puts in the header's buffer. -/
def encodeHead (lh : List ℕ) (block : Memory) : Memory :=
  storeWords 4 lh (store 4 block 0 lh.length)

/-- The copying of `read_head` out of the header's buffer.  The count is a
signed word; a negative one makes its loops do nothing. -/
def decodeHead (block : Memory) : List ℕ :=
  let n := load 4 block 0
  if n < 2 ^ 31 then (List.range n).map fun i => load 4 block (4 + 4 * i) else []

theorem load_storeWords_of_lt (hb : b + 4 ≤ a) :
    load 4 (storeWords a ws block) b = load 4 block b := by
  induction ws generalizing a block with
  | nil => rfl
  | cons w ws ih =>
    rw [storeWords, ih (by omega), load_store_of_disjoint (Or.inl hb)]

theorem load_storeWords {i : ℕ} (hi : i < ws.length) (hsmall : ∀ w ∈ ws, w < 2 ^ 32) :
    load 4 (storeWords a ws block) (a + 4 * i) = ws[i] := by
  induction ws generalizing a i block with
  | nil => simp at hi
  | cons w ws ih =>
    cases i with
    | zero =>
      rw [storeWords, Nat.mul_zero, Nat.add_zero, load_storeWords_of_lt (by omega)]
      exact load_store_of_lt (hsmall w (by simp))
    | succ i =>
      have hnext : a + 4 * (i + 1) = a + 4 + 4 * i := by ring
      rw [storeWords, hnext, ih (by simpa using hi) fun x hx => hsmall x (by simp [hx])]
      rfl

theorem decodeHead_encodeHead (block : Memory) (hlen : lh.length < 2 ^ 31)
    (hsmall : ∀ w ∈ lh, w < 2 ^ 32) : decodeHead (encodeHead lh block) = lh := by
  have hn : load 4 (encodeHead lh block) 0 = lh.length := by
    rw [encodeHead, load_storeWords_of_lt (by omega)]
    exact load_store_of_lt (by omega)
  unfold decodeHead
  dsimp only
  rw [hn, if_pos hlen]
  apply ext_getElem
  · simp
  · intro i hi hi'
    rw [getElem_map, getElem_range]
    exact load_storeWords hi' hsmall

end Xv6MallocLab.LogLayer
