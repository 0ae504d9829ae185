import Xv6MallocLab.RingWindow

/-!
# The disk driver

`virtio_disk_rw` describes a transfer by a chain of three descriptors, puts the
chain's head in the avail ring and sleeps.  The device takes heads from that ring
and returns them, in any order, through the used ring; `virtio_disk_intr` clears
the flags of their buffers.  A caller holds its buffer's sleep-lock, so a call is
named by its buffer.  A section under `vdisk_lock` is a step, a round of the
interrupt handler too.  The ring indices are 16 bits wide and wrap.
-/

namespace Xv6MallocLab.VirtioDisk

open Function List RingWindow

/-- What a descriptor's address points to. -/
inductive Target (β : Type*)
  | null
  | op (i : ℕ)
  | data (b : β)
  | status (i : ℕ)

/-- `struct virtq_desc`. -/
structure Desc (β : Type*) where
  addr : Target β
  len : ℕ
  flags : UInt16
  next : ℕ

def Desc.zero {β : Type*} : Desc β := ⟨.null, 0, 0, 0⟩

/-- `struct virtio_blk_req`. -/
structure BlkReq where
  type : UInt32
  reserved : UInt32
  sector : UInt64

structure Info (β : Type*) where
  b : Option β
  status : UInt8

/-- `b->blockno` and the argument `write`. -/
structure Request where
  blockno : UInt32
  write : Bool

/-- What `virtio_disk_rw` writes in `disk.ops`; the sector is a 32-bit product. -/
def Request.op (r : Request) : BlkReq := ⟨if r.write then 1 else 0, 0, (r.blockno * 2).toUInt64⟩

/-- A call with its descriptors `idx[0..2]`. -/
structure Call where
  req : Request
  head : ℕ
  mid : ℕ
  tail : ℕ

def Call.idx (c : Call) : List ℕ := [c.head, c.mid, c.tail]

/-- Where the call for a buffer stands: outside, without descriptors, or in the
loop that waits for `b->disk`. -/
inductive Place
  | out
  | trying (r : Request)
  | sent (c : Call)

def Place.isSent : Place → Bool
  | sent _ => true
  | _ => false

/-- `struct disk` with the rings, the `disk` flags of the buffers, and the calls,
which may be asleep.  Of the device: how far it has read the avail ring, the heads
it works on, and the commands it has carried out for each buffer since the buffer's
last call. -/
structure Machine (β : Type*) where
  desc : ℕ → Desc β
  availRing : ℕ → ℕ
  availIdx : UInt16
  usedRing : ℕ → ℕ
  usedIdx : UInt16
  free : ℕ → Bool
  usedSeen : UInt16
  info : ℕ → Info β
  ops : ℕ → BlkReq
  busy : β → Bool
  place : β → Place
  asleep : β → Bool
  availSeen : UInt16
  work : List ℕ
  done : β → List BlkReq

section Counters

variable (ring : ℕ → ℕ) (a b : UInt16)

/-- The entries from index `a` on, up to index `b`. -/
def between : List ℕ := window ring 8 a.toNat (b - a).toNat

theorem cell_of_gap : (a.toNat + (b - a).toNat) % 8 = b.toNat % 8 := by
  have ha := a.toNat_lt
  have hb := b.toNat_lt
  rw [UInt16.toNat_sub]
  omega

theorem between_push (x : ℕ) (h : (between ring a b).length < 8) :
    between (update ring (b.toNat % 8) x) a (b + 1) = between ring a b ++ [x] := by
  have hgap : (b - a).toNat < 8 := by simpa [between] using h
  have hsucc : (b + 1 - a).toNat = (b - a).toNat + 1 := by
    rw [UInt16.toNat_sub] at hgap ⊢
    rw [UInt16.toNat_sub, UInt16.toNat_add, UInt16.toNat_one]
    omega
  rw [between, hsucc, ← cell_of_gap a b]
  exact window_push a.toNat x hgap

theorem between_pop (h : a ≠ b) :
    between ring a b = ring (a.toNat % 8) :: between ring (a + 1) b := by
  have ha := a.toNat_lt
  have hb := b.toNat_lt
  have hne : a.toNat ≠ b.toNat := fun h' => h (UInt16.toNat_inj.mp h')
  have hgap : (b - a).toNat = (b - (a + 1)).toNat + 1 := by
    rw [UInt16.toNat_sub, UInt16.toNat_sub, UInt16.toNat_add, UInt16.toNat_one]
    omega
  have hstart : (a.toNat + 1) % 8 = (a + 1).toNat % 8 := by
    rw [UInt16.toNat_add, UInt16.toNat_one]
    omega
  rw [between, hgap, window_pop, between, window_congr hstart]

end Counters

namespace Machine

variable {β : Type*}

/-- `virtio_disk_init`. -/
def init : Machine β where
  desc := fun _ => .zero
  availRing := fun _ => 0
  availIdx := 0
  usedRing := fun _ => 0
  usedIdx := 0
  free := fun i => i < 8
  usedSeen := 0
  info := fun _ => ⟨none, 0⟩
  ops := fun _ => ⟨0, 0, 0⟩
  busy := fun _ => false
  place := fun _ => .out
  asleep := fun _ => false
  availSeen := 0
  work := []
  done := fun _ => []

/-- `alloc_desc`: the first free descriptor. -/
def allocDesc (s : Machine β) : Option (ℕ × Machine β) :=
  ((List.range 8).find? s.free).map fun i => (i, { s with free := update s.free i false })

/-- `wakeup(&disk.free[0])`. -/
def wakeFree (s : Machine β) : β → Bool := fun b => s.asleep b && (s.place b).isSent

/-- `free_desc`, which wakes those that wait for a descriptor. -/
def freeDesc (s : Machine β) (i : ℕ) : Except String (Machine β) :=
  if 8 ≤ i then .error "free_desc 1"
  else if s.free i then .error "free_desc 2"
  else .ok { s with
    desc := update s.desc i .zero
    free := update s.free i true
    asleep := s.wakeFree }

/-- `free_chain`.  Each round frees a descriptor, so there are at most eight. -/
def freeChain : ℕ → Machine β → ℕ → Except String (Machine β)
  | 0, _, _ => .error "free_chain"
  | fuel + 1, s, i => do
    let t ← s.freeDesc i
    if (s.desc i).flags &&& 1 ≠ 0 then freeChain fuel t (s.desc i).next else return t

/-- The loop of `alloc3_desc`, `k` descriptors before its end. -/
def allocLoop : ℕ → List ℕ → Machine β → Except String (Option (List ℕ) × Machine β)
  | 0, idx, s => .ok (some idx, s)
  | k + 1, idx, s =>
    match s.allocDesc with
    | some (i, t) => allocLoop k (idx ++ [i]) t
    | none => do return (none, ← idx.foldlM freeDesc s)

/-- `alloc3_desc`: three descriptors or none. -/
def alloc3Desc (s : Machine β) : Except String (Option (List ℕ) × Machine β) := allocLoop 3 [] s

/-- The descriptors `idx` are marked as taken. -/
def claim (s : Machine β) (idx : List ℕ) : Machine β :=
  { s with free := fun i => s.free i && decide (i ∉ idx) }

/-- The descriptors `idx` are given back. -/
def release (s : Machine β) (idx : List ℕ) : Machine β :=
  { s with
    desc := fun i => if i ∈ idx then .zero else s.desc i
    free := fun i => s.free i || decide (i ∈ idx)
    asleep := if idx = [] then s.asleep else s.wakeFree }

theorem freeDesc_taken {s : Machine β} {i : ℕ} (hi : i < 8) (hf : s.free i = false) :
    s.freeDesc i = .ok (s.release [i]) := by
  simp only [freeDesc, release, hf]
  rw [if_neg (by omega), if_neg (by simp)]
  congr 2
  · funext j
    by_cases hj : j = i <;> simp [hj]
  · funext j
    by_cases hj : j = i <;> simp [hj]

theorem release_cons (s : Machine β) (i : ℕ) (idx : List ℕ) :
    (s.release [i]).release idx = s.release (i :: idx) := by
  simp only [release, cons_ne_nil, if_false]
  congr 1
  · funext j
    by_cases hj : j = i <;> simp [hj]
  · funext j
    simp [Bool.or_assoc]
  · split
    · rfl
    · funext b
      simp [wakeFree]

theorem foldlM_freeDesc (idx : List ℕ) :
    ∀ s : Machine β, idx.Nodup → (∀ i ∈ idx, i < 8 ∧ s.free i = false) →
      idx.foldlM freeDesc s = .ok (s.release idx) := by
  induction idx with
  | nil =>
    intro s _ _
    simp [release, pure, Except.pure]
  | cons i idx ih =>
    intro s hnd htaken
    obtain ⟨hi, hnd⟩ := nodup_cons.mp hnd
    obtain ⟨hlt, hfree⟩ := htaken i (mem_cons_self ..)
    have hrest := ih (s.release [i]) hnd fun j hj => by
      have hne : j ≠ i := fun h => hi (h ▸ hj)
      simp [release, hne, htaken j (mem_cons_of_mem _ hj)]
    rw [release_cons] at hrest
    rw [foldlM_cons, freeDesc_taken hlt hfree]
    exact hrest

theorem freeChain_next {s : Machine β} {i : ℕ} (fuel : ℕ) (hi : i < 8) (hf : s.free i = false) :
    freeChain (fuel + 1) s i =
      if (s.desc i).flags &&& 1 ≠ 0 then freeChain fuel (s.release [i]) (s.desc i).next
      else .ok (s.release [i]) := by
  rw [freeChain, freeDesc_taken hi hf]
  rfl

/-- Different free descriptors. -/
structure Avail (f : ℕ → Bool) (idx : List ℕ) : Prop where
  nodup : idx.Nodup
  free : ∀ i ∈ idx, i < 8 ∧ f i = true

/-- All free descriptors, and they are fewer than three. -/
structure Short (f : ℕ → Bool) (idx : List ℕ) : Prop extends Avail f idx where
  few : idx.length < 3
  all : ∀ i < 8, f i = true → i ∈ idx

theorem Avail.free_back {s : Machine β} {idx : List ℕ} (h : Avail s.free idx) :
    ((s.claim idx).release idx).free = s.free := by
  funext i
  by_cases hi : i ∈ idx
  · simp [release, hi, (h.free i hi).2]
  · simp [release, claim, hi]

theorem allocLoop_cases (s : Machine β) (k : ℕ) : ∀ idx : List ℕ, Avail s.free idx →
    ∃ idx', Avail s.free idx' ∧
      (idx'.length = idx.length + k ∧
          allocLoop k idx (s.claim idx) = .ok (some idx', s.claim idx') ∨
        idx'.length < idx.length + k ∧ (∀ i < 8, s.free i = true → i ∈ idx') ∧
          allocLoop k idx (s.claim idx) = .ok (none, (s.claim idx').release idx')) := by
  induction k with
  | zero =>
    intro idx havail
    exact ⟨idx, havail, .inl ⟨rfl, rfl⟩⟩
  | succ k ih =>
    intro idx havail
    cases hfind : (List.range 8).find? (s.claim idx).free with
    | none =>
      have hall : ∀ i < 8, s.free i = true → i ∈ idx := by
        intro i hi hf
        have := find?_eq_none.mp hfind i (mem_range.mpr hi)
        simpa [claim, hf] using this
      have hback := foldlM_freeDesc idx (s.claim idx) havail.nodup fun i hi =>
        ⟨(havail.free i hi).1, by simp [claim, hi]⟩
      refine ⟨idx, havail, .inr ⟨by omega, hall, ?_⟩⟩
      rw [allocLoop, allocDesc, hfind]
      simp [hback, bind, Except.bind, pure, Except.pure]
    | some i =>
      have hi : s.free i = true ∧ i ∉ idx := by
        simpa [claim] using find?_some hfind
      have hlt : i < 8 := mem_range.mp (mem_of_find?_eq_some hfind)
      have hclaim : { s.claim idx with free := update (s.claim idx).free i false } =
          s.claim (idx ++ [i]) := by
        simp only [claim]
        congr 1
        funext j
        by_cases hj : j = i <;> simp [hj]
      have havail' : Avail s.free (idx ++ [i]) := by
        refine ⟨concat_eq_append ▸ havail.nodup.concat hi.2, fun j hj => ?_⟩
        rcases mem_append.mp hj with hj | hj
        · exact havail.free j hj
        · rw [mem_singleton.mp hj]
          exact ⟨hlt, hi.1⟩
      have hstep : allocLoop (k + 1) idx (s.claim idx) =
          allocLoop k (idx ++ [i]) (s.claim (idx ++ [i])) := by
        rw [allocLoop, allocDesc, hfind]
        simp only [Option.map_some, hclaim]
      have hlen : (idx ++ [i]).length + k = idx.length + (k + 1) := by
        rw [length_append, length_singleton]
        omega
      rw [hstep, ← hlen]
      exact ih (idx ++ [i]) havail'

/-- `alloc3_desc` takes three free descriptors, or there are fewer and it gives
back those it took. -/
theorem alloc3Desc_cases (s : Machine β) :
    (∃ i j k, Avail s.free [i, j, k] ∧ s.alloc3Desc = .ok (some [i, j, k], s.claim [i, j, k])) ∨
    ∃ idx, Short s.free idx ∧ s.alloc3Desc = .ok (none, (s.claim idx).release idx) := by
  have hnil : s.claim [] = s := by simp [claim]
  obtain ⟨idx, havail, hres⟩ := s.allocLoop_cases 3 [] ⟨nodup_nil, by simp⟩
  rw [hnil] at hres
  rcases hres with ⟨hlen, hres⟩ | ⟨hlen, hall, hres⟩
  · obtain ⟨i, j, k, rfl⟩ := length_eq_three.mp hlen
    exact .inl ⟨i, j, k, havail, hres⟩
  · exact .inr ⟨idx, ⟨havail, hlen, hall⟩, hres⟩

variable [DecidableEq β]

/-- The three descriptors, the command, the flag of the buffer and the entry in
the avail ring. -/
def format (s : Machine β) (b : β) (c : Call) : Machine β :=
  { s with
    ops := update s.ops c.head c.req.op
    desc := update (update (update s.desc
      c.head ⟨.op c.head, 16, 1, c.mid⟩)
      c.mid ⟨.data b, 1024, (if c.req.write then 0 else 2) ||| 1, c.tail⟩)
      c.tail ⟨.status c.head, 1, 2, 0⟩
    info := update s.info c.head ⟨some b, 0xff⟩
    busy := update s.busy b true
    availRing := update s.availRing (s.availIdx.toNat % 8) c.head
    availIdx := s.availIdx + 1
    place := update s.place b (.sent c)
    done := update s.done b [] }

/-- The loop that waits for `b->disk`, from its test to `sleep` or to the end of
the call. -/
def await (s : Machine β) (b : β) (c : Call) : Except String (Machine β) :=
  if s.busy b then .ok { s with asleep := update s.asleep b true }
  else do
    let t ← freeChain 8
      { s with info := update s.info c.head { s.info c.head with b := none } } c.head
    return { t with place := update t.place b .out }

/-- `virtio_disk_rw` from `acquire` to its first `sleep`. -/
def submit (s : Machine β) (b : β) (r : Request) : Except String (Machine β) := do
  match ← s.alloc3Desc with
  | (some [i, j, k], t) => (t.format b ⟨r, i, j, k⟩).await b ⟨r, i, j, k⟩
  | (_, t) => return { t with asleep := update t.asleep b true }

/-- The device reads the next head. -/
def take (s : Machine β) : Machine β :=
  { s with
    availSeen := s.availSeen + 1
    work := s.work ++ [s.availRing (s.availSeen.toNat % 8)] }

/-- The device carries out the chain at `h`, reports `status` and returns the chain. -/
def complete (s : Machine β) (h : ℕ) (status : UInt8) : Except String (Machine β) :=
  let d0 := s.desc h
  let d1 := s.desc d0.next
  let d2 := s.desc d1.next
  match d0.addr, d1.addr, d2.addr with
  | .op i, .data b, .status j =>
    if d0.len = 16 ∧ d0.flags = 1 ∧ d1.len = 1024 ∧ d2.len = 1 ∧ d2.flags = 2 ∧
        d1.flags = (if (s.ops i).type = 1 then 1 else 3) then
      .ok { s with
        done := update s.done b (s.done b ++ [s.ops i])
        info := update s.info j { s.info j with status }
        usedRing := update s.usedRing (s.usedIdx.toNat % 8) h
        usedIdx := s.usedIdx + 1
        work := s.work.erase h }
    else .error "bad request"
  | _, _, _ => .error "bad request"

/-- `wakeup(b)`: a call without descriptors sleeps on another channel. -/
def wakeBuf (s : Machine β) (b : β) : β → Bool :=
  update s.asleep b (s.asleep b && !(s.place b).isSent)

/-- One round of the loop of `virtio_disk_intr`. -/
def intrRound (s : Machine β) : Except String (Machine β) :=
  let id := s.usedRing (s.usedSeen.toNat % 8)
  if (s.info id).status ≠ 0 then .error "virtio_disk_intr status"
  else match (s.info id).b with
  | none => .error "null buffer"
  | some b => .ok { s with
      busy := update s.busy b false
      asleep := s.wakeBuf b
      usedSeen := s.usedSeen + 1 }

/-- A step of a call, of the device or of the interrupt handler.  The device is not part
of the repository: it reads heads in the order of the avail ring, returns chains in any order
and reports any status. -/
inductive Move (s : Machine β) : Except String (Machine β) → Prop
  | call (b : β) (r : Request) (hb : s.place b = .out) :
      Move s (.ok { s with place := update s.place b (.trying r) })
  | submit (b : β) (r : Request) (hb : s.place b = .trying r) (ha : s.asleep b = false) :
      Move s (s.submit b r)
  | look (b : β) (c : Call) (hb : s.place b = .sent c) (ha : s.asleep b = false) :
      Move s (s.await b c)
  | take (h : s.availSeen ≠ s.availIdx) : Move s (.ok s.take)
  | complete (h : ℕ) (status : UInt8) (hh : h ∈ s.work) : Move s (s.complete h status)
  | intr (h : s.usedSeen ≠ s.usedIdx) : Move s s.intrRound

/-- `wake` is `kill`, which ends any sleep. -/
inductive Step (s : Machine β) : Except String (Machine β) → Prop
  | move {o : Except String (Machine β)} (h : Move s o) : Step s o
  | wake (b : β) : Step s (.ok { s with asleep := update s.asleep b false })

inductive Reachable : Machine β → Prop
  | init : Reachable init
  | step {s t : Machine β} (hs : Reachable s) (h : Step s (.ok t)) : Reachable t

end Machine
end Xv6MallocLab.VirtioDisk
