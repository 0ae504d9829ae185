import Xv6MallocLab.UmmallocArena

/-!
# Primitive steps of the slot allocator

Each primitive is evaluated once, as an explicit update of the byte memory.  Linking two
nodes is stated through the links; its two stores never touch a header or the map words of
a fast page.
-/

namespace Xv6MallocLab.Ummalloc

open ByteMemory CircularList

variable {m : Memory} {pack size flags a b n : ℕ}

section

variable (hload : load 4 m (pack + 4) = size + flags)

include hload

theorem packSize_of_load (hflags : flags < 8) (hmod : size % 8 = 0) (hsize : size ≤ 131072) :
    packSize m pack = size := by
  have hk : size = 8 * (size / 8) := by omega
  rw [packSize, hload, hk, and_sizeMask _ _ hflags (by omega)]

theorem packMeta_of_load (hflags : flags < 8) (hmod : size % 8 = 0) : packMeta m pack = flags := by
  have hk : size = 8 * (size / 8) := by omega
  rw [packMeta, hload, hk, and_fullMask _ _ hflags]

theorem packNext_of_load (hflags : flags < 8) (hmod : size % 8 = 0) (hsize : size ≤ 131072)
    (hlt : pack + size < 2 ^ 64) : packNext m pack = pack + size := by
  rw [packNext, packSize_of_load hload hflags hmod hsize, Nat.mod_eq_of_lt hlt]

end

theorem listPack_eq {node : ℕ} (hlow : 8 ≤ node) (hlt : node < 2 ^ 64) :
    listPack node = node - 8 := by
  unfold listPack
  omega

theorem packData_eq (hlt : pack + 8 < 2 ^ 64) : packData pack = pack + 8 := Nat.mod_eq_of_lt hlt

theorem and_fullMask_eq_zero (hmod : size % 8 = 0) : ¬ (size &&& fullMask ≠ 0) := by
  have hk : size = 8 * (size / 8) + 0 := by omega
  rw [hk, and_fullMask _ _ (by omega)]
  simp

@[simp] theorem run_packAddMeta (pack info : ℕ) (s : Process) :
    (packAddMeta pack info).run s =
      .ok () { s with
        mem := store 4 s.mem (pack + 4)
          (load 4 s.mem (pack + 4) ||| info) } := rfl

@[simp] theorem run_packSetMeta (pack info : ℕ) (s : Process) :
    (packSetMeta pack info).run s =
      .ok () { s with
        mem := store 4 s.mem (pack + 4)
          ((load 4 s.mem (pack + 4) &&& sizeMask) ||| info) } := rfl

@[simp] theorem run_packSetPrev (pack size : ℕ) (s : Process) :
    (packSetPrev pack size).run s =
      .ok () { s with mem := store 4 s.mem pack size } := rfl

theorem run_packSetInfo {info : ℕ} (hmod : size % 8 = 0) (hinfo : info < 8) (s : Process) :
    (packSetInfo pack size info).run s =
      .ok () { s with mem := store 4 s.mem (pack + 4) (size + info) } := by
  have hor : size ||| info = size + info := by
    have hk : size = 8 * (size / 8) + 0 := by omega
    rw [hk, or_flags _ _ _ (by omega) hinfo, Nat.zero_or]
    omega
  simp [packSetInfo, Prog.run_impossible_of_not (and_fullMask_eq_zero hmod), hor]

theorem run_packSetSize {old : ℕ} {s : Process} (hmod : size % 8 = 0)
    (hload : load 4 s.mem (pack + 4) = old + flags) (hold : old % 8 = 0) (hflags : flags < 8) :
    (packSetSize pack size).run s =
      .ok () { s with mem := store 4 s.mem (pack + 4) (size + flags) } := by
  have hor : (load 4 s.mem (pack + 4) &&& fullMask) ||| size = size + flags := by
    have hk : size = 8 * (size / 8) := by omega
    have hmeta := packMeta_of_load hload hflags hold
    rw [packMeta] at hmeta
    rw [hmeta, hk, flags_or _ _ hflags]
  simp [packSetSize, Prog.run_impossible_of_not (and_fullMask_eq_zero hmod), hor]

theorem run_prevAddSize (hmod : size % 8 = 0) (s : Process) :
    (prevAddSize pack size).run s =
      .ok () { s with
        mem := store 4 s.mem (pack + 4)
          (load 4 s.mem (pack + 4) + size) } := by
  simp [prevAddSize, Prog.run_impossible_of_not (and_fullMask_eq_zero hmod)]

@[simp] theorem run_bitmapSet (index : ℕ) (s : Process) :
    (bitmapSet index).run s =
      .ok () { s with bitmap := s.bitmap ||| bitAt index } := rfl

@[simp] theorem run_bitmapClr (index : ℕ) (s : Process) :
    (bitmapClr index).run s =
      .ok () { s with bitmap := s.bitmap &&& ~~~ bitAt index } := rfl

def linkMem (m : Memory) (a b : ℕ) : Memory := store 8 (store 8 m (a + 8) b) b a

@[simp] theorem run_nodeLink (a b : ℕ) (s : Process) :
    (nodeLink a b).run s = .ok () { s with mem := linkMem s.mem a b } := rfl

theorem run_listPop (list : ℕ) (s : Process) :
    (listPop list).run s =
      .ok (nodeNext s.mem list)
        { s with mem := linkMem s.mem list (nodeNext s.mem (nodeNext s.mem list)) } := rfl

theorem run_listPush (list node : ℕ) (s : Process) :
    (listPush list node).run s =
      .ok () { s with
        mem := linkMem (linkMem s.mem node (nodeNext s.mem list)) list node } := rfl

theorem nodeNext_linkMem (ha : n = a ∨ n + 16 ≤ a ∨ a + 16 ≤ n)
    (hb : n = b ∨ n + 16 ≤ b ∨ b + 16 ≤ n) (hlt : b < 2 ^ 64) :
    nodeNext (linkMem m a b) n = if n = a then b else nodeNext m n := by
  unfold nodeNext linkMem
  rw [load_store_of_disjoint (by omega)]
  split
  next heq =>
    subst heq
    exact load_store_of_lt (by omega)
  next hne =>
    exact load_store_of_disjoint (by omega)

theorem nodePrev_linkMem (ha : n = a ∨ n + 16 ≤ a ∨ a + 16 ≤ n)
    (hb : n = b ∨ n + 16 ≤ b ∨ b + 16 ≤ n) (hlt : a < 2 ^ 64) :
    nodePrev (linkMem m a b) n = if n = b then a else nodePrev m n := by
  unfold nodePrev linkMem
  split
  next heq =>
    subst heq
    exact load_store_of_lt (by omega)
  next hne =>
    simp (disch := omega) only [load_store_of_disjoint]

theorem load_linkMem {w x : ℕ} (ha : x + w ≤ a ∨ a + 16 ≤ x) (hb : x + w ≤ b ∨ b + 16 ≤ x) :
    load w (linkMem m a b) x = load w m x := by
  unfold linkMem
  simp (disch := omega) only [load_store_of_disjoint]

theorem linkMem_apply {x : ℕ} (ha : x < a ∨ a + 16 ≤ x) (hb : x < b ∨ b + 16 ≤ x) :
    linkMem m a b x = m x := by
  unfold linkMem
  simp (disch := omega) only [store_apply_of_outside]

theorem freeCells_congr {m' : Memory} (h1 : load 8 m' (n + 24) = load 8 m (n + 24))
    (h2 : load 8 m' (n + 32) = load 8 m (n + 32)) : freeCells m' n = freeCells m n := by
  apply Finset.filter_congr
  intro k hk
  have hk : k < 128 := Finset.mem_range.mp hk
  have hdiv : k / 64 = 0 ∨ k / 64 = 1 := by omega
  rcases hdiv with hdiv | hdiv
  · rw [hdiv, mul_zero, add_zero, h1]
  · rw [hdiv, mul_one, add_assoc, h2]

end Xv6MallocLab.Ummalloc
