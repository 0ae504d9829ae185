import Xv6MallocLab.BlockOwnership

/-!
# Files as byte arrays

A file is a list of bytes, where a write replaces some of them and may make the list
longer.  `readi` and `writei` do that to what the blocks of an inode spell out, as long
as the blocks in use are marked so and belong to one place each.
-/

namespace Xv6MallocLab.FileSystem

open Function List

variable {sb : Super} {d d' : Disk} {ip : Dinode} {inum : ℕ}

def splice (old : List UInt8) (off : ℕ) (new : List UInt8) : List UInt8 :=
  old.take off ++ new ++ old.drop (off + new.length)

variable {old new : List UInt8} {off k n : ℕ}

theorem length_splice (h : off ≤ old.length) :
    (splice old off new).length = max old.length (off + new.length) := by
  simp only [splice, length_append, length_take, length_drop]
  omega

theorem getElem?_splice_of_le {o : ℕ} (hoff : off ≤ old.length) (h : off + new.length ≤ o) :
    (splice old off new)[o]? = old[o]? := by
  have hlen : (old.take off ++ new).length = off + new.length := by
    rw [length_append, length_take, min_eq_left hoff]
  rw [splice, getElem?_append_right (by omega), getElem?_drop, hlen, Nat.add_sub_cancel' h]

theorem map_range_splice {f f' g : ℕ → UInt8} {size : ℕ} (hoff : off ≤ size)
    (hin : ∀ o, off ≤ o → o < off + k → f' o = g (o - off))
    (hout : ∀ o < size, ¬(off ≤ o ∧ o < off + k) → f' o = f o) :
    (List.range (max size (off + k))).map f' =
      splice ((List.range size).map f) off ((List.range k).map g) := by
  apply ext_getElem
  · rw [length_splice] <;> simp [hoff]
  · intro o ho _
    have hlt : o < max size (off + k) := by simpa using ho
    rw [getElem_map, getElem_range]
    simp only [splice, getElem_append, length_append, length_take, length_map,
      length_range, min_eq_left hoff]
    split_ifs with h1 h2
    · rw [hout o (by omega) (by omega)]
      simp
    · rw [hin o (by omega) h1]
      simp
    · rw [hout o (by omega) (by omega)]
      simp only [getElem_drop, getElem_map, getElem_range]
      congr 1
      omega

def Disk.contents (d : Disk) (inum : ℕ) : List UInt8 :=
  (List.range (d.dinode inum).size).map ((d.dinode inum).byteAt d.block)

@[simp] theorem length_contents : (d.contents inum).length = (d.dinode inum).size := by
  simp [Disk.contents]

def Reads (sb : Super) (d : Disk) (inum off n : ℕ) (bytes : List UInt8) : Prop :=
  ∃ m, readi (balloc sb) (d.dinode inum) off n (fun _ => true) d =
    .ok ((d.dinode inum, bytes.length, m), d) ∧ (List.range bytes.length).map m = bytes

theorem NoHoles.reads (h : NoHoles d inum) (hwrap : off + n < 2 ^ 32) :
    Reads sb d inum off n (((d.contents inum).drop off).take n) := by
  obtain ⟨r, m, hrun, hres⟩ := readi_found h.full h.small off n fun _ => true
  obtain ⟨hcount, hbytes⟩ := hres (fun _ => rfl) hwrap
  have hlen : (((d.contents inum).drop off).take n).length = min n ((d.dinode inum).size - off) := by
    simp
  refine ⟨m, ?_, ?_⟩
  · rw [hlen, hrun, hcount]
  · apply ext_getElem
    · simp
    · intro i hi _
      rw [length_map, length_range, hlen] at hi
      simp only [getElem_map, getElem_range, getElem_take, getElem_drop, Disk.contents]
      exact hbytes i hi

theorem NoHoles.reads_all (h : NoHoles d inum) :
    Reads sb d inum 0 (d.dinode inum).size (d.contents inum) := by
  have hmax : maxfile * bsize < 2 ^ 32 := by decide
  have hsmall := h.small
  have hread : Reads sb d inum 0 (d.dinode inum).size
      (((d.contents inum).drop 0).take (d.dinode inum).size) := h.reads (by omega)
  rwa [drop_zero, take_of_length_le length_contents.le] at hread

theorem contents_of_frame {j : ℕ} (hj : j < sb.ninodes) (hne : j ≠ inum)
    (halloc : (d.dinode j).type ≠ .free) (hdinode : d'.dinode j = d.dinode j)
    (hframe : ∀ b, rest sb d inum b ≠ 0 → d'.block b = d.block b)
    (hsmall : (d.dinode j).size ≤ maxfile * bsize) : d'.contents j = d.contents j := by
  unfold Disk.contents
  rw [hdinode]
  refine map_congr_left fun o ho => ?_
  have hlt : o / bsize < maxfile := div_lt_maxfile (lt_of_lt_of_le (mem_range.1 ho) hsmall)
  have hplace := place_congr (indirect_of_frame hj hne halloc hframe) (o / bsize)
  unfold Dinode.byteAt
  rw [hplace]
  split_ifs with hzero
  · rfl
  · rw [hframe]
    have hpos := uses_pos d.block (by omega) hzero
    have hle := owned_le_rest (d := d) hj hne ((d.dinode j).place d.block (o / bsize))
    rw [Dinode.owned, if_neg halloc] at hle
    omega

/-- What `writei` did when it wrote `k` of `n` bytes of `src` at `off`. -/
structure Overwrites (sb : Super) (src : Source) (off n k : ℕ) (inum : ℕ) (d d' : Disk) : Prop where
  le : k ≤ n
  short : k < n → d'.exhausted sb
  size : (d'.dinode inum).size = max (d.dinode inum).size (off + k)
  reads : Reads sb d' inum 0 (d'.dinode inum).size
    (splice (d.contents inum) off ((List.range k).map src.data))
  others : ∀ j < sb.ninodes, j ≠ inum → (d.dinode j).type ≠ .free →
    d'.dinode j = d.dinode j ∧ d'.contents j = d.contents j

theorem Stored.overwrites (h : Stored sb d) (hlt : inum < sb.ninodes)
    (halloc : (d.dinode inum).type ≠ .free) {src : Source} (hsrc : ¬src.Faulty) {off' : ℕ}
    (hoff : off ≤ (d.dinode inum).size) (hprog : Progress src off n 0 off' k)
    (hshort : k < n → d'.exhausted sb) {ip' : Dinode}
    (horder : InOrder sb (lost sb d + rest sb d inum) d' ip')
    (hw : Written (lost sb d + rest sb d inum) src off off' inum d (d.dinode inum) d' ip') :
    Overwrites sb src off n k inum d d' := by
  have hself : d'.dinode inum = ip' := by rw [hw.dinode, update_self]
  obtain rfl : off' = off + k := by
    have := hprog.count
    have := hprog.low
    omega
  have hsize : ip'.size = max (d.dinode inum).size (off + k) := by rw [hw.inode]
  have hcontents : d'.contents inum =
      splice (d.contents inum) off ((List.range k).map src.data) := by
    unfold Disk.contents
    rw [hself, hsize]
    refine map_range_splice hoff hw.inside fun o ho hnot => ?_
    have hmax := (h.noHoles inum hlt halloc).small
    exact hw.outside o (by omega) fun hin => hnot ⟨hin.1, hin.2.resolve_right hsrc⟩
  have hno : NoHoles d' inum := by
    refine ⟨?_, ?_⟩ <;> rw [hself]
    · exact horder.full
    · exact horder.small
  refine ⟨by have := hprog.high; omega, hshort, by rw [hself, hsize], ?_, ?_⟩
  · rw [← hcontents]
    exact hno.reads_all
  · intro j hj hne hj'
    have hdinode : d'.dinode j = d.dinode j := by rw [hw.dinode, update_of_ne hne]
    refine ⟨hdinode, contents_of_frame hj hne hj' hdinode (fun b hb => hw.frame b ?_)
      (h.noHoles j hj hj').small⟩
    rw [Pi.add_apply]
    omega

/-- `writei` overwrites and lengthens the bytes of its file, and of no other; `readi`
returns those that are there. -/
theorem files_are_byte_arrays (h : Stored sb d) (hlt : inum < sb.ninodes)
    (halloc : (d.dinode inum).type ≠ .free) (off n : ℕ) :
    (∀ src : Source, ¬src.Faulty →
      Runs (writei (balloc sb) inum (d.dinode inum) src off n) d fun r d' =>
        if off ≤ (d.dinode inum).size ∧ off + n ≤ maxfile * bsize then
          r.1 = d'.dinode inum ∧ ∃ k : ℕ, r.2 = k ∧ Overwrites sb src off n k inum d d'
        else r = (d.dinode inum, -1) ∧ d' = d) ∧
    (off + n < 2 ^ 32 → Reads sb d inum off n (((d.contents inum).drop off).take n)) := by
  refine ⟨fun src hsrc => ?_, (h.noHoles inum hlt halloc).reads⟩
  refine Runs.mono (writei_runs src off n rfl (h.tidy.inOrder hlt halloc)) ?_
  rintro ⟨ip', r⟩ d' ⟨horder, off', hw, hres⟩
  dsimp only at horder hw hres ⊢
  rcases hres with ⟨rfl, -, hout, rfl, rfl⟩ | ⟨k, rfl, hoff, hend, hprog, hshort⟩
  · rw [if_neg hout]
    exact ⟨rfl, rfl⟩
  · rw [if_pos ⟨hoff, hend⟩]
    refine ⟨by rw [hw.dinode, update_self], k, rfl, ?_⟩
    exact h.overwrites hlt halloc hsrc hoff hprog (fun hlt => (hshort hsrc hlt).1) horder hw

theorem files_are_byte_arrays_small :
    Runs (writei (balloc smallSuper) 1 (.fresh .file) (.kernel fun _ => 7) 0 1) (smallDisk 2)
        (fun r d' => r.1 = d'.dinode 1 ∧ ∃ k : ℕ, r.2 = k ∧
          Overwrites smallSuper (.kernel fun _ => 7) 0 1 k 1 (smallDisk 2) d') ∧
      Reads smallSuper (smallDisk 2) 1 0 1 [] := by
  have halloc : ((smallDisk 2).dinode 1).type ≠ .free := nofun
  have h := files_are_byte_arrays smallDisk_image.stored (by decide) halloc 0 1
  have hsrc : ¬(Source.kernel fun _ => 7).Faulty := by
    rintro ⟨t, ht⟩
    cases ht
  exact ⟨h.1 _ hsrc, h.2 (by decide)⟩

def unmarkedDisk : Disk where
  bitmap := fun b => b < 2
  dinode := fun inum =>
    if inum = 1 then { Dinode.fresh .file with size := 1, addrs := fun j => if j = 0 then 2 else 0 }
    else if inum = 2 then .fresh .file else .fresh .free
  block := fun _ _ => 7

def unmarkedSuper : Super := ⟨4, 3, 2, smallSuper.size_lt, smallSuper.datastart_pos⟩

theorem unmarkedDisk_place (inum p : ℕ) :
    (unmarkedDisk.dinode inum).place unmarkedDisk.block p = if inum = 1 ∧ p = 0 then 2 else 0 := by
  have hnd : ¬ndirect = 0 := by decide
  have hpos : 0 < ndirect := by decide
  by_cases h1 : inum = 1
  · simp only [unmarkedDisk, h1, if_true, Dinode.place, hnd, if_false, true_and]
    split_ifs <;> first | rfl | omega
  · by_cases h2 : inum = 2 <;> simp [unmarkedDisk, h1, h2, Dinode.place, Dinode.fresh]

theorem unmarkedDisk_size (inum : ℕ) :
    (unmarkedDisk.dinode inum).size = if inum = 1 then 1 else 0 := by
  by_cases h1 : inum = 1
  · simp [unmarkedDisk, h1]
  · by_cases h2 : inum = 2 <;> simp [unmarkedDisk, h1, h2, Dinode.fresh]

/-- Each block is stored once and no file has a hole.  A byte written to the second file
goes to the block of the first. -/
theorem write_takes_unmarked_block :
    (∀ inum p inum' p', (unmarkedDisk.dinode inum).place unmarkedDisk.block p ≠ 0 →
      (unmarkedDisk.dinode inum).place unmarkedDisk.block p =
        (unmarkedDisk.dinode inum').place unmarkedDisk.block p' → inum = inum' ∧ p = p') ∧
    (∀ inum, NoHoles unmarkedDisk inum) ∧ unmarkedDisk.contents 1 = [7] ∧
    ∃ ip' d', writei (balloc unmarkedSuper) 2 (unmarkedDisk.dinode 2) (.kernel fun _ => 9) 0 1
        unmarkedDisk = .ok ((ip', 1), d') ∧ d'.contents 1 = [9] := by
  refine ⟨fun inum p inum' p' hne heq => ?_, fun inum => ⟨fun bn hbn => ?_, ?_⟩, rfl,
    ⟨_, _, rfl, rfl⟩⟩
  · rw [unmarkedDisk_place] at hne heq
    rw [unmarkedDisk_place] at heq
    split_ifs at hne heq with h1 h2 <;> omega
  · have hone : 1 < bsize := by decide
    rw [unmarkedDisk_size] at hbn
    split_ifs at hbn with h1
    · obtain rfl : bn = 0 := by
        by_contra hne
        have := Nat.le_mul_of_pos_left bsize (Nat.pos_of_ne_zero hne)
        omega
      rw [unmarkedDisk_place, if_pos ⟨h1, rfl⟩]
      decide
    · exact absurd hbn (Nat.not_lt_zero _)
  · rw [unmarkedDisk_size]
    split_ifs <;> decide

end Xv6MallocLab.FileSystem
