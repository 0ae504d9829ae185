import Mathlib.Data.Nat.Digits.Lemmas
import Xv6MallocLab.CStrings

/-!
# printf of user programs

`printint`, `printptr` and `vprintf` of user/printf.c, as the bytes they write, and `atoi`.
Arguments are the 64-bit words of the variable argument list.
-/

namespace Xv6MallocLab.Printf

open ByteMemory List

def digits : List UInt8 := [48, 49, 50, 51, 52, 53, 54, 55, 56, 57, 65, 66, 67, 68, 69, 70]

def digit (d : ℕ) : UInt8 := digits.getD d 0

def minus : UInt8 := 45
def percent : UInt8 := 37

/-- The digit loop of `printint`, with `room` bytes left in `buf`.  There is no result if it
would write behind them. -/
def digitLoop (base : UInt32) : ℕ → UInt32 → Option (List UInt8)
  | 0, _ => none
  | room + 1, x =>
    let c := digit (x % base).toNat
    if x / base ≠ 0 then do return c :: (← digitLoop base room (x / base))
    else some [c]

/-- `printint(fd, xx, base, sgn)`.  The last byte in `buf` is printed first. -/
def printint (xx : Int32) (base : UInt32) (sgn : Bool) : Option (List UInt8) := do
  let neg := sgn && xx < 0
  let x := if neg then (-xx).toUInt32 else xx.toUInt32
  let buf ← digitLoop base 16 x
  let buf ← if neg then (if buf.length < 16 then some (buf ++ [minus]) else none) else some buf
  return buf.reverse

def ptrLoop : ℕ → UInt64 → List UInt8
  | 0, _ => []
  | n + 1, x => digit (x >>> 60).toNat :: ptrLoop n (x <<< 4)

/-- `printptr`: `0x` and sixteen digits. -/
def printptr (x : UInt64) : List UInt8 := 48 :: 120 :: ptrLoop 16 x

def putString (m : Memory) : ℕ → ℕ → Option (List UInt8)
  | 0, _ => none
  | fuel + 1, s => if m s ≠ 0 then do return m s :: (← putString m fuel (s + 1)) else some []

/-- The character after a `%`: what is printed, and the arguments left. -/
def conversion (m : Memory) (fuel : ℕ) (c : UInt8) (ap : List UInt64) :
    Option (List UInt8 × List UInt64) :=
  if c = 100 then do
    let a :: ap := ap | none
    return (← printint a.toUInt32.toInt32 10 true, ap)
  else if c = 108 then do
    let a :: ap := ap | none
    return (← printint a.toUInt32.toInt32 10 false, ap)
  else if c = 120 then do
    let a :: ap := ap | none
    return (← printint a.toUInt32.toInt32 16 false, ap)
  else if c = 112 then do
    let a :: ap := ap | none
    return (printptr a, ap)
  else if c = 115 then do
    let a :: ap := ap | none
    -- "(null)"
    if a = 0 then return ([40, 110, 117, 108, 108, 41], ap)
    else return (← putString m fuel a.toNat, ap)
  else if c = 99 then do
    let a :: ap := ap | none
    return ([a.toUInt8], ap)
  else if c = percent then some ([c], ap)
  else some ([percent, c], ap)

inductive State
  | text
  | percent
deriving DecidableEq, Repr

/-- `vprintf`: the bytes printed, unless it runs out of arguments. -/
def vprintf (m : Memory) (fuel : ℕ) : List UInt8 → State → List UInt64 → Option (List UInt8)
  | [], _, _ => some []
  | c :: fmt, .text, ap =>
    if c = percent then vprintf m fuel fmt .percent ap
    else do return c :: (← vprintf m fuel fmt .text ap)
  | c :: fmt, .percent, ap => do
      let (out, ap) ← conversion m fuel c ap
      return out ++ (← vprintf m fuel fmt .text ap)

def reversed (b n : ℕ) : List UInt8 := if n = 0 then [digit 0] else (Nat.digits b n).map digit

def numeral (b n : ℕ) : List UInt8 := (reversed b n).reverse

def decode (b : ℕ) (cs : List UInt8) : ℕ := Nat.ofDigits b (cs.reverse.map digits.idxOf)

def signedNumeral (i : ℤ) : List UInt8 :=
  if i < 0 then minus :: numeral 10 i.natAbs else numeral 10 i.natAbs

def decodeSigned (cs : List UInt8) : ℤ :=
  if cs.head? = some minus then -(decode 10 cs.tail : ℤ) else decode 10 cs

theorem idxOf_digit {d : ℕ} (hd : d < 16) : digits.idxOf (digit d) = d := by
  revert d
  decide

theorem decode_numeral {b : ℕ} (hb : 1 < b) (hb' : b ≤ 16) (n : ℕ) : decode b (numeral b n) = n := by
  unfold decode numeral reversed
  rw [reverse_reverse]
  split_ifs with hn
  · rw [hn]
    exact Nat.ofDigits_singleton
  · have hback : ((Nat.digits b n).map digit).map digits.idxOf = Nat.digits b n := by
      rw [map_map]
      refine (map_congr_left fun d hd => ?_).trans (map_id _)
      exact idxOf_digit (lt_of_lt_of_le (Nat.digits_lt_base hb hd) hb')
    rw [hback, Nat.ofDigits_digits]

theorem reversed_step {b : ℕ} (hb : 1 < b) (n : ℕ) :
    reversed b n = digit (n % b) :: if n / b = 0 then [] else reversed b (n / b) := by
  unfold reversed
  by_cases hn : n = 0
  · rw [if_pos hn, hn, Nat.zero_mod, Nat.zero_div, if_pos rfl]
  · rw [if_neg hn, Nat.digits_def' hb (Nat.pos_of_ne_zero hn), map_cons]
    split_ifs with hdiv
    · rw [hdiv, Nat.digits_zero]
      rfl
    · rfl

theorem length_reversed_le {b n k : ℕ} (hb : 1 < b) (hk : 0 < k) (hn : n < b ^ k) :
    (reversed b n).length ≤ k := by
  unfold reversed
  split_ifs with hzero
  · exact hk
  · rw [length_map]
    exact (Nat.digits_length_le_iff hb n).2 hn

theorem digitLoop_eq {base : UInt32} (hb : 1 < base.toNat) (room : ℕ) {x : UInt32}
    (hx : x.toNat < base.toNat ^ (room + 1)) :
    digitLoop base (room + 1) x = some (reversed base.toNat x.toNat) := by
  induction room generalizing x with
  | zero =>
    have hdiv : x / base = 0 := by
      apply UInt32.toNat_inj.1
      rw [UInt32.toNat_div]
      exact Nat.div_eq_of_lt (by rwa [Nat.zero_add, pow_one] at hx)
    rw [digitLoop, reversed_step hb, UInt32.toNat_mod, ← UInt32.toNat_div, hdiv]
    rfl
  | succ room ih =>
    rw [digitLoop, reversed_step hb, UInt32.toNat_mod, ← UInt32.toNat_div]
    by_cases hdiv : x / base = 0
    · rw [hdiv]
      rfl
    · have hrest : (x / base).toNat < base.toNat ^ (room + 1) := by
        rw [UInt32.toNat_div]
        exact Nat.div_lt_of_lt_mul (by rwa [pow_succ'] at hx)
      have hne : (x / base).toNat ≠ 0 := fun h => hdiv (UInt32.toNat_inj.1 h)
      rw [if_pos hdiv, ih hrest, if_neg hne]
      rfl

theorem printint_eq {base : UInt32} (hb : 10 ≤ base.toNat) (hb' : base.toNat ≤ 16) (xx : Int32)
    (sgn : Bool) :
    printint xx base sgn = some (if sgn && xx < 0 then minus :: numeral base.toNat (-xx).toUInt32.toNat
      else numeral base.toNat xx.toUInt32.toNat) := by
  have hsmall : ∀ x : UInt32, x.toNat < base.toNat ^ 10 := by
    intro x
    calc x.toNat < 2 ^ 32 := x.toNat_lt
      _ ≤ 10 ^ 10 := by decide
      _ ≤ base.toNat ^ 10 := Nat.pow_le_pow_left hb 10
  have hloop : ∀ x : UInt32, digitLoop base 16 x = some (reversed base.toNat x.toNat) := by
    intro x
    apply digitLoop_eq (by omega)
    exact lt_of_lt_of_le (hsmall x) (Nat.pow_le_pow_right (by omega) (by decide))
  unfold printint
  cases hneg : sgn && xx < 0 with
  | false =>
    dsimp only
    rw [if_neg (by decide), hloop]
    rfl
  | true =>
    have hroom : (reversed base.toNat (-xx).toUInt32.toNat).length < 16 :=
      lt_of_le_of_lt (length_reversed_le (by omega) (by decide) (hsmall _)) (by decide)
    dsimp only
    rw [if_pos rfl, hloop]
    dsimp only [bind, Option.bind]
    rw [if_pos rfl, if_pos hroom, if_pos rfl]
    exact congrArg some reverse_concat

theorem length_ptrLoop (n : ℕ) (x : UInt64) : (ptrLoop n x).length = n := by
  induction n generalizing x with
  | zero => rfl
  | succ n ih => rw [ptrLoop, length_cons, ih]

theorem decode_cons (b : ℕ) (c : UInt8) (cs : List UInt8) :
    decode b (c :: cs) = decode b cs + b ^ cs.length * digits.idxOf c := by
  unfold decode
  rw [reverse_cons, map_append, Nat.ofDigits_append, length_map, length_reverse,
    map_singleton, Nat.ofDigits_singleton]

theorem shiftRight_lt (x : UInt64) : (x >>> 60).toNat < 16 := by
  have hx := x.toNat_lt
  rw [UInt64.toNat_shiftRight, Nat.shiftRight_eq_div_pow]
  exact Nat.div_lt_of_lt_mul hx

theorem decode_ptrLoop {n : ℕ} (hn : n ≤ 16) (x : UInt64) :
    decode 16 (ptrLoop n x) = x.toNat / 16 ^ (16 - n) := by
  induction n generalizing x with
  | zero => exact (Nat.div_eq_of_lt x.toNat_lt).symm
  | succ n ih =>
    have hhigh : (x >>> 60).toNat = x.toNat / 16 ^ 15 := by
      rw [UInt64.toNat_shiftRight, Nat.shiftRight_eq_div_pow]
      rfl
    have hlow : (x <<< 4).toNat = 16 * (x.toNat % 16 ^ 15) := by
      rw [UInt64.toNat_shiftLeft, Nat.shiftLeft_eq]
      change x.toNat * 16 % (16 * 16 ^ 15) = _
      rw [Nat.mul_comm, Nat.mul_mod_mul_left]
    have hpow : 16 ^ (16 - n) = 16 * 16 ^ (15 - n) := by
      rw [← pow_succ']
      congr 1
      omega
    have hsplit : 16 ^ 15 = 16 ^ (15 - n) * 16 ^ n := by
      rw [← pow_add]
      congr 1
      omega
    have hpos : 0 < 16 ^ (15 - n) := by positivity
    have hexp : 16 - (n + 1) = 15 - n := by omega
    rw [ptrLoop, decode_cons, length_ptrLoop, ih (by omega), idxOf_digit (shiftRight_lt x), hlow, hpow,
      Nat.mul_div_mul_left _ _ (by decide), hhigh, hexp]
    calc x.toNat % 16 ^ 15 / 16 ^ (15 - n) + 16 ^ n * (x.toNat / 16 ^ 15)
        = (x.toNat % 16 ^ 15 + 16 ^ (15 - n) * (16 ^ n * (x.toNat / 16 ^ 15))) / 16 ^ (15 - n) :=
          (Nat.add_mul_div_left _ _ hpos).symm
      _ = (x.toNat % 16 ^ 15 + 16 ^ 15 * (x.toNat / 16 ^ 15)) / 16 ^ (15 - n) := by
          rw [← Nat.mul_assoc, ← hsplit]
      _ = x.toNat / 16 ^ (15 - n) := by rw [Nat.mod_add_div]

theorem digit_mem {d : ℕ} (hd : d < 16) : digit d ∈ digits := by
  revert d
  decide

theorem mem_ptrLoop (n : ℕ) (x : UInt64) : ∀ c ∈ ptrLoop n x, c ∈ digits := by
  induction n generalizing x with
  | zero => exact nofun
  | succ n ih =>
    intro c hc
    rcases mem_cons.1 hc with rfl | hc
    · exact digit_mem (shiftRight_lt x)
    · exact ih _ c hc

theorem mem_numeral {b : ℕ} (hb : 1 < b) (hb' : b ≤ 16) (n : ℕ) : ∀ c ∈ numeral b n, c ∈ digits := by
  intro c hc
  rw [numeral, mem_reverse, reversed] at hc
  split_ifs at hc with hn
  · rw [mem_singleton.1 hc]
    decide
  · obtain ⟨d, hd, rfl⟩ := mem_map.1 hc
    exact digit_mem (lt_of_lt_of_le (Nat.digits_lt_base hb hd) hb')

theorem toInt_eq (xx : Int32) : xx.toInt =
    if 2 * xx.toUInt32.toNat < 2 ^ 32 then (xx.toUInt32.toNat : ℤ) else xx.toUInt32.toNat - 2 ^ 32 :=
  BitVec.toInt_eq_toNat_cond xx.toBitVec

theorem toUInt32_neg (xx : Int32) : (-xx).toUInt32.toNat = (2 ^ 32 - xx.toUInt32.toNat) % 2 ^ 32 :=
  BitVec.toNat_neg xx.toBitVec

theorem natAbs_of_neg {xx : Int32} (h : xx.toInt < 0) : (-xx).toUInt32.toNat = xx.toInt.natAbs := by
  have hword := xx.toUInt32.toNat_lt
  rw [toInt_eq] at h ⊢
  rw [toUInt32_neg]
  split_ifs at h ⊢ <;> omega

theorem natAbs_of_nonneg {xx : Int32} (h : ¬xx.toInt < 0) : xx.toUInt32.toNat = xx.toInt.natAbs := by
  have hword := xx.toUInt32.toNat_lt
  rw [toInt_eq] at h ⊢
  split_ifs at h ⊢ <;> omega

theorem printint_signed (xx : Int32) : printint xx 10 true = some (signedNumeral xx.toInt) := by
  have hsign : xx < 0 ↔ xx.toInt < 0 := Int32.lt_iff_toInt_lt
  rw [printint_eq (by decide) (by decide), signedNumeral]
  by_cases hneg : xx < 0
  · rw [if_pos (by simpa using hneg), if_pos (hsign.1 hneg), natAbs_of_neg (hsign.1 hneg)]
    rfl
  · rw [if_neg (by simpa using hneg), if_neg (mt hsign.2 hneg), natAbs_of_nonneg (mt hsign.2 hneg)]
    rfl

theorem decodeSigned_signedNumeral (i : ℤ) : decodeSigned (signedNumeral i) = i := by
  have hback : decode 10 (numeral 10 i.natAbs) = i.natAbs := decode_numeral (by decide) (by decide) _
  unfold decodeSigned signedNumeral
  split_ifs with hneg hhead hhead
  · rw [tail_cons, hback]
    omega
  · exact absurd rfl hhead
  · have hmem := mem_numeral (by decide) (by decide) _ _ (mem_of_mem_head? hhead)
    exact absurd hmem (by decide)
  · rw [hback]
    omega

inductive Conversion
  | d | x | l | p
deriving DecidableEq, Repr

def Conversion.letter : Conversion → UInt8
  | d => 100
  | x => 120
  | l => 108
  | p => 112

def Conversion.Reads : Conversion → UInt64 → List UInt8 → Prop
  | d, a, cs => cs = signedNumeral a.toUInt32.toInt32.toInt ∧ decodeSigned cs = a.toUInt32.toInt32.toInt
  | x, a, cs => cs = numeral 16 a.toUInt32.toNat ∧ decode 16 cs = a.toUInt32.toNat
  | l, a, cs => cs = numeral 10 a.toNat ∧ decode 10 cs = a.toNat
  | p, a, cs => ∃ ds, cs = 48 :: 120 :: ds ∧ ds.length = 16 ∧ (∀ c ∈ ds, c ∈ digits) ∧
      decode 16 ds = a.toNat

def Conversion.text : Conversion → UInt64 → List UInt8
  | d, a => signedNumeral a.toUInt32.toInt32.toInt
  | x, a => numeral 16 a.toUInt32.toNat
  | l, a => numeral 10 a.toUInt32.toNat
  | p, a => printptr a

variable {m : Memory} {fuel : ℕ}

theorem conversion_eq (k : Conversion) (a : UInt64) (ap : List UInt64) :
    conversion m fuel k.letter (a :: ap) = some (k.text a, ap) := by
  cases k with
  | d =>
    change (do return (← printint a.toUInt32.toInt32 10 true, ap)) = _
    rw [printint_signed]
    rfl
  | x =>
    change (do return (← printint a.toUInt32.toInt32 16 false, ap)) = _
    rw [printint_eq (by decide) (by decide)]
    rfl
  | l =>
    change (do return (← printint a.toUInt32.toInt32 10 false, ap)) = _
    rw [printint_eq (by decide) (by decide)]
    rfl
  | p => rfl

theorem Conversion.reads_iff (k : Conversion) (a : UInt64) :
    k.Reads a (k.text a) ↔ (k = .l → a.toNat < 2 ^ 32) := by
  cases k with
  | d => exact iff_of_true ⟨rfl, decodeSigned_signedNumeral _⟩ nofun
  | x => exact iff_of_true ⟨rfl, decode_numeral (by decide) (by decide) _⟩ nofun
  | l =>
    have hback := decode_numeral (b := 10) (by decide) (by decide) a.toUInt32.toNat
    have hword : a.toUInt32.toNat = a.toNat % 2 ^ 32 := UInt64.toNat_toUInt32 a
    constructor
    · rintro ⟨-, hread⟩ -
      have heq : a.toUInt32.toNat = a.toNat := hback.symm.trans hread
      omega
    · intro h
      have heq : a.toUInt32.toNat = a.toNat := by
        rw [hword, Nat.mod_eq_of_lt (h rfl)]
      refine ⟨?_, hback.trans heq⟩
      rw [Conversion.text, heq]
  | p =>
    refine iff_of_true ⟨ptrLoop 16 a, rfl, length_ptrLoop 16 a, mem_ptrLoop 16 a, ?_⟩ nofun
    rw [decode_ptrLoop le_rfl, Nat.sub_self, pow_zero, Nat.div_one]

/-- Wherever one of these sequences stands in a format, its text is the numeral of the argument
if and only if `%l` gets a number below 2³².  The buffer always has room. -/
theorem printf_reads_back_iff (k : Conversion) (a : UInt64) :
    (∃ cs, (∀ m fuel fmt ap, vprintf m fuel (percent :: k.letter :: fmt) .text (a :: ap) =
        (vprintf m fuel fmt .text ap).map (cs ++ ·)) ∧
      (k.Reads a cs ↔ (k = .l → a.toNat < 2 ^ 32))) ∧
    ∀ (xx : Int32) (sgn : Bool), (printint xx 10 sgn).isSome ∧ (printint xx 16 sgn).isSome := by
  refine ⟨⟨k.text a, fun m fuel fmt ap => ?_, k.reads_iff a⟩, fun xx sgn => ⟨?_, ?_⟩⟩
  · rw [vprintf, if_pos rfl, vprintf, conversion_eq]
    dsimp only [bind, Option.bind]
    cases vprintf m fuel fmt .text ap <;> rfl
  · rw [printint_eq (by decide) (by decide)]
    rfl
  · rw [printint_eq (by decide) (by decide)]
    rfl

/-- `%l` of 2^32 prints 0. -/
theorem long_prints_low_word :
    vprintf (fun _ => 0) 0 [percent, Conversion.letter .l] .text [4294967296] = some [48] ∧
      ¬Conversion.Reads .l 4294967296 [48] := by
  refine ⟨by decide, fun h => ?_⟩
  exact absurd h.2 (by decide)

/-- The loop of `atoi` of ulib.c; the `int` wraps. -/
def atoiLoop : List UInt8 → Int32 → Int32
  | [], n => n
  | c :: s, n => if 48 ≤ c ∧ c ≤ 57 then atoiLoop s (n * 10 + c.toUInt32.toInt32 - 48) else n

def atoi (s : List UInt8) : Int32 := atoiLoop s 0

theorem atoiLoop_digit {d : ℕ} (hd : d < 10) (t : List UInt8) (k : ℕ) :
    atoiLoop (digit d :: t) (Int32.ofNat k) = atoiLoop t (Int32.ofNat (d + 10 * k)) := by
  have hrange : 48 ≤ digit d ∧ digit d ≤ 57 := by
    revert d
    decide
  have hval : (digit d).toUInt32.toInt32 - 48 = Int32.ofNat d := by
    revert d
    decide
  rw [atoiLoop, if_pos hrange, Int32.sub_eq_add_neg, Int32.add_assoc, ← Int32.sub_eq_add_neg, hval,
    Int32.ofNat_add, Int32.ofNat_mul, Int32.mul_comm, Int32.add_comm]
  rfl

theorem atoi_digits (ds : List ℕ) (hd : ∀ d ∈ ds, d < 10) (t : List UInt8) :
    atoi ((ds.map digit).reverse ++ t) = atoiLoop t (Int32.ofNat (Nat.ofDigits 10 ds)) := by
  induction ds generalizing t with
  | nil => rfl
  | cons d ds ih =>
    rw [map_cons, reverse_cons, append_assoc, singleton_append,
      ih (fun x hx => hd x (mem_cons_of_mem _ hx)), atoiLoop_digit (hd d (mem_cons_self ..)),
      Nat.ofDigits_cons]

/-- What `%d` prints is read back by `atoi`, whatever follows that is no digit, if the
number is not negative; `atoi` knows no sign. -/
theorem atoi_reads_back (xx : Int32) {cs t : List UInt8} (hcs : printint xx 10 true = some cs)
    (ht : ∀ c ∈ t.head?, ¬ (48 ≤ c ∧ c ≤ 57)) : atoi (cs ++ t) = if xx < 0 then 0 else xx := by
  have hend : ∀ n, atoiLoop t n = n := by
    intro n
    cases t with
    | nil => rfl
    | cons c t => exact if_neg (ht c rfl)
  have hsign : xx < 0 ↔ xx.toInt < 0 := Int32.lt_iff_toInt_lt
  rw [printint_signed, signedNumeral] at hcs
  split_ifs at hcs with hneg
  · rw [if_pos (hsign.mpr hneg), ← Option.some.inj hcs]
    rfl
  · have hnum : ∀ n, atoi (numeral 10 n ++ t) = Int32.ofNat n := by
      intro n
      unfold numeral reversed
      split_ifs with hn
      · rw [hn]
        exact (atoi_digits [0] (by simp) t).trans (hend _)
      · rw [atoi_digits _ (fun d hd => Nat.digits_lt_base (by decide) hd), hend, Nat.ofDigits_digits]
    rw [if_neg (mt hsign.mp hneg), ← Option.some.inj hcs, hnum]
    rw [← Int32.ofInt_eq_ofNat, Int.natAbs_of_nonneg (not_lt.mp hneg), Int32.ofInt_toInt]

theorem atoi_reads_back_sample : atoi ([52, 50] ++ [0]) = 42 :=
  atoi_reads_back 42 (by decide) (by rintro c ⟨⟩; decide)

end Xv6MallocLab.Printf
