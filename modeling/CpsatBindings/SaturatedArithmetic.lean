import Mathlib.Algebra.Order.Ring.Abs
import Mathlib.Data.Nat.Log
import CpsatBindings.ModelValidator

/-!
# Saturated arithmetic, bit by bit

`CapAdd` and `CapProd` are taken for saturation all through the validator.  The
generic versions in `ortools/util/saturated_arithmetic.h` get there without a
wider type: an overflow of a sum shows in the signs, and the size of a product
is told from the positions of the most significant bits before it is formed.

* `addHadOverflow_iff`, `capAddGeneric_eq`, `capSubGeneric_eq` — sums.
* `mostSignificantBitPosition_eq` — the bit search is the logarithm.
* `capProdGeneric_eq` — products.
-/

namespace Cpsat.Checker

open Cpsat.Proto Intervals

/-! ## Signs -/

section Signs

variable (x y : Int64)

/-- The highest bit is the sign. -/
theorem msb_iff : x.toBitVec.msb = true ↔ x.toInt < 0 := by
  rw [BitVec.msb_eq_toInt, decide_eq_true_iff]
  rfl

/-- A word is negative as an integer is. -/
theorem neg_iff : x < 0 ↔ x.toInt < 0 := by
  rw [Int64.lt_iff_toInt_lt, Int64.toInt_zero]

/-- The signs of two words differ. -/
theorem xor_neg_iff : x ^^^ y < 0 ↔ ¬ (x.toInt < 0 ↔ y.toInt < 0) := by
  rw [neg_iff, ← msb_iff, ← msb_iff, ← msb_iff, Int64.toBitVec_xor, BitVec.msb_xor]
  cases x.toBitVec.msb <;> cases y.toBitVec.msb <;> simp

/-- Two words are both negative. -/
theorem and_neg_iff : x &&& y < 0 ↔ x < 0 ∧ y < 0 := by
  rw [neg_iff, neg_iff, neg_iff, ← msb_iff, ← msb_iff, ← msb_iff, Int64.toBitVec_and,
    BitVec.msb_and, Bool.and_eq_true]

end Signs

/-! ## Sums -/

/-- The sum without regard to signs, which may wrap. -/
def TwosComplementAddition (x y : Int64) : Int64 := (x.toUInt64 + y.toUInt64).toInt64

def TwosComplementSubtraction (x y : Int64) : Int64 := (x.toUInt64 - y.toUInt64).toInt64

/-- The sign of the sum differs from the signs of both operands. -/
def AddHadOverflow (x y sum : Int64) : Bool := (x ^^^ sum) &&& (y ^^^ sum) < 0

/-- Subtracting overflows if adding back does. -/
def SubHadOverflow (x y diff : Int64) : Bool := AddHadOverflow diff y x

/-- Whether the sum wraps. -/
def AddOverflows (x y : Int64) : Bool := AddHadOverflow x y (TwosComplementAddition x y)

/-- `kint64max + 1` is `kint64min`. -/
def CapWithSignOf (x : Int64) : Int64 :=
  TwosComplementAddition kint64max (if x < 0 then 1 else 0)

/-- The sum, or the end of the range it has left. -/
def CapAddGeneric (x y : Int64) : Int64 :=
  let result := TwosComplementAddition x y
  if AddHadOverflow x y result then CapWithSignOf x else result

/-- The difference, or the end of the range it has left. -/
def CapSubGeneric (x y : Int64) : Int64 :=
  let result := TwosComplementSubtraction x y
  if SubHadOverflow x y result then CapWithSignOf x else result

section Sums

variable (x y : Int64)

/-- It is the sum, wrapped. -/
theorem twosComplementAddition_toInt :
    (TwosComplementAddition x y).toInt = (x.toInt + y.toInt).bmod (2 ^ 64) :=
  Int64.toInt_add x y

theorem twosComplementSubtraction_toInt :
    (TwosComplementSubtraction x y).toInt = (x.toInt - y.toInt).bmod (2 ^ 64) :=
  Int64.toInt_sub x y

/-- The end of the range on the side of `x`. -/
theorem capWithSignOf_eq : CapWithSignOf x = if x < 0 then kint64min else kint64max := by
  unfold CapWithSignOf
  split <;> decide +kernel

/-- A sum of two words is off by `2 ^ 64` at most. -/
theorem bmod_cases {z : ℤ} (hlow : -2 ^ 64 ≤ z) (hhigh : z < 2 ^ 64) :
    (2 ^ 63 ≤ z ∧ z.bmod (2 ^ 64) = z - 2 ^ 64) ∨
      (z < -2 ^ 63 ∧ z.bmod (2 ^ 64) = z + 2 ^ 64) ∨
        (-2 ^ 63 ≤ z ∧ z < 2 ^ 63 ∧ z.bmod (2 ^ 64) = z) := by
  rcases lt_or_ge z (-2 ^ 63) with hbelow | hlow'
  · right
    left
    refine ⟨hbelow, ?_⟩
    rw [← Int.add_bmod_right]
    exact Int.bmod_eq_of_le (by omega) (by omega)
  rcases lt_or_ge z (2 ^ 63) with hhigh' | habove
  · exact Or.inr (Or.inr ⟨hlow', hhigh', Int.bmod_eq_of_le (by omega) (by omega)⟩)
  · left
    refine ⟨habove, ?_⟩
    rw [← Int.sub_bmod_right]
    exact Int.bmod_eq_of_le (by omega) (by omega)

/-- The signs tell whether the sum fits. -/
theorem addHadOverflow_iff :
    AddHadOverflow x y (TwosComplementAddition x y) = true ↔
      ¬ (-2 ^ 63 ≤ x.toInt + y.toInt ∧ x.toInt + y.toInt < 2 ^ 63) := by
  have hx := x.le_toInt
  have hx' := x.toInt_lt
  have hy := y.le_toInt
  have hy' := y.toInt_lt
  rw [AddHadOverflow, decide_eq_true_iff, and_neg_iff, xor_neg_iff, xor_neg_iff,
    twosComplementAddition_toInt]
  obtain ⟨hsum, hmod⟩ | ⟨hsum, hmod⟩ | ⟨hlow, hhigh, hmod⟩ :=
    @bmod_cases (x.toInt + y.toInt) (by omega) (by omega)
  all_goals
    rw [hmod]
    omega

/-- From the largest word on, numbers are clamped to it. -/
theorem clampToInt64_of_ge {z : ℤ} (h : 2 ^ 63 - 1 ≤ z) : clampToInt64 z = kint64max := by
  apply Int64.toInt.inj
  rw [clampToInt64_toInt]
  change clamp (-2 ^ 63) (2 ^ 63 - 1) z = 2 ^ 63 - 1
  unfold clamp
  omega

theorem clampToInt64_of_le {z : ℤ} (h : z ≤ -2 ^ 63) : clampToInt64 z = kint64min := by
  apply Int64.toInt.inj
  rw [clampToInt64_toInt]
  change clamp (-2 ^ 63) (2 ^ 63 - 1) z = -2 ^ 63
  unfold clamp
  omega

/-- A word with the value is the saturated value. -/
theorem clampToInt64_of_eq {z : ℤ} {w : Int64} (h : w.toInt = z) : clampToInt64 z = w := by
  apply Int64.toInt.inj
  rw [clampToInt64_toInt, ← h]
  exact clamp_of_mem w.le_toInt (Int.le_sub_one_of_lt w.toInt_lt)

/-- **Saturated sums.** -/
theorem capAddGeneric_eq : CapAddGeneric x y = CapAdd x y := by
  have hx := x.le_toInt
  have hx' := x.toInt_lt
  have hy := y.le_toInt
  have hy' := y.toInt_lt
  have hoverflow := addHadOverflow_iff x y
  unfold CapAddGeneric CapAdd
  dsimp only
  by_cases hfits : -2 ^ 63 ≤ x.toInt + y.toInt ∧ x.toInt + y.toInt < 2 ^ 63
  · rw [if_neg fun h => hoverflow.mp h hfits]
    refine (clampToInt64_of_eq ?_).symm
    rw [twosComplementAddition_toInt]
    exact Int.bmod_eq_of_le (by omega) (by omega)
  · rw [if_pos (hoverflow.mpr hfits), capWithSignOf_eq]
    by_cases hneg : x < 0
    · rw [if_pos hneg]
      rw [neg_iff] at hneg
      exact (clampToInt64_of_le (by omega)).symm
    · rw [if_neg hneg]
      rw [neg_iff] at hneg
      exact (clampToInt64_of_ge (by omega)).symm

/-- The same signs with `x` and the difference exchanged. -/
theorem subHadOverflow_iff :
    SubHadOverflow x y (TwosComplementSubtraction x y) = true ↔
      ¬ (-2 ^ 63 ≤ x.toInt - y.toInt ∧ x.toInt - y.toInt < 2 ^ 63) := by
  have hx := x.le_toInt
  have hx' := x.toInt_lt
  have hy := y.le_toInt
  have hy' := y.toInt_lt
  rw [SubHadOverflow, AddHadOverflow, decide_eq_true_iff, and_neg_iff, xor_neg_iff, xor_neg_iff,
    twosComplementSubtraction_toInt]
  obtain ⟨hsum, hmod⟩ | ⟨hsum, hmod⟩ | ⟨hlow, hhigh, hmod⟩ :=
    @bmod_cases (x.toInt - y.toInt) (by omega) (by omega)
  all_goals
    rw [hmod]
    omega

/-- **Saturated differences.** -/
theorem capSubGeneric_eq : CapSubGeneric x y = CapSub x y := by
  have hx := x.le_toInt
  have hx' := x.toInt_lt
  have hy := y.le_toInt
  have hy' := y.toInt_lt
  have hoverflow := subHadOverflow_iff x y
  unfold CapSubGeneric CapSub
  dsimp only
  by_cases hfits : -2 ^ 63 ≤ x.toInt - y.toInt ∧ x.toInt - y.toInt < 2 ^ 63
  · rw [if_neg fun h => hoverflow.mp h hfits]
    refine (clampToInt64_of_eq ?_).symm
    rw [twosComplementSubtraction_toInt]
    exact Int.bmod_eq_of_le (by omega) (by omega)
  · rw [if_pos (hoverflow.mpr hfits), capWithSignOf_eq]
    by_cases hneg : x < 0
    · rw [if_pos hneg]
      rw [neg_iff] at hneg
      exact (clampToInt64_of_le (by omega)).symm
    · rw [if_neg hneg]
      rw [neg_iff] at hneg
      exact (clampToInt64_of_ge (by omega)).symm

end Sums

/-! ## The most significant bit -/

def kAllBits64 : UInt64 := 0xFFFFFFFFFFFFFFFF

/-- One test of the search, for `k` bits; `s` holds `n` and `b`. -/
def bitStep (k : UInt64) (s : UInt64 × UInt64) : UInt64 × UInt64 :=
  if 0 ≠ s.1 &&& (kAllBits64 <<< k) then (s.1 >>> k, s.2 ||| k) else s

/-- The last test does not shift `n`, which nothing reads after it. -/
def MostSignificantBitPosition64Default (n : UInt64) : UInt64 :=
  let s := bitStep ((1 : UInt64) <<< 5) (n, 0)
  let s := bitStep ((1 : UInt64) <<< 4) s
  let s := bitStep ((1 : UInt64) <<< 3) s
  let s := bitStep ((1 : UInt64) <<< 2) s
  let s := bitStep ((1 : UInt64) <<< 1) s
  let s := bitStep ((1 : UInt64) <<< 0) s
  s.2

/-- Some bit from `k` on is set exactly if the number is that large. -/
theorem mask_ne_zero_iff (n : UInt64) {k : UInt64} (hk : k.toNat < 64) :
    0 ≠ n &&& (kAllBits64 <<< k) ↔ 2 ^ k.toNat ≤ n.toNat := by
  have hmask : ∀ i, (n &&& (kAllBits64 <<< k)).toNat.testBit i =
      (n.toNat.testBit i && decide (k.toNat ≤ i)) := by
    intro i
    have hall : kAllBits64.toNat = 2 ^ 64 - 1 := rfl
    have hbits : i ≥ 64 → n.toNat.testBit i = false := fun hi =>
      Nat.testBit_lt_two_pow (lt_of_lt_of_le n.toNat_lt (Nat.pow_le_pow_right (by omega) hi))
    rw [UInt64.toNat_and, UInt64.toNat_shiftLeft, Nat.mod_eq_of_lt hk, Nat.testBit_and,
      Nat.testBit_mod_two_pow, Nat.testBit_shiftLeft, hall, Nat.testBit_two_pow_sub_one]
    by_cases hi : i ≥ 64
    · rw [hbits hi, Bool.false_and, Bool.false_and]
    · rw [decide_eq_true (by omega : i < 64), decide_eq_true (by omega : i - k.toNat < 64),
        Bool.true_and, Bool.and_true]
  rw [ne_comm, ne_eq, ← UInt64.toNat_inj, UInt64.toNat_zero]
  constructor
  · intro hne
    obtain ⟨i, hi⟩ := Nat.exists_testBit_of_ne_zero hne
    rw [hmask, Bool.and_eq_true, decide_eq_true_iff] at hi
    exact (Nat.pow_le_pow_right (by omega) hi.2).trans (Nat.ge_two_pow_of_testBit hi.1)
  · intro hge hzero
    obtain ⟨i, hi, hbit⟩ := Nat.exists_ge_and_testBit_of_ge_two_pow hge
    have hset := hmask i
    rw [hzero, Nat.zero_testBit, hbit, decide_eq_true hi] at hset
    exact Bool.false_ne_true hset

/-- What the search knows with `2 ^ j` bits left to look at: the position is
what `b` says and the position in `n`. -/
structure BitSearch (n₀ j : ℕ) (s : UInt64 × UInt64) : Prop where
  size : s.1.toNat < 2 ^ 2 ^ j
  found : 2 ^ j ∣ s.2.toNat
  position : n₀.log2 = s.2.toNat + s.1.toNat.log2

/-- A shift moves the logarithm by as much. -/
theorem log2_shiftRight {m k : ℕ} (h : 2 ^ k ≤ m) : m.log2 = k + (m >>> k).log2 := by
  have hm : m ≠ 0 := by
    have := Nat.two_pow_pos k
    omega
  have hk : k ≤ m.log2 := (Nat.le_log2 hm).mpr h
  have hle := Nat.log2_self_le hm
  have hlt : m < 2 ^ (m.log2 + 1) := Nat.lt_log2_self
  have hshift : m >>> k ≠ 0 := by
    rw [Nat.shiftRight_eq_div_pow]
    have := Nat.div_pos h (Nat.two_pow_pos k)
    omega
  have hlog : (m >>> k).log2 = m.log2 - k := by
    rw [Nat.log2_eq_iff hshift, Nat.shiftRight_eq_div_pow]
    refine ⟨(Nat.le_div_iff_mul_le (Nat.two_pow_pos k)).mpr ?_,
      (Nat.div_lt_iff_lt_mul (Nat.two_pow_pos k)).mpr ?_⟩
    · rw [← Nat.pow_add, Nat.sub_add_cancel hk]
      exact hle
    · rw [← Nat.pow_add]
      exact lt_of_lt_of_eq hlt (congrArg _ (by omega))
  omega

/-- One step halves what is searched. -/
theorem bitSearch_step {n₀ j : ℕ} {k : UInt64} {s : UInt64 × UInt64} (hj : j < 6)
    (hk : k.toNat = 2 ^ j) (h : BitSearch n₀ (j + 1) s) : BitSearch n₀ j (bitStep k s) := by
  have hlt : k.toNat < 64 := by
    rw [hk]
    exact Nat.pow_lt_pow_right (by omega) hj
  unfold bitStep
  split
  · rename_i hmask
    rw [mask_ne_zero_iff _ hlt, hk] at hmask
    have hshift : (s.1 >>> k).toNat = s.1.toNat >>> 2 ^ j := by
      rw [UInt64.toNat_shiftRight, Nat.mod_eq_of_lt hlt, hk]
    have hor : (s.2 ||| k).toNat = s.2.toNat + 2 ^ j := by
      obtain ⟨q, hq⟩ := h.found
      have hpow : 2 ^ j < 2 ^ (j + 1) := Nat.pow_lt_pow_right (by omega) (by omega)
      rw [UInt64.toNat_or, hk, hq, Nat.two_pow_add_eq_or_of_lt hpow]
    refine ⟨?_, ?_, ?_⟩
    · rw [hshift, Nat.shiftRight_eq_div_pow, Nat.div_lt_iff_lt_mul (Nat.two_pow_pos _),
        ← Nat.pow_add, ← Nat.two_mul, ← Nat.pow_succ']
      exact h.size
    · rw [hor]
      exact Nat.dvd_add ((Nat.pow_dvd_pow 2 (Nat.le_succ j)).trans h.found) (dvd_refl _)
    · rw [hshift, hor, h.position, log2_shiftRight hmask, Nat.add_assoc]
  · rename_i hmask
    rw [mask_ne_zero_iff _ hlt, hk, not_le] at hmask
    exact ⟨hmask, (Nat.pow_dvd_pow 2 (Nat.le_succ j)).trans h.found, h.position⟩

/-- **The bit search computes the logarithm.** -/
theorem mostSignificantBitPosition_eq (n : UInt64) :
    (MostSignificantBitPosition64Default n).toNat = n.toNat.log2 := by
  have hstart : BitSearch n.toNat 6 (n, 0) := ⟨n.toNat_lt, Nat.dvd_zero _, (Nat.zero_add _).symm⟩
  have h5 := @bitSearch_step _ 5 ((1 : UInt64) <<< 5) _ (by omega) rfl hstart
  have h4 := @bitSearch_step _ 4 ((1 : UInt64) <<< 4) _ (by omega) rfl h5
  have h3 := @bitSearch_step _ 3 ((1 : UInt64) <<< 3) _ (by omega) rfl h4
  have h2 := @bitSearch_step _ 2 ((1 : UInt64) <<< 2) _ (by omega) rfl h3
  have h1 := @bitSearch_step _ 1 ((1 : UInt64) <<< 1) _ (by omega) rfl h2
  have h0 := @bitSearch_step _ 0 ((1 : UInt64) <<< 0) _ (by omega) rfl h1
  obtain ⟨hsize, -, hposition⟩ := h0
  have hbit : ∀ {m : ℕ}, m < 2 → m.log2 = 0 := by
    intro m hm
    rw [Nat.log2_def, if_neg (by omega)]
  rw [hposition, hbit hsize]
  rfl

/-! ## Products -/

/-- The absolute value, which an unsigned word holds in every case. -/
def uint_abs (n : Int64) : UInt64 := if n < 0 then ~~~ n.toUInt64 + 1 else n.toUInt64

/-- The product, or the end of the range it has left. -/
def CapProdGeneric (x y : Int64) : Int64 :=
  let a := uint_abs x
  let b := uint_abs y
  let msb_sum := MostSignificantBitPosition64Default a + MostSignificantBitPosition64Default b
  let kMaxBitIndexInInt64 : UInt64 := 63
  if msb_sum ≤ kMaxBitIndexInInt64 - 2 then x * y
  -- The position of zero is zero.
  else if a = 0 || b = 0 then 0
  else
    let cap := CapWithSignOf (x ^^^ y)
    if msb_sum ≥ kMaxBitIndexInInt64 then cap
    else
      let u_prod := a * b
      if u_prod ≥ cap.toUInt64 then cap
      else
        let abs_result := u_prod.toInt64
        if cap < 0 then -abs_result else abs_result

/-- It is the absolute value, of the smallest word too. -/
theorem uint_abs_toNat (x : Int64) : (uint_abs x).toNat = x.toInt.natAbs := by
  have hlow := x.le_toInt
  have hhigh := x.toInt_lt
  have hcond := BitVec.toInt_eq_toNat_cond x.toBitVec
  have hsize := x.toBitVec.isLt
  have hword : x.toUInt64.toNat = x.toBitVec.toNat := rfl
  have hint : x.toBitVec.toInt = x.toInt := rfl
  rw [hint] at hcond
  unfold uint_abs
  split
  · rename_i hneg
    rw [neg_iff] at hneg
    have hsize64 : UInt64.size = 2 ^ 64 := rfl
    rw [← UInt64.neg_eq_not_add, UInt64.toNat_neg, hword, hsize64,
      Nat.mod_eq_of_lt (by split at hcond <;> omega)]
    split at hcond <;> omega
  · rename_i hneg
    rw [neg_iff] at hneg
    rw [hword]
    split at hcond <;> omega

/-- The positions tell how large a product is, up to a factor of two. -/
theorem log2_mul {a b : ℕ} (ha : a ≠ 0) (hb : b ≠ 0) :
    2 ^ (a.log2 + b.log2) ≤ a * b ∧ a * b < 2 ^ (a.log2 + b.log2 + 2) := by
  constructor
  · rw [Nat.pow_add]
    exact Nat.mul_le_mul (Nat.log2_self_le ha) (Nat.log2_self_le hb)
  · have hsum : a.log2 + b.log2 + 2 = (a.log2 + 1) + (b.log2 + 1) := by omega
    rw [hsum, Nat.pow_add]
    exact Nat.mul_lt_mul'' Nat.lt_log2_self Nat.lt_log2_self

/-- The signs tell the sign of a product that is not zero. -/
theorem xor_neg_iff_mul {x y : Int64} (hx : x.toInt ≠ 0) (hy : y.toInt ≠ 0) :
    x ^^^ y < 0 ↔ x.toInt * y.toInt < 0 := by
  rw [xor_neg_iff, mul_neg_iff]
  omega

/-- A product that fits is the product of the words. -/
theorem clampToInt64_mul {x y : Int64} (h : (x.toInt * y.toInt).natAbs < 2 ^ 63) :
    clampToInt64 (x.toInt * y.toInt) = x * y := by
  refine clampToInt64_of_eq ?_
  rw [Int64.toInt_mul]
  exact Int.bmod_eq_of_le (by omega) (by omega)

/-- The sum of the two positions does not wrap. -/
theorem positions_toNat (x y : Int64) :
    (MostSignificantBitPosition64Default (uint_abs x) +
      MostSignificantBitPosition64Default (uint_abs y)).toNat =
        x.toInt.natAbs.log2 + y.toInt.natAbs.log2 := by
  have hsmall : ∀ z : Int64, z.toInt.natAbs.log2 < 64 := by
    intro z
    have hlow := z.le_toInt
    have hhigh := z.toInt_lt
    by_cases hz : z.toInt.natAbs = 0
    · rw [hz, Nat.log2_zero]
      omega
    · rw [Nat.log2_lt hz]
      omega
  have hx := hsmall x
  have hy := hsmall y
  rw [UInt64.toNat_add, mostSignificantBitPosition_eq, mostSignificantBitPosition_eq,
    uint_abs_toNat, uint_abs_toNat]
  omega

/-- A small unsigned word is the same signed. -/
theorem toInt64_toInt {u : UInt64} (h : u.toNat < 2 ^ 63) : u.toInt64.toInt = u.toNat :=
  @BitVec.toInt_eq_toNat_of_lt _ u.toBitVec (by
    change 2 * u.toNat < 2 ^ 64
    omega)

/-- One comparison with the cap as an unsigned word serves both signs. -/
theorem cap_unsigned {u : UInt64} {z : ℤ} (hu : u.toNat = z.natAbs) :
    (if u ≥ (if z < 0 then kint64min else kint64max).toUInt64 then
      if z < 0 then kint64min else kint64max
    else if (if z < 0 then kint64min else kint64max) < 0 then -u.toInt64 else u.toInt64) =
      clampToInt64 z := by
  have hmin : kint64min.toUInt64.toNat = 2 ^ 63 := rfl
  have hmax : kint64max.toUInt64.toNat = 2 ^ 63 - 1 := rfl
  by_cases hneg : z < 0
  · simp only [if_pos hneg]
    split
    · rename_i hcapped
      rw [ge_iff_le, UInt64.le_iff_toNat_le, hmin] at hcapped
      exact (clampToInt64_of_le (by omega)).symm
    · rename_i hfits
      rw [ge_iff_le, UInt64.le_iff_toNat_le, hmin] at hfits
      rw [if_pos (by decide)]
      refine (clampToInt64_of_eq ?_).symm
      rw [Int64.toInt_neg, toInt64_toInt (by omega), Int.bmod_eq_of_le (by omega) (by omega)]
      omega
  · simp only [if_neg hneg]
    split
    · rename_i hcapped
      rw [ge_iff_le, UInt64.le_iff_toNat_le, hmax] at hcapped
      exact (clampToInt64_of_ge (by omega)).symm
    · rename_i hfits
      rw [ge_iff_le, UInt64.le_iff_toNat_le, hmax] at hfits
      rw [if_neg (by decide)]
      refine (clampToInt64_of_eq ?_).symm
      rw [toInt64_toInt (by omega)]
      omega

/-- **Saturated products.** -/
theorem capProdGeneric_eq (x y : Int64) : CapProdGeneric x y = CapProd x y := by
  have hsum := positions_toNat x y
  have hproduct := Int.natAbs_mul x.toInt y.toInt
  have hzero : ∀ z : Int64, uint_abs z = 0 ↔ z.toInt = 0 := by
    intro z
    rw [← UInt64.toNat_inj, uint_abs_toNat, UInt64.toNat_zero, Int.natAbs_eq_zero]
  unfold CapProdGeneric CapProd
  dsimp only
  by_cases hnone : uint_abs x = 0 ∨ uint_abs y = 0
  · have hnothing : x.toInt * y.toInt = 0 := by
      rw [hzero, hzero] at hnone
      exact mul_eq_zero.mpr hnone
    have hfits : (x.toInt * y.toInt).natAbs < 2 ^ 63 := by
      rw [hnothing]
      decide
    rw [clampToInt64_mul hfits]
    split
    · rfl
    · rw [if_pos (by simpa using hnone), ← clampToInt64_mul hfits, hnothing]
      decide
  obtain ⟨hx, hy⟩ := not_or.mp hnone
  rw [hzero] at hx hy
  have hcap : CapWithSignOf (x ^^^ y) =
      if x.toInt * y.toInt < 0 then kint64min else kint64max := by
    rw [capWithSignOf_eq]
    simp only [xor_neg_iff_mul hx hy]
  obtain ⟨hlow, hhigh⟩ := log2_mul (Int.natAbs_ne_zero.mpr hx) (Int.natAbs_ne_zero.mpr hy)
  rw [← hproduct, ← hsum] at hlow hhigh
  rw [hcap]
  split
  · rename_i hsmall
    have hbits : _ ≤ 61 := UInt64.le_iff_toNat_le.mp hsmall
    exact (clampToInt64_mul (lt_of_lt_of_le hhigh
      (Nat.pow_le_pow_right (by omega) (by omega)))).symm
  rename_i hsmall
  have hbits : 61 < _ := UInt64.lt_iff_toNat_lt.mp (UInt64.not_le.mp hsmall)
  rw [if_neg (by simpa using hnone)]
  split
  · rename_i hlarge
    have hmany : 63 ≤ _ := UInt64.le_iff_toNat_le.mp hlarge
    have hbig := (Nat.pow_le_pow_right (by omega) hmany).trans hlow
    split
    · exact (clampToInt64_of_le (by omega)).symm
    · exact (clampToInt64_of_ge (by omega)).symm
  · rename_i hlarge
    have hmany : _ < 63 := UInt64.lt_iff_toNat_lt.mp (UInt64.not_le.mp hlarge)
    have huprod : (uint_abs x * uint_abs y).toNat = (x.toInt * y.toInt).natAbs := by
      rw [UInt64.toNat_mul, uint_abs_toNat, uint_abs_toNat, ← hproduct]
      exact Nat.mod_eq_of_lt (lt_of_lt_of_le hhigh
        (Nat.pow_le_pow_right (by omega) (by omega)))
    exact cap_unsigned huprod

end Cpsat.Checker
