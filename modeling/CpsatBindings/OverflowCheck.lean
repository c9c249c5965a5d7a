import Mathlib.Algebra.Order.BigOperators.Group.List
import CpsatBindings.MeaningPreserved
import CpsatBindings.ModelValidator

/-!
# What the overflow check rules out

`PossibleIntegerOverflow` keeps the least and the greatest sum that any part of
the terms can have, and gives up when one of them leaves half the `int64`
range.  Everything it computes saturates on the way.

`possibleIntegerOverflow_iff` says over the integers when it accepts: nothing
has saturated then, and the order of the terms does not matter.  Two remarks in
the source follow.  In no order does a sum on the way leave half the range
(`no_order_overflows`), and an expression passes exactly if its opposite does
(`overflow_symmetric`).
-/

namespace Cpsat.Checker

open Cpsat.Proto Intervals

/-- A saturated sum is the clamped sum. -/
theorem capAdd_toInt (x y : Int64) :
    (CapAdd x y).toInt = clamp (-2 ^ 63) (2 ^ 63 - 1) (x.toInt + y.toInt) :=
  clampToInt64_toInt _

/-- A saturated product is the clamped product. -/
theorem capProd_toInt (x y : Int64) :
    (CapProd x y).toInt = clamp (-2 ^ 63) (2 ^ 63 - 1) (x.toInt * y.toInt) :=
  clampToInt64_toInt _

/-- A sum that stays in range is not touched. -/
theorem capAdd_exact {x y : Int64} (hlow : -2 ^ 63 ≤ x.toInt + y.toInt)
    (hhigh : x.toInt + y.toInt < 2 ^ 63) : (CapAdd x y).toInt = x.toInt + y.toInt := by
  rw [capAdd_toInt]
  exact clamp_of_mem hlow (Int.le_sub_one_of_lt hhigh)

/-- The test finds the two ends of the range. -/
theorem atMinOrMax_iff (x : Int64) :
    AtMinOrMaxInt64 x = true ↔ x.toInt = -2 ^ 63 ∨ x.toInt = 2 ^ 63 - 1 := by
  have hmin : kint64min.toInt = -2 ^ 63 := rfl
  have hmax : kint64max.toInt = 2 ^ 63 - 1 := rfl
  rw [AtMinOrMaxInt64, Bool.or_eq_true, decide_eq_true_iff, decide_eq_true_iff, ← hmin, ← hmax,
    Int64.toInt_inj, Int64.toInt_inj]

/-! ## One term -/

section Term

variable (lo hi coeff : Int64)

/-- The least that a part of the sum can lose to the term. -/
def lowest : ℤ := min 0 (min (lo.toInt * coeff.toInt) (hi.toInt * coeff.toInt))

/-- The most that a part of the sum can gain from the term. -/
def highest : ℤ := max 0 (max (lo.toInt * coeff.toInt) (hi.toInt * coeff.toInt))

/-- What `AddTerm` does when it succeeds: it adds the two extremes exactly, and
they leave half the range on neither side. -/
structure TermAdded (c c' : LinearOverflowChecker) : Prop where
  inner : coeff ≠ kint64min
  least : c'.sum_min.toInt = c.sum_min.toInt + lowest lo hi coeff
  greatest : c'.sum_max.toInt = c.sum_max.toInt + highest lo hi coeff
  low : -(2 ^ 62 - 1) ≤ c'.sum_min.toInt
  high : c'.sum_max.toInt ≤ 2 ^ 62 - 1

variable {lo hi coeff} {c c' : LinearOverflowChecker}

/-- The two ends of half the range. -/
theorem halves :
    (-kint64max / 2).toInt = -(2 ^ 62 - 1) ∧ (kint64max / 2).toInt = 2 ^ 62 - 1 := by
  decide +kernel

/-- What is not one of the two ends has not been saturated. -/
theorem capProd_exact_iff (x y : Int64) :
    AtMinOrMaxInt64 (CapProd x y) = false ↔
      -2 ^ 63 < x.toInt * y.toInt ∧ x.toInt * y.toInt < 2 ^ 63 - 1 := by
  rw [Bool.eq_false_iff, ne_eq, atMinOrMax_iff, capProd_toInt]
  unfold clamp
  omega

/-- A saturated product that is at neither end is exact. -/
theorem capProd_exact {x y : Int64} (h : AtMinOrMaxInt64 (CapProd x y) = false) :
    (CapProd x y).toInt = x.toInt * y.toInt := by
  obtain ⟨hlow, hhigh⟩ := (capProd_exact_iff x y).mp h
  rw [capProd_toInt]
  exact clamp_of_mem (by omega) (by omega)

/-- The lower extreme, as it is computed. -/
theorem lowest_toInt (hlo : AtMinOrMaxInt64 (CapProd lo coeff) = false)
    (hhi : AtMinOrMaxInt64 (CapProd hi coeff) = false) :
    (min 0 (min (CapProd lo coeff) (CapProd hi coeff))).toInt = lowest lo hi coeff := by
  rw [min_toInt, min_toInt, capProd_exact hlo, capProd_exact hhi]
  rfl

/-- The upper extreme, as it is computed. -/
theorem highest_toInt (hlo : AtMinOrMaxInt64 (CapProd lo coeff) = false)
    (hhi : AtMinOrMaxInt64 (CapProd hi coeff) = false) :
    (max 0 (max (CapProd lo coeff) (CapProd hi coeff))).toInt = highest lo hi coeff := by
  rw [max_toInt, max_toInt, capProd_exact hlo, capProd_exact hhi]
  rfl

/-- A part of the sum may leave the term out, so the lower extreme is not above
zero. -/
theorem lowest_nonpos : lowest lo hi coeff ≤ 0 := min_le_left _ _

theorem highest_nonneg : 0 ≤ highest lo hi coeff := le_max_left _ _

/-- Both products lie between the two extremes. -/
theorem products_between :
    (lowest lo hi coeff ≤ lo.toInt * coeff.toInt ∧ lo.toInt * coeff.toInt ≤ highest lo hi coeff) ∧
      lowest lo hi coeff ≤ hi.toInt * coeff.toInt ∧
        hi.toInt * coeff.toInt ≤ highest lo hi coeff := by
  unfold lowest highest
  omega

/-- The state that `AddTerm` moves to when no test fails. -/
theorem addTerm_eq (hcoeff : coeff ≠ kint64min)
    (hlo : AtMinOrMaxInt64 (CapProd lo coeff) = false)
    (hhi : AtMinOrMaxInt64 (CapProd hi coeff) = false) :
    c.AddTerm coeff lo hi = (true, c') ↔
      c'.sum_min = CapAdd c.sum_min (min 0 (min (CapProd lo coeff) (CapProd hi coeff))) ∧
      c'.sum_max = CapAdd c.sum_max (max 0 (max (CapProd lo coeff) (CapProd hi coeff))) ∧
      -(2 ^ 62 - 1) ≤ c'.sum_min.toInt ∧ c'.sum_max.toInt ≤ 2 ^ 62 - 1 := by
  obtain ⟨least, greatest⟩ := c'
  obtain ⟨hmin, hmax⟩ := halves
  unfold LinearOverflowChecker.AddTerm
  simp only [hcoeff, hlo, hhi, Bool.false_eq_true, if_false, Prod.mk.injEq, Bool.and_eq_true, decide_eq_true_iff,
    ge_iff_le, Int64.le_iff_toInt_le, hmin, hmax, LinearOverflowChecker.mk.injEq]
  constructor
  · rintro ⟨⟨hlow, hhigh⟩, rfl, rfl⟩
    exact ⟨rfl, rfl, hlow, hhigh⟩
  · rintro ⟨rfl, rfl, hlow, hhigh⟩
    exact ⟨⟨hlow, hhigh⟩, rfl, rfl⟩

/-- A term that is added passes every test. -/
theorem addTerm_tests (h : c.AddTerm coeff lo hi = (true, c')) :
    coeff ≠ kint64min ∧ AtMinOrMaxInt64 (CapProd lo coeff) = false ∧
      AtMinOrMaxInt64 (CapProd hi coeff) = false := by
  unfold LinearOverflowChecker.AddTerm at h
  by_cases hcoeff : coeff = kint64min
  · rw [if_pos hcoeff] at h
    cases h
  rw [if_neg hcoeff] at h
  cases hlo : AtMinOrMaxInt64 (CapProd lo coeff) with
  | true => simp [hlo] at h
  | false =>
      cases hhi : AtMinOrMaxInt64 (CapProd hi coeff) with
      | true => simp [hlo, hhi] at h
      | false => exact ⟨hcoeff, rfl, rfl⟩

/-- `AddTerm` succeeds exactly if it adds exactly, and stays in half the range. -/
theorem addTerm_iff (hlow : c.sum_min.toInt ≤ 0) (hhigh : 0 ≤ c.sum_max.toInt) :
    c.AddTerm coeff lo hi = (true, c') ↔ TermAdded lo hi coeff c c' := by
  have hstart := c.sum_min.le_toInt
  have hend := c.sum_max.toInt_lt
  have hnonpos := @lowest_nonpos lo hi coeff
  have hnonneg := @highest_nonneg lo hi coeff
  constructor
  · intro h
    obtain ⟨hcoeff, hlo, hhi⟩ := addTerm_tests h
    obtain ⟨hmin, hmax, hmin', hmax'⟩ := (addTerm_eq hcoeff hlo hhi).mp h
    have hleast : c'.sum_min.toInt = clamp (-2 ^ 63) (2 ^ 63 - 1)
        (c.sum_min.toInt + lowest lo hi coeff) := by
      rw [hmin, capAdd_toInt, lowest_toInt hlo hhi]
    have hgreatest : c'.sum_max.toInt = clamp (-2 ^ 63) (2 ^ 63 - 1)
        (c.sum_max.toInt + highest lo hi coeff) := by
      rw [hmax, capAdd_toInt, highest_toInt hlo hhi]
    unfold clamp at hleast hgreatest
    exact ⟨hcoeff, by omega, by omega, hmin', hmax'⟩
  · rintro ⟨hcoeff, hmin, hmax, hmin', hmax'⟩
    obtain ⟨hlo, hhi⟩ := @products_between lo hi coeff
    have hlo : AtMinOrMaxInt64 (CapProd lo coeff) = false :=
      (capProd_exact_iff lo coeff).mpr (by omega)
    have hhi : AtMinOrMaxInt64 (CapProd hi coeff) = false :=
      (capProd_exact_iff hi coeff).mpr (by omega)
    refine (addTerm_eq hcoeff hlo hhi).mpr ⟨?_, ?_, hmin', hmax'⟩
    · apply Int64.toInt.inj
      rw [capAdd_exact (by rw [lowest_toInt hlo hhi]; omega)
        (by rw [lowest_toInt hlo hhi]; omega), lowest_toInt hlo hhi, hmin]
    · apply Int64.toInt.inj
      rw [capAdd_exact (by rw [highest_toInt hlo hhi]; omega)
        (by rw [highest_toInt hlo hhi]; omega), highest_toInt hlo hhi, hmax]

end Term

/-! ## All terms -/

section Terms

variable (model : CpModelProto)

/-- The least that a part of the sum can lose to the term. -/
def lowestTerm (t : Int32 × Int64) : ℤ :=
  lowest (variableOf model t.1).domain[0]!
    (variableOf model t.1).domain[(variableOf model t.1).domain.size - 1]! t.2

/-- The most that a part of the sum can gain from the term. -/
def highestTerm (t : Int32 × Int64) : ℤ :=
  highest (variableOf model t.1).domain[0]!
    (variableOf model t.1).domain[(variableOf model t.1).domain.size - 1]! t.2

variable {model} {t : Int32 × Int64} {terms : List (Int32 × Int64)} {c : LinearOverflowChecker}

/-- The loop goes on as long as terms can be added. -/
theorem termsOverflow_cons :
    termsOverflow model (t :: terms) c = false ↔
      ∃ c', c.AddTerm t.2 (variableOf model t.1).domain[0]!
          (variableOf model t.1).domain[(variableOf model t.1).domain.size - 1]! = (true, c') ∧
        termsOverflow model terms c' = false := by
  obtain ⟨ref, coeff⟩ := t
  rw [termsOverflow]
  unfold variableOf
  dsimp only
  cases c.AddTerm coeff _ _ with
  | mk fits c' => cases fits <;> simp

/-- The loop accepts exactly if the extremes of all terms together leave half
the range on neither side. -/
theorem termsOverflow_iff (hlow : -(2 ^ 62 - 1) ≤ c.sum_min.toInt ∧ c.sum_min.toInt ≤ 0)
    (hhigh : 0 ≤ c.sum_max.toInt ∧ c.sum_max.toInt ≤ 2 ^ 62 - 1) :
    termsOverflow model terms c = false ↔
      (∀ t ∈ terms, t.2 ≠ kint64min) ∧
        -(2 ^ 62 - 1) ≤ c.sum_min.toInt + (terms.map (lowestTerm model)).sum ∧
        c.sum_max.toInt + (terms.map (highestTerm model)).sum ≤ 2 ^ 62 - 1 := by
  induction terms generalizing c with
  | nil =>
      simp only [termsOverflow, List.not_mem_nil, false_implies, implies_true, true_and,
        List.map_nil, List.sum_nil, Int.add_zero, true_iff]
      exact ⟨hlow.1, hhigh.2⟩
  | cons t rest ih =>
      have hlowest : (rest.map (lowestTerm model)).sum ≤ 0 :=
        Loops.le_subperm_sum List.nil_subperm (fun _ _ => le_refl (lowestTerm model _))
          fun _ _ => lowest_nonpos
      have hhighest : 0 ≤ (rest.map (highestTerm model)).sum :=
        Loops.subperm_sum_le List.nil_subperm (fun _ _ => le_refl (highestTerm model _))
          fun _ _ => highest_nonneg
      have hlost : lowestTerm model t ≤ 0 := lowest_nonpos
      have hwon : 0 ≤ highestTerm model t := highest_nonneg
      rw [termsOverflow_cons, List.forall_mem_cons, List.map_cons, List.map_cons, List.sum_cons,
        List.sum_cons]
      constructor
      · rintro ⟨c', hadd, hrest⟩
        obtain ⟨hinner, hleast, hgreatest, hmin, hmax⟩ := (addTerm_iff hlow.2 hhigh.1).mp hadd
        change c'.sum_min.toInt = c.sum_min.toInt + lowestTerm model t at hleast
        change c'.sum_max.toInt = c.sum_max.toInt + highestTerm model t at hgreatest
        obtain ⟨hrest', hrestmin, hrestmax⟩ := (ih ⟨hmin, by omega⟩ ⟨by omega, hmax⟩).mp hrest
        exact ⟨⟨hinner, hrest'⟩, by omega, by omega⟩
      · rintro ⟨⟨hinner, hrest⟩, hmin, hmax⟩
        have hleast : (Int64.ofInt (c.sum_min.toInt + lowestTerm model t)).toInt =
            c.sum_min.toInt + lowestTerm model t :=
          Int64.toInt_ofInt_of_le (by omega) (by omega)
        have hgreatest : (Int64.ofInt (c.sum_max.toInt + highestTerm model t)).toInt =
            c.sum_max.toInt + highestTerm model t :=
          Int64.toInt_ofInt_of_le (by omega) (by omega)
        refine ⟨⟨Int64.ofInt (c.sum_min.toInt + lowestTerm model t),
          Int64.ofInt (c.sum_max.toInt + highestTerm model t)⟩,
          (addTerm_iff hlow.2 hhigh.1).mpr
            ⟨hinner, hleast, hgreatest, by rw [hleast]; omega, by rw [hgreatest]; omega⟩, ?_⟩
        rw [ih ⟨by rw [hleast]; omega, by rw [hleast]; omega⟩
          ⟨by rw [hgreatest]; omega, by rw [hgreatest]; omega⟩, hleast, hgreatest]
        exact ⟨hrest, by omega, by omega⟩

variable {vars : Array Int32} {coeffs : Array Int64} {offset : Int64}

/-- **When the overflow check accepts.**  The absolute value of the smallest
integer is left out: it has none. -/
theorem possibleIntegerOverflow_iff (hoffset : offset ≠ kint64min) :
    PossibleIntegerOverflow model vars coeffs offset = false ↔
      |offset.toInt| ≤ 2 ^ 62 - 1 ∧ (∀ t ∈ (vars.zip coeffs).toList, t.2 ≠ kint64min) ∧
        -(2 ^ 62 - 1) ≤
          -|offset.toInt| + ((vars.zip coeffs).toList.map (lowestTerm model)).sum ∧
        |offset.toInt| + ((vars.zip coeffs).toList.map (highestTerm model)).sum ≤ 2 ^ 62 - 1 := by
  have hne : offset.toInt ≠ -2 ^ 63 := fun heq => hoffset (Int64.toInt.inj heq)
  have hlow := offset.le_toInt
  have hhigh := offset.toInt_lt
  have habs : (if offset < 0 then -offset else offset).toInt = |offset.toInt| := by
    by_cases hneg : offset < 0
    · rw [if_pos hneg, toInt_neg_of_ne hoffset]
      rw [Int64.lt_iff_toInt_lt, Int64.toInt_zero] at hneg
      exact (abs_of_neg hneg).symm
    · rw [if_neg hneg]
      rw [Int64.lt_iff_toInt_lt, Int64.toInt_zero, not_lt] at hneg
      exact (abs_of_nonneg hneg).symm
  have hnonneg := abs_nonneg offset.toInt
  have hneg : (-(if offset < 0 then -offset else offset)).toInt = -|offset.toInt| := by
    rw [toInt_neg_of_ne, habs]
    intro heq
    have hmin : Int64.minValue.toInt = -2 ^ 63 := rfl
    rw [heq, hmin] at habs
    omega
  unfold PossibleIntegerOverflow
  generalize (if offset < 0 then -offset else offset) = magnitude at habs hneg ⊢
  by_cases hlarge : magnitude > kint64max / 2
  · rw [if_pos hlarge]
    rw [gt_iff_lt, Int64.lt_iff_toInt_lt, halves.2, habs] at hlarge
    exact iff_of_false (by decide) fun h => absurd h.1 (by omega)
  · rw [if_neg hlarge]
    rw [gt_iff_lt, Int64.lt_iff_toInt_lt, halves.2, habs, not_lt] at hlarge
    rw [termsOverflow_iff ⟨by rw [hneg]; omega, by rw [hneg]; omega⟩
      ⟨by rw [habs]; omega, by rw [habs]; omega⟩, hneg, habs]
    exact (and_iff_right hlarge).symm

/-- A product with a value between two bounds is between the products with
the bounds. -/
theorem product_between {lo hi coeff : Int64} {x : ℤ} (hlo : lo.toInt ≤ x) (hhi : x ≤ hi.toInt) :
    min (lo.toInt * coeff.toInt) (hi.toInt * coeff.toInt) ≤ coeff.toInt * x ∧
      coeff.toInt * x ≤ max (lo.toInt * coeff.toInt) (hi.toInt * coeff.toInt) := by
  rw [Int.mul_comm coeff.toInt]
  rcases le_total 0 coeff.toInt with hpos | hneg
  · have hbelow := mul_le_mul_of_nonneg_right hlo hpos
    have habove := mul_le_mul_of_nonneg_right hhi hpos
    omega
  · have hbelow := mul_le_mul_of_nonpos_right hlo hneg
    have habove := mul_le_mul_of_nonpos_right hhi hneg
    omega

/-- The variable is between the ends of its domain. -/
def Bounded (model : CpModelProto) (a : ℕ → ℤ) (ref : Int32) : Prop :=
  (variableOf model ref).domain[0]!.toInt ≤ a ref.toInt.toNat ∧
    a ref.toInt.toNat ≤ (variableOf model ref).domain[(variableOf model ref).domain.size - 1]!.toInt

/-- The value of a term of the message. -/
def termValue (a : ℕ → ℤ) (t : Int32 × Int64) : ℤ := t.2.toInt * a t.1.toInt.toNat

/-- The value of a term is between its extremes. -/
theorem termValue_between {a : ℕ → ℤ} (h : Bounded model a t.1) :
    lowestTerm model t ≤ termValue a t ∧ termValue a t ≤ highestTerm model t := by
  have hbetween := @product_between _ _ t.2 _ h.1 h.2
  exact ⟨(min_le_right _ _).trans hbetween.1, hbetween.2.trans (le_max_right _ _)⟩

/-- Once the check has accepted the terms, no part of them sums up to more than
half the range, whatever each contributes between its extremes. -/
theorem any_choice_fits (hoffset : offset ≠ kint64min)
    (h : PossibleIntegerOverflow model vars coeffs offset = false) {f : Int32 × Int64 → ℤ}
    (hf : ∀ t ∈ (vars.zip coeffs).toList, lowestTerm model t ≤ f t ∧ f t ≤ highestTerm model t)
    {part : List (Int32 × Int64)} (hpart : part.Subperm (vars.zip coeffs).toList) :
    |offset.toInt + (part.map f).sum| ≤ 2 ^ 62 - 1 := by
  obtain ⟨-, -, hmin, hmax⟩ := (possibleIntegerOverflow_iff hoffset).mp h
  have hleast := Loops.le_subperm_sum hpart (fun t ht => (hf t ht).1) fun _ _ => lowest_nonpos
  have hgreatest := Loops.subperm_sum_le hpart (fun t ht => (hf t ht).2) fun _ _ => highest_nonneg
  have hbelow := neg_abs_le offset.toInt
  have habove := le_abs_self offset.toInt
  rw [abs_le]
  constructor
  · exact hmin.trans (add_le_add hbelow hleast)
  · exact (add_le_add habove hgreatest).trans hmax

/-- No part of accepted terms sums up to more than half the range, whatever the
variables are in their domains. -/
theorem any_part_fits (hoffset : offset ≠ kint64min)
    (h : PossibleIntegerOverflow model vars coeffs offset = false) {a : ℕ → ℤ}
    (ha : ∀ t ∈ (vars.zip coeffs).toList, Bounded model a t.1)
    {part : List (Int32 × Int64)} (hpart : part.Subperm (vars.zip coeffs).toList) :
    |offset.toInt + (part.map (termValue a)).sum| ≤ 2 ^ 62 - 1 :=
  any_choice_fits hoffset h (fun t ht => termValue_between (ha t ht)) hpart

/-- **The order does not matter.**  Accepted terms can be summed in any order:
no sum on the way leaves half the range. -/
theorem no_order_overflows (hoffset : offset ≠ kint64min)
    (h : PossibleIntegerOverflow model vars coeffs offset = false) {a : ℕ → ℤ}
    (ha : ∀ t ∈ (vars.zip coeffs).toList, Bounded model a t.1)
    {order : List (Int32 × Int64)} (horder : order.Perm (vars.zip coeffs).toList) (k : ℕ) :
    |offset.toInt + ((order.take k).map (termValue a)).sum| ≤ 2 ^ 62 - 1 :=
  any_part_fits hoffset h ha ((List.take_sublist k order).subperm.trans horder.subperm)

/-- `1 + 3 * 10 - 2 * 10`, the last term first. -/
theorem no_order_overflows_swapped :
    |(1 : Int64).toInt + (([(1, -2), (0, 3)] : List (Int32 × Int64)).take 2
      |>.map (termValue fun _ => 10)).sum| ≤ 2 ^ 62 - 1 := by
  have hsmall : PossibleIntegerOverflow
      { «variables» := #[{ domain := #[0, 10] }, { domain := #[0, 10] }] } #[0, 1] #[3, -2] 1 =
        false := by decide +kernel
  have hterms : ((#[0, 1] : Array Int32).zip (#[3, -2] : Array Int64)).toList =
      [(0, 3), (1, -2)] := by decide +kernel
  refine no_order_overflows (by decide) hsmall ?_ (hterms ▸ List.Perm.swap _ _ _) 2
  intro t ht
  rw [hterms] at ht
  rcases List.mem_pair.mp ht with rfl | rfl
  · exact ⟨by decide +kernel, by decide +kernel⟩
  · exact ⟨by decide +kernel, by decide +kernel⟩

/-- The extremes of the opposite term are the opposite extremes. -/
theorem extremes_neg {ref : Int32} {coeff : Int64} (h : coeff ≠ kint64min) :
    lowestTerm model (ref, -coeff) = -highestTerm model (ref, coeff) ∧
      highestTerm model (ref, -coeff) = -lowestTerm model (ref, coeff) := by
  unfold lowestTerm highestTerm lowest highest
  dsimp only
  rw [toInt_neg_of_ne h, Int.mul_neg, Int.mul_neg]
  omega

/-- The smallest integer is its own opposite. -/
theorem neg_ne_min_iff {x : Int64} : -x ≠ kint64min ↔ x ≠ kint64min := by
  have hself : -kint64min = kint64min := by decide +kernel
  refine not_congr ⟨fun h => ?_, fun h => ?_⟩
  · rw [← @Int64.neg_neg x, h, hself]
  · rw [h, hself]

/-- **An expression passes exactly if its opposite does.** -/
theorem overflow_symmetric (hoffset : offset ≠ kint64min) :
    PossibleIntegerOverflow model vars (coeffs.map (-·)) (-offset) =
      PossibleIntegerOverflow model vars coeffs offset := by
  have hterms : (vars.zip (coeffs.map (-·))).toList =
      (vars.zip coeffs).toList.map fun t => (t.1, -t.2) := by
    simp [List.zip_map_right]
  have hiff : PossibleIntegerOverflow model vars (coeffs.map (-·)) (-offset) = false ↔
      PossibleIntegerOverflow model vars coeffs offset = false := by
    rw [possibleIntegerOverflow_iff hoffset,
      possibleIntegerOverflow_iff (neg_ne_min_iff.mpr hoffset), hterms, toInt_neg_of_ne hoffset,
      abs_neg, List.forall_mem_map]
    simp only [neg_ne_min_iff]
    refine and_congr_right fun _ => and_congr_right fun hinner => ?_
    have hleast : (((vars.zip coeffs).toList.map fun t => (t.1, -t.2)).map
        (lowestTerm model)).sum = -((vars.zip coeffs).toList.map (highestTerm model)).sum := by
      rw [List.sum_neg, List.map_map, List.map_map]
      exact congrArg List.sum
        (List.map_congr_left fun t ht => (extremes_neg (hinner t ht)).1)
    have hgreatest : (((vars.zip coeffs).toList.map fun t => (t.1, -t.2)).map
        (highestTerm model)).sum = -((vars.zip coeffs).toList.map (lowestTerm model)).sum := by
      rw [List.sum_neg, List.map_map, List.map_map]
      exact congrArg List.sum
        (List.map_congr_left fun t ht => (extremes_neg (hinner t ht)).2)
    rw [hleast, hgreatest]
    omega
  cases hfirst : PossibleIntegerOverflow model vars coeffs offset with
  | false => exact hiff.mpr hfirst
  | true =>
      rw [hfirst] at hiff
      simpa using hiff

end Terms

/-- A constant passes if its opposite does. -/
theorem overflow_symmetric_one :
    PossibleIntegerOverflow {} #[] (#[].map (-·)) (-1) = PossibleIntegerOverflow {} #[] #[] 1 :=
  overflow_symmetric (by decide)

end Cpsat.Checker
