import CpsatBindings.OverflowCheck

/-!
# Accepted expressions

What the validator computes about an expression that it has accepted, and what
its later checks rely on: the bounds `MinOfExpression` and `MaxOfExpression`
have not saturated, the value is between them, and it is the lower one where
the expression is fixed.
-/

namespace Cpsat.Checker

open Cpsat.Proto Intervals

variable {model : CpModelProto} {expr : LinearExpressionProto} {a : ℕ → ℤ}

/-- What the validator asks of an expression. -/
structure ExpressionIsValid (model : CpModelProto) (expr : LinearExpressionProto) : Prop where
  sizes : expr.coeffs.size = expr.vars.size
  positive : ∀ var ∈ expr.vars, RefIsPositive var = true
  fits : PossibleIntegerOverflow model expr.vars expr.coeffs expr.offset = false

/-- The validator has nothing to say of an expression exactly if it is valid. -/
theorem validateLinearExpression_iff (print : Printers) :
    ValidateLinearExpression model print expr = "" ↔ ExpressionIsValid model expr := by
  have hneg : expr.vars.any (fun var => !RefIsPositive var) = true ↔
      ¬ ∀ var ∈ expr.vars, RefIsPositive var = true := by
    rw [← Array.any_toList, List.any_eq_true]
    simp
  unfold ValidateLinearExpression
  rw [errorText_eq_empty, errorText_eq_empty, errorText_eq_empty, hneg]
  · constructor
    · rintro ⟨hsizes, hpositive, hfits, -⟩
      exact ⟨not_not.mp hsizes, not_not.mp hpositive, eq_false_of_ne_true hfits⟩
    · rintro ⟨hsizes, hpositive, hfits⟩
      exact ⟨not_not.mpr hsizes, not_not.mpr hpositive, by simp [hfits], rfl⟩
  all_goals decide

/-- The value of an expression of the message. -/
def expressionEval (a : ℕ → ℤ) (expr : LinearExpressionProto) : ℤ :=
  expr.offset.toInt + ((expr.vars.zip expr.coeffs).toList.map (termValue a)).sum

/-- A positive reference is its own variable. -/
theorem positiveRef_of_positive {ref : Int32} (h : RefIsPositive ref = true) :
    PositiveRef ref = ref := by
  rw [RefIsPositive, decide_eq_true_iff, ge_iff_le, Int32.le_iff_toInt_le, Int32.toInt_zero] at h
  have hhigh := ref.toInt_lt
  have hneg : (NegatedRef ref).toInt = -ref.toInt - 1 := by
    rw [NegatedRef, Int32.toInt_sub, Int32.toInt_neg, Int.bmod_sub_bmod, Int32.toInt_one]
    exact Int.bmod_eq_of_le (by omega) (by omega)
  rw [PositiveRef]
  change (if ref ≤ NegatedRef ref then NegatedRef ref else ref) = ref
  rw [if_neg]
  rw [Int32.le_iff_toInt_le, hneg]
  omega

/-- What a term adds to `MinOfExpression`. -/
def minTerm (model : CpModelProto) (t : Int32 × Int64) : Int64 :=
  if t.2 ≥ 0 then CapProd (MinOfRef model t.1) t.2 else CapProd (MaxOfRef model t.1) t.2

/-- What a term adds to `MaxOfExpression`. -/
def maxTerm (model : CpModelProto) (t : Int32 × Int64) : Int64 :=
  if t.2 ≥ 0 then CapProd (MaxOfRef model t.1) t.2 else CapProd (MinOfRef model t.1) t.2

/-- The variable of a term is one of the expression's. -/
theorem vars_of_mem {t : Int32 × Int64} (ht : t ∈ (expr.vars.zip expr.coeffs).toList) :
    t.1 ∈ expr.vars := by
  rw [Array.toList_zip] at ht
  simpa using (List.of_mem_zip ht).1

section Bounds

variable (h : ExpressionIsValid model expr) (hoffset : expr.offset ≠ kint64min)
  {t : Int32 × Int64} (ht : t ∈ (expr.vars.zip expr.coeffs).toList)

include h ht

/-- The bounds of a term's variable are the first and the last number of its domain. -/
theorem refs_of_mem :
    MinOfRef model t.1 = (variableOf model t.1).domain[0]! ∧
      MaxOfRef model t.1 =
        (variableOf model t.1).domain[(variableOf model t.1).domain.size - 1]! := by
  have hpositive := h.positive t.1 (vars_of_mem ht)
  rw [MinOfRef, MaxOfRef, if_pos hpositive, if_pos hpositive, positiveRef_of_positive hpositive]
  exact ⟨rfl, rfl⟩

include hoffset

/-- No product on the way to the bounds has saturated. -/
theorem products_exact :
    (CapProd (MinOfRef model t.1) t.2).toInt = (MinOfRef model t.1).toInt * t.2.toInt ∧
      (CapProd (MaxOfRef model t.1) t.2).toInt = (MaxOfRef model t.1).toInt * t.2.toInt := by
  obtain ⟨hsmall, -, -, -⟩ := (possibleIntegerOverflow_iff hoffset).mp h.fits
  have hpart : [t].Subperm (expr.vars.zip expr.coeffs).toList :=
    List.singleton_subperm_iff.mpr ht
  have hbetween : ∀ t ∈ (expr.vars.zip expr.coeffs).toList,
      lowestTerm model t ≤ highestTerm model t :=
    fun _ _ => lowest_nonpos.trans highest_nonneg
  have hlowest := any_choice_fits hoffset h.fits
    (fun t ht => ⟨le_refl _, hbetween t ht⟩) hpart
  have hhighest := any_choice_fits hoffset h.fits
    (fun t ht => ⟨hbetween t ht, le_refl _⟩) hpart
  rw [List.map_singleton, List.sum_singleton, abs_le] at hlowest hhighest
  rw [abs_le] at hsmall
  obtain ⟨hmin, hmax⟩ := refs_of_mem h ht
  rw [hmin, hmax, capProd_toInt, capProd_toInt]
  obtain ⟨hlo, hhi⟩ := @products_between (variableOf model t.1).domain[0]!
    (variableOf model t.1).domain[(variableOf model t.1).domain.size - 1]! t.2
  change lowestTerm model t ≤ _ ∧ _ ≤ highestTerm model t at hlo
  change lowestTerm model t ≤ _ ∧ _ ≤ highestTerm model t at hhi
  exact ⟨clamp_of_mem (by omega) (by omega), clamp_of_mem (by omega) (by omega)⟩

/-- The contributions to the bounds are between the extremes of the term. -/
theorem boundTerms_between :
    (lowestTerm model t ≤ (minTerm model t).toInt ∧
        (minTerm model t).toInt ≤ highestTerm model t) ∧
      lowestTerm model t ≤ (maxTerm model t).toInt ∧
        (maxTerm model t).toInt ≤ highestTerm model t := by
  obtain ⟨hleast, hgreatest⟩ := products_exact h hoffset ht
  obtain ⟨hmin, hmax⟩ := refs_of_mem h ht
  obtain ⟨hlo, hhi⟩ := @products_between (variableOf model t.1).domain[0]!
    (variableOf model t.1).domain[(variableOf model t.1).domain.size - 1]! t.2
  unfold minTerm maxTerm
  by_cases hpos : t.2 ≥ 0
  · rw [if_pos hpos, if_pos hpos, hleast, hgreatest, hmin, hmax]
    exact ⟨hlo, hhi⟩
  · rw [if_neg hpos, if_neg hpos, hleast, hgreatest, hmin, hmax]
    exact ⟨hhi, hlo⟩

/-- The value of a term is between its contributions to the bounds. -/
theorem termValue_bounds (ha : Bounded model a t.1) :
    (minTerm model t).toInt ≤ termValue a t ∧ termValue a t ≤ (maxTerm model t).toInt := by
  obtain ⟨hleast, hgreatest⟩ := products_exact h hoffset ht
  obtain ⟨hmin, hmax⟩ := refs_of_mem h ht
  unfold minTerm maxTerm termValue
  rw [Int.mul_comm t.2.toInt]
  by_cases hpos : t.2 ≥ 0
  · rw [if_pos hpos, if_pos hpos, hleast, hgreatest, hmin, hmax]
    rw [ge_iff_le, Int64.le_iff_toInt_le, Int64.toInt_zero] at hpos
    exact ⟨mul_le_mul_of_nonneg_right ha.1 hpos, mul_le_mul_of_nonneg_right ha.2 hpos⟩
  · rw [if_neg hpos, if_neg hpos, hleast, hgreatest, hmin, hmax]
    rw [ge_iff_le, Int64.le_iff_toInt_le, Int64.toInt_zero, not_le] at hpos
    exact ⟨mul_le_mul_of_nonpos_right ha.2 hpos.le, mul_le_mul_of_nonpos_right ha.1 hpos.le⟩

end Bounds

section Values

variable (h : ExpressionIsValid model expr) (hoffset : expr.offset ≠ kint64min)

include h hoffset

/-- No sum on the way to a bound saturates. -/
theorem foldl_capAdd_toInt {g : Int32 × Int64 → Int64}
    (hg : ∀ t ∈ (expr.vars.zip expr.coeffs).toList,
      lowestTerm model t ≤ (g t).toInt ∧ (g t).toInt ≤ highestTerm model t) :
    ((expr.vars.zip expr.coeffs).toList.foldl (fun sum t => CapAdd sum (g t)) expr.offset).toInt =
      expr.offset.toInt + ((expr.vars.zip expr.coeffs).toList.map fun t => (g t).toInt).sum := by
  have hparts : ∀ part, part <+: (expr.vars.zip expr.coeffs).toList →
      |expr.offset.toInt + (part.map fun t => (g t).toInt).sum| < 2 ^ 63 := by
    intro part hpart
    have hfits := any_choice_fits hoffset h.fits hg hpart.sublist.subperm
    omega
  calc ((expr.vars.zip expr.coeffs).toList.foldl (fun sum t => CapAdd sum (g t)) expr.offset).toInt
      = (expr.vars.zip expr.coeffs).toList.foldl
          (fun sum t => clamp (-2 ^ 63) (2 ^ 63 - 1) (sum + (g t).toInt)) expr.offset.toInt :=
        (List.foldl_hom Int64.toInt fun sum t => (capAdd_toInt sum (g t)).symm).symm
    _ = expr.offset.toInt + ((expr.vars.zip expr.coeffs).toList.map fun t => (g t).toInt).sum :=
        Loops.foldl_saturating_add _ _ hparts

/-- The lower bound of an expression is the sum of its terms' lower bounds. -/
theorem minOfExpression_toInt :
    (MinOfExpression model expr).toInt = expr.offset.toInt +
      ((expr.vars.zip expr.coeffs).toList.map fun t => (minTerm model t).toInt).sum :=
  foldl_capAdd_toInt h hoffset fun _ ht => (boundTerms_between h hoffset ht).1

theorem maxOfExpression_toInt :
    (MaxOfExpression model expr).toInt = expr.offset.toInt +
      ((expr.vars.zip expr.coeffs).toList.map fun t => (maxTerm model t).toInt).sum :=
  foldl_capAdd_toInt h hoffset fun _ ht => (boundTerms_between h hoffset ht).2

variable (ha : ∀ var ∈ expr.vars, Bounded model a var)

include ha

/-- **The bounds of an expression bound it.** -/
theorem expressionEval_bounds :
    (MinOfExpression model expr).toInt ≤ expressionEval a expr ∧
      expressionEval a expr ≤ (MaxOfExpression model expr).toInt := by
  rw [minOfExpression_toInt h hoffset, maxOfExpression_toInt h hoffset, expressionEval]
  constructor
  · exact Int.add_le_add_left (List.sum_le_sum fun t ht =>
      (termValue_bounds h hoffset ht (ha t.1 (vars_of_mem ht))).1) _
  · exact Int.add_le_add_left (List.sum_le_sum fun t ht =>
      (termValue_bounds h hoffset ht (ha t.1 (vars_of_mem ht))).2) _

/-- The value of an accepted expression stays within half the range. -/
theorem expressionEval_small : |expressionEval a expr| ≤ 2 ^ 62 - 1 :=
  any_part_fits hoffset h.fits (fun t ht => ha t.1 (vars_of_mem ht)) (List.Subperm.refl _)

/-- A fixed expression has the value the validator computes for it. -/
theorem expressionEval_fixed (hfixed : ExpressionIsFixed model expr = true) :
    expressionEval a expr = (ExpressionFixedValue model expr).toInt := by
  have hterm : ∀ t ∈ (expr.vars.zip expr.coeffs).toList,
      termValue a t = (minTerm model t).toInt := by
    intro t ht
    have hsame : minTerm model t = maxTerm model t := by
      obtain ⟨hmin, hmax⟩ := refs_of_mem h ht
      obtain ⟨hleast, hgreatest⟩ := products_exact h hoffset ht
      have hbody := List.all_eq_true.mp hfixed t ht
      by_cases hzero : t.2 = 0
      · apply Int64.toInt.inj
        unfold minTerm maxTerm
        have hpos : t.2 ≥ 0 := by
          rw [hzero]
          exact Int64.le_refl 0
        rw [if_pos hpos, if_pos hpos, hleast, hgreatest, hzero, Int64.toInt_zero, Int.mul_zero,
          Int.mul_zero]
      · rw [if_neg hzero] at hbody
        simp only [Bool.not_eq_true', Bool.or_eq_false_iff, decide_eq_false_iff_not, ne_eq,
          not_not] at hbody
        unfold minTerm maxTerm
        rw [hmin, hmax, hbody.1, hbody.2]
    obtain ⟨hbelow, habove⟩ := termValue_bounds h hoffset ht (ha t.1 (vars_of_mem ht))
    rw [← hsame] at habove
    exact le_antisymm habove hbelow
  rw [ExpressionFixedValue, minOfExpression_toInt h hoffset, expressionEval]
  exact congrArg _ (congrArg List.sum (List.map_congr_left hterm))

end Values

end Cpsat.Checker
