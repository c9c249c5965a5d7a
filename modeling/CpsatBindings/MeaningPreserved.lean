import Mathlib.Data.Fintype.EquivFin
import Mathlib.Data.List.Nodup
import CpsatBindings.AccumulatingLoops
import CpsatBindings.ModelMeaning
import CpsatBindings.SolutionHint
import CpsatBindings.SortedIntervalList

/-!
# The message means what the model means

`modelStateToProto` is a translation, and the solver reads its result with
`SolutionIsFeasible`.  As long as nothing leaves its range, the values the
solver takes for a solution of the message are the solutions of the model.
-/

namespace Cpsat.Proto

open Checker Intervals

/-- The assignment that a solution vector stands for. -/
def assignment (values : Array Int64) : ℕ → ℤ := fun i => values[i]!.toInt

variable {values : Array Int64}

/-! ## References -/

section References

variable {v : IntVar} {b : BoolVar}

/-- Below `2 ^ 31` a reference is read as the variable it was made from. -/
theorem read_varRef (h : v.index < 2 ^ 31) :
    varRef v ≥ 0 ∧ (varRef v).toInt.toNat = v.index := by
  have href := varRef_toInt h
  refine ⟨?_, by omega⟩
  rw [ge_iff_le, Int32.le_iff_toInt_le, href, Int32.toInt_zero]
  omega

/-- The value of a reference is that of the variable. -/
theorem value_varRef (h : v.index < 2 ^ 31) :
    Value values (varRef v) = values[v.index]! := by
  obtain ⟨hpos, hindex⟩ := read_varRef h
  rw [Value, if_pos hpos, hindex]

/-- A literal that can be referred to is sent as it is. -/
theorem litRef_toInt (h : b.variable < 2 ^ 31) : (litRef b).toInt = b.literal := by
  unfold BoolVar.variable at h
  apply Int32.toInt_ofInt_of_le
  · split at h <;> omega
  · split at h <;> omega

/-- A literal is true in the message exactly if it holds in the model. -/
theorem literalIsTrue_iff (h : b.Fits (assignment values)) :
    LiteralIsTrue values (litRef b) = true ↔ b.Holds (assignment values) := by
  have href := litRef_toInt h.small
  have hbinary := h.binary
  have hsmall := h.small
  have hsign : litRef b ≥ 0 ↔ ¬ b.literal < 0 := by
    rw [ge_iff_le, Int32.le_iff_toInt_le, href, Int32.toInt_zero]
    omega
  unfold LiteralIsTrue BoolVar.Holds
  unfold assignment BoolVar.variable at hbinary ⊢
  unfold BoolVar.variable at hsmall
  by_cases hneg : b.literal < 0
  · have hindex : (-litRef b - 1).toInt.toNat = (-b.literal - 1).toNat := by
      rw [Int32.toInt_sub, Int32.toInt_neg, Int.bmod_sub_bmod, Int32.toInt_one, href]
      rw [if_pos hneg] at hsmall
      rw [Int.bmod_eq_of_le (by omega) (by omega)]
    rw [if_neg (fun hpos => hsign.mp hpos hneg), hindex]
    simp only [hneg, if_true, beq_iff_eq]
    rw [← Int64.toInt_inj, Int64.toInt_zero]
  · rw [if_pos (hsign.mpr hneg), href]
    simp only [hneg, if_false, bne_iff_ne, ne_eq] at hbinary ⊢
    rw [← Int64.toInt_inj, Int64.toInt_zero]
    omega

end References

/-! ## Expressions -/

section Expressions

variable {e : LinearExpr}

/-- A wrapping sum of products over the terms of an expression. -/
theorem sum_terms (f : IntVar → Int64) (terms : List (IntVar × Int64)) (z : Int64) :
    (terms.foldl (fun sum t => sum + f t.1 * t.2) z).toInt =
      (z.toInt + (terms.map fun t => t.2.toInt * (f t.1).toInt).sum).bmod (2 ^ 64) := by
  have hlow := z.le_toInt
  have hhigh := z.toInt_lt
  have hstart : z.toInt = z.toInt.bmod (2 ^ 64) :=
    (Int.bmod_eq_of_le (by omega) (by omega)).symm
  have hproduct : ∀ t : IntVar × Int64,
      (f t.1 * t.2).toInt = (t.2.toInt * (f t.1).toInt).bmod (2 ^ 64) := by
    intro t
    rw [Int64.toInt_mul, Int.mul_comm]
  calc (terms.foldl (fun sum t => sum + f t.1 * t.2) z).toInt
      = terms.foldl (fun sum t => (sum + (f t.1 * t.2).toInt).bmod (2 ^ 64)) z.toInt :=
        (List.foldl_hom Int64.toInt fun sum t => (Int64.toInt_add sum _).symm).symm
    _ = (z.toInt + (terms.map fun t => t.2.toInt * (f t.1).toInt).sum).bmod (2 ^ 64) := by
        rw [hstart, Loops.foldl_wrapping_add _ _ hproduct, ← hstart]

/-- The terms of the message are those of the expression. -/
theorem zip_terms (terms : Array (IntVar × Int64)) :
    ((terms.map (varRef ·.1)).zip (terms.map (·.2))).toList =
      terms.toList.map fun t => (varRef t.1, t.2) := by
  rw [Array.toList_zip, Array.toList_map, Array.toList_map, List.zip_map']

/-- A sum of words is the sum, over the integers. -/
theorem sum_value (hvars : ∀ term ∈ e.terms.toList, term.1.index < 2 ^ 31) :
    (e.terms.toList.map fun t => t.2.toInt * (Value values (varRef t.1)).toInt).sum =
      e.sum (assignment values) := by
  refine congrArg List.sum (List.map_congr_left fun t ht => ?_)
  rw [value_varRef (hvars t ht)]
  rfl

/-- An expression that fits is computed exactly. -/
theorem expressionValue (h : e.Fits (assignment values)) :
    (LinearExpressionValue values (linearExprToProto e)).toInt = e.eval (assignment values) := by
  have hlow := h.low
  have hhigh := h.high
  rw [LinearExpressionValue, linearExprToProto, zip_terms, List.foldl_map]
  rw [sum_terms (fun v => Value values (varRef v)), sum_value h.vars, Int.add_comm]
  exact Int.bmod_eq_of_le (by exact hlow) (by exact hhigh)

/-- Expressions that fit are compared as integers. -/
theorem expressionValue_eq_iff {e' : LinearExpr} (h : e.Fits (assignment values))
    (h' : e'.Fits (assignment values)) :
    LinearExpressionValue values (linearExprToProto e) =
        LinearExpressionValue values (linearExprToProto e') ↔
      e.eval (assignment values) = e'.eval (assignment values) := by
  rw [← Int64.toInt_inj, expressionValue h, expressionValue h']

end Expressions

/-! ## Domains -/

/-- A flat domain contains what the domain contains. -/
theorem domainContains_iff (d : Domain) (x : Int64) :
    DomainInProtoContains (domainToFlatArray d) x = true ↔ d.Contains x.toInt := by
  have hcount : ((domainToFlatArray d).size + 1) / 2 = d.intervals.size := by
    rw [domainToFlatArray_size]
    omega
  rw [DomainInProtoContains, hcount, List.any_eq_true]
  have hends : d.Contains x.toInt ↔
      ∃ k, ∃ h : k < d.intervals.size,
        d.intervals[k].1.toInt ≤ x.toInt ∧ x.toInt ≤ d.intervals[k].2.toInt := by
    simp only [Domain.Contains, Covers, domainEnds, List.mem_map, exists_exists_and_eq_and,
      Array.mem_toList_iff, Array.mem_iff_getElem]
    constructor
    · rintro ⟨i, ⟨k, hk, rfl⟩, hx⟩
      exact ⟨k, hk, hx⟩
    · rintro ⟨k, hk, hx⟩
      exact ⟨_, ⟨k, hk, rfl⟩, hx⟩
  rw [hends]
  constructor
  · rintro ⟨i, hi, hx⟩
    obtain ⟨k, hk, rfl⟩ := List.mem_range'.mp hi
    rw [Nat.zero_add, flat_lower hk, flat_upper hk, Bool.and_eq_true, decide_eq_true_iff,
      decide_eq_true_iff, ge_iff_le, Int64.le_iff_toInt_le, Int64.le_iff_toInt_le] at hx
    exact ⟨k, hk, hx⟩
  · rintro ⟨k, hk, hx⟩
    refine ⟨0 + 2 * k, List.mem_range'.mpr ⟨k, hk, rfl⟩, ?_⟩
    rw [Nat.zero_add, flat_lower hk, flat_upper hk, Bool.and_eq_true, decide_eq_true_iff,
      decide_eq_true_iff, ge_iff_le, Int64.le_iff_toInt_le, Int64.le_iff_toInt_le]
    exact hx

/-- A linear message bounds the sum without its constant. -/
theorem linearIsFeasible_iff {e : LinearExpr} (d : Domain)
    (hvars : ∀ term ∈ e.terms.toList, term.1.index < 2 ^ 31)
    (hlow : -2 ^ 63 < e.sum (assignment values))
    (hhigh : e.sum (assignment values) < 2 ^ 63 - 1) :
    LinearConstraintIsFeasible values
        { vars := e.terms.map (varRef ·.1), coeffs := e.terms.map (·.2)
          domain := domainToFlatArray d } = true ↔
      d.Contains (e.sum (assignment values)) := by
  have hsum : (e.terms.toList.map fun t =>
      t.2.toInt * (values[(varRef t.1).toInt.toNat]!).toInt).sum = e.sum (assignment values) := by
    refine congrArg List.sum (List.map_congr_left fun t ht => ?_)
    rw [(read_varRef (hvars t ht)).2]
    rfl
  rw [LinearConstraintIsFeasible, zip_terms, List.foldl_map, domainContains_iff]
  rw [sum_terms (fun v => values[(varRef v).toInt.toNat]!), hsum, Int64.toInt_zero,
    Int.zero_add, Int.bmod_eq_of_le (by omega) (by omega)]

/-! ## Literals -/

section Literals

variable {lits : Array BoolVar} (h : ∀ b ∈ lits.toList, b.Fits (assignment values))

include h

/-- Some literal is true exactly if some literal holds. -/
theorem literals_any :
    (lits.map litRef).toList.any (LiteralIsTrue values) = true ↔
      ∃ b ∈ lits.toList, b.Holds (assignment values) := by
  rw [Array.toList_map, List.any_map, List.any_eq_true]
  exact exists_congr fun b => and_congr_right fun hb => literalIsTrue_iff (h b hb)

/-- No literal is false exactly if all hold. -/
theorem literals_all :
    (!(lits.map litRef).toList.any (LiteralIsFalse values)) = true ↔
      ∀ b ∈ lits.toList, b.Holds (assignment values) := by
  rw [Array.toList_map, List.any_map, Bool.not_eq_true', List.any_eq_false]
  refine forall₂_congr fun b hb => ?_
  simp only [Function.comp_apply, LiteralIsFalse, Bool.not_eq_true, Bool.not_eq_false']
  exact literalIsTrue_iff (h b hb)

/-- As many are true as hold. -/
theorem literals_count :
    (lits.map litRef).toList.countP (LiteralIsTrue values) =
      trueLiterals (assignment values) lits := by
  rw [Array.toList_map, List.countP_map]
  refine List.countP_congr fun b hb => ?_
  rw [Function.comp_apply, literalIsTrue_iff (h b hb), decide_eq_true_iff]

end Literals

/-! ## Constraint kinds -/

section Kinds

/-- **Sums**, with the constant in the domain. -/
theorem linear_iff {expr : LinearExpr} {d : Domain}
    (h : (ConstraintKind.linear expr d).Fits (assignment values)) :
    LinearConstraintIsFeasible values
        { vars := expr.terms.map (varRef ·.1), coeffs := expr.terms.map (·.2)
          domain := domainToFlatArray (shiftDomain d expr.constant) } = true ↔
      d.Contains (expr.eval (assignment values)) := by
  obtain ⟨hvars, hlow, hhigh⟩ := h
  have hmin : Int64.minValue.toInt = -2 ^ 63 := rfl
  have hmax : Int64.maxValue.toInt = 2 ^ 63 - 1 := rfl
  rw [linearIsFeasible_iff _ hvars hlow hhigh]
  exact shiftDomain_covers_iff d expr.constant (by omega) (by omega)

/-- The number of true literals. -/
theorem numTrueLiterals_eq {lits : Array BoolVar}
    (h : ∀ b ∈ lits.toList, b.Fits (assignment values)) :
    numTrueLiterals values (lits.map litRef) = trueLiterals (assignment values) lits := by
  rw [numTrueLiterals, Loops.foldl_count, Nat.zero_add, literals_count h]

/-- **Parity** of the number of true literals. -/
theorem boolXor_iff {lits : Array BoolVar}
    (h : ∀ b ∈ lits.toList, b.Fits (assignment values)) :
    BoolXorConstraintIsFeasible values { literals := lits.map litRef } = true ↔
      Odd (trueLiterals (assignment values) lits) := by
  rw [BoolXorConstraintIsFeasible, Loops.foldl_xor, Bool.false_xor, decide_eq_true_iff,
    literals_count h]

/-- The maximum of words is that of the integers. -/
theorem foldl_max_toInt {α : Type*} (f : α → Int64) (l : List α) (z : Int64) :
    (l.foldl (fun m x => max m (f x)) z).toInt =
      l.foldl (fun m x => max m (f x).toInt) z.toInt :=
  (List.foldl_hom Int64.toInt fun m x => (max_toInt m (f x)).symm).symm

/-- The values of the expressions of the message are those in the model. -/
theorem values_eq {exprs : Array LinearExpr}
    (h : ∀ e ∈ exprs.toList, e.Fits (assignment values)) :
    exprs.toList.map (fun e => (LinearExpressionValue values (linearExprToProto e)).toInt) =
      exprs.toList.map fun e => e.eval (assignment values) :=
  List.map_congr_left fun e he => expressionValue (h e he)

/-- **Maxima** of expressions. -/
theorem linMax_iff {target : LinearExpr} {exprs : Array LinearExpr}
    (h : (ConstraintKind.linMax target exprs).Fits (assignment values)) :
    LinMaxConstraintIsFeasible values
        { target := some (linearExprToProto target)
          exprs := exprs.map linearExprToProto } = true ↔
      IsGreatest {x | ∃ e ∈ exprs.toList, e.eval (assignment values) = x}
        (target.eval (assignment values)) := by
  obtain ⟨htarget, hnonempty, hexprs⟩ := h
  rw [LinMaxConstraintIsFeasible, Array.toList_map, List.foldl_map, beq_iff_eq,
    ← Int64.toInt_inj, targetValue, Option.getD_some, expressionValue htarget]
  by_cases hnil : exprs.toList = []
  · have hlow := hnonempty.resolve_left (not_not.mpr hnil)
    have hmin : kint64min.toInt = -2 ^ 63 := rfl
    rw [hnil, List.foldl_nil, hmin]
    refine iff_of_false (by omega) ?_
    rintro ⟨⟨e, he, -⟩, -⟩
    cases he
  have hvalue : ∀ x, (∃ e ∈ exprs.toList, e.eval (assignment values) = x) ↔
      ∃ e ∈ exprs.toList,
        (LinearExpressionValue values (linearExprToProto e)).toInt = x := by
    intro x
    refine exists_congr fun e => and_congr_right fun he => ?_
    rw [expressionValue (hexprs e he)]
  have hmax : IsGreatest {x | ∃ e ∈ exprs.toList, e.eval (assignment values) = x}
      (exprs.toList.foldl (fun m e => max m (LinearExpressionValue values (linearExprToProto e)))
        kint64min).toInt := by
    simp only [hvalue]
    rw [foldl_max_toInt]
    exact Loops.isGreatest_foldl_max _ hnil fun e _ => Int64.le_toInt _
  constructor
  · intro heq
    rw [heq]
    exact hmax
  · intro hgreatest
    exact hgreatest.unique hmax

/-- A saturated product, factor by factor. -/
theorem foldl_capProd_toInt {α : Type*} (f : α → Int64) (l : List α) (z : Int64) :
    (l.foldl (fun p x => CapProd p (f x)) z).toInt =
      l.foldl (fun p x => clamp (-2 ^ 63) (2 ^ 63 - 1) (p * (f x).toInt)) z.toInt :=
  (List.foldl_hom Int64.toInt fun p x => (clampToInt64_toInt (p.toInt * (f x).toInt)).symm).symm

/-- Strictly inside the range nothing has saturated. -/
theorem foldl_capProd_eq_iff {α : Type*} (f : α → Int64) {l : List α} (hl : l.length ≤ 2) {x : ℤ}
    (hx : |x| < 2 ^ 63 - 1) :
    x = (l.foldl (fun p y => CapProd p (f y)) 1).toInt ↔ x = (l.map fun y => (f y).toInt).prod := by
  have hclamp : ∀ y, clamp (-2 ^ 63) (2 ^ 63 - 1) (1 * (f y).toInt) = (f y).toInt := by
    intro y
    rw [one_mul]
    exact clamp_of_mem (f y).le_toInt (Int.le_sub_one_of_lt (f y).toInt_lt)
  obtain ⟨hlow, hhigh⟩ := abs_lt.mp hx
  rw [foldl_capProd_toInt, Int64.toInt_one]
  match l, hl with
  | [], _ => simp
  | [y], _ => rw [List.foldl_cons, List.foldl_nil, hclamp, List.map_singleton, List.prod_singleton]
  | [y, z], _ =>
      rw [List.foldl_cons, List.foldl_cons, List.foldl_nil, hclamp, List.map_cons, List.map_cons,
        List.map_nil, List.prod_cons, List.prod_singleton]
      unfold clamp
      omega

/-- **Products**; two factors may saturate. -/
theorem intProd_iff {target : LinearExpr} {factors : Array LinearExpr}
    (h : (ConstraintKind.intProd target factors).Fits (assignment values)) :
    IntProdConstraintIsFeasible values
        { target := some (linearExprToProto target)
          exprs := factors.map linearExprToProto } = true ↔
      target.eval (assignment values) =
        (factors.toList.map fun e => e.eval (assignment values)).prod := by
  obtain ⟨htarget, hfactors, hprod⟩ := h
  have hvalues := values_eq hfactors
  rw [IntProdConstraintIsFeasible, Array.toList_map, List.foldl_map, beq_iff_eq,
    ← Int64.toInt_inj, targetValue, Option.getD_some, expressionValue htarget]
  rw [← hvalues] at hprod ⊢
  rcases hprod with hexact | ⟨htwo, hinner⟩
  · rw [foldl_capProd_toInt, Int64.toInt_one,
      Loops.foldl_saturating_mul _ _ (by rwa [one_mul]), one_mul]
  · exact foldl_capProd_eq_iff _ htwo hinner

/-- **Quotients**, rounded towards zero. -/
theorem intDiv_iff {target numerator denominator : LinearExpr}
    (h : (ConstraintKind.intDiv target numerator denominator).Fits (assignment values)) :
    IntDivConstraintIsFeasible values
        { target := some (linearExprToProto target)
          exprs := #[linearExprToProto numerator, linearExprToProto denominator] } = true ↔
      target.eval (assignment values) =
        (numerator.eval (assignment values)).tdiv (denominator.eval (assignment values)) := by
  obtain ⟨htarget, hnumerator, hdenominator, -, hhigh⟩ := h
  change (targetValue values _ == LinearExpressionValue values (linearExprToProto numerator) /
    LinearExpressionValue values (linearExprToProto denominator)) = true ↔ _
  rw [beq_iff_eq, ← Int64.toInt_inj, targetValue, Option.getD_some, Int64.toInt_div,
    expressionValue htarget, expressionValue hnumerator, expressionValue hdenominator]
  have hbound : ((numerator.eval (assignment values)).tdiv
      (denominator.eval (assignment values))).natAbs ≤ 2 ^ 63 := by
    rw [Int.natAbs_tdiv]
    have hlow := hnumerator.low
    have hupper := hnumerator.high
    exact (Nat.div_le_self _ _).trans (by omega)
  rw [Int.bmod_eq_of_le (by omega) (by omega)]

/-- **Remainders**, with the sign of the dividend. -/
theorem intMod_iff {target expr modulus : LinearExpr}
    (h : (ConstraintKind.intMod target expr modulus).Fits (assignment values)) :
    IntModConstraintIsFeasible values
        { target := some (linearExprToProto target)
          exprs := #[linearExprToProto expr, linearExprToProto modulus] } = true ↔
      target.eval (assignment values) =
        (expr.eval (assignment values)).tmod (modulus.eval (assignment values)) := by
  obtain ⟨htarget, hexpr, hmodulus, -, -⟩ := h
  change (targetValue values _ == LinearExpressionValue values (linearExprToProto expr) %
    LinearExpressionValue values (linearExprToProto modulus)) = true ↔ _
  rw [beq_iff_eq, ← Int64.toInt_inj, targetValue, Option.getD_some, Int64.toInt_mod,
    expressionValue htarget, expressionValue hexpr, expressionValue hmodulus]

/-- Everything can be inserted exactly if nothing comes twice. -/
theorem allInserted_iff {seen l : List Int64} :
    allInserted seen l = true ↔ l.Nodup ∧ ∀ value ∈ seen, value ∉ l := by
  induction l generalizing seen with
  | nil => simp [allInserted]
  | cons value rest ih =>
      unfold allInserted
      split
      · rename_i hmem
        refine iff_of_false Bool.false_ne_true fun h => ?_
        exact h.2 value hmem List.mem_cons_self
      · rename_i hnew
        rw [ih, List.nodup_cons]
        simp only [List.mem_cons]
        grind

/-- A variable is an expression that always fits. -/
theorem fits_ofIntVar {v : IntVar} (h : v.index < 2 ^ 31) :
    (LinearExpr.ofIntVar v).Fits (assignment values) ∧
      (LinearExpr.ofIntVar v).eval (assignment values) = assignment values v.index := by
  have heval : (LinearExpr.ofIntVar v).eval (assignment values) = assignment values v.index := by
    simp [LinearExpr.eval, LinearExpr.sum, LinearExpr.ofIntVar]
  refine ⟨⟨?_, ?_, ?_⟩, heval⟩
  · simpa [LinearExpr.ofIntVar] using h
  · rw [heval]
    exact Int64.le_toInt _
  · rw [heval]
    exact Int64.toInt_lt _

/-- **Different values**, found by inserting them one by one. -/
theorem allDifferent_iff {vars : Array IntVar}
    (h : (ConstraintKind.allDifferent vars).Fits (assignment values)) :
    AllDiffConstraintIsFeasible values
        { exprs := vars.map fun v => linearExprToProto (.ofIntVar v) } = true ↔
      (vars.toList.map fun v => assignment values v.index).Nodup := by
  have hvalues : (vars.toList.map fun v =>
        LinearExpressionValue values (linearExprToProto (.ofIntVar v))).map Int64.toInt =
      vars.toList.map fun v => assignment values v.index := by
    rw [List.map_map]
    refine List.map_congr_left fun v hv => ?_
    rw [Function.comp_apply, expressionValue (fits_ofIntVar (h v hv)).1,
      (fits_ofIntVar (h v hv)).2]
  rw [← hvalues, List.nodup_map_iff fun _ _ => Int64.toInt.inj]
  rw [AllDiffConstraintIsFeasible, allInserted_iff, Array.toList_map, List.map_map]
  simp [Function.comp_def]

/-- A word that fits 32 bits is narrowed to itself. -/
theorem toInt32_toInt {x : Int64} (hlow : -2 ^ 31 ≤ x.toInt) (hhigh : x.toInt < 2 ^ 31) :
    x.toInt32.toInt = x.toInt := by
  rw [Int64.toInt_toInt32]
  exact Int.bmod_eq_of_le (by omega) (by omega)

/-- **Elements** of an array. -/
theorem element_iff {index target : LinearExpr} {exprs : Array LinearExpr}
    (h : (ConstraintKind.element index exprs target).Fits (assignment values)) :
    ElementConstraintIsFeasible values
        { linear_index := some (linearExprToProto index)
          linear_target := some (linearExprToProto target)
          exprs := exprs.map linearExprToProto } = true ↔
      (ConstraintKind.element index exprs target).Holds (assignment values) := by
  obtain ⟨hindex, htarget, hexprs, hlow, hhigh⟩ := h
  have hvalue := expressionValue hindex
  have hnarrow : (LinearExpressionValue values (linearExprToProto index)).toInt32.toInt =
      index.eval (assignment values) := by
    rw [toInt32_toInt (by rw [hvalue]; exact hlow) (by rw [hvalue]; exact hhigh), hvalue]
  unfold ElementConstraintIsFeasible
  simp only [Option.getD_some, Int32.lt_iff_toInt_lt, Int32.toInt_zero, hnarrow,
    Array.isEmpty_iff_size_eq_zero, Array.size_map]
  by_cases hrange : 0 ≤ index.eval (assignment values) ∧
      index.eval (assignment values) < exprs.size
  · obtain ⟨k, hk⟩ := Int.eq_ofNat_of_zero_le hrange.1
    have hsize : k < exprs.size := by omega
    rw [if_neg (by omega), if_neg (by simp; omega), hk, Int.toNat_natCast, beq_iff_eq,
      Array.getElem?_map, Array.getElem?_eq_getElem hsize]
    change LinearExpressionValue values (linearExprToProto exprs[k]) = _ ↔ _
    rw [expressionValue_eq_iff (hexprs _ (by simp)) htarget]
    constructor
    · intro heq
      exact ⟨k, exprs[k], hk, Array.getElem?_eq_getElem hsize, heq⟩
    · rintro ⟨i, e, hi, he, heq⟩
      obtain rfl : i = k := by omega
      obtain ⟨_, rfl⟩ := Array.getElem?_eq_some_iff.mp he
      exact heq
  · refine iff_of_false ?_ ?_
    · split
      · exact Bool.false_ne_true
      rw [if_pos (by simp; omega)]
      exact Bool.false_ne_true
    · rintro ⟨i, e, hi, he, -⟩
      obtain ⟨hsize, -⟩ := Array.getElem?_eq_some_iff.mp he
      omega

/-- The loop of the inverse constraint, over the integers. -/
theorem inverseLoop_iff {vars invVars : Array IntVar}
    (h : (ConstraintKind.inverse vars invVars).Fits (assignment values)) :
    InverseConstraintIsFeasible values
        { f_direct := vars.map varRef, f_inverse := invVars.map varRef } = true ↔
      vars.size = invVars.size ∧
        ∀ i, (hi : i < vars.size) → ∃ k, k < vars.size ∧
          assignment values vars[i].index = (k : ℤ) ∧
          assignment values invVars[k]!.index = (i : ℤ) := by
  obtain ⟨hvars, hnarrow⟩ := h
  have hvalue : ∀ (arr : Array IntVar) (k : ℕ), k < arr.size →
      (∀ v ∈ arr.toList, v ∈ vars.toList ++ invVars.toList) →
      (Value values (arr.map varRef)[k]!).toInt = assignment values arr[k]!.index := by
    intro arr k hk hsub
    rw [getElem!_pos (arr.map varRef) k (by simpa using hk), getElem!_pos arr k hk,
      Array.getElem_map, value_varRef (hvars _ (hsub _ (by simp)))]
    rfl
  unfold InverseConstraintIsFeasible
  simp only [Array.size_map]
  by_cases hsize : vars.size = invVars.size
  · rw [if_neg (not_not.mpr hsize), List.all_eq_true]
    simp only [List.mem_range, hsize, true_and]
    refine forall₂_congr fun i hi => ?_
    rw [← hsize] at hi
    have hdirect := hvalue vars i hi fun v hv => List.mem_append_left _ hv
    rw [getElem!_pos vars i hi] at hdirect
    obtain ⟨hlow, hhigh⟩ := hnarrow vars[i] (by simp)
    have hfi : (Value values (vars.map varRef)[i]!).toInt32.toInt =
        assignment values vars[i].index := by
      rw [toInt32_toInt (by rw [hdirect]; exact hlow) (by rw [hdirect]; exact hhigh), hdirect]
    simp only [Int32.lt_iff_toInt_lt, Int32.toInt_zero, hfi, ← hsize]
    by_cases hrange : 0 ≤ assignment values vars[i].index ∧
        assignment values vars[i].index < vars.size
    · obtain ⟨k, hk⟩ := Int.eq_ofNat_of_zero_le hrange.1
      have hklt : k < vars.size := by omega
      rw [if_neg (by simp; omega), hk, Int.toNat_natCast, beq_iff_eq,
        hvalue invVars k (by omega) fun v hv => List.mem_append_right _ hv]
      constructor
      · intro heq
        exact ⟨k, hklt, rfl, heq.symm⟩
      · rintro ⟨k', -, hkk, heq⟩
        obtain rfl : k = k' := by omega
        exact heq.symm
    · rw [if_pos (by simp; omega)]
      refine iff_of_false Bool.false_ne_true ?_
      rintro ⟨k, hklt, hk, -⟩
      omega
  · rw [if_pos hsize]
    exact iff_of_false Bool.false_ne_true fun h => hsize h.1

/-- Two arrays that undo each other, one way round, are a permutation. -/
theorem inverse_iff {vars invVars : Array IntVar}
    (h : (ConstraintKind.inverse vars invVars).Fits (assignment values)) :
    InverseConstraintIsFeasible values
        { f_direct := vars.map varRef, f_inverse := invVars.map varRef } = true ↔
      (ConstraintKind.inverse vars invVars).Holds (assignment values) := by
  rw [inverseLoop_iff h]
  constructor
  · rintro ⟨hsize, hloop⟩
    choose f hlt hdirect hinverse using fun i : Fin vars.size => hloop i i.isLt
    have hinjective : Function.Injective fun i => (⟨f i, hlt i⟩ : Fin vars.size) := by
      intro i j hij
      have hf : f i = f j := congrArg Fin.val hij
      have hi := hinverse i
      rw [hf, hinverse j] at hi
      exact Fin.ext (by omega)
    refine ⟨Equiv.ofBijective _ (Finite.injective_iff_bijective.mp hinjective), hsize,
      hdirect, ?_⟩
    intro i
    obtain ⟨j, hj⟩ := (Finite.injective_iff_bijective.mp hinjective).surjective i
    subst hj
    rw [Equiv.ofBijective_symm_apply_apply]
    exact hinverse j
  · rintro ⟨π, hsize, hdirect, hinverse⟩
    refine ⟨hsize, fun i hi => ⟨π ⟨i, hi⟩, (π ⟨i, hi⟩).isLt, hdirect ⟨i, hi⟩, ?_⟩⟩
    rw [hinverse, Equiv.symm_apply_apply]

/-- A constraint of the message holds exactly if it does in the model. -/
theorem constraintIsFeasible_iff {cd : ConstraintData} (h : cd.Fits (assignment values)) :
    ConstraintIsFeasible values (constraintDataToProto cd) = true ↔
      cd.Holds (assignment values) := by
  have henforced : ConstraintIsEnforced values (constraintDataToProto cd) = true ↔
      ∀ b ∈ cd.enforcementLiterals.toList, b.Holds (assignment values) :=
    literals_all h.literals
  unfold ConstraintIsFeasible ConstraintData.Holds
  rw [← henforced]
  cases ConstraintIsEnforced values (constraintDataToProto cd) with
  | false => simp
  | true =>
      obtain ⟨kind, lits, name⟩ := cd
      have hkind : kind.Fits (assignment values) := h.kind
      simp only [Bool.not_true, Bool.false_eq_true, if_false, forall_const]
      cases kind with
      | linear expr d => exact linear_iff hkind
      | allDifferent vars => exact allDifferent_iff hkind
      | boolOr lits => exact literals_any hkind
      | boolAnd lits => exact literals_all hkind
      | atMostOne lits =>
          change decide (numTrueLiterals values (lits.map litRef) ≤ 1) = true ↔ _
          rw [decide_eq_true_iff, numTrueLiterals_eq hkind]
          rfl
      | exactlyOne lits =>
          change (numTrueLiterals values (lits.map litRef) == 1) = true ↔ _
          rw [beq_iff_eq, numTrueLiterals_eq hkind]
          rfl
      | boolXor lits => exact boolXor_iff hkind
      | linMax target exprs => exact linMax_iff hkind
      | element index exprs target => exact element_iff hkind
      | intDiv target numerator denominator => exact intDiv_iff hkind
      | intMod target expr modulus => exact intMod_iff hkind
      | intProd target factors => exact intProd_iff hkind
      | inverse vars invVars => exact inverse_iff hkind

end Kinds

/-- The variables of the message have the domains of the model. -/
theorem variables_getElem {s : ModelState} (hs : Built s) {i : ℕ} (h : i < s.varDomains.size) :
    ∃ hi : i < (modelStateToProto s).«variables».size,
      (modelStateToProto s).«variables»[i].domain = domainToFlatArray s.varDomains[i] := by
  refine ⟨by rwa [variables_size hs], ?_⟩
  simp [modelStateToProto]

/-- No value is out of its domain exactly if all are in them. -/
theorem variablesInDomain_iff {s : ModelState} (hs : Built s)
    (hsize : values.size = s.varDomains.size) :
    (((modelStateToProto s).«variables».zip values).toList.any fun p =>
        !DomainInProtoContains p.1.domain p.2) = false ↔
      ∀ i, (h : i < s.varDomains.size) → s.varDomains[i].Contains (assignment values i) := by
  have hpair : ∀ i, (h : i < s.varDomains.size) →
      ∀ hi : i < ((modelStateToProto s).«variables».zip values).toList.length,
        ((!DomainInProtoContains (((modelStateToProto s).«variables».zip values).toList[i]).1.domain
            (((modelStateToProto s).«variables».zip values).toList[i]).2) = false ↔
          s.varDomains[i].Contains (assignment values i)) := by
    intro i h hi
    obtain ⟨hlt, hdomain⟩ := variables_getElem hs h
    have hvalue : i < values.size := by omega
    rw [Array.getElem_toList, Array.getElem_zip, hdomain, Bool.not_eq_false', domainContains_iff]
    rw [assignment, getElem!_pos values i hvalue]
  have hlength : ((modelStateToProto s).«variables».zip values).toList.length =
      s.varDomains.size := by
    rw [Array.length_toList, Array.size_zip, variables_size hs, hsize, Nat.min_self]
  rw [List.any_eq_false]
  constructor
  · intro h i hi
    refine (hpair i hi (by omega)).mp ?_
    simpa using h _ (List.getElem_mem (by omega))
  · intro h p hp
    obtain ⟨i, hi, rfl⟩ := List.getElem_of_mem hp
    rw [(hpair i (by omega) hi).mpr (h i (by omega))]
    exact Bool.false_ne_true

/-- A feasible vector has one value for each variable. -/
theorem feasible_size {s : ModelState} (hs : Built s)
    (h : SolutionIsFeasible (modelStateToProto s) values = true) :
    values.size = s.varDomains.size :=
  (size_of_feasible h).trans (variables_size hs)

/-- A feasible vector keeps every variable in its domain. -/
theorem feasible_inDomain {s : ModelState} (hs : Built s)
    (hsize : values.size = s.varDomains.size)
    (h : SolutionIsFeasible (modelStateToProto s) values = true) :
    ∀ i, (h : i < s.varDomains.size) → s.varDomains[i].Contains (assignment values i) := by
  rw [SolutionIsFeasible, variables_size hs, if_neg (not_not.mpr hsize)] at h
  refine (variablesInDomain_iff hs hsize).mp (eq_false_of_ne_true fun hout => ?_)
  rw [if_pos hout] at h
  cases h

/-- **The message means what the model means.**  As long as nothing leaves its
range, a solution vector is feasible for the message of a built model exactly
if it is a solution of the model. -/
theorem solutionIsFeasible_iff {s : ModelState} (hs : Built s)
    (hsize : values.size = s.varDomains.size) (hfits : s.Fits (assignment values)) :
    SolutionIsFeasible (modelStateToProto s) values = true ↔ s.Solved (assignment values) := by
  have hdomains := variablesInDomain_iff hs hsize
  have hconstraints : (modelStateToProto s).constraints.toList.all
      (ConstraintIsFeasible values) = true ↔
      ∀ cd ∈ s.constraints.toList, cd.Holds (assignment values) := by
    change (s.constraints.map constraintDataToProto).toList.all _ = true ↔ _
    rw [Array.toList_map, List.all_map, List.all_eq_true]
    exact forall₂_congr fun cd hcd => constraintIsFeasible_iff (hfits cd hcd)
  constructor
  · intro h
    have hd := feasible_inDomain hs hsize h
    rw [SolutionIsFeasible, variables_size hs, if_neg (not_not.mpr hsize), hdomains.mpr hd] at h
    exact ⟨hd, hconstraints.mp h⟩
  · rintro ⟨hd, hc⟩
    rw [SolutionIsFeasible, variables_size hs, if_neg (not_not.mpr hsize), hdomains.mpr hd]
    exact hconstraints.mpr hc

end Cpsat.Proto
