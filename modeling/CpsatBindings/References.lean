import CpsatBindings.ModelValidator

/-!
# What a constraint reads

The presolve adds variables while it rewrites constraints.  A constraint that
was there before must not notice: it reads the variables it refers to, as
`GetReferencesUsedByConstraint` lists them, and no others.

* `constraint_reads` — solutions that agree below `n` are told apart by no
  constraint whose references are below `n`.
-/

namespace Cpsat.Checker

open Cpsat.Proto

/-- The first `n` values are the same. -/
def AgreeBelow (n : ℕ) (values values' : Array Int64) : Prop :=
  ∀ k < n, values[k]! = values'[k]!

/-- A reference to one of `n` variables, or to the negation of one. -/
def RefBelow (n : ℕ) (ref : Int32) : Prop := -(n : ℤ) ≤ ref.toInt ∧ ref.toInt < n

/-- A reference stays below when variables are added. -/
theorem RefBelow.mono {m n : ℕ} {ref : Int32} (hmn : m ≤ n) (href : RefBelow m ref) :
    RefBelow n ref := by
  unfold RefBelow at href ⊢
  omega

/-- All references of a constraint. -/
def allReferences (ct : ConstraintProto) : List Int32 :=
  (GetReferencesUsedByConstraint ct).1 ++ (GetReferencesUsedByConstraint ct).2 ++
    ct.enforcement_literal.toList

/-- The validator lets a reference pass exactly if it is below. -/
theorem variableReferenceIsValid_iff (model : CpModelProto) (ref : Int32) :
    VariableReferenceIsValid model ref = true ↔ RefBelow model.«variables».size ref := by
  unfold VariableReferenceIsValid RefBelow
  split
  · rename_i hlarge
    exact iff_of_false Bool.false_ne_true fun h => absurd h.2 (by omega)
  · rename_i hsmall
    rw [decide_eq_true_iff]
    omega

/-- Where a negative reference reads. -/
theorem negated_below {n : ℕ} {ref : Int32} (href : RefBelow n ref) (hneg : ¬ ref ≥ 0) :
    (-ref - 1).toInt.toNat < n := by
  rw [ge_iff_le, Int32.le_iff_toInt_le, Int32.toInt_zero] at hneg
  have hlow := ref.le_toInt
  have hvalue : (-ref - 1).toInt = -ref.toInt - 1 := by
    rw [Int32.toInt_sub, Int32.toInt_neg, Int.bmod_sub_bmod, Int32.toInt_one]
    exact Int.bmod_eq_of_le (by omega) (by omega)
  have hbound := href.1
  omega

section Reading

variable {n : ℕ} {values values' : Array Int64} (h : AgreeBelow n values values')

include h

section Reference

variable {ref : Int32} (href : RefBelow n ref)

include href

/-- A literal is as true in the one as in the other. -/
theorem literal_reads : LiteralIsTrue values ref = LiteralIsTrue values' ref := by
  unfold LiteralIsTrue
  split
  · have hbound := href.2
    rename_i hpos
    rw [ge_iff_le, Int32.le_iff_toInt_le, Int32.toInt_zero] at hpos
    rw [h _ (by omega)]
  · rename_i hneg
    rw [h _ (negated_below href hneg)]

/-- A reference has the same value. -/
theorem value_reads : Value values ref = Value values' ref := by
  unfold Value
  split
  · have hbound := href.2
    rename_i hpos
    rw [ge_iff_le, Int32.le_iff_toInt_le, Int32.toInt_zero] at hpos
    rw [h _ (by omega)]
  · rename_i hneg
    rw [h _ (negated_below href hneg)]

end Reference

theorem expression_reads {expr : LinearExpressionProto}
    (hrefs : ∀ var ∈ expr.vars.toList, RefBelow n var) :
    LinearExpressionValue values expr = LinearExpressionValue values' expr := by
  refine List.foldl_ext _ _ _ fun sum t ht => ?_
  rw [Array.toList_zip] at ht
  rw [value_reads h (hrefs t.1 (List.of_mem_zip ht).1)]

/-- A sum is as feasible. -/
theorem linear_reads {arg : LinearConstraintProto}
    (hrefs : ∀ var ∈ arg.vars.toList, RefBelow n var) :
    LinearConstraintIsFeasible values arg = LinearConstraintIsFeasible values' arg := by
  have hsum : (arg.vars.zip arg.coeffs).toList.foldl
        (fun sum t => sum + values[t.1.toInt.toNat]! * t.2) 0 =
      (arg.vars.zip arg.coeffs).toList.foldl
        (fun sum t => sum + values'[t.1.toInt.toNat]! * t.2) 0 := by
    refine List.foldl_ext _ _ _ fun sum t ht => ?_
    rw [Array.toList_zip] at ht
    have hmem := (List.of_mem_zip ht).1
    have hbound := hrefs t.1 hmem
    rw [h _ (by unfold RefBelow at hbound; omega)]
  unfold LinearConstraintIsFeasible
  rw [hsum]

section Literals

variable {lits : List Int32} (hrefs : ∀ lit ∈ lits, RefBelow n lit)

include hrefs

theorem any_reads : lits.any (LiteralIsTrue values) = lits.any (LiteralIsTrue values') := by
  rw [Bool.eq_iff_iff, List.any_eq_true, List.any_eq_true]
  exact exists_congr fun lit => and_congr_right fun hlit => by rw [literal_reads h (hrefs lit hlit)]

theorem anyFalse_reads :
    lits.any (LiteralIsFalse values) = lits.any (LiteralIsFalse values') := by
  rw [Bool.eq_iff_iff, List.any_eq_true, List.any_eq_true]
  exact exists_congr fun lit => and_congr_right fun hlit => by
    rw [LiteralIsFalse, LiteralIsFalse, literal_reads h (hrefs lit hlit)]

/-- As many literals are true. -/
theorem num_reads (num : ℕ) :
    lits.foldl (fun num lit => if LiteralIsTrue values lit then num + 1 else num) num =
      lits.foldl (fun num lit => if LiteralIsTrue values' lit then num + 1 else num) num :=
  List.foldl_ext _ _ _ fun num lit hlit => by rw [literal_reads h (hrefs lit hlit)]

theorem xor_reads :
    lits.foldl (fun sum lit => sum ^^ LiteralIsTrue values lit) false =
      lits.foldl (fun sum lit => sum ^^ LiteralIsTrue values' lit) false :=
  List.foldl_ext _ _ _ fun sum lit hlit => by rw [literal_reads h (hrefs lit hlit)]

end Literals

section Expressions

variable {exprs : Array LinearExpressionProto}
  (hrefs : ∀ var ∈ exprs.toList.flatMap fun expr => expr.vars.toList, RefBelow n var)

include hrefs

/-- Each expression of an argument has the same value. -/
theorem factor_reads {expr : LinearExpressionProto} (hexpr : expr ∈ exprs.toList) :
    LinearExpressionValue values expr = LinearExpressionValue values' expr :=
  expression_reads h fun var hvar => hrefs var (List.mem_flatMap.mpr ⟨expr, hexpr, hvar⟩)

/-- An entry beyond the end is the default message, which reads nothing. -/
theorem entry_reads (k : ℕ) :
    LinearExpressionValue values (exprs[k]?.getD {}) =
      LinearExpressionValue values' (exprs[k]?.getD {}) := by
  cases hentry : exprs[k]? with
  | none =>
      refine expression_reads h fun var hvar => ?_
      cases hvar
  | some expr => exact factor_reads h hrefs (Array.mem_toList_iff.mpr (Array.mem_of_getElem? hentry))

end Expressions

theorem argument_reads {arg : LinearArgumentProto}
    (hrefs : ∀ var ∈ (arg.target.getD {}).vars.toList ++
      arg.exprs.toList.flatMap fun expr => expr.vars.toList, RefBelow n var) :
    targetValue values arg = targetValue values' arg ∧
      ∀ var ∈ arg.exprs.toList.flatMap fun expr => expr.vars.toList, RefBelow n var := by
  rw [List.forall_mem_append] at hrefs
  exact ⟨expression_reads h hrefs.1, hrefs.2⟩

/-- Permutations read nothing else. -/
theorem inverse_reads {arg : InverseConstraintProto}
    (hrefs : ∀ var ∈ if arg.f_direct.isEmpty then [] else
      arg.f_direct.toList ++ arg.f_inverse.toList, RefBelow n var) :
    InverseConstraintIsFeasible values arg = InverseConstraintIsFeasible values' arg := by
  unfold InverseConstraintIsFeasible
  dsimp only
  split
  · rfl
  rename_i hsizes
  rw [ne_eq, not_not] at hsizes
  rw [Bool.eq_iff_iff, List.all_eq_true, List.all_eq_true]
  refine forall₂_congr fun i hi => ?_
  have hsize := List.mem_range.mp hi
  have hpresent : arg.f_direct.isEmpty = false := by
    rw [Array.isEmpty_eq_false_iff, ne_eq, ← Array.size_eq_zero_iff]
    omega
  rw [hpresent, if_neg Bool.false_ne_true, List.forall_mem_append] at hrefs
  have hread : ∀ (refs : Array Int32) (k : ℕ), (∀ var ∈ refs.toList, RefBelow n var) →
      k < refs.size → Value values refs[k]! = Value values' refs[k]! := by
    intro refs k hvalid hk
    rw [getElem!_pos refs k hk]
    exact value_reads h (hvalid _ (Array.getElem_mem_toList hk))
  rw [hread _ i hrefs.1 hsize]
  split
  · rfl
  rename_i hfi
  rw [hread _ _ hrefs.2 (by
    simp only [Bool.or_eq_true, decide_eq_true_iff, not_or, not_lt, not_le, Int32.lt_iff_toInt_lt,
      Int32.toInt_zero] at hfi
    omega)]

/-- **A constraint reads what it refers to.** -/
theorem constraint_reads {ct : ConstraintProto} (hrefs : ∀ ref ∈ allReferences ct, RefBelow n ref) :
    ConstraintIsFeasible values ct = ConstraintIsFeasible values' ct := by
  unfold allReferences at hrefs
  simp only [List.forall_mem_append] at hrefs
  obtain ⟨⟨hvars, hlits⟩, henforcement⟩ := hrefs
  have henforced : ConstraintIsEnforced values ct = ConstraintIsEnforced values' ct := by
    rw [ConstraintIsEnforced, ConstraintIsEnforced, anyFalse_reads h henforcement]
  unfold GetReferencesUsedByConstraint at hvars hlits
  unfold ConstraintIsFeasible
  rw [henforced]
  cases hkind : ct.constraint with
  | none => rfl
  | some kind =>
      rw [hkind] at hvars hlits
      cases kind with
      | bool_or arg => exact congrArg (ite _ true) (any_reads h hlits)
      | bool_and arg => exact congrArg (fun b => ite _ true (!b)) (anyFalse_reads h hlits)
      | bool_xor arg => exact congrArg (ite _ true) (xor_reads h hlits)
      | at_most_one arg =>
          exact congrArg (fun n : ℕ => ite _ true (decide (n ≤ 1))) (num_reads h hlits 0)
      | exactly_one arg =>
          exact congrArg (fun n : ℕ => ite _ true (n == 1)) (num_reads h hlits 0)
      | linear arg => exact congrArg (ite _ true) (linear_reads h hvars)
      | all_diff arg =>
          have hvalues : arg.exprs.toList.map (LinearExpressionValue values) =
              arg.exprs.toList.map (LinearExpressionValue values') :=
            List.map_congr_left fun expr hexpr => expression_reads h fun var hvar =>
              hvars var (List.mem_flatMap.mpr ⟨expr, hexpr, hvar⟩)
          exact congrArg (fun l => ite _ true (allInserted [] l)) hvalues
      | element arg =>
          obtain ⟨⟨hindex, htarget⟩, hexprs⟩ := by
            simpa only [List.forall_mem_append] using hvars
          have helement : ElementConstraintIsFeasible values arg =
              ElementConstraintIsFeasible values' arg := by
            unfold ElementConstraintIsFeasible
            rw [expression_reads h hindex, expression_reads h htarget]
            simp only [entry_reads h hexprs]
          exact congrArg (ite _ true) helement
      | inverse arg => exact congrArg (ite _ true) (inverse_reads h hvars)
      | int_div arg =>
          obtain ⟨htarget, hexprs⟩ := argument_reads h hvars
          have hdiv : IntDivConstraintIsFeasible values arg =
              IntDivConstraintIsFeasible values' arg := by
            unfold IntDivConstraintIsFeasible
            rw [htarget, entry_reads h hexprs, entry_reads h hexprs]
          exact congrArg (ite _ true) hdiv
      | int_mod arg =>
          obtain ⟨htarget, hexprs⟩ := argument_reads h hvars
          have hmod : IntModConstraintIsFeasible values arg =
              IntModConstraintIsFeasible values' arg := by
            unfold IntModConstraintIsFeasible
            rw [htarget, entry_reads h hexprs, entry_reads h hexprs]
          exact congrArg (ite _ true) hmod
      | int_prod arg =>
          obtain ⟨htarget, hexprs⟩ := argument_reads h hvars
          have hprod : IntProdConstraintIsFeasible values arg =
              IntProdConstraintIsFeasible values' arg := by
            unfold IntProdConstraintIsFeasible
            rw [htarget, List.foldl_ext _ _ _ fun prod expr hexpr =>
              congrArg (CapProd prod) (factor_reads h hexprs hexpr)]
          exact congrArg (ite _ true) hprod
      | lin_max arg =>
          obtain ⟨htarget, hexprs⟩ := argument_reads h hvars
          have hmax : LinMaxConstraintIsFeasible values arg =
              LinMaxConstraintIsFeasible values' arg := by
            unfold LinMaxConstraintIsFeasible
            rw [htarget, List.foldl_ext _ _ _ fun greatest expr hexpr =>
              congrArg (max greatest) (factor_reads h hexprs hexpr)]
          exact congrArg (ite _ true) hmax

end Reading

end Cpsat.Checker
