import CpsatBindings.SortedIntervalList

/-!
# The receiving validator, whole models

`ValidateCpModel` of `ortools/sat/cp_model_checker.cc` and what it calls, for
the messages the builder makes.  The solver runs it first and solves nothing
that it does not accept.

As in the parts already modelled, the empty text means *valid*.  A division by
an expression whose first coefficient is zero fails a `CHECK`, which ends the
process: that is `none`.

Fields that no builder message fills are left out with the checks on them: the
legacy fields of `element`, the expressions of `inverse`, the domain and the
integer scaling of an objective, intervals, search strategies.
-/

namespace Cpsat.Checker

open Cpsat.Proto Intervals

/-- The printers for the other messages. -/
structure Printers extends DebugStrings where
  variableShortDebugString : IntegerVariableProto → String
  expressionShortDebugString : LinearExpressionProto → String
  objectiveShortDebugString : CpObjectiveProto → String
  objectiveDebugString : CpObjectiveProto → String

/-- `RETURN_IF_NOT_EMPTY`, one statement after the other. -/
def firstText : List String → String
  | [] => ""
  | text :: rest => if text = "" then firstText rest else text

/-- The same where a statement may fail a `CHECK`. -/
def firstChecked : List (Option String) → Option String
  | [] => some ""
  | none :: _ => none
  | some text :: rest => if text = "" then firstChecked rest else some text

section Model

variable (model : CpModelProto)

/-! ## References and bounds -/

def VariableReferenceIsValid (reference : Int32) : Bool :=
  if reference.toInt ≥ model.«variables».size then false
  else reference.toInt ≥ -(model.«variables».size : Int)

/-- `model.variables(i)`. -/
def variableOf (ref : Int32) : IntegerVariableProto :=
  model.«variables»[ref.toInt.toNat]?.getD {}

/-- Whether, moreover, the variable is between 0 and 1. -/
def LiteralReferenceIsValid (reference : Int32) : Bool :=
  if !VariableReferenceIsValid model reference then false
  else
    let var_proto := variableOf model (PositiveRef reference)
    let min_domain := var_proto.domain[0]!
    let max_domain := var_proto.domain[var_proto.domain.size - 1]!
    min_domain ≥ 0 && max_domain ≤ 1

/-- The least value of a reference. -/
def MinOfRef (ref : Int32) : Int64 :=
  let var_proto := variableOf model (PositiveRef ref)
  if RefIsPositive ref then var_proto.domain[0]!
  else -var_proto.domain[var_proto.domain.size - 1]!

/-- The greatest value of a reference. -/
def MaxOfRef (ref : Int32) : Int64 :=
  let var_proto := variableOf model (PositiveRef ref)
  if RefIsPositive ref then var_proto.domain[var_proto.domain.size - 1]!
  else -var_proto.domain[0]!

/-- The sum of the least values of the terms, saturated. -/
def MinOfExpression (proto : LinearExpressionProto) : Int64 :=
  (proto.vars.zip proto.coeffs).toList.foldl
    (fun sum_min t =>
      CapAdd sum_min
        (if t.2 ≥ 0 then CapProd (MinOfRef model t.1) t.2 else CapProd (MaxOfRef model t.1) t.2))
    proto.offset

/-- The sum of the greatest values of the terms, saturated. -/
def MaxOfExpression (proto : LinearExpressionProto) : Int64 :=
  (proto.vars.zip proto.coeffs).toList.foldl
    (fun sum_max t =>
      CapAdd sum_max
        (if t.2 ≥ 0 then CapProd (MaxOfRef model t.1) t.2 else CapProd (MinOfRef model t.1) t.2))
    proto.offset

/-- Whether no variable of the expression has two values. -/
def ExpressionIsFixed (expr : LinearExpressionProto) : Bool :=
  (expr.vars.zip expr.coeffs).toList.all fun t =>
    if t.2 = 0 then true
    else
      let var_proto := variableOf model t.1
      !(var_proto.domain.size ≠ 2 || var_proto.domain[0]! ≠ var_proto.domain[1]!)

def ExpressionFixedValue (expr : LinearExpressionProto) : Int64 := MinOfExpression model expr

/-- The domain of a reference, negated with it. -/
def DomainOfRef (ref : Int32) : SortedIntervalList :=
  let domain := SortedIntervalList.FromFlatSpanOfIntervals (variableOf model (PositiveRef ref)).domain
  if RefIsPositive ref then domain else domain.Negation

variable (print : Printers)

/-- The first error text of a variable, or none. -/
def ValidateIntegerVariable (v : Nat) (proto : IntegerVariableProto) : String :=
  if proto.domain.size = 0 then
    "var #" ++ toString v ++ " has no domain(): " ++ print.variableShortDebugString proto
  else if proto.domain.size % 2 ≠ 0 then
    "var #" ++ toString v ++ " has an odd domain() size: " ++ print.variableShortDebugString proto
  else if !DomainInProtoIsValid proto.domain then
    "var #" ++ toString v ++ " has and invalid domain() format: " ++
      print.variableShortDebugString proto
  else
    -- Negations and sentinel values have to fit as well.
    let lb := proto.domain[0]!
    let ub := proto.domain[proto.domain.size - 1]!
    if lb < -kint64max / 2 || ub > kint64max / 2 then
      "var #" ++ toString v ++ " domain do not fall in [-kint64max / 2, kint64max / 2]. " ++
        print.variableShortDebugString proto
    else if lb < 0 && lb + kint64max < ub then
      "var #" ++ toString v ++
        " has a domain that is too large, i.e. |UB - LB| overflow an int64_t: " ++
        print.variableShortDebugString proto
    else ""

/-- The variables and the literals a constraint refers to; the enforcement
literals are not counted. -/
def GetReferencesUsedByConstraint (ct : ConstraintProto) : List Int32 × List Int32 :=
  let ofArgument (arg : LinearArgumentProto) : List Int32 :=
    (arg.target.getD {}).vars.toList ++ arg.exprs.toList.flatMap fun expr => expr.vars.toList
  match ct.constraint with
  | none => ([], [])
  | some (.bool_or arg) | some (.bool_and arg) | some (.at_most_one arg)
  | some (.exactly_one arg) | some (.bool_xor arg) => ([], arg.literals.toList)
  | some (.int_div arg) | some (.int_mod arg) | some (.lin_max arg) | some (.int_prod arg) =>
    (ofArgument arg, [])
  | some (.linear arg) => (arg.vars.toList, [])
  | some (.all_diff arg) => (arg.exprs.toList.flatMap fun expr => expr.vars.toList, [])
  | some (.element arg) =>
    ((arg.linear_index.getD {}).vars.toList ++ (arg.linear_target.getD {}).vars.toList ++
      arg.exprs.toList.flatMap fun expr => expr.vars.toList, [])
  | some (.inverse arg) =>
    (if arg.f_direct.isEmpty then [] else arg.f_direct.toList ++ arg.f_inverse.toList, [])

/-- The first reference of a constraint to a variable or literal that is not there. -/
def ValidateVariablesUsedInConstraint (c : Nat) (ct : ConstraintProto) : String :=
  let place := " in constraint #" ++ toString c ++ " : " ++ print.ProtobufShortDebugString ct
  let references := GetReferencesUsedByConstraint ct
  firstText
    (references.1.map (fun v =>
        if !VariableReferenceIsValid model v then
          "Out of bound integer variable " ++ toString v ++ place else "") ++
      ct.enforcement_literal.toList.map (fun lit =>
        if !LiteralReferenceIsValid model lit then
          "Invalid enforcement literal " ++ toString lit ++ place else "") ++
      references.2.map fun lit =>
        if !LiteralReferenceIsValid model lit then
          "Invalid literal " ++ toString lit ++ place else "")

/-! ## Constraints -/

/-- The first error text of an expression, or none. -/
def ValidateLinearExpression (expr : LinearExpressionProto) : String :=
  if expr.coeffs.size ≠ expr.vars.size then
    "coeffs_size() != vars_size() in linear expression: " ++ print.expressionShortDebugString expr
  else if expr.vars.any fun var => !RefIsPositive var then
    "Invalid negated variable in linear expression: " ++ print.expressionShortDebugString expr
  else if PossibleIntegerOverflow model expr.vars expr.coeffs expr.offset then
    "Possible overflow in linear expression: " ++ print.expressionShortDebugString expr
  else ""

/-- The modulus is to be positive. -/
def ValidateIntModConstraint (ct : ConstraintProto) (arg : LinearArgumentProto) : String :=
  if arg.exprs.size ≠ 2 then
    "An int_mod constraint should have exactly 2 terms: " ++ print.ProtobufShortDebugString ct
  else if arg.target.isNone then
    "An int_mod constraint should have a target: " ++ print.ProtobufShortDebugString ct
  else
    let mod_expr := arg.exprs[1]?.getD {}
    firstText [
      ValidateLinearExpression model print (arg.exprs[0]?.getD {}),
      ValidateLinearExpression model print (arg.exprs[1]?.getD {}),
      ValidateLinearExpression model print (arg.target.getD {}),
      if MinOfExpression model mod_expr ≤ 0 then
        "An int_mod must have a strictly positive modulo argument: " ++
          print.ProtobufShortDebugString ct
      else ""]

/-- The bounds of a product.  A factor that is always zero is passed over: an
overflow multiplied by zero is still invalid. -/
def productDomain (exprs : List LinearExpressionProto) : SortedIntervalList :=
  exprs.foldl
    (fun product_domain expr =>
      let min_expr := MinOfExpression model expr
      let max_expr := MaxOfExpression model expr
      if min_expr = 0 ∧ max_expr = 0 then product_domain
      else product_domain.ContinuousMultiplicationBy (.ofEnds min_expr max_expr))
    (.ofValue 1)

/-- The domain of the product is not to lie at an end of the range, nor to reach one
if there are more than two factors. -/
def ValidateIntProdConstraint (ct : ConstraintProto) (arg : LinearArgumentProto) : String :=
  if arg.target.isNone then
    "An int_prod constraint should have a target: " ++ print.ProtobufShortDebugString ct
  else
    let product_domain := productDomain model arg.exprs.toList
    firstText (arg.exprs.toList.map (ValidateLinearExpression model print) ++ [
      ValidateLinearExpression model print (arg.target.getD {}),
      if product_domain.Max ≤ -kint64max || product_domain.Min ≥ kint64max then
        "integer overflow in constraint: " ++ print.ProtobufShortDebugString ct
      else "",
      -- A product of more than two has to be expanded.
      if arg.exprs.size > 2 &&
          (product_domain.Max ≥ kint64max || product_domain.Min ≤ -kint64max) then
        "Potential integer overflow in constraint: " ++ print.ProtobufShortDebugString ct
      else ""])

/-- The divisor is not to be zero; `none` where a `CHECK` of the loop fails. -/
def ValidateIntDivConstraint (ct : ConstraintProto) (arg : LinearArgumentProto) :
    Option String :=
  if arg.exprs.size ≠ 2 then
    some ("An int_div constraint should have exactly 2 terms: " ++
      print.ProtobufShortDebugString ct)
  else if arg.target.isNone then
    some ("An int_div constraint should have a target: " ++ print.ProtobufShortDebugString ct)
  else
    let denom := arg.exprs[1]?.getD {}
    let offset := denom.offset
    firstChecked [
      some (ValidateLinearExpression model print (arg.exprs[0]?.getD {})),
      some (ValidateLinearExpression model print (arg.exprs[1]?.getD {})),
      some (ValidateLinearExpression model print (arg.target.getD {})),
      if ExpressionIsFixed model denom then
        if ExpressionFixedValue model denom = 0 then
          some ("Division by 0: " ++ print.ProtobufShortDebugString ct)
        else some ""
      else
        let coeff := denom.coeffs[0]!
        -- `CHECK_NE(coeff, 0)`
        if coeff = 0 then none
        else
          let inverse_of_zero := -offset / coeff
          if inverse_of_zero * coeff + offset = 0 &&
              (DomainOfRef model denom.vars[0]!).Contains inverse_of_zero then
            some ("The domain of the divisor cannot contain 0: " ++
              print.ProtobufShortDebugString ct)
          else some ""]

/-- The terms and the offset of one expression after those of another, to be checked
as one sum. -/
def AppendToOverflowValidator (input output : LinearExpressionProto) (prod : Int64) :
    LinearExpressionProto :=
  { vars := output.vars ++ input.vars
    coeffs := output.coeffs ++ input.coeffs.map (· * prod)
    offset := CapAdd output.offset.abs input.offset.abs }

def CapSub (x y : Int64) : Int64 := clampToInt64 (x.toInt - y.toInt)

/-- Each expression minus the target is checked as one sum. -/
def ValidateElementConstraint (arg : ElementConstraintProto) : String :=
  if arg.exprs.isEmpty then
    "Empty element constraint is interpreted as vars[], thus invalid " ++
      "since the index will be out of bounds."
  else
    firstText ([
      ValidateLinearExpression model print (arg.linear_index.getD {}),
      ValidateLinearExpression model print (arg.linear_target.getD {})] ++
      arg.exprs.toList.flatMap fun expr =>
        let overflow_detection :=
          AppendToOverflowValidator expr (arg.linear_target.getD {}) (-1)
        let offset := CapSub overflow_detection.offset expr.offset
        [ValidateLinearExpression model print expr,
          if PossibleIntegerOverflow model overflow_detection.vars overflow_detection.coeffs
              offset then
            "Domain of the variables involved in element constraint may cause overflow"
          else ""])

/-- The two lists are to be of one length. -/
def ValidateInverseConstraint (ct : ConstraintProto) (arg : InverseConstraintProto) : String :=
  if arg.f_direct.size ≠ arg.f_inverse.size then
    "Non-matching fields size in inverse: " ++ print.ProtobufShortDebugString ct
  else if arg.f_direct.isEmpty then ""
  else firstText ((arg.f_direct.toList ++ arg.f_inverse.toList).map fun var =>
    if !VariableIndexIsValid model var then
      "Invalid variable index in inverse constraint: " ++ toString var
    else "")

/-- The switch over the constraint kinds. -/
def ValidateConstraint (ct : ConstraintProto) : Option String :=
  match ct.constraint with
  | none => some ""
  | some (.bool_or _) | some (.bool_and _) | some (.at_most_one _) | some (.exactly_one _)
  | some (.bool_xor _) => some ""
  | some (.linear _) => some (ValidateLinearConstraint print.toDebugStrings model ct)
  | some (.lin_max arg) =>
    some (firstText (ValidateLinearExpression model print (arg.target.getD {}) ::
      arg.exprs.toList.map (ValidateLinearExpression model print)))
  | some (.int_prod arg) => some (ValidateIntProdConstraint model print ct arg)
  | some (.int_div arg) => ValidateIntDivConstraint model print ct arg
  | some (.int_mod arg) => some (ValidateIntModConstraint model print ct arg)
  | some (.inverse arg) => some (ValidateInverseConstraint model print ct arg)
  | some (.all_diff arg) =>
    some (firstText (arg.exprs.toList.map (ValidateLinearExpression model print)))
  | some (.element arg) => some (ValidateElementConstraint model print arg)

/-! ## Objective -/

/-- What the checker for overflow ends with. -/
def implied_domain (vars : Array Int32) (coeffs : Array Int64) : LinearOverflowChecker :=
  (vars.zip coeffs).toList.foldl
    (fun checker t =>
      let domain := (variableOf model t.1).domain
      (checker.AddTerm t.2 domain[0]! domain[domain.size - 1]!).2)
    {}

/-- Whether a number is finite and not too small. -/
def isnormal (x : Float) : Bool := x.isFinite && x.abs ≥ 2.2250738585072014e-308

/-- The first error text of the objective, or none. -/
def ValidateObjective (obj : CpObjectiveProto) : String :=
  if obj.vars.size ≠ obj.coeffs.size then
    "vars and coeffs size do not match in objective: " ++ print.objectiveShortDebugString obj
  else
    let bounds := implied_domain model obj.vars obj.coeffs
    let scaled (bound : Int64) :=
      ((obj.scaling_factor * Float.ofInt bound.toInt).abs + obj.offset.abs).isFinite
    firstText (obj.vars.toList.map (fun v =>
      if !VariableIndexIsValid model v then
        "Out of bound integer variable " ++ toString v ++ " in objective: " ++
          print.objectiveShortDebugString obj
      else "") ++ [
      if PossibleIntegerOverflow model obj.vars obj.coeffs then
        "Possible integer overflow in objective: " ++ print.objectiveDebugString obj
      else "",
      if !obj.offset.isFinite then
        "Objective offset must be finite: " ++ print.objectiveDebugString obj
      else "",
      if obj.scaling_factor != 0 && obj.scaling_factor != 1 && obj.scaling_factor != -1 &&
          (!scaled bounds.sum_min || !scaled bounds.sum_max) then
        "Possible floating point overflow in objective when multiplied by " ++
          "the scaling factor: " ++ print.objectiveDebugString obj
      else ""])

/-! ## Models -/

/-- The sum of the sizes of all domains, saturated. -/
def int128_overflow : Int64 :=
  model.«variables».toList.foldl
    (fun int128_overflow proto =>
      let min_domain := proto.domain[0]!
      let max_domain := proto.domain[proto.domain.size - 1]!
      CapAdd int128_overflow
        (max (max min_domain.abs max_domain.abs) (max_domain - min_domain)))
    0

/-- The first error text of the model, or none; nothing if a `CHECK` fails on the
way. -/
def ValidateCpModel : Option String :=
  let objective :=
    match model.objective with
    | none => ""
    | some obj =>
      if obj.scaling_factor != 0 && !isnormal obj.scaling_factor then
        "A model cannot have an objective with a nan, inf or subnormal scaling factor"
      else ValidateObjective model print obj
  firstChecked (
    model.«variables».toList.mapIdx (fun v proto => some (ValidateIntegerVariable print v proto)) ++
    [if int128_overflow model = kint64max then
      some ("The sum of all variable domains do not fit on an int64_t. This is " ++
        "needed to prevent overflows.")
    else some ""] ++
    model.constraints.toList.mapIdx (fun c ct =>
      firstChecked [some (ValidateVariablesUsedInConstraint model print c ct),
        ValidateConstraint model print ct]) ++
    [some objective, some (ValidateSolutionHint model)] ++
    model.assumptions.toList.map fun ref =>
      if !LiteralReferenceIsValid model ref then
        some ("Invalid literal reference " ++ toString ref ++ " in the 'assumptions' field.")
      else some "")

end Model

/-! ## The domain of a reference -/

/-- Reading a flat list, over the integers. -/
theorem covers_fromFlat (flat : Array Int64) (x : ℤ) :
    Covers ((SortedIntervalList.FromFlatSpanOfIntervals flat).intervals_.map ends) x ↔
      ∃ value : Int64, value.toInt = x ∧ DomainInProtoContains flat value = true := by
  obtain ⟨hnormal, hcontains⟩ := fromFlat_contains flat
  have hseparated := (sortedAndNonAdjacent_iff _).mp hnormal
  constructor
  · intro hx
    obtain ⟨i, hi, hlow, hhigh⟩ := hx
    obtain ⟨j, -, rfl⟩ := List.mem_map.mp hi
    have hstart : -2 ^ 63 ≤ (ends j).1 := j.1.le_toInt
    have hend : (ends j).2 < 2 ^ 63 := j.2.toInt_lt
    have hword : (Int64.ofInt x).toInt = x := Int64.toInt_ofInt_of_le (by omega) (by omega)
    refine ⟨Int64.ofInt x, hword, ?_⟩
    rw [← hcontains, contains_iff hseparated, hword]
    exact ⟨_, hi, hlow, hhigh⟩
  · rintro ⟨value, rfl, hvalue⟩
    rw [← hcontains] at hvalue
    exact (contains_iff hseparated value).mp hvalue

/-- **The domain of a reference.**  It is in normal form, and finds the values of
the variable for the reference, their opposites for the negated one. -/
theorem domainOfRef_contains (model : CpModelProto) (ref : Int32) :
    IntervalsAreSortedAndNonAdjacent (DomainOfRef model ref).intervals_ = true ∧
      ∀ value : Int64, (DomainOfRef model ref).Contains value = true ↔
        ∃ x : Int64, x.toInt = (if RefIsPositive ref then value.toInt else -value.toInt) ∧
          DomainInProtoContains (variableOf model (PositiveRef ref)).domain x = true := by
  have hnormal := (fromFlat_contains (variableOf model (PositiveRef ref)).domain).1
  have hseparated := (sortedAndNonAdjacent_iff _).mp hnormal
  unfold DomainOfRef
  cases RefIsPositive ref with
  | true =>
      refine ⟨hnormal, fun value => ?_⟩
      rw [← covers_fromFlat]
      exact contains_iff hseparated value
  | false =>
      obtain ⟨hnegated, hcontains⟩ := negation_contains hseparated
      refine ⟨hnegated, fun value => ?_⟩
      rw [← covers_fromFlat]
      exact hcontains value

end Cpsat.Checker
