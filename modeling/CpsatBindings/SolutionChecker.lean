import CpsatBindings.ModelChecker

/-!
# The receiving feasibility check

`ConstraintChecker` and `SolutionIsFeasible` of
`ortools/sat/cp_model_checker.cc`, for the messages the builder makes: what
the solver takes such a message to mean.  Sums are computed in `int64`,
products saturate, and an index is narrowed to `int` before it is compared.

Fields that no builder message fills (the legacy fields of `element`, the
expressions of `inverse`, the domain of an objective) are left out.
-/

namespace Cpsat.Checker

open Cpsat.Proto

/-- One pass over the intervals of a flat domain. -/
def DomainInProtoContains (domain : Array Int64) (value : Int64) : Bool :=
  (List.range' 0 ((domain.size + 1) / 2) 2).any fun i =>
    value ≥ domain[i]! && value ≤ domain[i + 1]!

section ConstraintChecker

variable (variable_values : Array Int64)

/-- A negated literal is true if its variable is zero, a positive one if it is not. -/
def LiteralIsTrue (l : Int32) : Bool :=
  if l ≥ 0 then variable_values[l.toInt.toNat]! != 0
  else variable_values[(-l - 1).toInt.toNat]! == 0

def LiteralIsFalse (l : Int32) : Bool := !LiteralIsTrue variable_values l

/-- The value of a reference; that of a negated one is the opposite. -/
def Value (var : Int32) : Int64 :=
  if var ≥ 0 then variable_values[var.toInt.toNat]!
  else -variable_values[(-var - 1).toInt.toNat]!

/-- No literal of the constraint is false. -/
def ConstraintIsEnforced (ct : ConstraintProto) : Bool :=
  !ct.enforcement_literal.toList.any (LiteralIsFalse variable_values)

/-- Some literal is true. -/
def BoolOrConstraintIsFeasible (arg : BoolArgumentProto) : Bool :=
  arg.literals.toList.any (LiteralIsTrue variable_values)

/-- No literal is false. -/
def BoolAndConstraintIsFeasible (arg : BoolArgumentProto) : Bool :=
  !arg.literals.toList.any (LiteralIsFalse variable_values)

/-- The loop that counts true literals. -/
def numTrueLiterals (literals : Array Int32) : Nat :=
  literals.toList.foldl (fun num lit => if LiteralIsTrue variable_values lit then num + 1 else num) 0

def AtMostOneConstraintIsFeasible (arg : BoolArgumentProto) : Bool :=
  numTrueLiterals variable_values arg.literals ≤ 1

def ExactlyOneConstraintIsFeasible (arg : BoolArgumentProto) : Bool :=
  numTrueLiterals variable_values arg.literals == 1

/-- The parity of the true literals. -/
def BoolXorConstraintIsFeasible (arg : BoolArgumentProto) : Bool :=
  arg.literals.toList.foldl (fun sum lit => sum ^^ LiteralIsTrue variable_values lit) false

/-- The sum, which may wrap, is in the domain. -/
def LinearConstraintIsFeasible (arg : LinearConstraintProto) : Bool :=
  -- only positive references here
  let sum := (arg.vars.zip arg.coeffs).toList.foldl
    (fun sum t => sum + variable_values[t.1.toInt.toNat]! * t.2) 0
  DomainInProtoContains arg.domain sum

/-- The sum of the terms and the offset, which may wrap. -/
def LinearExpressionValue (expr : LinearExpressionProto) : Int64 :=
  (expr.vars.zip expr.coeffs).toList.foldl
    (fun sum t => sum + Value variable_values t.1 * t.2) expr.offset

/-- The target of a linear argument; an absent one is the default message. -/
def targetValue (arg : LinearArgumentProto) : Int64 :=
  LinearExpressionValue variable_values (arg.target.getD {})

/-- The maximum starts from the smallest word. -/
def LinMaxConstraintIsFeasible (arg : LinearArgumentProto) : Bool :=
  let actual_max := arg.exprs.toList.foldl
    (fun actual_max expr => max actual_max (LinearExpressionValue variable_values expr)) kint64min
  targetValue variable_values arg == actual_max

/-- The product is saturated. -/
def IntProdConstraintIsFeasible (arg : LinearArgumentProto) : Bool :=
  let actual_prod := arg.exprs.toList.foldl
    (fun actual_prod expr => CapProd actual_prod (LinearExpressionValue variable_values expr)) 1
  targetValue variable_values arg == actual_prod

def IntDivConstraintIsFeasible (arg : LinearArgumentProto) : Bool :=
  targetValue variable_values arg ==
    LinearExpressionValue variable_values (arg.exprs[0]?.getD {}) /
      LinearExpressionValue variable_values (arg.exprs[1]?.getD {})

def IntModConstraintIsFeasible (arg : LinearArgumentProto) : Bool :=
  targetValue variable_values arg ==
    LinearExpressionValue variable_values (arg.exprs[0]?.getD {}) %
      LinearExpressionValue variable_values (arg.exprs[1]?.getD {})

/-- Inserting the values one by one: whether each is new. -/
def allInserted : List Int64 → List Int64 → Bool
  | _, [] => true
  | values, value :: rest => if value ∈ values then false else allInserted (value :: values) rest

/-- Each value can be inserted into the set of those before. -/
def AllDiffConstraintIsFeasible (arg : AllDifferentConstraintProto) : Bool :=
  allInserted [] (arg.exprs.toList.map (LinearExpressionValue variable_values))

/-- The index is narrowed to 32 bits before it is looked at. -/
def ElementConstraintIsFeasible (arg : ElementConstraintProto) : Bool :=
  if arg.exprs.isEmpty then false
  else
    let index := (LinearExpressionValue variable_values (arg.linear_index.getD {})).toInt32
    if index < 0 || index.toInt ≥ arg.exprs.size then false
    else LinearExpressionValue variable_values (arg.exprs[index.toInt.toNat]?.getD {}) ==
      LinearExpressionValue variable_values (arg.linear_target.getD {})

/-- The values are narrowed to 32 bits. -/
def InverseConstraintIsFeasible (arg : InverseConstraintProto) : Bool :=
  let num_variables := arg.f_direct.size
  if num_variables ≠ arg.f_inverse.size then false
  else (List.range num_variables).all fun i =>
    let fi := (Value variable_values arg.f_direct[i]!).toInt32
    if fi < 0 || (num_variables : Int) ≤ fi.toInt then false
    else (i : Int) == (Value variable_values arg.f_inverse[fi.toInt.toNat]!).toInt

/-- A constraint that is not enforced is feasible. -/
def ConstraintIsFeasible (ct : ConstraintProto) : Bool :=
  if !ConstraintIsEnforced variable_values ct then true
  else
    match ct.constraint with
    | some (.bool_or arg) => BoolOrConstraintIsFeasible variable_values arg
    | some (.bool_and arg) => BoolAndConstraintIsFeasible variable_values arg
    | some (.at_most_one arg) => AtMostOneConstraintIsFeasible variable_values arg
    | some (.exactly_one arg) => ExactlyOneConstraintIsFeasible variable_values arg
    | some (.bool_xor arg) => BoolXorConstraintIsFeasible variable_values arg
    | some (.linear arg) => LinearConstraintIsFeasible variable_values arg
    | some (.int_prod arg) => IntProdConstraintIsFeasible variable_values arg
    | some (.int_div arg) => IntDivConstraintIsFeasible variable_values arg
    | some (.int_mod arg) => IntModConstraintIsFeasible variable_values arg
    | some (.lin_max arg) => LinMaxConstraintIsFeasible variable_values arg
    | some (.all_diff arg) => AllDiffConstraintIsFeasible variable_values arg
    | some (.element arg) => ElementConstraintIsFeasible variable_values arg
    | some (.inverse arg) => InverseConstraintIsFeasible variable_values arg
    | none => true

end ConstraintChecker

/-- As many values as variables, in their domains, and no constraint violated. -/
def SolutionIsFeasible (model : CpModelProto) (variable_values : Array Int64) : Bool :=
  if variable_values.size ≠ model.«variables».size then false
  else if (model.«variables».zip variable_values).toList.any fun p =>
      !DomainInProtoContains p.1.domain p.2 then false
  else model.constraints.toList.all (ConstraintIsFeasible variable_values)

/-- A solution has a value for every variable. -/
theorem size_of_feasible {model : CpModelProto} {values : Array Int64}
    (h : SolutionIsFeasible model values = true) : values.size = model.«variables».size := by
  by_contra hne
  rw [SolutionIsFeasible, if_pos hne] at h
  exact Bool.false_ne_true h

end Cpsat.Checker
