import CpsatBindings.ModelBuilder
import CpsatBindings.ClampedIntervals

/-!
# From built models to wire messages

`Cpsat/Basic.lean` and `Cpsat/Proto.lean`: the response, the message shapes,
and the conversions from and to them.  Field names are those of the messages.
The parameters are not modelled: the shim and the solver are given their bytes.

Two facts about the outgoing conversion are used later.  References are narrowed to
`Int32` by wrapping, so they are faithful only below `2 ^ 31`
(`varRef_toInt`).  And a linear constraint has no offset on the wire: the
constant of the expression is folded into the domain by `shiftDomain`, which
is translation followed by clamping (`shiftDomain_ends`).
-/

namespace Cpsat

/-! ## Responses -/

inductive CpSolverStatus where
  | unknown
  | modelInvalid
  | feasible
  | infeasible
  | optimal
deriving Repr, DecidableEq, Inhabited

structure CpSolverResponse where
  status : CpSolverStatus
  objectiveValue : Float
  bestObjectiveBound : Float
  /-- Indexed by `IntVar.index`. -/
  solution : Array Int64
  wallTime : Float
  solutionInfo : String
  sufficientAssumptionsForInfeasibility : Array BoolVar
deriving Inhabited

/-- The value of a variable, zero if the response has none. -/
def CpSolverResponse.value (r : CpSolverResponse) (v : IntVar) : Int64 :=
  r.solution.getD v.index 0

end Cpsat

namespace Cpsat.Proto

/-! ## Messages -/

/-- Terms as two lists, and a constant. -/
structure LinearExpressionProto where
  vars : Array Int32 := #[]
  coeffs : Array Int64 := #[]
  offset : Int64 := 0
deriving Inhabited

structure BoolArgumentProto where
  literals : Array Int32 := #[]
deriving Inhabited

/-- Terms without a constant, and a flat domain. -/
structure LinearConstraintProto where
  vars : Array Int32 := #[]
  coeffs : Array Int64 := #[]
  domain : Array Int64 := #[]
deriving Inhabited

structure AllDifferentConstraintProto where
  exprs : Array LinearExpressionProto := #[]
deriving Inhabited

structure LinearArgumentProto where
  target : Option LinearExpressionProto := none
  exprs : Array LinearExpressionProto := #[]
deriving Inhabited

/-- An array of expressions, an index and a target. -/
structure ElementConstraintProto where
  linear_index : Option LinearExpressionProto := none
  linear_target : Option LinearExpressionProto := none
  exprs : Array LinearExpressionProto := #[]
deriving Inhabited

/-- Two lists of variables. -/
structure InverseConstraintProto where
  f_direct : Array Int32 := #[]
  f_inverse : Array Int32 := #[]
deriving Inhabited

/-- The `oneof` of constraints, as far as the binding writes it. -/
inductive ConstraintKindProto where
  | bool_or (arg : BoolArgumentProto)
  | bool_and (arg : BoolArgumentProto)
  | bool_xor (arg : BoolArgumentProto)
  | at_most_one (arg : BoolArgumentProto)
  | exactly_one (arg : BoolArgumentProto)
  | linear (arg : LinearConstraintProto)
  | all_diff (arg : AllDifferentConstraintProto)
  | element (arg : ElementConstraintProto)
  | inverse (arg : InverseConstraintProto)
  | int_div (arg : LinearArgumentProto)
  | int_mod (arg : LinearArgumentProto)
  | int_prod (arg : LinearArgumentProto)
  | lin_max (arg : LinearArgumentProto)
deriving Inhabited

structure ConstraintProto where
  name : String := ""
  enforcement_literal : Array Int32 := #[]
  constraint : Option ConstraintKindProto := none
deriving Inhabited

structure IntegerVariableProto where
  name : String := ""
  domain : Array Int64 := #[]
deriving Inhabited

/-- Terms of integers; the offset and the scaling are floating point. -/
structure CpObjectiveProto where
  vars : Array Int32 := #[]
  coeffs : Array Int64 := #[]
  offset : Float := 0.0
  scaling_factor : Float := 0.0
deriving Inhabited

structure PartialVariableAssignmentProto where
  vars : Array Int32 := #[]
  values : Array Int64 := #[]
deriving Inhabited

structure CpModelProto where
  name : String := ""
  «variables» : Array IntegerVariableProto := #[]
  constraints : Array ConstraintProto := #[]
  objective : Option CpObjectiveProto := none
  solution_hint : Option PartialVariableAssignmentProto := none
  assumptions : Array Int32 := #[]
deriving Inhabited

/-- An enumeration on the wire is open: a value may have no name here. -/
inductive CpSolverStatusProto where
  | UNKNOWN
  | MODEL_INVALID
  | FEASIBLE
  | INFEASIBLE
  | OPTIMAL
  | unrecognized (value : Int32)
deriving Inhabited

/-- The message of a response, as far as the binding reads it. -/
structure CpSolverResponseProto where
  status : CpSolverStatusProto := .UNKNOWN
  solution : Array Int64 := #[]
  objective_value : Float := 0.0
  best_objective_bound : Float := 0.0
  wall_time : Float := 0.0
  solution_info : String := ""
  sufficient_assumptions_for_infeasibility : Array Int32 := #[]
deriving Inhabited

/-! ## Conversion -/

/-- The reference to a variable, narrowed to 32 bits. -/
def varRef (v : IntVar) : Int32 := Int32.ofInt (Int.ofNat v.index)

/-- A literal, narrowed to 32 bits. -/
def litRef (b : BoolVar) : Int32 := Int32.ofInt b.literal

/-- Clamp to the `Int64` range instead of wrapping. -/
def clampToInt64 (x : Int) : Int64 :=
  if x < Int64.minValue.toInt then Int64.minValue
  else if x > Int64.maxValue.toInt then Int64.maxValue
  else Int64.ofInt x

/-- Each end of each interval moved by `-constant` and clamped on its own. -/
def shiftDomain (d : Domain) (constant : Int64) : Domain :=
  ⟨d.intervals.map fun (lo, hi) =>
    (clampToInt64 (lo.toInt - constant.toInt), clampToInt64 (hi.toInt - constant.toInt))⟩

/-- The ends of the intervals, one after the other. -/
def domainToFlatArray (d : Domain) : Array Int64 :=
  d.intervals.flatMap fun (lo, hi) => #[lo, hi]

/-- Term by term, repeated variables and all. -/
def linearExprToProto (e : LinearExpr) : LinearExpressionProto :=
  { vars := e.terms.map (varRef ·.1), coeffs := e.terms.map (·.2), offset := e.constant }

/-- The constant of a linear constraint goes into its domain. -/
def constraintKindToProto : ConstraintKind → ConstraintKindProto
  | .linear expr domain =>
    .linear {
      vars := expr.terms.map (varRef ·.1)
      coeffs := expr.terms.map (·.2)
      domain := domainToFlatArray (shiftDomain domain expr.constant)
    }
  | .allDifferent vars =>
    .all_diff { exprs := vars.map fun v => linearExprToProto (.ofIntVar v) }
  | .boolOr lits => .bool_or { literals := lits.map litRef }
  | .boolAnd lits => .bool_and { literals := lits.map litRef }
  | .atMostOne lits => .at_most_one { literals := lits.map litRef }
  | .exactlyOne lits => .exactly_one { literals := lits.map litRef }
  | .linMax target exprs =>
    .lin_max { target := some (linearExprToProto target), exprs := exprs.map linearExprToProto }
  | .element index exprs target =>
    .element {
      linear_index := some (linearExprToProto index)
      linear_target := some (linearExprToProto target)
      exprs := exprs.map linearExprToProto
    }
  | .intDiv target numerator denominator =>
    .int_div {
      target := some (linearExprToProto target)
      exprs := #[linearExprToProto numerator, linearExprToProto denominator]
    }
  | .intMod target expr modulus =>
    .int_mod {
      target := some (linearExprToProto target)
      exprs := #[linearExprToProto expr, linearExprToProto modulus]
    }
  | .intProd target factors =>
    .int_prod { target := some (linearExprToProto target), exprs := factors.map linearExprToProto }
  | .inverse vars invVars =>
    .inverse { f_direct := vars.map varRef, f_inverse := invVars.map varRef }
  | .boolXor lits => .bool_xor { literals := lits.map litRef }

def constraintDataToProto (cd : ConstraintData) : ConstraintProto :=
  {
    name := cd.name
    enforcement_literal := cd.enforcementLiterals.map litRef
    constraint := some (constraintKindToProto cd.kind)
  }

/-- A maximization is sent negated, with a scaling of minus one. -/
def objectiveToProto (expr : LinearExpr) (maximize : Bool) : CpObjectiveProto :=
  let vars := expr.terms.map (varRef ·.1)
  let coeffs := expr.terms.map (·.2)
  if maximize then
    { vars, coeffs := coeffs.map (-·), offset := -(Float.ofInt expr.constant.toInt),
      scaling_factor := -1.0 }
  else
    { vars, coeffs, offset := Float.ofInt expr.constant.toInt, scaling_factor := 1.0 }

def modelStateToProto (s : ModelState) : CpModelProto :=
  {
    name := s.name
    «variables» :=
      (s.varDomains.zip s.varNames).map fun (d, n) => { name := n, domain := domainToFlatArray d }
    constraints := s.constraints.map constraintDataToProto
    objective := s.objective.map fun (expr, maximize) => objectiveToProto expr maximize
    -- Present-but-empty is a different message from absent.
    solution_hint :=
      if s.solutionHint.isEmpty then none
      else some {
        vars := s.solutionHint.map (varRef ·.1)
        values := s.solutionHint.map (·.2)
      }
    assumptions := s.assumptions.map litRef
  }

/-- What the binding does not know counts as unknown. -/
def statusFromProto : CpSolverStatusProto → CpSolverStatus
  | .UNKNOWN => .unknown
  | .MODEL_INVALID => .modelInvalid
  | .FEASIBLE => .feasible
  | .INFEASIBLE => .infeasible
  | .OPTIMAL => .optimal
  | _ => .unknown

def responseFromProto (r : CpSolverResponseProto) : CpSolverResponse :=
  {
    status := statusFromProto r.status
    objectiveValue := r.objective_value
    bestObjectiveBound := r.best_objective_bound
    solution := r.solution
    wallTime := r.wall_time
    solutionInfo := r.solution_info
    sufficientAssumptionsForInfeasibility :=
      r.sufficient_assumptions_for_infeasibility.map fun lit => ⟨lit.toInt⟩
  }

/-! ## References -/

/-- Below `2 ^ 31` narrowing loses nothing. -/
theorem varRef_toInt {v : IntVar} (h : v.index < 2 ^ 31) : (varRef v).toInt = v.index := by
  change (Int32.ofInt (v.index : ℤ)).toInt = v.index
  exact Int32.toInt_ofInt_of_le (by omega) (by omega)

/-- Every variable of the builder is a variable of the message. -/
theorem variables_size {s : ModelState} (h : Built s) :
    (modelStateToProto s).«variables».size = s.varDomains.size := by
  simp [modelStateToProto, h.names_size]

/-! ## Domains -/

open Intervals

/-- A domain as a list of integer intervals. -/
def domainEnds (d : Domain) : List (ℤ × ℤ) :=
  d.intervals.toList.map fun i => (i.1.toInt, i.2.toInt)

/-- `clampToInt64` is the clamping of the integers into the `Int64` range. -/
theorem clampToInt64_toInt (x : ℤ) :
    (clampToInt64 x).toInt = clamp Int64.minValue.toInt Int64.maxValue.toInt x := by
  have hmin : Int64.minValue.toInt = -2 ^ 63 := rfl
  have hmax : Int64.maxValue.toInt = 2 ^ 63 - 1 := rfl
  unfold clampToInt64 clamp
  split
  · omega
  split
  · omega
  · rw [Int64.toInt_ofInt_of_le (by omega) (by omega)]
    omega

/-- Every word but the smallest has an opposite. -/
theorem toInt_neg_of_ne {x : Int64} (h : x ≠ Int64.minValue) : (-x).toInt = -x.toInt := by
  have hlow := x.le_toInt
  have hhigh := x.toInt_lt
  have hne : x.toInt ≠ -2 ^ 63 := fun heq => h (Int64.toInt.inj heq)
  rw [Int64.toInt_neg]
  exact Int.bmod_eq_of_le (by omega) (by omega)

/-- Folding a constant into a domain is translation followed by clamping. -/
theorem shiftDomain_ends (d : Domain) (c : Int64) :
    domainEnds (shiftDomain d c) =
      ((domainEnds d).map (onEnds (· + -c.toInt))).map
        (onEnds (clamp Int64.minValue.toInt Int64.maxValue.toInt)) := by
  simp [domainEnds, shiftDomain, onEnds, clampToInt64_toInt, Int.sub_eq_add_neg]

end Cpsat.Proto
