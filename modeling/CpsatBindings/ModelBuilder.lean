/-!
# The model builder

`Cpsat/Model.lean` and the solver-facing types of `Cpsat/Basic.lean`: model
building is a state computation over `ModelState`, and every `addX` function
appends exactly one constraint.

A state is *built* when some sequence of builder calls leads to it from the
empty model.  The one invariant the wire layer relies on is that a built state
has as many variable names as variable domains (`Built.names_size`); nothing
else is promised by the builder, which checks none of its arguments.
-/

namespace Cpsat

/-- A union of inclusive ranges `[lo, hi]`, as the caller wrote it. -/
structure Domain where
  intervals : Array (Int64 × Int64)
deriving Inhabited

namespace Domain

/-- All values from `lo` to `hi`. -/
def ofInterval (lo hi : Int64) : Domain := ⟨#[(lo, hi)]⟩

/-- The value `v`. -/
def single (v : Int64) : Domain := ofInterval v v

/-- Every value except `v`; both subtractions wrap. -/
def excluding (v : Int64) : Domain :=
  ⟨#[(Int64.minValue, v - 1), (v + 1, Int64.maxValue)]⟩

end Domain

/-- An index into the model's variable array. -/
structure IntVar where
  index : Nat
deriving DecidableEq, Inhabited

/-- A reference to a 0/1 variable, or (negative) to its negation. -/
structure BoolVar where
  literal : Int
deriving DecidableEq, Inhabited

namespace BoolVar

/-- The literal that is true where the variable is 1. -/
def ofIntVar (v : IntVar) : BoolVar := ⟨(v.index : Int)⟩

/-- The literal that is true where `b` is false. -/
def not (b : BoolVar) : BoolVar := ⟨-b.literal - 1⟩

/-- The `(variable, value)` pair that sets `b` to `value`. -/
def hint (b : BoolVar) (value : Bool) : IntVar × Int64 :=
  if b.literal < 0 then (⟨(-b.literal - 1).toNat⟩, if value then 0 else 1)
  else (⟨b.literal.toNat⟩, if value then 1 else 0)

end BoolVar

/-- An affine combination of integer variables plus a constant. -/
structure LinearExpr where
  terms : Array (IntVar × Int64) := #[]
  constant : Int64 := 0
deriving Inhabited

namespace LinearExpr

/-- The constant `c`. -/
def const (c : Int64) : LinearExpr := { constant := c }

/-- The variable, once. -/
def ofIntVar (v : IntVar) : LinearExpr := { terms := #[(v, 1)] }

instance : Neg LinearExpr where
  neg e := { terms := e.terms.map fun (v, c) => (v, -c), constant := -e.constant }

instance : Add LinearExpr where
  add a b := { terms := a.terms ++ b.terms, constant := a.constant + b.constant }

instance : Sub LinearExpr where
  sub a b := a + (-b)

/-- The constant of a difference is the wrapping difference of the constants. -/
theorem sub_constant (a b : LinearExpr) :
    (a - b).constant = a.constant + -b.constant := rfl

end LinearExpr

/-- An index into the model's constraint array. -/
structure Constraint where
  index : Nat
deriving DecidableEq, Inhabited

/-- The supported constraint kinds, one for each wire `oneof` case. -/
inductive ConstraintKind where
  | linear (expr : LinearExpr) (domain : Domain)
  | allDifferent (vars : Array IntVar)
  | boolOr (lits : Array BoolVar)
  | boolAnd (lits : Array BoolVar)
  | atMostOne (lits : Array BoolVar)
  | exactlyOne (lits : Array BoolVar)
  | linMax (target : LinearExpr) (exprs : Array LinearExpr)
  | element (index : LinearExpr) (exprs : Array LinearExpr) (target : LinearExpr)
  | intDiv (target numerator denominator : LinearExpr)
  | intMod (target expr modulus : LinearExpr)
  | intProd (target : LinearExpr) (factors : Array LinearExpr)
  | inverse (vars invVars : Array IntVar)
  | boolXor (lits : Array BoolVar)
deriving Inhabited

/-- A constraint, the literals it is enforced by, and its name. -/
structure ConstraintData where
  kind : ConstraintKind
  enforcementLiterals : Array BoolVar := #[]
  name : String := ""
deriving Inhabited

/-- The model as it has been built so far. -/
structure ModelState where
  name : String := ""
  varDomains : Array Domain := #[]
  varNames : Array String := #[]
  constraints : Array ConstraintData := #[]
  /-- `some (expr, maximize?)`. -/
  objective : Option (LinearExpr × Bool) := none
  assumptions : Array BoolVar := #[]
  solutionHint : Array (IntVar × Int64) := #[]
deriving Inhabited

/-- Model building is a state computation. -/
abbrev CpModelM := StateM ModelState

def setModelName (name : String) : CpModelM Unit :=
  modify fun s => { s with name }

/-- The handle is the place of the new variable. -/
def newIntVar (domain : Domain) (name : String := "") : CpModelM IntVar := do
  let s ← get
  let idx := s.varDomains.size
  set { s with varDomains := s.varDomains.push domain, varNames := s.varNames.push name }
  return ⟨idx⟩

/-- A variable that is 0 or 1, as a literal. -/
def newBoolVar (name : String := "") : CpModelM BoolVar :=
  BoolVar.ofIntVar <$> newIntVar (.ofInterval 0 1) name

/-- A variable with one value. -/
def newConstant (value : Int64) : CpModelM IntVar :=
  newIntVar (.single value)

/-- The handle is the place of the new constraint. -/
def addConstraint (kind : ConstraintKind) (enforcementLiterals : Array BoolVar := #[])
    (name : String := "") : CpModelM Constraint := do
  let s ← get
  let idx := s.constraints.size
  set { s with constraints := s.constraints.push { kind, enforcementLiterals, name } }
  return ⟨idx⟩

/-- `expr` is in `domain`. -/
def addLinearConstraint (expr : LinearExpr) (domain : Domain) : CpModelM Constraint :=
  addConstraint (.linear expr domain)

/-- `lhs = rhs`, as a difference of zero. -/
def addEquality (lhs rhs : LinearExpr) : CpModelM Constraint :=
  addLinearConstraint (lhs - rhs) (.single 0)

/-- `lhs ≤ rhs`, as a difference that is not positive. -/
def addLessOrEqual (lhs rhs : LinearExpr) : CpModelM Constraint :=
  addLinearConstraint (lhs - rhs) (.ofInterval Int64.minValue 0)

/-- `lhs ≥ rhs`, as a difference that is not negative. -/
def addGreaterOrEqual (lhs rhs : LinearExpr) : CpModelM Constraint :=
  addLinearConstraint (lhs - rhs) (.ofInterval 0 Int64.maxValue)

/-- `lhs ≠ rhs`, as a difference that is not zero. -/
def addNotEqual (lhs rhs : LinearExpr) : CpModelM Constraint :=
  addLinearConstraint (lhs - rhs) (.excluding 0)

def addAllDifferent (vars : Array IntVar) : CpModelM Constraint :=
  addConstraint (.allDifferent vars)

def addBoolOr (lits : Array BoolVar) : CpModelM Constraint :=
  addConstraint (.boolOr lits)

def addBoolAnd (lits : Array BoolVar) : CpModelM Constraint :=
  addConstraint (.boolAnd lits)

def addAtMostOne (lits : Array BoolVar) : CpModelM Constraint :=
  addConstraint (.atMostOne lits)

def addExactlyOne (lits : Array BoolVar) : CpModelM Constraint :=
  addConstraint (.exactlyOne lits)

/-- `target` is the greatest of the expressions. -/
def addMaxEquality (target : LinearExpr) (exprs : Array LinearExpr) : CpModelM Constraint :=
  addConstraint (.linMax target exprs)

/-- `min` as `max` of negations: there is no `lin_min` on the wire. -/
def addMinEquality (target : LinearExpr) (exprs : Array LinearExpr) : CpModelM Constraint :=
  addMaxEquality (-target) (exprs.map (-·))

/-- `exprs[index] = target`. -/
def addElement (index : LinearExpr) (exprs : Array LinearExpr) (target : LinearExpr) :
    CpModelM Constraint :=
  addConstraint (.element index exprs target)

/-- `target = numerator / denominator`, rounded towards zero. -/
def addDivisionEquality (target numerator denominator : LinearExpr) : CpModelM Constraint :=
  addConstraint (.intDiv target numerator denominator)

/-- `target = expr % modulus`, with the sign of `expr`. -/
def addModuloEquality (target expr modulus : LinearExpr) : CpModelM Constraint :=
  addConstraint (.intMod target expr modulus)

/-- `target` is the product of the factors. -/
def addMultiplicationEquality (target : LinearExpr) (factors : Array LinearExpr) :
    CpModelM Constraint :=
  addConstraint (.intProd target factors)

/-- Permutations that undo each other. -/
def addInverseConstraint (vars invVars : Array IntVar) : CpModelM Constraint :=
  addConstraint (.inverse vars invVars)

def addBoolXor (lits : Array BoolVar) : CpModelM Constraint :=
  addConstraint (.boolXor lits)

/-- `|expr|` as `max(expr, -expr)`. -/
def addAbsEquality (target expr : LinearExpr) : CpModelM Constraint :=
  addMaxEquality target #[expr, -expr]

/-- `a → b`, encoded as `¬a ∨ b`. -/
def addImplication (a b : BoolVar) : CpModelM Constraint :=
  addBoolOr #[a.not, b]

/-- More literals for a constraint, if there is one at that place. -/
def Constraint.onlyEnforceIf (c : Constraint) (lits : Array BoolVar) : CpModelM Unit :=
  modify fun s =>
    match s.constraints[c.index]? with
    | some cd =>
      { s with
        constraints :=
          s.constraints.set! c.index
            { cd with enforcementLiterals := cd.enforcementLiterals ++ lits } }
    | none => s

/-- The last objective given counts. -/
def minimize (expr : LinearExpr) : CpModelM Unit :=
  modify fun s => { s with objective := some (expr, false) }

def maximize (expr : LinearExpr) : CpModelM Unit :=
  modify fun s => { s with objective := some (expr, true) }

def markAssumption (b : BoolVar) : CpModelM Unit :=
  modify fun s => { s with assumptions := s.assumptions.push b }

def markAssumptions (bs : Array BoolVar) : CpModelM Unit :=
  modify fun s => { s with assumptions := s.assumptions ++ bs }

def addSolutionHint (hints : Array (IntVar × Int64)) : CpModelM Unit :=
  modify fun s => { s with solutionHint := s.solutionHint ++ hints }

def addBoolSolutionHint (hints : Array (BoolVar × Bool)) : CpModelM Unit :=
  addSolutionHint (hints.map fun (b, value) => b.hint value)

/-! ## Built states -/

/-- The state a builder call leaves behind. -/
def after {α : Type} (m : CpModelM α) (s : ModelState) : ModelState :=
  (m.run s).2

/-- The states builder calls lead to.  Every `addX` function is `addConstraint`
at its own kind, and `newBoolVar`, `newConstant` are `newIntVar`, so these
calls are all there are. -/
inductive Built : ModelState → Prop
  | empty : Built {}
  | setModelName {s : ModelState} (name : String) :
      Built s → Built (after (setModelName name) s)
  | newIntVar {s : ModelState} (domain : Domain) (name : String) :
      Built s → Built (after (newIntVar domain name) s)
  | addConstraint {s : ModelState} (kind : ConstraintKind) (lits : Array BoolVar)
      (name : String) : Built s → Built (after (addConstraint kind lits name) s)
  | onlyEnforceIf {s : ModelState} (c : Constraint) (lits : Array BoolVar) :
      Built s → Built (after (c.onlyEnforceIf lits) s)
  | minimize {s : ModelState} (expr : LinearExpr) :
      Built s → Built (after (minimize expr) s)
  | maximize {s : ModelState} (expr : LinearExpr) :
      Built s → Built (after (maximize expr) s)
  | markAssumption {s : ModelState} (b : BoolVar) :
      Built s → Built (after (markAssumption b) s)
  | markAssumptions {s : ModelState} (bs : Array BoolVar) :
      Built s → Built (after (markAssumptions bs) s)
  | addSolutionHint {s : ModelState} (hints : Array (IntVar × Int64)) :
      Built s → Built (after (addSolutionHint hints) s)

/-- A new variable has a domain and a name, and comes last. -/
theorem after_newIntVar (domain : Domain) (name : String) (s : ModelState) :
    after (newIntVar domain name) s =
      { s with varDomains := s.varDomains.push domain, varNames := s.varNames.push name } :=
  rfl

/-- Enforcement literals are added to the one constraint named, if it is there. -/
theorem after_onlyEnforceIf (c : Constraint) (lits : Array BoolVar) (s : ModelState) :
    after (c.onlyEnforceIf lits) s =
      match s.constraints[c.index]? with
      | some cd =>
        { s with
          constraints :=
            s.constraints.set! c.index
              { cd with enforcementLiterals := cd.enforcementLiterals ++ lits } }
      | none => s := rfl

/-- Hint calls append to the hint and touch nothing else. -/
theorem after_addSolutionHint (hints : Array (IntVar × Int64)) (s : ModelState) :
    after (addSolutionHint hints) s = { s with solutionHint := s.solutionHint ++ hints } := rfl

/-- A hint over literals is one over their variables. -/
theorem after_addBoolSolutionHint (hints : Array (BoolVar × Bool)) (s : ModelState) :
    after (addBoolSolutionHint hints) s =
      { s with solutionHint := s.solutionHint ++ hints.map fun h => h.1.hint h.2 } := rfl

/-- Only `newIntVar` touches the variable tables, and it extends both. -/
theorem Built.names_size {s : ModelState} (h : Built s) :
    s.varNames.size = s.varDomains.size := by
  induction h with
  | empty => rfl
  | newIntVar domain name _ ih => simpa [after_newIntVar] using ih
  | onlyEnforceIf c lits _ ih =>
      rw [after_onlyEnforceIf]
      split <;> exact ih
  | setModelName _ _ ih | addConstraint _ _ _ _ ih | minimize _ _ ih | maximize _ _ ih
  | markAssumption _ _ ih | markAssumptions _ _ ih | addSolutionHint _ _ ih => exact ih

end Cpsat
