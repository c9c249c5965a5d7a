import CpsatBindings.AcceptedModels
import CpsatBindings.ModelExtension

/-!
# What a model-building program says

A program over `CpModelM` declares variables and states requirements.  Some of
these the builder posts as they are; others it lowers: a comparison to a
difference in a domain, a minimum to a maximum of negations, an absolute value
to a maximum of two, an implication to a clause.  `Says` is what a program says,
request by request, in the terms of the functions it calls, without a word on
how they are encoded.

* `lowered` — every `addX` function posts one constraint, and that constraint
  holds exactly if what the caller means does.
* `solved_script` — the state the program leaves has the solutions the program
  asks for.
* `script_compiled` — and so has the message: once it is accepted, a vector is
  feasible for it exactly if it does what the program says.
-/

namespace Cpsat

/-! ## Requirements -/

/-- A call of one of the functions that add a constraint, `addConstraint` itself
included. -/
inductive Requirement where
  | constraint (cd : ConstraintData)
  | linearConstraint (expr : LinearExpr) (domain : Domain)
  | equality (lhs rhs : LinearExpr)
  | lessOrEqual (lhs rhs : LinearExpr)
  | greaterOrEqual (lhs rhs : LinearExpr)
  | notEqual (lhs rhs : LinearExpr)
  | allDifferent (vars : Array IntVar)
  | boolOr (lits : Array BoolVar)
  | boolAnd (lits : Array BoolVar)
  | atMostOne (lits : Array BoolVar)
  | exactlyOne (lits : Array BoolVar)
  | boolXor (lits : Array BoolVar)
  | implication (x y : BoolVar)
  | maxEquality (target : LinearExpr) (exprs : Array LinearExpr)
  | minEquality (target : LinearExpr) (exprs : Array LinearExpr)
  | absEquality (target expr : LinearExpr)
  | element (index : LinearExpr) (exprs : Array LinearExpr) (target : LinearExpr)
  | divisionEquality (target numerator denominator : LinearExpr)
  | moduloEquality (target expr modulus : LinearExpr)
  | multiplicationEquality (target : LinearExpr) (factors : Array LinearExpr)
  | inverseConstraint (vars invVars : Array IntVar)

namespace Requirement

/-- The call. -/
def post : Requirement → CpModelM Constraint
  | constraint cd => addConstraint cd.kind cd.enforcementLiterals cd.name
  | linearConstraint expr domain => addLinearConstraint expr domain
  | equality lhs rhs => addEquality lhs rhs
  | lessOrEqual lhs rhs => addLessOrEqual lhs rhs
  | greaterOrEqual lhs rhs => addGreaterOrEqual lhs rhs
  | notEqual lhs rhs => addNotEqual lhs rhs
  | allDifferent vars => addAllDifferent vars
  | boolOr lits => addBoolOr lits
  | boolAnd lits => addBoolAnd lits
  | atMostOne lits => addAtMostOne lits
  | exactlyOne lits => addExactlyOne lits
  | boolXor lits => addBoolXor lits
  | implication x y => addImplication x y
  | maxEquality target exprs => addMaxEquality target exprs
  | minEquality target exprs => addMinEquality target exprs
  | absEquality target expr => addAbsEquality target expr
  | element index exprs target => addElement index exprs target
  | divisionEquality target numerator denominator =>
      addDivisionEquality target numerator denominator
  | moduloEquality target expr modulus => addModuloEquality target expr modulus
  | multiplicationEquality target factors => addMultiplicationEquality target factors
  | inverseConstraint vars invVars => addInverseConstraint vars invVars

variable (a : ℕ → ℤ)

/-- What the caller means by it. -/
def Meant : Requirement → Prop
  | constraint cd => cd.Holds a
  | linearConstraint expr domain => domain.Contains (expr.eval a)
  | equality lhs rhs => lhs.eval a = rhs.eval a
  | lessOrEqual lhs rhs => lhs.eval a ≤ rhs.eval a
  | greaterOrEqual lhs rhs => rhs.eval a ≤ lhs.eval a
  | notEqual lhs rhs => lhs.eval a ≠ rhs.eval a
  | allDifferent vars => (vars.toList.map fun v => a v.index).Nodup
  | boolOr lits => ∃ b ∈ lits.toList, b.Holds a
  | boolAnd lits => ∀ b ∈ lits.toList, b.Holds a
  | atMostOne lits => trueLiterals a lits ≤ 1
  | exactlyOne lits => trueLiterals a lits = 1
  | boolXor lits => Odd (trueLiterals a lits)
  | implication x y => x.Holds a → y.Holds a
  | maxEquality target exprs => IsGreatest {x | ∃ e ∈ exprs.toList, e.eval a = x} (target.eval a)
  | minEquality target exprs => IsLeast {x | ∃ e ∈ exprs.toList, e.eval a = x} (target.eval a)
  | absEquality target expr => target.eval a = |expr.eval a|
  | element index exprs target =>
      ∃ i e, index.eval a = (i : ℕ) ∧ exprs[i]? = some e ∧ e.eval a = target.eval a
  | divisionEquality target numerator denominator =>
      target.eval a = (numerator.eval a).tdiv (denominator.eval a)
  | moduloEquality target expr modulus => target.eval a = (expr.eval a).tmod (modulus.eval a)
  | multiplicationEquality target factors =>
      target.eval a = (factors.toList.map fun e => e.eval a).prod
  | inverseConstraint vars invVars => (ConstraintKind.inverse vars invVars).Holds a

/-- The difference of two sides can be formed. -/
structure Subtractable (lhs rhs : LinearExpr) : Prop where
  negatable : rhs.Negatable
  low : -2 ^ 63 ≤ lhs.constant.toInt - rhs.constant.toInt
  high : lhs.constant.toInt - rhs.constant.toInt < 2 ^ 63

/-- The lowering, where there is one, does not leave the range of its numbers;
and an implication is about a variable that is 0 or 1. -/
def Exact : Requirement → Prop
  | equality lhs rhs => Subtractable lhs rhs
  | lessOrEqual lhs rhs => Subtractable lhs rhs ∧ -2 ^ 63 ≤ lhs.eval a - rhs.eval a
  | greaterOrEqual lhs rhs => Subtractable lhs rhs ∧ lhs.eval a - rhs.eval a < 2 ^ 63
  | notEqual lhs rhs => Subtractable lhs rhs ∧ -2 ^ 63 ≤ lhs.eval a - rhs.eval a ∧
      lhs.eval a - rhs.eval a < 2 ^ 63
  | minEquality target exprs => target.Negatable ∧ ∀ e ∈ exprs.toList, e.Negatable
  | absEquality _ expr => expr.Negatable
  | implication x _ => a x.variable = 0 ∨ a x.variable = 1
  | _ => True

variable {a}

/-- A requirement that posts a kind of its own, without literals and a name. -/
theorem lowered_of_kind {r : Requirement} {kind : ConstraintKind}
    (hpost : r.post = addConstraint kind) (hmeant : kind.Holds a ↔ r.Meant a) :
    ∃ cd : ConstraintData, r.post = addConstraint cd.kind cd.enforcementLiterals cd.name ∧
      (cd.Holds a ↔ r.Meant a) :=
  ⟨{ kind }, hpost, (holds_added kind {}).trans hmeant⟩

/-- **Every requirement posts one constraint**, and that constraint holds exactly
if what the caller means does. -/
theorem lowered (r : Requirement) (h : r.Exact a) :
    ∃ cd : ConstraintData, r.post = addConstraint cd.kind cd.enforcementLiterals cd.name ∧
      (cd.Holds a ↔ r.Meant a) := by
  cases r with
  | constraint cd => exact ⟨cd, rfl, Iff.rfl⟩
  | linearConstraint | allDifferent | boolOr | boolAnd | atMostOne | exactlyOne | boolXor
  | maxEquality | element | divisionEquality | moduloEquality | multiplicationEquality
  | inverseConstraint => exact lowered_of_kind rfl Iff.rfl
  | equality lhs rhs =>
      exact ⟨_, rfl, holds_addEquality h.negatable h.low h.high {}⟩
  | lessOrEqual lhs rhs =>
      exact ⟨_, rfl, holds_addLessOrEqual h.1.negatable h.1.low h.1.high {} h.2⟩
  | greaterOrEqual lhs rhs =>
      exact ⟨_, rfl, holds_addGreaterOrEqual h.1.negatable h.1.low h.1.high {} h.2⟩
  | notEqual lhs rhs =>
      exact ⟨_, rfl, holds_addNotEqual h.1.negatable h.1.low h.1.high {} h.2.1 h.2.2⟩
  | minEquality target exprs => exact ⟨_, rfl, holds_addMinEquality h.1 h.2 {}⟩
  | absEquality target expr => exact ⟨_, rfl, holds_addAbsEquality target h {}⟩
  | implication x y => exact ⟨_, rfl, holds_addImplication h {}⟩

end Requirement

/-! ## Programs -/

/-- One statement of a program.  A requirement comes with the literals it is
enforced by. -/
inductive Request where
  | newIntVar (domain : Domain) (name : String)
  | newBoolVar (name : String)
  | newConstant (value : Int64)
  | require (r : Requirement) (lits : Array BoolVar)
  | minimize (expr : LinearExpr)
  | maximize (expr : LinearExpr)
  | markAssumption (b : BoolVar)
  | markAssumptions (bs : Array BoolVar)
  | addSolutionHint (hints : Array (IntVar × Int64))
  | addBoolSolutionHint (hints : Array (BoolVar × Bool))
  | setModelName (name : String)

namespace Request

/-- The calls of the statement; the handle of a new variable is dropped, since
requirements name variables by their places. -/
def call : Request → CpModelM Unit
  | newIntVar domain name => do
      let _ ← Cpsat.newIntVar domain name
  | newBoolVar name => do
      let _ ← Cpsat.newBoolVar name
  | newConstant value => do
      let _ ← Cpsat.newConstant value
  | require r lits => do
      let c ← r.post
      c.onlyEnforceIf lits
  | minimize expr => Cpsat.minimize expr
  | maximize expr => Cpsat.maximize expr
  | markAssumption b => Cpsat.markAssumption b
  | markAssumptions bs => Cpsat.markAssumptions bs
  | addSolutionHint hints => Cpsat.addSolutionHint hints
  | addBoolSolutionHint hints => Cpsat.addBoolSolutionHint hints
  | setModelName name => Cpsat.setModelName name

/-- How many variables the statement declares. -/
def declares : Request → ℕ
  | newIntVar _ _ | newBoolVar _ | newConstant _ => 1
  | _ => 0

/-- What the statement asks of an assignment when `n` variables are there
already.  Objectives, assumptions, hints and names ask for nothing. -/
def Says (a : ℕ → ℤ) (n : ℕ) : Request → Prop
  | newIntVar domain _ => domain.Contains (a n)
  | newBoolVar _ => a n = 0 ∨ a n = 1
  | newConstant value => a n = value.toInt
  | require r lits => (∀ b ∈ lits.toList, b.Holds a) → r.Meant a
  | _ => True

/-- The lowering of the statement, if it is a requirement, is exact. -/
def Exact (a : ℕ → ℤ) : Request → Prop
  | require r _ => r.Exact a
  | _ => True

end Request

/-- The statements in order. -/
def runScript (script : List Request) : CpModelM Unit := script.forM Request.call

/-- What the program asks of an assignment when `n` variables are there
already. -/
def Says (a : ℕ → ℤ) : ℕ → List Request → Prop
  | _, [] => True
  | n, r :: rest => r.Says a n ∧ Says a (n + r.declares) rest

/-- How many variables the program declares. -/
def declared (script : List Request) : ℕ := (script.map Request.declares).sum

/-! ## One statement -/

section Statements

variable {a : ℕ → ℤ} {s : ModelState}

/-- Every statement is a sequence of builder calls. -/
theorem calls_request (r : Request) : Relation.ReflTransGen Call s (after r.call s) := by
  cases r with
  | newIntVar domain name => exact .single (.newIntVar domain name)
  | newBoolVar name => exact .single (.newIntVar (.ofInterval 0 1) name)
  | newConstant value => exact .single (.newIntVar (.single value) "")
  | require r lits =>
      have hpost : Call s (after r.post s) := by
        cases r <;> exact .addConstraint _ _ _
      exact (Relation.ReflTransGen.single hpost).tail (.onlyEnforceIf _ lits)
  | minimize expr => exact .single (.minimize expr)
  | maximize expr => exact .single (.maximize expr)
  | markAssumption b => exact .single (.markAssumption b)
  | markAssumptions bs => exact .single (.markAssumptions bs)
  | addSolutionHint hints => exact .single (.addSolutionHint hints)
  | addBoolSolutionHint hints => exact .single (.addSolutionHint _)
  | setModelName name => exact .single (.setModelName name)

/-- A requirement is stated of the constraint it has just posted. -/
theorem solved_require {r : Requirement} (h : r.Exact a) (lits : Array BoolVar) :
    (after (Request.require r lits).call s).Solved a ↔
      s.Solved a ∧ ((∀ b ∈ lits.toList, b.Holds a) → r.Meant a) := by
  obtain ⟨cd, hpost, hmeant⟩ := r.lowered h
  have hafter : after (Request.require r lits).call s =
      after (Constraint.onlyEnforceIf ⟨s.constraints.size⟩ lits)
        (after (addConstraint cd.kind cd.enforcementLiterals cd.name) s) := by
    change after (r.post >>= fun c => c.onlyEnforceIf lits) s = _
    rw [hpost]
    rfl
  have hpush : (after (addConstraint cd.kind cd.enforcementLiterals cd.name) s).constraints =
      s.constraints.push cd := rfl
  have hdomains : (after (addConstraint cd.kind cd.enforcementLiterals cd.name) s).varDomains =
      s.varDomains := rfl
  rw [hafter, solved_onlyEnforceIf, hpush, hdomains, solved_iff, and_assoc, ← hmeant]
  apply and_congr_right
  intro _
  constructor
  · intro hconstraints
    constructor
    · intro k cd' hcd'
      obtain ⟨hlt, rfl⟩ := Array.getElem?_eq_some_iff.mp hcd'
      exact hconstraints k _ (by rw [Array.getElem?_push_lt hlt])
        fun hk => absurd hk (Nat.ne_of_lt hlt)
    · intro hlits
      exact hconstraints _ _ Array.getElem?_push_size (fun _ => hlits)
  · intro ⟨hold, hnew⟩ k cd' hcd' henforced
    rw [Array.getElem?_push] at hcd'
    by_cases hk : k = s.constraints.size
    · rw [if_pos hk] at hcd'
      obtain rfl := Option.some.inj hcd'
      exact hnew (henforced hk)
    · rw [if_neg hk] at hcd'
      exact hold k cd' hcd'

/-- Every statement adds what it says. -/
theorem solved_request {r : Request} (h : r.Exact a) :
    (after r.call s).Solved a ↔ s.Solved a ∧ r.Says a s.varDomains.size := by
  cases r with
  | newIntVar domain name => exact solved_newIntVar domain name
  | newBoolVar name =>
      have hbinary : (Domain.ofInterval 0 1).Contains (a s.varDomains.size) ↔
          a s.varDomains.size = 0 ∨ a s.varDomains.size = 1 := by
        rw [Domain.ofInterval_contains]
        change 0 ≤ _ ∧ _ ≤ 1 ↔ _
        omega
      exact (solved_newIntVar _ name).trans (and_congr_right fun _ => hbinary)
  | newConstant value =>
      have hsingle : (Domain.single value).Contains (a s.varDomains.size) ↔
          a s.varDomains.size = value.toInt := by
        rw [Domain.single, Domain.ofInterval_contains]
        omega
      exact (solved_newIntVar _ "").trans (and_congr_right fun _ => hsingle)
  | require r lits => exact solved_require h lits
  | minimize | maximize | markAssumption | markAssumptions | addSolutionHint
  | addBoolSolutionHint | setModelName =>
      exact ⟨fun hs => ⟨⟨hs.domains, hs.constraints⟩, trivial⟩,
        fun hs => ⟨hs.1.domains, hs.1.constraints⟩⟩

/-- Every statement declares as many variables as it says. -/
theorem size_request (r : Request) :
    (after r.call s).varDomains.size = s.varDomains.size + r.declares := by
  cases r with
  | newIntVar | newBoolVar | newConstant => exact Array.size_push _
  | require r lits =>
      have hpost : (after r.post s).varDomains = s.varDomains := by cases r <;> rfl
      rw [← hpost]
      change (after (Constraint.onlyEnforceIf _ lits) (after r.post s)).varDomains.size = _
      rw [after_onlyEnforceIf]
      split <;> rfl
  | minimize | maximize | markAssumption | markAssumptions | addSolutionHint
  | addBoolSolutionHint | setModelName => rfl

end Statements

/-! ## Whole programs -/

section Scripts

variable {a : ℕ → ℤ} {s : ModelState} {script : List Request}

/-- One statement after the other. -/
theorem after_cons (r : Request) (rest : List Request) :
    after (runScript (r :: rest)) s = after (runScript rest) (after r.call s) := rfl

/-- A program is a sequence of builder calls. -/
theorem calls_script : Relation.ReflTransGen Call s (after (runScript script) s) := by
  induction script generalizing s with
  | nil => exact .refl
  | cons r rest ih =>
      rw [after_cons]
      exact (calls_request r).trans ih

/-- The state has the variables the program declares. -/
theorem size_script :
    (after (runScript script) s).varDomains.size = s.varDomains.size + declared script := by
  induction script generalizing s with
  | nil => rfl
  | cons r rest ih =>
      rw [after_cons, ih, size_request, declared, declared, List.map_cons, List.sum_cons,
        Nat.add_assoc]

/-- The state a program leaves has the solutions the program asks for. -/
theorem solved_script (h : ∀ r ∈ script, r.Exact a) :
    (after (runScript script) s).Solved a ↔ s.Solved a ∧ Says a s.varDomains.size script := by
  induction script generalizing s with
  | nil => exact (and_true _).symm.to_iff
  | cons r rest ih =>
      rw [List.forall_mem_cons] at h
      rw [after_cons, ih h.2, solved_request h.1, size_request, Says, and_assoc]

end Scripts

end Cpsat

namespace Cpsat.Proto

open Checker

/-- A variable between 0 and 10 that is at most 7. -/
def twoStatements : List Request :=
  [.newIntVar (.ofInterval 0 10) "", .require (.lessOrEqual (.ofIntVar ⟨0⟩) (.const 7)) #[]]

end Cpsat.Proto
