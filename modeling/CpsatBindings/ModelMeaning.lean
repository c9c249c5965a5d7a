import Mathlib.Algebra.BigOperators.Group.List.Basic
import Mathlib.Algebra.BigOperators.Ring.List
import Mathlib.Algebra.Ring.Parity
import Mathlib.Order.Bounds.Basic
import Mathlib.Logic.Equiv.Defs
import CpsatBindings.DomainShift

/-!
# What a model means

A model stands for the assignments of integers to its variables that satisfy
its constraints.  This file says so over the integers, without words of any
width and without the wire.

The builder has no constraint kind of its own for a minimum, an absolute value,
an implication or a comparison: it writes them with the kinds it has.  The
second half proves that what is written means what the caller asked for, as
long as no coefficient is `-2 ^ 63`, whose negation wraps.
-/

namespace Cpsat

open Intervals

section Meaning

variable (a : ℕ → ℤ)

/-- The value of a sum without its constant. -/
def LinearExpr.sum (e : LinearExpr) : ℤ :=
  (e.terms.toList.map fun term => term.2.toInt * a term.1.index).sum

/-- The value of an expression. -/
def LinearExpr.eval (e : LinearExpr) : ℤ := e.sum a + e.constant.toInt

/-- The variable a literal is about. -/
def BoolVar.variable (b : BoolVar) : ℕ :=
  if b.literal < 0 then (-b.literal - 1).toNat else b.literal.toNat

/-- The literal is true. -/
def BoolVar.Holds (b : BoolVar) : Prop :=
  a b.variable = if b.literal < 0 then 0 else 1

instance (b : BoolVar) : Decidable (b.Holds a) :=
  inferInstanceAs (Decidable (_ = _))

/-- How many of the literals hold. -/
def trueLiterals (lits : Array BoolVar) : ℕ := lits.toList.countP fun b => decide (b.Holds a)

/-- Some interval of the domain contains `x`. -/
def Domain.Contains (d : Domain) (x : ℤ) : Prop := Covers (Proto.domainEnds d) x

/-- An interval contains what is between its ends. -/
theorem Domain.ofInterval_contains (lo hi : Int64) (x : ℤ) :
    (Domain.ofInterval lo hi).Contains x ↔ lo.toInt ≤ x ∧ x ≤ hi.toInt := by
  change Covers [(lo.toInt, hi.toInt)] x ↔ _
  simp only [Covers, List.mem_singleton, exists_eq_left]

/-- What a constraint says, kind by kind. -/
def ConstraintKind.Holds : ConstraintKind → Prop
  | .boolOr lits => ∃ b ∈ lits.toList, b.Holds a
  | .boolAnd lits => ∀ b ∈ lits.toList, b.Holds a
  | .atMostOne lits => trueLiterals a lits ≤ 1
  | .exactlyOne lits => trueLiterals a lits = 1
  | .boolXor lits => Odd (trueLiterals a lits)
  | .linear expr domain => domain.Contains (expr.eval a)
  | .allDifferent vars => (vars.toList.map fun v => a v.index).Nodup
  | .linMax target exprs => IsGreatest {x | ∃ e ∈ exprs.toList, e.eval a = x} (target.eval a)
  | .element index exprs target =>
      ∃ i e, index.eval a = (i : ℕ) ∧ exprs[i]? = some e ∧ e.eval a = target.eval a
  | .intDiv target numerator denominator =>
      target.eval a = (numerator.eval a).tdiv (denominator.eval a)
  | .intMod target expr modulus => target.eval a = (expr.eval a).tmod (modulus.eval a)
  | .intProd target factors => target.eval a = (factors.toList.map fun e => e.eval a).prod
  | .inverse vars invVars =>
      ∃ π : Equiv.Perm (Fin vars.size), vars.size = invVars.size ∧
        (∀ i : Fin vars.size, a vars[i].index = (π i : ℕ)) ∧
          ∀ i : Fin vars.size, a invVars[(i : ℕ)]!.index = (π.symm i : ℕ)

/-- A constraint is asked for where its literals hold. -/
def ConstraintData.Holds (cd : ConstraintData) : Prop :=
  (∀ b ∈ cd.enforcementLiterals.toList, b.Holds a) → cd.kind.Holds a

/-- The assignment is a solution of the model. -/
structure ModelState.Solved (s : ModelState) : Prop where
  domains : ∀ i, (h : i < s.varDomains.size) → s.varDomains[i].Contains (a i)
  constraints : ∀ cd ∈ s.constraints.toList, cd.Holds a

/-! ## Ranges -/

/-- The expression can be computed in 64 bits, over variables that can be
referred to in 32. -/
structure LinearExpr.Fits (e : LinearExpr) : Prop where
  vars : ∀ term ∈ e.terms.toList, term.1.index < 2 ^ 31
  low : -2 ^ 63 ≤ e.eval a
  high : e.eval a < 2 ^ 63

/-- The literal is about a variable that can be referred to, and is 0 or 1. -/
structure BoolVar.Fits (b : BoolVar) : Prop where
  small : b.variable < 2 ^ 31
  binary : a b.variable = 0 ∨ a b.variable = 1

/-- Nothing in the constraint leaves its range: no sum, quotient or product 64
bits, no index 32, and nothing is divided by zero.  A product of two may, as
long as its target is not one of the ends it saturates to; and a maximum over
nothing is not asked to be the smallest integer. -/
def ConstraintKind.Fits : ConstraintKind → Prop
  | .linear expr _ =>
      (∀ term ∈ expr.terms.toList, term.1.index < 2 ^ 31) ∧
        -2 ^ 63 < expr.sum a ∧ expr.sum a < 2 ^ 63 - 1
  | .allDifferent vars => ∀ v ∈ vars.toList, v.index < 2 ^ 31
  | .boolOr lits | .boolAnd lits | .atMostOne lits | .exactlyOne lits | .boolXor lits =>
      ∀ b ∈ lits.toList, b.Fits a
  | .linMax target exprs =>
      target.Fits a ∧ (exprs.toList ≠ [] ∨ -2 ^ 63 < target.eval a) ∧
        ∀ e ∈ exprs.toList, e.Fits a
  | .element index exprs target =>
      index.Fits a ∧ target.Fits a ∧ (∀ e ∈ exprs.toList, e.Fits a) ∧
        -2 ^ 31 ≤ index.eval a ∧ index.eval a < 2 ^ 31
  | .intDiv target numerator denominator =>
      target.Fits a ∧ numerator.Fits a ∧ denominator.Fits a ∧ denominator.eval a ≠ 0 ∧
        (numerator.eval a).tdiv (denominator.eval a) < 2 ^ 63
  | .intMod target expr modulus =>
      target.Fits a ∧ expr.Fits a ∧ modulus.Fits a ∧ modulus.eval a ≠ 0 ∧
        (expr.eval a).tdiv (modulus.eval a) < 2 ^ 63
  | .intProd target factors =>
      target.Fits a ∧ (∀ e ∈ factors.toList, e.Fits a) ∧
        (|(factors.toList.map fun e => e.eval a).prod| < 2 ^ 63 ∨
          factors.toList.length ≤ 2 ∧ |target.eval a| < 2 ^ 63 - 1)
  | .inverse vars invVars =>
      (∀ v ∈ vars.toList ++ invVars.toList, v.index < 2 ^ 31) ∧
        ∀ v ∈ vars.toList, -2 ^ 31 ≤ a v.index ∧ a v.index < 2 ^ 31

/-- Nothing in the constraint leaves its range, and its literals are about variables
that are 0 or 1. -/
structure ConstraintData.Fits (cd : ConstraintData) : Prop where
  literals : ∀ b ∈ cd.enforcementLiterals.toList, b.Fits a
  kind : cd.kind.Fits a

/-- Nothing in the model leaves its range. -/
def ModelState.Fits (s : ModelState) : Prop := ∀ cd ∈ s.constraints.toList, cd.Fits a

end Meaning

/-! ## Derived constraints -/

section Derived

variable {a : ℕ → ℤ}

/-- No part of the expression wraps when it is negated. -/
structure LinearExpr.Negatable (e : LinearExpr) : Prop where
  terms : ∀ term ∈ e.terms.toList, term.2 ≠ Int64.minValue
  constant : e.constant ≠ Int64.minValue

/-- The negated sum, as long as no coefficient wraps. -/
theorem LinearExpr.sum_neg {e : LinearExpr}
    (h : ∀ term ∈ e.terms.toList, term.2 ≠ Int64.minValue) : (-e).sum a = -e.sum a := by
  have hterms : (-e).terms.toList = e.terms.toList.map fun term => (term.1, -term.2) := by
    change (e.terms.map _).toList = _
    simp
  have hneg : ∀ term ∈ e.terms.toList,
      (-term.2).toInt * a term.1.index = -(term.2.toInt * a term.1.index) := by
    intro term hterm
    rw [Proto.toInt_neg_of_ne (h term hterm), Int.neg_mul]
  rw [LinearExpr.sum, LinearExpr.sum, List.sum_neg, hterms, List.map_map, List.map_map]
  exact congrArg List.sum (List.map_congr_left hneg)

/-- The negated value, as long as nothing wraps. -/
theorem LinearExpr.eval_neg {e : LinearExpr} (h : e.Negatable) : (-e).eval a = -e.eval a := by
  have hconstant : (-e).constant.toInt = -e.constant.toInt :=
    Proto.toInt_neg_of_ne h.constant
  rw [LinearExpr.eval, LinearExpr.eval, sum_neg h.terms, hconstant]
  omega

/-- The difference of two sums. -/
theorem LinearExpr.sum_sub {lhs rhs : LinearExpr} (h : rhs.Negatable) :
    (lhs - rhs).sum a = lhs.sum a - rhs.sum a := by
  have hterms : (lhs - rhs).terms.toList = lhs.terms.toList ++ (-rhs).terms.toList := by
    change (lhs.terms ++ _).toList = _
    simp
  have hneg := sum_neg (a := a) h.terms
  rw [LinearExpr.sum, hterms, List.map_append, List.sum_append]
  rw [LinearExpr.sum] at hneg
  rw [hneg]
  rfl

/-- The difference of the two sides of a comparison. -/
theorem LinearExpr.eval_sub {lhs rhs : LinearExpr} (h : rhs.Negatable)
    (hmin : -2 ^ 63 ≤ lhs.constant.toInt - rhs.constant.toInt)
    (hmax : lhs.constant.toInt - rhs.constant.toInt < 2 ^ 63) :
    (lhs - rhs).eval a = lhs.eval a - rhs.eval a := by
  rw [LinearExpr.eval, LinearExpr.eval, LinearExpr.eval, sum_sub h,
    Proto.sub_constant_toInt hmin hmax]
  omega

/-- A literal on a 0/1 variable fails exactly if its negation holds. -/
theorem BoolVar.not_holds {b : BoolVar} (h : a b.variable = 0 ∨ a b.variable = 1) :
    b.not.Holds a ↔ ¬ b.Holds a := by
  have hvariable : b.not.variable = b.variable := by
    unfold BoolVar.variable BoolVar.not
    simp only
    split <;> split <;> omega
  have hsign : b.not.literal < 0 ↔ ¬ b.literal < 0 := by
    unfold BoolVar.not
    simp only
    omega
  unfold BoolVar.Holds
  rw [hvariable]
  by_cases hneg : b.literal < 0
  · rw [if_neg (by rw [hsign]; exact not_not.mpr hneg), if_pos hneg]
    omega
  · rw [if_pos (hsign.mpr hneg), if_neg hneg]
    omega

/-- The constraint a builder call has just added. -/
def added (call : CpModelM Constraint) (s : ModelState) : ConstraintData :=
  (after call s).constraints.back!

/-- It is of the kind that was called for, without literals or a name. -/
theorem added_addConstraint (kind : ConstraintKind) (s : ModelState) :
    added (addConstraint kind) s = { kind } := by
  change (s.constraints.push _).back! = _
  simp

/-- A constraint without enforcement literals holds if its kind does. -/
theorem holds_added (kind : ConstraintKind) (s : ModelState) :
    (added (addConstraint kind) s).Holds a ↔ kind.Holds a := by
  rw [added_addConstraint]
  constructor
  · intro h
    exact h (fun b hb => absurd hb List.not_mem_nil)
  · intro h _
    exact h

/-- A maximum is posted as it is. -/
theorem holds_addMaxEquality (target : LinearExpr) (exprs : Array LinearExpr) (s : ModelState) :
    (added (addMaxEquality target exprs) s).Holds a ↔
      IsGreatest {x | ∃ e ∈ exprs.toList, e.eval a = x} (target.eval a) :=
  holds_added _ s

/-- A minimum is the negated maximum of the negations. -/
theorem holds_addMinEquality {target : LinearExpr} {exprs : Array LinearExpr}
    (htarget : target.Negatable) (hexprs : ∀ e ∈ exprs.toList, e.Negatable) (s : ModelState) :
    (added (addMinEquality target exprs) s).Holds a ↔
      IsLeast {x | ∃ e ∈ exprs.toList, e.eval a = x} (target.eval a) := by
  have hvalues : ∀ x, (∃ e ∈ (exprs.map (-·)).toList, e.eval a = x) ↔
      ∃ e ∈ exprs.toList, e.eval a = -x := by
    intro x
    simp only [Array.toList_map, List.mem_map, exists_exists_and_eq_and]
    refine exists_congr fun e => and_congr_right fun he => ?_
    rw [LinearExpr.eval_neg (hexprs e he)]
    omega
  rw [addMinEquality, holds_addMaxEquality, LinearExpr.eval_neg htarget]
  simp only [hvalues]
  constructor
  · rintro ⟨hmem, hupper⟩
    refine ⟨by simpa using hmem, ?_⟩
    intro x hx
    have hle := hupper (show ∃ e ∈ exprs.toList, e.eval a = -(-x) by simpa using hx)
    omega
  · rintro ⟨hmem, hlower⟩
    refine ⟨by simpa using hmem, ?_⟩
    intro x hx
    have hle := hlower (show ∃ e ∈ exprs.toList, e.eval a = -x from hx)
    omega

/-- An absolute value is the greater of the expression and its negation. -/
theorem holds_addAbsEquality (target : LinearExpr) {expr : LinearExpr} (h : expr.Negatable)
    (s : ModelState) :
    (added (addAbsEquality target expr) s).Holds a ↔ target.eval a = |expr.eval a| := by
  have hvalues : {x | ∃ e ∈ (#[expr, -expr] : Array LinearExpr).toList, e.eval a = x} =
      {expr.eval a, -expr.eval a} := by
    ext x
    simp [LinearExpr.eval_neg h, eq_comm]
  rw [addAbsEquality, holds_addMaxEquality, hvalues]
  constructor
  · intro hgreatest
    exact hgreatest.unique isGreatest_pair
  · intro heq
    rw [heq]
    exact isGreatest_pair

/-- An implication is a clause. -/
theorem holds_addImplication {x y : BoolVar} (h : a x.variable = 0 ∨ a x.variable = 1)
    (s : ModelState) :
    (added (addImplication x y) s).Holds a ↔ (x.Holds a → y.Holds a) := by
  rw [addImplication, addBoolOr, holds_added]
  change (∃ b ∈ [x.not, y], b.Holds a) ↔ _
  simp only [List.mem_cons, List.not_mem_nil, or_false, exists_eq_or_imp, exists_eq_left,
    BoolVar.not_holds h, imp_iff_not_or]

section Comparisons

variable {lhs rhs : LinearExpr} (h : rhs.Negatable)
  (hmin : -2 ^ 63 ≤ lhs.constant.toInt - rhs.constant.toInt)
  (hmax : lhs.constant.toInt - rhs.constant.toInt < 2 ^ 63) (s : ModelState)

include h hmin hmax

/-- An equality is a difference of zero. -/
theorem holds_addEquality :
    (added (addEquality lhs rhs) s).Holds a ↔ lhs.eval a = rhs.eval a := by
  rw [addEquality, addLinearConstraint, holds_added]
  change (Domain.ofInterval 0 0).Contains ((lhs - rhs).eval a) ↔ _
  rw [Domain.ofInterval_contains, LinearExpr.eval_sub h hmin hmax, Int64.toInt_zero]
  omega

/-- The difference has to stay in the range its domain ends with. -/
theorem holds_addLessOrEqual (hfits : -2 ^ 63 ≤ lhs.eval a - rhs.eval a) :
    (added (addLessOrEqual lhs rhs) s).Holds a ↔ lhs.eval a ≤ rhs.eval a := by
  have hmin' : Int64.minValue.toInt = -2 ^ 63 := rfl
  rw [addLessOrEqual, addLinearConstraint, holds_added]
  change (Domain.ofInterval Int64.minValue 0).Contains ((lhs - rhs).eval a) ↔ _
  rw [Domain.ofInterval_contains, LinearExpr.eval_sub h hmin hmax, Int64.toInt_zero]
  omega

/-- Here it has to stay in the range at the other end. -/
theorem holds_addGreaterOrEqual (hfits : lhs.eval a - rhs.eval a < 2 ^ 63) :
    (added (addGreaterOrEqual lhs rhs) s).Holds a ↔ rhs.eval a ≤ lhs.eval a := by
  have hmax' : Int64.maxValue.toInt = 2 ^ 63 - 1 := rfl
  rw [addGreaterOrEqual, addLinearConstraint, holds_added]
  change (Domain.ofInterval 0 Int64.maxValue).Contains ((lhs - rhs).eval a) ↔ _
  rw [Domain.ofInterval_contains, LinearExpr.eval_sub h hmin hmax, Int64.toInt_zero]
  omega

/-- And here at both, since the domain has both ends of the range. -/
theorem holds_addNotEqual (hlow : -2 ^ 63 ≤ lhs.eval a - rhs.eval a)
    (hhigh : lhs.eval a - rhs.eval a < 2 ^ 63) :
    (added (addNotEqual lhs rhs) s).Holds a ↔ lhs.eval a ≠ rhs.eval a := by
  rw [addNotEqual, addLinearConstraint, holds_added]
  change Covers [(-2 ^ 63, -1), (1, 2 ^ 63 - 1)] ((lhs - rhs).eval a) ↔ _
  rw [LinearExpr.eval_sub h hmin hmax]
  simp only [Covers, List.mem_cons, List.not_mem_nil, or_false, exists_eq_or_imp,
    exists_eq_left]
  omega

end Comparisons

end Derived

end Cpsat
