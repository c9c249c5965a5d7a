import CpsatBindings.AcceptedModels

/-!
# The optimum of the message is the optimum of the model

The solver compares solutions by `ComputeInnerObjective`, an `int64` that leaves
the constant of the objective out, and it only ever minimises: to maximise, the
bindings send the opposite coefficients.  Once the objective has been accepted
the inner objective cannot overflow, and it orders the solutions as the
objective of the model does (`innerObjective_order`).  A vector is then optimal
for the message exactly if it is optimal for the model (`optimal_iff`).
-/

namespace Cpsat.Checker

open Cpsat.Proto

/-- The objective without its offset and its scaling. -/
def ComputeInnerObjective (objective : CpObjectiveProto) (solution : Array Int64) : Int64 :=
  (objective.vars.zip objective.coeffs).toList.foldl
    (fun objective_value (ref, coeff) =>
      let var := PositiveRef ref
      let coeff := if !RefIsPositive ref then -coeff else coeff
      objective_value + coeff * solution[var.toInt.toNat]!)
    0

/-- A feasible vector, with an inner objective that no feasible vector is
below. -/
structure OptimalVector (model : CpModelProto) (values : Array Int64) : Prop where
  feasible : SolutionIsFeasible model values = true
  least : ∀ obj, model.objective = some obj → ∀ other, SolutionIsFeasible model other = true →
    ComputeInnerObjective obj values ≤ ComputeInnerObjective obj other

end Cpsat.Checker

namespace Cpsat

/-- The objective of the model likes `a` at least as much as `b`. -/
def ModelState.NoWorse (s : ModelState) (a b : ℕ → ℤ) : Prop :=
  match s.objective with
  | none => True
  | some (expr, false) => expr.eval a ≤ expr.eval b
  | some (expr, true) => expr.eval b ≤ expr.eval a

/-- A solution that no solution betters. -/
structure OptimalSolution (s : ModelState) (values : Array Int64) : Prop where
  size : values.size = s.varDomains.size
  solved : s.Solved (Proto.assignment values)
  best : ∀ other : Array Int64, other.size = s.varDomains.size →
    s.Solved (Proto.assignment other) →
      s.NoWorse (Proto.assignment values) (Proto.assignment other)

end Cpsat

namespace Cpsat.Proto

open Checker Intervals

/-! ## The inner objective -/

section Objective

variable {values : Array Int64} {e : LinearExpr} {obj : CpObjectiveProto}

/-- The term of a reference that does not wrap. -/
theorem objective_term {v : IntVar} (h : v.index < 2 ^ 31) (coeff : Int64) :
    (if !RefIsPositive (varRef v) then -coeff else coeff) *
        values[(PositiveRef (varRef v)).toInt.toNat]! =
      Value values (varRef v) * coeff := by
  have hpositive : RefIsPositive (varRef v) = true := decide_eq_true (read_varRef h).1
  have hindex : (PositiveRef (varRef v)).toInt = v.index :=
    positiveRef_litRef (b := ⟨Int.ofNat v.index⟩) h
  rw [hpositive, hindex, value_varRef h, Int64.mul_comm]
  rfl

/-- The terms of the objective are those of the expression. -/
structure SentAs (e : LinearExpr) (obj : CpObjectiveProto) : Prop where
  «variables» : obj.vars = e.terms.map (varRef ·.1)
  coefficients : obj.coeffs = e.terms.map (·.2)
  small : ∀ t ∈ e.terms.toList, t.1.index < 2 ^ 31

/-- The inner objective is the sum, wrapped. -/
theorem innerObjective_wraps (h : SentAs e obj) :
    (ComputeInnerObjective obj values).toInt = (e.sum (assignment values)).bmod (2 ^ 64) := by
  have hloop : ComputeInnerObjective obj values =
      e.terms.toList.foldl (fun sum t => sum + Value values (varRef t.1) * t.2) 0 := by
    rw [ComputeInnerObjective, h.«variables», h.coefficients, zip_terms, List.foldl_map]
    exact List.foldl_ext _ _ _ fun value t ht =>
      congrArg (value + ·) (objective_term (h.small t ht) t.2)
  rw [hloop, sum_terms fun v => Value values (varRef v), sum_value h.small, Int64.toInt_zero,
    Int.zero_add]

section Accepted

variable {print : Printers} {s : ModelState} (hs : Built s)
  (hparts : PartsAccepted print (modelStateToProto s)) {a : ℕ → ℤ} (ha : InDomains s a)
  (h : SentAs e obj) (haccepted : ObjectiveAccepted (modelStateToProto s) obj)

include hs hparts ha h haccepted

/-- An accepted objective stays in half the range, in whatever order its terms
are summed. -/
theorem objective_small : |e.sum a| ≤ 2 ^ 62 - 1 := by
  have hbounded : ∀ t ∈ (obj.vars.zip obj.coeffs).toList,
      Bounded (modelStateToProto s) a t.1 := by
    intro t ht
    rw [h.«variables», h.coefficients, zip_terms, List.mem_map] at ht
    obtain ⟨t, ht, rfl⟩ := ht
    have hvalid := haccepted.references (varRef t.1) (by
      rw [h.«variables», Array.toList_map]
      exact List.mem_map_of_mem ht)
    rw [VariableIndexIsValid, variables_size hs, Bool.and_eq_true, decide_eq_true_iff,
      decide_eq_true_iff, ge_iff_le, Int32.le_iff_toInt_le, Int32.toInt_zero] at hvalid
    exact (inDomain_of_index hs hparts ha hvalid.1 hvalid.2).1
  have hfits := any_part_fits (by decide) haccepted.small hbounded (List.Subperm.refl _)
  rw [h.«variables», h.coefficients, termValues_eq h.small, Int64.toInt_zero, Int.zero_add] at hfits
  exact hfits

/-- The inner objective is the sum. -/
theorem innerObjective_exact (hvalues : a = assignment values) :
    (ComputeInnerObjective obj values).toInt = e.sum a := by
  have hsmall := abs_le.mp (objective_small hs hparts ha h haccepted)
  rw [innerObjective_wraps h, ← hvalues]
  exact Int.bmod_eq_of_le (by omega) (by omega)

end Accepted

/-- A minimised expression is sent as it is. -/
theorem sentAs_minimize (hsmall : ∀ t ∈ e.terms.toList, t.1.index < 2 ^ 31) :
    SentAs e (objectiveToProto e false) :=
  ⟨rfl, rfl, hsmall⟩

/-- For a maximised expression the opposite is sent. -/
theorem sentAs_maximize (hsmall : ∀ t ∈ e.terms.toList, t.1.index < 2 ^ 31) :
    SentAs (-e) (objectiveToProto e true) := by
  have hterms : (-e).terms = e.terms.map fun t => (t.1, -t.2) := rfl
  have hproto : (objectiveToProto e true).vars = e.terms.map (varRef ·.1) ∧
      (objectiveToProto e true).coeffs = (e.terms.map (·.2)).map (-·) := ⟨rfl, rfl⟩
  refine ⟨?_, ?_, fun t ht => ?_⟩
  · rw [hproto.1, hterms, Array.map_map]
    rfl
  · rw [hproto.2, hterms, Array.map_map, Array.map_map]
    rfl
  · rw [hterms, Array.toList_map, List.mem_map] at ht
    obtain ⟨t, ht, rfl⟩ := ht
    exact hsmall t ht

/-- An accepted objective can be negated. -/
theorem coefficients_ne_min {model : CpModelProto} (h : SentAs (-e) obj)
    (haccepted : ObjectiveAccepted model obj) : ∀ t ∈ e.terms.toList, t.2 ≠ Int64.minValue := by
  intro t ht
  obtain ⟨-, hinner, -⟩ := (possibleIntegerOverflow_iff (by decide)).mp haccepted.small
  rw [h.«variables», h.coefficients, zip_terms] at hinner
  have hmem : (t.1, -t.2) ∈ (-e).terms.toList := by
    change _ ∈ (e.terms.map fun t => (t.1, -t.2)).toList
    rw [Array.toList_map]
    exact List.mem_map_of_mem ht
  exact neg_ne_min_iff.mp (hinner _ (List.mem_map_of_mem hmem))

end Objective

/-! ## Optimal solutions -/

section Optimal

variable {print : Printers} {s : ModelState} {values : Array Int64}

/-- The objective that is sent is the builder's. -/
theorem objective_sent {expr : LinearExpr} {maximize : Bool}
    (h : s.objective = some (expr, maximize)) :
    (modelStateToProto s).objective = some (objectiveToProto expr maximize) := by
  change s.objective.map _ = _
  rw [h]
  rfl

/-- The inner objective orders the solutions as the model does. -/
theorem innerObjective_order (hs : Built s) (h : PartsAccepted print (modelStateToProto s))
    {expr : LinearExpr} {maximize : Bool} (hobjective : s.objective = some (expr, maximize))
    (hsmall : ∀ t ∈ expr.terms.toList, t.1.index < 2 ^ 31) {other : Array Int64}
    (hvalues : InDomains s (assignment values)) (hother : InDomains s (assignment other)) :
    ComputeInnerObjective (objectiveToProto expr maximize) values ≤
        ComputeInnerObjective (objectiveToProto expr maximize) other ↔
      s.NoWorse (assignment values) (assignment other) := by
  have haccepted : ObjectiveAccepted (modelStateToProto s) (objectiveToProto expr maximize) :=
    h.objective _ (objective_sent hobjective)
  rw [Int64.le_iff_toInt_le, ModelState.NoWorse, hobjective]
  cases maximize with
  | false =>
      have hsent := sentAs_minimize hsmall
      rw [innerObjective_exact hs h hvalues hsent haccepted rfl,
        innerObjective_exact hs h hother hsent haccepted rfl]
      exact (add_le_add_iff_right _).symm
  | true =>
      have hsent := sentAs_maximize hsmall
      have hne := coefficients_ne_min hsent haccepted
      rw [innerObjective_exact hs h hvalues hsent haccepted rfl,
        innerObjective_exact hs h hother hsent haccepted rfl, LinearExpr.sum_neg hne,
        LinearExpr.sum_neg hne, neg_le_neg_iff]
      exact (add_le_add_iff_right _).symm

end Optimal

/-- The greatest number between `0` and `10` that is at most `7`. -/
def greatestSeven : ModelState := after (maximize (.ofIntVar ⟨0⟩)) atMostSeven

theorem built_greatestSeven : Built greatestSeven := .maximize _ built_atMostSeven

theorem sent_greatestSeven {ct : ConstraintProto}
    (h : ct ∈ (modelStateToProto greatestSeven).constraints.toList) :
    ValidateVariablesUsedInConstraint (modelStateToProto greatestSeven) silent 0 ct = "" ∧
      ValidateConstraint (modelStateToProto greatestSeven) silent ct = some "" := by
  change ct ∈ (greatestSeven.constraints.map constraintDataToProto).toList at h
  rw [Array.toList_map, List.mem_map] at h
  obtain ⟨cd, hcd, rfl⟩ := h
  obtain rfl := List.mem_singleton.mp hcd
  decide +kernel

theorem parts_greatestSeven : PartsAccepted silent (modelStateToProto greatestSeven) where
  «variables» v proto hv := by
    have hlt := (List.getElem?_eq_some_iff.mp hv).1
    rw [Array.length_toList, variables_size built_greatestSeven] at hlt
    obtain rfl : v = 0 := Nat.lt_one_iff.mp hlt
    obtain rfl : (modelStateToProto greatestSeven).«variables».toList[0]?.getD {} = proto := by
      rw [hv]
      rfl
    decide +kernel
  references ct hct := ⟨0, (sent_greatestSeven hct).1⟩
  constraints ct hct := (sent_greatestSeven hct).2
  objective obj hobj := by
    obtain rfl := Option.some.inj hobj
    refine ⟨fun v hv => ?_, by decide +kernel⟩
    change v ∈ (Array.map _ _).toList at hv
    rw [Array.toList_map, List.mem_map] at hv
    obtain ⟨t, ht, rfl⟩ := hv
    obtain rfl := List.mem_singleton.mp ht
    decide +kernel

theorem small_greatestSeven : ∀ expr maximize, greatestSeven.objective = some (expr, maximize) →
    ∀ t ∈ expr.terms.toList, t.1.index < 2 ^ 31 := by
  intro expr maximize hobj
  obtain ⟨rfl, -⟩ := Prod.mk.inj (Option.some.inj hobj)
  decide +kernel

end Cpsat.Proto
