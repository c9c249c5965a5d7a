import CpsatBindings.AcceptedProducts

/-!
# An accepted model cannot overflow

The solver's checker computes in `int64`, where a sum wraps and a product
saturates.  The validator is there to keep that from happening: once it has
accepted the message of a model, no assignment inside the domains takes any
constraint out of its range (`accepted_fits`), so that for accepted models the
message means what the model means without a condition on ranges
(`accepted_feasible_iff`).

`LeftToCaller` is what the validator does not look at: references above
`2 ^ 31`, which wrap on the way to the wire, constants without an opposite,
indices that do not fit 32 bits, and divisors over more than one variable.
-/

namespace Cpsat.Proto

open Checker Intervals

/-! ## Error texts -/

/-- No text is found exactly if all of them are empty. -/
theorem firstText_eq_empty {texts : List String} :
    firstText texts = "" ↔ ∀ text ∈ texts, text = "" := by
  induction texts with
  | nil => simp [firstText]
  | cons text rest ih =>
      rw [List.forall_mem_cons, ← ih, firstText]
      split
      · rename_i hempty
        exact (and_iff_right hempty).symm
      · rename_i hne
        exact iff_of_false hne fun h => hne h.1

/-- Nor is one found among checks exactly if all have been made and are empty. -/
theorem firstChecked_eq_empty {texts : List (Option String)} :
    firstChecked texts = some "" ↔ ∀ text ∈ texts, text = some "" := by
  induction texts with
  | nil => simp [firstChecked]
  | cons text rest ih =>
      rw [List.forall_mem_cons, ← ih]
      cases text with
      | none => simp [firstChecked]
      | some text =>
          rw [firstChecked]
          split
          · rename_i hempty
            simp [hempty]
          · rename_i hne
            simp [hne]

/-! ## The parts of a model -/

/-- Every variable is in its domain. -/
def InDomains (s : ModelState) (a : ℕ → ℤ) : Prop :=
  ∀ i, (h : i < s.varDomains.size) → s.varDomains[i].Contains (a i)

/-- The message of the model is accepted. -/
def Accepted (print : Printers) (s : ModelState) : Prop :=
  ValidateCpModel (modelStateToProto s) print = some ""

section Parts

variable {print : Printers} {s : ModelState}

/-- What the validator asks of the integers of an objective. -/
structure ObjectiveAccepted (model : CpModelProto) (obj : CpObjectiveProto) : Prop where
  references : ∀ v ∈ obj.vars.toList, VariableIndexIsValid model v = true
  small : PossibleIntegerOverflow model obj.vars obj.coeffs = false

/-- An objective without an error text is accepted. -/
theorem objectiveAccepted {model : CpModelProto} {obj : CpObjectiveProto}
    (h : ValidateObjective model print obj = "") : ObjectiveAccepted model obj := by
  rw [ValidateObjective, errorText_eq_empty (by decide)] at h
  have htexts := firstText_eq_empty.mp h.2
  simp only [List.forall_mem_append, List.forall_mem_map] at htexts
  obtain ⟨hreferences, hchecks⟩ := htexts
  have hsmall := hchecks _ List.mem_cons_self
  rw [errorText_eq_empty (by decide)] at hsmall
  refine ⟨fun v hv => ?_, eq_false_of_ne_true hsmall.1⟩
  have hvalid := hreferences v hv
  rw [String.append_assoc, String.append_assoc, errorText_eq_empty (by decide)] at hvalid
  simpa using hvalid.1

/-- What has been accepted with the model. -/
structure PartsAccepted (print : Printers) (model : CpModelProto) : Prop where
  «variables» : ∀ v proto, model.«variables».toList[v]? = some proto →
    ValidateIntegerVariable print v proto = ""
  references : ∀ ct ∈ model.constraints.toList,
    ∃ c, ValidateVariablesUsedInConstraint model print c ct = ""
  constraints : ∀ ct ∈ model.constraints.toList, ValidateConstraint model print ct = some ""
  objective : ∀ obj, model.objective = some obj → ObjectiveAccepted model obj

/-- An accepted model has accepted parts. -/
theorem partsAccepted {model : CpModelProto} (h : ValidateCpModel model print = some "") :
    PartsAccepted print model := by
  rw [ValidateCpModel, firstChecked_eq_empty] at h
  simp only [List.forall_mem_append] at h
  obtain ⟨⟨⟨⟨hvariables, -⟩, hconstraints⟩, hobjective⟩, -⟩ := h
  have hconstraint : ∀ ct ∈ model.constraints.toList,
      ∃ c, ValidateVariablesUsedInConstraint model print c ct = "" ∧
        ValidateConstraint model print ct = some "" := by
    intro ct hct
    obtain ⟨c, hc, rfl⟩ := List.getElem_of_mem hct
    have hparts := firstChecked_eq_empty.mp
      (hconstraints _ (List.mem_mapIdx.mpr ⟨c, hc, rfl⟩))
    exact ⟨c, Option.some.inj (hparts _ (by simp)), hparts _ (by simp)⟩
  refine ⟨?_, ?_, ?_, ?_⟩
  · intro v proto hv
    obtain ⟨hlt, rfl⟩ := List.getElem?_eq_some_iff.mp hv
    exact Option.some.inj (hvariables _ (List.mem_mapIdx.mpr ⟨v, hlt, rfl⟩))
  · intro ct hct
    obtain ⟨c, hc, -⟩ := hconstraint ct hct
    exact ⟨c, hc⟩
  · intro ct hct
    obtain ⟨c, -, hc⟩ := hconstraint ct hct
    exact hc
  · intro obj hobj
    have htext := Option.some.inj (hobjective _ List.mem_cons_self)
    rw [hobj] at htext
    dsimp only at htext
    split at htext
    · exact absurd htext (by decide)
    · exact objectiveAccepted htext

/-- What the validator asks of the domain of a variable. -/
theorem validVariable_domain {v : ℕ} {proto : IntegerVariableProto}
    (h : ValidateIntegerVariable print v proto = "") :
    proto.domain.size ≠ 0 ∧ DomainInProtoIsValid proto.domain = true := by
  have hvar : ∀ rest : String, "var #" ++ toString v ++ rest ≠ "" := by
    intro rest hempty
    rw [String.append_eq_empty_iff, String.append_eq_empty_iff] at hempty
    exact absurd hempty.1.1 (by decide)
  unfold ValidateIntegerVariable at h
  rw [errorText_eq_empty (hvar _), errorText_eq_empty (hvar _), errorText_eq_empty (hvar _)] at h
  obtain ⟨hsize, -, hvalid, -⟩ := h
  exact ⟨hsize, by simpa using hvalid⟩

/-- What the validator asks of a variable. -/
structure VariableAccepted (d : Domain) : Prop where
  nonempty : d.intervals.size ≠ 0
  separated : Separated (domainEnds d)

/-- A variable of the builder has a domain the validator accepts. -/
theorem accepted_variable (hs : Built s) (h : PartsAccepted print (modelStateToProto s)) {i : ℕ}
    (hi : i < s.varDomains.size) : VariableAccepted s.varDomains[i] := by
  obtain ⟨hlt, hdomain⟩ := variables_getElem hs hi
  have htext := h.variables i (modelStateToProto s).«variables»[i]
    (by rw [Array.getElem?_toList, Array.getElem?_eq_getElem hlt])
  obtain ⟨hsize, hvalid⟩ := validVariable_domain htext
  rw [hdomain] at hsize hvalid
  rw [domainToFlatArray_size] at hsize
  exact ⟨by omega, (domainInProtoIsValid_iff _).mp hvalid⟩

/-- Every value of an accepted domain is between its first and its last. -/
theorem VariableAccepted.ends {d : Domain} (h : VariableAccepted d) {x : ℤ} (hx : d.Contains x) :
    (domainToFlatArray d)[0]!.toInt ≤ x ∧
      x ≤ (domainToFlatArray d)[(domainToFlatArray d).size - 1]!.toInt := by
  have hpos : 0 < d.intervals.size := Nat.pos_of_ne_zero h.nonempty
  have hlast : d.intervals.size - 1 < d.intervals.size := by omega
  have hne : domainEnds d ≠ [] := by
    simpa [domainEnds, ← Array.size_eq_zero_iff] using h.nonempty
  have hfirst := flat_lower hpos
  rw [Nat.mul_zero] at hfirst
  rw [hfirst, domainToFlatArray_size,
    show 2 * d.intervals.size - 1 = 2 * (d.intervals.size - 1) + 1 by omega, flat_upper hlast]
  have hbounds := h.separated.bounds hx hne
  simpa [domainEnds, List.head_eq_getElem, List.getLast_eq_getElem] using hbounds

/-! ## References -/

/-- The variable is in its domain. -/
def InDomain (model : CpModelProto) (a : ℕ → ℤ) (ref : Int32) : Prop :=
  Bounded model a ref ∧ ∀ x : Int64, x.toInt = a ref.toInt.toNat →
    DomainInProtoContains (variableOf model ref).domain x = true

section References

variable (hs : Built s) (h : PartsAccepted print (modelStateToProto s)) {a : ℕ → ℤ}
  (ha : InDomains s a)

include hs h ha

/-- A variable the validator has found in the model is in its domain. -/
theorem inDomain_of_index {ref : Int32} (hlow : 0 ≤ ref.toInt)
    (hhigh : ref.toInt < s.varDomains.size) : InDomain (modelStateToProto s) a ref := by
  have hi : ref.toInt.toNat < s.varDomains.size := by omega
  obtain ⟨hlt, hdomain⟩ := variables_getElem hs hi
  have hvariable : (variableOf (modelStateToProto s) ref).domain =
      domainToFlatArray s.varDomains[ref.toInt.toNat] := by
    rw [variableOf, Array.getElem?_eq_getElem hlt]
    exact hdomain
  rw [InDomain, Bounded, hvariable]
  refine ⟨(accepted_variable hs h hi).ends (ha _ hi), fun x hx => ?_⟩
  rw [domainContains_iff, hx]
  exact ha _ hi

/-- The value of an accepted variable is in the domain the message gives it. -/
theorem inDomain_varRef {v : IntVar} (hv : v.index < 2 ^ 31)
    (href : VariableReferenceIsValid (modelStateToProto s) (varRef v) = true) :
    InDomain (modelStateToProto s) a (varRef v) := by
  have hindex := varRef_toInt hv
  rw [VariableReferenceIsValid, variables_size hs, hindex] at href
  refine inDomain_of_index hs h ha (by omega) ?_
  rw [hindex]
  by_contra hge
  rw [if_pos (by omega)] at href
  cases href

omit hs h ha in
/-- The reference of a literal is about its variable. -/
theorem positiveRef_litRef {b : BoolVar} (hb : b.variable < 2 ^ 31) :
    (PositiveRef (litRef b)).toInt = b.variable := by
  have href := litRef_toInt hb
  have hneg : (NegatedRef (litRef b)).toInt = -b.literal - 1 := by
    unfold BoolVar.variable at hb
    rw [NegatedRef, Int32.toInt_sub, Int32.toInt_neg, Int.bmod_sub_bmod, Int32.toInt_one, href]
    split at hb <;> exact Int.bmod_eq_of_le (by omega) (by omega)
  rw [PositiveRef]
  change (if litRef b ≤ NegatedRef (litRef b) then NegatedRef (litRef b) else litRef b).toInt = _
  unfold BoolVar.variable
  by_cases hle : litRef b ≤ NegatedRef (litRef b)
  · rw [if_pos hle, hneg]
    rw [Int32.le_iff_toInt_le, href, hneg] at hle
    rw [if_pos (by omega)]
    omega
  · rw [if_neg hle, href]
    rw [Int32.le_iff_toInt_le, href, hneg] at hle
    rw [if_neg (by omega)]
    omega

/-- An accepted literal is about a variable that is 0 or 1. -/
theorem fits_of_literal {b : BoolVar} (hb : b.variable < 2 ^ 31)
    (href : LiteralReferenceIsValid (modelStateToProto s) (litRef b) = true) : b.Fits a := by
  have hlit := litRef_toInt hb
  have hpositive := positiveRef_litRef hb
  rw [LiteralReferenceIsValid] at href
  cases hvalid : VariableReferenceIsValid (modelStateToProto s) (litRef b) with
  | false => simp [hvalid] at href
  | true =>
      have hindex : b.variable < s.varDomains.size := by
        rw [VariableReferenceIsValid, variables_size hs, hlit] at hvalid
        split at hvalid
        · cases hvalid
        · rw [decide_eq_true_iff] at hvalid
          unfold BoolVar.variable
          split <;> omega
      have hbounded := (inDomain_of_index hs h ha (by rw [hpositive]; omega)
        (by rw [hpositive]; omega)).1
      rw [Bounded, hpositive, Int.toNat_natCast] at hbounded
      simp only [hvalid, Bool.not_true, Bool.false_eq_true, if_false, Bool.and_eq_true,
        decide_eq_true_iff, ge_iff_le, Int64.le_iff_toInt_le, Int64.toInt_zero,
        Int64.toInt_one] at href
      exact ⟨hb, by omega⟩

end References

end Parts

/-! ## Expressions -/

/-- References that do not wrap, and a constant that has an opposite. -/
structure ProperExpr (e : LinearExpr) : Prop where
  small : ∀ t ∈ e.terms.toList, t.1.index < 2 ^ 31
  constant : e.constant ≠ Int64.minValue

/-- An expression of an accepted constraint. -/
structure ExprAccepted (model : CpModelProto) (a : ℕ → ℤ) (e : LinearExpr) : Prop where
  proper : ProperExpr e
  valid : ExpressionIsValid model (linearExprToProto e)
  inDomain : ∀ var ∈ (linearExprToProto e).vars, InDomain model a var

section Expressions

variable {model : CpModelProto} {a : ℕ → ℤ} {e : LinearExpr}

/-- The terms of the message have the values of the terms of the model. -/
theorem termValues_eq {terms : Array (IntVar × Int64)}
    (hsmall : ∀ t ∈ terms.toList, t.1.index < 2 ^ 31) :
    (((terms.map (varRef ·.1)).zip (terms.map (·.2))).toList.map (termValue a)).sum =
      (terms.toList.map fun t => t.2.toInt * a t.1.index).sum := by
  rw [zip_terms, List.map_map]
  refine congrArg List.sum (List.map_congr_left fun t ht => ?_)
  rw [Function.comp_apply, termValue, (read_varRef (hsmall t ht)).2]

/-- The message's expression has the value of the builder's. -/
theorem expressionEval_eq (h : ProperExpr e) :
    expressionEval a (linearExprToProto e) = e.eval a := by
  rw [expressionEval, linearExprToProto, termValues_eq h.small, LinearExpr.eval, Int.add_comm]
  rfl

/-- The values of its variables are between their bounds. -/
theorem ExprAccepted.bounded (h : ExprAccepted model a e) :
    ∀ var ∈ (linearExprToProto e).vars, Bounded model a var :=
  fun var hvar => (h.inDomain var hvar).1

theorem ExprAccepted.small (h : ExprAccepted model a e) : |e.eval a| ≤ 2 ^ 62 - 1 := by
  rw [← expressionEval_eq h.proper]
  exact expressionEval_small h.valid h.proper.constant h.bounded

/-- Its value fits in a word. -/
theorem ExprAccepted.fits (h : ExprAccepted model a e) : e.Fits a := by
  obtain ⟨hlow, hhigh⟩ := abs_le.mp h.small
  exact ⟨h.proper.small, by omega, by omega⟩

/-- Its value is between the bounds computed for it. -/
theorem ExprAccepted.bounds (h : ExprAccepted model a e) :
    (MinOfExpression model (linearExprToProto e)).toInt ≤ e.eval a ∧
      e.eval a ≤ (MaxOfExpression model (linearExprToProto e)).toInt := by
  rw [← expressionEval_eq h.proper]
  exact expressionEval_bounds h.valid h.proper.constant h.bounded

/-- If the checker takes it for fixed, its value is the fixed one. -/
theorem ExprAccepted.fixed (h : ExprAccepted model a e)
    (hfixed : ExpressionIsFixed model (linearExprToProto e) = true) :
    e.eval a = (ExpressionFixedValue model (linearExprToProto e)).toInt := by
  rw [← expressionEval_eq h.proper]
  exact expressionEval_fixed h.valid h.proper.constant h.bounded hfixed

/-- A quotient is no larger than its numerator. -/
theorem ExprAccepted.quotient_small (h : ExprAccepted model a e) (d : ℤ) :
    (e.eval a).tdiv d < 2 ^ 63 := by
  have hle := Int.natAbs_tdiv_le_natAbs (e.eval a) d
  have hsmall := h.small
  rw [Int.abs_eq_natAbs] at hsmall
  omega

end Expressions

/-- Expressions that the validator has accepted one by one. -/
theorem exprs_accepted {print : Printers} {s : ModelState} (hs : Built s)
    (h : PartsAccepted print (modelStateToProto s)) {a : ℕ → ℤ} (ha : InDomains s a)
    {exprs : List LinearExpr} (hproper : ∀ e ∈ exprs, ProperExpr e)
    (hrefs : ∀ e ∈ exprs, ∀ var ∈ (linearExprToProto e).vars,
      VariableReferenceIsValid (modelStateToProto s) var = true)
    (hvalid : ∀ e ∈ exprs,
      ValidateLinearExpression (modelStateToProto s) print (linearExprToProto e) = "") :
    ∀ e ∈ exprs, ExprAccepted (modelStateToProto s) a e := by
  intro e he
  refine ⟨hproper e he, (validateLinearExpression_iff print).mp (hvalid e he), ?_⟩
  intro var hvar
  have href := hrefs e he var hvar
  obtain ⟨t, ht, rfl⟩ : ∃ t ∈ e.terms.toList, varRef t.1 = var := by
    simpa [linearExprToProto] using hvar
  exact inDomain_varRef hs h ha ((hproper e he).small t ht) href

/-! ## Constraints -/

section Kinds

variable {model : CpModelProto} {print : Printers} {a : ℕ → ℤ} {ct : ConstraintProto}

/-- The references of an accepted constraint are in the model. -/
theorem references_valid {c : ℕ}
    (h : ValidateVariablesUsedInConstraint model print c ct = "") :
    (∀ v ∈ (GetReferencesUsedByConstraint ct).1, VariableReferenceIsValid model v = true) ∧
      (∀ lit ∈ ct.enforcement_literal.toList, LiteralReferenceIsValid model lit = true) ∧
      ∀ lit ∈ (GetReferencesUsedByConstraint ct).2, LiteralReferenceIsValid model lit = true := by
  have hchecked : ∀ {start : String} {valid : Bool} {rest : String}, start ≠ "" →
      (if !valid then start ++ rest else "") = "" → valid = true := by
    intro start valid rest hstart htext
    rw [errorText_eq_empty hstart] at htext
    simpa using htext
  have hstart : ∀ {start : String} (x : Int32), start ≠ "" → start ++ toString x ≠ "" := by
    intro start x hne hempty
    exact hne (String.append_eq_empty_iff.mp hempty).1
  rw [ValidateVariablesUsedInConstraint, firstText_eq_empty] at h
  simp only [List.forall_mem_append, List.forall_mem_map] at h
  obtain ⟨⟨hvars, henforcement⟩, hliterals⟩ := h
  exact ⟨fun v hv => hchecked (hstart v (by decide)) (hvars v hv),
    fun lit hlit => hchecked (hstart lit (by decide)) (henforcement lit hlit),
    fun lit hlit => hchecked (hstart lit (by decide)) (hliterals lit hlit)⟩

/-- The expressions of an accepted element constraint have no error texts. -/
theorem element_texts {index target : LinearExpr} {exprs : Array LinearExpr}
    (hvalid : ValidateElementConstraint model print
      { linear_index := some (linearExprToProto index)
        linear_target := some (linearExprToProto target)
        exprs := exprs.map linearExprToProto } = "") :
    ∀ e ∈ index :: target :: exprs.toList,
      ValidateLinearExpression model print (linearExprToProto e) = "" := by
  rw [ValidateElementConstraint] at hvalid
  split at hvalid
  · exact absurd hvalid (by decide)
  · rw [firstText_eq_empty] at hvalid
    simp only [List.forall_mem_append, List.forall_mem_cons] at hvalid
    obtain ⟨⟨hindex, htarget, -⟩, hexprs⟩ := hvalid
    refine List.forall_mem_cons.mpr ⟨hindex, List.forall_mem_cons.mpr ⟨htarget, fun e he => ?_⟩⟩
    refine hexprs _ (List.mem_flatMap.mpr ⟨linearExprToProto e, ?_, List.mem_cons_self⟩)
    rw [Array.toList_map]
    exact List.mem_map_of_mem he

theorem intMod_texts {target expr modulus : LinearExpr}
    (hvalid : ValidateIntModConstraint model print ct
      { target := some (linearExprToProto target)
        exprs := #[linearExprToProto expr, linearExprToProto modulus] } = "") :
    ∀ e ∈ [target, expr, modulus],
      ValidateLinearExpression model print (linearExprToProto e) = "" := by
  rw [ValidateIntModConstraint, if_neg (by simp), if_neg (by simp), firstText_eq_empty] at hvalid
  simp only [List.forall_mem_cons] at hvalid ⊢
  obtain ⟨hexpr, hmodulus, htarget, -, -⟩ := hvalid
  exact ⟨htarget, hexpr, hmodulus, by simp⟩

/-- An accepted remainder fits: its modulus is positive. -/
theorem intMod_fits {target expr modulus : LinearExpr}
    (hexprs : ∀ e ∈ [target, expr, modulus], ExprAccepted model a e)
    (hvalid : ValidateIntModConstraint model print ct
      { target := some (linearExprToProto target)
        exprs := #[linearExprToProto expr, linearExprToProto modulus] } = "") :
    (ConstraintKind.intMod target expr modulus).Fits a := by
  simp only [List.forall_mem_cons, List.not_mem_nil, false_implies, implies_true,
    and_true] at hexprs
  obtain ⟨htarget, hexpr, hmodulus⟩ := hexprs
  rw [ValidateIntModConstraint, if_neg (by simp), if_neg (by simp), firstText_eq_empty] at hvalid
  simp only [List.forall_mem_cons] at hvalid
  obtain ⟨-, -, -, hpositive, -⟩ := hvalid
  rw [errorText_eq_empty (by decide)] at hpositive
  replace hpositive : ¬ MinOfExpression model (linearExprToProto modulus) ≤ 0 := hpositive.1
  rw [Int64.le_iff_toInt_le, Int64.toInt_zero] at hpositive
  have hbounds := hmodulus.bounds.1
  exact ⟨htarget.fits, hexpr.fits, hmodulus.fits, by omega, hexpr.quotient_small _⟩

theorem intProd_texts {target : LinearExpr} {factors : Array LinearExpr}
    (hvalid : ValidateIntProdConstraint model print ct
      { target := some (linearExprToProto target)
        exprs := factors.map linearExprToProto } = "") :
    ∀ e ∈ target :: factors.toList,
      ValidateLinearExpression model print (linearExprToProto e) = "" := by
  rw [ValidateIntProdConstraint, if_neg (by simp), firstText_eq_empty] at hvalid
  simp only [List.forall_mem_append, List.forall_mem_cons] at hvalid
  obtain ⟨hfactors, htarget, -⟩ := hvalid
  refine List.forall_mem_cons.mpr ⟨htarget, fun e he => hfactors _ ?_⟩
  rw [Array.toList_map, List.map_map]
  exact List.mem_map.mpr ⟨e, he, rfl⟩

/-- An accepted product fits, unless it has at most two factors and saturates off
its target. -/
theorem intProd_fits {target : LinearExpr} {factors : Array LinearExpr}
    (htarget : ExprAccepted model a target)
    (hfactors : ∀ e ∈ factors.toList, ExprAccepted model a e)
    (hvalid : ValidateIntProdConstraint model print ct
      { target := some (linearExprToProto target)
        exprs := factors.map linearExprToProto } = "") :
    (ConstraintKind.intProd target factors).Fits a := by
  refine ⟨htarget.fits, fun e he => (hfactors e he).fits, ?_⟩
  rw [ValidateIntProdConstraint, if_neg (by simp), firstText_eq_empty] at hvalid
  simp only [List.forall_mem_append, List.forall_mem_cons] at hvalid
  obtain ⟨-, -, -, hoverflow, -⟩ := hvalid
  rw [errorText_eq_empty (by decide)] at hoverflow
  by_cases htwo : factors.toList.length ≤ 2
  · have hsmall := htarget.small
    exact Or.inr ⟨htwo, by omega⟩
  · left
    have hbounds : ∀ e ∈ (factors.map linearExprToProto).toList,
        (MinOfExpression model e).toInt ≤ expressionEval a e ∧
          expressionEval a e ≤ (MaxOfExpression model e).toInt := by
      intro e he
      rw [Array.toList_map] at he
      obtain ⟨e', he', rfl⟩ := List.mem_map.mp he
      rw [expressionEval_eq (hfactors e' he').proper]
      exact (hfactors e' he').bounds
    have hbounded := productDomain_bounded hbounds
    have hvalues : (factors.map linearExprToProto).toList.map (expressionEval a) =
        factors.toList.map fun e => e.eval a := by
      rw [Array.toList_map, List.map_map]
      exact List.map_congr_left fun e he => expressionEval_eq (hfactors e he).proper
    rw [hvalues] at hbounded
    obtain ⟨i, hi, hrange⟩ := hbounded
    have hmax : kint64max.toInt = 2 ^ 63 - 1 := rfl
    have hmin : (-kint64max).toInt = -(2 ^ 63 - 1) := by decide +kernel
    have hsize : (factors.map linearExprToProto).size > 2 := by
      rw [Array.size_map, ← Array.length_toList]
      omega
    simp only [hi, hsize, SortedIntervalList.Max, SortedIntervalList.Min, List.getLast?_singleton,
      List.head?_cons, Option.getD_some, decide_true, Bool.true_and, Bool.or_eq_true,
      decide_eq_true_iff, ge_iff_le, Int64.le_iff_toInt_le, hmax, hmin, not_or] at hoverflow
    unfold Saturated at hrange
    rw [abs_lt]
    omega

/-- A zero of `coeff * x + offset` is what the validator computes. -/
theorem inverse_of_zero {coeff offset : Int64} (hoffset : offset ≠ Int64.minValue)
    (hcoeff : coeff ≠ 0) {x : ℤ} (hx : -2 ^ 63 ≤ x ∧ x < 2 ^ 63)
    (hzero : coeff.toInt * x + offset.toInt = 0) :
    (-offset / coeff).toInt = x ∧ -offset / coeff * coeff + offset = 0 := by
  have hne : coeff.toInt ≠ 0 := fun h => hcoeff (Int64.toInt.inj h)
  have hquotient : (-offset / coeff).toInt = x := by
    rw [Int64.toInt_div, toInt_neg_of_ne hoffset, show -offset.toInt = coeff.toInt * x by omega,
      Int.mul_tdiv_cancel_left x hne]
    exact Int.bmod_eq_of_le (by omega) (by omega)
  refine ⟨hquotient, ?_⟩
  apply Int64.toInt.inj
  rw [Int64.toInt_add, Int64.toInt_mul, Int.bmod_add_bmod, hquotient, Int.mul_comm x, hzero]
  rfl

/-- The divisor of an accepted division over at most one variable is not zero. -/
theorem divisor_ne_zero {target numerator denominator : LinearExpr}
    (h : ExprAccepted model a denominator) (haffine : denominator.terms.size ≤ 1)
    (hvalid : ValidateIntDivConstraint model print ct
      { target := some (linearExprToProto target)
        exprs := #[linearExprToProto numerator, linearExprToProto denominator] } = some "") :
    denominator.eval a ≠ 0 := by
  rw [ValidateIntDivConstraint, if_neg (by simp), if_neg (by simp), firstChecked_eq_empty]
    at hvalid
  simp only [List.forall_mem_cons] at hvalid
  obtain ⟨-, -, -, hdivisor, -⟩ := hvalid
  have hdenom : #[linearExprToProto numerator, linearExprToProto denominator][1]?.getD {} =
      linearExprToProto denominator := rfl
  rw [hdenom] at hdivisor
  cases hfixed : ExpressionIsFixed model (linearExprToProto denominator) with
  | true =>
      intro hzero
      rw [h.fixed hfixed] at hzero
      rw [hfixed, if_pos rfl, if_pos (Int64.toInt.inj hzero), Option.some.injEq,
        String.append_eq_empty_iff] at hdivisor
      exact absurd hdivisor.1 (by decide)
  | false =>
      rw [hfixed, if_neg (by decide)] at hdivisor
      obtain ⟨⟨terms⟩, offset⟩ := denominator
      match terms, haffine with
      | [], _ => simp [ExpressionIsFixed, linearExprToProto] at hfixed
      | [(v, c)], _ =>
          intro hzero
          have hvar : varRef v ∈ (linearExprToProto ⟨#[(v, c)], offset⟩).vars := by
            simp [linearExprToProto]
          obtain ⟨hpositive, hindex⟩ := read_varRef (h.proper.small (v, c) (by simp))
          obtain ⟨⟨hlow, hhigh⟩, hinside⟩ := h.inDomain (varRef v) hvar
          rw [hindex] at hlow hhigh hinside
          have hrange : -2 ^ 63 ≤ a v.index ∧ a v.index < 2 ^ 63 :=
            ⟨(Int64.le_toInt _).trans hlow, hhigh.trans_lt (Int64.toInt_lt _)⟩
          have hcoeffs : (linearExprToProto ⟨#[(v, c)], offset⟩).coeffs[0]! = c := by
            simp [linearExprToProto]
          have hvars : (linearExprToProto ⟨#[(v, c)], offset⟩).vars[0]! = varRef v := by
            simp [linearExprToProto]
          have hoffset : (linearExprToProto ⟨#[(v, c)], offset⟩).offset = offset := rfl
          rw [hcoeffs, hvars, hoffset] at hdivisor
          by_cases hcoeff : c = 0
          · rw [if_pos hcoeff] at hdivisor
            cases hdivisor
          · have hvalue : c.toInt * a v.index + offset.toInt = 0 := by
              simpa [LinearExpr.eval, LinearExpr.sum] using hzero
            obtain ⟨hquotient, hroot⟩ := inverse_of_zero h.proper.constant hcoeff hrange hvalue
            have hdomain : (DomainOfRef model (varRef v)).Contains (-offset / c) = true := by
              have hsign : RefIsPositive (varRef v) = true := by
                rwa [RefIsPositive, decide_eq_true_iff]
              rw [DomainOfRef, if_pos hsign, positiveRef_of_positive hsign,
                (fromFlat_contains _).2]
              exact hinside _ hquotient
            rw [if_neg hcoeff, hroot, hdomain] at hdivisor
            simp at hdivisor

/-- The expressions of an accepted quotient have no error texts. -/
theorem intDiv_texts {target numerator denominator : LinearExpr}
    (hvalid : ValidateIntDivConstraint model print ct
      { target := some (linearExprToProto target)
        exprs := #[linearExprToProto numerator, linearExprToProto denominator] } = some "") :
    ∀ e ∈ [target, numerator, denominator],
      ValidateLinearExpression model print (linearExprToProto e) = "" := by
  rw [ValidateIntDivConstraint, if_neg (by simp), if_neg (by simp), firstChecked_eq_empty]
    at hvalid
  simp only [List.forall_mem_cons] at hvalid ⊢
  obtain ⟨hnumerator, hdenominator, htarget, -, -⟩ := hvalid
  exact ⟨Option.some.inj htarget, Option.some.inj hnumerator, Option.some.inj hdenominator,
    by simp⟩

/-- An accepted quotient by at most one variable fits: the denominator is not zero. -/
theorem intDiv_fits {target numerator denominator : LinearExpr}
    (hexprs : ∀ e ∈ [target, numerator, denominator], ExprAccepted model a e)
    (haffine : denominator.terms.size ≤ 1)
    (hvalid : ValidateIntDivConstraint model print ct
      { target := some (linearExprToProto target)
        exprs := #[linearExprToProto numerator, linearExprToProto denominator] } = some "") :
    (ConstraintKind.intDiv target numerator denominator).Fits a := by
  simp only [List.forall_mem_cons, List.not_mem_nil, false_implies, implies_true,
    and_true] at hexprs
  obtain ⟨htarget, hnumerator, hdenominator⟩ := hexprs
  exact ⟨htarget.fits, hnumerator.fits, hdenominator.fits,
    divisor_ne_zero hdenominator haffine hvalid, hnumerator.quotient_small _⟩

/-- An accepted sum fits; its constant has been moved into the domain. -/
theorem linear_fits {expr : LinearExpr} {domain : Domain}
    (hsmall : ∀ t ∈ expr.terms.toList, t.1.index < 2 ^ 31)
    (hinside : ∀ var ∈ expr.terms.map (varRef ·.1), InDomain model a var)
    (hfits : PossibleIntegerOverflow model (expr.terms.map (varRef ·.1))
      (expr.terms.map (·.2)) = false) :
    (ConstraintKind.linear expr domain).Fits a := by
  have hbounded : ∀ t ∈ ((expr.terms.map (varRef ·.1)).zip (expr.terms.map (·.2))).toList,
      Bounded model a t.1 := by
    intro t ht
    rw [Array.toList_zip] at ht
    exact (hinside t.1 (by simpa using (List.of_mem_zip ht).1)).1
  have hsum := any_part_fits (by decide) hfits hbounded (List.Subperm.refl _)
  rw [termValues_eq hsmall, Int64.toInt_zero, Int.zero_add] at hsum
  obtain ⟨hlow, hhigh⟩ := abs_le.mp hsum
  refine ⟨hsmall, ?_, ?_⟩
  · change _ < (expr.terms.toList.map fun t => t.2.toInt * a t.1.index).sum
    omega
  · change (expr.terms.toList.map fun t => t.2.toInt * a t.1.index).sum < _
    omega

end Kinds

/-! ## Whole models -/

/-- What the validator does not look at: references that wrap, constants
without an opposite, indices that do not fit 32 bits, and divisors over more
than one variable. -/
def KindLeftToCaller (a : ℕ → ℤ) : ConstraintKind → Prop
  | .inverse vars invVars =>
      (∀ v ∈ vars.toList ++ invVars.toList, v.index < 2 ^ 31) ∧
        ∀ v ∈ vars.toList, -2 ^ 31 ≤ a v.index ∧ a v.index < 2 ^ 31
  | .element index exprs target =>
      (∀ e ∈ index :: target :: exprs.toList, ProperExpr e) ∧
        -2 ^ 31 ≤ index.eval a ∧ index.eval a < 2 ^ 31
  | .intDiv target numerator denominator =>
      (∀ e ∈ [target, numerator, denominator], ProperExpr e) ∧ denominator.terms.size ≤ 1
  | .intMod target expr modulus => ∀ e ∈ [target, expr, modulus], ProperExpr e
  | .intProd target factors => ∀ e ∈ target :: factors.toList, ProperExpr e
  | .linMax target exprs => ∀ e ∈ target :: exprs.toList, ProperExpr e
  | .linear expr _ => ∀ t ∈ expr.terms.toList, t.1.index < 2 ^ 31
  | .allDifferent vars => ∀ v ∈ vars.toList, v.index < 2 ^ 31
  | .boolOr lits | .boolAnd lits | .atMostOne lits | .exactlyOne lits | .boolXor lits =>
      ∀ b ∈ lits.toList, b.variable < 2 ^ 31

/-- What the validator does not look at, for a constraint with its literals. -/
structure LeftToCaller (a : ℕ → ℤ) (cd : ConstraintData) : Prop where
  literals : ∀ b ∈ cd.enforcementLiterals.toList, b.variable < 2 ^ 31
  kind : KindLeftToCaller a cd.kind

section Models

variable {print : Printers} {s : ModelState} (hs : Built s) {a : ℕ → ℤ} (ha : InDomains s a)

include hs ha

/-- The literals of an accepted constraint are about variables that are 0 or 1. -/
theorem literals_fit (h : PartsAccepted print (modelStateToProto s)) {lits : Array BoolVar}
    (hsmall : ∀ b ∈ lits.toList, b.variable < 2 ^ 31)
    (hrefs : ∀ lit ∈ (lits.map litRef).toList,
      LiteralReferenceIsValid (modelStateToProto s) lit = true) :
    ∀ b ∈ lits.toList, b.Fits a := by
  intro b hb
  refine fits_of_literal hs h ha (hsmall b hb) (hrefs _ ?_)
  rw [Array.toList_map]
  exact List.mem_map_of_mem hb

/-- The target and the expressions of an accepted argument. -/
theorem argument_accepted (h : PartsAccepted print (modelStateToProto s)) {target : LinearExpr}
    {exprs : List LinearExpr} {arr : Array LinearExpressionProto}
    (harr : arr.toList = exprs.map linearExprToProto)
    (hproper : ∀ e ∈ target :: exprs, ProperExpr e)
    (hvars : ∀ v ∈ (linearExprToProto target).vars.toList ++
        arr.toList.flatMap (fun expr => expr.vars.toList),
      VariableReferenceIsValid (modelStateToProto s) v = true)
    (hvalid : ∀ e ∈ target :: exprs,
      ValidateLinearExpression (modelStateToProto s) print (linearExprToProto e) = "") :
    ∀ e ∈ target :: exprs, ExprAccepted (modelStateToProto s) a e := by
  refine exprs_accepted hs h ha hproper (fun e he var hvar => hvars var ?_) hvalid
  rcases List.mem_cons.mp he with rfl | he
  · exact List.mem_append_left _ (by simpa using hvar)
  · refine List.mem_append_right _ (List.mem_flatMap.mpr ⟨linearExprToProto e, ?_, ?_⟩)
    · rw [harr]
      exact List.mem_map_of_mem he
    · simpa using hvar

/-- An accepted constraint fits, whatever its kind. -/
theorem accepted_kind_fits (h : PartsAccepted print (modelStateToProto s)) {cd : ConstraintData}
    {c : ℕ} (hleft : LeftToCaller a cd)
    (hused : ValidateVariablesUsedInConstraint (modelStateToProto s) print c
      (constraintDataToProto cd) = "")
    (hvalid : ValidateConstraint (modelStateToProto s) print (constraintDataToProto cd) = some "") :
    cd.Fits a := by
  obtain ⟨hvars, henforcement, hliterals⟩ := references_valid hused
  refine ⟨literals_fit hs ha h hleft.literals henforcement, ?_⟩
  obtain ⟨kind, lits, name⟩ := cd
  have hkind : KindLeftToCaller a kind := hleft.kind
  cases kind with
  | boolOr lits => exact literals_fit hs ha h hkind hliterals
  | boolAnd lits => exact literals_fit hs ha h hkind hliterals
  | atMostOne lits => exact literals_fit hs ha h hkind hliterals
  | exactlyOne lits => exact literals_fit hs ha h hkind hliterals
  | boolXor lits => exact literals_fit hs ha h hkind hliterals
  | linear expr domain =>
      have hterms := ((validateLinearConstraint_iff _ _ _).mp (Option.some.inj hvalid)).2
      refine linear_fits hkind (fun var hvar => ?_) hterms.2.2
      obtain ⟨t, ht, rfl⟩ : ∃ t ∈ expr.terms.toList, varRef t.1 = var := by simpa using hvar
      refine inDomain_varRef hs h ha (hkind t ht) (hvars _ ?_)
      change varRef t.1 ∈ (expr.terms.map (varRef ·.1)).toList
      simpa using hvar
  | allDifferent vars => exact hkind
  | linMax target exprs =>
      have htexts := firstText_eq_empty.mp (Option.some.inj hvalid)
      have hexprs := argument_accepted hs ha h Array.toList_map hkind hvars
        (by simpa using htexts)
      have htarget := hexprs target List.mem_cons_self
      have hlow := (abs_le.mp htarget.small).1
      exact ⟨htarget.fits, Or.inr (by omega),
        fun e he => (hexprs e (List.mem_cons_of_mem _ he)).fits⟩
  | element index exprs target =>
      have htexts := element_texts (Option.some.inj hvalid)
      have hexprs := exprs_accepted hs h ha hkind.1 (fun e he var hvar => hvars var ?_) htexts
      · exact ⟨(hexprs index (by simp)).fits, (hexprs target (by simp)).fits,
          fun e he => (hexprs e (by simp [he])).fits, hkind.2⟩
      · change var ∈ (linearExprToProto index).vars.toList ++
          (linearExprToProto target).vars.toList ++
          (exprs.map linearExprToProto).toList.flatMap fun expr => expr.vars.toList
        have hmem : var ∈ (linearExprToProto e).vars.toList := by simpa using hvar
        rcases List.mem_cons.mp he with rfl | he
        · exact List.mem_append_left _ (List.mem_append_left _ hmem)
        rcases List.mem_cons.mp he with rfl | he
        · exact List.mem_append_left _ (List.mem_append_right _ hmem)
        · rw [Array.toList_map]
          exact List.mem_append_right _
            (List.mem_flatMap.mpr ⟨_, List.mem_map_of_mem he, hmem⟩)
  | intDiv target numerator denominator =>
      have hexprs := @argument_accepted _ _ hs _ ha h _ [numerator, denominator] _ rfl hkind.1
        hvars (intDiv_texts hvalid)
      exact intDiv_fits hexprs hkind.2 hvalid
  | intMod target expr modulus =>
      have hmod := Option.some.inj hvalid
      have hexprs := @argument_accepted _ _ hs _ ha h _ [expr, modulus] _ rfl hkind hvars
        (intMod_texts hmod)
      exact intMod_fits hexprs hmod
  | intProd target factors =>
      have hprod := Option.some.inj hvalid
      have hexprs := argument_accepted hs ha h Array.toList_map hkind hvars (intProd_texts hprod)
      exact intProd_fits (hexprs target List.mem_cons_self)
        (fun e he => hexprs e (List.mem_cons_of_mem _ he)) hprod
  | inverse vars invVars => exact hkind

/-- A model with accepted parts fits. -/
theorem parts_fit (h : PartsAccepted print (modelStateToProto s))
    (hleft : ∀ cd ∈ s.constraints.toList, LeftToCaller a cd) : s.Fits a := by
  intro cd hcd
  have hmem : constraintDataToProto cd ∈ (modelStateToProto s).constraints.toList := by
    change _ ∈ (s.constraints.map constraintDataToProto).toList
    rw [Array.toList_map]
    exact List.mem_map_of_mem hcd
  obtain ⟨c, hused⟩ := h.references _ hmem
  exact accepted_kind_fits hs ha h (hleft cd hcd) hused (h.constraints _ hmem)

end Models

/-- Printers that print nothing. -/
def silent : Printers where
  ProtobufShortDebugString _ := ""
  ProtobufDebugString _ := ""
  variableShortDebugString _ := ""
  expressionShortDebugString _ := ""
  objectiveShortDebugString _ := ""
  objectiveDebugString _ := ""

/-- A number between `0` and `10` that is at most `7`. -/
def atMostSeven : ModelState :=
  after (addLessOrEqual (.ofIntVar ⟨0⟩) (.const 7)) (after (newIntVar (.ofInterval 0 10) "") {})

theorem built_atMostSeven : Built atMostSeven :=
  .addConstraint _ _ _ (.newIntVar _ _ .empty)

theorem accepted_atMostSeven : Accepted silent atMostSeven := by
  change ValidateCpModel _ _ = _
  decide +kernel

theorem left_atMostSeven (a : ℕ → ℤ) :
    ∀ cd ∈ atMostSeven.constraints.toList, LeftToCaller a cd := by
  intro cd hcd
  obtain rfl := List.mem_singleton.mp hcd
  refine ⟨fun b hb => absurd hb List.not_mem_nil, ?_⟩
  change ∀ t ∈ _, _
  decide +kernel

/-- A model with accepted parts means what it says. -/
theorem parts_feasible_iff {print : Printers} {s : ModelState} (hs : Built s)
    (h : PartsAccepted print (modelStateToProto s)) {values : Array Int64}
    (hsize : values.size = s.varDomains.size)
    (hleft : InDomains s (assignment values) →
      ∀ cd ∈ s.constraints.toList, LeftToCaller (assignment values) cd) :
    SolutionIsFeasible (modelStateToProto s) values = true ↔ s.Solved (assignment values) := by
  constructor
  · intro hfeasible
    have ha : InDomains s (assignment values) := feasible_inDomain hs hsize hfeasible
    exact (solutionIsFeasible_iff hs hsize (parts_fit hs ha h (hleft ha))).mp hfeasible
  · intro hsolved
    have ha : InDomains s (assignment values) := hsolved.domains
    exact (solutionIsFeasible_iff hs hsize (parts_fit hs ha h (hleft ha))).mpr hsolved

end Cpsat.Proto
