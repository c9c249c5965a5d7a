import CpsatBindings.AddedVariables
import CpsatBindings.DomainProducts
import CpsatBindings.LinearEncodings
import CpsatBindings.References

/-!
# Products of more than two factors

The search knows products of two only.  `ExpandIntProd` of
`ortools/sat/cp_model_expand.cc` gives every intermediate product a variable
of its own, with a domain that it computes from those of the factors, and
clears the constraint.

* `superSet_of_valid` — the domain computed for an accepted expression has all
  its values.
* `productLoop_extendedBy` — the loop adds variables and keeps the solutions.
-/

namespace Cpsat.Checker

open Cpsat.Proto Intervals SortedIntervalList Extension System

/-! ## The context -/

/-- The context reads the domain of a variable from the message when the
variable is made. -/
def DomainOf (model : CpModelProto) (var : Int32) : SortedIntervalList :=
  ReadDomainFromProto (variableOf model var).domain

/-- The sum of what the terms can come to, and of the offset. -/
def DomainSuperSetOf (model : CpModelProto) (expr : LinearExpressionProto) :
    SortedIntervalList :=
  (expr.vars.zip expr.coeffs).toList.foldl
    (fun result t => result.AdditionWith ((DomainOf model t.1).MultiplicationBy t.2).1)
    (.ofValue expr.offset)

/-- The new variable comes last. -/
def NewIntVar (model : CpModelProto) (domain : SortedIntervalList) : CpModelProto × Int32 :=
  let var : IntegerVariableProto := { domain := FillDomainInProto domain }
  let model := { model with «variables» := model.«variables».push var }
  (model, Int32.ofNat (model.«variables».size - 1))

/-- A constraint with the literals of another. -/
def AddEnforcedConstraint (model : CpModelProto) (ct : ConstraintProto)
    (constraint : ConstraintKindProto) : CpModelProto :=
  let new_ct : ConstraintProto :=
    { enforcement_literal := ct.enforcement_literal, constraint := some constraint }
  { model with constraints := model.constraints.push new_ct }

/-! ## The expansion -/

/-- The expression that is one variable. -/
def ofVar (var : Int32) : LinearExpressionProto := { vars := #[var], coeffs := #[1] }

/-- The body of the loop: a variable for the product of two terms, and the term
that takes their place. -/
def productStep (ct : ConstraintProto) (left right : LinearExpressionProto)
    (model : CpModelProto) : CpModelProto × LinearExpressionProto :=
  let new_domain :=
    (DomainSuperSetOf model left).ContinuousMultiplicationBy (DomainSuperSetOf model right)
  let (model, new_var) := NewIntVar model new_domain
  (AddEnforcedConstraint model ct
    (.int_prod { target := some (ofVar new_var), exprs := #[left, right] }), ofVar new_var)

/-- The constraint after the loop, for the terms that are left. -/
def lastProduct (ct : ConstraintProto) (target left : LinearExpressionProto)
    (rest : List LinearExpressionProto) (model : CpModelProto) : CpModelProto :=
  AddEnforcedConstraint model ct
    (.int_prod { target := some target, exprs := (left :: rest).toArray })

/-- The loop, while the queue holds more than two terms: `left` and what
follows. -/
def productLoop (ct : ConstraintProto) (target : LinearExpressionProto) :
    LinearExpressionProto → List LinearExpressionProto → CpModelProto → CpModelProto
  | left, right :: next :: rest, model =>
    let (model, term) := productStep ct left right model
    productLoop ct target term (next :: rest) model
  | left, rest, model => lastProduct ct target left rest model

/-- A product of more than two is taken apart and cleared; a smaller one is left. -/
def ExpandIntProd (c : ℕ) (model : CpModelProto) : CpModelProto :=
  let ct := model.constraints[c]?.getD {}
  match ct.constraint with
  | some (.int_prod arg) =>
    if arg.exprs.size ≤ 2 then model
    else
      match arg.exprs.toList with
      | [] => model
      | left :: rest =>
        let model := productLoop ct (arg.target.getD {}) left rest model
        -- `ct->Clear()`
        { model with constraints := model.constraints.setIfInBounds c {} }
  | _ => model

/-! ## Variables and their domains -/

/-- The values are in the domains of the variables. -/
def VariablesInDomain (model : CpModelProto) (values : Array Int64) : Prop :=
  ∀ k < model.«variables».size,
    DomainInProtoContains (model.«variables»[k]?.getD {}).domain values[k]! = true

/-- A vector is feasible if its values are in their domains and every constraint
holds. -/
theorem feasible_iff {model : CpModelProto} {values : Array Int64}
    (hsize : values.size = model.«variables».size) :
    SolutionIsFeasible model values = true ↔ VariablesInDomain model values ∧
      ∀ ct ∈ model.constraints.toList, ConstraintIsFeasible values ct = true := by
  have hdomains : (model.«variables».zip values).toList.any
      (fun p => !DomainInProtoContains p.1.domain p.2) = false ↔
      VariablesInDomain model values := by
    rw [List.any_eq_false, List.forall_mem_iff_forall_getElem]
    have hlength : (model.«variables».zip values).toList.length = model.«variables».size := by
      rw [Array.length_toList, Array.size_zip, hsize, Nat.min_self]
    refine forall_congr' fun k => ⟨fun hall hk => ?_, fun hall hk => ?_⟩
    · have hbody := hall (hlength ▸ hk)
      rwa [Array.getElem_toList, Array.getElem_zip, Bool.not_eq_true', Bool.not_eq_false,
        ← getElem!_pos values k (by omega), ← Option.getD_some (a := model.«variables»[k]),
        ← Array.getElem?_eq_getElem hk] at hbody
    · rw [hlength] at hk
      have hbody := hall hk
      rwa [Array.getElem_toList, Array.getElem_zip, Bool.not_eq_true', Bool.not_eq_false,
        ← getElem!_pos values k (by omega), ← Option.getD_some (a := model.«variables»[k]),
        ← Array.getElem?_eq_getElem hk]
  unfold SolutionIsFeasible
  rw [if_neg (not_not.mpr hsize)]
  split
  · rename_i hany
    rw [← hdomains, hany]
    simp
  · rename_i hnone
    rw [← hdomains, and_iff_right (eq_false_of_ne_true hnone), List.all_eq_true]

/-- The variables of the first are those of the second, which may have more. -/
structure Grows (model model' : CpModelProto) : Prop where
  size_le : model.«variables».size ≤ model'.«variables».size
  same : ∀ k < model.«variables».size, model'.«variables»[k]? = model.«variables»[k]?

/-- The domain computed for an expression has its values. -/
def InSuperSet (model : CpModelProto) (expr : LinearExpressionProto) : Prop :=
  ∀ values, VariablesInDomain model values →
    (LinearExpressionValue values expr).toInt ∈ (DomainSuperSetOf model expr).Values

/-- An expression that the expansion can handle. -/
structure Handled (model : CpModelProto) (expr : LinearExpressionProto) : Prop where
  references : ∀ var ∈ expr.vars.toList, RefBelow model.«variables».size var
  superSet : InSuperSet model expr

section Growth

variable {model model' : CpModelProto} (h : Grows model model')

include h

/-- Values in the domains of the larger model are in those of the smaller. -/
theorem Grows.inDomain {values : Array Int64} (hvalues : VariablesInDomain model' values) :
    VariablesInDomain model values := by
  intro k hk
  rw [← h.same k hk]
  exact hvalues k (hk.trans_le h.size_le)

/-- An expression that is handled stays so. -/
theorem Handled.grow {expr : LinearExpressionProto} (hexpr : Handled model expr) :
    Handled model' expr := by
  refine ⟨fun var hvar => (hexpr.references var hvar).mono h.size_le, fun values hvalues => ?_⟩
  have hdomain : DomainSuperSetOf model' expr = DomainSuperSetOf model expr := by
    refine List.foldl_ext _ _ _ fun result t ht => ?_
    rw [Array.toList_zip] at ht
    have href := hexpr.references t.1 (List.of_mem_zip ht).1
    unfold RefBelow at href
    rw [DomainOf, DomainOf, variableOf, variableOf, h.same _ (by omega)]
  rw [hdomain]
  exact hexpr.superSet values (h.inDomain hvalues)

end Growth

/-- A value in its domain, for the class. -/
theorem mem_domainOf {model : CpModelProto} {values : Array Int64}
    (h : VariablesInDomain model values) {var : Int32}
    (hvar : var.toInt.toNat < model.«variables».size) :
    assignment values var.toInt.toNat ∈ (DomainOf model var).Values :=
  (covers_fromFlat _ _).mpr ⟨values[var.toInt.toNat]!, rfl, h _ hvar⟩

/-! ## The values of an expression -/

section Expression

variable {model : CpModelProto} {expr : LinearExpressionProto} {values : Array Int64}

/-- The checker's value of an expression is its value, wrapped. -/
theorem expressionValue_toInt (hpositive : ∀ var ∈ expr.vars, RefIsPositive var = true) :
    (LinearExpressionValue values expr).toInt =
      (expressionEval (assignment values) expr).bmod (2 ^ 64) := by
  have hread : LinearExpressionValue values expr = (expr.vars.zip expr.coeffs).toList.foldl
      (fun sum t => sum + values[t.1.toInt.toNat]! * t.2) expr.offset := by
    refine List.foldl_ext _ _ _ fun sum t ht => ?_
    rw [Value, if_pos (of_decide_eq_true (hpositive t.1 (vars_of_mem ht)))]
  rw [hread, foldl_terms, expressionEval]

/-- Adding up the domains of the terms, one after the other. -/
theorem superSet_fold {a : ℕ → ℤ} {terms : List (Int32 × Int64)} {d : SortedIntervalList} {z : ℤ}
    (hd : d.Normal) (hz : z ∈ d.Values)
    (hterms : ∀ t ∈ terms, t.2 ≠ kint64min ∧
      termValue a t ∈ Multiples (DomainOf model t.1) t.2)
    (hparts : ∀ part, part <+: terms → z + (part.map (termValue a)).sum ∈ Words) :
    (terms.foldl (fun result t =>
        result.AdditionWith ((DomainOf model t.1).MultiplicationBy t.2).1) d).Normal ∧
      z + (terms.map (termValue a)).sum ∈ (terms.foldl (fun result t =>
        result.AdditionWith ((DomainOf model t.1).MultiplicationBy t.2).1) d).Values := by
  induction terms generalizing d z with
  | nil => simpa using ⟨hd, hz⟩
  | cons t rest ih =>
      obtain ⟨⟨hcoeff, hterm⟩, hrest⟩ := List.forall_mem_cons.mp hterms
      have hdomain : (DomainOf model t.1).Normal := read_normal _
      obtain ⟨hnormal, hsub, -⟩ := multiplication_values hcoeff hdomain
      obtain ⟨hsum, hvalues⟩ := addition_values hd hnormal
      have hfirst := hparts [t] ⟨rest, rfl⟩
      rw [List.map_singleton, List.sum_singleton] at hfirst
      rw [List.foldl_cons, List.map_cons, List.sum_cons, ← Int.add_assoc]
      refine ih hsum ?_ hrest fun part hpart => ?_
      · rw [hvalues]
        exact ⟨hfirst, z, hz, termValue a t, hsub hterm, rfl⟩
      · have hnext := hparts (t :: part) (List.prefix_cons_inj t |>.mpr hpart)
        rwa [List.map_cons, List.sum_cons, ← Int.add_assoc] at hnext

/-- The smallest word is accepted as an offset only if there is nothing to add. -/
theorem terms_of_min_offset (h : PossibleIntegerOverflow model expr.vars expr.coeffs kint64min = false) :
    (expr.vars.zip expr.coeffs).toList = [] := by
  unfold PossibleIntegerOverflow at h
  have hmagnitude : (if kint64min < 0 then -kint64min else kint64min) = kint64min := by decide
  have hsmall : ¬ kint64min > kint64max / 2 := by decide +kernel
  have hopposite : -kint64min = kint64min := by decide
  dsimp only at h
  rw [hmagnitude, if_neg hsmall, hopposite] at h
  cases hterms : (expr.vars.zip expr.coeffs).toList with
  | nil => rfl
  | cons t rest =>
      rw [hterms] at h
      obtain ⟨c', hadd, -⟩ := termsOverflow_cons.mp h
      obtain ⟨hcoeff, hlo, hhi⟩ := addTerm_tests hadd
      obtain ⟨hmin, -, hlow, -⟩ := (addTerm_eq hcoeff hlo hhi).mp hadd
      have hleast : kint64min.toInt = -2 ^ 63 := rfl
      have hnonpos := @lowest_nonpos (variableOf model t.1).domain[0]!
        (variableOf model t.1).domain[(variableOf model t.1).domain.size - 1]! t.2
      rw [hmin, capAdd_toInt, lowest_toInt hlo hhi] at hlow
      unfold clamp at hlow
      dsimp only at hlow
      omega

/-- A value is in its own domain. -/
theorem mem_ofValue (value : Int64) : value.toInt ∈ (SortedIntervalList.ofValue value).Values :=
  ⟨_, List.mem_cons_self, le_refl _, le_refl _⟩

/-- **The domain computed for an accepted expression has all its values.** -/
theorem superSet_of_valid (hvalid : ExpressionIsValid model expr)
    (hbounded : ∀ var ∈ expr.vars, Bounded model (assignment values) var)
    (hdomain : ∀ var ∈ expr.vars, assignment values var.toInt.toNat ∈ (DomainOf model var).Values) :
    (LinearExpressionValue values expr).toInt ∈ (DomainSuperSetOf model expr).Values := by
  rw [expressionValue_toInt hvalid.positive]
  by_cases hoffset : expr.offset = kint64min
  · have hfits := hvalid.fits
    rw [hoffset] at hfits
    have hnil := terms_of_min_offset hfits
    rw [expressionEval, DomainSuperSetOf, hnil, hoffset]
    exact mem_ofValue kint64min
  · have hparts : ∀ part : List (Int32 × Int64), part.Subperm (expr.vars.zip expr.coeffs).toList →
        |expr.offset.toInt + (part.map (termValue (assignment values))).sum| ≤ 2 ^ 62 - 1 :=
      fun part hpart => any_part_fits hoffset hvalid.fits
        (fun t ht => hbounded t.1 (vars_of_mem ht)) hpart
    have hcoeffs := ((possibleIntegerOverflow_iff hoffset).mp hvalid.fits).2.1
    have hsmall := hparts [] List.nil_subperm
    rw [List.map_nil, List.sum_nil, Int.add_zero, abs_le] at hsmall
    have hmin : kint64min.toInt = -2 ^ 63 := rfl
    have hmax : kint64max.toInt = 2 ^ 63 - 1 := rfl
    have hall := hparts _ (List.Subperm.refl _)
    rw [abs_le] at hall
    have hterms : ∀ t ∈ (expr.vars.zip expr.coeffs).toList, t.2 ≠ kint64min ∧
        termValue (assignment values) t ∈ Multiples (DomainOf model t.1) t.2 := by
      intro t ht
      have hterm := hparts [t] (List.singleton_subperm_iff.mpr ht)
      rw [List.map_singleton, List.sum_singleton, abs_le] at hterm
      refine ⟨hcoeffs t ht, ⟨?_, ?_⟩, ⟨_, hdomain t.1 (vars_of_mem ht), rfl⟩, fun _ => ?_⟩
      · omega
      · omega
      · omega
    have hvalue : (expressionEval (assignment values) expr).bmod (2 ^ 64) =
        expressionEval (assignment values) expr := by
      unfold expressionEval
      exact Int.bmod_eq_of_le (by omega) (by omega)
    rw [hvalue]
    refine (superSet_fold (ofValue_normal _) (mem_ofValue _) hterms fun part hpart => ?_).2
    have hsum := hparts part hpart.sublist.subperm
    rw [abs_le] at hsum
    exact ⟨by omega, by omega⟩

end Expression

/-! ## One step -/

/-- What the rewriting relies on, and what it keeps. -/
structure Expandable (model : CpModelProto) : Prop where
  references : ∀ ct ∈ model.constraints.toList, ∀ ref ∈ allReferences ct,
    RefBelow model.«variables».size ref
  factors : ∀ ct ∈ model.constraints.toList, ∀ arg, ct.constraint = some (.int_prod arg) →
    ∀ expr ∈ arg.exprs.toList, Handled model expr

/-- The same, in the middle of the loop. -/
structure Ready (ct : ConstraintProto) (target left : LinearExpressionProto)
    (rest : List LinearExpressionProto) (model : CpModelProto) : Prop extends Expandable model where
  enforcement : ∀ lit ∈ ct.enforcement_literal.toList, RefBelow model.«variables».size lit
  target : ∀ var ∈ target.vars.toList, RefBelow model.«variables».size var
  terms : ∀ expr ∈ left :: rest, Handled model expr

/-- One is neutral. -/
theorem capProd_one (x : Int64) : CapProd 1 x = x := by
  apply Int64.toInt.inj
  rw [capProd_toInt, Int64.toInt_one, Int.one_mul]
  exact clamp_of_mem x.le_toInt (Int.le_sub_one_of_lt x.toInt_lt)

/-- The product that the checker computes, from its first factor on. -/
def productFrom (values : Array Int64) (start : Int64) (exprs : List LinearExpressionProto) :
    Int64 :=
  exprs.foldl (fun prod expr => CapProd prod (LinearExpressionValue values expr)) start

/-- What an enforced product asks for. -/
theorem product_feasible {values : Array Int64} {ct : ConstraintProto} {arg : LinearArgumentProto}
    {left : LinearExpressionProto} {rest : List LinearExpressionProto}
    (hkind : ct.constraint = some (.int_prod arg)) (hexprs : arg.exprs.toList = left :: rest) :
    ConstraintIsFeasible values ct = true ↔
      (ct.enforcement_literal.toList.any (LiteralIsFalse values) = false →
        LinearExpressionValue values (arg.target.getD {}) =
          productFrom values (LinearExpressionValue values left) rest) := by
  have hproduct : IntProdConstraintIsFeasible values arg = true ↔
      LinearExpressionValue values (arg.target.getD {}) =
        productFrom values (LinearExpressionValue values left) rest := by
    rw [IntProdConstraintIsFeasible, beq_iff_eq, hexprs, List.foldl_cons, capProd_one]
    rfl
  unfold ConstraintIsFeasible ConstraintIsEnforced
  rw [Bool.not_not, hkind]
  cases ct.enforcement_literal.toList.any (LiteralIsFalse values) with
  | true => simp
  | false => simpa using hproduct

/-- A new value at the end changes none below. -/
theorem agreeBelow_push (values : Array Int64) (v : Int64) :
    AgreeBelow values.size values (values.push v) := by
  intro k hk
  rw [getElem!_pos values k hk, getElem!_pos (values.push v) k (by rw [Array.size_push]; omega),
    Array.getElem_push_lt]

section Step

variable {ct : ConstraintProto} {target left right : LinearExpressionProto}
  {rest : List LinearExpressionProto} {model : CpModelProto} {values : Array Int64} {v : Int64}

/-- The new variable has the value that is pushed. -/
theorem ofVar_value (hsize : values.size < 2 ^ 31) :
    LinearExpressionValue (values.push v) (ofVar (Int32.ofNat values.size)) = v := by
  have hvar : (Int32.ofNat values.size).toInt = values.size := Int32.toInt_ofNat_of_lt hsize
  have hpos : Int32.ofNat values.size ≥ 0 := by
    rw [ge_iff_le, Int32.le_iff_toInt_le, hvar, Int32.toInt_zero]
    omega
  have hread : Value (values.push v) (Int32.ofNat values.size) = v := by
    rw [Value, if_pos hpos, hvar, Int.toNat_natCast,
      getElem!_pos (values.push v) values.size (by rw [Array.size_push]; omega),
      Array.getElem_push_eq]
  simp [LinearExpressionValue, ofVar, hread]

/-- One product more: the variables stay. -/
theorem grows_step : Grows model (productStep ct left right model).1 where
  size_le := by
    change _ ≤ (model.«variables».push _).size
    rw [Array.size_push]
    omega
  same k hk := by
    change (model.«variables».push _)[k]? = _
    rw [Array.getElem?_push_lt hk, Array.getElem?_eq_getElem hk]

/-- The rest of the product goes on with the new variable. -/
theorem step_term :
    (productStep ct left right model).2 = ofVar (Int32.ofNat model.«variables».size) := by
  simp [productStep, NewIntVar]

/-- The value of a variable. -/
theorem expressionValue_ofVar {var : Int32} (hpos : var ≥ 0) :
    LinearExpressionValue values (ofVar var) = values[var.toInt.toNat]! := by
  simp [LinearExpressionValue, ofVar, Value, hpos]

/-- A variable is handled, whatever its domain. -/
theorem handled_ofVar {var : Int32} (hlow : 0 ≤ var.toInt)
    (hhigh : var.toInt < model.«variables».size) : Handled model (ofVar var) := by
  have hpos : var ≥ 0 := by
    rwa [ge_iff_le, Int32.le_iff_toInt_le, Int32.toInt_zero]
  refine ⟨fun var' hmem => ?_, fun values hvalues => ?_⟩
  · obtain rfl := List.mem_singleton.mp hmem
    unfold RefBelow
    omega
  · have hmem := mem_domainOf hvalues (show var.toInt.toNat < _ by omega)
    have hword := values_subset hmem
    have hvalue : termValue (assignment values) (var, 1) = assignment values var.toInt.toNat :=
      Int.one_mul _
    have hzip : ((ofVar var).vars.zip (ofVar var).coeffs).toList = [(var, 1)] := by simp [ofVar]
    have hterms : ∀ t ∈ [(var, (1 : Int64))], t.2 ≠ kint64min ∧
        termValue (assignment values) t ∈ Multiples (DomainOf model t.1) t.2 := by
      rw [List.forall_mem_singleton, hvalue]
      have hone : (1 : Int64) ≠ kint64min := by decide
      have hpositive : ¬ (1 : Int64).toInt < 0 := by decide
      exact ⟨hone, hword, ⟨_, hmem, Int.one_mul _⟩, fun h => absurd h hpositive⟩
    have hparts : ∀ part, part <+: [(var, (1 : Int64))] →
        (0 : Int64).toInt + (part.map (termValue (assignment values))).sum ∈ Words := by
      intro part hpart
      rcases List.prefix_cons_iff.mp hpart with rfl | ⟨rest, rfl, hrest⟩
      · rw [List.map_nil, List.sum_nil]
        exact ⟨by decide, by decide⟩
      · obtain rfl := List.prefix_nil.mp hrest
        rw [List.map_singleton, List.sum_singleton, hvalue, Int64.toInt_zero, Int.zero_add]
        exact hword
    obtain ⟨-, hfold⟩ := superSet_fold (ofValue_normal 0) (mem_ofValue 0) hterms hparts
    rw [List.map_singleton, List.sum_singleton, hvalue, Int64.toInt_zero, Int.zero_add] at hfold
    rw [expressionValue_ofVar hpos, DomainSuperSetOf, hzip]
    exact hfold

/-- The domain of the new variable. -/
theorem product_domain (x : Int64) : DomainInProtoContains (FillDomainInProto
      ((DomainSuperSetOf model left).ContinuousMultiplicationBy (DomainSuperSetOf model right)))
      x = true ↔
    x.toInt ∈ ((DomainSuperSetOf model left).ContinuousMultiplicationBy
      (DomainSuperSetOf model right)).Values := by
  have hnormal := (product_values (DomainSuperSetOf model left) (DomainSuperSetOf model right)).1
  rw [fill_contains hnormal, contains_iff_mem hnormal]

/-- The new value is to be in the domain of the product. -/
theorem inDomain_step (hsize : values.size = model.«variables».size) :
    VariablesInDomain (productStep ct left right model).1 (values.push v) ↔
      VariablesInDomain model values ∧ v.toInt ∈ ((DomainSuperSetOf model left).ContinuousMultiplicationBy
        (DomainSuperSetOf model right)).Values := by
  have hagree := agreeBelow_push values v
  have hgrown : (productStep ct left right model).1.«variables».size =
      model.«variables».size + 1 := Array.size_push ..
  have hnew : (productStep ct left right model).1.«variables»[model.«variables».size]? =
      some { domain := FillDomainInProto ((DomainSuperSetOf model left).ContinuousMultiplicationBy
        (DomainSuperSetOf model right)) } := Array.getElem?_push_size
  have hvalue : (values.push v)[model.«variables».size]! = v := by
    rw [← hsize, getElem!_pos (values.push v) values.size (by rw [Array.size_push]; omega),
      Array.getElem_push_eq]
  rw [← product_domain]
  constructor
  · intro h
    refine ⟨fun k hk => ?_, ?_⟩
    · have hold := grows_step.inDomain h k hk
      rwa [← hagree k (by omega)] at hold
    · have hlast := h model.«variables».size (by omega)
      rwa [hnew, hvalue] at hlast
  · rintro ⟨hold, hlast⟩ k hk
    by_cases hk' : k < model.«variables».size
    · rw [grows_step.same k hk', ← hagree k (by omega)]
      exact hold k hk'
    · obtain rfl : k = model.«variables».size := by omega
      rw [hnew, hvalue]
      exact hlast

/-- The step pushes one constraint, which asks for the product if it is enforced. -/
theorem step_feasible (h : Ready ct target left (right :: rest) model)
    (hsize : values.size = model.«variables».size) (hsmall : model.«variables».size < 2 ^ 31) :
    SolutionIsFeasible (productStep ct left right model).1 (values.push v) = true ↔
      SolutionIsFeasible model values = true ∧
      v.toInt ∈ ((DomainSuperSetOf model left).ContinuousMultiplicationBy
        (DomainSuperSetOf model right)).Values ∧
      (ct.enforcement_literal.toList.any (LiteralIsFalse values) = false →
        v = CapProd (LinearExpressionValue values left) (LinearExpressionValue values right)) := by
  have hagree := agreeBelow_push values v
  rw [hsize] at hagree
  have hgrown : (productStep ct left right model).1.«variables».size =
      model.«variables».size + 1 := Array.size_push ..
  have hold : ∀ ct ∈ model.constraints.toList,
      ConstraintIsFeasible (values.push v) ct = ConstraintIsFeasible values ct :=
    fun ct hct => (constraint_reads hagree (h.references ct hct)).symm
  have hnew : ConstraintIsFeasible (values.push v) ⟨"", ct.enforcement_literal,
        some (.int_prod ⟨some (productStep ct left right model).2, #[left, right]⟩)⟩ = true ↔
      (ct.enforcement_literal.toList.any (LiteralIsFalse values) = false →
        v = CapProd (LinearExpressionValue values left) (LinearExpressionValue values right)) := by
    have hleft := h.terms left List.mem_cons_self
    have hright := h.terms right (List.mem_cons_of_mem _ List.mem_cons_self)
    rw [product_feasible rfl rfl, ← anyFalse_reads hagree h.enforcement, Option.getD_some, step_term,
      ← hsize, ofVar_value (by omega), productFrom, List.foldl_cons, List.foldl_nil,
      ← expression_reads hagree hleft.references, ← expression_reads hagree hright.references]
  have hconstraints : (productStep ct left right model).1.constraints.toList =
      model.constraints.toList ++ [⟨"", ct.enforcement_literal,
        some (.int_prod ⟨some (productStep ct left right model).2, #[left, right]⟩)⟩] :=
    Array.toList_push ..
  rw [feasible_iff hsize, feasible_iff (by rw [Array.size_push, hgrown, hsize]),
    inDomain_step hsize, hconstraints, List.forall_mem_append, List.forall_mem_singleton, hnew,
    forall₂_congr fun ct hct => by rw [hold ct hct]]
  tauto

/-- What is pushed keeps what the rewriting relies on. -/
theorem Expandable.push (h : Expandable model) {model' : CpModelProto}
    (hgrows : Grows model model') {ct : ConstraintProto}
    (hconstraints : model'.constraints = model.constraints.push ct)
    (hreferences : ∀ ref ∈ allReferences ct, RefBelow model'.«variables».size ref)
    (hfactors : ∀ arg, ct.constraint = some (.int_prod arg) →
      ∀ expr ∈ arg.exprs.toList, Handled model' expr) : Expandable model' where
  references := by
    rw [hconstraints, Array.toList_push, List.forall_mem_append, List.forall_mem_singleton]
    exact ⟨fun ct hct ref href => (h.references ct hct ref href).mono hgrows.size_le, hreferences⟩
  factors := by
    rw [hconstraints, Array.toList_push, List.forall_mem_append, List.forall_mem_singleton]
    exact ⟨fun ct hct arg harg expr hexpr => (h.factors ct hct arg harg expr hexpr).grow hgrows,
      hfactors⟩

/-- What a product refers to. -/
theorem product_references {n : ℕ} {enforcement_literal : Array Int32} {name : String}
    {exprs : List LinearExpressionProto}
    (henforcement : ∀ lit ∈ enforcement_literal.toList, RefBelow n lit)
    (htarget : ∀ var ∈ target.vars.toList, RefBelow n var)
    (hexprs : ∀ expr ∈ exprs, ∀ var ∈ expr.vars.toList, RefBelow n var) :
    ∀ ref ∈ allReferences
      ⟨name, enforcement_literal, some (.int_prod ⟨some target, exprs.toArray⟩)⟩,
      RefBelow n ref := by
  change ∀ ref ∈ (target.vars.toList ++ exprs.flatMap fun expr => expr.vars.toList) ++ [] ++
    enforcement_literal.toList, _
  simp only [List.forall_mem_append, List.mem_flatMap]
  refine ⟨⟨⟨htarget, ?_⟩, fun ref href => absurd href List.not_mem_nil⟩, henforcement⟩
  rintro var ⟨expr, hexpr, hvar⟩
  exact hexprs expr hexpr var hvar

/-- After one product the rest can be expanded. -/
theorem Ready.step {next : LinearExpressionProto}
    (h : Ready ct target left (right :: next :: rest) model)
    (hsmall : model.«variables».size < 2 ^ 31) :
    Ready ct target (productStep ct left right model).2 (next :: rest)
      (productStep ct left right model).1 := by
  have hgrows : Grows model (productStep ct left right model).1 := grows_step
  have hgrown : (productStep ct left right model).1.«variables».size =
      model.«variables».size + 1 := Array.size_push ..
  have hterm : Handled (productStep ct left right model).1 (productStep ct left right model).2 := by
    have hvar : (Int32.ofNat model.«variables».size).toInt = model.«variables».size :=
      Int32.toInt_ofNat_of_lt hsmall
    rw [step_term]
    exact handled_ofVar (by omega) (by omega)
  have hfactors : ∀ expr ∈ left :: right :: next :: rest,
      Handled (productStep ct left right model).1 expr :=
    fun expr hexpr => (h.terms expr hexpr).grow hgrows
  have henforcement : ∀ lit ∈ ct.enforcement_literal.toList,
      RefBelow (productStep ct left right model).1.«variables».size lit :=
    fun lit hlit => (h.enforcement lit hlit).mono hgrows.size_le
  refine
    { toExpandable := h.toExpandable.push hgrows rfl ?_ ?_
      enforcement := henforcement
      target := fun var hvar => (h.target var hvar).mono hgrows.size_le
      terms := ?_ }
  · exact product_references henforcement hterm.references
      (List.forall_mem_cons.mpr ⟨(hfactors left (by simp)).references,
        List.forall_mem_singleton.mpr (hfactors right (by simp)).references⟩)
  · intro arg harg expr hexpr
    obtain rfl := ConstraintKindProto.int_prod.inj (Option.some.inj harg)
    rcases List.mem_pair.mp hexpr with rfl | rfl
    · exact hfactors _ (by simp)
    · exact hfactors _ (by simp)
  · exact List.forall_mem_cons.mpr ⟨hterm, fun expr hexpr =>
      hfactors expr (List.mem_cons_of_mem _ (List.mem_cons_of_mem _ hexpr))⟩

end Step

/-! ## The loop -/

/-- The solutions of a model. -/
def systemOf (model : CpModelProto) : System Int64 where
  size := model.«variables».size
  Holds values := SolutionIsFeasible model values = true

/-- The model with the terms that are still in the queue. -/
def queueSystem (ct : ConstraintProto) (target left : LinearExpressionProto)
    (rest : List LinearExpressionProto) (model : CpModelProto) : System Int64 where
  size := model.«variables».size
  Holds values := SolutionIsFeasible model values = true ∧
    (ct.enforcement_literal.toList.any (LiteralIsFalse values) = false →
      LinearExpressionValue values target =
        productFrom values (LinearExpressionValue values left) rest)

section Loop

variable {ct : ConstraintProto} {target left right next : LinearExpressionProto}
  {rest : List LinearExpressionProto} {model : CpModelProto}

/-- What a product reads. -/
theorem productFrom_reads {n : ℕ} {values values' : Array Int64} (h : AgreeBelow n values values')
    {exprs : List LinearExpressionProto}
    (hrefs : ∀ expr ∈ exprs, ∀ var ∈ expr.vars.toList, RefBelow n var) (start : Int64) :
    productFrom values start exprs = productFrom values' start exprs :=
  List.foldl_ext _ _ _ fun prod expr hexpr =>
    congrArg (CapProd prod) (expression_reads h (hrefs expr hexpr))

/-- One turn of the loop. -/
theorem queue_step (h : Ready ct target left (right :: next :: rest) model)
    (hsmall : model.«variables».size < 2 ^ 31) :
    (queueSystem ct target left (right :: next :: rest) model).ExtendedBy
      (queueSystem ct target (productStep ct left right model).2 (next :: rest)
        (productStep ct left right model).1) := by
  refine .of_push (Array.size_push ..) fun values hsize => ?_
  change values.size = model.«variables».size at hsize
  have hstep := fun v => @step_feasible ct target left right (next :: rest) model values v h hsize hsmall
  have hagree := fun v => agreeBelow_push values v
  rw [hsize] at hagree
  have hrest : ∀ expr ∈ next :: rest, ∀ var ∈ expr.vars.toList,
      RefBelow model.«variables».size var := fun expr hexpr =>
    (h.terms expr (List.mem_cons_of_mem _ (List.mem_cons_of_mem _ hexpr))).references
  have hread : ∀ v, (queueSystem ct target (productStep ct left right model).2 (next :: rest)
        (productStep ct left right model).1).Holds (values.push v) ↔
      SolutionIsFeasible (productStep ct left right model).1 (values.push v) = true ∧
      (ct.enforcement_literal.toList.any (LiteralIsFalse values) = false →
        LinearExpressionValue values target = productFrom values v (next :: rest)) := by
    intro v
    unfold queueSystem
    dsimp only
    rw [← anyFalse_reads (hagree v) h.enforcement, ← expression_reads (hagree v) h.target,
      step_term, ← hsize, ofVar_value (by omega), ← productFrom_reads (hagree v) hrest]
  simp only [hread, hstep]
  constructor
  · rintro ⟨hfeasible, hproduct⟩
    -- the intermediate product itself
    have hdomain := (feasible_iff hsize).mp hfeasible |>.1
    exact ⟨CapProd (LinearExpressionValue values left) (LinearExpressionValue values right),
      ⟨hfeasible, (product_values _ _).2 _ _
        ((h.terms left List.mem_cons_self).superSet values hdomain)
        ((h.terms right (List.mem_cons_of_mem _ List.mem_cons_self)).superSet values hdomain),
        fun _ => rfl⟩, hproduct⟩
  · rintro ⟨v, ⟨hfeasible, -, hv⟩, hproduct⟩
    refine ⟨hfeasible, fun henforced => ?_⟩
    rw [hproduct henforced, hv henforced]
    rfl

/-- The last product says what is left of the queue. -/
theorem lastProduct_feasible {values : Array Int64}
    (hsize : values.size = model.«variables».size) :
    SolutionIsFeasible (lastProduct ct target left rest model) values = true ↔
      (queueSystem ct target left rest model).Holds values := by
  have hpushed := @feasible_iff (lastProduct ct target left rest model) values hsize
  have hconstraints : (lastProduct ct target left rest model).constraints.toList =
      model.constraints.toList ++ [⟨"", ct.enforcement_literal,
        some (.int_prod ⟨some target, (left :: rest).toArray⟩)⟩] := Array.toList_push ..
  rw [hconstraints, List.forall_mem_append, List.forall_mem_singleton,
    product_feasible rfl rfl] at hpushed
  unfold queueSystem
  dsimp only
  rw [hpushed, feasible_iff hsize, and_assoc]
  rfl

/-- What is left after it can be expanded. -/
theorem Ready.last (h : Ready ct target left rest model) :
    Grows model (lastProduct ct target left rest model) ∧
      Expandable (lastProduct ct target left rest model) := by
  have hgrows : Grows model (lastProduct ct target left rest model) :=
    ⟨le_refl _, fun _ _ => rfl⟩
  refine ⟨hgrows, h.toExpandable.push hgrows rfl ?_ fun arg harg expr hexpr => ?_⟩
  · exact product_references h.enforcement h.target fun expr hexpr =>
      (h.terms expr hexpr).references
  · obtain rfl := ConstraintKindProto.int_prod.inj (Option.some.inj harg)
    exact (h.terms expr hexpr).grow hgrows

/-- Growing composes. -/
theorem Grows.trans {model model' model'' : CpModelProto} (h : Grows model model')
    (h' : Grows model' model'') : Grows model model'' where
  size_le := h.size_le.trans h'.size_le
  same k hk := (h'.same k (hk.trans_le h.size_le)).trans (h.same k hk)

/-- The loop keeps the variables there are. -/
theorem grows_loop : Grows model (productLoop ct target left rest model) := by
  induction left, rest, model using productLoop.induct ct with
  | case1 left right next rest model model' term hstep ih =>
      obtain ⟨rfl, rfl⟩ := Prod.ext_iff.mp hstep
      rw [productLoop]
      exact grows_step.trans ih
  | case2 left rest model hlast =>
      rw [productLoop]
      · exact ⟨le_refl _, fun _ _ => rfl⟩
      · exact hlast

/-- **The loop adds variables and keeps the solutions.** -/
theorem productLoop_extendedBy (h : Ready ct target left rest model)
    (hfinal : (productLoop ct target left rest model).«variables».size < 2 ^ 31) :
    (queueSystem ct target left rest model).ExtendedBy
        (systemOf (productLoop ct target left rest model)) ∧
      Expandable (productLoop ct target left rest model) := by
  induction left, rest, model using productLoop.induct ct with
  | case1 left right next rest model model' term hstep ih =>
      obtain ⟨rfl, rfl⟩ := Prod.ext_iff.mp hstep
      rw [productLoop] at hfinal ⊢
      have hgrown : (productStep ct left right model).1.«variables».size =
          model.«variables».size + 1 := Array.size_push ..
      have hle := (@grows_loop ct target (productStep ct left right model).2 (next :: rest)
        (productStep ct left right model).1).size_le
      have hsmall : model.«variables».size < 2 ^ 31 := by
        dsimp only at hfinal
        omega
      obtain ⟨hextended, hexpandable⟩ := ih (h.step hsmall) hfinal
      exact ⟨(queue_step h hsmall).trans hextended, hexpandable⟩
  | case2 left rest model hlast =>
      rw [productLoop]
      · exact ⟨.of_iff rfl fun values hsize => (lastProduct_feasible hsize).symm, h.last.2⟩
      · exact hlast

end Loop

end Cpsat.Checker
