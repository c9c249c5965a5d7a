import CpsatBindings.WireMessages

/-!
# The receiving validator

The checks of `ortools/sat/cp_model_checker.cc` that decide whether the
solver accepts a linear constraint and a solution hint.  A check answers with
an error text, and the empty text means *valid*; `ValidateCpModel` returns the
first nonempty one.

Each check gets its meaning as one equivalence: a domain is accepted exactly
if its endpoints are a separated interval list (`domainInProtoIsValid_iff`),
a hint exactly if its references are distinct variables and no value is an
end of the `int64` range (`validateSolutionHint_iff`).
-/

namespace Cpsat.Checker

open Cpsat.Proto Intervals

/-! ## References -/

/-- The reference to the negation. -/
def NegatedRef (ref : Int32) : Int32 := -ref - 1

/-- The variable of a reference. -/
def PositiveRef (ref : Int32) : Int32 := max ref (NegatedRef ref)

/-- Whether the reference is to the variable itself. -/
def RefIsPositive (ref : Int32) : Bool := ref ≥ 0

def VariableIndexIsValid (model : CpModelProto) (var : Int32) : Bool :=
  var ≥ 0 && var.toInt < model.«variables».size

/-! ## Domains -/

/-- The flat list of a domain: empty, or of even length, each interval ordered
and consecutive ones apart by more than one.  The loop starts at the second
interval and moves in steps of two. -/
def DomainInProtoIsValid (domain : Array Int64) : Bool :=
  if domain.isEmpty then true
  else if domain.size % 2 ≠ 0 then false
  else if domain[0]! > domain[1]! then false
  else (List.range' 2 ((domain.size - 2) / 2) 2).all fun i =>
    if domain[i]! > domain[i + 1]! then false
    -- In two steps, so that the `+ 1` cannot overflow.
    else if domain[i - 1]! ≥ domain[i]! then false
    else if domain[i - 1]! + 1 ≥ domain[i]! then false
    else true

/-- Position `2 k` of the flat list is the lower end of interval `k`, position
`2 k + 1` its upper end. -/
theorem domainToFlatArray_getElem? (d : Domain) (k : Nat) :
    (domainToFlatArray d)[2 * k]? = d.intervals[k]?.map Prod.fst ∧
      (domainToFlatArray d)[2 * k + 1]? = d.intervals[k]?.map Prod.snd := by
  obtain ⟨⟨l⟩⟩ := d
  simp only [domainToFlatArray, List.flatMap_toArray, List.getElem?_toArray]
  induction l generalizing k with
  | nil => simp
  | cons i rest ih =>
      cases k with
      | zero => simp
      | succ k =>
          have harith : 2 * (k + 1) = 2 * k + 1 + 1 := by omega
          simpa [harith] using ih k

/-- Two numbers for each interval. -/
theorem domainToFlatArray_size (d : Domain) :
    (domainToFlatArray d).size = 2 * d.intervals.size := by
  obtain ⟨⟨l⟩⟩ := d
  simp only [domainToFlatArray, List.flatMap_toArray, List.size_toArray]
  induction l with
  | nil => rfl
  | cons i rest ih =>
      simp only [List.flatMap_cons, List.length_append, ih, List.length_cons]
      simp
      omega

/-- The first of the two is where the interval starts. -/
theorem flat_lower {d : Domain} {k : Nat} (h : k < d.intervals.size) :
    (domainToFlatArray d)[2 * k]! = d.intervals[k].1 := by
  rw [getElem!_def, (domainToFlatArray_getElem? d k).1]
  simp [h]

/-- The second is where it ends. -/
theorem flat_upper {d : Domain} {k : Nat} (h : k < d.intervals.size) :
    (domainToFlatArray d)[2 * k + 1]! = d.intervals[k].2 := by
  rw [getElem!_def, (domainToFlatArray_getElem? d k).2]
  simp [h]

/-- The two-step test is the test over the integers: once `x < y`, adding one
to `x` stays in range. -/
theorem apart_in_two_steps (x y : Int64) :
    (¬ x ≥ y ∧ ¬ x + 1 ≥ y) ↔ x.toInt + 1 < y.toInt := by
  have hx := x.le_toInt
  have hy := y.toInt_lt
  simp only [ge_iff_le, Int64.le_iff_toInt_le, Int64.toInt_add, Int64.toInt_one, not_le]
  constructor
  · rintro ⟨hlt, hadd⟩
    rwa [Int.bmod_eq_of_le (by omega) (by omega)] at hadd
  · intro h
    refine ⟨by omega, ?_⟩
    rwa [Int.bmod_eq_of_le (by omega) (by omega)]

/-- The iterations of the loop, one for each pair of consecutive intervals. -/
theorem domainLoop_iff (d : Domain) :
    ((List.range' 2 (((domainToFlatArray d).size - 2) / 2) 2).all fun i =>
      if (domainToFlatArray d)[i]! > (domainToFlatArray d)[i + 1]! then false
      else if (domainToFlatArray d)[i - 1]! ≥ (domainToFlatArray d)[i]! then false
      else if (domainToFlatArray d)[i - 1]! + 1 ≥ (domainToFlatArray d)[i]! then false
      else true) = true ↔
    ∀ k, (h : k + 1 < d.intervals.size) →
      d.intervals[k + 1].1.toInt ≤ d.intervals[k + 1].2.toInt ∧
        d.intervals[k].2.toInt + 1 < d.intervals[k + 1].1.toInt := by
  have hiter : ((domainToFlatArray d).size - 2) / 2 = d.intervals.size - 1 := by
    rw [domainToFlatArray_size]
    omega
  rw [hiter, List.all_eq_true]
  constructor
  · intro hall k hk
    have hbody := hall (2 + 2 * k) (List.mem_range'.mpr ⟨k, by omega, rfl⟩)
    rw [show 2 + 2 * k = 2 * (k + 1) by omega,
      show 2 * (k + 1) - 1 = 2 * k + 1 by omega,
      flat_lower hk, flat_upper hk, flat_upper (Nat.lt_of_succ_lt hk)] at hbody
    rw [← apart_in_two_steps, ← Int64.le_iff_toInt_le]
    grind
  · intro hall i hi
    obtain ⟨k, hk, rfl⟩ := List.mem_range'.mp hi
    have hk1 : k + 1 < d.intervals.size := by omega
    rw [show 2 + 2 * k = 2 * (k + 1) by omega,
      show 2 * (k + 1) - 1 = 2 * k + 1 by omega,
      flat_lower hk1, flat_upper hk1, flat_upper (Nat.lt_of_succ_lt hk1)]
    have hbody := hall k hk1
    rw [← apart_in_two_steps, ← Int64.le_iff_toInt_le] at hbody
    grind

/-- **What the domain check accepts**: exactly the separated domains. -/
theorem domainInProtoIsValid_iff (d : Domain) :
    DomainInProtoIsValid (domainToFlatArray d) = true ↔ Separated (domainEnds d) := by
  have hsize := domainToFlatArray_size d
  by_cases hempty : d.intervals.size = 0
  · have hnil : d.intervals = #[] := Array.size_eq_zero_iff.mp hempty
    have hflat : (domainToFlatArray d).isEmpty = true := by simp [domainToFlatArray, hnil]
    simp [DomainInProtoIsValid, hflat, domainEnds, hnil, separated_nil]
  · have hpos : 0 < d.intervals.size := Nat.pos_of_ne_zero hempty
    have hflat : (domainToFlatArray d).isEmpty = false := by
      simp only [Array.isEmpty_eq_false_iff, ne_eq, ← Array.size_eq_zero_iff, hsize]
      omega
    have hfirst := flat_lower hpos
    have hsecond := flat_upper hpos
    simp only [Nat.mul_zero, Nat.zero_add] at hfirst hsecond
    have hordered : (∀ i ∈ domainEnds d, i.1 ≤ i.2) ↔
        ∀ k, (h : k < d.intervals.size) →
          d.intervals[k].1.toInt ≤ d.intervals[k].2.toInt := by
      simp [domainEnds, Array.mem_iff_getElem]
      grind
    have hapart : (domainEnds d).IsChain (fun i j => i.2 + 1 < j.1) ↔
        ∀ k, (h : k + 1 < d.intervals.size) →
          d.intervals[k].2.toInt + 1 < d.intervals[k + 1].1.toInt := by
      rw [List.isChain_iff_getElem]
      simp [domainEnds]
    unfold DomainInProtoIsValid
    rw [if_neg (by simp [hflat]), if_neg (by simp [hsize]), hfirst, hsecond]
    split
    · rename_i hbad
      constructor
      · intro h
        cases h
      · intro h
        have h0 := hordered.mp h.ordered 0 hpos
        rw [gt_iff_lt, Int64.lt_iff_toInt_lt] at hbad
        omega
    · rename_i hgood
      rw [gt_iff_lt, Int64.lt_iff_toInt_lt, not_lt] at hgood
      rw [domainLoop_iff]
      constructor
      · intro hloop
        refine ⟨hordered.mpr ?_, hapart.mpr fun k hk => (hloop k hk).2⟩
        intro k hk
        cases k with
        | zero => exact hgood
        | succ k => exact (hloop k hk).1
      · intro h k hk
        exact ⟨hordered.mp h.ordered (k + 1) hk, hapart.mp h.apart k hk⟩

/-! ## Linear constraints -/

/-- `ct.linear()`: the message itself, or the default one when the constraint
is of another kind. -/
def linearOf (ct : ConstraintProto) : LinearConstraintProto :=
  match ct.constraint with
  | some (.linear arg) => arg
  | _ => {}

def kint64min : Int64 := Int64.minValue

def kint64max : Int64 := Int64.maxValue

def CapAdd (x y : Int64) : Int64 := clampToInt64 (x.toInt + y.toInt)

def CapProd (x y : Int64) : Int64 := clampToInt64 (x.toInt * y.toInt)

/-- Whether a saturated result may have been cut off. -/
def AtMinOrMaxInt64 (x : Int64) : Bool := x = kint64min || x = kint64max

/-- The least and the greatest a part of the sum can come to. -/
structure LinearOverflowChecker where
  sum_min : Int64 := 0
  sum_max : Int64 := 0

/-- Adds `coeff * X` for `X` in `[min_domain, max_domain]`; the answer is
whether the sums still satisfy the overflow precondition. -/
def LinearOverflowChecker.AddTerm (c : LinearOverflowChecker)
    (coeff min_domain max_domain : Int64) : Bool × LinearOverflowChecker :=
  if coeff = kint64min then (false, c)
  else
    let prod1 := CapProd min_domain coeff
    let prod2 := CapProd max_domain coeff
    if AtMinOrMaxInt64 prod1 then (false, c)
    else if AtMinOrMaxInt64 prod2 then (false, c)
    else
      let c : LinearOverflowChecker :=
        { sum_min := CapAdd c.sum_min (min 0 (min prod1 prod2))
          sum_max := CapAdd c.sum_max (max 0 (max prod1 prod2)) }
      (c.sum_min ≥ -kint64max / 2 && c.sum_max ≤ kint64max / 2, c)

/-- The loop over the terms of the expression. -/
def termsOverflow (model : CpModelProto) :
    List (Int32 × Int64) → LinearOverflowChecker → Bool
  | [], _ => false
  | (ref, coeff) :: rest, c =>
    let domain := (model.«variables»[ref.toInt.toNat]?.getD {}).domain
    let (fits, c) := c.AddTerm coeff domain[0]! domain[domain.size - 1]!
    if !fits then true else termsOverflow model rest c

/-- The absolute value of the offset counts on both sides. -/
def PossibleIntegerOverflow (model : CpModelProto) (vars : Array Int32)
    (coeffs : Array Int64) (offset : Int64 := 0) : Bool :=
  let offset := if offset < 0 then -offset else offset
  if offset > kint64max / 2 then true
  else termsOverflow model (vars.zip coeffs).toList { sum_min := -offset, sum_max := offset }

/-- The printers of the protobuf library, for the error texts. -/
structure DebugStrings where
  ProtobufShortDebugString : ConstraintProto → String
  ProtobufDebugString : ConstraintProto → String

/-- The first error text, or none. -/
def ValidateLinearConstraint (print : DebugStrings) (model : CpModelProto)
    (ct : ConstraintProto) : String :=
  let arg := linearOf ct
  if !DomainInProtoIsValid arg.domain then
    "Invalid domain in constraint : " ++ print.ProtobufShortDebugString ct
  else if arg.coeffs.size ≠ arg.vars.size then
    "coeffs_size() != vars_size() in constraint: " ++ print.ProtobufShortDebugString ct
  else if arg.vars.any fun var => !RefIsPositive var then
    "Invalid negated variable in linear constraint: " ++ print.ProtobufShortDebugString ct
  else if PossibleIntegerOverflow model arg.vars arg.coeffs then
    "Possible integer overflow in constraint: " ++ print.ProtobufDebugString ct
  else ""

/-- What a linear constraint needs besides a valid domain. -/
def TermsAreValid (model : CpModelProto) (arg : LinearConstraintProto) : Prop :=
  arg.coeffs.size = arg.vars.size ∧ (∀ var ∈ arg.vars, RefIsPositive var = true) ∧
    PossibleIntegerOverflow model arg.vars arg.coeffs = false

/-- A check that answers with an error text passes exactly if its condition
fails and the later checks pass. -/
theorem errorText_eq_empty {c : Prop} [Decidable c] {text rest later : String}
    (h : text ≠ "") :
    (if c then text ++ rest else later) = "" ↔ ¬ c ∧ later = "" := by
  by_cases hc : c <;> simp [hc, h]

/-- A linear constraint is accepted exactly if its domain and its terms are. -/
theorem validateLinearConstraint_iff (print : DebugStrings) (model : CpModelProto)
    (ct : ConstraintProto) :
    ValidateLinearConstraint print model ct = "" ↔
      DomainInProtoIsValid (linearOf ct).domain = true ∧
        TermsAreValid model (linearOf ct) := by
  have hneg : (linearOf ct).vars.any (fun var => !RefIsPositive var) = true ↔
      ¬ ∀ var ∈ (linearOf ct).vars, RefIsPositive var = true := by
    rw [← Array.any_toList, List.any_eq_true]
    simp
  unfold ValidateLinearConstraint TermsAreValid
  dsimp only
  rw [errorText_eq_empty, errorText_eq_empty, errorText_eq_empty, errorText_eq_empty, hneg]
  · simp
  all_goals decide

/-! ## Solution hints -/

/-- Inserting the references one by one into a set of indices: the first one
already present, if any. -/
def firstDuplicate : List Int32 → List Int32 → Option Int32
  | _, [] => none
  | indices, var :: rest =>
    if PositiveRef var ∈ indices then some (PositiveRef var)
    else firstDuplicate (PositiveRef var :: indices) rest

/-- The first error text, or none. -/
def ValidateSolutionHint (model : CpModelProto) : String :=
  match model.solution_hint with
  | none => ""
  | some hint =>
    if hint.vars.size ≠ hint.values.size then
      "Invalid solution hint: vars and values do not have the same size."
    else
      match hint.vars.toList.find? fun var => !VariableIndexIsValid model var with
      | some var => "Invalid variable in solution hint: " ++ toString var
      | none =>
        -- Duplicates are rejected as a likely caller error.
        match firstDuplicate [] hint.vars.toList with
        | some index =>
          "The solution hint contains duplicate variables like the variable " ++
            "with index #" ++ toString index
        | none =>
          if hint.values.any fun value => value = kint64min || value = kint64max then
            "The solution hint cannot contains the INT_MIN or INT_MAX values."
          else ""

/-- What the validator asks of a hint. -/
structure HintIsValid (model : CpModelProto) (hint : PartialVariableAssignmentProto) :
    Prop where
  same_size : hint.vars.size = hint.values.size
  in_model : ∀ var ∈ hint.vars.toList, VariableIndexIsValid model var = true
  distinct : (hint.vars.toList.map PositiveRef).Nodup
  inner_values : ∀ value ∈ hint.values.toList, value ≠ kint64min ∧ value ≠ kint64max

/-- No duplicate is found exactly if the variables differ from each other and from
those seen before. -/
theorem firstDuplicate_eq_none {indices vars : List Int32} :
    firstDuplicate indices vars = none ↔
      (vars.map PositiveRef).Nodup ∧ ∀ index ∈ indices, index ∉ vars.map PositiveRef := by
  induction vars generalizing indices with
  | nil => simp [firstDuplicate]
  | cons var rest ih =>
      unfold firstDuplicate
      split
      · rename_i hmem
        simp only [reduceCtorEq, false_iff, not_and]
        intro _ hall
        exact hall _ hmem (by simp)
      · rename_i hmem
        rw [ih]
        simp only [List.map_cons, List.nodup_cons, List.mem_cons]
        grind

/-- **What the hint check accepts.** -/
theorem validateSolutionHint_iff (model : CpModelProto) :
    ValidateSolutionHint model = "" ↔
      ∀ hint, model.solution_hint = some hint → HintIsValid model hint := by
  unfold ValidateSolutionHint
  cases hhint : model.solution_hint with
  | none => simp
  | some hint =>
      have hvalid : HintIsValid model hint ↔
          hint.vars.size = hint.values.size ∧
          (∀ var ∈ hint.vars.toList, VariableIndexIsValid model var = true) ∧
          (hint.vars.toList.map PositiveRef).Nodup ∧
          ∀ value ∈ hint.values.toList, value ≠ kint64min ∧ value ≠ kint64max :=
        ⟨fun h => ⟨h.1, h.2, h.3, h.4⟩, fun h => ⟨h.1, h.2.1, h.2.2.1, h.2.2.2⟩⟩
      simp only [Option.some.injEq, forall_eq', hvalid]
      split
      · rename_i hsize
        exact iff_of_false (by decide) fun h => hsize h.1
      rename_i hsize
      cases hfind : hint.vars.toList.find? fun var => !VariableIndexIsValid model var with
      | some var =>
          have hmem := List.mem_of_find?_eq_some hfind
          have hbad := List.find?_some hfind
          simp only [Bool.not_eq_true'] at hbad
          refine iff_of_false (by simp [String.append_eq_empty_iff]) fun h => ?_
          rw [h.2.1 var hmem] at hbad
          cases hbad
      | none =>
          have hall : ∀ var ∈ hint.vars.toList, VariableIndexIsValid model var = true := by
            simpa using List.find?_eq_none.mp hfind
          have hdup := @firstDuplicate_eq_none [] hint.vars.toList
          cases hfirst : firstDuplicate [] hint.vars.toList with
          | some index =>
              simp only [hfirst, reduceCtorEq, List.not_mem_nil, false_implies,
                implies_true, and_true, false_iff] at hdup
              exact iff_of_false (by simp [String.append_eq_empty_iff]) fun h => hdup h.2.2.1
          | none =>
              have hnodup := (hdup.mp hfirst).1
              have hext : hint.values.any (fun v => v = kint64min || v = kint64max) = true ↔
                  ¬ ∀ v ∈ hint.values.toList, v ≠ kint64min ∧ v ≠ kint64max := by
                rw [← Array.any_toList, List.any_eq_true]
                push Not
                simp [or_iff_not_imp_left]
              dsimp only
              split
              · rename_i hbad
                exact iff_of_false (by decide) fun h => hext.mp hbad h.2.2.2
              · rename_i hgood
                refine iff_of_true rfl ⟨by simpa using hsize, hall, hnodup, ?_⟩
                by_contra hno
                exact hgood (hext.mpr hno)

end Cpsat.Checker
