import CpsatBindings.FlatDomains
import CpsatBindings.AcceptedExpressions

/-!
# Linear constraints made by the solver

Before it searches, the solver writes some constraints as linear ones, with
the helpers of `ortools/sat/cp_model_utils.cc`.  An enforced `at_most_one` or
`exactly_one` becomes a bound on a sum of literals, in which a negated literal
counts `1 - x` and moves its one into the bounds.  An expression is added to a
constraint term by term, and its offset moves the domain.

* `expanded_feasible` — the expansion accepts the same solutions.
* `safeAdd_feasible` — what the guarded addition accepts bounds the old sum
  plus the multiple of the expression.
* `safeAdd_agrees` — and it is what the unguarded addition makes.
-/

namespace Cpsat.Checker

open Cpsat.Proto Intervals SortedIntervalList

/-! ## The sum of a linear constraint -/

/-- The sum that a linear constraint bounds. -/
def linearSum (a : ℕ → ℤ) (arg : LinearConstraintProto) : ℤ :=
  ((arg.vars.zip arg.coeffs).toList.map (termValue a)).sum

section Sum

variable {values : Array Int64}

/-- A sum of products in words is the sum, wrapped once. -/
theorem foldl_terms (start : Int64) (terms : List (Int32 × Int64)) :
    (terms.foldl (fun sum t => sum + values[t.1.toInt.toNat]! * t.2) start).toInt =
      (start.toInt + (terms.map (termValue (assignment values))).sum).bmod (2 ^ 64) := by
  have hproduct : ∀ t : Int32 × Int64, (values[t.1.toInt.toNat]! * t.2).toInt =
      (termValue (assignment values) t).bmod (2 ^ 64) := by
    intro t
    rw [Int64.toInt_mul, Int.mul_comm]
    rfl
  have hstart : start.toInt.bmod (2 ^ 64) = start.toInt :=
    Int.bmod_eq_of_le (by exact start.le_toInt) (by exact start.toInt_lt)
  calc (terms.foldl (fun sum t => sum + values[t.1.toInt.toNat]! * t.2) start).toInt
      = terms.foldl (fun sum t => (sum + (values[t.1.toInt.toNat]! * t.2).toInt).bmod (2 ^ 64))
          (start.toInt.bmod (2 ^ 64)) := by
        rw [hstart]
        exact (List.foldl_hom Int64.toInt fun sum t => (Int64.toInt_add sum _).symm).symm
    _ = (start.toInt + (terms.map (termValue (assignment values))).sum).bmod (2 ^ 64) := by
        rw [Loops.foldl_wrapping_add _ _ hproduct]

/-- A sum that fits in a word is looked for in the domain. -/
theorem linearFeasible_iff {arg : LinearConstraintProto}
    (hlow : -2 ^ 63 ≤ linearSum (assignment values) arg)
    (hhigh : linearSum (assignment values) arg < 2 ^ 63) :
    LinearConstraintIsFeasible values arg = true ↔
      linearSum (assignment values) arg ∈ (ReadDomainFromProto arg.domain).Values := by
  have hsum := @foldl_terms values 0 (arg.vars.zip arg.coeffs).toList
  rw [Int64.toInt_zero, Int.zero_add, Int.bmod_eq_of_le (by exact hlow) (by exact hhigh)] at hsum
  rw [LinearConstraintIsFeasible]
  change _ ↔ Covers _ _
  rw [ReadDomainFromProto, covers_fromFlat, linearSum, ← hsum]
  constructor
  · intro h
    exact ⟨_, rfl, h⟩
  · rintro ⟨x, hx, h⟩
    rwa [← Int64.toInt.inj hx]

end Sum

/-! ## Literals -/

/-- One literal of the loop; the state is the message, `lb` and `ub`. -/
def addLiteral (s : LinearConstraintProto × Int64 × Int64) (lit : Int32) :
    LinearConstraintProto × Int64 × Int64 :=
  let (linear, lb, ub) := s
  if RefIsPositive lit then
    ({ linear with vars := linear.vars.push lit, coeffs := linear.coeffs.push 1 }, lb, ub)
  else
    ({ linear with vars := linear.vars.push (NegatedRef lit), coeffs := linear.coeffs.push (-1) },
      lb - 1, ub - 1)

/-- The number of literals that hold is between the bounds, as a constraint on their
variables. -/
def LiteralsToLinear (literals : Array Int32) (lb ub : Int64) : LinearConstraintProto :=
  let (linear, lb, ub) := literals.toList.foldl addLiteral ({}, lb, ub)
  { linear with domain := #[lb, ub] }

/-- For the two kinds it is called for. -/
def ExpandEnforcedAtMostOneOrExactlyOneConstraint (ct : ConstraintProto) : ConstraintProto :=
  if ct.enforcement_literal.isEmpty then ct
  else
    match ct.constraint with
    | some (.at_most_one arg) =>
      { ct with constraint := some (.linear (LiteralsToLinear arg.literals 0 1)) }
    | some (.exactly_one arg) =>
      { ct with constraint := some (.linear (LiteralsToLinear arg.literals 1 1)) }
    | _ => { ct with constraint := some (.linear (LiteralsToLinear #[] 1 1)) }

section Literals

variable {values : Array Int64}

/-- The variable of a literal is zero or one. -/
def LiteralIsBoolean (values : Array Int64) (lit : Int32) : Prop :=
  values[(if RefIsPositive lit then lit else NegatedRef lit).toInt.toNat]! ∈ [0, 1]

instance (values : Array Int64) (lit : Int32) : Decidable (LiteralIsBoolean values lit) :=
  inferInstanceAs (Decidable (_ ∈ _))

/-- Pushing a term adds it to the sum. -/
theorem linearSum_push {linear : LinearConstraintProto} (a : ℕ → ℤ)
    (hsizes : linear.vars.size = linear.coeffs.size) (var : Int32) (coeff : Int64) :
    linearSum a { linear with vars := linear.vars.push var, coeffs := linear.coeffs.push coeff } =
      linearSum a linear + termValue a (var, coeff) := by
  have hlength : linear.vars.toList.length = linear.coeffs.toList.length := hsizes
  simp only [linearSum, Array.toList_zip, Array.toList_push]
  rw [List.zip_append hlength]
  simp

/-- What the loop keeps: with every negated literal the sum and the bounds fall
behind the count by one. -/
structure Counted (values : Array Int64) (lits : List Int32) (lb ub : Int64)
    (s : LinearConstraintProto × Int64 × Int64) : Prop where
  sizes : s.1.vars.size = s.1.coeffs.size
  sum : linearSum (assignment values) s.1 = (lits.countP (LiteralIsTrue values) : ℤ) -
    lits.countP (!RefIsPositive ·)
  lower : s.2.1.toInt = lb.toInt - lits.countP (!RefIsPositive ·)
  upper : s.2.2.toInt = ub.toInt - lits.countP (!RefIsPositive ·)

/-- A positive literal is true if its variable is not zero. -/
theorem literalIsTrue_of_positive {lit : Int32} (hpos : RefIsPositive lit = true) :
    LiteralIsTrue values lit = (values[lit.toInt.toNat]! != 0) :=
  if_pos (of_decide_eq_true hpos)

/-- A negated one if it is. -/
theorem literalIsTrue_of_negated {lit : Int32} (hpos : RefIsPositive lit = false) :
    LiteralIsTrue values lit = (values[(NegatedRef lit).toInt.toNat]! == 0) :=
  if_neg (of_decide_eq_false hpos)

/-- One literal more: a negated one is moved into the bounds. -/
theorem counted_step {lits : List Int32} {lit : Int32} {lb ub : Int64}
    {s : LinearConstraintProto × Int64 × Int64} (h : Counted values lits lb ub s)
    (hlit : LiteralIsBoolean values lit) (hlb : -2 ^ 63 < lb.toInt - lits.length)
    (hub : -2 ^ 63 < ub.toInt - lits.length) :
    Counted values (lits ++ [lit]) lb ub (addLiteral s lit) := by
  obtain ⟨linear, l, u⟩ := s
  obtain ⟨hsizes, hsum, hlower, hupper⟩ := h
  have hnegated := @List.countP_le_length _ (!RefIsPositive ·) lits
  unfold LiteralIsBoolean at hlit
  unfold addLiteral
  dsimp only at hsizes hsum hlower hupper ⊢
  cases hpos : RefIsPositive lit with
  | true =>
      rw [hpos, if_pos rfl, List.mem_pair] at hlit
      rw [if_pos rfl]
      refine ⟨?_, ?_, ?_, ?_⟩
      · simp [hsizes]
      · rw [linearSum_push _ hsizes, hsum, List.countP_append, List.countP_append,
          List.countP_singleton, List.countP_singleton, literalIsTrue_of_positive hpos, hpos,
          termValue, assignment]
        dsimp only
        generalize values[lit.toInt.toNat]! = v at hlit
        rcases hlit with rfl | rfl
        · simp
        · simp
          omega
      · simp [List.countP_append, hpos, hlower]
      · simp [List.countP_append, hpos, hupper]
  | false =>
      rw [hpos, if_neg Bool.false_ne_true, List.mem_pair] at hlit
      rw [if_neg Bool.false_ne_true]
      refine ⟨?_, ?_, ?_, ?_⟩
      · simp [hsizes]
      · rw [linearSum_push _ hsizes, hsum, List.countP_append, List.countP_append,
          List.countP_singleton, List.countP_singleton, literalIsTrue_of_negated hpos, hpos,
          termValue, assignment]
        dsimp only
        generalize values[(NegatedRef lit).toInt.toNat]! = v at hlit
        rcases hlit with rfl | rfl
        · simp
        · simp
          omega
      · have hne : l ≠ kint64min := by
          rintro rfl
          have hmin : kint64min.toInt = -2 ^ 63 := rfl
          omega
        dsimp only
        rw [toInt_pred hne, hlower, List.countP_append, List.countP_singleton, hpos]
        simp
        omega
      · have hne : u ≠ kint64min := by
          rintro rfl
          have hmin : kint64min.toInt = -2 ^ 63 := rfl
          omega
        dsimp only
        rw [toInt_pred hne, hupper, List.countP_append, List.countP_singleton, hpos]
        simp
        omega

/-- The whole loop. -/
theorem counted_literals {lits : List Int32} {lb ub : Int64}
    (hlits : ∀ lit ∈ lits, LiteralIsBoolean values lit)
    (hlb : -2 ^ 63 ≤ lb.toInt - lits.length) (hub : -2 ^ 63 ≤ ub.toInt - lits.length) :
    Counted values lits lb ub (lits.foldl addLiteral ({}, lb, ub)) := by
  induction lits using List.reverseRecOn with
  | nil => exact ⟨rfl, by simp [linearSum], by simp, by simp⟩
  | append_singleton lits lit ih =>
      rw [List.length_append, List.length_singleton] at hlb hub
      rw [List.foldl_append]
      exact counted_step (ih (fun l hl => hlits l (List.mem_append_left _ hl)) (by omega) (by omega))
        (hlits lit (by simp)) (by omega) (by omega)

/-- A domain of one interval. -/
theorem mem_values_pair {lb ub : Int64} {x : ℤ} :
    x ∈ (ReadDomainFromProto #[lb, ub]).Values ↔ lb.toInt ≤ x ∧ x ≤ ub.toInt := by
  change Covers _ _ ↔ _
  rw [ReadDomainFromProto, covers_fromFlat]
  have hpair : ∀ value : Int64, DomainInProtoContains #[lb, ub] value = true ↔
      lb.toInt ≤ value.toInt ∧ value.toInt ≤ ub.toInt := by
    intro value
    rw [← Int64.le_iff_toInt_le, ← Int64.le_iff_toInt_le, ← ge_iff_le, ← @decide_eq_true_iff (_ ≥ _),
      ← @decide_eq_true_iff (value ≤ _), ← Bool.and_eq_true]
    simp [DomainInProtoContains]
  constructor
  · rintro ⟨value, rfl, hvalue⟩
    exact (hpair value).mp hvalue
  · rintro ⟨hlow, hhigh⟩
    have hmin := lb.le_toInt
    have hmax := ub.toInt_lt
    have hword : (Int64.ofInt x).toInt = x := Int64.toInt_ofInt_of_le (by omega) (by omega)
    refine ⟨Int64.ofInt x, hword, (hpair _).mpr ?_⟩
    rw [hword]
    exact ⟨hlow, hhigh⟩

/-- A linear constraint over literals bounds how many of them are true. -/
theorem literalsToLinear_feasible {literals : Array Int32} {lb ub : Int64}
    (hlits : ∀ lit ∈ literals.toList, LiteralIsBoolean values lit)
    (hsize : literals.size < 2 ^ 63) (hlb : -2 ^ 63 ≤ lb.toInt - literals.size)
    (hub : -2 ^ 63 ≤ ub.toInt - literals.size) :
    LinearConstraintIsFeasible values (LiteralsToLinear literals lb ub) = true ↔
      lb.toInt ≤ numTrueLiterals values literals ∧
        numTrueLiterals values literals ≤ ub.toInt := by
  have hcounted := counted_literals hlits hlb hub
  have htrue := @List.countP_le_length _ (LiteralIsTrue values) literals.toList
  have hnegated := @List.countP_le_length _ (!RefIsPositive ·) literals.toList
  have hlength : literals.toList.length = literals.size := rfl
  have hsum : linearSum (assignment values) (LiteralsToLinear literals lb ub) =
      literals.toList.countP (LiteralIsTrue values) -
        literals.toList.countP (!RefIsPositive ·) := hcounted.sum
  have hnum : numTrueLiterals values literals =
      literals.toList.countP (LiteralIsTrue values) := by
    rw [numTrueLiterals, Loops.foldl_count, Nat.zero_add]
  rw [linearFeasible_iff (by omega) (by omega), hsum, hnum]
  change _ ∈ (ReadDomainFromProto #[(literals.toList.foldl addLiteral ({}, lb, ub)).2.1,
    (literals.toList.foldl addLiteral ({}, lb, ub)).2.2]).Values ↔ _
  rw [mem_values_pair, hcounted.lower, hcounted.upper]
  omega

/-- **The expansion accepts the same solutions**, of those that give every
literal's variable zero or one. -/
theorem expanded_feasible {ct : ConstraintProto} {arg : BoolArgumentProto}
    (hkind : ct.constraint = some (.at_most_one arg) ∨ ct.constraint = some (.exactly_one arg))
    (hlits : ∀ lit ∈ arg.literals.toList, LiteralIsBoolean values lit)
    (hsize : arg.literals.size < 2 ^ 63) :
    ConstraintIsFeasible values (ExpandEnforcedAtMostOneOrExactlyOneConstraint ct) =
      ConstraintIsFeasible values ct := by
  unfold ExpandEnforcedAtMostOneOrExactlyOneConstraint
  split
  · rfl
  rcases hkind with hkind | hkind
  · have hcount := @literalsToLinear_feasible values arg.literals 0 1 hlits hsize
      (by rw [Int64.toInt_zero]; omega) (by rw [Int64.toInt_one]; omega)
    rw [Int64.toInt_zero, Int64.toInt_one] at hcount
    have hbody : LinearConstraintIsFeasible values (LiteralsToLinear arg.literals 0 1) =
        AtMostOneConstraintIsFeasible values arg := by
      rw [Bool.eq_iff_iff, hcount, AtMostOneConstraintIsFeasible, decide_eq_true_iff]
      omega
    rw [hkind]
    unfold ConstraintIsFeasible
    dsimp only
    rw [hkind, hbody]
    rfl
  · have hcount := @literalsToLinear_feasible values arg.literals 1 1 hlits hsize
      (by rw [Int64.toInt_one]; omega) (by rw [Int64.toInt_one]; omega)
    rw [Int64.toInt_one] at hcount
    have hbody : LinearConstraintIsFeasible values (LiteralsToLinear arg.literals 1 1) =
        ExactlyOneConstraintIsFeasible values arg := by
      rw [Bool.eq_iff_iff, hcount, ExactlyOneConstraintIsFeasible, beq_iff_eq]
      omega
    rw [hkind]
    unfold ConstraintIsFeasible
    dsimp only
    rw [hkind, hbody]
    rfl

/-- Two literals of one variable, of which exactly one is true. -/
theorem expanded_exactlyOne :
    ConstraintIsFeasible #[1] (ExpandEnforcedAtMostOneOrExactlyOneConstraint
        { enforcement_literal := #[0], constraint := some (.exactly_one { literals := #[0, -1] }) }) =
      ConstraintIsFeasible #[1]
        { enforcement_literal := #[0], constraint := some (.exactly_one { literals := #[0, -1] }) } :=
  expanded_feasible (Or.inr rfl) (by
    intro lit hlit
    rcases List.mem_pair.mp hlit with rfl | rfl
    · decide
    · decide) (by decide)

end Literals

/-! ## Expressions -/

/-- The multiples of the terms, with wrapping products. -/
def addTerms (coefficient : Int64) (terms : List (Int32 × Int64))
    (linear : LinearConstraintProto) : LinearConstraintProto :=
  terms.foldl (fun linear t =>
    { linear with
      vars := linear.vars.push t.1
      coeffs := linear.coeffs.push (t.2 * coefficient) }) linear

/-- The multiple of the offset is moved into the domain. -/
def AddLinearExpressionToLinearConstraint (expr : LinearExpressionProto) (coefficient : Int64)
    (linear : LinearConstraintProto) : LinearConstraintProto :=
  let linear := addTerms coefficient (expr.vars.zip expr.coeffs).toList linear
  let shift := coefficient * expr.offset
  if shift ≠ 0 then
    { linear with
      domain := FillDomainInProto
        ((ReadDomainFromProto linear.domain).AdditionWith (.ofValue (-shift))) }
  else linear

/-- The loop that gives up at the first product that saturates. -/
def safeAddTerms (coefficient : Int64) :
    List (Int32 × Int64) → LinearConstraintProto → Bool × LinearConstraintProto
  | [], linear => (true, linear)
  | t :: rest, linear =>
    let linear := { linear with vars := linear.vars.push t.1 }
    let prod := CapProd t.2 coefficient
    if AtMinOrMaxInt64 prod then (false, linear)
    else safeAddTerms coefficient rest { linear with coeffs := linear.coeffs.push prod }

/-- The same, given up at the first number that saturates; the message may then be
half done. -/
def SafeAddLinearExpressionToLinearConstraint (expr : LinearExpressionProto)
    (coefficient : Int64) (linear : LinearConstraintProto) : Bool × LinearConstraintProto :=
  let (added, linear) := safeAddTerms coefficient (expr.vars.zip expr.coeffs).toList linear
  if !added then (false, linear)
  else
    let shift := CapProd coefficient expr.offset
    if AtMinOrMaxInt64 shift then (false, linear)
    else
      let d := (ReadDomainFromProto linear.domain).AdditionWith (.ofValue (-shift))
      if AtMinOrMaxInt64 d.Min || AtMinOrMaxInt64 d.Max then (false, linear)
      else (true, { linear with domain := FillDomainInProto d })

section Expressions

variable {coefficient : Int64} {terms : List (Int32 × Int64)} {linear : LinearConstraintProto}

/-- A product that has not saturated is the product of the words. -/
theorem capProd_eq_mul {x y : Int64} (h : AtMinOrMaxInt64 (CapProd x y) = false) :
    CapProd x y = x * y ∧ (x * y).toInt = x.toInt * y.toInt := by
  obtain ⟨hlow, hhigh⟩ := (capProd_exact_iff x y).mp h
  have hexact : (x * y).toInt = x.toInt * y.toInt := by
    rw [Int64.toInt_mul]
    exact Int.bmod_eq_of_le (by omega) (by omega)
  exact ⟨Int64.toInt.inj ((capProd_exact h).trans hexact.symm), hexact⟩

/-- The guarded loop, when it does not give up. -/
theorem safeAddTerms_eq {linear' : LinearConstraintProto}
    (h : safeAddTerms coefficient terms linear = (true, linear')) :
    linear' = addTerms coefficient terms linear ∧
      ∀ t ∈ terms, (t.2 * coefficient).toInt = t.2.toInt * coefficient.toInt := by
  induction terms generalizing linear with
  | nil => exact ⟨(Prod.ext_iff.mp h).2.symm, by simp⟩
  | cons t rest ih =>
      unfold safeAddTerms at h
      dsimp only at h
      split at h
      · exact absurd (Prod.ext_iff.mp h).1 Bool.false_ne_true
      · rename_i hprod
        obtain ⟨hmul, hexact⟩ := capProd_eq_mul (Bool.eq_false_iff.mpr hprod)
        obtain ⟨heq, hrest⟩ := ih h
        rw [hmul] at heq
        exact ⟨heq, List.forall_mem_cons.mpr ⟨hexact, hrest⟩⟩

/-- The terms add up to the multiple of the expression's. -/
theorem linearSum_addTerms (a : ℕ → ℤ) (hsizes : linear.vars.size = linear.coeffs.size)
    (hexact : ∀ t ∈ terms, (t.2 * coefficient).toInt = t.2.toInt * coefficient.toInt) :
    linearSum a (addTerms coefficient terms linear) =
      linearSum a linear + coefficient.toInt * (terms.map (termValue a)).sum := by
  induction terms generalizing linear with
  | nil => simp [addTerms]
  | cons t rest ih =>
      obtain ⟨ht, hrest⟩ := List.forall_mem_cons.mp hexact
      have hterm : termValue a (t.1, t.2 * coefficient) = coefficient.toInt * termValue a t := by
        rw [termValue, termValue, ht, Int.mul_comm t.2.toInt, Int.mul_assoc]
      have hstep := @ih { linear with
        vars := linear.vars.push t.1, coeffs := linear.coeffs.push (t.2 * coefficient) }
        (by simp [hsizes]) hrest
      rw [linearSum_push _ hsizes, hterm] at hstep
      rw [List.map_cons, List.sum_cons, mul_add, ← Int.add_assoc, ← hstep]
      rfl

/-- Terms leave the domain. -/
theorem addTerms_domain : (addTerms coefficient terms linear).domain = linear.domain := by
  induction terms generalizing linear with
  | nil => rfl
  | cons t rest ih => exact ih

/-- One value is a domain in normal form. -/
theorem ofValue_normal (value : Int64) : (SortedIntervalList.ofValue value).Normal := by
  rw [SortedIntervalList.Normal, ofValue, IntervalsAreSortedAndNonAdjacent]
  exact decide_eq_true (Int64.le_refl _)

/-- Adding a domain of one value moves the values that stay in range. -/
theorem mem_shifted {d : SortedIntervalList} (hd : d.Normal) {shift : Int64}
    (hshift : shift ≠ kint64min) {x : ℤ} (hx : x ∈ Words) :
    x ∈ (d.AdditionWith (.ofValue (-shift))).Values ↔ x + shift.toInt ∈ d.Values := by
  have hvalue : ∀ z, z ∈ (SortedIntervalList.ofValue (-shift)).Values ↔ z = -shift.toInt := by
    intro z
    change Covers [((-shift).toInt, (-shift).toInt)] z ↔ _
    rw [toInt_neg_of_ne hshift]
    simp only [Covers, List.mem_singleton, exists_eq_left]
    omega
  rw [(addition_values hd (ofValue_normal _)).2]
  constructor
  · rintro ⟨-, y, hy, z, hz, rfl⟩
    rw [hvalue] at hz
    have heq : y + z + shift.toInt = y := by omega
    rwa [heq]
  · intro hmem
    exact ⟨hx, x + shift.toInt, hmem, -shift.toInt, (hvalue _).mpr rfl, by omega⟩

/-- Adding zero and writing the sum changes no valid list. -/
theorem fill_unmoved {flat : Array Int64} (h : DomainInProtoIsValid flat = true) :
    FillDomainInProto ((ReadDomainFromProto flat).AdditionWith (.ofValue (-0))) = flat := by
  have hnormal := read_normal flat
  have hsum := (addition_values hnormal (ofValue_normal (-0))).1
  have hsame : (ReadDomainFromProto flat).AdditionWith (.ofValue (-0)) =
      ReadDomainFromProto flat := by
    refine eq_of_values hsum hnormal (Set.ext fun x => ?_)
    have hmoved : x ∈ Words → _ := @mem_shifted _ hnormal 0 (by decide) x
    rw [Int64.toInt_zero, Int.add_zero] at hmoved
    constructor
    · intro hx
      exact (hmoved (values_subset hx)).mp hx
    · intro hx
      exact (hmoved (values_subset hx)).mpr hx
  rw [hsame, fill_read h]

section Added

variable {values : Array Int64} {expr : LinearExpressionProto}

/-- The sum and the domain after the addition. -/
theorem added_sum (a : ℕ → ℤ) (hsizes : linear.vars.size = linear.coeffs.size)
    (hexact : ∀ t ∈ (expr.vars.zip expr.coeffs).toList,
      (t.2 * coefficient).toInt = t.2.toInt * coefficient.toInt) :
    linearSum a (AddLinearExpressionToLinearConstraint expr coefficient linear) =
      linearSum a linear +
        coefficient.toInt * ((expr.vars.zip expr.coeffs).toList.map (termValue a)).sum := by
  rw [← linearSum_addTerms a hsizes hexact]
  unfold AddLinearExpressionToLinearConstraint
  dsimp only
  split <;> rfl

/-- The new domain is the old one, moved. -/
theorem mem_added_domain (hshift : coefficient * expr.offset ≠ kint64min) {x : ℤ}
    (hx : x ∈ Words) :
    x ∈ (ReadDomainFromProto
        (AddLinearExpressionToLinearConstraint expr coefficient linear).domain).Values ↔
      x + (coefficient * expr.offset).toInt ∈ (ReadDomainFromProto linear.domain).Values := by
  unfold AddLinearExpressionToLinearConstraint
  dsimp only
  rw [← @addTerms_domain coefficient (expr.vars.zip expr.coeffs).toList linear]
  split
  · have hnormal := read_normal
      (addTerms coefficient (expr.vars.zip expr.coeffs).toList linear).domain
    rw [read_fill (addition_values hnormal (ofValue_normal _)).1]
    exact mem_shifted hnormal hshift hx
  · rename_i hzero
    rw [not_not.mp hzero, Int64.toInt_zero, Int.add_zero]

/-- Where no product overflows, the added expression counts in full. -/
theorem added_feasible (hsizes : linear.vars.size = linear.coeffs.size)
    (hexact : ∀ t ∈ (expr.vars.zip expr.coeffs).toList,
      (t.2 * coefficient).toInt = t.2.toInt * coefficient.toInt)
    (hoffset : (coefficient * expr.offset).toInt = coefficient.toInt * expr.offset.toInt)
    (hshift : coefficient * expr.offset ≠ kint64min)
    (hfits : linearSum (assignment values)
      (AddLinearExpressionToLinearConstraint expr coefficient linear) ∈ Words) :
    LinearConstraintIsFeasible values
        (AddLinearExpressionToLinearConstraint expr coefficient linear) = true ↔
      linearSum (assignment values) linear +
          coefficient.toInt * expressionEval (assignment values) expr ∈
        (ReadDomainFromProto linear.domain).Values := by
  rw [linearFeasible_iff hfits.1 (Int.lt_of_le_sub_one hfits.2), mem_added_domain hshift hfits,
    added_sum _ hsizes hexact, hoffset, expressionEval, mul_add, Int.add_assoc,
    Int.add_comm (coefficient.toInt * _)]

/-- **The guarded addition.**  When it succeeds it has made what the unguarded
one makes, and the result bounds the old sum plus the multiple of the
expression. -/
theorem safeAdd_exact {linear' : LinearConstraintProto}
    (hsizes : linear.vars.size = linear.coeffs.size)
    (hvalid : DomainInProtoIsValid linear.domain = true)
    (h : SafeAddLinearExpressionToLinearConstraint expr coefficient linear = (true, linear'))
    (hfits : linearSum (assignment values) linear' ∈ Words) :
    linear' = AddLinearExpressionToLinearConstraint expr coefficient linear ∧
      (LinearConstraintIsFeasible values linear' = true ↔
        linearSum (assignment values) linear +
            coefficient.toInt * expressionEval (assignment values) expr ∈
          (ReadDomainFromProto linear.domain).Values) := by
  cases hterms : safeAddTerms coefficient (expr.vars.zip expr.coeffs).toList linear with
  | mk added linear₁ =>
      unfold SafeAddLinearExpressionToLinearConstraint at h
      rw [hterms] at h
      dsimp only at h
      split at h
      · exact absurd (Prod.ext_iff.mp h).1 Bool.false_ne_true
      rename_i hadded
      split at h
      · exact absurd (Prod.ext_iff.mp h).1 Bool.false_ne_true
      rename_i hprod
      split at h
      · exact absurd (Prod.ext_iff.mp h).1 Bool.false_ne_true
      rw [Bool.not_eq_true, Bool.not_eq_false'] at hadded
      rw [hadded] at hterms
      obtain ⟨rfl, hexact⟩ := safeAddTerms_eq hterms
      obtain ⟨hmul, hoffset⟩ := capProd_eq_mul (Bool.eq_false_iff.mpr hprod)
      have hshift : coefficient * expr.offset ≠ kint64min := by
        intro hmin
        rw [hmul, hmin] at hprod
        exact hprod rfl
      have heq : linear' = AddLinearExpressionToLinearConstraint expr coefficient linear := by
        refine (Prod.ext_iff.mp h).2.symm.trans ?_
        rw [hmul]
        unfold AddLinearExpressionToLinearConstraint
        dsimp only
        split
        · rfl
        · rename_i hzero
          rw [not_not.mp hzero, fill_unmoved (by rw [addTerms_domain]; exact hvalid)]
      subst heq
      exact ⟨rfl, added_feasible hsizes hexact hoffset hshift hfits⟩

/-- `x - (2 y + 3)` in `[0, 10]` less `3`. -/
theorem safeAdd_exact_minus :
    (SafeAddLinearExpressionToLinearConstraint { vars := #[1], coeffs := #[2], offset := 3 } (-1)
        { vars := #[0], coeffs := #[1], domain := #[0, 10] }).2 =
      AddLinearExpressionToLinearConstraint { vars := #[1], coeffs := #[2], offset := 3 } (-1)
        { vars := #[0], coeffs := #[1], domain := #[0, 10] } :=
  (@safeAdd_exact (-1) { vars := #[0], coeffs := #[1], domain := #[0, 10] } #[7, 1]
    { vars := #[1], coeffs := #[2], offset := 3 } _ rfl (by decide)
    (Prod.ext (by decide +kernel) rfl) ⟨by decide +kernel, by decide +kernel⟩).1

end Added

end Expressions

end Cpsat.Checker
