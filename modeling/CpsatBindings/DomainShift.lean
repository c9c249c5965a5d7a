import CpsatBindings.ModelChecker

/-!
# Folding a constant into a domain

A linear constraint loses its constant on the way to the wire: the domain is
moved by it instead, each endpoint clamped into the `Int64` range on its own.
Moving keeps a domain well formed, clamping does not.  Two intervals pushed
beyond the same end of the range meet there, and the receiving validator
rejects the whole model.

`RoomForShift` says exactly when that does not happen.  One interval always
has room, so `addEquality`, `addLessOrEqual` and `addGreaterOrEqual` are safe
for every constant; `addNotEqual` makes two intervals, and fails for the two
smallest differences of constants.
-/

namespace Cpsat.Proto

open Intervals Checker

/-- Every two consecutive intervals have room to be moved by `-c`: the earlier
one ends at least two below `Int64.maxValue`, the later one begins at least
two above `Int64.minValue`. -/
def RoomForShift (d : Domain) (c : Int64) : Prop :=
  (domainEnds d).IsChain fun i j =>
    i.2 - c.toInt + 2 ≤ Int64.maxValue.toInt ∧ Int64.minValue.toInt + 2 ≤ j.1 - c.toInt

/-- Room for the shift is room for the clamping after the translation. -/
theorem roomForShift_iff (d : Domain) (c : Int64) :
    RoomForShift d c ↔
      ((domainEnds d).map (onEnds (· + -c.toInt))).IsChain
        (RoomBetween Int64.minValue.toInt Int64.maxValue.toInt) := by
  rw [List.isChain_map]
  apply List.IsChain.iff
  intro i j
  simp only [RoomBetween, onEnds, Int.sub_eq_add_neg]

/-- A well-formed domain stays well formed exactly if it has room. -/
theorem shiftDomain_separated_iff {d : Domain} (c : Int64)
    (h : Separated (domainEnds d)) :
    Separated (domainEnds (shiftDomain d c)) ↔ RoomForShift d c := by
  have hmoved : Separated ((domainEnds d).map (onEnds (· + -c.toInt))) :=
    (separated_translate_iff _ _).mpr h
  rw [shiftDomain_ends, roomForShift_iff]
  exact hmoved.clamp_iff (by decide)

/-- The shifted domain means what the constant meant: strictly inside the
range, a sum is in it exactly if the sum plus the constant is in the original
one. -/
theorem shiftDomain_covers_iff (d : Domain) (c : Int64) {x : ℤ}
    (hmin : Int64.minValue.toInt < x) (hmax : x < Int64.maxValue.toInt) :
    Covers (domainEnds (shiftDomain d c)) x ↔ Covers (domainEnds d) (x + c.toInt) := by
  rw [shiftDomain_ends, covers_clamp_iff _ hmin hmax, covers_translate_iff]
  simp

/-! ## The constraints the builder makes -/

/-- The message of the constraint a builder call has just added. -/
def emitted (call : CpModelM Constraint) (s : ModelState) : ConstraintProto :=
  constraintDataToProto (after call s).constraints.back!

/-- The message of a linear constraint has the domain shifted by its constant. -/
theorem emitted_addLinearConstraint (expr : LinearExpr) (d : Domain) (s : ModelState) :
    (linearOf (emitted (addLinearConstraint expr d) s)).domain =
      domainToFlatArray (shiftDomain d expr.constant) := by
  have hback : (after (addLinearConstraint expr d) s).constraints.back! =
      { kind := .linear expr d } := by
    change (s.constraints.push _).back! = _
    simp
  rw [emitted, hback]
  rfl

/-- The wire constant of a difference, when it fits. -/
theorem sub_constant_toInt {lhs rhs : LinearExpr}
    (hmin : -2 ^ 63 ≤ lhs.constant.toInt - rhs.constant.toInt)
    (hmax : lhs.constant.toInt - rhs.constant.toInt < 2 ^ 63) :
    (lhs - rhs).constant.toInt = lhs.constant.toInt - rhs.constant.toInt := by
  rw [LinearExpr.sub_constant, Int64.toInt_add, Int64.toInt_neg, Int.add_bmod_bmod,
    ← Int.sub_eq_add_neg]
  exact Int.bmod_eq_of_le (by omega) (by omega)

/-- One interval always has room. -/
theorem roomForShift_ofInterval (lo hi c : Int64) : RoomForShift (.ofInterval lo hi) c := by
  simp [RoomForShift, domainEnds, Domain.ofInterval]

/-- An interval that is not empty is separated. -/
theorem separated_ofInterval {lo hi : Int64} (h : lo.toInt ≤ hi.toInt) :
    Separated (domainEnds (.ofInterval lo hi)) :=
  separated_singleton h

theorem separated_excluding_zero : Separated (domainEnds (.excluding 0)) := by
  change Separated [((_ : ℤ), (_ : ℤ)), ((_ : ℤ), (_ : ℤ))]
  rw [separated_pair]
  decide

/-- The two intervals of `≠ 0` have room unless the constant is one of the two
smallest. -/
theorem roomForShift_excluding_zero (c : Int64) :
    RoomForShift (.excluding 0) c ↔ -2 ^ 63 + 2 ≤ c.toInt := by
  have hlt := c.toInt_lt
  have hpair : RoomForShift (.excluding 0) c ↔
      (-1 : ℤ) - c.toInt + 2 ≤ 2 ^ 63 - 1 ∧ -2 ^ 63 + 2 ≤ (1 : ℤ) - c.toInt := by
    change List.IsChain _ [((_ : ℤ), (-1 : ℤ)), ((1 : ℤ), (_ : ℤ))] ↔ _
    rw [List.isChain_pair]
    rfl
  rw [hpair]
  omega

/-- The property at stake: the wire domain of a builder call is accepted. -/
def DomainAccepted (call : CpModelM Constraint) (s : ModelState) : Prop :=
  DomainInProtoIsValid (linearOf (emitted call s)).domain = true

/-- A linear constraint over a well-formed domain is accepted exactly if its
domain has room for its constant. -/
theorem domainAccepted_iff {expr : LinearExpr} {d : Domain} (s : ModelState)
    (h : Separated (domainEnds d)) :
    DomainAccepted (addLinearConstraint expr d) s ↔ RoomForShift d expr.constant := by
  rw [DomainAccepted, emitted_addLinearConstraint, domainInProtoIsValid_iff,
    shiftDomain_separated_iff _ h]

/-- **Shifting a well-formed domain.**  The emitted domain is well formed
exactly if every two consecutive intervals have room for the shift, and only
then is a constraint with valid terms accepted.  The one-interval builders
always have room; `addNotEqual` has it unless the difference of the constants
is one of the two smallest. -/
theorem shiftDomain_valid_iff {d : Domain} (c : Int64) (h : Separated (domainEnds d)) :
    (DomainInProtoIsValid (domainToFlatArray (shiftDomain d c)) = true ↔ RoomForShift d c) ∧
    (∀ (print : DebugStrings) (model : CpModelProto) (cd : ConstraintData)
        (expr : LinearExpr), cd.kind = .linear expr d → expr.constant = c →
      TermsAreValid model (linearOf (constraintDataToProto cd)) →
      (ValidateLinearConstraint print model (constraintDataToProto cd) = "" ↔
        RoomForShift d c)) ∧
    ∀ (lhs rhs : LinearExpr) (s : ModelState),
      -2 ^ 63 ≤ lhs.constant.toInt - rhs.constant.toInt →
      lhs.constant.toInt - rhs.constant.toInt < 2 ^ 63 →
      DomainAccepted (addEquality lhs rhs) s ∧
      DomainAccepted (addLessOrEqual lhs rhs) s ∧
      DomainAccepted (addGreaterOrEqual lhs rhs) s ∧
      (DomainAccepted (addNotEqual lhs rhs) s ↔
        lhs.constant.toInt - rhs.constant.toInt ≠ -2 ^ 63 ∧
        lhs.constant.toInt - rhs.constant.toInt ≠ -2 ^ 63 + 1) := by
  have hvalid : DomainInProtoIsValid (domainToFlatArray (shiftDomain d c)) = true ↔
      RoomForShift d c := by
    rw [domainInProtoIsValid_iff, shiftDomain_separated_iff c h]
  refine ⟨hvalid, ?_, ?_⟩
  · intro print model cd expr hkind hconst hterms
    have hdomain : (linearOf (constraintDataToProto cd)).domain =
        domainToFlatArray (shiftDomain d c) := by
      rw [← hconst]
      simp [linearOf, constraintDataToProto, hkind, constraintKindToProto]
    rw [validateLinearConstraint_iff, hdomain, hvalid]
    exact and_iff_left hterms
  · intro lhs rhs s hmin hmax
    refine ⟨?_, ?_, ?_, ?_⟩
    · exact (domainAccepted_iff s (separated_ofInterval (le_refl _))).mpr
        (roomForShift_ofInterval _ _ _)
    · exact (domainAccepted_iff s (separated_ofInterval (by decide))).mpr
        (roomForShift_ofInterval _ _ _)
    · exact (domainAccepted_iff s (separated_ofInterval (by decide))).mpr
        (roomForShift_ofInterval _ _ _)
    · have hroom := @domainAccepted_iff (lhs - rhs) _ s separated_excluding_zero
      rw [addNotEqual, hroom, roomForShift_excluding_zero, sub_constant_toInt hmin hmax]
      omega

/-- At an inner constant the shifted `≠ 0` is accepted. -/
theorem shiftDomain_valid_five :
    DomainInProtoIsValid (domainToFlatArray (shiftDomain (.excluding 0) 5)) = true :=
  (shiftDomain_valid_iff 5 separated_excluding_zero).1.mpr
    ((roomForShift_excluding_zero 5).mpr (by decide))

/-- `x + (-2 ^ 63 + 1) ≠ 0`, that is `x ≠ 2 ^ 63 - 1`, becomes
`[-1, 2 ^ 63 - 2] ∪ [2 ^ 63 - 1, 2 ^ 63 - 1]`: two adjacent intervals. -/
theorem addNotEqual_smallest_rejected :
    Separated (domainEnds (.excluding 0)) ∧
    domainToFlatArray (shiftDomain (.excluding 0) (Int64.minValue + 1)) =
      #[-1, Int64.maxValue - 1, Int64.maxValue, Int64.maxValue] ∧
    ¬ DomainAccepted
      (addNotEqual (.ofIntVar ⟨0⟩ + .const (Int64.minValue + 1)) (.const 0)) {} := by
  refine ⟨separated_excluding_zero, by decide +kernel, ?_⟩
  unfold DomainAccepted
  decide +kernel

end Cpsat.Proto
