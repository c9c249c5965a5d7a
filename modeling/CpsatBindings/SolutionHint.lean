import CpsatBindings.ModelChecker

/-!
# Solution hints

Hint calls only append to `ModelState.solutionHint`, with negated literals
resolved to their variables, so the message of a hinted model is the message
of the hintless one with `solution_hint` filled in (`hinted_proto`).

The validator asks more of a hint than that it name each variable once: it
also rejects a value at either end of the `int64` range.  For hints naming
distinct variables of the model that is the only thing that can go wrong
(`hints_harmless_iff`).
-/

namespace Cpsat.Proto

open Checker

/-- The two ways of offering a hint. -/
inductive HintCall where
  | solution (hints : Array (IntVar × Int64))
  | bool (hints : Array (BoolVar × Bool))

namespace HintCall

def call : HintCall → CpModelM Unit
  | solution hints => addSolutionHint hints
  | bool hints => addBoolSolutionHint hints

/-- The variable and value pairs a call stands for. -/
def resolved : HintCall → List (IntVar × Int64)
  | solution hints => hints.toList
  | bool hints => hints.toList.map fun h => h.1.hint h.2

/-- A call appends what it resolves to. -/
theorem after_call (c : HintCall) (s : ModelState) :
    after c.call s = { s with solutionHint := s.solutionHint ++ c.resolved.toArray } := by
  cases c with
  | solution hints => simp [call, resolved, after_addSolutionHint]
  | bool hints =>
      rw [call, after_addBoolSolutionHint]
      congr 2
      apply Array.ext'
      simp [resolved]

end HintCall

/-- A sequence of hint calls. -/
def offerHints (calls : List HintCall) (s : ModelState) : ModelState :=
  calls.foldl (fun s c => after c.call s) s

/-- Everything hinted: what the state already held and what the calls add. -/
def allHints (s : ModelState) (calls : List HintCall) : List (IntVar × Int64) :=
  s.solutionHint.toList ++ calls.flatMap HintCall.resolved

/-- All calls together append what they resolve to, in order. -/
theorem offerHints_eq (calls : List HintCall) (s : ModelState) :
    offerHints calls s = { s with solutionHint := (allHints s calls).toArray } := by
  induction calls generalizing s with
  | nil => simp [offerHints, allHints]
  | cons c rest ih =>
      change offerHints rest (after c.call s) = _
      rw [ih, HintCall.after_call]
      simp [allHints]

/-- The state without its hint. -/
def hintless (s : ModelState) : ModelState := { s with solutionHint := #[] }

/-- Hints change the message only in `solution_hint`. -/
theorem hinted_proto (calls : List HintCall) (s : ModelState) :
    { modelStateToProto (offerHints calls s) with solution_hint := none } =
      modelStateToProto (hintless s) := by
  rw [offerHints_eq]
  rfl

/-- The hint of the message: absent for no hints, else one entry for each. -/
theorem offered_hint (calls : List HintCall) (s : ModelState) :
    (modelStateToProto (offerHints calls s)).solution_hint =
      if allHints s calls = [] then none
      else some { vars := ((allHints s calls).map (varRef ·.1)).toArray
                  values := ((allHints s calls).map (·.2)).toArray } := by
  rw [offerHints_eq]
  simp [modelStateToProto]

/-! ## References of a small model -/

section References

variable {v w : IntVar}

/-- A narrowed reference is nonnegative, so it is its own positive reference. -/
theorem positiveRef_varRef (h : v.index < 2 ^ 31) : PositiveRef (varRef v) = varRef v := by
  have href := varRef_toInt h
  have hneg : (NegatedRef (varRef v)).toInt = -(varRef v).toInt - 1 := by
    unfold NegatedRef
    rw [Int32.toInt_sub, Int32.toInt_neg, Int.bmod_sub_bmod, Int32.toInt_one]
    exact Int.bmod_eq_of_le (by omega) (by omega)
  change (if varRef v ≤ NegatedRef (varRef v) then NegatedRef (varRef v) else varRef v) = _
  split
  · rename_i hle
    rw [Int32.le_iff_toInt_le, hneg, href] at hle
    omega
  · rfl

/-- Variables that can be referred to are told apart. -/
theorem varRef_injective (hv : v.index < 2 ^ 31) (hw : w.index < 2 ^ 31)
    (h : varRef v = varRef w) : v.index = w.index := by
  have hint := congrArg Int32.toInt h
  rw [varRef_toInt hv, varRef_toInt hw] at hint
  omega

/-- A reference to a variable of the model is valid. -/
theorem variableIndexIsValid_varRef {model : CpModelProto}
    (hsize : v.index < model.«variables».size) (h : v.index < 2 ^ 31) :
    VariableIndexIsValid model (varRef v) = true := by
  have href := varRef_toInt h
  simp only [VariableIndexIsValid, Bool.and_eq_true, decide_eq_true_eq, ge_iff_le,
    Int32.le_iff_toInt_le, href, Int32.toInt_zero]
  omega

end References

/-- Distinct variables keep distinct references. -/
theorem references_nodup {hints : List (IntVar × Int64)}
    (hsmall : ∀ h ∈ hints, h.1.index < 2 ^ 31)
    (hdistinct : (hints.map fun h => h.1.index).Nodup) :
    ((hints.map (varRef ·.1)).map PositiveRef).Nodup := by
  rw [List.map_map]
  have hpos : hints.map (PositiveRef ∘ fun h => varRef h.1) = hints.map (varRef ·.1) := by
    apply List.map_congr_left
    intro h hh
    exact positiveRef_varRef (hsmall h hh)
  rw [hpos]
  rw [List.Nodup, List.pairwise_map] at hdistinct ⊢
  apply List.Pairwise.imp_of_mem ?_ hdistinct
  intro a b ha hb hne heq
  exact hne (varRef_injective (hsmall a ha) (hsmall b hb) heq)

/-- A hint of the model spoils nothing: the message differs from the hintless
one in `solution_hint` alone, and passes the hint validation. -/
def HintsHarmless (s : ModelState) (calls : List HintCall) : Prop :=
  { modelStateToProto (offerHints calls s) with solution_hint := none } =
      modelStateToProto (hintless s) ∧
    ValidateSolutionHint (modelStateToProto (offerHints calls s)) = ""

/-- **When a hint is harmless.**  Over a built state with fewer than `2 ^ 31`
variables, hints naming each variable at most once, and only variables of the
model, are harmless exactly if no hinted value is an end of the `Int64`
range. -/
theorem hints_harmless_iff {s : ModelState} (hs : Built s)
    (hsize : s.varDomains.size < 2 ^ 31) (calls : List HintCall)
    (hmodel : ∀ h ∈ allHints s calls, h.1.index < s.varDomains.size)
    (hdistinct : ((allHints s calls).map fun h => h.1.index).Nodup) :
    HintsHarmless s calls ↔
      ∀ h ∈ allHints s calls, h.2 ≠ Int64.minValue ∧ h.2 ≠ Int64.maxValue := by
  have hvars : (modelStateToProto (offerHints calls s)).«variables».size =
      s.varDomains.size := by
    rw [offerHints_eq]
    change (modelStateToProto s).«variables».size = s.varDomains.size
    exact variables_size hs
  have hsmall : ∀ h ∈ allHints s calls, h.1.index < 2 ^ 31 := by
    intro h hh
    exact lt_trans (hmodel h hh) hsize
  rw [HintsHarmless, and_iff_right (hinted_proto calls s), validateSolutionHint_iff,
    offered_hint]
  by_cases hnil : allHints s calls = []
  · simp [hnil]
  · simp only [hnil, if_false, Option.some.injEq, forall_eq']
    constructor
    · intro hvalid h hh
      exact hvalid.inner_values h.2 (by simpa using ⟨h.1, hh⟩)
    · intro hinner
      refine ⟨by simp, ?_, references_nodup hsmall hdistinct, ?_⟩
      · intro ref href
        obtain ⟨h, hh, rfl⟩ := List.mem_map.mp href
        exact variableIndexIsValid_varRef (by rw [hvars]; exact hmodel h hh) (hsmall h hh)
      · intro value hvalue
        obtain ⟨h, hh, rfl⟩ := List.mem_map.mp hvalue
        exact hinner h hh

/-- One variable, hinted through a negated literal to an inner value. -/
theorem hints_harmless_bool :
    HintsHarmless (after (newIntVar (.ofInterval 0 1) "") {}) [.bool #[(⟨-1⟩, true)]] :=
  (hints_harmless_iff (.newIntVar _ _ .empty) (by decide) _ (by decide) (by decide)).mpr
    (by decide)

/-- One variable, hinted once, to `Int64.minValue`: the model is rejected. -/
theorem hint_minValue_rejected :
    ¬ HintsHarmless (after (newIntVar (.ofInterval 0 1) "") {})
      [.solution #[(⟨0⟩, Int64.minValue)]] := by
  intro h
  exact absurd h.2 (by decide +kernel)

end Cpsat.Proto
