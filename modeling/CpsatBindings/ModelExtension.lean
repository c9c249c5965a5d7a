import Mathlib.Logic.Relation
import CpsatBindings.ModelMeaning

/-!
# What later calls leave alone

A builder call hands out an index, and later calls and the response are read by
it.  `Extends s s'` is what a program that holds such indices relies on: the
variables keep their places and their domains, the constraints keep their places
and their kinds, and all that can happen to a constraint is that it gets more
enforcement literals.

* `extends_call`, `calls_extend` — every builder call extends the model, and so
  does every sequence of them.
* `solved_newIntVar`, `solved_onlyEnforceIf` — what a declaration and added
  literals ask of a solution.
* `solved_earlier` — a solution of the later model that makes the added literals
  true is a solution of the earlier one.
-/

namespace Cpsat

open scoped List

/-- One builder call takes `s` to `s'`. -/
inductive Call (s : ModelState) : ModelState → Prop
  | addConstraint (kind : ConstraintKind) (lits : Array BoolVar) (name : String) :
      Call s (after (addConstraint kind lits name) s)
  | onlyEnforceIf (c : Constraint) (lits : Array BoolVar) :
      Call s (after (c.onlyEnforceIf lits) s)
  | newIntVar (domain : Domain) (name : String) : Call s (after (newIntVar domain name) s)
  | minimize (expr : LinearExpr) : Call s (after (minimize expr) s)
  | maximize (expr : LinearExpr) : Call s (after (maximize expr) s)
  | markAssumption (b : BoolVar) : Call s (after (markAssumption b) s)
  | markAssumptions (bs : Array BoolVar) : Call s (after (markAssumptions bs) s)
  | addSolutionHint (hints : Array (IntVar × Int64)) : Call s (after (addSolutionHint hints) s)
  | setModelName (name : String) : Call s (after (setModelName name) s)

/-- The built states are what calls make of the empty model. -/
theorem built_iff_calls {s : ModelState} : Built s ↔ Relation.ReflTransGen Call {} s := by
  constructor
  · intro h
    induction h with
    | empty => exact .refl
    | setModelName name _ ih => exact ih.tail (.setModelName name)
    | newIntVar domain name _ ih => exact ih.tail (.newIntVar domain name)
    | addConstraint kind lits name _ ih => exact ih.tail (.addConstraint kind lits name)
    | onlyEnforceIf c lits _ ih => exact ih.tail (.onlyEnforceIf c lits)
    | minimize expr _ ih => exact ih.tail (.minimize expr)
    | maximize expr _ ih => exact ih.tail (.maximize expr)
    | markAssumption b _ ih => exact ih.tail (.markAssumption b)
    | markAssumptions bs _ ih => exact ih.tail (.markAssumptions bs)
    | addSolutionHint hints _ ih => exact ih.tail (.addSolutionHint hints)
  · intro h
    induction h with
    | refl => exact .empty
    | tail _ hcall ih =>
        cases hcall with
        | setModelName name => exact ih.setModelName name
        | newIntVar domain name => exact ih.newIntVar domain name
        | addConstraint kind lits name => exact ih.addConstraint kind lits name
        | onlyEnforceIf c lits => exact ih.onlyEnforceIf c lits
        | minimize expr => exact ih.minimize expr
        | maximize expr => exact ih.maximize expr
        | markAssumption b => exact ih.markAssumption b
        | markAssumptions bs => exact ih.markAssumptions bs
        | addSolutionHint hints => exact ih.addSolutionHint hints

/-- The constraint with more enforcement literals. -/
def ConstraintData.enforced (cd : ConstraintData) (lits : Array BoolVar) : ConstraintData :=
  { cd with enforcementLiterals := cd.enforcementLiterals ++ lits }

/-- `s'` keeps what indices into `s` refer to. -/
structure Extends (s s' : ModelState) : Prop where
  domains : s.varDomains.toList <+: s'.varDomains.toList
  names : s.varNames.toList <+: s'.varNames.toList
  constraints : ∀ (k : ℕ) (cd : ConstraintData), s.constraints[k]? = some cd →
    ∃ lits, s'.constraints[k]? = some (cd.enforced lits)
  assumptions : s.assumptions.toList <+: s'.assumptions.toList
  hints : s.solutionHint.toList <+: s'.solutionHint.toList

namespace Extends

/-- A model extends itself. -/
theorem refl (s : ModelState) : Extends s s where
  domains := List.prefix_refl _
  names := List.prefix_refl _
  constraints _ _ h := ⟨#[], by simpa [ConstraintData.enforced] using h⟩
  assumptions := List.prefix_refl _
  hints := List.prefix_refl _

/-- Extensions compose. -/
theorem trans {s t u : ModelState} (h : Extends s t) (h' : Extends t u) : Extends s u where
  domains := h.domains.trans h'.domains
  names := h.names.trans h'.names
  constraints k cd hcd := by
    obtain ⟨lits, hlits⟩ := h.constraints k cd hcd
    obtain ⟨lits', hlits'⟩ := h'.constraints k _ hlits
    refine ⟨lits ++ lits', hlits'.trans ?_⟩
    simp [ConstraintData.enforced, Array.append_assoc]
  assumptions := h.assumptions.trans h'.assumptions
  hints := h.hints.trans h'.hints

end Extends

/-- The constraint table after a call of `onlyEnforceIf`. -/
theorem constraints_onlyEnforceIf (c : Constraint) (lits : Array BoolVar) (s : ModelState) (k : ℕ) :
    (after (c.onlyEnforceIf lits) s).constraints[k]? =
      (s.constraints[k]?).map fun cd => if k = c.index then cd.enforced lits else cd := by
  rw [after_onlyEnforceIf]
  cases hc : s.constraints[c.index]? with
  | none =>
      by_cases hk : k = c.index
      · rw [hk, hc]
        rfl
      · simp [hk]
  | some cd =>
      obtain ⟨hlt, rfl⟩ := Array.getElem?_eq_some_iff.mp hc
      dsimp only
      rw [Array.set!_eq_setIfInBounds, Array.getElem?_setIfInBounds]
      by_cases hk : k = c.index
      · subst hk
        simp [hlt, ConstraintData.enforced]
      · rw [if_neg (Ne.symm hk)]
        simp [hk]

/-- Every builder call extends the model. -/
theorem extends_call {s s' : ModelState} (h : Call s s') : Extends s s' := by
  have hsame := Extends.refl s
  cases h with
  | setModelName | minimize | maximize => exact { hsame with }
  | newIntVar domain name =>
      have hdomains : s.varDomains.toList <+: (s.varDomains.push domain).toList := by simp
      have hnames : s.varNames.toList <+: (s.varNames.push name).toList := by simp
      exact { hsame with domains := hdomains, names := hnames }
  | addConstraint kind lits name =>
      refine { hsame with constraints := fun k cd hcd => ⟨#[], ?_⟩ }
      obtain ⟨hlt, rfl⟩ := Array.getElem?_eq_some_iff.mp hcd
      change (s.constraints.push _)[k]? = _
      rw [Array.getElem?_push_lt hlt]
      simp [ConstraintData.enforced]
  | onlyEnforceIf c lits =>
      have hrest : (after (c.onlyEnforceIf lits) s).varDomains = s.varDomains ∧
          (after (c.onlyEnforceIf lits) s).varNames = s.varNames ∧
          (after (c.onlyEnforceIf lits) s).assumptions = s.assumptions ∧
          (after (c.onlyEnforceIf lits) s).solutionHint = s.solutionHint := by
        rw [after_onlyEnforceIf]
        cases s.constraints[c.index]? <;> exact ⟨rfl, rfl, rfl, rfl⟩
      obtain ⟨hdomains, hnames, hassumptions, hhints⟩ := hrest
      refine ⟨hdomains.symm ▸ List.prefix_rfl, hnames.symm ▸ List.prefix_rfl, fun k cd hcd => ?_,
        hassumptions.symm ▸ List.prefix_rfl, hhints.symm ▸ List.prefix_rfl⟩
      rw [constraints_onlyEnforceIf, hcd, Option.map_some]
      by_cases hk : k = c.index
      · exact ⟨lits, by rw [if_pos hk]⟩
      · exact ⟨#[], by simp [hk, ConstraintData.enforced]⟩
  | markAssumption b =>
      have hassumptions : s.assumptions.toList <+: (s.assumptions.push b).toList := by simp
      exact { hsame with assumptions := hassumptions }
  | markAssumptions bs =>
      have hassumptions : s.assumptions.toList <+: (s.assumptions ++ bs).toList := by simp
      exact { hsame with assumptions := hassumptions }
  | addSolutionHint hints =>
      have hhints : s.solutionHint.toList <+: (s.solutionHint ++ hints).toList := by simp
      exact { hsame with hints := hhints }

/-- No sequence of calls takes back what an index refers to. -/
theorem calls_extend {s s' : ModelState} (h : Relation.ReflTransGen Call s s') :
    Extends s s' := by
  induction h with
  | refl => exact .refl s
  | tail _ hcall ih => exact ih.trans (extends_call hcall)

/-- **Handles stay good.**  Whatever calls follow, the variable of a handle keeps
its domain and its name, and the constraint of a handle its kind, its literals
and its name. -/
theorem handles_stay {s : ModelState} (hs : Built s) :
    (∀ (domain : Domain) (name : String) (s' : ModelState),
      Relation.ReflTransGen Call (after (newIntVar domain name) s) s' →
        s'.varDomains[((newIntVar domain name).run s).1.index]? = some domain ∧
          s'.varNames[((newIntVar domain name).run s).1.index]? = some name) ∧
      ∀ (kind : ConstraintKind) (lits : Array BoolVar) (name : String) (s' : ModelState),
        Relation.ReflTransGen Call (after (addConstraint kind lits name) s) s' →
          ∃ added, s'.constraints[((addConstraint kind lits name).run s).1.index]? =
            some ⟨kind, lits ++ added, name⟩ := by
  constructor
  · intro domain name s' h
    have hextends := calls_extend h
    rw [after_newIntVar] at hextends
    have hdomain : s.varDomains.size < (s.varDomains.push domain).toList.length := by simp
    have hname : s.varDomains.size < (s.varNames.push name).toList.length := by
      simp [hs.names_size]
    have hdomains := List.prefix_iff_getElem?.mp hextends.domains s.varDomains.size hdomain
    have hnames := List.prefix_iff_getElem?.mp hextends.names s.varDomains.size hname
    rw [Array.getElem?_toList] at hdomains hnames
    change s'.varDomains[s.varDomains.size]? = _ ∧ s'.varNames[s.varDomains.size]? = _
    refine ⟨hdomains.trans ?_, hnames.trans ?_⟩
    · simp
    · simp [← hs.names_size]
  · intro kind lits name s' h
    exact (calls_extend h).constraints s.constraints.size ⟨kind, lits, name⟩
      Array.getElem?_push_size

/-- The first variable after a second, and the first constraint after more literals. -/
theorem handles_stay_first :
    ((after (newIntVar (.single 1) "y")
        (after (newIntVar (.ofInterval 0 10) "x") {})).varDomains[0]? = some (.ofInterval 0 10) ∧
      (after (newIntVar (.single 1) "y")
        (after (newIntVar (.ofInterval 0 10) "x") {})).varNames[0]? = some "x") ∧
      ∃ added, (after (Constraint.onlyEnforceIf ⟨0⟩ #[⟨1⟩])
        (after (addConstraint (.boolOr #[⟨0⟩]) #[] "c") {})).constraints[0]? =
          some ⟨.boolOr #[⟨0⟩], #[] ++ added, "c"⟩ :=
  ⟨(handles_stay .empty).1 (.ofInterval 0 10) "x" _ (.single (.newIntVar _ _)),
    (handles_stay .empty).2 (.boolOr #[⟨0⟩]) #[] "c" _ (.single (.onlyEnforceIf _ _))⟩

/-! ## What each call asks of a solution -/

section Meaning

variable {a : ℕ → ℤ} {s : ModelState}

/-- A solution, variable by variable and constraint by constraint. -/
theorem solved_iff : s.Solved a ↔
    (∀ (i : ℕ) (d : Domain), s.varDomains[i]? = some d → d.Contains (a i)) ∧
      ∀ (k : ℕ) (cd : ConstraintData), s.constraints[k]? = some cd → cd.Holds a := by
  constructor
  · intro h
    refine ⟨fun i d hd => ?_, fun k cd hcd => ?_⟩
    · obtain ⟨hlt, rfl⟩ := Array.getElem?_eq_some_iff.mp hd
      exact h.domains i hlt
    · exact h.constraints cd (Array.mem_def.mp (Array.mem_of_getElem? hcd))
  · rintro ⟨hdomains, hconstraints⟩
    refine ⟨fun i hi => hdomains i _ (Array.getElem?_eq_getElem hi), fun cd hcd => ?_⟩
    obtain ⟨k, hk⟩ := Array.getElem?_of_mem (Array.mem_def.mpr hcd)
    exact hconstraints k cd hk

/-- A new variable is to be in its domain. -/
theorem solved_newIntVar (domain : Domain) (name : String) :
    (after (newIntVar domain name) s).Solved a ↔
      s.Solved a ∧ domain.Contains (a s.varDomains.size) := by
  rw [after_newIntVar, solved_iff, solved_iff]
  dsimp only
  constructor
  · rintro ⟨hdomains, hconstraints⟩
    refine ⟨⟨fun i d hd => hdomains i d ?_, hconstraints⟩,
      hdomains _ _ Array.getElem?_push_size⟩
    obtain ⟨hlt, rfl⟩ := Array.getElem?_eq_some_iff.mp hd
    rw [Array.getElem?_push_lt hlt]
  · rintro ⟨⟨hdomains, hconstraints⟩, hnew⟩
    refine ⟨fun i d hd => ?_, hconstraints⟩
    rw [Array.getElem?_push] at hd
    by_cases hi : i = s.varDomains.size
    · rw [if_pos hi] at hd
      obtain rfl := Option.some.inj hd
      rwa [hi]
    · rw [if_neg hi] at hd
      exact hdomains i d hd

/-- Added literals are one more condition on the constraint. -/
theorem holds_enforced (cd : ConstraintData) (lits : Array BoolVar) :
    (cd.enforced lits).Holds a ↔ ((∀ b ∈ lits.toList, b.Holds a) → cd.Holds a) := by
  unfold ConstraintData.Holds ConstraintData.enforced
  rw [Array.toList_append, List.forall_mem_append]
  constructor
  · intro h hlits hold
    exact h ⟨hold, hlits⟩
  · rintro h ⟨hold, hlits⟩
    exact h hlits hold

/-- The constraint is asked for only where the literals hold; the others are not
touched. -/
theorem solved_onlyEnforceIf (c : Constraint) (lits : Array BoolVar) :
    (after (c.onlyEnforceIf lits) s).Solved a ↔
      (∀ (i : ℕ) (d : Domain), s.varDomains[i]? = some d → d.Contains (a i)) ∧
        ∀ (k : ℕ) (cd : ConstraintData), s.constraints[k]? = some cd →
          (k = c.index → ∀ b ∈ lits.toList, b.Holds a) → cd.Holds a := by
  have hdomains : (after (c.onlyEnforceIf lits) s).varDomains = s.varDomains := by
    rw [after_onlyEnforceIf]
    cases s.constraints[c.index]? <;> rfl
  rw [solved_iff, hdomains]
  refine and_congr_right fun _ => forall_congr' fun k => ?_
  rw [constraints_onlyEnforceIf]
  cases hcd : s.constraints[k]? with
  | none => simp
  | some cd =>
      simp only [Option.map_some, Option.some.injEq, forall_eq']
      by_cases hk : k = c.index
      · rw [if_pos hk, holds_enforced]
        exact ⟨fun h hlits => h (hlits hk), fun h hlits => h fun _ => hlits⟩
      · rw [if_neg hk]
        exact ⟨fun h _ => h, fun h => h fun hk' => absurd hk' hk⟩

/-- The literals that have been added to a constraint of `s` hold. -/
def AddedHold (s s' : ModelState) (a : ℕ → ℤ) : Prop :=
  ∀ (k : ℕ) (cd : ConstraintData) (lits : Array BoolVar), s.constraints[k]? = some cd →
    s'.constraints[k]? = some (cd.enforced lits) → ∀ b ∈ lits.toList, b.Holds a

/-- **Later calls only ask for more.**  A solution of the later model is a
solution of the earlier one, if it makes the added literals true. -/
theorem solved_earlier {s' : ModelState} (h : Relation.ReflTransGen Call s s')
    (hadded : AddedHold s s' a) (hsolved : s'.Solved a) : s.Solved a := by
  have hextends := calls_extend h
  rw [solved_iff] at hsolved ⊢
  refine ⟨fun i d hd => hsolved.1 i d ?_, fun k cd hcd => ?_⟩
  · rw [← Array.getElem?_toList] at hd ⊢
    obtain ⟨hlt, rfl⟩ := List.getElem?_eq_some_iff.mp hd
    exact List.prefix_iff_getElem?.mp hextends.domains i hlt
  · obtain ⟨lits, hlits⟩ := hextends.constraints k cd hcd
    exact (holds_enforced cd lits).mp (hsolved.2 k _ hlits) (hadded k cd lits hcd hlits)

end Meaning

/-- `x` is true, and later that is asked for only where `y` is. -/
theorem solved_earlier_enforced :
    (after (addBoolOr #[⟨0⟩]) {}).Solved fun _ => 1 := by
  have hcalls : Relation.ReflTransGen Call (after (addBoolOr #[⟨0⟩]) {})
      (after (Constraint.onlyEnforceIf ⟨0⟩ #[⟨1⟩]) (after (addBoolOr #[⟨0⟩]) {})) :=
    .single (.onlyEnforceIf _ _)
  refine solved_earlier hcalls ?_ ?_
  · intro k cd lits hcd hlits b hb
    obtain rfl : k = 0 := Nat.lt_one_iff.mp (Array.getElem?_eq_some_iff.mp hcd).1
    rw [constraints_onlyEnforceIf, hcd] at hlits
    obtain rfl := Option.some.inj hcd
    have heq : (#[] ++ #[⟨1⟩] : Array BoolVar) = #[] ++ lits :=
      congrArg ConstraintData.enforcementLiterals (Option.some.inj hlits)
    rw [Array.empty_append, Array.empty_append] at heq
    rw [← heq] at hb
    obtain rfl := List.mem_singleton.mp hb
    rfl
  · refine ⟨fun i hi => absurd hi (Nat.not_lt_zero i), fun cd hcd => ?_⟩
    obtain rfl := List.mem_singleton.mp hcd
    exact fun _ => ⟨⟨0⟩, List.mem_singleton.mpr rfl, rfl⟩

end Cpsat
