import Mathlib.Data.List.Induction
import Mathlib.Algebra.GroupWithZero.Nat
import Mathlib.Algebra.Order.Group.Nat
import Mathlib.Algebra.BigOperators.Group.List.Basic

/-!
# Guarded machines and their runs

A concurrent program whose critical sections are taken one at a time is a
machine: a state, a guard saying which events may happen in it, and the state
each event leads to.  An interleaving is then a run, recorded as the list of
its events.

This file is about machines in general.

* `Path`, `Run` — finite executions with their event lists; they split,
  compose and are deterministic in their events.
* `Path.keeps`, `Run.holds` — the invariant rules, over states and over a
  state together with its history.
* `everyState_iff_everyStep` — the *exactness* rule: when a safety property
  survives a step exactly if that step meets a condition, it holds all along a
  run exactly if every step of the run meets the condition.
* `Reachable.project` — projection of a run onto the run of a component.
* `Path.length_le` — a measure bounds the length of every path.
* `exec` — the executable form, for running a machine on a given schedule.
-/

/-- A machine: an initial state, a guard, and the effect of each event. -/
structure Machine (σ ε : Type*) where
  init : σ
  enabled : σ → ε → Prop
  next : σ → ε → σ

namespace Machine

variable {σ ε τ δ : Type*} (M : Machine σ ε)

/-- `M.Path s tr t`: from `s` the events `tr`, each enabled in its turn, lead
to `t`.  Paths grow at the end, the way a history does. -/
inductive Path (s : σ) : List ε → σ → Prop
  | nil : Path s [] s
  | snoc {tr : List ε} {m : σ} {e : ε}
      (before : Path s tr m) (guard : M.enabled m e) :
      Path s (tr ++ [e]) (M.next m e)

/-- A run is a path from the initial state. -/
abbrev Run (tr : List ε) (s : σ) : Prop := M.Path M.init tr s

/-- A state some run ends in. -/
def Reachable (s : σ) : Prop := ∃ tr, M.Run tr s

variable {M}

/-- One enabled event is a path. -/
theorem Path.single {s : σ} {e : ε} (h : M.enabled s e) :
    M.Path s [e] (M.next s e) :=
  Path.snoc Path.nil h

/-- Paths compose. -/
theorem Path.append {s m t : σ} {left right : List ε}
    (hleft : M.Path s left m) (hright : M.Path m right t) :
    M.Path s (left ++ right) t := by
  induction hright with
  | nil => simpa using hleft
  | snoc _ guard ih => simpa using Path.snoc ih guard

/-- A path starting with one enabled event. -/
theorem Path.cons {s t : σ} {e : ε} {tr : List ε}
    (h : M.enabled s e) (rest : M.Path (M.next s e) tr t) :
    M.Path s (e :: tr) t :=
  (Path.single h).append rest

/-- A path over an append passes through an intermediate state. -/
theorem Path.split {s t : σ} {left right : List ε}
    (h : M.Path s (left ++ right) t) :
    ∃ m, M.Path s left m ∧ M.Path m right t := by
  induction right using List.reverseRecOn generalizing t with
  | nil => exact ⟨t, by simpa using h, Path.nil⟩
  | append_singleton right e ih =>
      rw [← List.append_assoc] at h
      generalize hfull : left ++ right ++ [e] = full at h
      cases h with
      | nil => simp at hfull
      | snoc before guard =>
          obtain ⟨htr, he⟩ := List.append_inj' hfull rfl
          obtain rfl : e = _ := List.singleton_inj.mp he
          subst htr
          obtain ⟨m, hleft, hright⟩ := ih before
          exact ⟨m, hleft, hright.snoc guard⟩

/-- The event list of a path determines its end. -/
theorem Path.unique {s t u : σ} {tr : List ε}
    (h : M.Path s tr t) (h' : M.Path s tr u) : t = u := by
  induction h generalizing u with
  | nil =>
      generalize hnil : ([] : List ε) = tr at h'
      cases h' with
      | nil => rfl
      | snoc _ _ => simp at hnil
  | @snoc tr m e _ _ ih =>
      generalize hfull : tr ++ [e] = full at h'
      cases h' with
      | nil => simp at hfull
      | snoc before' _ =>
          obtain ⟨htr, he⟩ := List.append_inj' hfull rfl
          obtain rfl : e = _ := List.singleton_inj.mp he
          subst htr
          rw [ih before']

/-- The last step of a path, with the path before it. -/
theorem Path.last_step {s t : σ} {tr : List ε} {e : ε}
    (h : M.Path s (tr ++ [e]) t) :
    ∃ m, M.Path s tr m ∧ M.enabled m e ∧ t = M.next m e := by
  obtain ⟨m, hm, hlast⟩ := h.split
  obtain ⟨m', hm', hguard, ht⟩ : ∃ m', m' = m ∧ M.enabled m' e ∧ t = M.next m' e := by
    generalize hfull : [e] = full at hlast
    cases hlast with
    | nil => simp at hfull
    | @snoc tr' m' e' before guard =>
        cases tr' with
        | nil =>
            obtain rfl : e = e' := by simpa using hfull
            exact ⟨m', before.unique Path.nil, guard, rfl⟩
        | cons _ _ => simp at hfull
  subst hm'
  exact ⟨m', hm, hguard, ht⟩

/-- The step of a path at a named event. -/
theorem Path.step_at {s t : σ} {before after : List ε} {e : ε}
    (h : M.Path s (before ++ e :: after) t) :
    ∃ m, M.Path s before m ∧ M.enabled m e ∧ M.Path (M.next m e) after t := by
  rw [List.append_cons] at h
  obtain ⟨u, hfirst, hrest⟩ := h.split
  obtain ⟨m, hm, hguard, rfl⟩ := hfirst.last_step
  exact ⟨m, hm, hguard, hrest⟩

/-! ## Invariants -/

/-- **Invariant rule.**  What every step keeps, every path keeps. -/
theorem Path.keeps {I : σ → Prop}
    (hstep : ∀ s e, I s → M.enabled s e → I (M.next s e))
    {s t : σ} {tr : List ε} (h : M.Path s tr t) (hs : I s) : I t := by
  induction h with
  | nil => exact hs
  | snoc _ guard ih => exact hstep _ _ ih guard

/-- **Invariant rule with history.**  `I` relates a state to the events that
led to it; the step may use that its source is reached by a run. -/
theorem Run.holds {I : List ε → σ → Prop} (hinit : I [] M.init)
    (hstep : ∀ tr s e, M.Run tr s → I tr s → M.enabled s e →
      I (tr ++ [e]) (M.next s e))
    {tr : List ε} {s : σ} (h : M.Run tr s) : I tr s := by
  induction h with
  | nil => exact hinit
  | snoc before guard ih => exact hstep _ _ _ before ih guard

/-- The initial state is reachable. -/
theorem Reachable.init : M.Reachable M.init := ⟨[], Path.nil⟩

theorem Reachable.step {s : σ} {e : ε} (h : M.Reachable s) (guard : M.enabled s e) :
    M.Reachable (M.next s e) := by
  obtain ⟨tr, hrun⟩ := h
  exact ⟨tr ++ [e], hrun.snoc guard⟩

/-- Invariant rule over reachable states. -/
theorem Reachable.holds {I : σ → Prop} (hinit : I M.init)
    (hstep : ∀ s e, M.Reachable s → I s → M.enabled s e → I (M.next s e))
    {s : σ} (h : M.Reachable s) : I s := by
  obtain ⟨tr, hrun⟩ := h
  exact Run.holds (I := fun _ s => I s) hinit
    (fun tr s e hm hs guard => hstep s e ⟨tr, hm⟩ hs guard) hrun

theorem Reachable.path {s t : σ} {tr : List ε} (h : M.Reachable s)
    (hpath : M.Path s tr t) : M.Reachable t := by
  obtain ⟨tr', hrun⟩ := h
  exact ⟨tr' ++ tr, hrun.append hpath⟩

/-! ## Properties of whole runs -/

variable (M)

/-- `P` holds, of the history and the state, everywhere along the run `tr`. -/
def EveryState (P : List ε → σ → Prop) (tr : List ε) : Prop :=
  ∀ before after s, tr = before ++ after → M.Run before s → P before s

/-- Every event of the run `tr` meets `C` in the history and the state it is
taken in. -/
def EveryStep (C : List ε → σ → ε → Prop) (tr : List ε) : Prop :=
  ∀ before e after s, tr = before ++ e :: after → M.Run before s → C before s e

variable {M}

theorem everyState_nil {P : List ε → σ → Prop} :
    M.EveryState P [] ↔ P [] M.init := by
  constructor
  · intro h
    exact h [] [] M.init rfl Path.nil
  · intro h before after s heq hrun
    obtain ⟨rfl, rfl⟩ := List.append_eq_nil_iff.mp heq.symm
    rwa [hrun.unique Path.nil]

theorem everyStep_nil {C : List ε → σ → ε → Prop} : M.EveryStep C [] := by
  intro before e after s heq
  simp at heq

theorem everyState_snoc {P : List ε → σ → Prop} {tr : List ε} {s : σ} {e : ε}
    (hrun : M.Run tr s) (guard : M.enabled s e) :
    M.EveryState P (tr ++ [e]) ↔
      M.EveryState P tr ∧ P (tr ++ [e]) (M.next s e) := by
  constructor
  · intro h
    refine ⟨?_, h (tr ++ [e]) [] _ (by simp) (hrun.snoc guard)⟩
    intro before after m heq hm
    exact h before (after ++ [e]) m (by simp [heq]) hm
  · rintro ⟨hall, hlast⟩ before after m heq hm
    rcases List.eq_nil_or_concat after with rfl | ⟨after', x, rfl⟩
    · obtain rfl : tr ++ [e] = before := by simpa using heq
      rwa [hm.unique (hrun.snoc guard)]
    · rw [List.concat_eq_append, ← List.append_assoc] at heq
      exact hall before after' m (List.append_inj' heq rfl).1 hm

theorem everyStep_snoc {C : List ε → σ → ε → Prop} {tr : List ε} {s : σ} {e : ε}
    (hrun : M.Run tr s) :
    M.EveryStep C (tr ++ [e]) ↔ M.EveryStep C tr ∧ C tr s e := by
  constructor
  · intro h
    refine ⟨?_, h tr e [] s rfl hrun⟩
    intro before x after m heq hm
    exact h before x (after ++ [e]) m (by simp [heq]) hm
  · rintro ⟨hall, hlast⟩ before x after m heq hm
    rcases List.eq_nil_or_concat after with rfl | ⟨after', y, rfl⟩
    · obtain ⟨rfl, hx⟩ := List.append_inj' heq rfl
      obtain rfl : e = x := by simpa using hx
      rwa [hm.unique hrun]
    · rw [List.concat_eq_append, ← List.cons_append, ← List.append_assoc] at heq
      exact hall before x after' m (List.append_inj' heq rfl).1 hm

/-- A run whose steps all meet a condition starts with such runs. -/
theorem EveryStep.of_append {C : List ε → σ → ε → Prop} {before after : List ε}
    (h : M.EveryStep C (before ++ after)) : M.EveryStep C before := by
  intro left e right s heq hrun
  exact h left e (right ++ after) s (by simp [heq]) hrun

/-- A property that every state of a run has, its last state has. -/
theorem EveryState.last {P : List ε → σ → Prop} {tr : List ε} {s : σ}
    (h : M.EveryState P tr) (hrun : M.Run tr s) : P tr s :=
  h tr [] s (by simp) hrun

/-- **Exactness rule.**  Suppose a property that holds before a step holds
after it exactly if the step meets `C`.  Then it holds all along a run exactly
if all the steps of that run meet `C`. -/
theorem everyState_iff_everyStep {P : List ε → σ → Prop}
    {C : List ε → σ → ε → Prop} (hinit : P [] M.init)
    (hstep : ∀ tr s e, M.Run tr s → P tr s → M.enabled s e →
      (P (tr ++ [e]) (M.next s e) ↔ C tr s e))
    {tr : List ε} {s : σ} (h : M.Run tr s) :
    M.EveryState P tr ↔ M.EveryStep C tr := by
  induction h with
  | nil => simpa [everyState_nil, hinit] using everyStep_nil
  | snoc before guard ih =>
      rw [everyState_snoc before guard, everyStep_snoc before, ← ih]
      constructor
      · rintro ⟨hall, hlast⟩
        exact ⟨hall, (hstep _ _ _ before (hall.last before) guard).mp hlast⟩
      · rintro ⟨hall, hlast⟩
        exact ⟨hall, (hstep _ _ _ before (hall.last before) guard).mpr hlast⟩

/-- Two step conditions that agree on every enabled step of every run agree on
whole runs. -/
theorem everyStep_congr {C D : List ε → σ → ε → Prop}
    (hstep : ∀ tr s e, M.Run tr s → M.enabled s e → (C tr s e ↔ D tr s e))
    {tr : List ε} {s : σ} (h : M.Run tr s) :
    M.EveryStep C tr ↔ M.EveryStep D tr := by
  induction h with
  | nil => exact ⟨fun _ => everyStep_nil, fun _ => everyStep_nil⟩
  | snoc before guard ih =>
      rw [everyStep_snoc before, everyStep_snoc before, ih,
        hstep _ _ _ before guard]

/-! ## Projection onto a component -/

/-- **Projection.**  If every step of `M` is, seen through `f`, either a step
of `N` or no step at all, then every run of `M` is seen as a run of `N`. -/
theorem Reachable.project {N : Machine τ δ} {f : σ → τ} {g : σ → ε → Option δ}
    (hinit : f M.init = N.init)
    (hskip : ∀ s e, M.Reachable s → M.enabled s e → g s e = none → f (M.next s e) = f s)
    (hstep : ∀ s e d, M.Reachable s → M.enabled s e → g s e = some d →
      N.enabled (f s) d ∧ f (M.next s e) = N.next (f s) d)
    {s : σ} (h : M.Reachable s) : N.Reachable (f s) := by
  obtain ⟨tr, hrun⟩ := h
  induction hrun with
  | nil => exact hinit ▸ Reachable.init
  | @snoc tr m e before guard ih =>
      cases hg : g m e with
      | none =>
          rw [hskip m e ⟨tr, before⟩ guard hg]
          exact ih
      | some d =>
          obtain ⟨hd, hnext⟩ := hstep m e d ⟨tr, before⟩ guard hg
          rw [hnext]
          exact ih.step hd

/-! ## Measures -/

/-- **Bounded runs.**  If every event costs a unit of the measure `μ`, except
that an event `e` may put `gain e` units back, then the length of a path is
bounded by the measure it starts with and what its events put back. -/
theorem Path.length_le (μ : σ → Nat) (gain : ε → Nat)
    (hstep : ∀ s e, M.Reachable s → M.enabled s e → μ (M.next s e) + 1 ≤ μ s + gain e)
    {s t : σ} {tr : List ε} (hs : M.Reachable s) (h : M.Path s tr t) :
    tr.length + μ t ≤ μ s + (tr.map gain).sum := by
  induction h with
  | nil => simp
  | @snoc tr m e before guard ih =>
      have := hstep m e (hs.path before) guard
      simp only [List.length_append, List.length_singleton, List.map_append,
        List.map_cons, List.map_nil, List.sum_append, List.sum_singleton]
      omega

/-! ## Execution -/

section Execution

variable (M) [∀ s e, Decidable (M.enabled s e)]

/-- Run the events in order; `none` as soon as one of them is not enabled. -/
def exec : σ → List ε → Option σ
  | s, [] => some s
  | s, e :: tr => if M.enabled s e then exec (M.next s e) tr else none

/-- Two runs, one after the other. -/
theorem exec_append (s : σ) (left right : List ε) :
    M.exec s (left ++ right) = (M.exec s left).bind fun m => M.exec m right := by
  induction left generalizing s with
  | nil => simp [exec]
  | cons e left ih =>
      by_cases guard : M.enabled s e
      · simp [exec, guard, ih]
      · simp [exec, guard]

/-- Executing a schedule is following a path. -/
theorem exec_eq_some_iff {s t : σ} {tr : List ε} :
    M.exec s tr = some t ↔ M.Path s tr t := by
  constructor
  · intro h
    induction tr generalizing s with
    | nil =>
        obtain rfl : s = t := by simpa [exec] using h
        exact Path.nil
    | cons e tr ih =>
        unfold exec at h
        split at h
        · rename_i guard
          exact Path.cons guard (ih h)
        · cases h
  · intro h
    induction h with
    | nil => rfl
    | snoc _ guard ih => simp [exec_append, ih, exec, guard]

/-- Every schedule that executes from the initial state is a run. -/
theorem run_of_exec {tr : List ε} (h : (M.exec M.init tr).isSome) :
    M.Run tr ((M.exec M.init tr).get h) :=
  M.exec_eq_some_iff.mp (by simp)

/-- A run, and what is true at its end, found by executing it. -/
theorem exists_run_of_exec {P : σ → Prop} {tr : List ε}
    (h : ∃ s ∈ M.exec M.init tr, P s) : ∃ s, M.Run tr s ∧ P s := by
  obtain ⟨s, hexec, hs⟩ := h
  exact ⟨s, M.exec_eq_some_iff.mp hexec, hs⟩

/-- A condition on the steps of a run, checked by executing it. -/
theorem everyStep_of_exec {C : List ε → σ → ε → Prop} {tr : List ε}
    (h : ∀ i : Fin tr.length, ∀ s ∈ M.exec M.init (tr.take i),
      C (tr.take i) s (tr.get i)) : M.EveryStep C tr := by
  intro before e after s heq hrun
  subst heq
  have hlt : before.length < (before ++ e :: after).length := by simp
  have hstep := h ⟨before.length, hlt⟩ s
  simp only [List.take_left, List.get_eq_getElem, List.getElem_append_right (le_refl _),
    Nat.sub_self, List.getElem_cons_zero] at hstep
  exact hstep (M.exec_eq_some_iff.mpr hrun)

end Execution

end Machine
