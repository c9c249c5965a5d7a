import CpsatBindings.StopHistory

/-!
# Which stop requests reach their solve

A token has one slot for the limit of a streaming solve.  A worker that
registers takes the slot over, and a worker that unregisters empties it, also
when another worker is registered on the same token.  A stop that finds the
slot taken over or emptied does not reach the solve it is meant for.

`stops_reach_iff` says exactly when none is lost: in a run no stop request is
lost if and only if every stop finds the solves it is meant for in the slot,
or already stopped, or not yet registered.
-/

namespace Cpsat.Shim

variable {Req Params Mem Resp : Type*} {V : CpSat Req Params Mem Resp}
  {σ : State Req Params Mem Resp} {e : Event} {tr : List Event}

/-- Registered, and `SolveCpModel` has not returned. -/
def WorkerPhase.Searching (w : WorkerPhase) : Prop := w = .registered ∨ w = .solving

/-- `RunStream` has not reached its first critical section. -/
def WorkerPhase.Early (w : WorkerPhase) : Prop := w = .started ∨ w = .modelled

/-- No stop request has been lost: a completed stop call has reached every
solve searching on the token, and the finalizer of an unfinished handle has
reached its own worker, unless that worker has yet to register. -/
def NoStopLost (tr : List Event) (σ : State Req Params Mem Resp) : Prop :=
  (∀ t, .stopSection t ∈ tr → ∀ v, (σ.streams v).token = t →
    (σ.streams v).worker.Searching → (σ.streams v).stopCalled = true) ∧
  (∀ v, .finalizeStop v ∈ tr →
    (σ.streams v).stopCalled = true ∨ (σ.streams v).worker.Early)

/-- A stop finds every solve it is meant for the last to have registered on its
token, with none unregistered since, unless the solve has been stopped before or
has yet to register. -/
def StopsReach (tr : List Event) (σ : State Req Params Mem Resp) : Event → Prop
  | .stopSection t => ∀ v, (σ.streams v).token = t → (σ.streams v).worker.Searching →
      InSlot tr σ t v ∨ (σ.streams v).stopCalled = true
  | .finalizeStop v =>
      InSlot tr σ (σ.streams v).token v ∨
        (σ.streams v).stopCalled = true ∨ (σ.streams v).worker.Early
  | _ => True

/-! ## One step -/

/-- A worker that searches has been started. -/
theorem WorkerPhase.Searching.started {w : WorkerPhase} (h : w.Searching) : w ≠ .absent := by
  rcases h with rfl | rfl <;> simp

/-- A solve starts searching by registering. -/
theorem searching_before (guard : enabled V σ e) {v : Nat}
    (h : ((next V σ e).streams v).worker.Searching) :
    e = .register v ∨ (σ.streams v).worker.Searching := by
  rcases worker_step guard v with hstay | hmove
  · rw [hstay] at h
    exact Or.inr h
  · cases e with
    | register u =>
        simp only [Event.moves, Option.some.injEq, Prod.mk.injEq] at hmove
        rw [hmove.1]
        exact Or.inl rfl
    | workerSolve u =>
        simp only [Event.moves, Option.some.injEq, Prod.mk.injEq] at hmove
        exact Or.inr (Or.inl hmove.2.1.symm)
    | streamStart _ _ _ _ | workerModel _ | workerReturn _ _ | unregister _ | workerExit _ =>
        simp only [Event.moves, Option.some.injEq, Prod.mk.injEq] at hmove
        rw [← hmove.2.2] at h
        rcases h with h | h <;> cases h
    | _ => cases hmove

/-- A worker that has yet to register leaves that state by registering. -/
theorem early_next (guard : enabled V σ e) {v : Nat} (h : (σ.streams v).worker.Early) :
    e = .register v ∨ ((next V σ e).streams v).worker.Early := by
  rcases worker_step guard v with hstay | hmove
  · right
    rwa [hstay]
  · cases e with
    | register u =>
        simp only [Event.moves, Option.some.injEq, Prod.mk.injEq] at hmove
        rw [hmove.1]
        exact Or.inl rfl
    | workerModel u =>
        simp only [Event.moves, Option.some.injEq, Prod.mk.injEq] at hmove
        exact Or.inr (Or.inr hmove.2.2.symm)
    | streamStart _ _ _ _ | workerSolve _ | workerReturn _ _ | unregister _ | workerExit _ =>
        simp only [Event.moves, Option.some.injEq, Prod.mk.injEq] at hmove
        rw [← hmove.2.1] at h
        rcases h with h | h <;> cases h
    | _ => cases hmove

/-- A stop once called stays called. -/
theorem stopCalled_stays (guard : enabled V σ e) {v : Nat}
    (hstarted : (σ.streams v).worker ≠ .absent) (h : (σ.streams v).stopCalled = true) :
    ((next V σ e).streams v).stopCalled = true := by
  rw [stopCalled_next]
  cases e with
  | streamStart u _ _ _ =>
      by_cases hvu : v = u
      · subst hvu
        exact absurd guard.2.1 hstarted
      · simpa only [hvu, if_false] using h
  | _ => simp [h]

/-- A worker that registers on a stopped token is stopped there and then. -/
theorem stopCalled_register {v : Nat}
    (hstopped : (σ.tokens (σ.streams v).token).stopped = true) :
    ((next V σ (.register v)).streams v).stopCalled = true := by
  rw [stopCalled_next]
  simp [stops, hstopped]

section Step

variable (h : (machine V).Run tr σ) (guard : enabled V σ e)

include h guard

/-- Under the condition a step loses no stop call. -/
theorem stopSection_step
    (hkept : ∀ t, .stopSection t ∈ tr → ∀ v, (σ.streams v).token = t →
      (σ.streams v).worker.Searching → (σ.streams v).stopCalled = true)
    (hreach : ∀ t, e = .stopSection t → ∀ v, (σ.streams v).token = t →
      (σ.streams v).worker.Searching →
        (σ.tokens t).active_stream_limit = some v ∨ (σ.streams v).stopCalled = true)
    {t v : Nat} (hmem : .stopSection t ∈ tr ++ [e]) (htoken : ((next V σ e).streams v).token = t)
    (hsearch : ((next V σ e).streams v).worker.Searching) :
    ((next V σ e).streams v).stopCalled = true := by
  rcases searching_before guard hsearch with rfl | hbefore
  · -- the stop is recorded, so registration itself calls `Stop`
    have hmodelled : (σ.streams v).worker = .modelled := guard.2
    rw [token_fixed guard (by rw [hmodelled]; simp)] at htoken
    have hold : .stopSection t ∈ tr := by simpa using hmem
    exact stopCalled_register ((stopped_iff h _).mpr (Or.inl (by rwa [htoken])))
  · have hstarted := hbefore.started
    rw [token_fixed guard hstarted] at htoken
    rcases List.mem_append.mp hmem with hold | hnew
    · exact stopCalled_stays guard hstarted (hkept t hold v htoken hbefore)
    · obtain rfl := List.mem_singleton.mp hnew
      rcases hreach t rfl v htoken hbefore with hslot | hcalled
      · rw [stopCalled_next]
        simp [stops, hslot]
      · exact stopCalled_stays guard hstarted hcalled

/-- Under the condition a step loses no finalizer's stop. -/
theorem finalizeStop_step (hkept : NoStopLost tr σ) (hreach : StopsReach tr σ e) {v : Nat}
    (hmem : .finalizeStop v ∈ tr ++ [e]) :
    ((next V σ e).streams v).stopCalled = true ∨
      ((next V σ e).streams v).worker.Early := by
  rcases List.mem_append.mp hmem with hold | hnew
  · have hstarted := started_of_drop h hold rfl
    rcases hkept.2 v hold with hcalled | hearly
    · exact Or.inl (stopCalled_stays guard hstarted hcalled)
    · rcases early_next guard hearly with rfl | hstays
      · left
        exact stopCalled_register ((stopped_iff h _).mpr (Or.inr ⟨v, rfl, hold⟩))
      · exact Or.inr hstays
  · obtain rfl := List.mem_singleton.mp hnew
    rcases hreach with hslot | hcalled | hearly
    · left
      exact stopCalled_of_stops ((slot_iff h).mpr hslot)
    · left
      rw [stopCalled_next]
      simp [hcalled]
    · right
      rwa [worker_next]

/-- A step loses no stop request exactly if it meets the condition. -/
theorem noStopLost_step (hkept : NoStopLost tr σ) :
    NoStopLost (tr ++ [e]) (next V σ e) ↔ StopsReach tr σ e := by
  constructor
  · intro hnext
    cases e with
    | stopSection t =>
        intro v htoken hsearch
        have hcalled := hnext.1 t (by simp) v (by rw [token_next]; exact htoken)
          (by rw [worker_next]; exact hsearch)
        rw [stopCalled_next] at hcalled
        rcases Bool.or_eq_true_iff.mp hcalled with hold | hslot
        · exact Or.inr hold
        · exact Or.inl ((slot_iff h).mp (of_decide_eq_true hslot))
    | finalizeStop v =>
        rcases hnext.2 v (by simp) with hcalled | hearly
        · rw [stopCalled_next] at hcalled
          rcases Bool.or_eq_true_iff.mp hcalled with hold | hslot
          · exact Or.inr (Or.inl hold)
          · exact Or.inl ((slot_iff h).mp (of_decide_eq_true hslot))
        · rw [worker_next] at hearly
          exact Or.inr (Or.inr hearly)
    | _ => trivial
  · intro hreach
    refine ⟨?_, ?_⟩
    · intro t hmem v htoken hsearch
      refine stopSection_step h guard hkept.1 ?_ hmem htoken hsearch
      rintro u rfl w hw hsearching
      exact (hreach w hw hsearching).imp_left (slot_iff h).mpr
    · intro v hmem
      exact finalizeStop_step h guard hkept hreach hmem

end Step

/-! ## Whole runs -/

/-- **Lost stops.**  All along a run no stop request is lost if and only if
every stop of that run finds the solves it is meant for the last to have
registered on their token, unless they have been stopped before or have yet to
register. -/
theorem stops_reach_iff (h : (machine V).Run tr σ) :
    (machine V).EveryState NoStopLost tr ↔ (machine V).EveryStep StopsReach tr := by
  refine Machine.everyState_iff_everyStep ?_ ?_ h
  · refine ⟨?_, ?_⟩
    · intro t hnil
      exact absurd hnil List.not_mem_nil
    · intro v hnil
      exact absurd hnil List.not_mem_nil
  · intro tr σ e hrun hkept guard
    exact noStopLost_step hrun guard hkept

/-- Two streams on one token, both searching; then the token is stopped. -/
def takenOver : List Event :=
  [.newStopToken 0, .streamStart 0 0 .empty .empty, .workerModel 0, .register 0, .workerSolve 0,
    .streamStart 1 0 .empty .empty, .workerModel 1, .register 1, .workerSolve 1,
    .stopSearch 0, .stopSection 0]

/-- The first of them goes on searching. -/
theorem takenOver_searches :
    ∃ σ, (machine tally).Run takenOver σ ∧ (σ.streams 0).token = 0 ∧
      (σ.streams 0).worker = .solving ∧ (σ.streams 0).stopCalled = false :=
  Machine.exists_run_of_exec _ (by decide +kernel)

/-- The condition tells: that last stop does not meet it. -/
theorem takenOver_misses : ¬ (machine tally).EveryStep StopsReach takenOver := by
  obtain ⟨σ, hrun, htoken, hworker, hcalled⟩ := takenOver_searches
  intro hreach
  have hkept := ((stops_reach_iff hrun).mpr hreach).last hrun
  have hstop := hkept.1 0 (by simp [takenOver]) 0 htoken (Or.inr hworker)
  rw [hcalled] at hstop
  cases hstop

/-- A stop reaches the second of two streams only. -/
theorem stop_can_be_lost :
    ¬ ∀ (tr : List Event) (σ : State Nat Nat Nat Nat),
      (machine tally).Run tr σ → NoStopLost tr σ := by
  intro hnone
  obtain ⟨σ, hrun, htoken, hworker, hcalled⟩ := takenOver_searches
  have hstop := (hnone _ _ hrun).1 0 (by simp [takenOver]) 0 htoken (Or.inr hworker)
  rw [hcalled] at hstop
  cases hstop

end Cpsat.Shim
