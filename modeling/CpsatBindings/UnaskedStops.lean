import CpsatBindings.StopHistory

/-!
# Which solves are stopped unasked

The finalizer of an unfinished handle is meant to stop its own worker.  It
stops the token: it sets the flag every later worker on the token reads when it
registers, and calls `Stop` on whatever limit is in the slot.

`stops_asked_iff` says exactly when nobody is stopped unasked: in a run every
`Stop` has been asked for if and only if no finalizer of an unfinished handle
comes upon a stream of its token, neither in the slot nor registering later,
that nobody has asked to stop.
-/

namespace Cpsat.Shim

variable {Req Params Mem Resp : Type*} {V : CpSat Req Params Mem Resp}
  {σ : State Req Params Mem Resp} {e : Event} {tr : List Event}

/-- Somebody has asked for stream `v` to be stopped: by stopping its token, or
by dropping its handle before its worker had finished. -/
def Asked (tr : List Event) (σ : State Req Params Mem Resp) (v : Nat) : Prop :=
  .stopSearch (σ.streams v).token ∈ tr ∨ .dropUnfinished v ∈ tr

/-- Every `Stop` an event calls has been asked for. -/
def StopAsked (tr : List Event) (σ : State Req Params Mem Resp) (e : Event) : Prop :=
  ∀ v, stops σ e = some v → Asked tr σ v

/-- Every stream whose limit has been stopped was asked to stop. -/
def StoppedAsked (tr : List Event) (σ : State Req Params Mem Resp) : Prop :=
  ∀ v, (σ.streams v).stopCalled = true → Asked tr σ v

/-- A stream whose done update has been consumed leaves its token as it is: no
finalizer of its handle sets the flag. -/
def ConsumedLeaves (tr : List Event) (σ : State Req Params Mem Resp) : Prop :=
  ∀ v, (∃ u ∈ (σ.streams v).state.popped, u.is_done = true) → .finalizeStop v ∉ tr

/-- A dropped unfinished handle meets no stream of its token that nobody asked
to stop: none was the last to register before its finalizer, and none registers
after it. -/
def DropsMeetNobody (tr : List Event) (σ : State Req Params Mem Resp) : Event → Prop
  | .finalizeStop u => ∀ v, InSlot tr σ (σ.streams u).token v → Asked tr σ v
  | .register v => ∀ u, (σ.streams u).token = (σ.streams v).token → .finalizeStop u ∈ tr →
      Asked tr σ v
  | _ => True

/-! ## Consumed streams -/

/-- A handle found unfinished is never called again, so its done update is
never consumed. -/
theorem unconsumed_of_dropped (h : (machine V).Run tr σ) {v : Nat} :
    .dropUnfinished v ∈ tr → (σ.streams v).state.callers = [] ∧
      ∀ u ∈ (σ.streams v).state.popped, u.is_done = false := by
  refine h.holds (I := fun tr σ => .dropUnfinished v ∈ tr →
    (σ.streams v).state.callers = [] ∧
      ∀ u ∈ (σ.streams v).state.popped, u.is_done = false)
    (fun hnil => absurd hnil List.not_mem_nil) ?_
  intro tr σ e hrun ih guard hmem
  change ((next V σ e).streams v).state.callers = [] ∧
    ∀ u ∈ ((next V σ e).streams v).state.popped, u.is_done = false
  rw [state_next]
  rcases List.mem_append.mp hmem with hold | hnew
  · obtain ⟨hcallers, hopen⟩ := ih hold
    have hsince := handle_since hrun hold rfl
    cases e with
    | streamStart u _ _ _ =>
        by_cases hvu : v = u
        · subst hvu
          exact absurd guard.2.1 (started_of_drop hrun hold rfl)
        · simpa only [hvu, if_false] using ⟨hcallers, hopen⟩
    | queue u d =>
        by_cases hvu : v = u
        · subst hvu
          simp only [if_true]
          obtain ⟨-, hgate, hqueue⟩ := guard
          have hquiet : d.Quiet := by
            cases d with
            | call c =>
                rw [show (σ.streams v).handle = .live from hgate] at hsince
                exact absurd hsince (by decide)
            | enter c =>
                simp only [Cpsat.Stream.State.callers, List.append_eq_nil_iff] at hcallers
                simp [Cpsat.Stream.enabled, hcallers] at hqueue
            | _ => trivial
          obtain ⟨hmoved, hpopped⟩ := Cpsat.Stream.quiet_step hqueue hquiet
          rw [hcallers, List.perm_nil] at hmoved
          rw [hpopped]
          exact ⟨hmoved, hopen⟩
        · simpa only [hvu, if_false] using ⟨hcallers, hopen⟩
    | _ => exact ⟨hcallers, hopen⟩
  · obtain rfl := List.mem_singleton.mp hnew
    obtain ⟨-, -, hcallers, hfinished⟩ := guard
    have haccounts := Cpsat.Stream.accounted (state_reachable ⟨tr, hrun⟩ v)
    have hshaped := haccounts.shaped
    rw [hfinished] at hshaped
    refine ⟨hcallers, ?_⟩
    intro u hu
    apply hshaped
    rw [← haccounts.conserved]
    exact List.mem_append_left _ hu

/-- **Consumed streams.**  A stream whose done update has been consumed leaves
its token exactly as stopped as it was. -/
theorem consumed_leaves (h : (machine V).Run tr σ) : ConsumedLeaves tr σ := by
  rintro v ⟨u, hu, hdone⟩ hmem
  have hopen := (unconsumed_of_dropped h (dropUnfinished_of_finalizeStop h hmem)).2 u hu
  rw [hopen] at hdone
  cases hdone

/-! ## One step -/

/-- A `Stop` of an event has been asked for exactly if the event meets the
condition. -/
theorem stopAsked_iff (h : (machine V).Run tr σ) (guard : enabled V σ e) :
    StopAsked tr σ e ↔ DropsMeetNobody tr σ e := by
  have hreach : (machine V).Reachable σ := ⟨tr, h⟩
  unfold StopAsked
  cases e with
  | stopSection t =>
      refine ⟨fun _ => trivial, ?_⟩
      intro _ v hslot
      -- the stop call of this section has been made before
      have htoken := (slot_registered hreach hslot).1
      left
      rw [htoken]
      exact stopSearch_of_stopping h guard.2
  | finalizeStop u =>
      constructor
      · intro hasked v hslot
        exact hasked v ((slot_iff h).mpr hslot)
      · intro hmeets v hslot
        exact hmeets v ((slot_iff h).mp hslot)
  | register v =>
      constructor
      · intro hasked u htoken hdropped
        have hstopped : (σ.tokens (σ.streams v).token).stopped = true :=
          (stopped_iff h _).mpr (Or.inr ⟨u, htoken, hdropped⟩)
        exact hasked v (by simp [stops, hstopped])
      · intro hmeets w hstop
        simp only [stops] at hstop
        split at hstop
        · rename_i hstopped
          obtain rfl : v = w := Option.some.inj hstop
          rcases (stopped_iff h _).mp hstopped with hsection | ⟨u, htoken, hdropped⟩
          · exact Or.inl (stopSearch_of_stopSection h hsection)
          · exact hmeets u htoken hdropped
        · cases hstop
  | _ =>
      refine ⟨fun _ => trivial, ?_⟩
      intro _ v hstop
      cases hstop

/-- A stream that is being stopped has been asked to before the step or after
it: the step that stops it does not ask. -/
theorem asked_next_of_stops (h : (machine V).Reachable σ) (guard : enabled V σ e) {v : Nat}
    (hstop : stops σ e = some v) : Asked (tr ++ [e]) (next V σ e) v ↔ Asked tr σ v := by
  have hmodel := stopped_hasModel h guard hstop
  have hstarted : (σ.streams v).worker ≠ .absent := by
    intro habsent
    rw [habsent] at hmodel
    exact hmodel
  rw [Asked, Asked, token_fixed guard hstarted]
  cases e with
  | stopSection _ | finalizeStop _ | register _ => simp
  | _ => cases hstop

/-- A step stops nobody unasked exactly if every `Stop` it calls has been asked
for. -/
theorem stoppedAsked_step (h : (machine V).Run tr σ) (hasked : StoppedAsked tr σ)
    (guard : enabled V σ e) : StoppedAsked (tr ++ [e]) (next V σ e) ↔ StopAsked tr σ e := by
  have hreach : (machine V).Reachable σ := ⟨tr, h⟩
  constructor
  · intro hnext v hstop
    exact (asked_next_of_stops hreach guard hstop).mp (hnext v (stopCalled_of_stops hstop))
  · intro hstops v hcalled
    by_cases hbefore : (σ.streams v).stopCalled = true
    · have hkept := hasked v hbefore
      rw [Asked, token_fixed guard (started_of_stopCalled hreach hbefore)]
      exact hkept.imp (List.mem_append_left _) (List.mem_append_left _)
    · have hstop := stops_of_stopCalled (Bool.eq_false_iff.mpr hbefore) hcalled
      exact (asked_next_of_stops hreach guard hstop).mpr (hstops v hstop)

/-! ## Whole runs -/

/-- Looking at the streams that have been stopped is looking at the `Stop`s that
were called. -/
theorem stoppedAsked_iff (h : (machine V).Run tr σ) :
    (machine V).EveryState StoppedAsked tr ↔ (machine V).EveryStep StopAsked tr := by
  refine Machine.everyState_iff_everyStep ?_ ?_ h
  · intro v hcalled
    cases hcalled
  · intro tr σ e hrun hasked guard
    exact stoppedAsked_step hrun hasked guard

/-- **Stops nobody asked for.**  In a run every `Stop` has been asked for, and
consumed streams leave their tokens alone, if and only if no dropped unfinished
handle meets a stream of its token that nobody asked to stop.  It is the same
whether one looks at the `Stop`s that are called or at the streams that have
been stopped. -/
theorem stops_asked_iff (h : (machine V).Run tr σ) :
    (((machine V).EveryStep StopAsked tr ∧ (machine V).EveryState ConsumedLeaves tr) ↔
      (machine V).EveryStep DropsMeetNobody tr) ∧
    ((machine V).EveryState StoppedAsked tr ↔ (machine V).EveryStep DropsMeetNobody tr) := by
  have hconsumed : (machine V).EveryState ConsumedLeaves tr := by
    intro before after m _ hm
    exact consumed_leaves hm
  have hmeets : (machine V).EveryStep StopAsked tr ↔ (machine V).EveryStep DropsMeetNobody tr :=
    Machine.everyStep_congr (fun _ _ _ hm guard => stopAsked_iff hm guard) h
  exact ⟨by rw [and_iff_left hconsumed, hmeets], by rw [stoppedAsked_iff h, hmeets]⟩

/-- A handle is dropped while its worker searches; then a second stream is
started on the token. -/
def droppedThenStarted : List Event :=
  [.newStopToken 0, .streamStart 0 0 .empty .empty, .workerModel 0, .register 0, .workerSolve 0,
    .dropUnfinished 0, .finalizeStop 0,
    .streamStart 1 0 .empty .empty, .workerModel 1]

/-- The second stream is stopped as it registers, and nobody has asked. -/
theorem droppedThenStarted_stops :
    ∃ σ, (machine tally).Run droppedThenStarted σ ∧
      (machine tally).enabled σ (.register 1) ∧
      stops σ (.register 1) = some 1 ∧ (σ.streams 1).token = 0 :=
  Machine.exists_run_of_exec _ (by decide +kernel)

/-- The condition tells: registering does not meet it. -/
theorem droppedThenStarted_meets :
    ¬ (machine tally).EveryStep DropsMeetNobody (droppedThenStarted ++ [.register 1]) := by
  obtain ⟨σ, hrun, guard, hstops, htoken⟩ := droppedThenStarted_stops
  intro hmeets
  have hasked := ((stops_asked_iff (hrun.snoc guard)).1.mpr hmeets).1
    droppedThenStarted (.register 1) [] σ rfl hrun 1 hstops
  rw [Asked, htoken] at hasked
  simp [droppedThenStarted] at hasked

/-- A stream is stopped because another was dropped. -/
theorem unasked_stop :
    ¬ ∀ (tr : List Event) (σ : State Nat Nat Nat Nat), (machine tally).Run tr σ →
      (machine tally).EveryStep StopAsked tr := by
  intro hall
  obtain ⟨σ, hrun, guard, hstops, htoken⟩ := droppedThenStarted_stops
  have hasked := hall _ _ (hrun.snoc guard) droppedThenStarted (.register 1) [] σ rfl hrun 1 hstops
  rw [Asked, htoken] at hasked
  simp [droppedThenStarted] at hasked

end Cpsat.Shim
