import CpsatBindings.ShimState

/-!
# What one event of the shim changes

Field by field: which events change it, and to what.  The invariants that
follow are proved from these lemmas, one case for each event that matters.
-/

namespace Cpsat.Shim

variable {Req Params Mem Resp : Type*} {V : CpSat Req Params Mem Resp}

/-! ## The worker and its handle -/

/-- The move of a worker that an event makes. -/
def Event.moves : Event → Option (Nat × WorkerPhase × WorkerPhase)
  | .streamStart v _ _ _ => some (v, .absent, .started)
  | .workerModel v => some (v, .started, .modelled)
  | .register v => some (v, .modelled, .registered)
  | .workerSolve v => some (v, .registered, .solving)
  | .workerReturn v _ => some (v, .solving, .returned)
  | .unregister v => some (v, .returned, .unregistered)
  | .workerExit v => some (v, .unregistered, .exited)
  | _ => none

/-- A worker moves from where it stands. -/
theorem moves_guard {σ : State Req Params Mem Resp} {e : Event} (h : enabled V σ e) {v : Nat}
    {before after : WorkerPhase} (hmove : e.moves = some (v, before, after)) :
    (σ.streams v).worker = before := by
  have hguard := h.2
  cases e with
  | streamStart _ _ _ _ | workerReturn _ _ | workerExit _ =>
      simp only [Event.moves, Option.some.injEq, Prod.mk.injEq] at hmove
      obtain ⟨rfl, rfl, -⟩ := hmove
      exact hguard.1
  | workerModel _ | register _ | workerSolve _ | unregister _ =>
      simp only [Event.moves, Option.some.injEq, Prod.mk.injEq] at hmove
      obtain ⟨rfl, rfl, -⟩ := hmove
      exact hguard
  | _ => cases hmove

/-- The move of a handle that an event makes. -/
def Event.drops : Event → Option (Nat × HandlePhase × HandlePhase)
  | .streamStart v _ _ _ => some (v, .none, .live)
  | .dropUnfinished v => some (v, .live, .stopping)
  | .dropFinished v => some (v, .live, .joining)
  | .finalizeStop v => some (v, .stopping, .joining)
  | .finalizeJoin v => some (v, .joining, .joined)
  | .finalizeRelease v => some (v, .joined, .released)
  | _ => none

variable {σ : State Req Params Mem Resp} {e : Event}

/-- The events of blocking solves. -/
def Event.IsCall : Event → Prop
  | .solveBegin _ _ _ | .interruptibleBegin _ _ _ _ | .callEnd _ _ => True
  | _ => False

/-- A blocking solve touches no stream. -/
theorem streams_next_of_call (h : e.IsCall) : (next V σ e).streams = σ.streams := by
  cases e with
  | solveBegin c modelBytes paramsBytes =>
      simp only [next]
      split <;> rfl
  | interruptibleBegin c t modelBytes paramsBytes =>
      simp only [next]
      split <;> rfl
  | callEnd c interrupt =>
      simp only [next]
      cases (σ.calls c).token <;> rfl
  | _ => exact absurd h id

/-- The phase of a worker changes by its own moves only. -/
theorem worker_next (v : Nat) :
    ((next V σ e).streams v).worker =
      match e.moves with
      | some (u, _, phase) => if v = u then phase else (σ.streams v).worker
      | none => (σ.streams v).worker := by
  cases e with
  | solveBegin _ _ _ | interruptibleBegin _ _ _ _ | callEnd _ _ =>
      rw [streams_next_of_call (by exact trivial)]
      rfl
  | _ =>
      simp only [next, Event.moves, State.onStream_streams, State.onToken_streams,
        State.stopLimit_streams, apply_ite Stream.worker, Stream.Stop_worker, ite_self]
      <;> grind

/-- The phase of a handle changes as it is dropped. -/
theorem handle_next (v : Nat) :
    ((next V σ e).streams v).handle =
      match e.drops with
      | some (u, _, phase) => if v = u then phase else (σ.streams v).handle
      | none => (σ.streams v).handle := by
  cases e with
  | solveBegin _ _ _ | interruptibleBegin _ _ _ _ | callEnd _ _ =>
      rw [streams_next_of_call (by exact trivial)]
      rfl
  | _ =>
      simp only [next, Event.drops, State.onStream_streams, State.onToken_streams,
        State.stopLimit_streams, apply_ite Stream.handle, Stream.Stop_handle, ite_self]
      <;> grind

/-- A stream is on one token for good. -/
theorem token_next (v : Nat) :
    ((next V σ e).streams v).token =
      match e with
      | .streamStart u t _ _ => if v = u then t else (σ.streams v).token
      | _ => (σ.streams v).token := by
  cases e with
  | solveBegin _ _ _ | interruptibleBegin _ _ _ _ | callEnd _ _ =>
      rw [streams_next_of_call (by exact trivial)]
  | _ =>
      simp only [next, State.onStream_streams, State.onToken_streams,
        State.stopLimit_streams, apply_ite Stream.token, Stream.Stop_token, ite_self]
      <;> grind

/-- The queue of a stream is new with the stream and changes by its own steps. -/
theorem state_next (v : Nat) :
    ((next V σ e).streams v).state =
      match e with
      | .streamStart u _ _ _ => if v = u then {} else (σ.streams v).state
      | .queue u d =>
          if v = u then Cpsat.Stream.next (σ.streams v).state d else (σ.streams v).state
      | _ => (σ.streams v).state := by
  cases e with
  | solveBegin _ _ _ | interruptibleBegin _ _ _ _ | callEnd _ _ =>
      rw [streams_next_of_call (by exact trivial)]
  | _ =>
      simp only [next, State.onStream_streams, State.onToken_streams,
        State.stopLimit_streams, apply_ite Stream.state, Stream.Stop_state, ite_self]
      <;> grind

/-- `Stop` is recorded where it is called, and nowhere else. -/
theorem stopCalled_next (v : Nat) :
    ((next V σ e).streams v).stopCalled =
      match e with
      | .streamStart u _ _ _ => if v = u then false else (σ.streams v).stopCalled
      | e => (σ.streams v).stopCalled || decide (stops σ e = some v) := by
  cases e with
  | solveBegin _ _ _ | interruptibleBegin _ _ _ _ | callEnd _ _ =>
      rw [streams_next_of_call (by exact trivial)]
      simp [stops]
  | _ =>
      simp only [next, State.onStream_streams, State.onToken_streams,
        State.stopLimit_streams, apply_ite Stream.stopCalled, Stream.Stop_stopCalled]
      <;> grind [stops]

/-- The stream an event is about. -/
def Event.stream : Event → Option Nat
  | .streamStart v _ _ _ | .workerModel v | .register v | .workerSolve v | .workerReturn v _
  | .unregister v | .workerExit v | .queue v _ | .dropUnfinished v | .dropFinished v
  | .finalizeStop v | .finalizeJoin v | .finalizeRelease v => some v
  | _ => none

/-- To every other stream an event does at most what `Stop` does. -/
theorem streams_untouched {v : Nat} (h : e.stream ≠ some v) :
    (next V σ e).streams v =
      if stops σ e = some v then (σ.streams v).Stop else σ.streams v := by
  cases e with
  | solveBegin _ _ _ | interruptibleBegin _ _ _ _ | callEnd _ _ =>
      rw [streams_next_of_call (by exact trivial)]
      simp [stops]
  | _ =>
      simp only [Event.stream, ne_eq, Option.some.injEq] at h
      simp only [next, State.onStream_streams, State.onToken_streams, State.stopLimit_streams]
      <;> grind [stops]

section Untouched

variable {v : Nat} (h : e.stream ≠ some v)

include h

theorem worker_untouched : ((next V σ e).streams v).worker = (σ.streams v).worker := by
  rw [streams_untouched h]
  split <;> rfl

theorem handle_untouched : ((next V σ e).streams v).handle = (σ.streams v).handle := by
  rw [streams_untouched h]
  split <;> rfl

theorem state_untouched : ((next V σ e).streams v).state = (σ.streams v).state := by
  rw [streams_untouched h]
  split <;> rfl

theorem token_untouched : ((next V σ e).streams v).token = (σ.streams v).token := by
  rw [streams_untouched h]
  split <;> rfl

end Untouched

/-- A worker stays where it stands, or makes the move of the event. -/
theorem worker_step (guard : enabled V σ e) (v : Nat) :
    ((next V σ e).streams v).worker = (σ.streams v).worker ∨
      e.moves = some (v, (σ.streams v).worker, ((next V σ e).streams v).worker) := by
  rw [worker_next]
  cases hmove : e.moves with
  | none => exact Or.inl rfl
  | some move =>
      obtain ⟨u, before, after⟩ := move
      by_cases hvu : v = u
      · subst hvu
        right
        simp only [if_true]
        rw [moves_guard guard hmove]
      · left
        simp only [hvu, if_false]

/-! ## The token -/

/-- A blocking solve changes the env of a token, and who borrows the token. -/
theorem tokens_next_of_call (h : e.IsCall) (t : Nat) :
    ∃ env solving, (next V σ e).tokens t =
      { σ.tokens t with legacy_cenv := env, solving := solving } := by
  cases e with
  | solveBegin c modelBytes paramsBytes =>
      refine ⟨(σ.tokens t).legacy_cenv, (σ.tokens t).solving, ?_⟩
      simp only [next]
      split <;> rfl
  | interruptibleBegin c u modelBytes paramsBytes =>
      simp only [next]
      split
      · exact ⟨(σ.tokens t).legacy_cenv, (σ.tokens t).solving, rfl⟩
      · by_cases htu : t = u
        · subst htu
          simp only [State.onCall_tokens, State.onToken_tokens, if_true]
          exact ⟨_, _, rfl⟩
        · simp only [State.onCall_tokens, State.onToken_tokens, htu, if_false]
          exact ⟨(σ.tokens t).legacy_cenv, (σ.tokens t).solving, rfl⟩
  | callEnd c interrupt =>
      simp only [next]
      cases (σ.calls c).token with
      | none => exact ⟨(σ.tokens t).legacy_cenv, (σ.tokens t).solving, rfl⟩
      | some u =>
          by_cases htu : t = u
          · subst htu
            simp only [State.onCall_tokens, State.onToken_tokens, if_true]
            exact ⟨_, _, rfl⟩
          · simp only [State.onCall_tokens, State.onToken_tokens, htu, if_false]
            exact ⟨(σ.tokens t).legacy_cenv, (σ.tokens t).solving, rfl⟩
  | _ => exact absurd h id

/-- Blocking calls leave the flag. -/
theorem stopped_next_of_call (h : e.IsCall) (t : Nat) :
    ((next V σ e).tokens t).stopped = (σ.tokens t).stopped := by
  obtain ⟨env, solving, htok⟩ := tokens_next_of_call (V := V) (σ := σ) h t
  rw [htok]

theorem slot_next_of_call (h : e.IsCall) (t : Nat) :
    ((next V σ e).tokens t).active_stream_limit = (σ.tokens t).active_stream_limit := by
  obtain ⟨env, solving, htok⟩ := tokens_next_of_call (V := V) (σ := σ) h t
  rw [htok]

theorem references_next_of_call (h : e.IsCall) (t : Nat) :
    ((next V σ e).tokens t).references = (σ.tokens t).references := by
  obtain ⟨env, solving, htok⟩ := tokens_next_of_call (V := V) (σ := σ) h t
  rw [htok]

/-- Who sets the flag: the section of a stop call, and that of a finalizer. -/
theorem stopped_next (t : Nat) :
    ((next V σ e).tokens t).stopped =
      match e with
      | .newStopToken u => if t = u then false else (σ.tokens t).stopped
      | .stopSection u => if t = u then true else (σ.tokens t).stopped
      | .finalizeStop v => if t = (σ.streams v).token then true else (σ.tokens t).stopped
      | _ => (σ.tokens t).stopped := by
  cases e with
  | solveBegin _ _ _ | interruptibleBegin _ _ _ _ | callEnd _ _ =>
      rw [stopped_next_of_call (by exact trivial)]
  | _ =>
      simp only [next, State.onStream_tokens, State.onToken_tokens, State.stopLimit_tokens,
        apply_ite Token.stopped]
      <;> grind

/-- Who takes and empties the slot. -/
theorem slot_next (t : Nat) :
    ((next V σ e).tokens t).active_stream_limit =
      match e with
      | .newStopToken u => if t = u then none else (σ.tokens t).active_stream_limit
      | .register v =>
          if t = (σ.streams v).token then some v else (σ.tokens t).active_stream_limit
      | .unregister v =>
          if t = (σ.streams v).token then none else (σ.tokens t).active_stream_limit
      | _ => (σ.tokens t).active_stream_limit := by
  cases e with
  | solveBegin _ _ _ | interruptibleBegin _ _ _ _ | callEnd _ _ =>
      rw [slot_next_of_call (by exact trivial)]
  | _ =>
      simp only [next, State.onStream_tokens, State.onToken_tokens, State.stopLimit_tokens,
        apply_ite Token.active_stream_limit]
      <;> grind

/-- How references move. -/
theorem references_next (t : Nat) :
    ((next V σ e).tokens t).references =
      match e with
      | .newStopToken u => if t = u then .fresh else (σ.tokens t).references
      | .shareToken u =>
          if t = u then (σ.tokens t).references.share else (σ.tokens t).references
      | .releaseToken u =>
          if t = u then (σ.tokens t).references.release else (σ.tokens t).references
      | .streamStart _ u _ _ =>
          if t = u then (σ.tokens t).references.own else (σ.tokens t).references
      | .finalizeRelease v =>
          if t = (σ.streams v).token then (σ.tokens t).references.disown
          else (σ.tokens t).references
      | _ => (σ.tokens t).references := by
  cases e with
  | solveBegin _ _ _ | interruptibleBegin _ _ _ _ | callEnd _ _ =>
      rw [references_next_of_call (by exact trivial)]
  | _ =>
      simp only [next, State.onStream_tokens, State.onToken_tokens, State.stopLimit_tokens,
        apply_ite Token.references]
      <;> grind

/-- The token an event reads or writes. -/
def touches (σ : State Req Params Mem Resp) : Event → Option Nat
  | .newStopToken t | .shareToken t | .releaseToken t | .stopSearch t | .stopSection t
  | .interruptibleBegin _ t _ _ | .streamStart _ t _ _ => some t
  | .callEnd c _ => (σ.calls c).token
  | .register v | .unregister v | .finalizeStop v | .finalizeRelease v =>
      some (σ.streams v).token
  | _ => none

/-- Every other token stays as it is. -/
theorem tokens_untouched {t : Nat} (h : touches σ e ≠ some t) :
    (next V σ e).tokens t = σ.tokens t := by
  cases e with
  | solveBegin c modelBytes paramsBytes =>
      simp only [next]
      split <;> rfl
  | interruptibleBegin c u modelBytes paramsBytes =>
      have htu : ¬ t = u := fun heq => h (by rw [heq]; rfl)
      simp only [next]
      split
      · rfl
      · simp [htu]
  | callEnd c interrupt =>
      simp only [next]
      cases htoken : (σ.calls c).token with
      | none => rfl
      | some u =>
          have htu : ¬ t = u := fun heq => h (by rw [heq]; exact htoken)
          simp [htu]
  | _ =>
      simp only [touches, ne_eq, Option.some.injEq] at h
      simp only [next, State.onStream_tokens, State.onToken_tokens, State.stopLimit_tokens]
      <;> grind

/-! ## Borrowed tokens and blocking solves -/

/-- Blocking calls are no stop calls. -/
theorem stopping_next_of_call (h : e.IsCall) (t : Nat) :
    ((next V σ e).tokens t).stopping = (σ.tokens t).stopping := by
  obtain ⟨env, solving, htok⟩ := tokens_next_of_call (V := V) (σ := σ) h t
  rw [htok]

/-- How many stop calls have yet to run their section. -/
theorem stopping_next (t : Nat) :
    ((next V σ e).tokens t).stopping =
      match e with
      | .newStopToken u => if t = u then 0 else (σ.tokens t).stopping
      | .stopSearch u => if t = u then (σ.tokens t).stopping + 1 else (σ.tokens t).stopping
      | .stopSection u => if t = u then (σ.tokens t).stopping - 1 else (σ.tokens t).stopping
      | _ => (σ.tokens t).stopping := by
  cases e with
  | solveBegin _ _ _ | interruptibleBegin _ _ _ _ | callEnd _ _ =>
      rw [stopping_next_of_call (by exact trivial)]
  | _ =>
      simp only [next, State.onStream_tokens, State.onToken_tokens, State.stopLimit_tokens,
        apply_ite Token.stopping]
      <;> grind

/-- How many blocking calls use the token. -/
theorem solving_next (t : Nat) :
    ((next V σ e).tokens t).solving =
      match e with
      | .newStopToken u => if t = u then 0 else (σ.tokens t).solving
      | .interruptibleBegin _ u modelBytes paramsBytes =>
          if t = u ∧ V.parses modelBytes paramsBytes = true then (σ.tokens t).solving + 1
          else (σ.tokens t).solving
      | .callEnd c _ =>
          if (σ.calls c).token = some t then (σ.tokens t).solving - 1 else (σ.tokens t).solving
      | _ => (σ.tokens t).solving := by
  cases e with
  | solveBegin c modelBytes paramsBytes =>
      simp only [next]
      split <;> rfl
  | interruptibleBegin c u modelBytes paramsBytes =>
      simp only [next, CpSat.checked]
      by_cases hparses : V.parses modelBytes paramsBytes = true
      · by_cases htu : t = u <;> simp [hparses, htu]
      · simp [hparses]
  | callEnd c interrupt =>
      simp only [next]
      cases htoken : (σ.calls c).token with
      | none => simp
      | some u =>
          by_cases htu : t = u
          · simp [htu, Token.solved]
          · have hut : ¬ u = t := fun heq => htu heq.symm
            simp [htu, hut]
  | _ =>
      simp only [next, State.onStream_tokens, State.onToken_tokens, State.stopLimit_tokens,
        apply_ite Token.solving]
      <;> grind

/-- The blocking solve an event is about. -/
def Event.call : Event → Option Nat
  | .solveBegin c _ _ | .interruptibleBegin c _ _ _ | .callEnd c _ => some c
  | _ => none

/-- Every other blocking solve stays as it is. -/
theorem calls_untouched {c : Nat} (h : e.call ≠ some c) :
    (next V σ e).calls c = σ.calls c := by
  cases e with
  | solveBegin b modelBytes paramsBytes =>
      have hcb : ¬ c = b := fun heq => h (by rw [heq]; rfl)
      simp only [next]
      split
      · rfl
      · simp [hcb]
  | interruptibleBegin b t modelBytes paramsBytes =>
      have hcb : ¬ c = b := fun heq => h (by rw [heq]; rfl)
      simp only [next]
      split
      · rfl
      · simp [hcb]
  | callEnd b interrupt =>
      have hcb : ¬ c = b := fun heq => h (by rw [heq]; rfl)
      simp only [next]
      cases (σ.calls b).token <;> simp [hcb]
  | _ =>
      simp only [next, State.onStream_calls, State.onToken_calls, State.stopLimit_calls]

/-- A blocking solve whose bytes do not parse never starts. -/
theorem calls_unparsed {c t : Nat} {modelBytes paramsBytes : ByteArray}
    (hparses : V.parses modelBytes paramsBytes ≠ true) :
    (next V σ (.solveBegin c modelBytes paramsBytes)).calls = σ.calls ∧
      (next V σ (.interruptibleBegin c t modelBytes paramsBytes)).calls = σ.calls := by
  simp [next, CpSat.checked, hparses]

/-- A call of `solve` runs on an env of its own. -/
theorem call_solveBegin {c : Nat} {modelBytes paramsBytes : ByteArray}
    (hparses : V.parses modelBytes paramsBytes = true) :
    (next V σ (.solveBegin c modelBytes paramsBytes)).calls c =
      { phase := .running, token := none, response := none
        given := some ⟨(V.read modelBytes paramsBytes).1, (V.read modelBytes paramsBytes).2,
          ⟨false, V.NewSatParameters (V.read modelBytes paramsBytes).2 V.newMemory⟩⟩ } := by
  simp [next, CpSat.checked, hparses]

/-- A call of `solveInterruptible` runs on that of the token. -/
theorem call_interruptibleBegin {c t : Nat} {modelBytes paramsBytes : ByteArray}
    (hparses : V.parses modelBytes paramsBytes = true) :
    (next V σ (.interruptibleBegin c t modelBytes paramsBytes)).calls c =
      { phase := .running, token := some t, response := none
        given := some ⟨(V.read modelBytes paramsBytes).1, (V.read modelBytes paramsBytes).2,
          { (σ.tokens t).legacy_cenv with
            memory := V.NewSatParameters (V.read modelBytes paramsBytes).2
              (σ.tokens t).legacy_cenv.memory }⟩ } := by
  simp [next, CpSat.checked, hparses]

/-- What a call answers when it ends. -/
theorem call_callEnd {c : Nat} {interrupt : Option Nat} :
    (next V σ (.callEnd c interrupt)).calls c =
      { σ.calls c with
        phase := .finished
        response := (σ.calls c).given.map fun g => (V.solve g interrupt).1 } := by
  simp only [next]
  cases htoken : (σ.calls c).token <;> simp [htoken, Function.comp_def]

end Cpsat.Shim
