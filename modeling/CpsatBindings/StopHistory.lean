import CpsatBindings.Lifetimes

/-!
# What a state remembers of its history

The state of the shim and the events that led to it: the stages a worker and a
handle have passed, the stop calls made, and where a token's stop flag comes
from.

* `worker_since`, `handle_since` — a stage once passed stays passed.
* `stopped_iff` — a token is stopped when a stop call has completed on it, or
  the finalizer of an unfinished handle has.
* `slot_iff` — the slot of a token is that of the worker registered on it last,
  unless a worker on it has unregistered since.
* `state_reachable` — the queue of a stream runs as a queue.
-/

namespace Cpsat.Shim

open scoped List

variable {Req Params Mem Resp : Type*} {V : CpSat Req Params Mem Resp}
  {σ : State Req Params Mem Resp} {e : Event} {tr : List Event}

/-! ## Stages -/

/-- How far a worker has come. -/
def WorkerPhase.rank : WorkerPhase → Nat
  | .absent => 0
  | .started => 1
  | .modelled => 2
  | .registered => 3
  | .solving => 4
  | .returned => 5
  | .unregistered => 6
  | .exited => 7

/-- How far a handle has been dropped. -/
def HandlePhase.rank : HandlePhase → Nat
  | .none => 0
  | .live => 1
  | .stopping => 2
  | .joining => 3
  | .joined => 4
  | .released => 5

/-- A worker only moves on. -/
theorem moves_rank {v : Nat} {before after : WorkerPhase}
    (hmove : e.moves = some (v, before, after)) : after.rank = before.rank + 1 := by
  cases e <;> simp only [Event.moves, Option.some.injEq, Prod.mk.injEq, reduceCtorEq] at hmove
  all_goals
    obtain ⟨-, rfl, rfl⟩ := hmove
    rfl

/-- Dropping goes one way. -/
theorem drops_rank {v : Nat} {before after : HandlePhase}
    (hdrop : e.drops = some (v, before, after)) : before.rank < after.rank := by
  cases e <;> simp only [Event.drops, Option.some.injEq, Prod.mk.injEq, reduceCtorEq] at hdrop
  all_goals
    obtain ⟨-, rfl, rfl⟩ := hdrop
    decide

/-- A handle moves from where it stands. -/
theorem drops_guard (h : (machine V).Reachable σ) (guard : enabled V σ e) {v : Nat}
    {before after : HandlePhase} (hdrop : e.drops = some (v, before, after)) :
    (σ.streams v).handle = before := by
  have hguard := guard.2
  cases e with
  | streamStart u _ _ _ =>
      simp only [Event.drops, Option.some.injEq, Prod.mk.injEq] at hdrop
      obtain ⟨rfl, rfl, -⟩ := hdrop
      exact (unstarted h hguard.1).1
  | dropUnfinished u | dropFinished u | finalizeJoin u =>
      simp only [Event.drops, Option.some.injEq, Prod.mk.injEq] at hdrop
      obtain ⟨rfl, rfl, -⟩ := hdrop
      exact hguard.1
  | finalizeStop u | finalizeRelease u =>
      simp only [Event.drops, Option.some.injEq, Prod.mk.injEq] at hdrop
      obtain ⟨rfl, rfl, -⟩ := hdrop
      exact hguard
  | _ => cases hdrop

/-- Workers do not go back. -/
theorem worker_rank_le (guard : enabled V σ e) (v : Nat) :
    (σ.streams v).worker.rank ≤ ((next V σ e).streams v).worker.rank := by
  rcases worker_step guard v with hstay | hmove
  · rw [hstay]
  · rw [moves_rank hmove]
    omega

theorem handle_rank_le (h : (machine V).Reachable σ) (guard : enabled V σ e) (v : Nat) :
    (σ.streams v).handle.rank ≤ ((next V σ e).streams v).handle.rank := by
  rw [handle_next]
  cases hdrop : e.drops with
  | none => exact le_refl _
  | some drop =>
      obtain ⟨u, before, after⟩ := drop
      by_cases huv : v = u
      · subst huv
        simp only [if_true]
        rw [drops_guard h guard hdrop]
        exact le_of_lt (drops_rank hdrop)
      · simp [huv]

/-- Past a move of its worker, a stream has the stage the move leads to behind
it. -/
theorem worker_since (h : (machine V).Run tr σ) {d : Event} {v : Nat}
    {before after : WorkerPhase} (hmem : d ∈ tr) (hmove : d.moves = some (v, before, after)) :
    after.rank ≤ (σ.streams v).worker.rank := by
  refine h.holds (I := fun tr σ => d ∈ tr → after.rank ≤ (σ.streams v).worker.rank)
    (fun hnil => absurd hnil List.not_mem_nil) ?_ hmem
  intro tr σ e _ ih guard hd
  change after.rank ≤ ((next V σ e).streams v).worker.rank
  rcases List.mem_append.mp hd with hold | hnew
  · exact le_trans (ih hold) (worker_rank_le guard v)
  · obtain rfl := List.mem_singleton.mp hnew
    rw [worker_next, hmove]
    simp

/-- Past a move of its handle, likewise. -/
theorem handle_since (h : (machine V).Run tr σ) {d : Event} {v : Nat}
    {before after : HandlePhase} (hmem : d ∈ tr) (hdrop : d.drops = some (v, before, after)) :
    after.rank ≤ (σ.streams v).handle.rank := by
  refine h.holds (I := fun tr σ => d ∈ tr → after.rank ≤ (σ.streams v).handle.rank)
    (fun hnil => absurd hnil List.not_mem_nil) ?_ hmem
  intro tr σ e hrun ih guard hd
  change after.rank ≤ ((next V σ e).streams v).handle.rank
  rcases List.mem_append.mp hd with hold | hnew
  · exact le_trans (ih hold) (handle_rank_le ⟨tr, hrun⟩ guard v)
  · obtain rfl := List.mem_singleton.mp hnew
    rw [handle_next, hdrop]
    simp

/-- A stream whose worker has moved has been started. -/
theorem started_of_move (h : (machine V).Run tr σ) {d : Event} {v : Nat}
    {before after : WorkerPhase} (hmem : d ∈ tr) (hmove : d.moves = some (v, before, after)) :
    (σ.streams v).worker ≠ .absent := by
  intro habsent
  have hsince := worker_since h hmem hmove
  rw [habsent, moves_rank hmove] at hsince
  have hzero : WorkerPhase.rank .absent = 0 := rfl
  omega

/-- A stream whose handle has moved has been started. -/
theorem started_of_drop (h : (machine V).Run tr σ) {d : Event} {v : Nat}
    {before after : HandlePhase} (hmem : d ∈ tr) (hdrop : d.drops = some (v, before, after)) :
    (σ.streams v).worker ≠ .absent := by
  intro habsent
  have hsince := handle_since h hmem hdrop
  have hrank := drops_rank hdrop
  rw [(unstarted ⟨tr, h⟩ habsent).1] at hsince
  have hzero : HandlePhase.rank .none = 0 := rfl
  omega

/-! ## Stop calls and finalizers -/

/-- A stop call in its critical section began with `SolveCpStopSearch`. -/
theorem stopSearch_of_stopping (h : (machine V).Run tr σ) {t : Nat} :
    0 < (σ.tokens t).stopping → .stopSearch t ∈ tr := by
  refine h.holds (I := fun tr σ => 0 < (σ.tokens t).stopping → .stopSearch t ∈ tr)
    (by simp [machine, initial]) ?_
  intro tr σ e _ ih guard hbusy
  change 0 < ((next V σ e).tokens t).stopping at hbusy
  rw [List.mem_append]
  by_cases htouches : touches σ e = some t
  · rw [stopping_next] at hbusy
    cases e with
    | newStopToken u | stopSection u =>
        obtain rfl : u = t := Option.some.inj htouches
        simp only [if_true] at hbusy
        exact Or.inl (ih (by omega))
    | stopSearch u =>
        obtain rfl : u = t := Option.some.inj htouches
        exact Or.inr List.mem_cons_self
    | _ => exact Or.inl (ih hbusy)
  · rw [tokens_untouched htouches] at hbusy
    exact Or.inl (ih hbusy)

/-- A stop section is that of a stop call. -/
theorem stopSearch_of_stopSection (h : (machine V).Run tr σ) {t : Nat} :
    .stopSection t ∈ tr → .stopSearch t ∈ tr := by
  refine h.holds (I := fun tr _ => .stopSection t ∈ tr → .stopSearch t ∈ tr)
    (fun hnil => absurd hnil List.not_mem_nil) ?_
  intro tr σ e hrun ih guard hmem
  rw [List.mem_append] at hmem ⊢
  rcases hmem with hold | hnew
  · exact Or.inl (ih hold)
  · obtain rfl := List.mem_singleton.mp hnew
    exact Or.inl (stopSearch_of_stopping hrun guard.2)

/-- A finalizer on its way to its critical section found the stream unfinished. -/
theorem dropUnfinished_of_stopping (h : (machine V).Run tr σ) {v : Nat} :
    (σ.streams v).handle = .stopping → .dropUnfinished v ∈ tr := by
  refine h.holds (I := fun tr σ => (σ.streams v).handle = .stopping → .dropUnfinished v ∈ tr)
    (by simp [machine, initial]) ?_
  intro tr σ e _ ih guard hstopping
  change ((next V σ e).streams v).handle = .stopping at hstopping
  rw [List.mem_append]
  by_cases hv : e.stream = some v
  · rw [handle_next] at hstopping
    cases e with
    | dropUnfinished u =>
        obtain rfl : u = v := Option.some.inj hv
        exact Or.inr List.mem_cons_self
    | streamStart u _ _ _ | dropFinished u | finalizeStop u | finalizeJoin u
    | finalizeRelease u =>
        obtain rfl : u = v := Option.some.inj hv
        simp [Event.drops] at hstopping
    | _ => exact Or.inl (ih hstopping)
  · rw [handle_untouched hv] at hstopping
    exact Or.inl (ih hstopping)

/-- A finalizer that stops is that of an unfinished handle. -/
theorem dropUnfinished_of_finalizeStop (h : (machine V).Run tr σ) {v : Nat} :
    .finalizeStop v ∈ tr → .dropUnfinished v ∈ tr := by
  refine h.holds (I := fun tr _ => .finalizeStop v ∈ tr → .dropUnfinished v ∈ tr)
    (fun hnil => absurd hnil List.not_mem_nil) ?_
  intro tr σ e hrun ih guard hmem
  rw [List.mem_append] at hmem ⊢
  rcases hmem with hold | hnew
  · exact Or.inl (ih hold)
  · obtain rfl := List.mem_singleton.mp hnew
    exact Or.inl (dropUnfinished_of_stopping hrun guard.2)

/-! ## Where a stop flag comes from -/

/-- No event takes a token back to before it was made. -/
theorem made_next {t : Nat} (hmade : (σ.tokens t).references.made = true) :
    ((next V σ e).tokens t).references.made = true := by
  by_cases htouches : touches σ e = some t
  · rw [references_next]
    cases e with
    | newStopToken u =>
        obtain rfl : u = t := Option.some.inj htouches
        simp [References.fresh]
    | shareToken u | releaseToken u | streamStart _ u _ _ =>
        obtain rfl : u = t := Option.some.inj htouches
        simp only [if_true]
        exact hmade
    | finalizeRelease v =>
        obtain rfl : (σ.streams v).token = t := Option.some.inj htouches
        simp only [if_true]
        exact hmade
    | _ => exact hmade
  · rw [tokens_untouched htouches]
    exact hmade

/-- Nothing has happened to a token before it is made. -/
theorem unmade (h : (machine V).Reachable σ) {t : Nat} :
    (σ.tokens t).references.made = false → σ.tokens t = (initial V).tokens t := by
  refine h.holds (I := fun σ => (σ.tokens t).references.made = false →
    σ.tokens t = (initial V).tokens t) (fun _ => rfl) ?_
  intro σ e hσ ih guard hunmade
  change ((next V σ e).tokens t).references.made = false at hunmade
  change (next V σ e).tokens t = (initial V).tokens t
  have hbefore : (σ.tokens t).references.made = false := by
    by_contra hmade
    rw [made_next (Bool.not_eq_false _ ▸ hmade)] at hunmade
    cases hunmade
  have huntouched : touches σ e ≠ some t := by
    intro htouches
    by_cases hnew : e = .newStopToken t
    · rw [hnew, references_next] at hunmade
      simp [References.fresh] at hunmade
    · rw [made_of_held hσ (touched_held hσ guard htouches hnew)] at hbefore
      cases hbefore
  rw [tokens_untouched huntouched]
  exact ih hbefore

/-- A token is stopped by a completed stop call, or by the finalizer of an
unfinished stream on it. -/
def StopRecorded (tr : List Event) (σ : State Req Params Mem Resp) (t : Nat) : Prop :=
  .stopSection t ∈ tr ∨ ∃ v, (σ.streams v).token = t ∧ .finalizeStop v ∈ tr

/-- One step: who records a stop. -/
theorem stopRecorded_next (h : (machine V).Run tr σ) (guard : enabled V σ e) {t : Nat} :
    StopRecorded (tr ++ [e]) (next V σ e) t ↔
      StopRecorded tr σ t ∨ e = .stopSection t ∨
        ∃ v, (σ.streams v).token = t ∧ e = .finalizeStop v := by
  have hkept : ∀ v, .finalizeStop v ∈ tr ∨ e = .finalizeStop v →
      ((next V σ e).streams v).token = (σ.streams v).token := by
    intro v hv
    apply token_fixed guard
    rcases hv with hold | rfl
    · exact started_of_drop h hold rfl
    · have hhandle : (σ.streams v).handle = .stopping := guard.2
      intro habsent
      rw [(unstarted ⟨tr, h⟩ habsent).1] at hhandle
      cases hhandle
  unfold StopRecorded
  simp only [List.mem_append, List.mem_singleton]
  constructor
  · rintro ((hold | hnew) | ⟨v, htoken, hv⟩)
    · exact Or.inl (Or.inl hold)
    · exact Or.inr (Or.inl hnew.symm)
    · rw [hkept v (hv.imp id Eq.symm)] at htoken
      rcases hv with hold | hnew
      · exact Or.inl (Or.inr ⟨v, htoken, hold⟩)
      · exact Or.inr (Or.inr ⟨v, htoken, hnew.symm⟩)
  · rintro ((hold | ⟨v, htoken, hold⟩) | hnew | ⟨v, htoken, hnew⟩)
    · exact Or.inl (Or.inl hold)
    · exact Or.inr ⟨v, by rw [hkept v (Or.inl hold), htoken], Or.inl hold⟩
    · exact Or.inl (Or.inr hnew.symm)
    · exact Or.inr ⟨v, by rw [hkept v (Or.inr hnew), htoken], Or.inr hnew.symm⟩

/-- **The stop flag.**  It is set exactly if a stop was recorded. -/
theorem stopped_iff (h : (machine V).Run tr σ) (t : Nat) :
    (σ.tokens t).stopped = true ↔ StopRecorded tr σ t := by
  refine h.holds (I := fun tr σ => (σ.tokens t).stopped = true ↔ StopRecorded tr σ t)
    (by simp [machine, initial, StopRecorded]) ?_
  intro tr σ e hrun ih guard
  change ((next V σ e).tokens t).stopped = true ↔ StopRecorded (tr ++ [e]) (next V σ e) t
  rw [stopRecorded_next hrun guard, ← ih]
  by_cases htouches : touches σ e = some t
  · rw [stopped_next]
    cases e with
    | newStopToken u =>
        obtain rfl : u = t := Option.some.inj htouches
        rw [unmade ⟨tr, hrun⟩ guard.2]
        simp [initial]
    | stopSection u =>
        obtain rfl : u = t := Option.some.inj htouches
        simp
    | finalizeStop v =>
        obtain rfl : (σ.streams v).token = t := Option.some.inj htouches
        simp
    | _ => simp
  · rw [tokens_untouched htouches, or_iff_left]
    rintro (rfl | ⟨v, htoken, rfl⟩)
    · exact htouches rfl
    · exact htouches (congrArg some htoken)

/-! ## Who is in the slot -/

/-- The event takes or empties the slot of the token of `u`. -/
def Event.SlotOf (u : Nat) (e : Event) : Prop := e = .register u ∨ e = .unregister u

/-- The worker of `v` is the last to have registered on token `t`, and none on
the token has unregistered since. -/
def InSlot (tr : List Event) (σ : State Req Params Mem Resp) (t v : Nat) : Prop :=
  (σ.streams v).token = t ∧ ∃ before after, tr = before ++ .register v :: after ∧
    ∀ u, (σ.streams u).token = t → ∀ d ∈ after, ¬ d.SlotOf u

/-- Whoever takes or empties a slot has been started. -/
theorem started_of_slotOf (h : (machine V).Run tr σ) (guard : enabled V σ e) {d : Event} {u : Nat}
    (hmem : d ∈ tr ++ [e]) (hslot : d.SlotOf u) : (σ.streams u).worker ≠ .absent := by
  rcases List.mem_append.mp hmem with hold | hnew
  · rcases hslot with rfl | rfl
    · exact started_of_move h hold rfl
    · exact started_of_move h hold rfl
  · obtain rfl := List.mem_singleton.mp hnew
    rcases hslot with rfl | rfl
    · rw [show (σ.streams u).worker = .modelled from guard.2]
      simp
    · rw [show (σ.streams u).worker = .returned from guard.2]
      simp

/-- One step: the slot is taken by a registration, and kept by whatever is
neither a registration nor the opposite on the token. -/
theorem inSlot_next (h : (machine V).Run tr σ) (guard : enabled V σ e) {t v : Nat} :
    InSlot (tr ++ [e]) (next V σ e) t v ↔
      (e = .register v ∧ (σ.streams v).token = t) ∨
        (InSlot tr σ t v ∧ ∀ u, (σ.streams u).token = t → ¬ e.SlotOf u) := by
  have htoken : ∀ {u : Nat} {d : Event}, d ∈ tr ++ [e] → d.SlotOf u →
      ((next V σ e).streams u).token = (σ.streams u).token :=
    fun hmem hslot => token_fixed guard (started_of_slotOf h guard hmem hslot)
  constructor
  · rintro ⟨hv, before, after, heq, hafter⟩
    have hmem : .register v ∈ tr ++ [e] := by
      rw [heq]
      simp
    rw [htoken hmem (Or.inl rfl)] at hv
    rcases List.eq_nil_or_concat after with rfl | ⟨after', d, rfl⟩
    · left
      exact ⟨List.singleton_inj.mp (List.append_inj' heq rfl).2, hv⟩
    · right
      rw [List.concat_eq_append, ← List.cons_append, ← List.append_assoc] at heq
      obtain ⟨htr, hd⟩ := List.append_inj' heq rfl
      obtain rfl := List.singleton_inj.mp hd
      rw [List.concat_eq_append] at hafter
      refine ⟨⟨hv, before, after', htr, ?_⟩, ?_⟩
      · intro u hu d hd hslot
        have hin : d ∈ tr ++ [e] := by
          rw [htr]
          simp [hd]
        exact hafter u ((htoken hin hslot).trans hu) d (List.mem_append_left _ hd) hslot
      · intro u hu hslot
        have hin : e ∈ tr ++ [e] := by simp
        exact hafter u ((htoken hin hslot).trans hu) e (by simp) hslot
  · rintro (⟨rfl, hv⟩ | ⟨⟨hv, before, after, rfl, hafter⟩, hkept⟩)
    · refine ⟨(htoken (by simp) (Or.inl rfl)).trans hv, tr, [], rfl, ?_⟩
      intro u _ d hd
      cases hd
    · refine ⟨(htoken (d := .register v) (by simp) (Or.inl rfl)).trans hv,
        before, after ++ [e], by simp, ?_⟩
      intro u hu d hd hslot
      have hin : d ∈ before ++ .register v :: after ++ [e] := by
        rcases List.mem_append.mp hd with hold | hnew
        · simp [hold]
        · simp [List.mem_singleton.mp hnew]
      rw [htoken hin hslot] at hu
      rcases List.mem_append.mp hd with hold | hnew
      · exact hafter u hu d hold hslot
      · rw [List.mem_singleton.mp hnew] at hslot
        exact hkept u hu hslot

/-- **The slot.**  It is that of the worker that registered last on the token,
and empty once a worker on the token has unregistered since. -/
theorem slot_iff (h : (machine V).Run tr σ) {t v : Nat} :
    (σ.tokens t).active_stream_limit = some v ↔ InSlot tr σ t v := by
  refine h.holds (I := fun tr σ =>
    (σ.tokens t).active_stream_limit = some v ↔ InSlot tr σ t v) ?_ ?_
  · simp [machine, initial, InSlot]
  intro tr σ e hrun ih guard
  change ((next V σ e).tokens t).active_stream_limit = some v ↔ InSlot (tr ++ [e]) (next V σ e) t v
  rw [inSlot_next hrun guard, ← ih, slot_next]
  cases e with
  | newStopToken u =>
      by_cases htu : t = u
      · subst htu
        rw [unmade ⟨tr, hrun⟩ guard.2]
        simp [initial]
      · simp [htu, Event.SlotOf]
  | register u =>
      by_cases htu : t = (σ.streams u).token
      · have htaken : ¬ ∀ w, (σ.streams w).token = t → ¬ (Event.register u).SlotOf w :=
          fun hkept => hkept u htu.symm (Or.inl rfl)
        simp only [htu, if_true, Option.some.injEq, Event.register.injEq]
        rw [← htu]
        constructor
        · rintro rfl
          exact Or.inl ⟨rfl, htu.symm⟩
        · rintro (⟨heq, -⟩ | ⟨-, hkept⟩)
          · exact heq
          · exact absurd hkept htaken
      · simp only [htu, if_false, Event.register.injEq]
        constructor
        · intro hslot
          refine Or.inr ⟨hslot, ?_⟩
          rintro w hw (heq | heq)
          · obtain rfl := Event.register.inj heq
            exact htu hw.symm
          · cases heq
        · rintro (⟨rfl, hv⟩ | ⟨hslot, -⟩)
          · exact absurd hv.symm htu
          · exact hslot
  | unregister u =>
      by_cases htu : t = (σ.streams u).token
      · have htaken : ¬ ∀ w, (σ.streams w).token = t → ¬ (Event.unregister u).SlotOf w :=
          fun hkept => hkept u htu.symm (Or.inr rfl)
        simp only [htu, if_true, reduceCtorEq, false_and, false_or, false_iff, not_and]
        rw [← htu]
        exact fun _ => htaken
      · simp only [htu, if_false, reduceCtorEq, false_and, false_or]
        refine (and_iff_left ?_).symm
        rintro w hw (heq | heq)
        · cases heq
        · obtain rfl := Event.unregister.inj heq
          exact htu hw.symm
  | _ => simp [Event.SlotOf]

/-! ## The queue of a stream -/

/-- Seen from the queue of a stream, a run of the shim is a run of that queue. -/
theorem state_reachable (h : (machine V).Reachable σ) (v : Nat) :
    (Cpsat.Stream.machine Nat ByteArray).Reachable (σ.streams v).state := by
  let seen : State Req Params Mem Resp → Event → Option (Cpsat.Stream.Event Nat ByteArray)
    | _, .queue u d => if v = u then some d else none
    | _, _ => none
  refine h.project (N := Cpsat.Stream.machine Nat ByteArray)
    (f := fun σ => (σ.streams v).state) (g := seen) rfl ?_ ?_
  · intro σ e hσ guard hskip
    change ((next V σ e).streams v).state = (σ.streams v).state
    rw [state_next]
    cases e with
    | streamStart u _ _ _ =>
        by_cases hvu : v = u
        · subst hvu
          simp [(unstarted hσ (v := v) guard.2.1).2]
        · simp [hvu]
    | queue u d =>
        by_cases hvu : v = u
        · simp [seen, hvu] at hskip
        · simp [hvu]
    | _ => rfl
  · intro σ e d _ guard hstep
    change Cpsat.Stream.enabled (σ.streams v).state d ∧
      ((next V σ e).streams v).state = Cpsat.Stream.next (σ.streams v).state d
    cases e with
    | queue u d' =>
        by_cases hvu : v = u
        · subst hvu
          simp only [seen, if_true, Option.some.injEq] at hstep
          subst hstep
          refine ⟨guard.2.2, ?_⟩
          rw [state_next]
          simp
        · simp [seen, hvu] at hstep
    | _ => cases hstep

end Cpsat.Shim
