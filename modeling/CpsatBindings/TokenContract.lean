import CpsatBindings.Isolation
import CpsatBindings.LostStops
import CpsatBindings.UnaskedStops

/-!
# A token for each solve

What goes wrong on a shared token goes wrong because two solves meet there.  A
caller that makes a new token for each streaming and each interruptible solve
is safe, whatever the order of the steps: `one_solve_each`.

The key is `slot_kept`: while the only stream of a token is registered, the
slot is its own.
-/

namespace Cpsat.Shim

variable {Req Params Mem Resp : Type*} {V : CpSat Req Params Mem Resp}
  {σ : State Req Params Mem Resp} {e : Event} {tr : List Event}

/-- The token an event starts a solve on. -/
def Event.uses : Event → Option Nat
  | .streamStart _ t _ _ | .interruptibleBegin _ t _ _ => some t
  | _ => none

/-- No token is used for two solves. -/
def OneSolveEach (tr : List Event) : Prop := (tr.filterMap Event.uses).Nodup

theorem OneSolveEach.of_append {before after : List Event}
    (h : OneSolveEach (before ++ after)) : OneSolveEach before := by
  rw [OneSolveEach, List.filterMap_append] at h
  exact h.of_append_left

/-! ## The only stream of a token -/

/-- A stream that has been started was started on its token. -/
theorem started_on (h : (machine V).Run tr σ) {v : Nat} :
    (σ.streams v).worker ≠ .absent → ∃ m p, .streamStart v (σ.streams v).token m p ∈ tr := by
  refine h.holds (I := fun tr σ => (σ.streams v).worker ≠ .absent →
    ∃ m p, .streamStart v (σ.streams v).token m p ∈ tr)
    (fun hstarted => absurd rfl hstarted) ?_
  intro tr σ e _ ih guard hstarted
  change ((next V σ e).streams v).worker ≠ .absent at hstarted
  change ∃ m p, .streamStart v ((next V σ e).streams v).token m p ∈ tr ++ [e]
  by_cases hbefore : (σ.streams v).worker = .absent
  · rcases worker_step guard v with hstay | hmove
    · exact absurd (hstay.trans hbefore) hstarted
    · rw [hbefore] at hmove
      cases e with
      | streamStart u t m p =>
          simp only [Event.moves, Option.some.injEq, Prod.mk.injEq] at hmove
          obtain ⟨rfl, -, -⟩ := hmove
          rw [token_next]
          simp only [if_true]
          exact ⟨m, p, List.mem_append_right _ List.mem_cons_self⟩
      | _ => simp [Event.moves] at hmove
  · obtain ⟨m, p, hmem⟩ := ih hbefore
    rw [token_fixed guard hbefore]
    exact ⟨m, p, List.mem_append_left _ hmem⟩

/-- A token has one stream at most. -/
theorem sole_stream (h : (machine V).Run tr σ) (hone : OneSolveEach tr) {u v : Nat}
    (hu : (σ.streams u).worker ≠ .absent) (hv : (σ.streams v).worker ≠ .absent)
    (htoken : (σ.streams u).token = (σ.streams v).token) : u = v := by
  obtain ⟨m, p, hmem⟩ := started_on h hu
  obtain ⟨m', p', hmem'⟩ := started_on h hv
  rw [htoken] at hmem
  have heq := eq_of_nodup_filterMap hone hmem hmem' rfl rfl
  simp only [Event.streamStart.injEq] at heq
  exact heq.1

/-- A registered worker has been started. -/
theorem WorkerPhase.Registered.started {w : WorkerPhase} (h : w.Registered) : w ≠ .absent := by
  rintro rfl
  exact h

/-- While the only stream of a token is registered, it has the slot. -/
theorem slot_kept (h : (machine V).Run tr σ) {v : Nat} :
    OneSolveEach tr → (σ.streams v).worker.Registered →
      (σ.tokens (σ.streams v).token).active_stream_limit = some v := by
  refine h.holds (I := fun tr σ => OneSolveEach tr → (σ.streams v).worker.Registered →
    (σ.tokens (σ.streams v).token).active_stream_limit = some v)
    (fun _ hreg => absurd hreg id) ?_
  intro tr σ e hrun ih guard hone hreg
  change ((next V σ e).streams v).worker.Registered at hreg
  change ((next V σ e).tokens ((next V σ e).streams v).token).active_stream_limit = some v
  have hσ : (machine V).Reachable σ := ⟨tr, hrun⟩
  by_cases hbefore : (σ.streams v).worker.Registered
  · have hslot := ih hone.of_append hbefore
    rw [token_fixed guard hbefore.started, slot_next]
    cases e with
    | newStopToken u =>
        -- the token of a registered worker is there already
        have hmade := made_of_held hσ (held_by_stream hσ hbefore.started (by
          intro hreleased
          rw [joined_exited hσ (Or.inr hreleased)] at hbefore
          exact hbefore))
        have hother : ¬ (σ.streams v).token = u := by
          rintro rfl
          rw [show (σ.tokens (σ.streams v).token).references.made = false from guard.2] at hmade
          cases hmade
        simpa only [hother, if_false] using hslot
    | register u =>
        have hmodelled : (σ.streams u).worker = .modelled := guard.2
        have hother : ¬ (σ.streams v).token = (σ.streams u).token := by
          intro htoken
          obtain rfl := sole_stream hrun hone.of_append hbefore.started
            (by rw [hmodelled]; simp) htoken
          rw [hmodelled] at hbefore
          exact hbefore
        simpa only [hother, if_false] using hslot
    | unregister u =>
        have hreturned : (σ.streams u).worker = .returned := guard.2
        have hother : ¬ (σ.streams v).token = (σ.streams u).token := by
          intro htoken
          obtain rfl := sole_stream hrun hone.of_append hbefore.started
            (by rw [hreturned]; simp) htoken
          rw [worker_next] at hreg
          simp [Event.moves, WorkerPhase.Registered] at hreg
        simpa only [hother, if_false] using hslot
    | _ => exact hslot
  · rcases worker_step guard v with hstay | hmove
    · rw [hstay] at hreg
      exact absurd hreg hbefore
    · cases e with
      | register u =>
          simp only [Event.moves, Option.some.injEq, Prod.mk.injEq] at hmove
          obtain ⟨rfl, -, -⟩ := hmove
          have hmodelled : (σ.streams u).worker = .modelled := guard.2
          rw [token_fixed guard (by rw [hmodelled]; simp), slot_next]
          simp only [if_true]
      | workerSolve _ | workerReturn _ _ =>
          simp only [Event.moves, Option.some.injEq, Prod.mk.injEq] at hmove
          rw [← hmove.2.1] at hbefore
          exact absurd trivial hbefore
      | streamStart _ _ _ _ | workerModel _ | unregister _ | workerExit _ =>
          simp only [Event.moves, Option.some.injEq, Prod.mk.injEq] at hmove
          rw [← hmove.2.2] at hreg
          exact absurd hreg id
      | _ => cases hmove

/-! ## Safety -/

/-- A worker that searches is registered. -/
theorem WorkerPhase.Searching.registered {w : WorkerPhase} (h : w.Searching) : w.Registered := by
  rcases h with rfl | rfl <;> trivial

/-- A completed stop call has reached every solve searching on the token. -/
theorem stops_reach (h : (machine V).Run tr σ) :
    OneSolveEach tr → ∀ t, .stopSection t ∈ tr → ∀ v, (σ.streams v).token = t →
      (σ.streams v).worker.Searching → (σ.streams v).stopCalled = true := by
  refine h.holds (I := fun tr σ => OneSolveEach tr → ∀ t, .stopSection t ∈ tr → ∀ v,
    (σ.streams v).token = t → (σ.streams v).worker.Searching → (σ.streams v).stopCalled = true)
    (fun _ t hnil => absurd hnil List.not_mem_nil) ?_
  intro tr σ e hrun ih guard hone t hmem v htoken hsearch
  refine stopSection_step hrun guard (ih hone.of_append) ?_ hmem htoken hsearch
  rintro u rfl w hw hsearching
  left
  rw [← hw]
  exact slot_kept hrun hone.of_append hsearching.registered

/-- The finalizer of an unfinished handle has reached its own worker, unless
that worker has yet to register or its `SolveCpModel` has returned. -/
theorem drops_reach (h : (machine V).Run tr σ) {v : Nat} :
    OneSolveEach tr → .finalizeStop v ∈ tr → (σ.streams v).stopCalled = true ∨
      (σ.streams v).worker.Early ∨
        WorkerPhase.returned.rank ≤ (σ.streams v).worker.rank := by
  refine h.holds (I := fun tr σ => OneSolveEach tr → .finalizeStop v ∈ tr →
    (σ.streams v).stopCalled = true ∨ (σ.streams v).worker.Early ∨
      WorkerPhase.returned.rank ≤ (σ.streams v).worker.rank)
    (fun _ hnil => absurd hnil List.not_mem_nil) ?_
  intro tr σ e hrun ih guard hone hmem
  change ((next V σ e).streams v).stopCalled = true ∨
    ((next V σ e).streams v).worker.Early ∨
      WorkerPhase.returned.rank ≤ ((next V σ e).streams v).worker.rank
  rcases List.mem_append.mp hmem with hold | hnew
  · have hstarted := started_of_drop hrun hold rfl
    rcases ih hone.of_append hold with hcalled | hearly | hreturned
    · exact Or.inl (stopCalled_stays guard hstarted hcalled)
    · rcases early_next guard hearly with rfl | hstays
      · exact Or.inl (stopCalled_register ((stopped_iff hrun _).mpr (Or.inr ⟨v, rfl, hold⟩)))
      · exact Or.inr (Or.inl hstays)
    · exact Or.inr (Or.inr (le_trans hreturned (worker_rank_le guard v)))
  · obtain rfl := List.mem_singleton.mp hnew
    have hhandle : (σ.streams v).handle = .stopping := guard.2
    rw [worker_next]
    change _ ∨ (σ.streams v).worker.Early ∨ _ ≤ (σ.streams v).worker.rank
    cases hworker : (σ.streams v).worker with
    | absent =>
        rw [(unstarted ⟨tr, hrun⟩ hworker).1] at hhandle
        cases hhandle
    | started => exact Or.inr (Or.inl (Or.inl rfl))
    | modelled => exact Or.inr (Or.inl (Or.inr rfl))
    | registered | solving =>
        have hslot := slot_kept hrun hone.of_append (v := v) (by rw [hworker]; trivial)
        left
        rw [stopCalled_next]
        simp [stops, hslot]
    | returned | unregistered | exited => exact Or.inr (Or.inr (by decide))

/-- A dropped handle meets no other stream. -/
theorem drops_alone (h : (machine V).Run tr σ) (hone : OneSolveEach tr)
    (guard : enabled V σ e) : DropsMeetNobody tr σ e := by
  have hσ : (machine V).Reachable σ := ⟨tr, h⟩
  cases e with
  | finalizeStop u =>
      intro v hslot
      obtain ⟨htoken, hreg⟩ := slot_registered hσ ((slot_iff h).mpr hslot)
      have hhandle : (σ.streams u).handle = .stopping := guard.2
      have hstarted : (σ.streams u).worker ≠ .absent := by
        intro habsent
        rw [(unstarted hσ habsent).1] at hhandle
        cases hhandle
      obtain rfl := sole_stream h hone hreg.started hstarted htoken
      exact Or.inr (dropUnfinished_of_stopping h hhandle)
  | register v =>
      intro u htoken hdropped
      have hmodelled : (σ.streams v).worker = .modelled := guard.2
      have hstarted := started_of_drop h hdropped rfl
      obtain rfl := sole_stream h hone hstarted (by rw [hmodelled]; simp) htoken
      exact Or.inr (dropUnfinished_of_finalizeStop h hdropped)
  | _ => trivial

/-- No two solves are given one model. -/
theorem given_apart (h : (machine V).Run tr σ) :
    OneSolveEach tr → (tr.filterMap (given V)).Nodup := by
  refine h.holds (I := fun tr _ => OneSolveEach tr → (tr.filterMap (given V)).Nodup)
    (fun _ => List.nodup_nil) ?_
  intro tr σ e hrun ih guard hone
  refine (apart_step hrun (ih hone.of_append) guard).mpr ?_
  cases e with
  | interruptibleBegin c t m p =>
      intro _ c' m' p' hmem
      rw [OneSolveEach, List.filterMap_append] at hone
      have hused : t ∈ tr.filterMap Event.uses := List.mem_filterMap.mpr ⟨_, hmem, rfl⟩
      exact List.disjoint_of_nodup_append hone hused List.mem_cons_self
  | _ => trivial

/-- What a caller can rely on who makes a token for each solve. -/
structure Safe (V : CpSat Req Params Mem Resp) (tr : List Event)
    (σ : State Req Params Mem Resp) : Prop where
  stops : ∀ t, .stopSection t ∈ tr → ∀ v, (σ.streams v).token = t →
    (σ.streams v).worker.Searching → (σ.streams v).stopCalled = true
  drops : ∀ v, .finalizeStop v ∈ tr → (σ.streams v).stopCalled = true ∨
    (σ.streams v).worker.Early ∨ WorkerPhase.returned.rank ≤ (σ.streams v).worker.rank
  isolated : Isolated V tr σ

/-- **A token for each solve.**  In a run that uses no token for two solves,
no stop is lost, none is called that nobody asked for, and solves are
isolated. -/
theorem one_solve_each (h : (machine V).Run tr σ) (hone : OneSolveEach tr) :
    (machine V).EveryState (Safe V) tr ∧ (machine V).EveryStep StopAsked tr ∧
      (machine V).EveryState StoppedAsked tr := by
  have hasked : (machine V).EveryStep StopAsked tr := by
    rintro before e after m rfl hm
    obtain ⟨m', hm', guard, -⟩ := h.step_at
    obtain rfl := hm'.unique hm
    exact (stopAsked_iff hm guard).mpr (drops_alone hm hone.of_append guard)
  refine ⟨?_, hasked, (stoppedAsked_iff h).mpr hasked⟩
  rintro before after m rfl hm
  have hbefore := hone.of_append
  exact ⟨stops_reach hm hbefore, fun v => drops_reach hm hbefore,
    isolated_of_apart hm (given_apart hm hbefore)⟩

/-- Two streams, each on its own token: one is stopped, the other dropped. -/
def twoTokens : List Event :=
  [.newStopToken 0, .newStopToken 1, .streamStart 0 0 .empty .empty,
    .streamStart 1 1 .empty .empty, .workerModel 0, .register 0, .workerSolve 0,
    .workerModel 1, .register 1, .workerSolve 1, .stopSearch 0, .stopSection 0,
    .dropUnfinished 1, .finalizeStop 1]

/-- Two streams, each on a token of its own. -/
theorem twoTokens_safe : (machine tally).EveryState (Safe tally) twoTokens ∧
    (machine tally).EveryStep StopAsked twoTokens ∧
      (machine tally).EveryState StoppedAsked twoTokens := by
  have hone : OneSolveEach twoTokens := by
    change List.Nodup _
    decide +kernel
  have hrun : (machine tally).Run twoTokens _ := Machine.run_of_exec _ (by decide +kernel)
  exact one_solve_each hrun hone

end Cpsat.Shim
