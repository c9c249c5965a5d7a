import Mathlib.Data.Finset.Card
import CpsatBindings.ShimSteps

/-!
# Lifetimes in the shim

Three lifetimes are tied together by hand: the token's, by the references to
it; the handle's, by the stages of its finalizer; and the model's, by the worker
that made it.

* `slot_registered` — the active limit of a token is that of a worker
  registered on it, so its model is there.
* `owners_counted` — the references to a token are the visible ones and one for
  each stream whose handle has not released it.
* `joined_exited` — a joined worker has left `RunStream`.
* `touched_held` — whatever token an event touches is referred to.

Whether the object a token is in is there as long as it is referred to is
another matter: that depends on how Lean counts.
-/

namespace Cpsat.Shim

variable {Req Params Mem Resp : Type*} {V : CpSat Req Params Mem Resp}
  {σ : State Req Params Mem Resp} {e : Event}

/-! ## Streams not started yet -/

/-- The queue of a stream that has not been started can do nothing. -/
theorem queue_idle {h : Stream Req Params Mem Resp} {d : Cpsat.Stream.Event Nat ByteArray}
    (hworker : h.worker = .absent) (hhandle : h.handle = .none) (hstate : h.state = {}) :
    ¬ (queueGate V h d ∧ Cpsat.Stream.enabled h.state d) := by
  rintro ⟨hgate, hqueue⟩
  rw [hstate] at hqueue
  cases d with
  | push bytes => simp [queueGate, hworker] at hgate
  | pushDone bytes => simp [queueGate, hworker] at hgate
  | notify wakes => cases wakes <;> simp [Cpsat.Stream.enabled] at hqueue
  | call c => simp [queueGate, hhandle] at hgate
  | enter c => simp [Cpsat.Stream.enabled] at hqueue
  | spurious c => simp [Cpsat.Stream.enabled] at hqueue

/-- Nothing is known of a stream before it is started. -/
theorem unstarted (h : (machine V).Reachable σ) {v : Nat} :
    (σ.streams v).worker = .absent →
      (σ.streams v).handle = .none ∧ (σ.streams v).state = {} := by
  refine h.holds (I := fun σ => (σ.streams v).worker = .absent →
    (σ.streams v).handle = .none ∧ (σ.streams v).state = {}) (fun _ => ⟨rfl, rfl⟩) ?_
  intro σ e _ ih guard habsent
  change ((next V σ e).streams v).worker = .absent at habsent
  change ((next V σ e).streams v).handle = .none ∧ ((next V σ e).streams v).state = {}
  by_cases hv : e.stream = some v
  · have hguard := guard.2
    cases e with
    | streamStart _ _ _ _ | workerModel _ | register _ | workerSolve _ | workerReturn _ _
    | unregister _ | workerExit _ =>
        obtain rfl : _ = v := Option.some.inj hv
        simp [worker_next, Event.moves] at habsent
    | queue u d =>
        obtain rfl : u = v := Option.some.inj hv
        rw [worker_next] at habsent
        obtain ⟨hhandle, hstate⟩ := ih habsent
        exact absurd hguard (queue_idle habsent hhandle hstate)
    | dropUnfinished u | dropFinished u | finalizeJoin u =>
        obtain rfl : u = v := Option.some.inj hv
        rw [worker_next] at habsent
        rw [hguard.1] at ih
        cases (ih habsent).1
    | finalizeStop u | finalizeRelease u =>
        obtain rfl : u = v := Option.some.inj hv
        rw [worker_next] at habsent
        rw [show (σ.streams u).handle = _ from hguard] at ih
        cases (ih habsent).1
    | _ => cases hv
  · rw [worker_untouched hv] at habsent
    rw [handle_untouched hv, state_untouched hv]
    exact ih habsent

/-- A stream that has been started stays on its token. -/
theorem token_fixed (guard : enabled V σ e) {v : Nat}
    (hstarted : (σ.streams v).worker ≠ .absent) :
    ((next V σ e).streams v).token = (σ.streams v).token := by
  rw [token_next]
  split
  · rename_i u t modelBytes paramsBytes
    by_cases huv : v = u
    · subst huv
      exact absurd guard.2.1 hstarted
    · simp [huv]
  · rfl

/-! ## The active limit -/

/-- Between the two critical sections of `RunStream`. -/
def WorkerPhase.Registered : WorkerPhase → Prop
  | .registered | .solving | .returned => True
  | _ => False

/-- While `RunStream` has its `Model`. -/
def WorkerPhase.HasModel : WorkerPhase → Prop
  | .modelled | .registered | .solving | .returned | .unregistered => True
  | _ => False

/-- A registered worker has a model. -/
theorem WorkerPhase.Registered.hasModel {w : WorkerPhase} (h : w.Registered) : w.HasModel := by
  cases w <;> trivial

/-- Only its own second critical section unregisters a worker. -/
theorem registered_next (guard : enabled V σ e) {v : Nat}
    (hreg : (σ.streams v).worker.Registered) (hne : e ≠ .unregister v) :
    ((next V σ e).streams v).worker.Registered := by
  rcases worker_step guard v with hstay | hmove
  · rwa [hstay]
  · cases e with
    | unregister u =>
        simp only [Event.moves, Option.some.injEq, Prod.mk.injEq] at hmove
        exact absurd (by rw [hmove.1]) hne
    | workerSolve _ | workerReturn _ _ =>
        simp only [Event.moves, Option.some.injEq, Prod.mk.injEq] at hmove
        rw [← hmove.2.2]
        trivial
    | streamStart _ _ _ _ | workerModel _ | register _ | workerExit _ =>
        simp only [Event.moves, Option.some.injEq, Prod.mk.injEq] at hmove
        rw [← hmove.2.1] at hreg
        exact absurd hreg id
    | _ => cases hmove

/-- **The slot.**  A token's active limit is that of a worker registered on
that very token. -/
theorem slot_registered (h : (machine V).Reachable σ) {t v : Nat} :
    (σ.tokens t).active_stream_limit = some v →
      (σ.streams v).token = t ∧ (σ.streams v).worker.Registered := by
  refine h.holds (I := fun σ => ∀ t v, (σ.tokens t).active_stream_limit = some v →
    (σ.streams v).token = t ∧ (σ.streams v).worker.Registered) (fun t v hslot => ?_) ?_ t v
  · cases hslot
  intro σ e _ ih guard t v hslot
  change ((next V σ e).tokens t).active_stream_limit = some v at hslot
  change ((next V σ e).streams v).token = t ∧ ((next V σ e).streams v).worker.Registered
  -- whoever was in the slot and has not just left it is still there
  have hstay : (σ.tokens t).active_stream_limit = some v → e ≠ .unregister v →
      ((next V σ e).streams v).token = t ∧ ((next V σ e).streams v).worker.Registered := by
    intro hold hne
    obtain ⟨htoken, hreg⟩ := ih t v hold
    refine ⟨?_, registered_next guard hreg hne⟩
    rw [token_fixed guard, htoken]
    intro habsent
    rw [habsent] at hreg
    exact hreg
  rw [slot_next] at hslot
  cases e with
  | newStopToken u =>
      by_cases htu : t = u
      · simp [htu] at hslot
      · simp only [htu, if_false] at hslot
        exact hstay hslot (by simp)
  | register u =>
      by_cases htu : t = (σ.streams u).token
      · simp only [htu, if_true, Option.some.injEq] at hslot
        subst hslot
        have hmodelled : (σ.streams u).worker = .modelled := guard.2
        refine ⟨?_, ?_⟩
        · rw [token_fixed guard (by rw [hmodelled]; simp), htu]
        · rw [worker_next]
          simp [Event.moves, WorkerPhase.Registered]
      · simp only [htu, if_false] at hslot
        exact hstay hslot (by simp)
  | unregister u =>
      by_cases htu : t = (σ.streams u).token
      · simp [htu] at hslot
      · simp only [htu, if_false] at hslot
        refine hstay hslot ?_
        intro heq
        obtain rfl : u = v := by simpa using heq
        exact htu (ih t u hslot).1.symm
  | _ => exact hstay hslot (by simp)

/-! ## Handles -/

/-- A stream that has been started has a handle. -/
theorem handled (h : (machine V).Reachable σ) {v : Nat} :
    (σ.streams v).worker ≠ .absent → (σ.streams v).handle ≠ .none := by
  refine h.holds (I := fun σ => (σ.streams v).worker ≠ .absent →
    (σ.streams v).handle ≠ .none) (fun hstarted => absurd rfl hstarted) ?_
  intro σ e hσ ih guard hstarted
  change ((next V σ e).streams v).worker ≠ .absent at hstarted
  change ((next V σ e).streams v).handle ≠ .none
  have hguard := guard.2
  by_cases hv : e.stream = some v
  · rw [handle_next]
    cases e with
    | workerModel u | register u | workerSolve u | unregister u =>
        obtain rfl : u = v := Option.some.inj hv
        exact ih (by rw [show (σ.streams u).worker = _ from hguard]; simp)
    | workerReturn u _ | workerExit u =>
        obtain rfl : u = v := Option.some.inj hv
        exact ih (by rw [hguard.1]; simp)
    | queue u d =>
        obtain rfl : u = v := Option.some.inj hv
        rw [worker_next] at hstarted
        exact ih hstarted
    | streamStart u _ _ _ | dropUnfinished u | dropFinished u | finalizeStop u
    | finalizeJoin u | finalizeRelease u =>
        obtain rfl : u = v := Option.some.inj hv
        simp [Event.drops]
    | _ => cases hv
  · rw [worker_untouched hv] at hstarted
    rw [handle_untouched hv]
    exact ih hstarted

/-- The finalizer passes `worker.join()` only when `RunStream` has returned. -/
theorem joined_exited (h : (machine V).Reachable σ) {v : Nat} :
    (σ.streams v).handle = .joined ∨ (σ.streams v).handle = .released →
      (σ.streams v).worker = .exited := by
  refine h.holds (I := fun σ => (σ.streams v).handle = .joined ∨
    (σ.streams v).handle = .released → (σ.streams v).worker = .exited) (by simp [machine, initial]) ?_
  intro σ e hσ ih guard hjoined
  change ((next V σ e).streams v).handle = .joined ∨
    ((next V σ e).streams v).handle = .released at hjoined
  change ((next V σ e).streams v).worker = .exited
  have hguard := guard.2
  by_cases hv : e.stream = some v
  · rw [handle_next] at hjoined
    rw [worker_next]
    cases e with
    | workerModel u | register u | workerSolve u | unregister u =>
        obtain rfl : u = v := Option.some.inj hv
        have hexited := ih hjoined
        rw [show (σ.streams u).worker = _ from hguard] at hexited
        cases hexited
    | workerReturn u _ | workerExit u =>
        obtain rfl : u = v := Option.some.inj hv
        have hexited := ih hjoined
        rw [hguard.1] at hexited
        cases hexited
    | queue u d => exact ih hjoined
    | streamStart u _ _ _ | dropUnfinished u | dropFinished u | finalizeStop u =>
        obtain rfl : u = v := Option.some.inj hv
        simp [Event.drops] at hjoined
    | finalizeJoin u =>
        obtain rfl : u = v := Option.some.inj hv
        exact hguard.2
    | finalizeRelease u =>
        obtain rfl : u = v := Option.some.inj hv
        exact ih (Or.inl hguard)
    | _ => cases hv
  · rw [handle_untouched hv] at hjoined
    rw [worker_untouched hv]
    exact ih hjoined

/-! ## Reference counts -/

/-- The handle of a stream owns a reference to its token. -/
def Stream.Owns (h : Stream Req Params Mem Resp) (t : Nat) : Prop :=
  h.token = t ∧ h.handle ≠ .none ∧ h.handle ≠ .released

/-- A reference is taken when a stream is started and given back at the end of
its handle's finalizer; nothing else moves one. -/
theorem owns_next (guard : enabled V σ e) {v t : Nat}
    (hstart : ∀ u m p, e ≠ .streamStart v u m p) (hrelease : e ≠ .finalizeRelease v) :
    ((next V σ e).streams v).Owns t ↔ (σ.streams v).Owns t := by
  have hguard := guard.2
  unfold Stream.Owns
  by_cases hv : e.stream = some v
  · rw [handle_next, token_next]
    cases e with
    | streamStart u _ _ _ =>
        obtain rfl : u = v := Option.some.inj hv
        exact absurd rfl (hstart _ _ _)
    | finalizeRelease u =>
        obtain rfl : u = v := Option.some.inj hv
        exact absurd rfl hrelease
    | dropUnfinished u | dropFinished u | finalizeJoin u =>
        obtain rfl : u = v := Option.some.inj hv
        simp [Event.drops, hguard.1]
    | finalizeStop u =>
        obtain rfl : u = v := Option.some.inj hv
        simp [Event.drops, show (σ.streams u).handle = _ from hguard]
    | workerModel _ | register _ | workerSolve _ | workerReturn _ _ | unregister _
    | workerExit _ | queue _ _ => exact Iff.rfl
    | _ => cases hv
  · rw [handle_untouched hv, token_untouched hv]

/-- An event that does not touch a token moves none of its references. -/
theorem owns_untouched (hσ : (machine V).Reachable σ) (guard : enabled V σ e) {t : Nat}
    (h : touches σ e ≠ some t) (v : Nat) :
    ((next V σ e).streams v).Owns t ↔ (σ.streams v).Owns t := by
  by_cases hstart : ∃ u m p, e = .streamStart v u m p
  · obtain ⟨u, m, p, rfl⟩ := hstart
    have hother : ¬ u = t := fun heq => h (by rw [heq]; rfl)
    have hnone := (unstarted hσ guard.2.1).1
    simp [Stream.Owns, token_next, hother, hnone]
  · by_cases hrelease : e = .finalizeRelease v
    · subst hrelease
      have hother : ¬ (σ.streams v).token = t := fun heq => h (by rw [← heq]; rfl)
      simp [Stream.Owns, token_next, hother]
    · refine owns_next guard ?_ hrelease
      intro u m p heq
      exact hstart ⟨u, m, p, heq⟩

/-- **References.**  The references to a token that are not visible are those
of the streams whose handle has not released it. -/
theorem owners_counted (h : (machine V).Reachable σ) (t : Nat) :
    ∃ owners : Finset Nat, (∀ v, v ∈ owners ↔ (σ.streams v).Owns t) ∧
      (σ.tokens t).references.OwnedBy owners.card := by
  refine h.holds (I := fun σ => ∃ owners : Finset Nat,
    (∀ v, v ∈ owners ↔ (σ.streams v).Owns t) ∧
      (σ.tokens t).references.OwnedBy owners.card) ⟨∅, ?_, References.ownedBy_absent⟩ ?_
  · intro v
    simp [Stream.Owns, machine, initial]
  intro σ e hσ ih guard
  change ∃ owners : Finset Nat, (∀ v, v ∈ owners ↔ ((next V σ e).streams v).Owns t) ∧
    ((next V σ e).tokens t).references.OwnedBy owners.card
  obtain ⟨owners, howners, hcount⟩ := ih
  have hguard := guard.2
  -- the owners stay, and it remains to say how the references move
  have hsame : (∀ v, ((next V σ e).streams v).Owns t ↔ (σ.streams v).Owns t) →
      ((next V σ e).tokens t).references.OwnedBy owners.card →
      ∃ owners : Finset Nat, (∀ v, v ∈ owners ↔ ((next V σ e).streams v).Owns t) ∧
        ((next V σ e).tokens t).references.OwnedBy owners.card :=
    fun hkept hrefs => ⟨owners, fun v => (howners v).trans (hkept v).symm, hrefs⟩
  by_cases htouches : touches σ e = some t
  · cases e with
    | newStopToken u =>
        obtain rfl : u = t := Option.some.inj htouches
        refine hsame (fun v => owns_next guard (by simp) (by simp)) ?_
        have hnone := hcount.unmade hguard
        rw [References.total, hcount.owned] at hnone
        rw [references_next, show owners.card = 0 by omega]
        simp only [if_true]
        exact References.ownedBy_fresh
    | shareToken u =>
        obtain rfl : u = t := Option.some.inj htouches
        refine hsame (fun v => owns_next guard (by simp) (by simp)) ?_
        rw [references_next]
        simp only [if_true]
        exact hcount.share (References.total_pos_of_visible hguard)
    | releaseToken u =>
        obtain rfl : u = t := Option.some.inj htouches
        refine hsame (fun v => owns_next guard (by simp) (by simp)) ?_
        rw [references_next]
        simp only [if_true]
        exact hcount.release (References.total_pos_of_visible hguard.1)
    | streamStart v u m p =>
        obtain rfl : u = t := Option.some.inj htouches
        have hout : v ∉ owners := by
          rw [howners]
          exact fun howns => howns.2.1 (unstarted hσ hguard.1).1
        refine ⟨insert v owners, ?_, ?_⟩
        · intro w
          rw [Finset.mem_insert]
          by_cases hwv : w = v
          · subst hwv
            simp [Stream.Owns, handle_next, token_next, Event.drops]
          · have hvw : v ≠ w := fun heq => hwv heq.symm
            rw [owns_next guard (by simp [hvw]) (by simp), howners]
            simp [hwv]
        · rw [references_next, Finset.card_insert_of_notMem hout]
          simp only [if_true]
          exact hcount.own (References.total_pos_of_visible hguard.2)
    | finalizeRelease v =>
        obtain rfl : (σ.streams v).token = t := Option.some.inj htouches
        have hjoined : (σ.streams v).handle = .joined := hguard
        have hin : v ∈ owners := by
          rw [howners, Stream.Owns, hjoined]
          simp
        refine ⟨owners.erase v, ?_, ?_⟩
        · intro w
          rw [Finset.mem_erase]
          by_cases hwv : w = v
          · subst hwv
            simp [Stream.Owns, handle_next, Event.drops]
          · have hvw : v ≠ w := fun heq => hwv heq.symm
            rw [owns_next guard (by simp) (by simp [hvw]), howners]
            simp [hwv]
        · rw [← Finset.card_erase_add_one hin] at hcount
          rw [references_next]
          simp only [if_true]
          exact hcount.disown
    | _ =>
        refine hsame (fun v => owns_next guard (by simp) (by simp)) ?_
        rw [references_next]
        exact hcount
  · refine hsame (owns_untouched hσ guard htouches) ?_
    rw [tokens_untouched htouches]
    exact hcount

/-- A token that is referred to has been made. -/
theorem made_of_held (h : (machine V).Reachable σ) {t : Nat}
    (hheld : 0 < (σ.tokens t).references.total) : (σ.tokens t).references.made = true := by
  obtain ⟨owners, -, hcount⟩ := owners_counted h t
  exact hcount.made hheld

/-! ## Borrowed tokens -/

/-- While a call borrows a token, Lean code holds a reference to it. -/
theorem borrowed (h : (machine V).Reachable σ) (t : Nat) :
    0 < (σ.tokens t).stopping + (σ.tokens t).solving →
      0 < (σ.tokens t).references.visible := by
  refine h.holds (I := fun σ => 0 < (σ.tokens t).stopping + (σ.tokens t).solving →
    0 < (σ.tokens t).references.visible) (by simp [machine, initial]) ?_
  intro σ e hσ ih guard hbusy
  change 0 < ((next V σ e).tokens t).stopping + ((next V σ e).tokens t).solving at hbusy
  change 0 < ((next V σ e).tokens t).references.visible
  have hguard := guard.2
  by_cases htouches : touches σ e = some t
  · rw [stopping_next, solving_next] at hbusy
    rw [references_next]
    cases e with
    | newStopToken u =>
        obtain rfl : u = t := Option.some.inj htouches
        simp at hbusy
    | shareToken u =>
        obtain rfl : u = t := Option.some.inj htouches
        simp [References.share]
    | releaseToken u =>
        obtain rfl : u = t := Option.some.inj htouches
        simp only [if_true, References.release]
        obtain ⟨-, hkept | hidle⟩ := hguard
        · omega
        · simp only at hbusy
          omega
    | stopSearch u =>
        obtain rfl : u = t := Option.some.inj htouches
        exact hguard
    | stopSection u =>
        obtain rfl : u = t := Option.some.inj htouches
        simp only [if_true] at hbusy
        exact ih (by omega)
    | interruptibleBegin c u m p =>
        obtain rfl : u = t := Option.some.inj htouches
        exact hguard.2
    | callEnd c i =>
        have htoken : (σ.calls c).token = some t := htouches
        simp only [htoken, if_true] at hbusy
        exact ih (by omega)
    | streamStart v u m p =>
        obtain rfl : u = t := Option.some.inj htouches
        simpa [References.own] using hguard.2
    | finalizeRelease v =>
        obtain rfl : (σ.streams v).token = t := Option.some.inj htouches
        simp only [if_true, References.disown]
        exact ih hbusy
    | _ => exact ih hbusy
  · rw [tokens_untouched htouches] at hbusy ⊢
    exact ih hbusy

/-- A call that runs on a token. -/
def Call.RunsOn (call : Call Req Params Mem Resp) (t : Nat) : Prop :=
  call.phase = .running ∧ call.token = some t

/-- A call starts running on a token when an interruptible solve begins there,
and stops when it ends. -/
theorem runsOn_next (guard : enabled V σ e) {c t : Nat}
    (hbegin : ∀ m p, e = .interruptibleBegin c t m p → V.parses m p ≠ true)
    (hend : ∀ i, e = .callEnd c i → (σ.calls c).token ≠ some t) :
    ((next V σ e).calls c).RunsOn t ↔ (σ.calls c).RunsOn t := by
  by_cases hc : e.call = some c
  · cases e with
    | solveBegin b m p =>
        obtain rfl : b = c := Option.some.inj hc
        by_cases hparses : V.parses m p = true
        · have hidle : (σ.calls b).phase = .idle := guard.2
          simp [Call.RunsOn, call_solveBegin hparses, hidle]
        · rw [(calls_unparsed (t := t) hparses).1]
    | interruptibleBegin b u m p =>
        obtain rfl : b = c := Option.some.inj hc
        by_cases hparses : V.parses m p = true
        · have hidle : (σ.calls b).phase = .idle := guard.2.1
          have hother : u ≠ t := by
            rintro rfl
            exact hbegin m p rfl hparses
          simp [Call.RunsOn, call_interruptibleBegin hparses, hidle, hother]
        · rw [(calls_unparsed hparses).2]
    | callEnd b i =>
        obtain rfl : b = c := Option.some.inj hc
        simp [Call.RunsOn, call_callEnd, hend i rfl]
    | _ => cases hc
  · rw [calls_untouched hc]

/-- A token counts the interruptible solves that run on it. -/
theorem solving_counted (h : (machine V).Reachable σ) (t : Nat) :
    ∃ running : Finset Nat, (∀ c, c ∈ running ↔ (σ.calls c).RunsOn t) ∧
      (σ.tokens t).solving = running.card := by
  refine h.holds (I := fun σ => ∃ running : Finset Nat,
    (∀ c, c ∈ running ↔ (σ.calls c).RunsOn t) ∧
      (σ.tokens t).solving = running.card) ⟨∅, ?_, rfl⟩ ?_
  · intro c
    simp [Call.RunsOn, machine, initial]
  intro σ e hσ ih guard
  change ∃ running : Finset Nat, (∀ c, c ∈ running ↔ ((next V σ e).calls c).RunsOn t) ∧
    ((next V σ e).tokens t).solving = running.card
  obtain ⟨running, hrunning, hcard⟩ := ih
  -- the same calls run, and it remains to say that the count stays
  have hsame : (∀ c, ((next V σ e).calls c).RunsOn t ↔ (σ.calls c).RunsOn t) →
      ((next V σ e).tokens t).solving = (σ.tokens t).solving →
      ∃ running : Finset Nat, (∀ c, c ∈ running ↔ ((next V σ e).calls c).RunsOn t) ∧
        ((next V σ e).tokens t).solving = running.card :=
    fun hkept hcount => ⟨running, fun c => (hrunning c).trans (hkept c).symm, hcount.trans hcard⟩
  cases e with
  | newStopToken u =>
      refine hsame (fun c => runsOn_next guard (by simp) (by simp)) ?_
      rw [solving_next]
      by_cases htu : t = u
      · subst htu
        obtain ⟨owners, -, hcount⟩ := owners_counted hσ t
        have hunseen := hcount.unmade guard.2
        rw [References.total] at hunseen
        have hidle := mt (borrowed hσ t) (by omega)
        simp only [if_true]
        omega
      · simp only [htu, if_false]
  | interruptibleBegin c u m p =>
      by_cases hbegins : t = u ∧ V.parses m p = true
      · obtain ⟨rfl, hparses⟩ := hbegins
        have hout : c ∉ running := by
          rw [hrunning, Call.RunsOn, guard.2.1]
          simp
        refine ⟨insert c running, ?_, ?_⟩
        · intro d
          rw [Finset.mem_insert]
          by_cases hdc : d = c
          · subst hdc
            simp [Call.RunsOn, call_interruptibleBegin hparses]
          · have hcd : c ≠ d := fun heq => hdc heq.symm
            rw [runsOn_next guard (by simp [hcd]) (by simp), hrunning]
            simp [hdc]
        · rw [solving_next, Finset.card_insert_of_notMem hout, ← hcard]
          simp only [hparses, and_self, if_true]
      · refine hsame (fun d => runsOn_next guard ?_ (by simp)) ?_
        · intro m' p' heq hparses
          simp only [Event.interruptibleBegin.injEq] at heq
          obtain ⟨-, rfl, rfl, rfl⟩ := heq
          exact hbegins ⟨rfl, hparses⟩
        · rw [solving_next]
          simp only [hbegins, if_false]
  | callEnd c i =>
      by_cases htoken : (σ.calls c).token = some t
      · have hin : c ∈ running := (hrunning c).mpr ⟨guard.2.1, htoken⟩
        refine ⟨running.erase c, ?_, ?_⟩
        · intro d
          rw [Finset.mem_erase]
          by_cases hdc : d = c
          · subst hdc
            simp [Call.RunsOn, call_callEnd]
          · have hcd : c ≠ d := fun heq => hdc heq.symm
            rw [runsOn_next guard (by simp) (by simp [hcd]), hrunning]
            simp [hdc]
        · rw [solving_next, Finset.card_erase_of_mem hin, ← hcard]
          simp only [htoken, if_true]
      · refine hsame (fun d => runsOn_next guard (by simp) ?_) ?_
        · intro j heq
          simp only [Event.callEnd.injEq] at heq
          rwa [← heq.1]
        · rw [solving_next]
          simp only [htoken, if_false]
  | _ =>
      refine hsame (fun c => runsOn_next guard (by simp) (by simp)) ?_
      rw [solving_next]

/-! ## Tokens that are touched, limits that are stopped -/

/-- A stream that still has something to do owns a reference to its token. -/
theorem owned_by_stream (h : (machine V).Reachable σ) {v : Nat}
    (hstarted : (σ.streams v).worker ≠ .absent) (hheld : (σ.streams v).handle ≠ .released) :
    0 < (σ.tokens (σ.streams v).token).references.owned := by
  obtain ⟨owners, howners, hcount⟩ := owners_counted h (σ.streams v).token
  have hin : v ∈ owners := (howners v).mpr ⟨rfl, handled h hstarted, hheld⟩
  rw [hcount.owned]
  exact Finset.card_pos.mpr ⟨v, hin⟩

theorem held_by_stream (h : (machine V).Reachable σ) {v : Nat}
    (hstarted : (σ.streams v).worker ≠ .absent) (hheld : (σ.streams v).handle ≠ .released) :
    0 < (σ.tokens (σ.streams v).token).references.total := by
  have howned := owned_by_stream h hstarted hheld
  rw [References.total]
  omega

/-- The stream of a handle has been started. -/
theorem started_of_handle (h : (machine V).Reachable σ) {v : Nat}
    (hhandle : (σ.streams v).handle ≠ .none) : (σ.streams v).worker ≠ .absent := by
  intro habsent
  exact hhandle (unstarted h habsent).1

/-- Whatever token an event touches is referred to. -/
theorem touched_held (h : (machine V).Reachable σ) (guard : enabled V σ e) {t : Nat}
    (htouches : touches σ e = some t) (hnew : e ≠ .newStopToken t) :
    0 < (σ.tokens t).references.total := by
  have hguard := guard.2
  cases e with
  | newStopToken u =>
      obtain rfl : u = t := Option.some.inj htouches
      exact absurd rfl hnew
  | shareToken u | stopSearch u =>
      obtain rfl : u = t := Option.some.inj htouches
      exact References.total_pos_of_visible hguard
  | releaseToken u =>
      obtain rfl : u = t := Option.some.inj htouches
      exact References.total_pos_of_visible hguard.1
  | interruptibleBegin _ u _ _ | streamStart _ u _ _ =>
      obtain rfl : u = t := Option.some.inj htouches
      exact References.total_pos_of_visible hguard.2
  | stopSection u =>
      obtain rfl : u = t := Option.some.inj htouches
      have hbusy : 0 < (σ.tokens u).stopping := hguard
      exact References.total_pos_of_visible (borrowed h u (by omega))
  | callEnd c i =>
      obtain ⟨running, hrunning, hcard⟩ := solving_counted h t
      have hin : c ∈ running := (hrunning c).mpr ⟨hguard.1, htouches⟩
      have hpos : 0 < running.card := Finset.card_pos.mpr ⟨c, hin⟩
      exact References.total_pos_of_visible (borrowed h t (by omega))
  | register v | unregister v =>
      obtain rfl : (σ.streams v).token = t := Option.some.inj htouches
      have hworker : (σ.streams v).worker = _ := hguard
      refine held_by_stream h (by rw [hworker]; simp) ?_
      intro hreleased
      rw [joined_exited h (Or.inr hreleased)] at hworker
      cases hworker
  | finalizeStop v | finalizeRelease v =>
      obtain rfl : (σ.streams v).token = t := Option.some.inj htouches
      have hhandle : (σ.streams v).handle = _ := hguard
      exact held_by_stream h (started_of_handle h (by rw [hhandle]; simp)) (by rw [hhandle]; simp)
  | _ => cases htouches

/-- `Stop` is called on limits whose model is there. -/
theorem stopped_hasModel (h : (machine V).Reachable σ) (guard : enabled V σ e) {v : Nat}
    (hstop : stops σ e = some v) : (σ.streams v).worker.HasModel := by
  have hguard := guard.2
  cases e with
  | stopSection t => exact (slot_registered h hstop).2.hasModel
  | finalizeStop u => exact (slot_registered h hstop).2.hasModel
  | register u =>
      have hworker : (σ.streams u).worker = .modelled := hguard
      simp only [stops] at hstop
      split at hstop
      · obtain rfl : u = v := Option.some.inj hstop
        rw [hworker]
        trivial
      · cases hstop
  | _ => cases hstop

/-- The limit `Stop` is called on has been stopped. -/
theorem stopCalled_of_stops {v : Nat} (hstop : stops σ e = some v) :
    ((next V σ e).streams v).stopCalled = true := by
  rw [stopCalled_next]
  cases e with
  | streamStart _ _ _ _ => cases hstop
  | _ => simp [hstop]

/-- A limit is stopped by the event that calls `Stop` on it. -/
theorem stops_of_stopCalled {v : Nat} (hbefore : (σ.streams v).stopCalled = false)
    (hafter : ((next V σ e).streams v).stopCalled = true) : stops σ e = some v := by
  rw [stopCalled_next] at hafter
  cases e with
  | streamStart u _ _ _ => simp [hbefore] at hafter
  | _ => simpa [hbefore] using hafter

/-- A worker that has been started stays so. -/
theorem started_next (guard : enabled V σ e) {v : Nat}
    (hstarted : (σ.streams v).worker ≠ .absent) : ((next V σ e).streams v).worker ≠ .absent := by
  rcases worker_step guard v with hstay | hmove
  · rwa [hstay]
  · intro habsent
    rw [habsent] at hmove
    cases e <;> simp [Event.moves] at hmove

/-- Only streams that have been started are stopped. -/
theorem started_of_stopCalled (h : (machine V).Reachable σ) {v : Nat} :
    (σ.streams v).stopCalled = true → (σ.streams v).worker ≠ .absent := by
  refine h.holds (I := fun σ => (σ.streams v).stopCalled = true →
    (σ.streams v).worker ≠ .absent) (fun hcalled => by cases hcalled) ?_
  intro σ e hσ ih guard hcalled
  refine started_next guard ?_
  by_cases hbefore : (σ.streams v).stopCalled = true
  · exact ih hbefore
  · have hstop := stops_of_stopCalled (Bool.eq_false_iff.mpr hbefore) hcalled
    have hmodel := stopped_hasModel hσ guard hstop
    intro habsent
    rw [habsent] at hmodel
    exact hmodel

end Cpsat.Shim
