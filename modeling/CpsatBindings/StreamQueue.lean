import CpsatBindings.Machine

/-!
# The update queue of one stream

`StreamState` of `cpsat_shim.cpp` with the threads around it: the worker, which
pushes an update inside the mutex and notifies after leaving it, and any number
of callers of `cpsat_solve_stream_next`.  A critical section is one event; so
is the worker's `notify_one`, which is issued outside the mutex and may come
after any number of other events.

The condition variable keeps the callers parked in `cv.wait` apart from those
already woken, who still have to take the mutex again and re-read the queue.

* `Machine.Reachable.accounted` — what was popped followed by what is queued
  is what was pushed, and the done update is the last one pushed.
* `Machine.Reachable.callers_nodup` — a caller is in one place at a time.
* `nextResult_of_done_popped` — once the done update is gone, a call returns
  the error and does not wait.
-/

namespace Cpsat.Stream

open scoped List

/-- `StreamUpdate`. -/
structure StreamUpdate (β : Type*) where
  is_done : Bool
  bytes : β
deriving DecidableEq, Repr

/-- Where the worker stands: inside `SolveCpModel`, about to notify after an
observed solution, about to notify after the done update, or out of
`RunStream`. -/
inductive WorkerPc where
  | searching
  | notifying
  | notifyingDone
  | terminated
deriving DecidableEq, Repr

/-- `StreamState`, the worker, and the callers: those that have not taken the
mutex yet, those parked in `cv.wait`, and those woken from it.  `pushed` and
`popped` record the history of the queue. -/
structure State (κ β : Type*) where
  queue : List (StreamUpdate β) := []
  finished : Bool := false
  worker : WorkerPc := .searching
  calling : List κ := []
  parked : List κ := []
  woken : List κ := []
  pushed : List (StreamUpdate β) := []
  popped : List (StreamUpdate β) := []

variable {κ β : Type*}

/-- The loop test of `cpsat_solve_stream_next`, with the mutex held: take the
front update, return the error, or wait. -/
inductive NextResult (β : Type*) where
  | update (u : StreamUpdate β)
  | error (message : String)
  | wait
deriving DecidableEq

/-- The error of a call that comes too late. -/
def alreadyFinished : String := "Cpsat: solution stream already finished"

/-- What a call finds: an update, the end of the stream, or nothing yet. -/
def nextResult (s : State κ β) : NextResult β :=
  match s.queue with
  | [] => if s.finished then .error alreadyFinished else .wait
  | u :: _ => .update u

/-- What can happen next, to the worker or to a caller. -/
inductive Event (κ β : Type*) where
  /-- The observer's critical section. -/
  | push (bytes : β)
  /-- The critical section at the end of `RunStream`. -/
  | pushDone (bytes : β)
  /-- `notify_one`, with the caller it wakes, if any is parked. -/
  | notify (wakes : Option κ)
  /-- A thread calls `cpsat_solve_stream_next`. -/
  | call (caller : κ)
  /-- A caller takes the mutex, for the first time or out of `cv.wait`. -/
  | enter (caller : κ)
  /-- A parked caller wakes without having been notified. -/
  | spurious (caller : κ)
deriving DecidableEq

section Machine

variable [DecidableEq κ]

def enabled (s : State κ β) : Event κ β → Prop
  | .push _ => s.worker = .searching
  | .pushDone _ => s.worker = .searching
  | .notify none =>
      (s.worker = .notifying ∨ s.worker = .notifyingDone) ∧ s.parked = []
  | .notify (some c) =>
      (s.worker = .notifying ∨ s.worker = .notifyingDone) ∧ c ∈ s.parked
  | .call c => c ∉ s.calling ∧ c ∉ s.parked ∧ c ∉ s.woken
  | .enter c => c ∈ s.calling ∨ c ∈ s.woken
  | .spurious c => c ∈ s.parked

/-- The worker after its `notify_one`. -/
def WorkerPc.notified : WorkerPc → WorkerPc
  | .notifyingDone => .terminated
  | _ => .searching

/-- One pass of a caller through the mutex. -/
def enter (s : State κ β) (c : κ) : State κ β :=
  let s' := { s with calling := s.calling.erase c, woken := s.woken.erase c }
  match nextResult s with
  | .update u => { s' with queue := s.queue.tail, popped := s.popped ++ [u] }
  | .error _ => s'
  | .wait => { s' with parked := s.parked ++ [c] }

def next (s : State κ β) : Event κ β → State κ β
  | .push bytes =>
      { s with queue := s.queue ++ [⟨false, bytes⟩], pushed := s.pushed ++ [⟨false, bytes⟩]
               worker := .notifying }
  | .pushDone bytes =>
      { s with queue := s.queue ++ [⟨true, bytes⟩], pushed := s.pushed ++ [⟨true, bytes⟩]
               finished := true, worker := .notifyingDone }
  | .notify none => { s with worker := s.worker.notified }
  | .notify (some c) =>
      { s with worker := s.worker.notified, parked := s.parked.erase c, woken := c :: s.woken }
  | .call c => { s with calling := c :: s.calling }
  | .enter c => enter s c
  | .spurious c => { s with parked := s.parked.erase c, woken := c :: s.woken }

instance (s : State κ β) (e : Event κ β) : Decidable (enabled s e) := by
  cases e with
  | notify wakes => cases wakes <;> unfold enabled <;> infer_instance
  | _ => unfold enabled; infer_instance

variable (κ β) in
/-- One stream with its worker and its callers. -/
def machine : Machine (State κ β) (Event κ β) where
  init := {}
  enabled := enabled
  next := next

instance (s : State κ β) (e : Event κ β) : Decidable ((machine κ β).enabled s e) :=
  inferInstanceAs (Decidable (enabled s e))

end Machine

/-! ## What a call finds -/

/-- A call waits exactly if there is nothing to pop and the stream has not finished. -/
theorem nextResult_eq_wait_iff {s : State κ β} :
    nextResult s = .wait ↔ s.queue = [] ∧ s.finished = false := by
  unfold nextResult
  cases hq : s.queue with
  | nil => cases hf : s.finished <;> simp
  | cons u rest => simp

/-- A call pops the first update there is. -/
theorem nextResult_eq_update_iff {s : State κ β} {u : StreamUpdate β} :
    nextResult s = .update u ↔ s.queue.head? = some u := by
  unfold nextResult
  cases hq : s.queue with
  | nil => cases hf : s.finished <;> simp
  | cons v rest => simp

/-- A call errors if there is nothing to pop and never will be. -/
theorem nextResult_eq_error {s : State κ β} (hq : s.queue = []) (hf : s.finished = true) :
    nextResult s = .error alreadyFinished := by
  simp [nextResult, hq, hf]

section Enter

variable [DecidableEq κ] {s : State κ β} {c : κ}

@[simp] theorem enter_calling : (enter s c).calling = s.calling.erase c := by
  unfold enter
  split <;> rfl

@[simp] theorem enter_woken : (enter s c).woken = s.woken.erase c := by
  unfold enter
  split <;> rfl

@[simp] theorem enter_finished : (enter s c).finished = s.finished := by
  unfold enter
  split <;> rfl

@[simp] theorem enter_worker : (enter s c).worker = s.worker := by
  unfold enter
  split <;> rfl

@[simp] theorem enter_pushed : (enter s c).pushed = s.pushed := by
  unfold enter
  split <;> rfl

/-- A caller that finds nothing in an open stream parks. -/
theorem enter_parked_of_wait (h : nextResult s = .wait) :
    (enter s c).parked = s.parked ++ [c] := by
  simp [enter, h]

/-- Any other caller leaves the parked ones alone. -/
theorem enter_parked (h : nextResult s ≠ .wait) : (enter s c).parked = s.parked := by
  unfold enter
  split
  · rfl
  · rfl
  · contradiction

/-- A pop takes the front of the queue; the other outcomes leave it. -/
theorem enter_queue : (enter s c).queue = s.queue.tail := by
  unfold enter
  split
  · rfl
  · rename_i hres
    have hq : s.queue = [] := by
      unfold nextResult at hres
      split at hres
      · assumption
      · cases hres
    simp [hq]
  · rename_i hres
    simp [(nextResult_eq_wait_iff.mp hres).1]

/-- A caller that enters pops one update at most. -/
theorem enter_popped : (enter s c).popped = s.popped ++ s.queue.head?.toList := by
  unfold enter
  split
  · rename_i u hres
    simp [nextResult_eq_update_iff.mp hres]
  · rename_i hres
    have hq : s.queue.head? = none := by
      cases hh : s.queue.head? with
      | none => rfl
      | some u => rw [nextResult_eq_update_iff.mpr hh] at hres; cases hres
    simp [hq]
  · rename_i hres
    simp [(nextResult_eq_wait_iff.mp hres).1]

end Enter

/-! ## The queue's accounts -/

/-- What an event pushes. -/
def Event.pushes : Event κ β → List (StreamUpdate β)
  | .push bytes => [⟨false, bytes⟩]
  | .pushDone bytes => [⟨true, bytes⟩]
  | .notify _ | .call _ | .enter _ | .spurious _ => []

/-- `us` is what a stream has pushed so far: improving updates, then, once the
stream is finished, one done update. -/
def Shaped (finished : Bool) (us : List (StreamUpdate β)) : Prop :=
  if finished then
    ∃ improving final, us = improving ++ [final] ∧ final.is_done = true ∧
      ∀ u ∈ improving, u.is_done = false
  else ∀ u ∈ us, u.is_done = false

/-- The queue's accounts balance. -/
structure Accounted (s : State κ β) : Prop where
  conserved : s.popped ++ s.queue = s.pushed
  shaped : Shaped s.finished s.pushed
  worker : s.finished = true ↔ s.worker = .notifyingDone ∨ s.worker = .terminated

/-- The stream is open as long as the worker searches. -/
theorem Accounted.unfinished {s : State κ β} (h : Accounted s)
    (hworker : s.worker = .searching) : s.finished = false := by
  have hiff := h.worker
  rw [hworker] at hiff
  simpa using hiff

/-- The done update, once popped, leaves nothing behind. -/
theorem Accounted.popped_all {s : State κ β} (h : Accounted s) {u : StreamUpdate β}
    (hu : u ∈ s.popped) (hdone : u.is_done = true) :
    s.queue = [] ∧ s.finished = true := by
  have hmem : u ∈ s.pushed := by
    rw [← h.conserved]
    exact List.mem_append_left _ hu
  have hshaped := h.shaped
  unfold Shaped at hshaped
  split at hshaped
  · rename_i hf
    obtain ⟨improving, final, hpushed, -, himproving⟩ := hshaped
    refine ⟨?_, hf⟩
    have hsplit : s.popped ++ s.queue = improving ++ [final] := h.conserved.trans hpushed
    -- were anything left, everything popped would be improving
    rcases List.eq_nil_or_concat s.queue with hq | ⟨rest, last, hq⟩
    · exact hq
    · rw [hq, List.concat_eq_append, ← List.append_assoc] at hsplit
      have hfront := (List.append_inj' hsplit rfl).1
      have : u ∈ improving := hfront ▸ List.mem_append_left _ hu
      rw [himproving u this] at hdone
      cases hdone
  · rw [hshaped u hmem] at hdone
    cases hdone

variable [DecidableEq κ]

/-- What is pushed is what the worker pushes. -/
@[simp] theorem next_pushed (s : State κ β) (e : Event κ β) :
    (next s e).pushed = s.pushed ++ e.pushes := by
  cases e with
  | notify wakes => cases wakes <;> simp [next, Event.pushes]
  | _ => simp [next, Event.pushes]

/-- The stream has finished once the done update is pushed. -/
@[simp] theorem next_finished (s : State κ β) (e : Event κ β) :
    (next s e).finished = (s.finished || e.pushes.any (·.is_done)) := by
  cases e with
  | notify wakes => cases wakes <;> simp [next, Event.pushes]
  | _ => simp [next, Event.pushes]

theorem accounted_init : Accounted (machine κ β).init where
  conserved := rfl
  shaped := by simp [Shaped, machine]
  worker := by simp [machine]

/-- A caller that enters takes what it returns off the queue. -/
theorem accounted_enter {s : State κ β} (h : Accounted s) (c : κ) :
    Accounted (enter s c) where
  conserved := by
    rw [enter_popped, enter_queue, enter_pushed, ← h.conserved]
    cases s.queue <;> simp
  shaped := by simpa using h.shaped
  worker := by simpa using h.worker

theorem accounted_step {s : State κ β} {e : Event κ β} (h : Accounted s)
    (guard : (machine κ β).enabled s e) : Accounted ((machine κ β).next s e) := by
  change enabled s e at guard
  change Accounted (next s e)
  cases e with
  | push bytes =>
      have hf : s.finished = false := h.unfinished guard
      have hshaped := h.shaped
      refine ⟨?_, ?_, ?_⟩
      · simp [next, ← h.conserved]
      · simp only [Shaped, hf, next, Bool.false_eq_true, if_false] at hshaped ⊢
        intro u hu
        rcases List.mem_append.mp hu with hold | hnew
        · exact hshaped u hold
        · simp at hnew
          simp [hnew]
      · simp [next, hf]
  | pushDone bytes =>
      have hf : s.finished = false := h.unfinished guard
      have hshaped := h.shaped
      refine ⟨?_, ?_, ?_⟩
      · simp [next, ← h.conserved]
      · simp only [Shaped, hf, next, Bool.false_eq_true, if_false, if_true] at hshaped ⊢
        exact ⟨s.pushed, ⟨true, bytes⟩, rfl, rfl, hshaped⟩
      · simp [next]
  | notify wakes =>
      have hworker : s.worker = .notifying ∨ s.worker = .notifyingDone := by
        cases wakes with
        | none => exact guard.1
        | some c => exact guard.1
      have hnotified : s.finished = true ↔
          s.worker.notified = .notifyingDone ∨ s.worker.notified = .terminated := by
        have := h.worker
        rcases hworker with hw | hw <;> simpa [hw, WorkerPc.notified] using this
      cases wakes with
      | none => exact ⟨h.conserved, h.shaped, hnotified⟩
      | some c => exact ⟨h.conserved, h.shaped, hnotified⟩
  | call c => exact ⟨h.conserved, h.shaped, h.worker⟩
  | enter c => exact accounted_enter h c
  | spurious c => exact ⟨h.conserved, h.shaped, h.worker⟩

/-- **Exact accounts.**  In every reachable state the popped updates followed
by the queue are the pushed ones, and the done update is the last. -/
theorem accounted {s : State κ β} (h : (machine κ β).Reachable s) : Accounted s :=
  h.holds accounted_init fun _ _ _ hs guard => accounted_step hs guard

/-- After the done update has been popped a call returns the error; it does
not wait. -/
theorem nextResult_of_done_popped {s : State κ β} (h : (machine κ β).Reachable s)
    {u : StreamUpdate β} (hu : u ∈ s.popped) (hdone : u.is_done = true) :
    nextResult s = .error alreadyFinished := by
  obtain ⟨hq, hf⟩ := (accounted h).popped_all hu hdone
  exact nextResult_eq_error hq hf

/-! ## Where the callers are -/

/-- Everyone inside `cpsat_solve_stream_next`. -/
def State.callers (s : State κ β) : List κ := s.calling ++ s.parked ++ s.woken

/-- Waking a parked caller moves it within the callers. -/
theorem callers_wake {s : State κ β} {c : κ} (h : c ∈ s.parked) (w : WorkerPc) :
    State.callers { s with worker := w, parked := s.parked.erase c, woken := c :: s.woken } ~
      s.callers := by
  have hback : c :: s.parked.erase c ~ s.parked := (List.perm_cons_erase h).symm
  calc s.calling ++ s.parked.erase c ++ c :: s.woken
      ~ s.calling ++ (c :: s.parked.erase c) ++ s.woken := by
        simp only [List.append_assoc, List.cons_append]
        exact List.Perm.append_left _ List.perm_middle
    _ ~ s.calling ++ s.parked ++ s.woken := (hback.append_left _).append_right _

/-- An entering caller is one of the callers, and the others stay. -/
theorem callers_rest {s : State κ β} {c : κ} (h : s.callers.Nodup)
    (hin : c ∈ s.calling ∨ c ∈ s.woken) :
    c :: (s.calling.erase c ++ s.parked ++ s.woken.erase c) ~ s.callers := by
  have hdisj := (List.nodup_append.mp h).2.2
  rcases hin with hc | hc
  · have hnot : c ∉ s.woken := by
      intro hw
      exact hdisj c (List.mem_append_left _ hc) c hw rfl
    rw [List.erase_of_not_mem hnot]
    have hback : c :: s.calling.erase c ~ s.calling := (List.perm_cons_erase hc).symm
    exact (hback.append_right _).append_right _
  · have hnot : c ∉ s.calling := by
      intro hcall
      exact hdisj c (List.mem_append_left _ hcall) c hc rfl
    rw [List.erase_of_not_mem hnot]
    have hback : c :: s.woken.erase c ~ s.woken := (List.perm_cons_erase hc).symm
    exact List.perm_middle.symm.trans (hback.append_left _)

/-- A caller that waits stays a caller. -/
theorem callers_enter_of_wait {s : State κ β} {c : κ} (h : s.callers.Nodup)
    (hin : c ∈ s.calling ∨ c ∈ s.woken) (hwait : nextResult s = .wait) :
    (enter s c).callers ~ s.callers := by
  have hparks : (enter s c).callers =
      s.calling.erase c ++ (s.parked ++ [c]) ++ s.woken.erase c := by
    rw [State.callers, enter_calling, enter_woken, enter_parked_of_wait hwait]
  rw [hparks, ← List.append_assoc, List.append_assoc _ [c]]
  exact List.perm_middle.trans (callers_rest h hin)

/-- Any other caller leaves. -/
theorem callers_enter {s : State κ β} {c : κ} (h : s.callers.Nodup)
    (hin : c ∈ s.calling ∨ c ∈ s.woken) (hgo : nextResult s ≠ .wait) :
    c :: (enter s c).callers ~ s.callers := by
  have hleaves : (enter s c).callers = s.calling.erase c ++ s.parked ++ s.woken.erase c := by
    rw [State.callers, enter_calling, enter_woken, enter_parked hgo]
  rw [hleaves]
  exact callers_rest h hin

/-- The events no caller takes part in of its own accord. -/
def Event.Quiet : Event κ β → Prop
  | .push _ | .pushDone _ | .notify _ | .spurious _ => True
  | .call _ | .enter _ => False

/-- Such an event at most moves a caller, and pops nothing. -/
theorem quiet_step {s : State κ β} {e : Event κ β} (guard : enabled s e) (hquiet : e.Quiet) :
    (next s e).callers ~ s.callers ∧ (next s e).popped = s.popped := by
  cases e with
  | push bytes => exact ⟨.refl _, rfl⟩
  | pushDone bytes => exact ⟨.refl _, rfl⟩
  | notify wakes =>
      cases wakes with
      | none => exact ⟨.refl _, rfl⟩
      | some c => exact ⟨callers_wake guard.2 _, rfl⟩
  | call c => exact absurd hquiet id
  | enter c => exact absurd hquiet id
  | spurious c => exact ⟨callers_wake guard s.worker, rfl⟩

/-- No caller is in two places after a step. -/
theorem callers_nodup_step {s : State κ β} {e : Event κ β} (h : s.callers.Nodup)
    (guard : (machine κ β).enabled s e) : ((machine κ β).next s e).callers.Nodup := by
  change enabled s e at guard
  change (next s e).callers.Nodup
  cases e with
  | call c =>
      obtain ⟨hcalling, hparked, hwoken⟩ := guard
      have hnew : c ∉ s.callers := by
        simp [State.callers, hcalling, hparked, hwoken]
      exact List.nodup_cons.mpr ⟨hnew, h⟩
  | enter c =>
      by_cases hwait : nextResult s = .wait
      · exact (callers_enter_of_wait h guard hwait).nodup_iff.mpr h
      · have hleft := (callers_enter h guard hwait).nodup_iff.mpr h
        exact (List.nodup_cons.mp hleft).2
  | push _ | pushDone _ | notify _ | spurious _ =>
      exact (quiet_step guard trivial).1.nodup_iff.mpr h

/-- **One place each.**  In every reachable state a caller is about to take the
mutex, parked, or woken, and only one of these. -/
theorem callers_nodup {s : State κ β} (h : (machine κ β).Reachable s) :
    s.callers.Nodup :=
  h.holds (I := fun s => s.callers.Nodup) List.nodup_nil
    fun _ _ _ hs guard => callers_nodup_step hs guard

end Cpsat.Stream
