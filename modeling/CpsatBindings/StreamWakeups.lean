import CpsatBindings.StreamQueue

/-!
# Wake-ups at the end of a stream

`RunStream` issues one `notify_one` for every update, the done update included,
and none after that.  A caller that parks behind another is therefore woken at
the end only by a notification of its own.

* `parked_empty` — while at most one caller is parked whenever the worker
  issues its last notification, nobody stays parked past it.
* `stuck_later_iff` — with two or more callers parked at the last notification
  some continuation leaves one of them parked for good.
-/

namespace Cpsat.Stream

variable {κ β : Type*}

/-- A caller waits for a notification nobody is left to issue: the worker has
terminated, the queue is empty, and no woken caller is on its way. -/
def Stuck (s : State κ β) : Prop :=
  s.worker = .terminated ∧ s.queue = [] ∧ s.woken = [] ∧ s.parked ≠ []

/-- Nobody waits and nobody will: after the worker has terminated no caller is
parked, and whoever takes the mutex leaves with an update or the error. -/
def Settled (s : State κ β) : Prop :=
  ¬ Stuck s ∧
    (s.worker = .terminated →
      s.parked = [] ∧
        ((∃ u, nextResult s = .update u) ∨ nextResult s = .error alreadyFinished))

/-- At its last `notify_one` the worker finds at most one caller parked. -/
def FewParked (_ : List (Event κ β)) (s : State κ β) : Event κ β → Prop
  | .notify _ => s.worker = .notifyingDone → s.parked.length ≤ 1
  | _ => True

instance (tr : List (Event κ β)) (s : State κ β) :
    (e : Event κ β) → Decidable (FewParked tr s e)
  | .notify _ => inferInstanceAs (Decidable (_ → _))
  | .push _ | .pushDone _ | .call _ | .enter _ | .spurious _ => isTrue trivial

/-- Only the last notification ends the worker. -/
theorem WorkerPc.notified_eq_terminated {w : WorkerPc} :
    w.notified = .terminated ↔ w = .notifyingDone := by
  cases w <;> simp [WorkerPc.notified]

/-- Nobody waits for a stream that has finished. -/
theorem not_wait_of_finished {s : State κ β} (h : s.finished = true) :
    nextResult s ≠ .wait := by
  intro hwait
  rw [(nextResult_eq_wait_iff.mp hwait).2] at h
  cases h

/-! ## Few parked callers -/

variable [DecidableEq κ]

/-- The last notification leaves nobody parked. -/
theorem parked_empty_step {s : State κ β} {e : Event κ β}
    (hs : Accounted s) (hparked : s.worker = .terminated → s.parked = [])
    (guard : (machine κ β).enabled s e) (hfew : FewParked [] s e)
    (hterm : ((machine κ β).next s e).worker = .terminated) :
    ((machine κ β).next s e).parked = [] := by
  change enabled s e at guard
  change (next s e).worker = .terminated at hterm
  change (next s e).parked = []
  cases e with
  | push bytes => simp [next] at hterm
  | pushDone bytes => simp [next] at hterm
  | notify wakes =>
      cases wakes with
      | none => exact guard.2
      | some c =>
          have hlast : s.worker = .notifyingDone := WorkerPc.notified_eq_terminated.mp hterm
          have hmem : c ∈ s.parked := guard.2
          have hlen : s.parked.length ≤ 1 := hfew hlast
          have herase := List.length_erase_of_mem hmem
          exact List.length_eq_zero_iff.mp (by simp only [next]; omega)
  | call c => exact hparked hterm
  | enter c =>
      have hw : s.worker = .terminated := by simpa [next] using hterm
      have hopen : nextResult s ≠ .wait := not_wait_of_finished (hs.worker.mpr (Or.inr hw))
      exact (enter_parked hopen).trans (hparked hw)
  | spurious c =>
      have hmem : c ∈ s.parked := guard
      rw [hparked hterm] at hmem
      cases hmem

/-- Along a run that meets the condition nobody stays parked past the worker's
termination. -/
theorem parked_empty {tr : List (Event κ β)} {s : State κ β}
    (h : (machine κ β).Run tr s) (hfew : (machine κ β).EveryStep FewParked tr)
    (hterm : s.worker = .terminated) : s.parked = [] := by
  have hrun : (machine κ β).EveryStep FewParked tr →
      s.worker = .terminated → s.parked = [] := by
    refine h.holds (I := fun tr s => (machine κ β).EveryStep FewParked tr →
      s.worker = .terminated → s.parked = []) ?_ ?_
    · intro _ hw
      simp [machine] at hw
    · intro tr m e hm ih guard hall
      obtain ⟨hbefore, hlast⟩ := (Machine.everyStep_snoc hm).mp hall
      exact parked_empty_step (accounted ⟨tr, hm⟩) (ih hbefore) guard hlast
  exact hrun hfew hterm

/-- All along a run whose last notification finds few, nobody is left parked. -/
theorem settled_of_fewParked {tr : List (Event κ β)} {s : State κ β}
    (h : (machine κ β).Run tr s) (hfew : (machine κ β).EveryStep FewParked tr) :
    Settled s := by
  refine ⟨?_, ?_⟩
  · intro hstuck
    exact hstuck.2.2.2 (parked_empty h hfew hstuck.1)
  · intro hterm
    refine ⟨parked_empty h hfew hterm, ?_⟩
    have hf : s.finished = true := (accounted ⟨tr, h⟩).worker.mpr (Or.inr hterm)
    cases hq : s.queue with
    | nil => exact Or.inr (nextResult_eq_error hq hf)
    | cons u rest => exact Or.inl ⟨u, nextResult_eq_update_iff.mpr (by simp [hq])⟩

/-- A stream with a single caller leaves nobody parked. -/
theorem parked_empty_of_subsingleton [Subsingleton κ] {s : State κ β}
    (h : (machine κ β).Reachable s) (hterm : s.worker = .terminated) : s.parked = [] := by
  obtain ⟨tr, hrun⟩ := h
  refine parked_empty hrun ?_ hterm
  intro before e after m _ hm
  have hnodup : m.parked.Nodup :=
    (List.nodup_append.mp (List.nodup_append.mp (callers_nodup ⟨before, hm⟩)).1).2.1
  have hshort : m.parked.length ≤ 1 := by
    match hp : m.parked with
    | [] => simp
    | [_] => simp
    | a :: b :: _ =>
        rw [hp] at hnodup
        exact absurd (Subsingleton.elim a b) (by simp at hnodup; exact hnodup.1.1)
  cases e with
  | notify wakes => exact fun _ => hshort
  | _ => trivial

/-! ## Running a finished stream dry -/

/-- What entering does once the stream is finished: the caller leaves. -/
theorem enter_of_finished {s : State κ β} {c : κ} (h : s.finished = true) :
    (enter s c).parked = s.parked ∧ (enter s c).finished = true :=
  ⟨enter_parked (not_wait_of_finished h), by simpa using h⟩

/-- Every woken caller can be let through. -/
theorem drain_woken {s : State κ β} (h : s.finished = true) :
    ∃ tr t, (machine κ β).Path s tr t ∧ t.finished = true ∧ t.woken = [] ∧
      t.parked = s.parked ∧ t.worker = s.worker ∧ t.calling ⊆ s.calling := by
  generalize hn : s.woken.length = n
  induction n generalizing s with
  | zero =>
      exact ⟨[], s, .nil, h, List.length_eq_zero_iff.mp hn, rfl, rfl, List.Subset.refl _⟩
  | succ n ih =>
      obtain ⟨c, hc⟩ : ∃ c, c ∈ s.woken := List.exists_mem_of_length_pos (by omega)
      have hleave := enter_of_finished (c := c) h
      have hlen : (enter s c).woken.length = n := by
        rw [enter_woken, List.length_erase_of_mem hc]
        omega
      obtain ⟨tr, t, hpath, hf, hwoken, hparked, hworker, hcalling⟩ := ih hleave.2 hlen
      have guard : (machine κ β).enabled s (.enter c) := Or.inr hc
      refine ⟨.enter c :: tr, t, .cons guard hpath, hf, hwoken, ?_, ?_, ?_⟩
      · rw [hparked, hleave.1]
      · rw [hworker, enter_worker]
      · intro d hd
        have hd' := hcalling hd
        rw [enter_calling] at hd'
        exact List.erase_subset hd'

/-- A caller that comes back again and again empties the queue. -/
theorem drain_queue {s : State κ β} (h : s.finished = true) (hwoken : s.woken = [])
    {c : κ} (hcalling : c ∉ s.calling) (hparked : c ∉ s.parked) :
    ∃ tr t, (machine κ β).Path s tr t ∧ t.queue = [] ∧ t.woken = [] ∧
      t.parked = s.parked ∧ t.worker = s.worker := by
  generalize hn : s.queue.length = n
  induction n generalizing s with
  | zero => exact ⟨[], s, .nil, List.length_eq_zero_iff.mp hn, hwoken, rfl, rfl⟩
  | succ n ih =>
      let called : State κ β := next s (.call c)
      have hleave := enter_of_finished (s := called) (c := c) h
      have hcalling' : (enter called c).calling = s.calling := by
        rw [enter_calling]
        change (c :: s.calling).erase c = s.calling
        simp
      have hwoken' : (enter called c).woken = [] := by
        rw [enter_woken]
        change s.woken.erase c = []
        rw [hwoken]
        rfl
      have hlen : (enter called c).queue.length = n := by
        rw [enter_queue, List.length_tail]
        change s.queue.length - 1 = n
        omega
      obtain ⟨tr, t, hpath, hq, hw, hp, hworker⟩ := ih hleave.2 hwoken'
        (by rwa [hcalling']) (by rw [hleave.1]; exact hparked) hlen
      have hcall : (machine κ β).enabled s (.call c) :=
        ⟨hcalling, hparked, by rw [hwoken]; exact List.not_mem_nil⟩
      have henter : (machine κ β).enabled called (.enter c) :=
        Or.inl (List.mem_cons_self)
      refine ⟨.call c :: .enter c :: tr, t, .cons hcall (.cons henter hpath), hq, hw, ?_, ?_⟩
      · rw [hp, hleave.1]
        rfl
      · rw [hworker, enter_worker]
        rfl

/-- **Too many parked callers.**  If two callers are parked at the last
notification, letting everybody else through leaves one parked for good. -/
theorem stuck_later {s : State κ β} (h : (machine κ β).Reachable s)
    (hlast : s.worker = .notifyingDone) {c : κ} (hc : c ∈ s.parked)
    (hmany : 1 < s.parked.length) :
    ∃ tr t, (machine κ β).Path (next s (.notify (some c))) tr t ∧ Stuck t := by
  let woken : State κ β := next s (.notify (some c))
  have guard : (machine κ β).enabled s (.notify (some c)) := ⟨Or.inr hlast, hc⟩
  have hf : woken.finished = true := (accounted h).worker.mpr (Or.inl hlast)
  -- the caller just woken is nowhere else, so it is free to call again
  have hnodup := callers_nodup (h.step guard)
  change (woken.calling ++ woken.parked ++ c :: s.woken).Nodup at hnodup
  have hfree : c ∉ woken.calling ++ woken.parked := by
    intro hmem
    exact (List.nodup_append.mp hnodup).2.2 c hmem c List.mem_cons_self rfl
  rw [List.mem_append, not_or] at hfree
  obtain ⟨tr, m, hm, hmf, hmwoken, hmparked, hmworker, hmcalling⟩ := drain_woken hf
  obtain ⟨tr', t, ht, hq, hw, hp, hworker⟩ := drain_queue hmf hmwoken
    (fun hmem => hfree.1 (hmcalling hmem)) (by rw [hmparked]; exact hfree.2)
  refine ⟨tr ++ tr', t, hm.append ht, ?_, hq, hw, ?_⟩
  · rw [hworker, hmworker]
    exact WorkerPc.notified_eq_terminated.mpr hlast
  · rw [hp, hmparked]
    have herase := List.length_erase_of_mem hc
    intro hnil
    change s.parked.erase c = [] at hnil
    rw [hnil, List.length_nil] at herase
    omega

/-- After the last notification the parked callers only leave. -/
theorem parked_empty_path {s t : State κ β} {tr : List (Event κ β)}
    (h : (machine κ β).Reachable s) (hterm : s.worker = .terminated)
    (hparked : s.parked = []) (hpath : (machine κ β).Path s tr t) : t.parked = [] := by
  have hall : (machine κ β).Reachable t ∧ t.worker = .terminated ∧ t.parked = [] := by
    refine hpath.keeps (I := fun t =>
      (machine κ β).Reachable t ∧ t.worker = .terminated ∧ t.parked = []) ?_
      ⟨h, hterm, hparked⟩
    rintro m e ⟨hm, hw, hp⟩ guard
    have hw' : ((machine κ β).next m e).worker = .terminated := by
      change enabled m e at guard
      change (next m e).worker = .terminated
      cases e with
      | push bytes => simp [enabled, hw] at guard
      | pushDone bytes => simp [enabled, hw] at guard
      | notify wakes => cases wakes <;> simp [enabled, hw] at guard
      | call c => exact hw
      | enter c => simpa [next] using hw
      | spurious c => exact hw
    have hfew : FewParked [] m e := by
      cases e with
      | notify wakes =>
          intro hlast
          rw [hw] at hlast
          cases hlast
      | _ => trivial
    exact ⟨hm.step guard, hw',
      parked_empty_step (accounted hm) (fun _ => hp) guard hfew hw'⟩
  exact hall.2.2

/-- The last notification dooms no caller exactly if at most one is parked. -/
theorem stuck_later_iff {s : State κ β} (h : (machine κ β).Reachable s)
    (hlast : s.worker = .notifyingDone) {wakes : Option κ}
    (guard : (machine κ β).enabled s (.notify wakes)) :
    (∀ tr t, (machine κ β).Path (next s (.notify wakes)) tr t → ¬ Stuck t) ↔
      s.parked.length ≤ 1 := by
  constructor
  · intro hsafe
    by_contra hmany
    rw [not_le] at hmany
    cases wakes with
    | none =>
        rw [guard.2, List.length_nil] at hmany
        omega
    | some c =>
        obtain ⟨tr, t, hpath, hstuck⟩ := stuck_later h hlast guard.2 hmany
        exact hsafe tr t hpath hstuck
  · intro hlen tr t hpath hstuck
    have hterm : (next s (.notify wakes)).worker = .terminated := by
      cases wakes <;> exact WorkerPc.notified_eq_terminated.mpr hlast
    have hparked : (next s (.notify wakes)).parked = [] :=
      parked_empty_step (accounted h) (by simp [hlast]) guard (fun _ => hlen) hterm
    exact hstuck.2.2.2 (parked_empty_path (h.step guard) hterm hparked hpath)

/-- **Who is left waiting.**  In every run in which the worker's last
`notify_one` finds at most one caller parked, nobody waits forever in any state
reached.  And the condition is what it takes: a last notification that finds
more of them parked can be continued to a state where one of them is stuck. -/
theorem no_caller_left_waiting :
    (∀ (tr : List (Event κ β)) (s : State κ β), (machine κ β).Run tr s →
      (machine κ β).EveryStep FewParked tr →
        (machine κ β).EveryState (fun _ s => Settled s) tr) ∧
    (∀ (s : State κ β) (wakes : Option κ), (machine κ β).Reachable s →
      s.worker = .notifyingDone → (machine κ β).enabled s (.notify wakes) →
        ((∀ tr t, (machine κ β).Path (next s (.notify wakes)) tr t → ¬ Stuck t) ↔
          s.parked.length ≤ 1)) := by
  refine ⟨?_, ?_⟩
  · intro tr s _ hfew before after m heq hm
    rw [heq] at hfew
    exact settled_of_fewParked hm hfew.of_append
  · intro s wakes hs hlast guard
    exact stuck_later_iff hs hlast guard

/-- One caller parks on the open stream and is woken by the done update. -/
theorem parked_caller_returns :
    (machine Bool Nat).EveryState (fun _ s => Settled s)
      [.call true, .enter true, .pushDone 7, .notify (some true), .enter true] :=
  no_caller_left_waiting.1 _ _ (Machine.run_of_exec _ (by decide))
    (Machine.everyStep_of_exec _ (by decide))

/-- Two callers park, the worker pushes the done update and notifies one of
them: it returns the update, and the other is stuck. -/
def overlookedCaller : List (Event Bool Nat) :=
  [.call false, .enter false, .call true, .enter true, .pushDone 7,
    .notify (some false), .enter false]

/-- Two callers park, and one is woken. -/
theorem second_caller_stuck : ¬ ∀ s, (machine Bool Nat).Reachable s → ¬ Stuck s := by
  intro h
  have hrun : (machine Bool Nat).Run overlookedCaller _ := Machine.run_of_exec _ (by decide)
  exact h _ ⟨_, hrun⟩ ⟨by decide, by decide, by decide, by decide⟩

end Cpsat.Stream
