import CpsatBindings.StreamDelivery

/-!
# Streaming delivery is exact

What `solveWithResultCallback` does to the responses of a solve, whatever the
schedule: `onSolution` is called on the decoded solutions, in order, and the
decoded final response is what comes back; a failure at one update is the end
of the call, with that update the last one popped.
-/

namespace Cpsat.Delivery

open Cpsat.Stream (StreamUpdate alreadyFinished nextResult)
open scoped List

variable {R ε α : Type*} {W : Codec R ε} {result : α} {rs : List R} {final : R}

variable (W result) in
/-- A response as `onSolution` and the caller get to see it. -/
def heardAs (r : R) : Except ε (α × CpSolverResponse) :=
  (decodeResponse W (W.SerializeToString r)).map fun response => (result, response)

/-! ## What was popped -/

/-- What was popped is the beginning of the script. -/
theorem popped_script {s : State R α ε} (h : (machine W result rs final).Reachable s) :
    s.stream.popped <+: script W rs final := by
  rw [← (sent h).sent, ← (Stream.accounted (stream_reachable h)).conserved, List.append_assoc]
  exact List.prefix_append _ _

/-- A beginning of the script without the done update: so many solutions. -/
theorem open_script {us : List (StreamUpdate ByteArray)} (h : us <+: script W rs final)
    (hopen : ∀ u ∈ us, u.is_done = false) :
    us.length ≤ rs.length ∧ us = (rs.take us.length).map (improving W) := by
  have htake : us = (script W rs final).take us.length := List.prefix_iff_eq_take.mp h
  have hlen : us.length ≤ rs.length := by
    by_contra hlong
    have hwhole : us = script W rs final := by
      rw [htake]
      apply List.take_of_length_le
      simp only [script, List.length_append, List.length_map, List.length_singleton]
      omega
    have hdone := hopen (done W final) (by rw [hwhole]; simp [script])
    cases hdone
  refine ⟨hlen, ?_⟩
  have hfront : (script W rs final).take us.length = (rs.map (improving W)).take us.length :=
    List.take_append_of_le_length (by simpa using hlen)
  rw [List.map_take, ← hfront]
  exact htake

/-- The done update ends the script. -/
theorem done_script {us : List (StreamUpdate ByteArray)} {u : StreamUpdate ByteArray}
    (h : us ++ [u] <+: script W rs final) (hdone : u.is_done = true) :
    us = rs.map (improving W) ∧ u = done W final := by
  obtain ⟨rest, hrest⟩ := h
  rcases List.eq_nil_or_concat rest with rfl | ⟨rest', last, rfl⟩
  · rw [List.append_nil] at hrest
    obtain ⟨hfront, hlast⟩ := List.append_inj' hrest rfl
    exact ⟨hfront, List.singleton_inj.mp hlast⟩
  · rw [List.concat_eq_append, ← List.append_assoc] at hrest
    have hfront := (List.append_inj' hrest rfl).1
    have hmem : u ∈ rs.map (improving W) := by
      rw [← hfront]
      simp
    obtain ⟨r, -, rfl⟩ := List.mem_map.mp hmem
    cases hdone

/-- An update of the script carries a response of the solve. -/
theorem update_script {us : List (StreamUpdate ByteArray)} {u : StreamUpdate ByteArray}
    (h : us ++ [u] <+: script W rs final) :
    ∃ r, (rs ++ [final])[us.length]? = some r ∧ u.bytes = W.SerializeToString r := by
  obtain ⟨rest, hrest⟩ := h
  have hget : (script W rs final)[us.length]? = some u := by
    rw [← hrest]
    simp
  have hbytes : (script W rs final).map (·.bytes) = (rs ++ [final]).map W.SerializeToString := by
    simp [script, improving, done]
  have hmap := congrArg (·[us.length]?) hbytes
  simp only [List.getElem?_map, hget, Option.map_some] at hmap
  obtain ⟨r, hr, hser⟩ := Option.map_eq_some_iff.mp hmap.symm
  exact ⟨r, hr, hser.symm⟩

/-- What was heard of so many solutions. -/
theorem heard_calls {heard : List R} {calls : List (α × CpSolverResponse)}
    (h : Heard W result (heard.map (improving W)) calls) :
    calls.map Except.ok = heard.map (heardAs W result) := by
  induction heard generalizing calls with
  | nil =>
      rw [Heard, List.map_nil, List.forall₂_nil_left_iff] at h
      rw [h]
      rfl
  | cons r heard ih =>
      obtain ⟨c, calls', ⟨-, hdecode, hresult⟩, htail, rfl⟩ := List.forall₂_cons_left_iff.mp h
      have hhead : heardAs W result r = .ok c := by
        have hbytes : decodeResponse W (W.SerializeToString r) = .ok c.2 := hdecode
        rw [heardAs, hbytes, ← hresult]
        rfl
      rw [List.map_cons, List.map_cons, hhead, ih htail]

/-- What was heard of a beginning of the script. -/
theorem heard_script {us : List (StreamUpdate ByteArray)} {calls : List (α × CpSolverResponse)}
    (hpre : us <+: script W rs final) (h : Heard W result us calls) :
    us.length ≤ rs.length ∧
      calls.map Except.ok = (rs.take us.length).map (heardAs W result) := by
  obtain ⟨hlen, hus⟩ := open_script hpre h.unfinished
  refine ⟨hlen, heard_calls ?_⟩
  rwa [← hus]

/-! ## The call, run by run -/

variable (W result rs final) in
/-- Exact delivery, in a state of the call that the events `tr` have led to. -/
structure DeliveredExactly (tr : List (Event ε)) (s : State R α ε) : Prop where
  /-- Nothing is lost, repeated or reordered between push and pop. -/
  conserved : s.stream.popped ++ s.stream.queue = s.stream.pushed
  /-- The pushes follow the script. -/
  in_order : s.stream.pushed <+: script W rs final
  /-- One done update, and it is the last one pushed. -/
  one_done : Stream.Shaped s.stream.finished s.stream.pushed
  /-- `onSolution` has been called on the first solutions, in order, once each:
  on all that were popped, but for the one popped last. -/
  called : ∃ k ≤ rs.length, k ≤ s.stream.popped.length ∧ s.stream.popped.length ≤ k + 1 ∧
    s.calls.map Except.ok = (rs.take k).map (heardAs W result)
  /-- The value returned is the final response, after all calls. -/
  returned : ∀ v, s.pc = .returned v →
    s.calls.map Except.ok = rs.map (heardAs W result) ∧ heardAs W result final = .ok v
  /-- An error at update `k` (from `0`): that update is the last one popped, and
  either it did not decode, with this error, or `onSolution` raised it. -/
  raised : ∀ e, s.pc = .raised e → ∃ k,
    s.stream.popped = (script W rs final).take (k + 1) ∧ s.stream.popped.length = k + 1 ∧
      ((s.calls.map Except.ok = (rs.take k).map (heardAs W result) ∧
          (rs ++ [final])[k]?.map (heardAs W result) = some (.error e)) ∨
        (.solutionRaise e ∈ tr ∧
          s.calls.map Except.ok = (rs.take (k + 1)).map (heardAs W result) ∧ k < rs.length))
  /-- What `onSolution` raises is what the call returns. -/
  raises : ∀ e, .solutionRaise e ∈ tr → s.pc = .raised e
  /-- Unless `onSolution` raises or a response does not decode, the call returns
  the final response. -/
  returns : s.pc.Over → (∀ e, .solutionRaise e ∉ tr) →
    (∀ r ∈ rs ++ [final], ∃ c, heardAs W result r = .ok c) →
      ∃ v, s.pc = .returned v ∧ heardAs W result final = .ok v
  /-- Unless `onSolution` raises, the first response that does not decode is
  where the call ends, with the error of decoding it. -/
  fails : s.pc.Over → (∀ e, .solutionRaise e ∉ tr) → ∀ k e,
    (∀ r ∈ (rs ++ [final]).take k, ∃ c, heardAs W result r = .ok c) →
      (rs ++ [final])[k]?.map (heardAs W result) = some (.error e) →
        s.pc = .raised e ∧ s.stream.popped = (script W rs final).take (k + 1)
  /-- Once through, the consumer does nothing more. -/
  stays : s.pc.Over → ∀ tr t, (machine W result rs final).Path s tr t →
    t.pc = s.pc ∧ t.calls = s.calls ∧ t.stream.popped = s.stream.popped
  /-- After the done update a call returns the error and does not wait. -/
  after_done : ∀ u ∈ s.stream.popped, u.is_done = true →
    nextResult s.stream = .error alreadyFinished

variable {tr : List (Event ε)} {s : State R α ε}

/-- In every state `onSolution` has been called on a beginning of what was observed,
one update behind at most. -/
theorem called_exactly (h : (machine W result rs final).Reachable s) :
    ∃ k ≤ rs.length, k ≤ s.stream.popped.length ∧ s.stream.popped.length ≤ k + 1 ∧
      s.calls.map Except.ok = (rs.take k).map (heardAs W result) := by
  have hpre := popped_script h
  obtain ⟨tr, hrun⟩ := id h
  have hconsumed := consumed hrun
  unfold Consumed at hconsumed
  -- all that was popped was heard
  have hall : Heard W result s.stream.popped s.calls →
      ∃ k ≤ rs.length, k ≤ s.stream.popped.length ∧ s.stream.popped.length ≤ k + 1 ∧
        s.calls.map Except.ok = (rs.take k).map (heardAs W result) := by
    intro hheard
    obtain ⟨hlen, hcalls⟩ := heard_script hpre hheard
    exact ⟨_, hlen, le_refl _, Nat.le_succ _, hcalls⟩
  -- all but the last was
  have hbut : ∀ us u, s.stream.popped = us ++ [u] → Heard W result us s.calls →
      ∃ k ≤ rs.length, k ≤ s.stream.popped.length ∧ s.stream.popped.length ≤ k + 1 ∧
        s.calls.map Except.ok = (rs.take k).map (heardAs W result) := by
    intro us u hpopped hheard
    rw [hpopped] at hpre ⊢
    obtain ⟨hlen, hcalls⟩ := heard_script ((List.prefix_append us _).trans hpre) hheard
    exact ⟨_, hlen, by simp, by simp, hcalls⟩
  cases hpc : s.pc with
  | pulling | inNext =>
      rw [hpc] at hconsumed
      exact hall hconsumed.2
  | inCallback response =>
      rw [hpc] at hconsumed
      exact hall hconsumed.2.1
  | decoding isDone bytes =>
      rw [hpc] at hconsumed
      obtain ⟨-, us, hpopped, hheard⟩ := hconsumed
      exact hbut us _ hpopped hheard
  | returned v =>
      rw [hpc] at hconsumed
      obtain ⟨-, us, u, hpopped, -, -, -, hheard⟩ := hconsumed
      exact hbut us u hpopped hheard
  | raised e =>
      rw [hpc] at hconsumed
      obtain ⟨-, us, u, hpopped, ⟨-, hheard⟩ | ⟨-, hheard⟩⟩ := hconsumed
      · exact hbut us u hpopped hheard
      · rw [← hpopped] at hheard
        exact hall hheard
  | aborted =>
      rw [hpc] at hconsumed
      exact absurd hconsumed id

/-- A call that has returned has called `onSolution` on everything that was
observed. -/
theorem returned_exactly (h : (machine W result rs final).Reachable s)
    {v : α × CpSolverResponse} (hpc : s.pc = .returned v) :
    s.calls.map Except.ok = rs.map (heardAs W result) ∧ heardAs W result final = .ok v := by
  obtain ⟨tr, hrun⟩ := id h
  have hconsumed := consumed hrun
  rw [Consumed, hpc] at hconsumed
  obtain ⟨-, us, u, hpopped, hdone, hdecode, hresult, hheard⟩ := hconsumed
  have hpre := popped_script h
  rw [hpopped] at hpre
  obtain ⟨rfl, rfl⟩ := done_script hpre hdone
  refine ⟨heard_calls hheard, ?_⟩
  have hfinal : decodeResponse W (W.SerializeToString final) = .ok v.2 := hdecode
  rw [heardAs, hfinal, ← hresult]
  rfl

/-- A call that has returned has decoded every response. -/
theorem decoded_of_returned (h : (machine W result rs final).Reachable s)
    {v : α × CpSolverResponse} (hpc : s.pc = .returned v) :
    ∀ r ∈ rs ++ [final], ∃ c, heardAs W result r = .ok c := by
  obtain ⟨hcalls, hfinal⟩ := returned_exactly h hpc
  intro r hr
  rcases List.mem_append.mp hr with hsolution | hlast
  · have hmem : heardAs W result r ∈ s.calls.map Except.ok := by
      rw [hcalls]
      exact List.mem_map_of_mem hsolution
    obtain ⟨c, -, hc⟩ := List.mem_map.mp hmem
    exact ⟨c, hc.symm⟩
  · obtain rfl := List.mem_singleton.mp hlast
    exact ⟨v, hfinal⟩

/-- A call that has raised did so at its last update: the update does not decode, or
`onSolution` raised on it. -/
theorem raised_exactly (h : (machine W result rs final).Run tr s)
    {e : ε} (hpc : s.pc = .raised e) : ∃ k,
    s.stream.popped = (script W rs final).take (k + 1) ∧ s.stream.popped.length = k + 1 ∧
      ((s.calls.map Except.ok = (rs.take k).map (heardAs W result) ∧
          (rs ++ [final])[k]?.map (heardAs W result) = some (.error e)) ∨
        (.solutionRaise e ∈ tr ∧
          s.calls.map Except.ok = (rs.take (k + 1)).map (heardAs W result) ∧
            k < rs.length)) := by
  have hconsumed := consumed h
  rw [Consumed, hpc] at hconsumed
  obtain ⟨-, us, u, hpopped, hwhy⟩ := hconsumed
  have hpre := popped_script ⟨tr, h⟩
  have htake := List.prefix_iff_eq_take.mp hpre
  have hlen : s.stream.popped.length = us.length + 1 := by simp [hpopped]
  rw [hlen] at htake
  rw [hpopped] at hpre
  refine ⟨us.length, htake, hlen, ?_⟩
  rcases hwhy with ⟨hdecode, hheard⟩ | ⟨hraised, hheard⟩
  · left
    refine ⟨(heard_script ((List.prefix_append us _).trans hpre) hheard).2, ?_⟩
    obtain ⟨r, hr, hbytes⟩ := update_script hpre
    rw [hr, Option.map_some, heardAs, ← hbytes, hdecode]
    rfl
  · right
    have hheard := heard_script hpre hheard
    simp only [List.length_append, List.length_singleton] at hheard
    exact ⟨hraised, hheard.2, by omega⟩

/-- A consumer that is through stays where it is. -/
theorem over_step {e : Event ε}
    (hs : (machine W result rs final).Reachable s) (hover : s.pc.Over)
    (guard : enabled W final s e) :
    (next W result final s e).pc = s.pc ∧ (next W result final s e).calls = s.calls ∧
      (next W result final s e).stream.popped = s.stream.popped := by
  cases e with
  | next =>
      have hpc : s.pc = .pulling := guard.1
      rw [hpc] at hover
      exact absurd hover id
  | enter =>
      have hpc := inNext_of_enter hs (guard.2 (.enter ()) rfl)
      rw [hpc] at hover
      exact absurd hover id
  | decode =>
      obtain ⟨isDone, bytes, hpc⟩ := guard.1
      rw [hpc] at hover
      exact absurd hover id
  | solutionOk | solutionRaise _ =>
      obtain ⟨response, hpc⟩ := guard.1
      rw [hpc] at hover
      exact absurd hover id
  | observe | finish | notify _ | spurious =>
      refine ⟨rfl, rfl, (stream_of_quiet guard ?_).2⟩
      simp [streamEvent, Stream.Event.Quiet]

/-- Whatever else happens, a call that is over stays as it is. -/
theorem over_path {t : State R α ε}
    (hs : (machine W result rs final).Reachable s) (hover : s.pc.Over)
    (h : (machine W result rs final).Path s tr t) :
    t.pc = s.pc ∧ t.calls = s.calls ∧ t.stream.popped = s.stream.popped := by
  induction h with
  | nil => exact ⟨rfl, rfl, rfl⟩
  | @snoc tr m e before guard ih =>
      obtain ⟨hpc, hcalls, hpopped⟩ := ih
      have hstay := over_step (hs.path before) (by rw [hpc]; exact hover) guard
      exact ⟨hstay.1.trans hpc, hstay.2.1.trans hcalls, hstay.2.2.trans hpopped⟩

/-- An `onSolution` call that raises ends the call with what it raised. -/
theorem raises_exactly (h : (machine W result rs final).Run tr s) {e : ε} :
    .solutionRaise e ∈ tr → s.pc = .raised e := by
  refine h.holds (I := fun tr s => .solutionRaise e ∈ tr → s.pc = .raised e)
    (fun hnil => absurd hnil List.not_mem_nil) ?_
  intro tr s d hrun ih guard hmem
  rcases List.mem_append.mp hmem with hold | hnew
  · have hpc := ih hold
    have hstay := over_step ⟨tr, hrun⟩ (by rw [hpc]; trivial) guard
    exact hstay.1.trans hpc
  · obtain rfl := List.mem_singleton.mp hnew
    rfl

/-- A call that is through has returned if everything decodes and `onSolution`
never raises. -/
theorem returns_exactly (h : (machine W result rs final).Run tr s) (hover : s.pc.Over)
    (hquiet : ∀ e, .solutionRaise e ∉ tr)
    (hdecodes : ∀ r ∈ rs ++ [final], ∃ c, heardAs W result r = .ok c) :
    ∃ v, s.pc = .returned v ∧ heardAs W result final = .ok v := by
  cases hpc : s.pc with
  | returned v => exact ⟨v, rfl, (returned_exactly ⟨tr, h⟩ hpc).2⟩
  | raised e =>
      obtain ⟨k, -, -, ⟨-, herror⟩ | ⟨hraised, -⟩⟩ := raised_exactly h hpc
      · obtain ⟨r, hr, hheard⟩ := Option.map_eq_some_iff.mp herror
        obtain ⟨c, hc⟩ := hdecodes r (List.mem_of_getElem? hr)
        rw [hheard] at hc
        cases hc
      · exact absurd hraised (hquiet e)
  | _ =>
      rw [hpc] at hover
      exact absurd hover id

/-- The first response that does not decode ends the call. -/
theorem fails_exactly (h : (machine W result rs final).Run tr s) (hover : s.pc.Over)
    (hquiet : ∀ e, .solutionRaise e ∉ tr) {k : ℕ} {e : ε}
    (hbefore : ∀ r ∈ (rs ++ [final]).take k, ∃ c, heardAs W result r = .ok c)
    (hat : (rs ++ [final])[k]?.map (heardAs W result) = some (.error e)) :
    s.pc = .raised e ∧ s.stream.popped = (script W rs final).take (k + 1) := by
  obtain ⟨r, hr, hfails⟩ := Option.map_eq_some_iff.mp hat
  cases hpc : s.pc with
  | returned v =>
      obtain ⟨c, hc⟩ := decoded_of_returned ⟨tr, h⟩ hpc r (List.mem_of_getElem? hr)
      rw [hfails] at hc
      cases hc
  | raised e' =>
      obtain ⟨k', hpopped, -, ⟨hcalls, hat'⟩ | ⟨hraised, -⟩⟩ := raised_exactly h hpc
      · obtain ⟨r', hr', hfails'⟩ := Option.map_eq_some_iff.mp hat'
        -- what was heard before `k'` decodes, and so does all before `k`
        have hnot : ¬ k' < k := by
          intro hlt
          have hmem : r' ∈ (rs ++ [final]).take k := by
            apply List.mem_of_getElem? (i := k')
            rw [List.getElem?_take_of_lt hlt, hr']
          obtain ⟨c, hc⟩ := hbefore r' hmem
          rw [hfails'] at hc
          cases hc
        have hnot' : ¬ k < k' := by
          intro hlt
          have hlen : k' < (rs ++ [final]).length := (List.getElem?_eq_some_iff.mp hr').1
          have hlen : k < rs.length := by
            rw [List.length_append, List.length_singleton] at hlen
            omega
          have hmem : heardAs W result r ∈ s.calls.map Except.ok := by
            rw [hcalls]
            apply List.mem_map_of_mem
            apply List.mem_of_getElem? (i := k)
            rw [List.getElem?_take_of_lt hlt, ← hr, List.getElem?_append_left hlen]
          obtain ⟨c, -, hc⟩ := List.mem_map.mp hmem
          rw [hfails] at hc
          cases hc
        obtain rfl : k' = k := by omega
        rw [hat] at hat'
        obtain rfl : e = e' := by simpa using hat'
        exact ⟨rfl, hpopped⟩
      · exact absurd hraised (hquiet e')
  | _ =>
      rw [hpc] at hover
      exact absurd hover id

/-- Every run delivers exactly. -/
theorem delivered_exactly (h : (machine W result rs final).Run tr s) :
    DeliveredExactly W result rs final tr s where
  conserved := (Stream.accounted (stream_reachable ⟨tr, h⟩)).conserved
  in_order := by
    rw [← (sent ⟨tr, h⟩).sent]
    exact List.prefix_append _ _
  one_done := (Stream.accounted (stream_reachable ⟨tr, h⟩)).shaped
  called := called_exactly ⟨tr, h⟩
  returned _ hpc := returned_exactly ⟨tr, h⟩ hpc
  raised _ hpc := raised_exactly h hpc
  raises _ hmem := raises_exactly h hmem
  returns hover hquiet hdecodes := returns_exactly h hover hquiet hdecodes
  fails hover hquiet _ _ hbefore hat := fails_exactly h hover hquiet hbefore hat
  stays hover _ _ hpath := over_path ⟨tr, h⟩ hover hpath
  after_done _ hu hdone := Stream.nextResult_of_done_popped (stream_reachable ⟨tr, h⟩) hu hdone

/-- **Streaming delivery is exact.**  Whatever solutions `rs` CP-SAT passes to
the observer, whatever response `final` it ends with, and however worker and
consumer are interleaved: every run of the call is exact in every state; the
call takes a bounded number of steps, spurious wake-ups apart, and is never
stuck before it is through.  What concerns the queue alone holds for any number
of callers of `cpsat_solve_stream_next`. -/
theorem streaming_delivery_exact (W : Codec R ε) (result : α) (rs : List R) (final : R) :
    (∀ tr s, (machine W result rs final).Run tr s → DeliveredExactly W result rs final tr s) ∧
    (∀ tr s, (machine W result rs final).Run tr s →
      tr.length ≤ 7 * (rs.length + 1) + 2 + 2 * tr.countP Event.isSpurious) ∧
    (∀ s, (machine W result rs final).Reachable s →
      s.pc.Over ∨ ∃ e : Event ε, e.isSpurious = false ∧
        (machine W result rs final).enabled s e) ∧
    (∀ (κ : Type) [DecidableEq κ] (s : Stream.State κ ByteArray),
      (Stream.machine κ ByteArray).Reachable s →
        s.popped ++ s.queue = s.pushed ∧ Stream.Shaped s.finished s.pushed ∧
          ∀ u ∈ s.popped, u.is_done = true → nextResult s = .error alreadyFinished) := by
  refine ⟨fun tr s h => delivered_exactly h, fun tr s h => run_length_le h,
    fun s h => done_or_moving h, ?_⟩
  intro κ _ s h
  have haccounts := Stream.accounted h
  exact ⟨haccounts.conserved, haccounts.shaped,
    fun u hu hdone => Stream.nextResult_of_done_popped h hu hdone⟩

/-- One byte a response, decoded to an empty one. -/
def byteCodec : Codec UInt8 String where
  SerializeToString r := ⟨#[r]⟩
  decodeThe _ := .ok {}
  userError message := message
  serialized_size _ := by change 1 < 2 ^ 31; decide

/-- A consumer that parks, hears one solution, and raises on it. -/
def raisingConsumer : List (Event String) :=
  [.next, .enter, .observe, .notify (some ()), .finish, .enter, .decode,
    .solutionRaise "enough", .notify none]

/-- A run whose `onSolution` raises on the only solution. -/
theorem raising_consumer_exact :
    ∃ s, (machine byteCodec () [1] 2).Run raisingConsumer s ∧
      DeliveredExactly byteCodec () [1] 2 raisingConsumer s := by
  have hrun : (machine byteCodec () [1] 2).Run raisingConsumer _ :=
    Machine.run_of_exec _ (by decide +kernel)
  exact ⟨_, hrun, (streaming_delivery_exact byteCodec () [1] 2).1 _ _ hrun⟩

end Cpsat.Delivery
