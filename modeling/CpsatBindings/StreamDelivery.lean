import CpsatBindings.WireMessages
import CpsatBindings.StreamWakeups

/-!
# Pulling a stream to its end

`pullUpdates` of `Cpsat/Solver.lean` against the queue of `cpsat_shim.cpp`: one
consumer, which pulls, decodes and calls `onSolution`, and a worker, which
pushes whatever CP-SAT passes to its observer and at last the final response.
Everything the worker and the consumer do is interleaved freely.

* `Sent`, `Consumed` — the two halves of the invariant: what the worker has
  pushed is a prefix of the script, and what the consumer has done is told by
  what it has popped.
* `done_or_moving`, `run_length_le` — the call comes to an end.
-/

namespace Cpsat.Delivery

open Cpsat.Stream (StreamUpdate NextResult alreadyFinished nextResult)
open scoped List

/-- The serialization on both sides of the queue: protobuf's in the shim, the
Lean library's in `Cpsat/Solver.lean`, and how Lean wraps an error text.  A
serialized message fits in an `int`. -/
structure Codec (R ε : Type*) where
  SerializeToString : R → ByteArray
  decodeThe : ByteArray → Except String Proto.CpSolverResponseProto
  userError : String → ε
  serialized_size : ∀ r, (SerializeToString r).size < 2 ^ 31

/-- `static_cast<int>` of a size. -/
def castInt (size : Nat) : Int := Int.bmod size (2 ^ 32)

/-- `cpsat_bytes_of`: copy `len` bytes.  A negative length asks for an array
no allocator has. -/
def cpsat_bytes_of (data : ByteArray) (len : Int) : Option ByteArray :=
  if 0 ≤ len then some (data.extract 0 len.toNat) else none

/-- Below `2 ^ 31` bytes are handed over unchanged. -/
theorem cpsat_bytes_of_castInt {data : ByteArray} (h : data.size < 2 ^ 31) :
    cpsat_bytes_of data (castInt data.size) = some data := by
  have hcast : castInt data.size = data.size := Int.bmod_eq_of_le (by omega) (by omega)
  simp [cpsat_bytes_of, hcast]

section Protocol

variable {R ε α : Type*} (W : Codec R ε)

/-- The response, or an error that names the decoder's. -/
def decodeResponse (bytes : ByteArray) : Except ε CpSolverResponse :=
  match W.decodeThe bytes with
  | .ok resp => .ok (Proto.responseFromProto resp)
  | .error e => .error (W.userError s!"internal error decoding CpSolverResponse: {e}")

/-- The update an observed solution is pushed as. -/
def improving (r : R) : StreamUpdate ByteArray := ⟨false, W.SerializeToString r⟩

/-- The update the final response is pushed as. -/
def done (r : R) : StreamUpdate ByteArray := ⟨true, W.SerializeToString r⟩

/-- All updates of a solve that observes `rs` and ends with `final`. -/
def script (rs : List R) (final : R) : List (StreamUpdate ByteArray) :=
  rs.map (improving W) ++ [done W final]

/-- Where `solveWithResultCallback` stands. -/
inductive Consumer (α ε : Type*) where
  | pulling
  | inNext
  | decoding (isDone : Bool) (bytes : ByteArray)
  | inCallback (response : CpSolverResponse)
  | returned (value : α × CpSolverResponse)
  | raised (error : ε)
  | aborted

/-- The queue, the solutions CP-SAT has not observed yet, the consumer, and the
`onSolution` calls it has made. -/
structure State (R α ε : Type*) where
  stream : Stream.State Unit ByteArray
  pending : List R
  pc : Consumer α ε
  calls : List (α × CpSolverResponse)

/-- What can happen next, to the consumer, the worker or the queue. -/
inductive Event (ε : Type*) where
  | observe
  | finish
  | notify (wakes : Option Unit)
  | next
  | enter
  | spurious
  | decode
  | solutionOk
  | solutionRaise (error : ε)

variable (result : α) (rs : List R) (final : R)

/-- What an event does to the queue. -/
def streamEvent (s : State R α ε) : Event ε → Option (Stream.Event Unit ByteArray)
  | .observe => s.pending.head?.map fun r => .push (W.SerializeToString r)
  | .finish => some (.pushDone (W.SerializeToString final))
  | .notify wakes => some (.notify wakes)
  | .next => some (.call ())
  | .enter => some (.enter ())
  | .spurious => some (.spurious ())
  | .decode | .solutionOk | .solutionRaise _ => none

/-- When an event may happen, the queue's own guard apart. -/
def gate (s : State R α ε) : Event ε → Prop
  | .observe => s.pending ≠ []
  | .finish => s.pending = []
  | .notify _ | .enter | .spurious => True
  | .next => s.pc = .pulling
  | .decode => ∃ isDone bytes, s.pc = .decoding isDone bytes
  | .solutionOk | .solutionRaise _ => ∃ response, s.pc = .inCallback response

def enabled (s : State R α ε) (e : Event ε) : Prop :=
  gate s e ∧ ∀ d ∈ streamEvent W final s e, Stream.enabled s.stream d

/-- The pair `cpsat_solve_stream_next` builds of an update. -/
def handedOver (isDone : Bool) : Option ByteArray → Consumer α ε
  | some bytes => .decoding isDone bytes
  | none => .aborted

/-- The end of `cpsat_solve_stream_next`, or one more wait. -/
def received : NextResult ByteArray → Consumer α ε
  | .update u => handedOver u.is_done (cpsat_bytes_of u.bytes (castInt u.bytes.size))
  | .error message => .raised (W.userError message)
  | .wait => .inNext

/-- The rest of `nextUpdate`, and the match of `pullUpdates`. -/
def decoded (s : State R α ε) (isDone : Bool) (bytes : ByteArray) : State R α ε :=
  match decodeResponse W bytes with
  | .error e => { s with pc := .raised e }
  | .ok response =>
      if isDone then { s with pc := .returned (result, response) }
      else { s with pc := .inCallback response, calls := s.calls ++ [(result, response)] }

/-- What an event does beside the queue. -/
def consume (s : State R α ε) : Event ε → State R α ε
  | .observe => { s with pending := s.pending.tail }
  | .finish | .notify _ | .spurious => s
  | .next => { s with pc := .inNext }
  | .enter => { s with pc := received W (nextResult s.stream) }
  | .decode =>
      match s.pc with
      | .decoding isDone bytes => decoded W result s isDone bytes
      | _ => s
  | .solutionOk => { s with pc := .pulling }
  | .solutionRaise error => { s with pc := .raised error }

def next (s : State R α ε) (e : Event ε) : State R α ε :=
  { consume W result s e with
    stream := match streamEvent W final s e with
      | some d => Stream.next s.stream d
      | none => s.stream }

/-- One call of `solveWithResultCallback`, from the start of its stream. -/
def machine : Machine (State R α ε) (Event ε) where
  init := { stream := {}, pending := rs, pc := .pulling, calls := [] }
  enabled := enabled W final
  next := next W result final

/-- The gates, as tests on where the consumer stands. -/
def gateTest (s : State R α ε) : Event ε → Bool
  | .observe => !s.pending.isEmpty
  | .finish => s.pending.isEmpty
  | .notify _ | .enter | .spurious => true
  | .next => match s.pc with
    | .pulling => true
    | _ => false
  | .decode => match s.pc with
    | .decoding _ _ => true
    | _ => false
  | .solutionOk | .solutionRaise _ => match s.pc with
    | .inCallback _ => true
    | _ => false

/-- The test decides the gate. -/
theorem gateTest_iff (s : State R α ε) (e : Event ε) : gateTest s e = true ↔ gate s e := by
  cases e with
  | observe | finish => simp [gateTest, gate]
  | notify _ | enter | spurious => simp [gateTest, gate]
  | next | decode | solutionOk | solutionRaise _ =>
      unfold gateTest gate
      cases s.pc <;> simp

instance (s : State R α ε) (e : Event ε) : Decidable (gate s e) :=
  decidable_of_iff _ (gateTest_iff s e)

instance (s : State R α ε) (e : Event ε) :
    Decidable ((machine W result rs final).enabled s e) :=
  inferInstanceAs (Decidable (gate s e ∧ ∀ d ∈ streamEvent W final s e, Stream.enabled s.stream d))

/-! ## The queue is the queue -/

variable {W result rs final}

/-- Seen from the queue, the call is a run of the queue. -/
theorem stream_reachable {s : State R α ε} (h : (machine W result rs final).Reachable s) :
    (Stream.machine Unit ByteArray).Reachable s.stream := by
  refine h.project (f := State.stream) (g := streamEvent W final) rfl ?_ ?_
  · intro m e _ _ hnone
    change (match streamEvent W final m e with
      | some d => Stream.next m.stream d
      | none => m.stream) = m.stream
    rw [hnone]
  · intro m e d _ guard hsome
    refine ⟨guard.2 d hsome, ?_⟩
    change (match streamEvent W final m e with
      | some d => Stream.next m.stream d
      | none => m.stream) = Stream.next m.stream d
    rw [hsome]

/-! ## What the worker has sent -/

variable (W rs final) in
/-- The pushed updates are the script up to the solutions still to come. -/
structure Sent (s : State R α ε) : Prop where
  sent : s.stream.pushed ++
    (s.pending.map (improving W) ++ if s.stream.finished then [] else [done W final]) =
      script W rs final
  spent : s.stream.finished = true → s.pending = []

theorem sent_init : Sent W rs final (machine W result rs final).init where
  sent := by simp [machine, script]
  spent := by simp [machine]

/-- An event that pushes nothing and observes nothing sends nothing. -/
theorem sent_of_quiet {s : State R α ε} {e : Event ε} (h : Sent W rs final s)
    (hpending : (next W result final s e).pending = s.pending)
    (hquiet : ∀ d ∈ streamEvent W final s e, d.pushes = []) :
    Sent W rs final (next W result final s e) := by
  have hstream : (next W result final s e).stream.pushed = s.stream.pushed ∧
      (next W result final s e).stream.finished = s.stream.finished := by
    unfold next
    cases hd : streamEvent W final s e with
    | none => exact ⟨rfl, rfl⟩
    | some d => simp [hquiet d hd]
  refine ⟨?_, ?_⟩
  · rw [hpending, hstream.1, hstream.2]
    exact h.sent
  · rw [hpending, hstream.2]
    exact h.spent

theorem sent_step {s : State R α ε} {e : Event ε}
    (hs : (machine W result rs final).Reachable s) (h : Sent W rs final s)
    (guard : (machine W result rs final).enabled s e) :
    Sent W rs final ((machine W result rs final).next s e) := by
  change enabled W final s e at guard
  change Sent W rs final (next W result final s e)
  have hopen := (Stream.accounted (stream_reachable hs)).unfinished
  cases e with
  | observe =>
      cases hp : s.pending with
      | nil => exact absurd hp guard.1
      | cons r rest =>
          have hworker : s.stream.worker = .searching :=
            guard.2 (.push (W.SerializeToString r)) (by simp [streamEvent, hp])
          have hstream : (next W result final s .observe).stream =
              Stream.next s.stream (.push (W.SerializeToString r)) := by
            simp [next, streamEvent, hp]
          have hpending : (next W result final s .observe).pending = rest := by
            simp [next, consume, hp]
          have hf : s.stream.finished = false := hopen hworker
          refine ⟨?_, ?_⟩
          · rw [← h.sent]
            simp [hstream, hpending, hp, hf, Stream.Event.pushes, improving]
          · simp [hstream, hf, Stream.Event.pushes]
  | finish =>
      have hworker : s.stream.worker = .searching :=
        guard.2 (.pushDone (W.SerializeToString final)) rfl
      have hspent : s.pending = [] := guard.1
      have hf : s.stream.finished = false := hopen hworker
      refine ⟨?_, ?_⟩
      · rw [← h.sent]
        simp [next, consume, streamEvent, hspent, hf, Stream.Event.pushes, done]
      · intro _
        exact hspent
  | decode =>
      refine sent_of_quiet h ?_ (by simp [streamEvent])
      change (match s.pc with
        | .decoding isDone bytes => decoded W result s isDone bytes
        | _ => s).pending = s.pending
      split
      · unfold decoded
        split
        · rfl
        · split <;> rfl
      · rfl
  | notify wakes => exact sent_of_quiet h rfl (by simp [streamEvent, Stream.Event.pushes])
  | next => exact sent_of_quiet h rfl (by simp [streamEvent, Stream.Event.pushes])
  | enter => exact sent_of_quiet h rfl (by simp [streamEvent, Stream.Event.pushes])
  | spurious => exact sent_of_quiet h rfl (by simp [streamEvent, Stream.Event.pushes])
  | solutionOk => exact sent_of_quiet h rfl (by simp [streamEvent])
  | solutionRaise error => exact sent_of_quiet h rfl (by simp [streamEvent])

/-- Every reachable state has sent its part of the script. -/
theorem sent {s : State R α ε} (h : (machine W result rs final).Reachable s) :
    Sent W rs final s :=
  h.holds sent_init fun _ _ hs hsent guard => sent_step hs hsent guard

/-! ## What the consumer has done -/

variable {tr : List (Event ε)}

variable (W result) in
/-- The updates `us` were improving ones, and `onSolution` was called on what
they decode to, in order. -/
def Heard (us : List (StreamUpdate ByteArray)) (calls : List (α × CpSolverResponse)) : Prop :=
  List.Forall₂
    (fun u c => u.is_done = false ∧ decodeResponse W u.bytes = .ok c.2 ∧ c.1 = result) us calls

/-- What has been heard is not done. -/
theorem Heard.unfinished {us : List (StreamUpdate ByteArray)}
    {calls : List (α × CpSolverResponse)} (h : Heard W result us calls) :
    ∀ u ∈ us, u.is_done = false := by
  induction h with
  | nil => simp
  | cons hhead _ ih => simpa using ⟨hhead.1, ih⟩

/-- One response more. -/
theorem Heard.snoc {us : List (StreamUpdate ByteArray)} {calls : List (α × CpSolverResponse)}
    {u : StreamUpdate ByteArray} {response : CpSolverResponse} (h : Heard W result us calls)
    (hu : u.is_done = false) (hdecode : decodeResponse W u.bytes = .ok response) :
    Heard W result (us ++ [u]) (calls ++ [(result, response)]) :=
  List.rel_append h (.cons ⟨hu, hdecode, rfl⟩ .nil)

variable (W result) in
/-- What a consumer at `pc` has done, told by what was popped, who is inside
`cpsat_solve_stream_next`, and whether an `onSolution` call has raised. -/
def ConsumedAt (tr : List (Event ε)) (callers : List Unit)
    (popped : List (StreamUpdate ByteArray)) (calls : List (α × CpSolverResponse)) :
    Consumer α ε → Prop
  | .pulling => callers = [] ∧ Heard W result popped calls
  | .inNext => callers = [()] ∧ Heard W result popped calls
  | .decoding isDone bytes =>
      callers = [] ∧ ∃ us, popped = us ++ [⟨isDone, bytes⟩] ∧ Heard W result us calls
  | .inCallback response =>
      callers = [] ∧ Heard W result popped calls ∧ calls.getLast? = some (result, response)
  | .returned v =>
      callers = [] ∧ ∃ us u, popped = us ++ [u] ∧ u.is_done = true ∧
        decodeResponse W u.bytes = .ok v.2 ∧ v.1 = result ∧ Heard W result us calls
  | .raised e =>
      callers = [] ∧ ∃ us u, popped = us ++ [u] ∧
        (decodeResponse W u.bytes = .error e ∧ Heard W result us calls ∨
          .solutionRaise e ∈ tr ∧ Heard W result (us ++ [u]) calls)
  | .aborted => False

/-- What has happened stays so. -/
theorem ConsumedAt.snoc {tr : List (Event ε)} {callers : List Unit}
    {popped : List (StreamUpdate ByteArray)} {calls : List (α × CpSolverResponse)}
    {pc : Consumer α ε} (h : ConsumedAt W result tr callers popped calls pc) (e : Event ε) :
    ConsumedAt W result (tr ++ [e]) callers popped calls pc := by
  cases pc with
  | raised error =>
      obtain ⟨hcallers, us, u, hpopped, hdecode | ⟨hraised, hheard⟩⟩ := h
      · exact ⟨hcallers, us, u, hpopped, Or.inl hdecode⟩
      · exact ⟨hcallers, us, u, hpopped, Or.inr ⟨List.mem_append_left _ hraised, hheard⟩⟩
  | _ => exact h

variable (W result) in
/-- The consumer's half of the invariant, of a history and the state it led to. -/
def Consumed (tr : List (Event ε)) (s : State R α ε) : Prop :=
  ConsumedAt W result tr s.stream.callers s.stream.popped s.calls s.pc

theorem consumed_init : Consumed W result [] (machine W result rs final).init :=
  ⟨rfl, .nil⟩

/-- Callers of one thread are told by their number. -/
theorem callers_unit {s t : Stream.State Unit ByteArray} (h : s.callers ~ t.callers) :
    s.callers = t.callers :=
  List.ext_getElem h.length_eq fun _ _ _ => rfl

/-- An event no caller takes part in leaves the caller where it is. -/
theorem stream_of_quiet {s : State R α ε} {e : Event ε} (guard : enabled W final s e)
    (hquiet : ∀ d ∈ streamEvent W final s e, d.Quiet) :
    (next W result final s e).stream.callers = s.stream.callers ∧
      (next W result final s e).stream.popped = s.stream.popped := by
  have hqueue := guard.2
  unfold next
  cases hd : streamEvent W final s e with
  | none => exact ⟨rfl, rfl⟩
  | some d =>
      obtain ⟨hmoved, hpopped⟩ := Stream.quiet_step (hqueue d hd) (hquiet d hd)
      exact ⟨callers_unit hmoved, hpopped⟩

/-- A step that neither pops nor calls leaves what has been consumed. -/
theorem consumed_of_quiet {s : State R α ε} {e : Event ε} (h : Consumed W result tr s)
    (guard : enabled W final s e)
    (hquiet : ∀ d ∈ streamEvent W final s e, d.Quiet)
    (hpc : (next W result final s e).pc = s.pc)
    (hcalls : (next W result final s e).calls = s.calls) :
    Consumed W result (tr ++ [e]) (next W result final s e) := by
  have hstream := @stream_of_quiet _ _ _ W result final s e guard hquiet
  unfold Consumed
  rw [hpc, hcalls, hstream.1, hstream.2]
  exact h.snoc e

/-- Every update on the way fits in an `int`. -/
theorem update_size {s : State R α ε} (h : (machine W result rs final).Reachable s)
    {u : StreamUpdate ByteArray} (hu : u ∈ s.stream.queue) : u.bytes.size < 2 ^ 31 := by
  have hpushed : u ∈ s.stream.pushed := by
    rw [← (Stream.accounted (stream_reachable h)).conserved]
    exact List.mem_append_right _ hu
  have hscript : u ∈ script W rs final := by
    rw [← (sent h).sent]
    exact List.mem_append_left _ hpushed
  rcases List.mem_append.mp hscript with himproving | hdone
  · obtain ⟨r, -, rfl⟩ := List.mem_map.mp himproving
    exact W.serialized_size r
  · obtain rfl := List.mem_singleton.mp hdone
    exact W.serialized_size final

/-- Whoever takes the mutex is the consumer, inside `cpsat_solve_stream_next`. -/
theorem entering {s : State R α ε} (h : Consumed W result tr s)
    (hin : () ∈ s.stream.calling ∨ () ∈ s.stream.woken) :
    s.pc = .inNext ∧ s.stream.callers = [()] ∧ Heard W result s.stream.popped s.calls := by
  have hsome : s.stream.callers ≠ [] := by
    intro hnil
    simp only [Stream.State.callers, List.append_eq_nil_iff] at hnil
    rcases hin with hc | hc
    · simp [hnil.1.1] at hc
    · simp [hnil.2] at hc
  unfold Consumed at h
  cases hpc : s.pc with
  | inNext =>
      rw [hpc] at h
      exact ⟨rfl, h⟩
  | aborted =>
      rw [hpc] at h
      exact absurd h id
  | _ =>
      rw [hpc] at h
      exact absurd h.1 hsome

/-- One update is popped at most, and not decoded yet. -/
theorem consumed_enter {s : State R α ε} (hs : (machine W result rs final).Reachable s)
    (h : Consumed W result tr s) (guard : enabled W final s .enter) :
    Consumed W result (tr ++ [.enter]) (next W result final s .enter) := by
  have hin : () ∈ s.stream.calling ∨ () ∈ s.stream.woken := guard.2 (.enter ()) rfl
  obtain ⟨hpc, hcallers, hheard⟩ := entering h hin
  have hnodup := Stream.callers_nodup (stream_reachable hs)
  have hpc' : (next W result final s .enter).pc = received W (nextResult s.stream) := rfl
  have hcalls' : (next W result final s .enter).calls = s.calls := rfl
  have hstream' : (next W result final s .enter).stream = Stream.enter s.stream () := rfl
  unfold Consumed
  rw [hpc', hcalls', hstream', Stream.enter_popped]
  cases hres : nextResult s.stream with
  | update u =>
      have hu : s.stream.queue.head? = some u := Stream.nextResult_eq_update_iff.mp hres
      have hgo : nextResult s.stream ≠ .wait := by rw [hres]; simp
      have hleft : (Stream.enter s.stream ()).callers = [] := by
        have hlen := (Stream.callers_enter hnodup hin hgo).length_eq
        rw [hcallers] at hlen
        exact List.length_eq_zero_iff.mp (by simpa using hlen)
      have hsize : u.bytes.size < 2 ^ 31 := update_size hs (List.mem_of_head? hu)
      rw [received, cpsat_bytes_of_castInt hsize, hu]
      exact ⟨hleft, s.stream.popped, rfl, hheard⟩
  | error message =>
      -- an exhausted finished stream would have given out the done update
      have hempty : s.stream.queue = [] ∧ s.stream.finished = true := by
        unfold nextResult at hres
        split at hres
        · rename_i hq
          split at hres
          · exact ⟨hq, by assumption⟩
          · cases hres
        · cases hres
      have haccounts := Stream.accounted (stream_reachable hs)
      have hshaped := haccounts.shaped
      rw [hempty.2, ← haccounts.conserved, hempty.1, List.append_nil] at hshaped
      obtain ⟨us, u, hus, hu, -⟩ := hshaped
      have hopen : u.is_done = false := hheard.unfinished u (by simp [hus])
      rw [hopen] at hu
      cases hu
  | wait =>
      have hempty : s.stream.queue = [] := (Stream.nextResult_eq_wait_iff.mp hres).1
      have hstay := callers_unit (Stream.callers_enter_of_wait hnodup hin hres)
      rw [hempty, List.head?_nil, Option.toList_none, List.append_nil]
      exact ⟨hstay.trans hcallers, hheard⟩

/-- It is decoded, and may fail to. -/
theorem consumed_decode {s : State R α ε} (h : Consumed W result tr s)
    (guard : enabled W final s .decode) :
    Consumed W result (tr ++ [.decode]) (next W result final s .decode) := by
  obtain ⟨isDone, bytes, hpc⟩ := guard.1
  rw [Consumed, hpc] at h
  obtain ⟨hcallers, us, hpopped, hheard⟩ := h
  have hnext : next W result final s .decode =
      { decoded W result s isDone bytes with stream := s.stream } := by
    simp [next, consume, streamEvent, hpc]
  rw [hnext]
  unfold decoded
  cases hdecode : decodeResponse W bytes with
  | error e => exact ⟨hcallers, us, _, hpopped, Or.inl ⟨hdecode, hheard⟩⟩
  | ok response =>
      cases isDone with
      | true => exact ⟨hcallers, us, _, hpopped, rfl, hdecode, rfl, hheard⟩
      | false =>
          refine ⟨hcallers, ?_, by simp⟩
          change Heard W result s.stream.popped _
          rw [hpopped]
          exact hheard.snoc rfl hdecode

/-- One step of the consumer or of anybody else. -/
theorem consumed_step {s : State R α ε} {e : Event ε}
    (hs : (machine W result rs final).Reachable s) (h : Consumed W result tr s)
    (guard : (machine W result rs final).enabled s e) :
    Consumed W result (tr ++ [e]) ((machine W result rs final).next s e) := by
  change enabled W final s e at guard
  change Consumed W result (tr ++ [e]) (next W result final s e)
  cases e with
  | enter => exact consumed_enter hs h guard
  | decode => exact consumed_decode h guard
  | next =>
      have hpc : s.pc = .pulling := guard.1
      rw [Consumed, hpc] at h
      refine ⟨?_, h.2⟩
      change () :: s.stream.callers = [()]
      rw [h.1]
  | solutionOk =>
      obtain ⟨response, hpc⟩ := guard.1
      rw [Consumed, hpc] at h
      exact ⟨h.1, h.2.1⟩
  | solutionRaise error =>
      obtain ⟨response, hpc⟩ := guard.1
      rw [Consumed, hpc] at h
      obtain ⟨hcallers, hheard, hlast⟩ := h
      refine ⟨hcallers, ?_⟩
      rcases List.eq_nil_or_concat s.stream.popped with hnil | ⟨us, u, hpopped⟩
      · rw [Heard, hnil, List.forall₂_nil_left_iff] at hheard
        simp [hheard] at hlast
      · rw [List.concat_eq_append] at hpopped
        refine ⟨us, u, hpopped, Or.inr ⟨List.mem_append_right _ List.mem_cons_self, ?_⟩⟩
        rw [← hpopped]
        exact hheard
  | observe | finish | notify _ | spurious =>
      exact consumed_of_quiet h guard (by simp [streamEvent, Stream.Event.Quiet]) rfl rfl

/-- Every run has consumed what it popped. -/
theorem consumed {s : State R α ε} (h : (machine W result rs final).Run tr s) :
    Consumed W result tr s :=
  h.holds consumed_init fun tr _ _ hm hconsumed guard => consumed_step ⟨tr, hm⟩ hconsumed guard

/-- Whoever takes the mutex in a reachable state is the consumer. -/
theorem inNext_of_enter {s : State R α ε} (h : (machine W result rs final).Reachable s)
    (hin : () ∈ s.stream.calling ∨ () ∈ s.stream.woken) : s.pc = .inNext := by
  obtain ⟨tr, hrun⟩ := h
  exact (entering (consumed hrun) hin).1

/-! ## The call comes to an end -/

/-- The consumer is through. -/
def Consumer.Over : Consumer α ε → Prop
  | .returned _ | .raised _ => True
  | _ => False

/-- A wake-up without a notification. -/
def Event.isSpurious : Event ε → Bool
  | .spurious => true
  | _ => false

/-- What the consumer still has to do for the update it is at. -/
def Consumer.cost : Consumer α ε → Nat
  | .pulling => 2
  | .decoding _ _ => 4
  | .inCallback _ => 3
  | .inNext | .returned _ | .raised _ | .aborted => 0

/-- What the worker has yet to notify. -/
def workerCost : Stream.WorkerPc → Nat
  | .notifying | .notifyingDone => 2
  | .searching | .terminated => 0

/-- What the done update costs as long as it has not been pushed. -/
def openCost : Bool → Nat
  | true => 0
  | false => 7

/-- What is left to do: an update not pushed yet costs its push, its
notification, the wake-up that brings, and what the consumer does with it. -/
def remaining (s : State R α ε) : Nat :=
  7 * s.pending.length + openCost s.stream.finished + 4 * s.stream.queue.length +
    workerCost s.stream.worker + (s.stream.calling.length + s.stream.woken.length) +
    s.pc.cost

/-- What an update that was handed over costs the consumer. -/
theorem handedOver_cost (isDone : Bool) (bytes : Option ByteArray) :
    (handedOver isDone bytes : Consumer α ε).cost ≤ 4 := by
  cases bytes <;> simp [handedOver, Consumer.cost]

/-- What a result costs the consumer. -/
theorem received_cost (res : NextResult ByteArray) :
    (received W res : Consumer α ε).cost ≤ match res with
      | .update _ => 4
      | _ => 0 := by
  cases res with
  | update u =>
      rw [received]
      exact handedOver_cost u.is_done _
  | error message => exact le_refl _
  | wait => exact le_refl _

/-- Entering makes what remains smaller. -/
theorem remaining_enter {s : State R α ε} (hs : (machine W result rs final).Reachable s)
    (guard : enabled W final s .enter) :
    remaining (next W result final s .enter) + 1 ≤ remaining s := by
  have hin : () ∈ s.stream.calling ∨ () ∈ s.stream.woken := guard.2 (.enter ()) rfl
  have hpc := inNext_of_enter hs hin
  have hshorter : (s.stream.calling.erase ()).length + (s.stream.woken.erase ()).length + 1 ≤
      s.stream.calling.length + s.stream.woken.length := by
    have hcalling := List.length_erase_le (a := ()) (l := s.stream.calling)
    have hwoken := List.length_erase_le (a := ()) (l := s.stream.woken)
    rcases hin with hc | hc
    · have := List.length_erase_of_mem hc
      have := List.length_pos_of_mem hc
      omega
    · have := List.length_erase_of_mem hc
      have := List.length_pos_of_mem hc
      omega
  have hcost := received_cost (W := W) (α := α) (nextResult s.stream)
  have hpay : 4 * s.stream.queue.tail.length +
      (received W (nextResult s.stream) : Consumer α ε).cost ≤ 4 * s.stream.queue.length := by
    rw [List.length_tail]
    cases hres : nextResult s.stream with
    | update u =>
        rw [hres] at hcost
        have hu := Stream.nextResult_eq_update_iff.mp hres
        have hpos : 0 < s.stream.queue.length := List.length_pos_of_mem (List.mem_of_head? hu)
        simp only at hcost
        omega
    | error message =>
        rw [hres] at hcost
        simp only at hcost
        omega
    | wait =>
        rw [hres] at hcost
        simp only at hcost
        omega
  have hidle : s.pc.cost = 0 := by rw [hpc]; rfl
  change 7 * s.pending.length + openCost (Stream.enter s.stream ()).finished +
      4 * (Stream.enter s.stream ()).queue.length +
      workerCost (Stream.enter s.stream ()).worker +
      ((Stream.enter s.stream ()).calling.length + (Stream.enter s.stream ()).woken.length) +
      (received W (nextResult s.stream)).cost + 1 ≤ remaining s
  rw [Stream.enter_finished, Stream.enter_queue, Stream.enter_worker, Stream.enter_calling,
    Stream.enter_woken, remaining]
  omega

/-- Every step does, unless it is a spurious wake-up. -/
theorem remaining_step {s : State R α ε} {e : Event ε}
    (hs : (machine W result rs final).Reachable s)
    (guard : (machine W result rs final).enabled s e) :
    remaining ((machine W result rs final).next s e) + 1 ≤
      remaining s + if e.isSpurious then 2 else 0 := by
  change enabled W final s e at guard
  change remaining (next W result final s e) + 1 ≤ _
  have hopen := (Stream.accounted (stream_reachable hs)).unfinished
  cases e with
  | observe =>
      cases hp : s.pending with
      | nil => exact absurd hp guard.1
      | cons r rest =>
          have hworker : s.stream.worker = .searching :=
            guard.2 (.push (W.SerializeToString r)) (by simp [streamEvent, hp])
          simp [remaining, next, consume, streamEvent, hp, Stream.next, hworker, workerCost,
            Event.isSpurious]
          omega
  | finish =>
      have hworker : s.stream.worker = .searching :=
        guard.2 (.pushDone (W.SerializeToString final)) rfl
      have hf : s.stream.finished = false := hopen hworker
      simp [remaining, next, consume, streamEvent, Stream.next, hworker, hf, workerCost,
        openCost, Event.isSpurious]
      omega
  | notify wakes =>
      have hqueue : Stream.enabled s.stream (.notify wakes) := guard.2 _ rfl
      have hworker : s.stream.worker = .notifying ∨ s.stream.worker = .notifyingDone := by
        cases wakes with
        | none => exact hqueue.1
        | some c => exact hqueue.1
      cases wakes <;> rcases hworker with hw | hw <;>
        simp [remaining, next, consume, streamEvent, Stream.next, hw, workerCost,
          Stream.WorkerPc.notified, Event.isSpurious] <;> omega
  | next =>
      have hpc : s.pc = .pulling := guard.1
      simp [remaining, next, consume, streamEvent, Stream.next, hpc, Consumer.cost,
        Event.isSpurious]
      omega
  | enter => simpa [Event.isSpurious] using remaining_enter hs guard
  | spurious =>
      simp [remaining, next, consume, streamEvent, Stream.next, Event.isSpurious]
      omega
  | decode =>
      obtain ⟨isDone, bytes, hpc⟩ := guard.1
      simp only [remaining, next, consume, streamEvent, hpc, Event.isSpurious]
      unfold decoded
      split
      · simp [Consumer.cost]
      · split <;> simp [Consumer.cost]
  | solutionOk =>
      obtain ⟨response, hpc⟩ := guard.1
      simp [remaining, next, consume, streamEvent, hpc, Consumer.cost, Event.isSpurious]
  | solutionRaise error =>
      obtain ⟨response, hpc⟩ := guard.1
      simp [remaining, next, consume, streamEvent, hpc, Consumer.cost, Event.isSpurious]

/-- **Bounded.**  However the threads are scheduled, a run takes at most seven
steps for every update, spurious wake-ups apart. -/
theorem run_length_le {tr : List (Event ε)} {s : State R α ε}
    (h : (machine W result rs final).Run tr s) :
    tr.length ≤ 7 * (rs.length + 1) + 2 + 2 * tr.countP Event.isSpurious := by
  have hbound := h.length_le remaining (fun e => if e.isSpurious then 2 else 0)
    (fun _ _ hs guard => remaining_step hs guard) .init
  have hinit : remaining (machine W result rs final).init = 7 * rs.length + 9 := by
    simp [remaining, machine, workerCost, openCost, Consumer.cost]
  have hgain : (tr.map fun e => if e.isSpurious then 2 else 0).sum =
      2 * tr.countP Event.isSpurious := by
    clear h hbound
    induction tr with
    | nil => rfl
    | cons e tr ih =>
        rw [List.map_cons, List.sum_cons, ih, List.countP_cons]
        cases e.isSpurious
        · simp
        · simp
          omega
  omega

/-- **No deadlock.**  Until the consumer is through, some thread can move, and
not by a spurious wake-up. -/
theorem done_or_moving {s : State R α ε} (h : (machine W result rs final).Reachable s) :
    s.pc.Over ∨ ∃ e : Event ε, e.isSpurious = false ∧ enabled W final s e := by
  obtain ⟨tr, hrun⟩ := id h
  have hconsumed := consumed hrun
  unfold Consumed at hconsumed
  cases hpc : s.pc with
  | pulling =>
      rw [hpc] at hconsumed
      have hcallers := hconsumed.1
      simp only [Stream.State.callers, List.append_eq_nil_iff] at hcallers
      refine Or.inr ⟨.next, rfl, hpc, ?_⟩
      simp [streamEvent, Stream.enabled, hcallers]
  | inNext =>
      rw [hpc] at hconsumed
      refine Or.inr ?_
      have hin : () ∈ s.stream.callers := by rw [hconsumed.1]; simp
      simp only [Stream.State.callers, List.mem_append] at hin
      rcases hin with (hcalling | hparked) | hwoken
      · exact ⟨.enter, rfl, trivial, by simp [streamEvent, Stream.enabled, hcalling]⟩
      · -- a parked consumer waits for the worker, which is not through
        cases hworker : s.stream.worker with
        | searching =>
            cases hp : s.pending with
            | nil => exact ⟨.finish, rfl, hp, by simp [streamEvent, Stream.enabled, hworker]⟩
            | cons r rest =>
                exact ⟨.observe, rfl, by simp [gate, hp],
                  by simp [streamEvent, Stream.enabled, hworker, hp]⟩
        | notifying =>
            exact ⟨.notify (some ()), rfl, trivial,
              by simp [streamEvent, Stream.enabled, hworker, hparked]⟩
        | notifyingDone =>
            exact ⟨.notify (some ()), rfl, trivial,
              by simp [streamEvent, Stream.enabled, hworker, hparked]⟩
        | terminated =>
            rw [Stream.parked_empty_of_subsingleton (stream_reachable h) hworker] at hparked
            cases hparked
      · exact ⟨.enter, rfl, trivial, by simp [streamEvent, Stream.enabled, hwoken]⟩
  | decoding isDone bytes =>
      exact Or.inr ⟨.decode, rfl, ⟨isDone, bytes, hpc⟩, by simp [streamEvent]⟩
  | inCallback response =>
      exact Or.inr ⟨.solutionOk, rfl, ⟨response, hpc⟩, by simp [streamEvent]⟩
  | returned v => exact Or.inl trivial
  | raised e => exact Or.inl trivial
  | aborted =>
      rw [hpc] at hconsumed
      exact absurd hconsumed id

end Protocol

end Cpsat.Delivery
