import CpsatBindings.RefCount
import CpsatBindings.StreamDelivery

/-!
# The shim

`cpsat_shim.cpp` as a machine over any number of stop tokens, streaming solves
and blocking solves.  A mutex-protected section is one event; so is every step
between two of them that another thread could observe.

Nothing here asks whether a token or a limit is still alive when it is used:
which uses find it alive is settled later, not assumed.

What is not the shim's is a parameter, `CpSat`: parsing, serializing, a model's
memory and `SolveCpModel`.
-/

namespace Cpsat.Shim

open Cpsat.Delivery (castInt)

/-- A CP-SAT `Model`: the flag of its `ModelSharedTimeLimit`, and the rest. -/
structure Model (Mem : Type*) where
  limit_stopped : Bool
  memory : Mem

/-- `ModelSharedTimeLimit::Stop`. -/
def Model.Stop {Mem : Type*} (m : Model Mem) : Model Mem := { m with limit_stopped := true }

/-- What `SolveCpModel` is given: the request, and a model to which the
parameters have been added. -/
structure Given (Req Params Mem : Type*) where
  request : Req
  parameters : Params
  model : Model Mem

/-- Protobuf and CP-SAT, as the shim uses them.  A solve reads the request and
the model it is given; if `Stop` is called while it runs, `SolveCpModel` is
also told when.  Observers only observe. -/
structure CpSat (Req Params Mem Resp : Type*) where
  /-- `CpModelProto::ParseFromArray`: the verdict, and the message filled so far. -/
  ParseRequest : ByteArray → Int → Bool × Req
  /-- `SatParameters::ParseFromArray`. -/
  ParseParameters : ByteArray → Int → Bool × Params
  SerializeToString : Resp → ByteArray
  newMemory : Mem
  NewSatParameters : Params → Mem → Mem
  NewFeasibleSolutionObserver : Mem → Mem
  SolveCpModel : Req → Model Mem → Option Nat → Resp × Model Mem
  observer_irrelevant : ∀ req stopped memory interrupt,
    (SolveCpModel req ⟨stopped, NewFeasibleSolutionObserver memory⟩ interrupt).1 =
      (SolveCpModel req ⟨stopped, memory⟩ interrupt).1

section Entry

variable {Req Params Mem Resp : Type*} (V : CpSat Req Params Mem Resp)

/-- `Model model; model.GetOrCreate<ModelSharedTimeLimit>()`. -/
def CpSat.newModel : Model Mem := ⟨false, V.newMemory⟩

/-- Both messages as `RunStream` takes them: the verdicts are dropped. -/
def CpSat.read (modelBytes paramsBytes : ByteArray) : Req × Params :=
  ((V.ParseRequest modelBytes (castInt modelBytes.size)).2,
    (V.ParseParameters paramsBytes (castInt paramsBytes.size)).2)

/-- Whether both byte strings parse as their messages. -/
def CpSat.parses (modelBytes paramsBytes : ByteArray) : Bool :=
  (V.ParseRequest modelBytes (castInt modelBytes.size)).1 &&
    (V.ParseParameters paramsBytes (castInt paramsBytes.size)).1

/-- Both messages as `SolveCpInterruptible` takes them: a failed `CHECK` is the
end of the process. -/
def CpSat.checked (modelBytes paramsBytes : ByteArray) : Option (Req × Params) :=
  if V.parses modelBytes paramsBytes then some (V.read modelBytes paramsBytes) else none

/-- `SolveCpModel`, on what it is given. -/
def CpSat.solve (g : Given Req Params Mem) (interrupt : Option Nat) : Resp × Model Mem :=
  V.SolveCpModel g.request g.model interrupt

end Entry

/-! ## States -/

/-- `LeanStopToken`, with the references to the object around it: Lean code
holds the visible ones, the others are owned by stream handles.  `stopping` and
`solving` count the calls that are borrowing the token. -/
structure Token (Mem : Type*) where
  legacy_cenv : Model Mem
  stopped : Bool
  active_stream_limit : Option Nat
  references : References
  stopping : Nat
  solving : Nat

/-- Where the thread of `RunStream` stands. -/
inductive WorkerPhase where
  | absent
  | started
  | modelled
  | registered
  | solving
  | returned
  | unregistered
  | exited
deriving DecidableEq, Repr

/-- Where the handle stands: never made, held by Lean code, and then the stages
of `cpsat_stream_handle_finalize`. -/
inductive HandlePhase where
  | none
  | live
  | stopping
  | joining
  | joined
  | released
deriving DecidableEq, Repr

/-- `StreamHandle` with its worker and its `StreamState`.  `given` records what
`SolveCpModel` was given, `stopCalled` whether `Stop` was ever called on the
limit of the worker's model. -/
structure Stream (Req Params Mem Resp : Type*) where
  token : Nat
  model_bytes : ByteArray
  params_bytes : ByteArray
  worker : WorkerPhase
  model : Model Mem
  given : Option (Given Req Params Mem)
  response : Option Resp
  state : Stream.State Nat ByteArray
  handle : HandlePhase
  stopCalled : Bool

/-- `Stop` on the limit of the worker's model. -/
def Stream.Stop {Req Params Mem Resp : Type*} (h : Stream Req Params Mem Resp) :
    Stream Req Params Mem Resp :=
  { h with model := h.model.Stop, stopCalled := true }

/-- Where a blocking call stands. -/
inductive CallPhase where
  | idle
  | running
  | finished
deriving DecidableEq, Repr

/-- A blocking solve: `cpsat_solve`, or `cpsat_solve_interruptible` on a token. -/
structure Call (Req Params Mem Resp : Type*) where
  phase : CallPhase
  token : Option Nat
  given : Option (Given Req Params Mem)
  response : Option Resp

/-- All tokens, streams and blocking calls there are, by number. -/
structure State (Req Params Mem Resp : Type*) where
  tokens : Nat → Token Mem
  streams : Nat → Stream Req Params Mem Resp
  calls : Nat → Call Req Params Mem Resp
  aborted : Bool

section Updates

variable {Req Params Mem Resp : Type*}

namespace State

/-- A change of one token. -/
def onToken (σ : State Req Params Mem Resp) (t : Nat) (f : Token Mem → Token Mem) :
    State Req Params Mem Resp :=
  { σ with tokens := Function.update σ.tokens t (f (σ.tokens t)) }

/-- A change of one stream. -/
def onStream (σ : State Req Params Mem Resp) (v : Nat)
    (f : Stream Req Params Mem Resp → Stream Req Params Mem Resp) : State Req Params Mem Resp :=
  { σ with streams := Function.update σ.streams v (f (σ.streams v)) }

/-- A change of one blocking call. -/
def onCall (σ : State Req Params Mem Resp) (c : Nat)
    (f : Call Req Params Mem Resp → Call Req Params Mem Resp) : State Req Params Mem Resp :=
  { σ with calls := Function.update σ.calls c (f (σ.calls c)) }

/-- `if (limit != nullptr) limit->Stop()`. -/
def stopLimit (σ : State Req Params Mem Resp) : Option Nat → State Req Params Mem Resp
  | none => σ
  | some v => σ.onStream v Stream.Stop

variable (σ : State Req Params Mem Resp) (t u v : Nat) (f : Token Mem → Token Mem)
  (g : Stream Req Params Mem Resp → Stream Req Params Mem Resp)
  (k : Call Req Params Mem Resp → Call Req Params Mem Resp)

@[simp] theorem onToken_tokens :
    (σ.onToken t f).tokens u = if u = t then f (σ.tokens t) else σ.tokens u := by
  simp [onToken, Function.update_apply]

@[simp] theorem onToken_streams : (σ.onToken t f).streams = σ.streams := rfl

@[simp] theorem onToken_calls : (σ.onToken t f).calls = σ.calls := rfl

@[simp] theorem onStream_streams :
    (σ.onStream v g).streams u = if u = v then g (σ.streams v) else σ.streams u := by
  simp [onStream, Function.update_apply]

@[simp] theorem onStream_tokens : (σ.onStream v g).tokens = σ.tokens := rfl

@[simp] theorem onStream_calls : (σ.onStream v g).calls = σ.calls := rfl

@[simp] theorem onCall_calls (c : Nat) :
    (σ.onCall c k).calls u = if u = c then k (σ.calls c) else σ.calls u := by
  simp [onCall, Function.update_apply]

@[simp] theorem onCall_tokens (c : Nat) : (σ.onCall c k).tokens = σ.tokens := rfl

@[simp] theorem onCall_streams (c : Nat) : (σ.onCall c k).streams = σ.streams := rfl

@[simp] theorem stopLimit_tokens (limit : Option Nat) :
    (σ.stopLimit limit).tokens = σ.tokens := by
  cases limit <;> rfl

@[simp] theorem stopLimit_calls (limit : Option Nat) :
    (σ.stopLimit limit).calls = σ.calls := by
  cases limit <;> rfl

@[simp] theorem stopLimit_streams (limit : Option Nat) :
    (σ.stopLimit limit).streams u =
      if limit = some u then (σ.streams u).Stop else σ.streams u := by
  cases limit with
  | none => simp [stopLimit]
  | some v =>
      by_cases h : u = v
      · simp [stopLimit, h]
      · have h' : ¬ v = u := fun heq => h heq.symm
        simp [stopLimit, h, h']

end State

variable (h : Stream Req Params Mem Resp)

@[simp] theorem Stream.Stop_token : h.Stop.token = h.token := rfl

@[simp] theorem Stream.Stop_worker : h.Stop.worker = h.worker := rfl

@[simp] theorem Stream.Stop_state : h.Stop.state = h.state := rfl

@[simp] theorem Stream.Stop_handle : h.Stop.handle = h.handle := rfl

@[simp] theorem Stream.Stop_stopCalled : h.Stop.stopCalled = true := rfl

end Updates

/-! ## Events -/

/-- What can happen next. -/
inductive Event where
  | newStopToken (t : Nat)
  /-- Lean code copies a reference to the token. -/
  | shareToken (t : Nat)
  /-- Lean code drops one. -/
  | releaseToken (t : Nat)
  /-- The start of `cpsat_stop_token_stop`: `SolveCpStopSearch`. -/
  | stopSearch (t : Nat)
  /-- Its critical section, and its end. -/
  | stopSection (t : Nat)
  | solveBegin (c : Nat) (modelBytes paramsBytes : ByteArray)
  | interruptibleBegin (c t : Nat) (modelBytes paramsBytes : ByteArray)
  | callEnd (c : Nat) (interrupt : Option Nat)
  | streamStart (v t : Nat) (modelBytes paramsBytes : ByteArray)
  /-- `RunStream` makes its `Model`. -/
  | workerModel (v : Nat)
  /-- Its first critical section. -/
  | register (v : Nat)
  /-- It calls `SolveCpModel`. -/
  | workerSolve (v : Nat)
  /-- `SolveCpModel` returns. -/
  | workerReturn (v : Nat) (interrupt : Option Nat)
  /-- Its second critical section. -/
  | unregister (v : Nat)
  /-- The end of `RunStream`, with its `Model` destroyed. -/
  | workerExit (v : Nat)
  /-- An event of the stream's queue. -/
  | queue (v : Nat) (d : Cpsat.Stream.Event Nat ByteArray)
  /-- The finalizer of a handle finds `finished` false. -/
  | dropUnfinished (v : Nat)
  /-- The finalizer of a handle finds `finished` true. -/
  | dropFinished (v : Nat)
  /-- The critical section of the finalizer. -/
  | finalizeStop (v : Nat)
  /-- `worker.join()` returns. -/
  | finalizeJoin (v : Nat)
  /-- `lean_dec_ref(h->token)`. -/
  | finalizeRelease (v : Nat)

section Machine

variable {Req Params Mem Resp : Type*} (V : CpSat Req Params Mem Resp)

/-- Who may push what: the observer while `SolveCpModel` runs, `RunStream` its
final response after it has unregistered; only a held handle can be called. -/
def queueGate (h : Stream Req Params Mem Resp) : Cpsat.Stream.Event Nat ByteArray → Prop
  | .push _ => h.worker = .solving
  | .pushDone bytes =>
      h.worker = .unregistered ∧ h.response.map V.SerializeToString = some bytes
  | .call _ => h.handle = .live
  | .notify _ | .enter _ | .spurious _ => True

/-- When an event may happen. -/
def guard (σ : State Req Params Mem Resp) : Event → Prop
  | .newStopToken t => (σ.tokens t).references.made = false
  | .shareToken t => 0 < (σ.tokens t).references.visible
  | .releaseToken t =>
      -- a call borrows the token through a reference that outlives it
      0 < (σ.tokens t).references.visible ∧
        (1 < (σ.tokens t).references.visible ∨ (σ.tokens t).stopping + (σ.tokens t).solving = 0)
  | .stopSearch t => 0 < (σ.tokens t).references.visible
  | .stopSection t => 0 < (σ.tokens t).stopping
  | .solveBegin c _ _ => (σ.calls c).phase = .idle
  | .interruptibleBegin c t _ _ => (σ.calls c).phase = .idle ∧ 0 < (σ.tokens t).references.visible
  | .callEnd c interrupt =>
      (σ.calls c).phase = .running ∧
        (interrupt = none ∨
          ∃ t ∈ (σ.calls c).token, (σ.tokens t).legacy_cenv.limit_stopped = true)
  | .streamStart v t _ _ => (σ.streams v).worker = .absent ∧ 0 < (σ.tokens t).references.visible
  | .workerModel v => (σ.streams v).worker = .started
  | .register v => (σ.streams v).worker = .modelled
  | .workerSolve v => (σ.streams v).worker = .registered
  | .workerReturn v interrupt =>
      (σ.streams v).worker = .solving ∧ (σ.streams v).state.worker = .searching ∧
        (interrupt = none ∨ (σ.streams v).model.limit_stopped = true)
  | .unregister v => (σ.streams v).worker = .returned
  | .workerExit v =>
      (σ.streams v).worker = .unregistered ∧ (σ.streams v).state.worker = .terminated
  | .queue v d => queueGate V (σ.streams v) d ∧ Cpsat.Stream.enabled (σ.streams v).state d
  | .dropUnfinished v =>
      (σ.streams v).handle = .live ∧ (σ.streams v).state.callers = [] ∧
        (σ.streams v).state.finished = false
  | .dropFinished v =>
      (σ.streams v).handle = .live ∧ (σ.streams v).state.callers = [] ∧
        (σ.streams v).state.finished = true
  | .finalizeStop v => (σ.streams v).handle = .stopping
  | .finalizeJoin v => (σ.streams v).handle = .joining ∧ (σ.streams v).worker = .exited
  | .finalizeRelease v => (σ.streams v).handle = .joined

/-- A failed `CHECK` aborts the process, and nothing happens after that. -/
def enabled (σ : State Req Params Mem Resp) (e : Event) : Prop :=
  σ.aborted = false ∧ guard V σ e

/-- The stream, if any, whose limit an event calls `Stop` on. -/
def stops (σ : State Req Params Mem Resp) : Event → Option Nat
  | .stopSection t => (σ.tokens t).active_stream_limit
  | .finalizeStop v => (σ.tokens (σ.streams v).token).active_stream_limit
  | .register v => if (σ.tokens (σ.streams v).token).stopped then some v else none
  | _ => none

/-- `SolveCpModel` on the model of an env.  A stop that came meanwhile stays. -/
def Token.solved (k : Token Mem) (after : Model Mem) : Token Mem :=
  { k with
    legacy_cenv :=
      { after with limit_stopped := after.limit_stopped || k.legacy_cenv.limit_stopped }
    solving := k.solving - 1 }

def next (σ : State Req Params Mem Resp) (e : Event) : State Req Params Mem Resp :=
  match e with
  | .newStopToken t =>
      σ.onToken t fun _ =>
        { legacy_cenv := V.newModel, stopped := false, active_stream_limit := none
          references := .fresh, stopping := 0, solving := 0 }
  | .shareToken t => σ.onToken t fun k => { k with references := k.references.share }
  | .releaseToken t => σ.onToken t fun k => { k with references := k.references.release }
  | .stopSearch t =>
      σ.onToken t fun k =>
        { k with legacy_cenv := k.legacy_cenv.Stop, stopping := k.stopping + 1 }
  | .stopSection t =>
      (σ.stopLimit (stops σ e)).onToken t fun k =>
        { k with stopped := true, stopping := k.stopping - 1 }
  | .solveBegin c modelBytes paramsBytes =>
      match V.checked modelBytes paramsBytes with
      | none => { σ with aborted := true }
      | some (req, params) =>
          σ.onCall c fun _ =>
            { phase := .running, token := none, response := none
              given := some ⟨req, params, ⟨false, V.NewSatParameters params V.newMemory⟩⟩ }
  | .interruptibleBegin c t modelBytes paramsBytes =>
      match V.checked modelBytes paramsBytes with
      | none => { σ with aborted := true }
      | some (req, params) =>
          let env := (σ.tokens t).legacy_cenv
          let model : Model Mem := { env with memory := V.NewSatParameters params env.memory }
          (σ.onToken t fun k => { k with legacy_cenv := model, solving := k.solving + 1 }).onCall c
            fun _ => { phase := .running, token := some t, response := none
                       given := some ⟨req, params, model⟩ }
  | .callEnd c interrupt =>
      let result : Option (Resp × Model Mem) :=
        (σ.calls c).given.map fun g => V.solve g interrupt
      let σ' := match (σ.calls c).token with
        | none => σ
        | some t => σ.onToken t fun k => k.solved ((result.map Prod.snd).getD k.legacy_cenv)
      σ'.onCall c fun call =>
        { call with phase := .finished, response := result.map Prod.fst }
  | .streamStart v t modelBytes paramsBytes =>
      (σ.onToken t fun k => { k with references := k.references.own }).onStream v fun _ =>
        { token := t, model_bytes := modelBytes, params_bytes := paramsBytes
          worker := .started, model := V.newModel, given := none, response := none
          state := {}, handle := .live, stopCalled := false }
  | .workerModel v =>
      σ.onStream v fun h => { h with worker := .modelled, model := V.newModel }
  | .register v =>
      ((σ.onToken (σ.streams v).token fun k => { k with active_stream_limit := some v }).onStream v
        fun h => { h with worker := .registered }).stopLimit (stops σ e)
  | .workerSolve v =>
      σ.onStream v fun h =>
        let read := V.read h.model_bytes h.params_bytes
        let model : Model Mem := { h.model with
          memory := V.NewFeasibleSolutionObserver (V.NewSatParameters read.2 h.model.memory) }
        { h with worker := .solving, model := model, given := some ⟨read.1, read.2, model⟩ }
  | .workerReturn v interrupt =>
      σ.onStream v fun h =>
        let result : Option (Resp × Model Mem) :=
          h.given.map fun g => V.solve g interrupt
        { h with worker := .returned, model := (result.map Prod.snd).getD h.model
                 response := result.map Prod.fst }
  | .unregister v =>
      (σ.onToken (σ.streams v).token fun k => { k with active_stream_limit := none }).onStream v
        fun h => { h with worker := .unregistered }
  | .workerExit v => σ.onStream v fun h => { h with worker := .exited }
  | .queue v d => σ.onStream v fun h => { h with state := Cpsat.Stream.next h.state d }
  | .dropUnfinished v => σ.onStream v fun h => { h with handle := .stopping }
  | .dropFinished v => σ.onStream v fun h => { h with handle := .joining }
  | .finalizeStop v =>
      ((σ.stopLimit (stops σ e)).onToken (σ.streams v).token fun k =>
        { k with stopped := true }).onStream v fun h => { h with handle := .joining }
  | .finalizeJoin v => σ.onStream v fun h => { h with handle := .joined }
  | .finalizeRelease v =>
      (σ.onToken (σ.streams v).token fun k =>
        { k with references := k.references.disown }).onStream v fun h =>
          { h with handle := .released }

/-- Before anything has been made. -/
def initial : State Req Params Mem Resp where
  tokens _ :=
    { legacy_cenv := V.newModel, stopped := false, active_stream_limit := none
      references := .absent, stopping := 0, solving := 0 }
  streams _ :=
    { token := 0, model_bytes := .empty, params_bytes := .empty, worker := .absent
      model := V.newModel, given := none, response := none, state := {}, handle := .none
      stopCalled := false }
  calls _ := { phase := .idle, token := none, given := none, response := none }
  aborted := false

/-- Any number of tokens, streams and blocking solves. -/
def machine : Machine (State Req Params Mem Resp) Event where
  init := initial V
  enabled := enabled V
  next := next V

/-! ## Running the shim by hand -/

variable {V}

instance (h : Stream Req Params Mem Resp) :
    (d : Cpsat.Stream.Event Nat ByteArray) → Decidable (queueGate V h d)
  | .push _ => inferInstanceAs (Decidable (h.worker = .solving))
  | .pushDone bytes =>
      inferInstanceAs (Decidable (_ ∧ h.response.map V.SerializeToString = some bytes))
  | .call _ => inferInstanceAs (Decidable (h.handle = .live))
  | .notify _ | .enter _ | .spurious _ => isTrue trivial

instance (σ : State Req Params Mem Resp) (e : Event) : Decidable (guard V σ e) := by
  cases e <;> unfold guard <;> infer_instance

instance (σ : State Req Params Mem Resp) (e : Event) : Decidable ((machine V).enabled σ e) :=
  inferInstanceAs (Decidable (σ.aborted = false ∧ guard V σ e))

end Machine

/-- A stand-in small enough to run: a model's memory counts the solves made on
it, and a response tells that count.  A message of one byte does not parse. -/
def tally : CpSat Nat Nat Nat Nat where
  ParseRequest bytes _ := (decide (bytes.size ≠ 1), bytes.size)
  ParseParameters bytes _ := (decide (bytes.size ≠ 1), bytes.size)
  SerializeToString count := ⟨#[count.toUInt8]⟩
  newMemory := 0
  NewSatParameters _ memory := memory
  NewFeasibleSolutionObserver memory := memory
  SolveCpModel _ model _ := (model.memory, { model with memory := model.memory + 1 })
  observer_irrelevant _ _ _ _ := rfl

end Cpsat.Shim
