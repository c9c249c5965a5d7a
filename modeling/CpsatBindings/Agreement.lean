import CpsatBindings.EnvHistory

/-!
# The two ways to solve on a token

A model and parameters can be solved on a token by `cpsat_solve_stream_start`
and by `cpsat_solve_interruptible`.  Here both start from one state, and each
is left alone until it has its response.

* `streamed_iff`, `blocked_iff` — what each gives to `SolveCpModel`, and what
  it answers.
* `agree_iff` — exactly when the two agree, on a token that no interruptible
  solve has used.
-/

namespace Cpsat.Shim

variable {Req Params Mem Resp : Type*} {V : CpSat Req Params Mem Resp}
  {σ : State Req Params Mem Resp} {tr : List Event} {v c t : Nat} {m p : ByteArray}

/-- A streaming solve, until its worker has unregistered. -/
def streamEvents (v t : Nat) (modelBytes paramsBytes : ByteArray) : List Event :=
  [.streamStart v t modelBytes paramsBytes, .workerModel v, .register v, .workerSolve v,
    .workerReturn v none, .unregister v]

/-- An interruptible solve. -/
def blockEvents (c t : Nat) (modelBytes paramsBytes : ByteArray) : List Event :=
  [.interruptibleBegin c t modelBytes paramsBytes, .callEnd c none]

/-- A solve of either kind can start on the token: as the stream `v`, or as
the call `c`. -/
structure Startable (σ : State Req Params Mem Resp) (v c t : Nat) : Prop where
  alive : σ.aborted = false
  held : 0 < (σ.tokens t).references.visible
  unstarted : (σ.streams v).worker = .absent
  idle : (σ.calls c).phase = .idle

section Paths

variable (V)

/-- The streaming solve gives `g` to `SolveCpModel`, and is about to push `r`
as its done update. -/
def Streamed (σ : State Req Params Mem Resp) (v t : Nat) (m p : ByteArray)
    (g : Given Req Params Mem) (r : Resp) : Prop :=
  ∃ σ', (machine V).Path σ (streamEvents v t m p) σ' ∧
    (σ'.streams v).given = some g ∧ (σ'.streams v).response = some r ∧
      enabled V σ' (.queue v (.pushDone (V.SerializeToString r)))

/-- The interruptible solve gives `g` to `SolveCpModel`, and returns `r`. -/
def Blocked (σ : State Req Params Mem Resp) (c t : Nat) (m p : ByteArray)
    (g : Given Req Params Mem) (r : Resp) : Prop :=
  ∃ σ', (machine V).Path σ (blockEvents c t m p) σ' ∧
    (σ'.calls c).given = some g ∧ (σ'.calls c).response = some r

/-- The two solves agree: they hand over the same request and parameters,
neither delivers a response for bytes that do not parse, both or neither find
their limit stopped, and they answer the same.  Both are left alone while they
run: what a stop does that arrives meanwhile is not compared. -/
structure Agree (σ : State Req Params Mem Resp) (v c t : Nat) (m p : ByteArray) : Prop where
  handed : ∀ req params,
    (∃ g r, Streamed V σ v t m p g r ∧ g.request = req ∧ g.parameters = params) ↔
      ∃ g r, Blocked V σ c t m p g r ∧ g.request = req ∧ g.parameters = params
  malformed : V.parses m p ≠ true → ∀ g r,
    ¬ Streamed V σ v t m p g r ∧ ¬ Blocked V σ c t m p g r
  limit : ∀ g r g' r', Streamed V σ v t m p g r → Blocked V σ c t m p g' r' →
    g.model.limit_stopped = g'.model.limit_stopped
  response : ∀ g r g' r', Streamed V σ v t m p g r → Blocked V σ c t m p g' r' → r = r'

/-- What `RunStream` gives to `SolveCpModel`. -/
def streamGiven (σ : State Req Params Mem Resp) (t : Nat) (m p : ByteArray) :
    Given Req Params Mem :=
  let read := V.read m p
  { request := read.1
    parameters := read.2
    model := ⟨(σ.tokens t).stopped,
      V.NewFeasibleSolutionObserver (V.NewSatParameters read.2 V.newMemory)⟩ }

/-- What `SolveCpInterruptible` gives to `SolveCpModel`. -/
def blockGiven (σ : State Req Params Mem Resp) (t : Nat) (m p : ByteArray) :
    Given Req Params Mem :=
  let read := V.read m p
  let env := (σ.tokens t).legacy_cenv
  { request := read.1
    parameters := read.2
    model := { env with memory := V.NewSatParameters read.2 env.memory } }

end Paths

/-! ## The streaming solve -/

/-- The stream of a solve that has been left alone until it unregistered. -/
def answered (V : CpSat Req Params Mem Resp) (σ : State Req Params Mem Resp) (t : Nat)
    (m p : ByteArray) : Stream Req Params Mem Resp :=
  let g := streamGiven V σ t m p
  { token := t, model_bytes := m, params_bytes := p, worker := .unregistered
    model := (V.solve g none).2, given := some g, response := some (V.solve g none).1
    state := {}, handle := .live, stopCalled := (σ.tokens t).stopped }

/-- Stopping a limit aborts nothing. -/
theorem alive_stopLimit (limit : Option Nat) : (σ.stopLimit limit).aborted = σ.aborted := by
  cases limit <;> rfl

/-- A worker registers on a stopped token as one whose limit is stopped. -/
theorem stream_register :
    (next V σ (.register v)).streams v =
      { σ.streams v with
        worker := .registered
        model := { (σ.streams v).model with
          limit_stopped :=
            (σ.streams v).model.limit_stopped || (σ.tokens (σ.streams v).token).stopped }
        stopCalled :=
          (σ.streams v).stopCalled || (σ.tokens (σ.streams v).token).stopped } := by
  cases hstopped : (σ.tokens (σ.streams v).token).stopped with
  | false => simp [next, stops, hstopped]
  | true => simp [next, stops, hstopped, Stream.Stop, Model.Stop]

/-- From a state where stream `v` can be started there is a run of a streaming
solve, up to its response. -/
theorem streamed_path (h : Startable σ v c t) :
    ∃ σ', (machine V).Path σ (streamEvents v t m p) σ' ∧
      σ'.streams v = answered V σ t m p ∧ σ'.aborted = false := by
  let σ₁ := next V σ (.streamStart v t m p)
  let σ₂ := next V σ₁ (.workerModel v)
  let σ₃ := next V σ₂ (.register v)
  let σ₄ := next V σ₃ (.workerSolve v)
  let σ₅ := next V σ₄ (.workerReturn v none)
  have h₁ : σ₁.aborted = false := h.alive
  have h₂ : σ₂.aborted = false := h₁
  have h₃ : σ₃.aborted = false := (alive_stopLimit _).trans h₂
  have h₄ : σ₄.aborted = false := h₃
  have h₅ : σ₅.aborted = false := h₄
  have hv₁ : σ₁.streams v =
      { token := t, model_bytes := m, params_bytes := p, worker := .started
        model := V.newModel, given := none, response := none
        state := {}, handle := .live, stopCalled := false } := by
    simp [σ₁, next]
  have hv₂ : σ₂.streams v = { σ₁.streams v with worker := .modelled } := by
    simp [σ₂, next, hv₁]
  have ht₂ : (σ₂.tokens t).stopped = (σ.tokens t).stopped := by
    simp [σ₂, σ₁, next]
  have hv₃ : σ₃.streams v =
      { σ₁.streams v with
        worker := .registered, model := ⟨(σ.tokens t).stopped, V.newMemory⟩
        stopCalled := (σ.tokens t).stopped } := by
    simp [σ₃, stream_register, hv₂, hv₁, ht₂, CpSat.newModel]
  have hv₄ : σ₄.streams v =
      { answered V σ t m p with
        worker := .solving, model := (streamGiven V σ t m p).model, response := none } := by
    simp [σ₄, next, hv₃, hv₁, answered, streamGiven]
  have hv₅ : σ₅.streams v = { answered V σ t m p with worker := .returned } := by
    simp [σ₅, next, hv₄, answered]
  refine ⟨next V σ₅ (.unregister v), ?_, ?_, h₅⟩
  · refine Machine.Path.cons ⟨h.alive, h.unstarted, h.held⟩ ?_
    refine Machine.Path.cons (M := machine V) (s := σ₁) ⟨h₁, ?_⟩ ?_
    · simp [guard, hv₁]
    refine Machine.Path.cons (M := machine V) (s := σ₂) ⟨h₂, ?_⟩ ?_
    · simp [guard, hv₂]
    refine Machine.Path.cons (M := machine V) (s := σ₃) ⟨h₃, ?_⟩ ?_
    · simp [guard, hv₃]
    refine Machine.Path.cons (M := machine V) (s := σ₄) ⟨h₄, ?_⟩ ?_
    · simp [guard, hv₄, answered]
    refine Machine.Path.single (M := machine V) (s := σ₅) ⟨h₅, ?_⟩
    simp [guard, hv₅]
  · simp [next, hv₅, answered]

/-- A streaming solve hands over whatever it has read, and answers it. -/
theorem streamed_iff (h : Startable σ v c t) {g : Given Req Params Mem} {r : Resp} :
    Streamed V σ v t m p g r ↔ g = streamGiven V σ t m p ∧ r = (V.solve g none).1 := by
  obtain ⟨σ', hpath, hstream, halive⟩ := streamed_path (V := V) (m := m) (p := p) h
  constructor
  · rintro ⟨σ'', hpath', hgiven, hresponse, -⟩
    obtain rfl := hpath.unique hpath'
    rw [hstream] at hgiven hresponse
    obtain rfl : streamGiven V σ t m p = g := Option.some.inj hgiven
    exact ⟨rfl, (Option.some.inj hresponse).symm⟩
  · rintro ⟨rfl, rfl⟩
    refine ⟨σ', hpath, by rw [hstream]; rfl, by rw [hstream]; rfl, halive, ?_⟩
    rw [guard, hstream]
    exact ⟨⟨rfl, rfl⟩, rfl⟩

/-! ## The interruptible solve -/

/-- An interruptible solve hands over what has parsed, and answers it; if its
bytes do not parse it never returns. -/
theorem blocked_iff (h : Startable σ v c t) {g : Given Req Params Mem} {r : Resp} :
    Blocked V σ c t m p g r ↔
      V.parses m p = true ∧ g = blockGiven V σ t m p ∧ r = (V.solve g none).1 := by
  have hbegin : enabled V σ (.interruptibleBegin c t m p) := ⟨h.alive, h.idle, h.held⟩
  by_cases hparses : V.parses m p = true
  · have hcall := call_interruptibleBegin (V := V) (σ := σ) (c := c) (t := t) hparses
    have hend : enabled V (next V σ (.interruptibleBegin c t m p)) (.callEnd c none) := by
      refine ⟨?_, ?_, Or.inl rfl⟩
      · simpa [next, CpSat.checked, hparses, State.onCall, State.onToken] using h.alive
      · rw [hcall]
    have hpath : (machine V).Path σ (blockEvents c t m p) _ :=
      Machine.Path.cons hbegin (Machine.Path.single hend)
    have hdone : (next V (next V σ (.interruptibleBegin c t m p)) (.callEnd c none)).calls c = _ :=
      call_callEnd
    rw [hcall] at hdone
    constructor
    · rintro ⟨σ', hpath', hgiven, hresponse⟩
      obtain rfl := hpath.unique hpath'
      change ((next V (next V σ (.interruptibleBegin c t m p)) (.callEnd c none)).calls c).given =
        some g at hgiven
      change ((next V (next V σ (.interruptibleBegin c t m p)) (.callEnd c none)).calls c).response =
        some r at hresponse
      rw [hdone] at hgiven hresponse
      obtain rfl : blockGiven V σ t m p = g := Option.some.inj hgiven
      exact ⟨hparses, rfl, (Option.some.inj hresponse).symm⟩
    · rintro ⟨-, rfl, rfl⟩
      refine ⟨_, hpath, ?_, ?_⟩
      · exact congrArg Call.given hdone
      · exact congrArg Call.response hdone
  · constructor
    · rintro ⟨σ', hpath, -, -⟩
      have hsplit : (machine V).Path σ
          ([.interruptibleBegin c t m p] ++ [.callEnd c none]) σ' := hpath
      obtain ⟨σ₁, hfirst, hend, -⟩ := hsplit.last_step
      obtain rfl := hfirst.unique (Machine.Path.single hbegin)
      have haborted := (begins_next (V := V) (σ := σ)
        (e := .interruptibleBegin c t m p) rfl).2 hparses
      exact absurd hend.1 (by simp [machine, haborted.2])
    · exact fun hblocked => absurd hblocked.1 hparses

/-! ## Agreement -/

/-- **Agreement.**  On a token that no interruptible solve has used, the two
solves agree if and only if both byte strings parse, and a stop has been
recorded on the token exactly if a stop call has been made on it. -/
theorem agree_iff (h : (machine V).Run tr σ) (hstart : Startable σ v c t)
    (hunsolved : Unsolved tr t) :
    Agree V σ v c t m p ↔
      V.parses m p = true ∧ (StopRecorded tr σ t ↔ .stopSearch t ∈ tr) := by
  obtain ⟨hmemory, hstopped⟩ := env_unsolved h hunsolved
  have hstream : Streamed V σ v t m p (streamGiven V σ t m p) _ :=
    (streamed_iff hstart).mpr ⟨rfl, rfl⟩
  have hblock : V.parses m p = true → Blocked V σ c t m p (blockGiven V σ t m p) _ :=
    fun hparses => (blocked_iff hstart).mpr ⟨hparses, rfl, rfl⟩
  have hlimits : (StopRecorded tr σ t ↔ .stopSearch t ∈ tr) ↔
      (σ.tokens t).stopped = (σ.tokens t).legacy_cenv.limit_stopped := by
    rw [← stopped_iff h t, ← hstopped, Bool.coe_iff_coe]
  rw [hlimits]
  constructor
  · intro hagree
    have hparses : V.parses m p = true := by
      obtain ⟨g, r, hblocked, -, -⟩ := (hagree.handed _ _).mp ⟨_, _, hstream, rfl, rfl⟩
      exact ((blocked_iff hstart).mp hblocked).1
    exact ⟨hparses, hagree.limit _ _ _ _ hstream (hblock hparses)⟩
  · rintro ⟨hparses, hsame⟩
    refine ⟨?_, fun hmalformed => absurd hparses hmalformed, ?_, ?_⟩
    · intro req params
      constructor
      · rintro ⟨g, r, hstreamed, rfl, rfl⟩
        obtain ⟨rfl, -⟩ := (streamed_iff hstart).mp hstreamed
        exact ⟨_, _, hblock hparses, rfl, rfl⟩
      · rintro ⟨g, r, hblocked, rfl, rfl⟩
        obtain ⟨-, rfl, -⟩ := (blocked_iff hstart).mp hblocked
        exact ⟨_, _, hstream, rfl, rfl⟩
    · intro g r g' r' hstreamed hblocked
      obtain ⟨rfl, -⟩ := (streamed_iff hstart).mp hstreamed
      obtain ⟨-, rfl, -⟩ := (blocked_iff hstart).mp hblocked
      exact hsame
    · intro g r g' r' hstreamed hblocked
      obtain ⟨rfl, rfl⟩ := (streamed_iff hstart).mp hstreamed
      obtain ⟨-, rfl, rfl⟩ := (blocked_iff hstart).mp hblocked
      simp only [CpSat.solve, streamGiven, blockGiven, V.observer_irrelevant, hsame, hmemory]

/-- A stream is started on a token and dropped before it finishes. -/
def dropped : List Event :=
  [.newStopToken 0, .streamStart 0 0 .empty .empty, .dropUnfinished 0, .finalizeStop 0]

/-- The condition tells: the finalizer has stopped the token for the next
stream, but not for an interruptible solve. -/
theorem dropped_disagrees :
    ∃ σ, (machine tally).Run dropped σ ∧ ¬ Agree tally σ 1 0 0 .empty .empty := by
  obtain ⟨σ, hrun, halive, hheld, hunstarted, hidle, htoken⟩ :
      ∃ σ, (machine tally).Run dropped σ ∧ σ.aborted = false ∧ 0 < (σ.tokens 0).references.visible ∧
        (σ.streams 1).worker = .absent ∧ (σ.calls 0).phase = .idle ∧
          (σ.streams 0).token = 0 :=
    Machine.exists_run_of_exec _ (by decide +kernel)
  refine ⟨σ, hrun, ?_⟩
  intro hagree
  have hstart : Startable σ 1 0 0 := ⟨halive, hheld, hunstarted, hidle⟩
  obtain ⟨-, hstops⟩ := (agree_iff hrun hstart (by simp [Unsolved, dropped])).mp hagree
  have hrecorded : StopRecorded dropped σ 0 := Or.inr ⟨0, htoken, by simp [dropped]⟩
  exact absurd (hstops.mp hrecorded) (by simp [dropped])

/-- One byte that is no message: the stream solves it all the same. -/
theorem malformed_solved :
    ¬ ∀ (tr : List Event) (σ : State Nat Nat Nat Nat) (v c t : Nat) (m p : ByteArray),
      (machine tally).Run tr σ → Startable σ v c t → Unsolved tr t →
        Agree tally σ v c t m p := by
  intro hall
  obtain ⟨σ, hrun, halive, hheld, hunstarted, hidle⟩ :
      ∃ σ, (machine tally).Run [.newStopToken 0] σ ∧ σ.aborted = false ∧
        0 < (σ.tokens 0).references.visible ∧ (σ.streams 0).worker = .absent ∧
          (σ.calls 0).phase = .idle :=
    Machine.exists_run_of_exec _ (by decide +kernel)
  have hstart : Startable σ 0 0 0 := ⟨halive, hheld, hunstarted, hidle⟩
  have hagree := hall _ σ 0 0 0 ⟨#[0]⟩ .empty hrun hstart (by simp [Unsolved])
  have hstreamed : Streamed tally σ 0 0 ⟨#[0]⟩ .empty _ _ :=
    (streamed_iff hstart).mpr ⟨rfl, rfl⟩
  exact (hagree.malformed (by decide) _ _).1 hstreamed

end Cpsat.Shim
