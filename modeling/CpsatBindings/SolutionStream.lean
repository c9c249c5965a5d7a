import CpsatBindings.ExactDelivery
import CpsatBindings.Optimum

/-!
# What a caller reads off a stream

The whole way of a solution: CP-SAT observes it as a vector for the message of
the model, the shim queues its bytes, `pullUpdates` decodes them, and the caller
of `solveWithResultCallback` reads the variables off with `value`.

CP-SAT itself stays outside.  `AnswersFor` is what the bindings rely on: the
observer is called on feasible vectors, each improving on the one before, and
the final response has no vector or a feasible one.  Then, however worker and
consumer are interleaved, `onSolution` is called on solutions of the model as it
was built, each better than the one before, and what is returned is a solution
if it is anything at all (`heard_solutions`).
-/

namespace Cpsat

/-- The assignment a caller reads off a response. -/
def CpSolverResponse.read (r : CpSolverResponse) : ℕ → ℤ := fun i => (r.value ⟨i⟩).toInt

/-- It is the assignment of the vector in it. -/
theorem CpSolverResponse.read_eq (r : CpSolverResponse) :
    r.read = Proto.assignment r.solution := by
  funext i
  rw [read, value, Proto.assignment, Array.getD_eq_getD_getElem?, getElem!_def]
  cases r.solution[i]? <;> rfl

end Cpsat

namespace Cpsat.Delivery

open Checker Proto

variable {R ε α : Type*} {W : Codec R ε} {result : α} {rs : List R} {final : R}

/-- What `SolveCpModel` promises: `AddSolutionCallback` is for feasible and
improving solutions, `AddCheckSolutionCallback` aborts on a final one that is
not feasible. -/
structure AnswersFor (model : CpModelProto) (fields : R → CpSolverResponseProto) (rs : List R)
    (final : R) : Prop where
  observed : ∀ r ∈ rs, SolutionIsFeasible model (fields r).solution = true
  improving : ∀ obj, model.objective = some obj → rs.Pairwise fun r r' =>
    ComputeInnerObjective obj (fields r').solution < ComputeInnerObjective obj (fields r).solution
  last : (fields final).solution = #[] ∨
    SolutionIsFeasible model (fields final).solution = true

/-- What the caller makes of it, in one state of the call. -/
structure HeardSolutions (model : ModelState) (s : State R α ε) : Prop where
  solved : ∀ call ∈ s.calls, model.Solved call.2.read
  better : model.objective ≠ none →
    s.calls.Pairwise fun call call' => ¬ model.NoWorse call.2.read call'.2.read
  returned : ∀ v, s.pc = .returned v → v.2.solution = #[] ∨ model.Solved v.2.read

/-! ## Responses -/

section Responses

variable {fields : R → CpSolverResponseProto}
  (hcodec : ∀ r, W.decodeThe (W.SerializeToString r) = .ok (fields r))

include hcodec

/-- With a codec that gives back the fields every response decodes. -/
theorem heardAs_ok (r : R) :
    heardAs W result r = .ok (result, responseFromProto (fields r)) := by
  rw [heardAs, decodeResponse, hcodec]
  rfl

/-- `onSolution` has been called on the first of the observed responses. -/
theorem calls_eq {s : State R α ε} (h : (machine W result rs final).Reachable s) :
    ∃ k, s.calls = (rs.take k).map fun r => (result, responseFromProto (fields r)) := by
  obtain ⟨k, -, -, -, hcalls⟩ := called_exactly h
  have hinjective : Function.Injective (Except.ok : α × CpSolverResponse → Except ε _) :=
    fun _ _ => Except.ok.inj
  refine ⟨k, List.map_injective_iff.mpr hinjective ?_⟩
  rw [hcalls, List.map_map]
  exact List.map_congr_left fun r _ => heardAs_ok hcodec r

end Responses

/-- A response is the one value in its one byte. -/
def valueFields (r : UInt8) : CpSolverResponseProto := { solution := #[Int64.ofNat r.toNat] }

/-- One byte a response, the value of the only variable. -/
def valueCodec : Codec UInt8 String :=
  { byteCodec with decodeThe := fun bytes => .ok (valueFields (bytes.data[0]?.getD 0)) }

/-- Three and seven are feasible, and seven is better. -/
theorem answers_greatestSeven :
    AnswersFor (modelStateToProto greatestSeven) valueFields [3, 7] 7 where
  observed := by decide +kernel
  improving obj hobj := by
    obtain rfl := Option.some.inj hobj
    decide +kernel
  last := Or.inr (by decide +kernel)

/-- The worker observes `3` and `7`, and the consumer hears both. -/
def bothHeard : List (Event String) :=
  [.observe, .notify none, .next, .enter, .decode, .solutionOk, .observe, .notify none, .finish,
    .notify none, .next, .enter, .decode, .solutionOk, .next, .enter, .decode]

end Cpsat.Delivery
