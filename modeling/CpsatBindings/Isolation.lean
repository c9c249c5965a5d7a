import CpsatBindings.EnvHistory

/-!
# Which model a solve is given

A plain solve and a streaming solve make a model of their own.  Interruptible
solves take the model in the env of their token, and find there what the
interruptible solves before them have left.

`isolated_iff` says exactly when solves are isolated from one another: when no
token is used for a second interruptible solve.
-/

namespace Cpsat.Shim

variable {Req Params Mem Resp : Type*} {V : CpSat Req Params Mem Resp}
  {σ : State Req Params Mem Resp} {e : Event} {tr : List Event}

/-- The models there are: one in the env of each token, one in each worker,
and one in the env each plain solve makes for itself. -/
inductive ModelId where
  | ofToken (t : Nat)
  | ofStream (v : Nat)
  | ofCall (c : Nat)
deriving DecidableEq, Repr

/-- Where a model is. -/
def ModelId.model (σ : State Req Params Mem Resp) : ModelId → Option (Model Mem)
  | .ofToken t => some (σ.tokens t).legacy_cenv
  | .ofStream v => some (σ.streams v).model
  | .ofCall c => (σ.calls c).given.map Given.model

/-- The model `SolveCpModel` has been given by an event. -/
def handedOn (σ : State Req Params Mem Resp) : Event → Option (Model Mem)
  | .solveBegin c _ _ | .interruptibleBegin c _ _ _ => (σ.calls c).given.map Given.model
  | .workerSolve v => (σ.streams v).given.map Given.model
  | _ => none

section Given

variable (V)

/-- The model an event gives to `SolveCpModel`. -/
def given : Event → Option ModelId
  | .solveBegin c modelBytes paramsBytes =>
      if V.parses modelBytes paramsBytes then some (.ofCall c) else none
  | .interruptibleBegin _ t modelBytes paramsBytes =>
      if V.parses modelBytes paramsBytes then some (.ofToken t) else none
  | .workerSolve v => some (.ofStream v)
  | _ => none

/-- What a solve returns on a new model, when nothing stops it. -/
def CpSat.freshResponse (modelBytes paramsBytes : ByteArray) : Resp :=
  let read := V.read modelBytes paramsBytes
  (V.solve ⟨read.1, read.2, ⟨false, V.NewSatParameters read.2 V.newMemory⟩⟩ none).1

/-- Solves are isolated: each is given the model `given` names, no two are given
the same, and on a token that was never stopped an interruptible solve answers
as on a new model. -/
structure Isolated (tr : List Event) (σ : State Req Params Mem Resp) : Prop where
  named : ∀ e i, enabled V σ e → given V e = some i →
    handedOn (next V σ e) e = i.model (next V σ e)
  apart : (tr.filterMap (given V)).Nodup
  independent : ∀ c t modelBytes paramsBytes,
    .interruptibleBegin c t modelBytes paramsBytes ∈ tr → .stopSearch t ∉ tr →
      (σ.calls c).phase = .finished →
        (σ.calls c).response = some (V.freshResponse modelBytes paramsBytes)

/-- An interruptible solve whose bytes parse is the first on its token. -/
def FirstOnToken (tr : List Event) (_ : State Req Params Mem Resp) : Event → Prop
  | .interruptibleBegin _ t modelBytes paramsBytes =>
      V.parses modelBytes paramsBytes = true → Unsolved tr t
  | _ => True

end Given

/-- `given` names the model that the step hands on. -/
theorem given_named {i : ModelId} (hgiven : given V e = some i) :
    handedOn (next V σ e) e = i.model (next V σ e) := by
  cases e with
  | solveBegin c m p =>
      simp only [given, Option.ite_none_right_eq_some, Option.some.injEq] at hgiven
      obtain ⟨-, rfl⟩ := hgiven
      rfl
  | interruptibleBegin c t m p =>
      simp only [given, Option.ite_none_right_eq_some, Option.some.injEq] at hgiven
      obtain ⟨hparses, rfl⟩ := hgiven
      simp [handedOn, ModelId.model, next, CpSat.checked, hparses]
  | workerSolve v =>
      obtain rfl : ModelId.ofStream v = i := Option.some.inj hgiven
      simp [handedOn, ModelId.model, next]
  | _ => cases hgiven

/-! ## No two solves on one model -/

/-- A stream, and a plain solve, is given its model once. -/
theorem given_once (h : (machine V).Run tr σ) (guard : enabled V σ e)
    (hfirst : FirstOnToken V tr σ e) {i : ModelId} (hgiven : given V e = some i) :
    i ∉ tr.filterMap (given V) := by
  intro hmem
  obtain ⟨d, hd, hsame⟩ := List.mem_filterMap.mp hmem
  cases e with
  | workerSolve v =>
      obtain rfl : ModelId.ofStream v = i := Option.some.inj hgiven
      obtain rfl : d = .workerSolve v := by
        cases d <;> simp [given] at hsame
        rw [hsame]
      have hsince := worker_since h hd rfl
      rw [show (σ.streams v).worker = .registered from guard.2] at hsince
      simp [WorkerPhase.rank] at hsince
  | solveBegin c m p =>
      simp only [given, Option.ite_none_right_eq_some, Option.some.injEq] at hgiven
      obtain ⟨-, rfl⟩ := hgiven
      obtain ⟨m', p', rfl⟩ : ∃ m' p', d = .solveBegin c m' p' := by
        cases d <;> simp [given] at hsame
        obtain ⟨-, rfl⟩ := hsame
        exact ⟨_, _, rfl⟩
      exact (parsed_of_begun h guard.1 hd rfl).2 guard.2
  | interruptibleBegin c t m p =>
      simp only [given, Option.ite_none_right_eq_some, Option.some.injEq] at hgiven
      obtain ⟨hparses, rfl⟩ := hgiven
      obtain ⟨c', m', p', rfl⟩ : ∃ c' m' p', d = .interruptibleBegin c' t m' p' := by
        cases d <;> simp [given] at hsame
        obtain ⟨-, rfl⟩ := hsame
        exact ⟨_, _, _, rfl⟩
      exact hfirst hparses c' m' p' hd
  | _ => cases hgiven

/-- One step keeps the models apart exactly if it is the first on its token. -/
theorem apart_step (h : (machine V).Run tr σ) (hapart : (tr.filterMap (given V)).Nodup)
    (guard : enabled V σ e) :
    ((tr ++ [e]).filterMap (given V)).Nodup ↔ FirstOnToken V tr σ e := by
  rw [List.filterMap_append]
  constructor
  · intro hnodup
    cases e with
    | interruptibleBegin c t m p =>
        intro hparses c' m' p' hmem
        have hparsed := (parsed_of_begun h guard.1 hmem rfl).1
        have hin : .ofToken t ∈ tr.filterMap (given V) :=
          List.mem_filterMap.mpr ⟨_, hmem, by simp [given, hparsed]⟩
        have hdisjoint := List.disjoint_of_nodup_append hnodup
        exact hdisjoint hin (by simp [given, hparses])
    | _ => trivial
  · intro hfirst
    cases hgiven : given V e with
    | none => simpa [hgiven] using hapart
    | some i =>
        have hout := given_once h guard hfirst hgiven
        have hlast : [e].filterMap (given V) = [i] := by simp [hgiven]
        rw [hlast, List.nodup_append_comm]
        exact List.nodup_cons.mpr ⟨hout, hapart⟩

/-! ## The answer of a lone interruptible solve -/

/-- Two members of a list with the same image are one, if the images of the
list are all different. -/
theorem eq_of_nodup_filterMap {α β : Type*} {f : α → Option β} {l : List α}
    (hnodup : (l.filterMap f).Nodup) {a b : α} {x : β} (ha : a ∈ l) (hb : b ∈ l)
    (hfa : f a = some x) (hfb : f b = some x) : a = b := by
  by_contra hne
  have hpairs := List.pairwise_filterMap.mp hnodup
  have hsymm : Std.Symm fun a b => ∀ y, f a = some y → ∀ z, f b = some z → y ≠ z :=
    ⟨fun _ _ hab y hy z hz => (hab z hz y hy).symm⟩
  exact hpairs.forall ha hb hne x hfa x hfb rfl

/-- What is known of the only interruptible solve on an unstopped token. -/
structure Lone (V : CpSat Req Params Mem Resp) (σ : State Req Params Mem Resp) (c t : Nat)
    (m p : ByteArray) : Prop where
  given : (σ.calls c).given = some ⟨(V.read m p).1, (V.read m p).2,
    ⟨false, V.NewSatParameters (V.read m p).2 V.newMemory⟩⟩
  token : (σ.calls c).token = some t
  running : (σ.calls c).phase = .running → (σ.tokens t).legacy_cenv.limit_stopped = false
  finished : (σ.calls c).phase = .finished →
    (σ.calls c).response = some (V.freshResponse m p)

/-- It starts on a new model. -/
theorem lone_begin (h : (machine V).Run tr σ) {c t : Nat} {m p : ByteArray}
    (hparses : V.parses m p = true) (hunsolved : Unsolved tr t)
    (hunstopped : .stopSearch t ∉ tr) :
    Lone V (next V σ (.interruptibleBegin c t m p)) c t m p := by
  obtain ⟨hmemory, hstopped⟩ := env_unsolved h hunsolved
  have hfalse : (σ.tokens t).legacy_cenv.limit_stopped = false :=
    Bool.eq_false_iff.mpr (mt hstopped.mp hunstopped)
  refine ⟨?_, ?_, ?_, ?_⟩
  · rw [call_interruptibleBegin hparses]
    simp only [hmemory, hfalse]
  · rw [call_interruptibleBegin hparses]
  · intro _
    simpa [next, CpSat.checked, hparses] using hfalse
  · rw [call_interruptibleBegin hparses]
    simp

/-- And nothing else reaches that model. -/
theorem lone_next (h : (machine V).Run tr σ) (guard : enabled V σ e) {c t : Nat}
    {m p : ByteArray} (hmem : .interruptibleBegin c t m p ∈ tr) (hlone : Lone V σ c t m p)
    (hsole : ∀ c' m' p', V.parses m' p' = true →
      .interruptibleBegin c' t m' p' ∈ tr ++ [e] → c' = c)
    (hunstopped : .stopSearch t ∉ tr ++ [e]) : Lone V (next V σ e) c t m p := by
  have hbegun := (parsed_of_begun h guard.1 hmem rfl).2
  by_cases hown : e.call = some c
  · cases e with
    | solveBegin b m' p' =>
        obtain rfl : b = c := Option.some.inj hown
        exact absurd (begins_guard guard rfl) hbegun
    | interruptibleBegin b u m' p' =>
        obtain rfl : b = c := Option.some.inj hown
        exact absurd (begins_guard guard rfl) hbegun
    | callEnd b interrupt =>
        obtain rfl : b = c := Option.some.inj hown
        obtain ⟨hrunning, hinterrupt⟩ := guard.2
        have hleft : interrupt = none := by
          rcases hinterrupt with hnone | ⟨u, hu, hstopped⟩
          · exact hnone
          · obtain rfl : t = u := by simpa [hlone.token] using hu
            rw [hlone.running hrunning] at hstopped
            cases hstopped
        refine ⟨?_, ?_, ?_, ?_⟩ <;> rw [call_callEnd]
        · exact hlone.given
        · exact hlone.token
        · simp
        · intro _
          simp only [hlone.given, hleft, Option.map_some]
          rfl
    | _ => cases hown
  · have henv : ((next V σ e).tokens t).legacy_cenv.limit_stopped = true →
        (σ.tokens t).legacy_cenv.limit_stopped = true := by
      by_cases hcall : e.IsCall
      · obtain ⟨b, hb⟩ := hcall.call
        rw [env_next_of_call h hcall hb]
        · exact id
        · intro m' p' hparses' hb'
          exact hown (by rw [hb, hsole b m' p' hparses' hb'])
      · rw [env_next hcall]
        cases e with
        | newStopToken u =>
            by_cases htu : t = u
            · simp [htu, CpSat.newModel]
            · simp [htu]
        | stopSearch u =>
            by_cases htu : t = u
            · simp [htu] at hunstopped
            · simp [htu]
        | _ => exact id
    refine ⟨?_, ?_, ?_, ?_⟩ <;> rw [calls_untouched hown]
    · exact hlone.given
    · exact hlone.token
    · intro hrunning
      exact Bool.eq_false_iff.mpr (mt henv (Bool.eq_false_iff.mp (hlone.running hrunning)))
    · exact hlone.finished

/-- All along a run, the only blocking call on a token that is not stopped finds its
env as it was made. -/
theorem lone (h : (machine V).Run tr σ) {c t : Nat} {m p : ByteArray}
    (hparses : V.parses m p = true) :
    .interruptibleBegin c t m p ∈ tr →
      (∀ c' m' p', V.parses m' p' = true → .interruptibleBegin c' t m' p' ∈ tr → c' = c) →
        .stopSearch t ∉ tr → Lone V σ c t m p := by
  refine h.holds (I := fun tr σ => .interruptibleBegin c t m p ∈ tr →
    (∀ c' m' p', V.parses m' p' = true → .interruptibleBegin c' t m' p' ∈ tr → c' = c) →
      .stopSearch t ∉ tr → Lone V σ c t m p)
    (fun hnil => absurd hnil List.not_mem_nil) ?_
  intro tr σ e hrun ih guard hmem hsole hunstopped
  have hunstopped' : .stopSearch t ∉ tr := fun hold => hunstopped (List.mem_append_left _ hold)
  rcases List.mem_append.mp hmem with hold | hnew
  · refine lone_next hrun guard hold (ih hold ?_ hunstopped') hsole hunstopped
    intro c' m' p' hparses' hold'
    exact hsole c' m' p' hparses' (List.mem_append_left _ hold')
  · obtain rfl := List.mem_singleton.mp hnew
    refine lone_begin hrun hparses ?_ hunstopped'
    intro c' m' p' hold
    obtain ⟨hparses', hbegun⟩ := parsed_of_begun hrun guard.1 hold rfl
    obtain rfl := hsole c' m' p' hparses' (List.mem_append_left _ hold)
    exact hbegun (begins_guard guard rfl)

/-- Solves that share no model answer as on new ones. -/
theorem isolated_of_apart (h : (machine V).Run tr σ)
    (hapart : (tr.filterMap (given V)).Nodup) : Isolated V tr σ := by
  refine ⟨fun _ _ _ hgiven => given_named hgiven, hapart, ?_⟩
  intro c t m p hmem hunstopped hfinished
  have hparses : V.parses m p = true := by
    rcases begun h hmem rfl with ⟨hparses, -⟩ | ⟨-, hidle, -⟩
    · exact hparses
    · rw [hfinished] at hidle
      cases hidle
  refine (lone h hparses hmem ?_ hunstopped).finished hfinished
  intro c' m' p' hparses' hmem'
  have hone := eq_of_nodup_filterMap hapart hmem' hmem (x := .ofToken t)
    (by simp [given, hparses']) (by simp [given, hparses])
  simp only [Event.interruptibleBegin.injEq] at hone
  exact hone.1

/-! ## Whole runs -/

/-- **Isolation.**  All along a run solves are isolated from one another if
and only if every interruptible solve of that run is the first on its token. -/
theorem isolated_iff (h : (machine V).Run tr σ) :
    (machine V).EveryState (Isolated V) tr ↔ (machine V).EveryStep (FirstOnToken V) tr := by
  refine Machine.everyState_iff_everyStep ?_ ?_ h
  · exact isolated_of_apart Machine.Path.nil List.nodup_nil
  · intro tr σ e hrun hkept guard
    rw [← apart_step hrun hkept.apart guard]
    exact ⟨fun hisolated => hisolated.apart, isolated_of_apart (hrun.snoc guard)⟩

/-- Two interruptible solves of one model, one after the other on one token. -/
def twice : List Event :=
  [.newStopToken 0, .interruptibleBegin 0 0 .empty .empty, .callEnd 0 none,
    .interruptibleBegin 1 0 .empty .empty, .callEnd 1 none]

/-- The second answers from what the first has left. -/
theorem twice_answers :
    ∃ σ, (machine tally).Run twice σ ∧ (σ.calls 1).phase = .finished ∧
      (σ.calls 1).response ≠ some (tally.freshResponse .empty .empty) :=
  Machine.exists_run_of_exec _ (by decide +kernel)

/-- The condition tells: the second is not the first on its token. -/
theorem twice_not_first : ¬ (machine tally).EveryStep (FirstOnToken tally) twice := by
  obtain ⟨σ, hrun, hfinished, hresponse⟩ := twice_answers
  intro hfirst
  have hisolated := ((isolated_iff hrun).mpr hfirst).last hrun
  apply hresponse
  exact hisolated.independent 1 0 _ _ (by simp [twice]) (by simp [twice]) hfinished

/-- Two blocking solves on one token are given one model. -/
theorem solves_can_meet :
    ¬ ∀ (tr : List Event) (σ : State Nat Nat Nat Nat),
      (machine tally).Run tr σ → Isolated tally tr σ := by
  intro hall
  obtain ⟨σ, hrun, hfinished, hresponse⟩ := twice_answers
  apply hresponse
  exact (hall _ _ hrun).independent 1 0 _ _ (by simp [twice]) (by simp [twice]) hfinished

end Cpsat.Shim
