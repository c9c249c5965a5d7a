import CpsatBindings.StopHistory

/-!
# Blocking solves and the env of a token

`SolveCpInterruptible` solves on the model inside the env of a token, the same
one each time; `SolveCpStopSearch` stops that model.  Nothing else reaches it:
streaming solves and the finalizers of their handles leave the env alone.

* `begun` — a blocking solve begins once.
* `env_unsolved` — until an interruptible solve runs on a token, its env holds
  the model it was made with, stopped exactly if `SolveCpStopSearch` was called.
-/

namespace Cpsat.Shim

variable {Req Params Mem Resp : Type*} {V : CpSat Req Params Mem Resp}
  {σ : State Req Params Mem Resp} {e : Event} {tr : List Event}

/-- The blocking solve an event begins, and the bytes it begins with. -/
def Event.begins : Event → Option (Nat × ByteArray × ByteArray)
  | .solveBegin c modelBytes paramsBytes | .interruptibleBegin c _ modelBytes paramsBytes =>
      some (c, modelBytes, paramsBytes)
  | _ => none

/-- No interruptible solve has begun on the token. -/
def Unsolved (tr : List Event) (t : Nat) : Prop :=
  ∀ c modelBytes paramsBytes, .interruptibleBegin c t modelBytes paramsBytes ∉ tr

/-! ## Calls -/

/-- A call begins from idle. -/
theorem begins_guard (guard : enabled V σ e) {c : Nat} {m p : ByteArray}
    (hbegins : e.begins = some (c, m, p)) : (σ.calls c).phase = .idle := by
  have hguard := guard.2
  cases e with
  | solveBegin _ _ _ =>
      simp only [Event.begins, Option.some.injEq, Prod.mk.injEq] at hbegins
      obtain ⟨rfl, rfl, rfl⟩ := hbegins
      exact hguard
  | interruptibleBegin _ _ _ _ =>
      simp only [Event.begins, Option.some.injEq, Prod.mk.injEq] at hbegins
      obtain ⟨rfl, rfl, rfl⟩ := hbegins
      exact hguard.1
  | _ => cases hbegins

/-- A blocking solve whose bytes parse is on its way; one whose bytes do not
has aborted the process. -/
theorem begins_next {c : Nat} {m p : ByteArray} (hbegins : e.begins = some (c, m, p)) :
    (V.parses m p = true → ((next V σ e).calls c).phase = .running) ∧
      (V.parses m p ≠ true →
        (next V σ e).calls = σ.calls ∧ (next V σ e).aborted = true) := by
  cases e with
  | solveBegin _ _ _ =>
      simp only [Event.begins, Option.some.injEq, Prod.mk.injEq] at hbegins
      obtain ⟨rfl, rfl, rfl⟩ := hbegins
      refine ⟨fun hparses => by rw [call_solveBegin hparses], ?_⟩
      intro hparses
      exact ⟨(calls_unparsed (t := 0) hparses).1, by simp [next, CpSat.checked, hparses]⟩
  | interruptibleBegin _ _ _ _ =>
      simp only [Event.begins, Option.some.injEq, Prod.mk.injEq] at hbegins
      obtain ⟨rfl, rfl, rfl⟩ := hbegins
      refine ⟨fun hparses => by rw [call_interruptibleBegin hparses], ?_⟩
      intro hparses
      exact ⟨(calls_unparsed hparses).2, by simp [next, CpSat.checked, hparses]⟩
  | _ => cases hbegins

/-- A call that has begun never goes back to idle. -/
theorem call_stays (guard : enabled V σ e) {c : Nat} (h : (σ.calls c).phase ≠ .idle) :
    ((next V σ e).calls c).phase ≠ .idle := by
  by_cases hcall : e.call = some c
  · cases e with
    | solveBegin b m p =>
        obtain rfl : b = c := Option.some.inj hcall
        exact absurd (begins_guard guard rfl) h
    | interruptibleBegin b t m p =>
        obtain rfl : b = c := Option.some.inj hcall
        exact absurd (begins_guard guard rfl) h
    | callEnd b i =>
        obtain rfl : b = c := Option.some.inj hcall
        rw [call_callEnd]
        simp
    | _ => cases hcall
  · rw [calls_untouched hcall]
    exact h

/-- A blocking solve begins once, and then its bytes have parsed or the process
has aborted. -/
theorem begun (h : (machine V).Run tr σ) {d : Event} {c : Nat} {m p : ByteArray}
    (hmem : d ∈ tr) (hbegins : d.begins = some (c, m, p)) :
    (V.parses m p = true ∧ (σ.calls c).phase ≠ .idle) ∨
      (V.parses m p ≠ true ∧ (σ.calls c).phase = .idle ∧ σ.aborted = true) := by
  refine h.holds (I := fun tr σ => d ∈ tr →
    (V.parses m p = true ∧ (σ.calls c).phase ≠ .idle) ∨
      (V.parses m p ≠ true ∧ (σ.calls c).phase = .idle ∧ σ.aborted = true))
    (fun hnil => absurd hnil List.not_mem_nil) ?_ hmem
  intro tr σ e _ ih guard hd
  change (V.parses m p = true ∧ ((next V σ e).calls c).phase ≠ .idle) ∨
    (V.parses m p ≠ true ∧ ((next V σ e).calls c).phase = .idle ∧
      (next V σ e).aborted = true)
  rcases List.mem_append.mp hd with hold | hnew
  · rcases ih hold with ⟨hparses, hbegun⟩ | ⟨-, -, haborted⟩
    · exact Or.inl ⟨hparses, call_stays guard hbegun⟩
    · rw [guard.1] at haborted
      cases haborted
  · obtain rfl := List.mem_singleton.mp hnew
    obtain ⟨hrunning, habort⟩ := begins_next (V := V) (σ := σ) hbegins
    by_cases hparses : V.parses m p = true
    · refine Or.inl ⟨hparses, ?_⟩
      rw [hrunning hparses]
      simp
    · obtain ⟨hcalls, haborted⟩ := habort hparses
      refine Or.inr ⟨hparses, ?_, haborted⟩
      rw [hcalls]
      exact begins_guard guard hbegins

/-- Before the process aborts, whatever has begun has parsed. -/
theorem parsed_of_begun (h : (machine V).Run tr σ) (halive : σ.aborted = false) {d : Event}
    {c : Nat} {m p : ByteArray} (hmem : d ∈ tr) (hbegins : d.begins = some (c, m, p)) :
    V.parses m p = true ∧ (σ.calls c).phase ≠ .idle := by
  rcases begun h hmem hbegins with hparsed | ⟨-, -, haborted⟩
  · exact hparsed
  · rw [halive] at haborted
    cases haborted

/-- A call on a token is an interruptible solve that has begun on it. -/
theorem begun_of_token (h : (machine V).Run tr σ) {c t : Nat} :
    (σ.calls c).token = some t →
      ∃ m p, V.parses m p = true ∧ .interruptibleBegin c t m p ∈ tr := by
  refine h.holds (I := fun tr σ => (σ.calls c).token = some t →
    ∃ m p, V.parses m p = true ∧ .interruptibleBegin c t m p ∈ tr)
    (by simp [machine, initial]) ?_
  intro tr σ e _ ih guard htoken
  change ((next V σ e).calls c).token = some t at htoken
  have hbefore : (σ.calls c).token = some t →
      ∃ m p, V.parses m p = true ∧ .interruptibleBegin c t m p ∈ tr ++ [e] := by
    intro hold
    obtain ⟨m, p, hparses, hmem⟩ := ih hold
    exact ⟨m, p, hparses, List.mem_append_left _ hmem⟩
  by_cases hcall : e.call = some c
  · cases e with
    | solveBegin b m p =>
        obtain rfl : b = c := Option.some.inj hcall
        by_cases hparses : V.parses m p = true
        · rw [call_solveBegin hparses] at htoken
          cases htoken
        · rw [(calls_unparsed (t := t) hparses).1] at htoken
          exact hbefore htoken
    | interruptibleBegin b u m p =>
        obtain rfl : b = c := Option.some.inj hcall
        by_cases hparses : V.parses m p = true
        · rw [call_interruptibleBegin hparses] at htoken
          obtain rfl : u = t := Option.some.inj htoken
          exact ⟨m, p, hparses, List.mem_append_right _ List.mem_cons_self⟩
        · rw [(calls_unparsed hparses).2] at htoken
          exact hbefore htoken
    | callEnd b i =>
        obtain rfl : b = c := Option.some.inj hcall
        rw [call_callEnd] at htoken
        exact hbefore htoken
    | _ => cases hcall
  · rw [calls_untouched hcall] at htoken
    exact hbefore htoken

/-! ## The env -/

/-- Apart from blocking solves only `SolveCpStopSearch` changes an env. -/
theorem env_next (h : ¬ e.IsCall) (t : Nat) :
    ((next V σ e).tokens t).legacy_cenv =
      match e with
      | .newStopToken u => if t = u then V.newModel else (σ.tokens t).legacy_cenv
      | .stopSearch u =>
          if t = u then (σ.tokens t).legacy_cenv.Stop else (σ.tokens t).legacy_cenv
      | _ => (σ.tokens t).legacy_cenv := by
  cases e with
  | solveBegin _ _ _ | interruptibleBegin _ _ _ _ | callEnd _ _ =>
      exact absurd trivial h
  | _ =>
      simp only [next, State.onStream_tokens, State.onToken_tokens, State.stopLimit_tokens,
        apply_ite Token.legacy_cenv]
      <;> grind

/-- A blocking solve reaches the env of its own token only. -/
theorem env_next_of_call (h : (machine V).Run tr σ) (hcall : e.IsCall) {c t : Nat}
    (hown : e.call = some c)
    (hothers : ∀ m p, V.parses m p = true → .interruptibleBegin c t m p ∉ tr ++ [e]) :
    ((next V σ e).tokens t).legacy_cenv = (σ.tokens t).legacy_cenv := by
  by_cases htouches : touches σ e = some t
  · cases e with
    | interruptibleBegin b u m p =>
        obtain rfl : b = c := Option.some.inj hown
        obtain rfl : u = t := Option.some.inj htouches
        by_cases hparses : V.parses m p = true
        · exact absurd (List.mem_append_right _ List.mem_cons_self) (hothers m p hparses)
        · simp [next, CpSat.checked, hparses]
    | callEnd b i =>
        obtain rfl : b = c := Option.some.inj hown
        obtain ⟨m, p, hparses, hmem⟩ := begun_of_token h htouches
        exact absurd (List.mem_append_left _ hmem) (hothers m p hparses)
    | solveBegin b m p => cases htouches
    | _ => exact absurd hcall id
  · rw [tokens_untouched htouches]

/-- An event of a blocking call names the call. -/
theorem Event.IsCall.call (h : e.IsCall) : ∃ c, e.call = some c := by
  cases e with
  | solveBegin c _ _ | interruptibleBegin c _ _ _ | callEnd c _ => exact ⟨c, rfl⟩
  | _ => exact absurd h id

/-- **The unsolved env.**  Until an interruptible solve runs on a token, the
model in its env is as it was made, but for the stop calls. -/
theorem env_unsolved (h : (machine V).Run tr σ) {t : Nat} :
    Unsolved tr t → (σ.tokens t).legacy_cenv.memory = V.newMemory ∧
      ((σ.tokens t).legacy_cenv.limit_stopped = true ↔ .stopSearch t ∈ tr) := by
  refine h.holds (I := fun tr σ => Unsolved tr t →
    (σ.tokens t).legacy_cenv.memory = V.newMemory ∧
      ((σ.tokens t).legacy_cenv.limit_stopped = true ↔ .stopSearch t ∈ tr))
    (by simp [machine, initial, CpSat.newModel]) ?_
  intro tr σ e hrun ih guard hunsolved
  change ((next V σ e).tokens t).legacy_cenv.memory = V.newMemory ∧
    (((next V σ e).tokens t).legacy_cenv.limit_stopped = true ↔ .stopSearch t ∈ tr ++ [e])
  have hbefore := ih fun c m p hmem => hunsolved c m p (List.mem_append_left _ hmem)
  by_cases hcall : e.IsCall
  · obtain ⟨c, hown⟩ := hcall.call
    rw [env_next_of_call hrun hcall hown (fun m p _ => hunsolved c m p)]
    cases e with
    | solveBegin _ _ _ | interruptibleBegin _ _ _ _ | callEnd _ _ => simpa using hbefore
    | _ => exact absurd hcall id
  · rw [env_next hcall]
    cases e with
    | newStopToken u =>
        by_cases htu : t = u
        · subst htu
          have hblank := unmade ⟨tr, hrun⟩ (t := t) guard.2
          rw [hblank] at hbefore
          simpa [initial] using hbefore
        · simpa [htu] using hbefore
    | stopSearch u =>
        by_cases htu : t = u
        · simpa [htu, Model.Stop] using htu ▸ hbefore.1
        · simpa [htu] using hbefore
    | _ => simpa using hbefore

end Cpsat.Shim
