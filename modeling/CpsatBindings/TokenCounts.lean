import CpsatBindings.StopHistory

/-!
# Counting the references to a token

The shim again, with the threads that count.  `lean_inc_ref` and `lean_dec_ref`
update the count of an object that has not been marked as multi-threaded by a
plain read and a plain write; here these are two steps, and other threads may
come between them.

Lean marks what it hands to another thread, and what that refers to.  What the
handle of a stream refers to is for `cpsat_external_foreach` to say, and it says
nothing: a handle can be with one thread, whose finalizer drops the reference to
the token, while the token is with another, which counts it as its own.

* `shim_reachable` — whatever the counts, the shim runs as the shim.
* `total_after` — the references move as the counts are meant to.
* `countsSound_step` — exactly which writes lose a reference.
-/

namespace Cpsat.Shim.Counting

/-- What is done with a reference to a token. -/
inductive Action where
  /-- Lean code copies one. -/
  | shareToken (t : Nat)
  /-- Lean code drops one. -/
  | releaseToken (t : Nat)
  /-- Lean code hands the token to other threads. -/
  | markToken (t : Nat)
  /-- `cpsat_solve_stream_start` takes one for the handle it makes. -/
  | streamStart (v t : Nat) (modelBytes paramsBytes : ByteArray)
  /-- `cpsat_stream_handle_finalize` gives it back. -/
  | finalizeRelease (v t : Nat)

/-- The token the reference is to. -/
def Action.token : Action → Nat
  | .shareToken t | .releaseToken t | .markToken t | .streamStart _ t _ _
  | .finalizeRelease _ t => t

/-- `lean_inc_ref`, `lean_dec_ref`, or `lean_mark_mt`. -/
def Action.update : Action → Update
  | .shareToken _ | .streamStart _ _ _ _ => .inc
  | .releaseToken _ | .finalizeRelease _ _ => .dec
  | .markToken _ => .mark

/-- The step of the shim that is done with it. -/
def Action.event : Action → Option Shim.Event
  | .shareToken t => some (.shareToken t)
  | .releaseToken t => some (.releaseToken t)
  | .markToken _ => none
  | .streamStart v t modelBytes paramsBytes => some (.streamStart v t modelBytes paramsBytes)
  | .finalizeRelease v _ => some (.finalizeRelease v)

/-- The shim, the object around each token, the one thread each handle is with
if it has not been marked, and what each thread is about to count: the action,
and the value of `m_rc` that it has read. -/
structure State (Req Params Mem Resp : Type*) where
  shim : Shim.State Req Params Mem Resp
  tokens : Nat → Object
  handles : Nat → Option Nat
  counting : Nat → Option (Action × Int)

inductive Event where
  /-- A step of the shim that counts nothing. -/
  | shim (e : Shim.Event)
  | newStopToken (θ t : Nat)
  /-- Thread `θ` hands the handle of a stream to other threads. -/
  | markHandle (θ v : Nat)
  /-- Thread `θ` reads the count. -/
  | read (θ : Nat) (a : Action)
  /-- Thread `θ` updates the count it has read. -/
  | write (θ : Nat)

section Machine

variable {Req Params Mem Resp : Type*} (V : CpSat Req Params Mem Resp)

/-- The tokens `cpsat_external_foreach` visits in a handle. -/
def cpsat_external_foreach (_ : Stream Req Params Mem Resp) : List Nat := []

/-- The steps of the shim that count nothing. -/
def Uncounted : Shim.Event → Prop
  | .newStopToken _ | .shareToken _ | .releaseToken _ | .streamStart _ _ _ _
  | .finalizeRelease _ => False
  | _ => True

/-- Thread `θ` has the reference the action is about. -/
def Has (s : State Req Params Mem Resp) (θ : Nat) : Action → Prop
  | .shareToken t | .releaseToken t | .streamStart _ t _ _ => Object.On θ (s.tokens t).thread
  | .markToken t =>
      0 < (s.shim.tokens t).references.visible ∧ (s.tokens t).thread = some θ
  | .finalizeRelease v t => (s.shim.streams v).token = t ∧ Object.On θ (s.handles v)

/-- Thread `θ` may do the action. -/
def able (s : State Req Params Mem Resp) (θ : Nat) (a : Action) : Prop :=
  s.shim.aborted = false ∧ (∀ e ∈ a.event, guard V s.shim e) ∧ Has s θ a

def enabled (s : State Req Params Mem Resp) : Event → Prop
  | .shim e => Uncounted e ∧ Shim.enabled V s.shim e
  | .newStopToken _ t => Shim.enabled V s.shim (.newStopToken t)
  | .markHandle θ v =>
      s.shim.aborted = false ∧ (s.shim.streams v).handle = .live ∧ s.handles v = some θ
  | .read θ a => s.counting θ = none ∧ able V s θ a
  | .write θ => ∃ counting ∈ s.counting θ, able V s θ counting.1

/-- The shim after the action. -/
def after (s : State Req Params Mem Resp) (a : Action) : Shim.State Req Params Mem Resp :=
  match a.event with
  | some e => Shim.next V s.shim e
  | none => s.shim

/-- Thread `θ`, which has read `n`, updates the count and does the action. -/
def written (s : State Req Params Mem Resp) (θ : Nat) (a : Action) (n : Int) :
    State Req Params Mem Resp where
  shim := after V s a
  tokens := Function.update s.tokens a.token ((s.tokens a.token).count a.update n)
  handles := match a with
    | .streamStart v _ _ _ => Function.update s.handles v (some θ)
    | _ => s.handles
  counting := Function.update s.counting θ none

def next (s : State Req Params Mem Resp) : Event → State Req Params Mem Resp
  | .shim e => { s with shim := Shim.next V s.shim e }
  | .newStopToken θ t =>
      { s with
        shim := Shim.next V s.shim (.newStopToken t)
        tokens := Function.update s.tokens t ⟨.lean_set_st_header, some θ⟩ }
  | .markHandle _ v =>
      { s with
        handles := Function.update s.handles v none
        tokens := fun t =>
          if t ∈ cpsat_external_foreach (s.shim.streams v) then
            (s.tokens t).count .mark (s.tokens t).header.m_rc
          else s.tokens t }
  | .read θ a =>
      { s with
        counting := Function.update s.counting θ (some (a, (s.tokens a.token).header.m_rc)) }
  | .write θ =>
      match s.counting θ with
      | some (a, n) => written V s θ a n
      | none => s

/-- Any number of threads, tokens, streams and blocking solves. -/
def machine : Machine (State Req Params Mem Resp) Event where
  init :=
    { shim := initial V
      tokens := fun _ => ⟨⟨0, false⟩, some 0⟩
      handles := fun _ => some 0
      counting := fun _ => none }
  enabled := enabled V
  next := next V

/-! ## Running it by hand -/

variable {V}

instance : (e : Shim.Event) → Decidable (Uncounted e)
  | .newStopToken _ | .shareToken _ | .releaseToken _ | .streamStart _ _ _ _
  | .finalizeRelease _ => isFalse id
  | .stopSearch _ | .stopSection _ | .solveBegin _ _ _ | .interruptibleBegin _ _ _ _
  | .callEnd _ _ | .workerModel _ | .register _ | .workerSolve _ | .workerReturn _ _
  | .unregister _ | .workerExit _ | .queue _ _ | .dropUnfinished _ | .dropFinished _
  | .finalizeStop _ | .finalizeJoin _ => isTrue trivial

instance (s : State Req Params Mem Resp) (θ : Nat) (a : Action) : Decidable (Has s θ a) := by
  cases a <;> unfold Has <;> infer_instance

instance (s : State Req Params Mem Resp) (θ : Nat) (a : Action) : Decidable (able V s θ a) :=
  inferInstanceAs (Decidable (_ ∧ (∀ e ∈ a.event, guard V s.shim e) ∧ _))

instance (s : State Req Params Mem Resp) : (e : Event) → Decidable ((machine V).enabled s e)
  | .shim e => inferInstanceAs (Decidable (Uncounted e ∧ (Shim.machine V).enabled s.shim e))
  | .newStopToken _ t =>
      inferInstanceAs (Decidable ((Shim.machine V).enabled s.shim (.newStopToken t)))
  | .markHandle θ v =>
      inferInstanceAs (Decidable (_ ∧ (s.shim.streams v).handle = .live ∧ s.handles v = some θ))
  | .read θ a => inferInstanceAs (Decidable (s.counting θ = none ∧ able V s θ a))
  | .write θ => inferInstanceAs (Decidable (∃ counting ∈ s.counting θ, able V s θ counting.1))

end Machine

variable {Req Params Mem Resp : Type*} {V : CpSat Req Params Mem Resp}
  {s : State Req Params Mem Resp} {e : Event} {tr : List Event}

/-! ## The shim is the shim -/

/-- The step of the shim an event takes. -/
def shimEvent (s : State Req Params Mem Resp) : Event → Option Shim.Event
  | .shim e => some e
  | .newStopToken _ t => some (.newStopToken t)
  | .markHandle _ _ | .read _ _ => none
  | .write θ => (s.counting θ).bind fun counting => counting.1.event

/-- What a thread about to write is about to do. -/
theorem write_cases {θ : Nat} (guard : enabled V s (.write θ)) :
    ∃ a n, s.counting θ = some (a, n) ∧ able V s θ a ∧ next V s (.write θ) = written V s θ a n := by
  obtain ⟨⟨a, n⟩, hcounting, hable⟩ := guard
  have hcounting : s.counting θ = some (a, n) := hcounting
  exact ⟨a, n, hcounting, hable, by simp [next, hcounting]⟩

/-- Whatever the counts, the shim runs as the shim. -/
theorem shim_reachable (h : (machine V).Reachable s) : (Shim.machine V).Reachable s.shim := by
  refine h.project (f := State.shim) (g := shimEvent) rfl ?_ ?_
  · intro s e _ guard hskip
    change (next V s e).shim = s.shim
    cases e with
    | shim e => cases hskip
    | newStopToken θ t => cases hskip
    | markHandle θ v => rfl
    | read θ a => rfl
    | write θ =>
        obtain ⟨a, n, hcounting, -, hnext⟩ := write_cases guard
        have hevent : a.event = none := by simpa [shimEvent, hcounting] using hskip
        rw [hnext]
        simp [written, after, hevent]
  · intro s e d _ guard hstep
    change Shim.enabled V s.shim d ∧ (next V s e).shim = Shim.next V s.shim d
    cases e with
    | shim e =>
        obtain rfl : e = d := Option.some.inj hstep
        exact ⟨guard.2, rfl⟩
    | newStopToken θ t =>
        obtain rfl : Shim.Event.newStopToken t = d := Option.some.inj hstep
        exact ⟨guard, rfl⟩
    | markHandle θ v => cases hstep
    | read θ a => cases hstep
    | write θ =>
        obtain ⟨a, n, hcounting, hable, hnext⟩ := write_cases guard
        have hevent : a.event = some d := by simpa [shimEvent, hcounting] using hstep
        refine ⟨⟨hable.1, hable.2.1 d hevent⟩, ?_⟩
        rw [hnext]
        simp [written, after, hevent]

/-! ## How references move -/

/-- A step that counts nothing moves no reference. -/
theorem references_uncounted {e : Shim.Event} (he : Uncounted e)
    (σ : Shim.State Req Params Mem Resp) (t : Nat) :
    ((Shim.next V σ e).tokens t).references = (σ.tokens t).references := by
  rw [references_next]
  cases e with
  | newStopToken _ | shareToken _ | releaseToken _ | streamStart _ _ _ _ | finalizeRelease _ =>
      exact absurd he id
  | _ => rfl

section Able

variable {θ : Nat} {a : Action} (hs : (machine V).Reachable s) (hable : able V s θ a)

include hs hable

/-- Whoever is about to count has a reference. -/
theorem held_of_able : 0 < (s.shim.tokens a.token).references.total := by
  obtain ⟨-, hguard, hhas⟩ := hable
  cases a with
  | shareToken t => exact References.total_pos_of_visible (hguard _ rfl)
  | releaseToken t => exact References.total_pos_of_visible (hguard _ rfl).1
  | markToken t => exact References.total_pos_of_visible hhas.1
  | streamStart v t m p => exact References.total_pos_of_visible (hguard _ rfl).2
  | finalizeRelease v t =>
      obtain ⟨rfl, -⟩ := hhas
      have hjoined : (s.shim.streams v).handle = .joined := hguard _ rfl
      exact held_by_stream (shim_reachable hs)
        (started_of_handle (shim_reachable hs) (by rw [hjoined]; simp)) (by rw [hjoined]; simp)

/-- The references move as the count is meant to. -/
theorem total_after (t : Nat) :
    ((after V s a).tokens t).references.total =
      if t = a.token then a.update.references (s.shim.tokens t).references.total
      else (s.shim.tokens t).references.total := by
  have hheld := held_of_able hs hable
  obtain ⟨-, hguard, hhas⟩ := hable
  cases a with
  | shareToken u =>
      change ((Shim.next V s.shim (.shareToken u)).tokens t).references.total =
        if t = u then _ else _
      rw [references_next, apply_ite References.total, References.total_share]
      rfl
  | releaseToken u =>
      have hvisible : 0 < (s.shim.tokens u).references.visible := (hguard _ rfl).1
      change ((Shim.next V s.shim (.releaseToken u)).tokens t).references.total =
        if t = u then _ else _
      rw [references_next]
      by_cases htu : t = u
      · subst htu
        simp only [if_true, References.total_release hvisible]
        rfl
      · simp only [htu, if_false]
  | markToken u => exact (ite_self _).symm
  | streamStart v u m p =>
      change ((Shim.next V s.shim (.streamStart v u m p)).tokens t).references.total =
        if t = u then _ else _
      rw [references_next, apply_ite References.total, References.total_own]
      rfl
  | finalizeRelease v u =>
      obtain ⟨rfl, -⟩ := hhas
      have hjoined : (s.shim.streams v).handle = .joined := hguard _ rfl
      have howned := owned_by_stream (shim_reachable hs)
        (started_of_handle (shim_reachable hs) (by rw [hjoined]; simp)) (by rw [hjoined]; simp)
      change ((Shim.next V s.shim (.finalizeRelease v)).tokens t).references.total =
        if t = (s.shim.streams v).token then _ else _
      rw [references_next]
      by_cases htu : t = (s.shim.streams v).token
      · subst htu
        simp only [if_true, References.total_disown howned]
        rfl
      · simp only [htu, if_false]

end Able

/-- What has been made stays made. -/
theorem made_after {a : Action} {t : Nat} (hmade : (s.shim.tokens t).references.made = true) :
    ((after V s a).tokens t).references.made = true := by
  unfold after
  split
  · exact made_next hmade
  · exact hmade

/-! ## Counts that are not short -/

/-- No count is short of the references there are, and an object is taken for
one thread's only if it is. -/
structure CountsSound (s : State Req Params Mem Resp) : Prop where
  tokens : ∀ t, (s.tokens t).Sound (s.shim.tokens t).references.total
  made : ∀ t, (s.tokens t).thread = none → (s.shim.tokens t).references.made = true
  read : ∀ θ a n, s.counting θ = some (a, n) →
    n ≠ 0 ∧ (n < 0 → (s.tokens a.token).thread = none)

/-- A plain write loses no reference: what was read is not below the references
there are by now, and what is left is no positive count on an object that has
been marked meanwhile. -/
def CountKept (_ : List Event) (s : State Req Params Mem Resp) : Event → Prop
  | .write θ => ∀ counting ∈ s.counting θ, 0 < counting.2 →
      ((s.shim.tokens counting.1.token).references.total : Int) ≤ counting.2 ∧
        (counting.1.update.Unmarks counting.2 → (s.tokens counting.1.token).thread ≠ none)
  | _ => True

instance (s : State Req Params Mem Resp) : (e : Event) → Decidable (CountKept tr s e)
  | .write θ =>
      inferInstanceAs (Decidable (∀ counting ∈ s.counting θ, 0 < counting.2 →
        ((s.shim.tokens counting.1.token).references.total : Int) ≤ counting.2 ∧ (_ → _)))
  | .shim _ | .newStopToken _ _ | .markHandle _ _ | .read _ _ => isTrue trivial

theorem countsSound_init : CountsSound (machine V).init where
  tokens t := by
    refine ⟨?_, nofun, fun _ => le_refl _⟩
    exact Nat.zero_le _
  made t hnone := by cases hnone
  read θ a n hcounting := by cases hcounting

/-- A write keeps the counts sound exactly if it loses no reference. -/
theorem countsSound_write (hs : (machine V).Reachable s) (h : CountsSound s) {θ : Nat}
    (guard : enabled V s (.write θ)) :
    CountsSound (next V s (.write θ)) ↔ CountKept tr s (.write θ) := by
  obtain ⟨a, n, hcounting, hable, hnext⟩ := write_cases guard
  obtain ⟨hn, hread⟩ := h.read θ a n hcounting
  have hmark : a.update = .mark → (s.tokens a.token).thread ≠ none := by
    intro hu hnone
    cases a with
    | markToken t =>
        have hthread : (s.tokens t).thread = some θ := hable.2.2.2
        rw [show (s.tokens t).thread = none from hnone] at hthread
        cases hthread
    | _ => cases hu
  have hcount := Object.sound_count_iff (h.tokens a.token) (held_of_able hs hable) hn hread hmark
  have htotal := total_after hs hable
  have htokens : ∀ t, (written V s θ a n).tokens t =
      if t = a.token then (s.tokens a.token).count a.update n else s.tokens t := by
    intro t
    simp [written, Function.update_apply]
  have hkept : CountKept tr s (.write θ) ↔ (0 < n →
      ((s.shim.tokens a.token).references.total : Int) ≤ n ∧
        (a.update.Unmarks n → (s.tokens a.token).thread ≠ none)) := by
    constructor
    · intro hall
      exact hall (a, n) hcounting
    · intro hone counting hmem
      rw [hcounting] at hmem
      obtain rfl := Option.some.inj hmem
      exact hone
  rw [hnext, hkept, ← hcount]
  constructor
  · intro hsound
    have htoken := hsound.tokens a.token
    rw [htokens, if_pos rfl] at htoken
    change Object.Sound _ ((after V s a).tokens a.token).references.total at htoken
    rwa [htotal, if_pos rfl] at htoken
  · intro hcounted
    have hthread : ∀ t, (s.tokens t).thread = none →
        ((written V s θ a n).tokens t).thread = none := by
      intro t hnone
      rw [htokens]
      split
      · rename_i heq
        subst heq
        simp [Object.count, hnone]
      · exact hnone
    refine ⟨?_, ?_, ?_⟩
    · intro t
      change Object.Sound _ ((after V s a).tokens t).references.total
      rw [htokens, htotal]
      split
      · rename_i heq
        subst heq
        exact hcounted
      · exact h.tokens t
    · intro t hnone
      change ((after V s a).tokens t).references.made = true
      refine made_after ?_
      rw [htokens] at hnone
      split at hnone
      · rename_i heq
        subst heq
        exact made_of_held (shim_reachable hs) (held_of_able hs hable)
      · exact h.made t hnone
    · intro θ' a' n' hcounting'
      simp only [written, Function.update_apply] at hcounting'
      split at hcounting'
      · cases hcounting'
      · obtain ⟨hn', hread'⟩ := h.read θ' a' n' hcounting'
        exact ⟨hn', fun hneg => hthread _ (hread' hneg)⟩

/-- **Lost references.**  A step keeps the counts sound exactly if it is no
plain write that loses a reference or a mark. -/
theorem countsSound_step (hs : (machine V).Reachable s) (h : CountsSound s)
    (guard : enabled V s e) : CountsSound (next V s e) ↔ CountKept tr s e := by
  cases e with
  | write θ => exact countsSound_write hs h guard
  | shim e =>
      refine iff_of_true ⟨?_, ?_, h.read⟩ trivial
      · intro t
        change Object.Sound _ ((Shim.next V s.shim e).tokens t).references.total
        rw [references_uncounted guard.1]
        exact h.tokens t
      · intro t hnone
        change ((Shim.next V s.shim e).tokens t).references.made = true
        rw [references_uncounted guard.1]
        exact h.made t hnone
  | newStopToken θ t =>
      have hunmade : (s.shim.tokens t).references.made = false := guard.2
      have htokens : ∀ u, (next V s (.newStopToken θ t)).tokens u =
          if u = t then ⟨.lean_set_st_header, some θ⟩ else s.tokens u := by
        intro u
        simp [next, Function.update_apply]
      have hrefs : ∀ u, ((next V s (.newStopToken θ t)).shim.tokens u).references =
          if u = t then .fresh else (s.shim.tokens u).references := by
        intro u
        change ((Shim.next V s.shim (.newStopToken t)).tokens u).references = _
        rw [references_next]
      refine iff_of_true ⟨?_, ?_, ?_⟩ trivial
      · intro u
        rw [htokens, hrefs]
        split
        · exact ⟨Header.covers_new, nofun, fun _ => Int.one_nonneg⟩
        · exact h.tokens u
      · intro u hnone
        rw [htokens] at hnone
        rw [hrefs]
        split
        · rfl
        · rename_i hother
          rw [if_neg hother] at hnone
          exact h.made u hnone
      · intro θ' a n hcounting
        obtain ⟨hn, hread⟩ := h.read θ' a n hcounting
        refine ⟨hn, ?_⟩
        intro hneg
        rw [htokens]
        split
        · rename_i heq
          -- nobody has counted a token that is yet to be made
          have hmade := h.made a.token (hread hneg)
          rw [heq, hunmade] at hmade
          cases hmade
        · exact hread hneg
  | markHandle θ v =>
      refine iff_of_true ⟨?_, ?_, ?_⟩ trivial
      · simpa [next, cpsat_external_foreach] using h.tokens
      · simpa [next, cpsat_external_foreach] using h.made
      · simpa [next, cpsat_external_foreach] using h.read
  | read θ a =>
      refine iff_of_true ⟨h.tokens, h.made, ?_⟩ trivial
      intro θ' a' n' hcounting
      change Function.update s.counting θ _ θ' = _ at hcounting
      rw [Function.update_apply] at hcounting
      split at hcounting
      · obtain ⟨rfl, rfl⟩ := Prod.mk.inj (Option.some.inj hcounting)
        have hsound := h.tokens a.token
        have hle := hsound.covers.le
        have hheld := held_of_able hs guard.2
        refine ⟨by omega, ?_⟩
        intro hneg
        by_contra hthread
        exact absurd (hsound.unmarked hthread) (by omega)
      · exact h.read θ' a' n' hcounting

end Cpsat.Shim.Counting
