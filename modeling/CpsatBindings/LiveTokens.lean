import CpsatBindings.TokenCounts

/-!
# Limits and tokens that are there

What the shim touches without asking: the limit in a slot, and the token of a
stream, of a stop call, of a solve.

* `limits_live` — `Stop` reaches limits that are there, in every run.
* `nothing_dead_touched` — so does whoever touches a token, as long as no
  reference is lost in counting.
* `nothing_dead_of_handles_stay` — none is lost as long as every handle stays
  with the thread that started its stream.
* `token_dies_early` — one is lost between a thread that drops a handle it was
  handed and a thread that starts a second stream.
-/

namespace Cpsat.Shim.Counting

variable {Req Params Mem Resp : Type*} {V : CpSat Req Params Mem Resp}
  {s : State Req Params Mem Resp} {e : Event} {tr : List Event}

/-! ## Nothing dead is touched -/

/-- The token an event reads or writes, or the count of. -/
def touched (s : State Req Params Mem Resp) : Event → Option Nat
  | .shim e => touches s.shim e
  | .newStopToken _ t => some t
  | .markHandle _ v => (cpsat_external_foreach (s.shim.streams v)).head?
  | .read _ a => some a.token
  | .write θ => (s.counting θ).map fun counting => counting.1.token

/-- `Stop` reaches limits that are there: a limit in a slot is that of a worker
registered on the token, the limit an event calls `Stop` on is that of a model
that exists, and no other event stops a limit. -/
structure LimitsLive (V : CpSat Req Params Mem Resp) (s : State Req Params Mem Resp) : Prop where
  slot : ∀ t v, (s.shim.tokens t).active_stream_limit = some v →
    (s.shim.streams v).token = t ∧ (s.shim.streams v).worker.Registered
  reached : ∀ e v, Shim.enabled V s.shim e → stops s.shim e = some v →
    (s.shim.streams v).worker.HasModel ∧
      ((Shim.next V s.shim e).streams v).stopCalled = true
  only : ∀ e v, Shim.enabled V s.shim e → (s.shim.streams v).stopCalled = false →
    ((Shim.next V s.shim e).streams v).stopCalled = true → stops s.shim e = some v

/-- Tokens are there for whoever touches them: a finalized token is that of no
worker but joined ones, whatever token an event touches has been made and has
not been finalized, and it changes no other. -/
structure TokensLive (V : CpSat Req Params Mem Resp) (s : State Req Params Mem Resp) : Prop where
  unjoined : ∀ v, (s.shim.streams v).worker ≠ .absent →
    (s.tokens (s.shim.streams v).token).header.finalized = true →
      (s.shim.streams v).handle = .released ∧ (s.shim.streams v).worker = .exited
  live : ∀ e t, (machine V).enabled s e → touched s e = some t → (∀ θ, e ≠ .newStopToken θ t) →
    (s.shim.tokens t).references.made = true ∧ (s.tokens t).header.finalized = false
  untouched : ∀ e t, (machine V).enabled s e → touched s e ≠ some t →
    (next V s e).tokens t = s.tokens t ∧ (next V s e).shim.tokens t = s.shim.tokens t

/-- Neither a dead limit nor a dead token is touched. -/
structure NothingDead (V : CpSat Req Params Mem Resp) (s : State Req Params Mem Resp) : Prop where
  limits : LimitsLive V s
  tokens : TokensLive V s

/-- **Limits.**  Whatever the counts, `Stop` reaches limits that are there. -/
theorem limits_live (h : (machine V).Reachable s) : LimitsLive V s where
  slot _ _ hslot := slot_registered (shim_reachable h) hslot
  reached _ _ guard hstop :=
    ⟨stopped_hasModel (shim_reachable h) guard hstop, stopCalled_of_stops hstop⟩
  only _ _ _ hbefore hafter := stops_of_stopCalled hbefore hafter

/-- Whatever token an event touches is referred to. -/
theorem held_of_touched (hs : (machine V).Reachable s) (guard : enabled V s e) {t : Nat}
    (htouched : touched s e = some t) (hnew : ∀ θ, e ≠ .newStopToken θ t) :
    0 < (s.shim.tokens t).references.total := by
  cases e with
  | shim e =>
      refine touched_held (shim_reachable hs) guard.2 htouched ?_
      rintro rfl
      exact guard.1
  | newStopToken θ u =>
      obtain rfl : u = t := Option.some.inj htouched
      exact absurd rfl (hnew θ)
  | markHandle θ v => cases htouched
  | read θ a =>
      obtain rfl : a.token = t := Option.some.inj htouched
      exact held_of_able hs guard.2
  | write θ =>
      obtain ⟨a, n, hcounting, hable, -⟩ := write_cases guard
      obtain rfl : a.token = t := by simpa [touched, hcounting] using htouched
      exact held_of_able hs hable

/-- An event changes no token but the one it touches. -/
theorem unchanged_of_untouched (guard : enabled V s e) {t : Nat}
    (huntouched : touched s e ≠ some t) :
    (next V s e).tokens t = s.tokens t ∧ (next V s e).shim.tokens t = s.shim.tokens t := by
  cases e with
  | shim e => exact ⟨rfl, tokens_untouched huntouched⟩
  | newStopToken θ u =>
      have hother : t ≠ u := fun heq => huntouched (congrArg some heq.symm)
      exact ⟨Function.update_of_ne hother _ _, tokens_untouched (e := .newStopToken u) huntouched⟩
  | markHandle θ v => exact ⟨by simp [next, cpsat_external_foreach], rfl⟩
  | read θ a => exact ⟨rfl, rfl⟩
  | write θ =>
      obtain ⟨a, n, hcounting, ⟨-, -, hhas⟩, hnext⟩ := write_cases guard
      have hother : t ≠ a.token := by
        rintro rfl
        exact huntouched (by simp [touched, hcounting])
      rw [hnext]
      refine ⟨Function.update_of_ne hother _ _, ?_⟩
      change (after V s a).tokens t = _
      cases a with
      | markToken u => rfl
      | finalizeRelease v u =>
          obtain ⟨rfl, -⟩ := hhas
          exact tokens_untouched (V := V) (e := .finalizeRelease v)
            fun heq => hother (Option.some.inj heq).symm
      | shareToken u =>
          exact tokens_untouched (V := V) (e := .shareToken u)
            fun heq => hother (Option.some.inj heq).symm
      | releaseToken u =>
          exact tokens_untouched (V := V) (e := .releaseToken u)
            fun heq => hother (Option.some.inj heq).symm
      | streamStart v u m p =>
          exact tokens_untouched (V := V) (e := .streamStart v u m p)
            fun heq => hother (Option.some.inj heq).symm

/-- As long as the counts are sound, tokens are there for whoever touches them. -/
theorem tokens_live (hs : (machine V).Reachable s) (h : CountsSound s) : TokensLive V s where
  unjoined v hstarted hfinalized := by
    have hunreferred := (h.tokens _).covers.unreferred hfinalized
    have hreleased : (s.shim.streams v).handle = .released := by
      by_contra hheld
      have hreferred := held_by_stream (shim_reachable hs) hstarted hheld
      omega
    exact ⟨hreleased, joined_exited (shim_reachable hs) (Or.inr hreleased)⟩
  live e t guard htouched hnew := by
    have hheld := held_of_touched hs guard htouched hnew
    exact ⟨made_of_held (shim_reachable hs) hheld, (h.tokens t).covers.live hheld⟩
  untouched _ _ guard huntouched := unchanged_of_untouched guard huntouched

/-- All along a run the counts are sound exactly if its steps lose no reference. -/
theorem countsSound_iff (h : (machine V).Run tr s) :
    (machine V).EveryState (fun _ => CountsSound) tr ↔ (machine V).EveryStep CountKept tr :=
  Machine.everyState_iff_everyStep countsSound_init
    (fun tr _ _ hm hsound guard => countsSound_step ⟨tr, hm⟩ hsound guard) h

/-- All along a run whose counts are sound nothing dead is touched. -/
theorem nothingDead_of_countsSound
    (hsound : (machine V).EveryState (fun _ => CountsSound) tr) :
    (machine V).EveryState (fun _ => NothingDead V) tr := by
  intro before after m heq hm
  exact ⟨limits_live ⟨before, hm⟩, tokens_live ⟨before, hm⟩ (hsound before after m heq hm)⟩

/-- **Nothing dead is touched.**  `Stop` reaches limits that are there, in every
run.  All along a run whose plain writes lose no reference no dead token is
touched either, and no token is finalized before the workers on it have been
joined; and the counts are sound exactly as long as none is lost. -/
theorem nothing_dead_touched (h : (machine V).Run tr s) :
    (machine V).EveryState (fun _ => LimitsLive V) tr ∧
    ((machine V).EveryStep CountKept tr →
      (machine V).EveryState (fun _ => NothingDead V) tr) ∧
    ((machine V).EveryState (fun _ => CountsSound) tr ↔
      (machine V).EveryStep CountKept tr) := by
  refine ⟨?_, ?_, countsSound_iff h⟩
  · intro before after m _ hm
    exact limits_live ⟨before, hm⟩
  · intro hkept
    exact nothingDead_of_countsSound ((countsSound_iff h).mpr hkept)

/-- Thread `0` starts a stream and hands its handle to thread `1`, which drops
it when the stream has finished. -/
def handedOn : List Event :=
  [.newStopToken 0 0, .read 0 (.streamStart 0 0 .empty .empty), .write 0, .markHandle 0 0] ++
  [.workerModel 0, .register 0, .workerSolve 0, .workerReturn 0 none, .unregister 0,
    .queue 0 (.pushDone ⟨#[0]⟩), .queue 0 (.notify none), .workerExit 0, .dropFinished 0,
    .finalizeJoin 0].map .shim

/-- Thread `1` drops its reference, then thread `0` starts a second stream and
lets go of the token. -/
def oneAfterTheOther : List Event :=
  handedOn ++
    [.read 1 (.finalizeRelease 0 0), .write 1, .read 0 (.streamStart 1 0 .empty .empty), .write 0,
      .read 0 (.releaseToken 0), .write 0]

/-- Thread `1` drops its reference while thread `0` starts the second stream. -/
def oneBetweenTheOther : List Event :=
  handedOn ++
    [.read 1 (.finalizeRelease 0 0), .read 0 (.streamStart 1 0 .empty .empty), .write 0, .write 1,
      .read 0 (.releaseToken 0), .write 0]

/-- One after the other, all is well. -/
theorem oneAfterTheOther_live :
    (machine tally).EveryState (fun _ => NothingDead tally) oneAfterTheOther := by
  have hrun : (machine tally).Run oneAfterTheOther _ := Machine.run_of_exec _ (by decide +kernel)
  exact (nothing_dead_touched hrun).2.1 (Machine.everyStep_of_exec _ (by decide +kernel))

/-- The reference of the second stream is lost: the token is finalized while
the worker is running. -/
theorem token_dies_early :
    ¬ ∀ (tr : List Event) (s : State Nat Nat Nat Nat), (machine tally).Run tr s →
      NothingDead tally s := by
  intro hall
  obtain ⟨s, hrun, htoken, hstarted, hfinalized⟩ :
      ∃ s, (machine tally).Run oneBetweenTheOther s ∧ (s.shim.streams 1).token = 0 ∧
        (s.shim.streams 1).worker = .started ∧ (s.tokens 0).header.finalized = true :=
    Machine.exists_run_of_exec _ (by decide +kernel)
  have hunjoined := (hall _ _ hrun).tokens.unjoined 1 (by rw [hstarted]; simp)
    (by rw [htoken]; exact hfinalized)
  rw [hstarted] at hunjoined
  cases hunjoined.2

/-! ## Handles that stay -/

/-- Every handle is still with the thread that made it, so what is done with a
token that has not been marked is done by one thread. -/
structure HandlesStay (s : State Req Params Mem Resp) : Prop where
  handles : ∀ v, s.handles v ≠ none
  owners : ∀ t θ, (s.tokens t).thread = some θ → ∀ v, (s.shim.streams v).Owns t →
    s.handles v = some θ
  counting : ∀ θ a n, s.counting θ = some (a, n) → 0 < n →
    (s.tokens a.token).thread = some θ ∧ (s.tokens a.token).header.m_rc = n ∧
      (s.shim.tokens a.token).references.made = true

/-- A thread that may use what is another's is that other. -/
theorem eq_of_on {θ θ' : Nat} (h : Object.On θ (some θ')) : θ' = θ := by
  rcases h with hnone | hsome
  · cases hnone
  · exact Option.some.inj hsome

/-- A token that has not been marked is counted by its own thread. -/
theorem HandlesStay.own (h : HandlesStay s) {θ θ' : Nat}
    {a : Action} (hable : able V s θ a) (hthread : (s.tokens a.token).thread = some θ') :
    θ' = θ := by
  obtain ⟨-, hguard, hhas⟩ := hable
  cases a with
  | shareToken t | releaseToken t | streamStart v t m p =>
      change Object.On θ (s.tokens t).thread at hhas
      rw [show (s.tokens t).thread = some θ' from hthread] at hhas
      exact eq_of_on hhas
  | markToken t =>
      obtain ⟨-, hhas⟩ := hhas
      rw [show (s.tokens t).thread = some θ' from hthread] at hhas
      exact Option.some.inj hhas
  | finalizeRelease v t =>
      obtain ⟨rfl, hon⟩ := hhas
      have hjoined : (s.shim.streams v).handle = .joined := hguard _ rfl
      rw [h.owners _ θ' hthread v ⟨rfl, by rw [hjoined]; simp, by rw [hjoined]; simp⟩] at hon
      exact eq_of_on hon

/-- Where the handles stay, no write loses a reference. -/
theorem HandlesStay.countKept (h : HandlesStay s) (hsound : CountsSound s) :
    CountKept tr s e := by
  cases e with
  | write θ =>
      rintro ⟨a, n⟩ hcounting hn
      obtain ⟨hthread, hcount, -⟩ := h.counting θ a n hcounting hn
      have hle := (hsound.tokens a.token).covers.le
      refine ⟨?_, fun _ => ?_⟩
      · simp only at hn ⊢
        omega
      · simp [hthread]
  | _ => trivial

/-- One step of the shim that counts nothing. -/
theorem handlesStay_shim (h : HandlesStay s) {e : Shim.Event} (guard : enabled V s (.shim e)) :
    HandlesStay (next V s (.shim e)) where
  handles := h.handles
  owners t θ hthread v howns := by
    obtain ⟨huncounted, guard⟩ := guard
    refine h.owners t θ hthread v ((owns_next guard ?_ ?_).mp howns)
    · rintro u m p rfl
      exact huncounted
    · rintro rfl
      exact huncounted
  counting θ a n hcounting hn := by
    obtain ⟨hthread, hcount, hmade⟩ := h.counting θ a n hcounting hn
    exact ⟨hthread, hcount, made_next hmade⟩

/-- One new token, with the thread that makes it. -/
theorem handlesStay_newStopToken (hs : (machine V).Reachable s) (h : HandlesStay s) {θ t : Nat}
    (guard : enabled V s (.newStopToken θ t)) : HandlesStay (next V s (.newStopToken θ t)) := by
  have hunmade : (s.shim.tokens t).references.made = false := guard.2
  have htokens : ∀ u, (next V s (.newStopToken θ t)).tokens u =
      if u = t then ⟨.lean_set_st_header, some θ⟩ else s.tokens u := by
    intro u
    simp [next, Function.update_apply]
  refine ⟨h.handles, ?_, ?_⟩
  · intro u θ' hthread v howns
    have hbefore : (s.shim.streams v).Owns u :=
      (owns_next (e := .newStopToken t) guard (by simp) (by simp)).mp howns
    clear howns
    rw [htokens] at hthread
    split at hthread
    · rename_i heq
      subst heq
      -- nobody owns a token that is yet to be made
      obtain ⟨rfl, hhandle, hheld⟩ := hbefore
      have hstarted := started_of_handle (shim_reachable hs) hhandle
      have hmade := made_of_held (shim_reachable hs)
        (held_by_stream (shim_reachable hs) hstarted hheld)
      rw [hunmade] at hmade
      cases hmade
    · exact h.owners u θ' hthread v hbefore
  · intro θ' a n hcounting hn
    obtain ⟨hthread, hcount, hmade⟩ := h.counting θ' a n hcounting hn
    have hother : a.token ≠ t := by
      rintro rfl
      rw [hunmade] at hmade
      cases hmade
    rw [htokens, if_neg hother]
    exact ⟨hthread, hcount, made_next (V := V) (e := .newStopToken t) hmade⟩

/-- One count read, by the thread the token is with. -/
theorem handlesStay_read (hs : (machine V).Reachable s) (hsound : CountsSound s)
    (h : HandlesStay s) {θ : Nat} {a : Action} (guard : enabled V s (.read θ a)) :
    HandlesStay (next V s (.read θ a)) := by
  refine ⟨h.handles, h.owners, ?_⟩
  intro θ' a' n' hcounting hn
  change Function.update s.counting θ _ θ' = _ at hcounting
  rw [Function.update_apply] at hcounting
  split at hcounting
  · rename_i heq
    subst heq
    obtain ⟨rfl, rfl⟩ := Prod.mk.inj (Option.some.inj hcounting)
    have hmade := made_of_held (shim_reachable hs) (held_of_able hs guard.2)
    cases hthread : (s.tokens a.token).thread with
    | none =>
        have hmarked := (hsound.tokens a.token).marked hthread
        omega
    | some θ =>
        obtain rfl := h.own guard.2 hthread
        exact ⟨hthread, rfl, hmade⟩
  · exact h.counting θ' a' n' hcounting hn

/-- One count written. -/
theorem handlesStay_write (h : HandlesStay s) {θ : Nat}
    (guard : enabled V s (.write θ)) : HandlesStay (next V s (.write θ)) := by
  obtain ⟨a, n, hcounting, hable, hnext⟩ := write_cases guard
  have htokens : ∀ t, (written V s θ a n).tokens t =
      if t = a.token then (s.tokens a.token).count a.update n else s.tokens t := by
    intro t
    simp [written, Function.update_apply]
  have hthread : ∀ t θ', ((written V s θ a n).tokens t).thread = some θ' →
      (s.tokens t).thread = some θ' := by
    intro t θ' ht
    rw [htokens] at ht
    split at ht
    · rename_i heq
      subst heq
      simp only [Object.count] at ht
      split at ht
      · cases ht
      · exact ht
    · exact ht
  rw [hnext]
  refine ⟨?_, ?_, ?_⟩
  · intro v
    cases a with
    | streamStart u t m p =>
        simp only [written, Function.update_apply]
        split
        · simp
        · exact h.handles v
    | _ => exact h.handles v
  · intro t θ' ht v howns
    have hthread := hthread t θ' ht
    have hkept : (s.shim.streams v).Owns t → s.handles v = some θ' :=
      fun hbefore => h.owners t θ' hthread v hbefore
    cases a with
    | shareToken u | releaseToken u =>
        exact hkept ((owns_next ⟨hable.1, hable.2.1 _ rfl⟩ (by simp) (by simp)).mp howns)
    | markToken u => exact hkept howns
    | streamStart u t' m p =>
        have hguard : Shim.enabled V s.shim (.streamStart u t' m p) :=
          ⟨hable.1, hable.2.1 _ rfl⟩
        simp only [written, Function.update_apply]
        split
        · rename_i heq
          subst heq
          obtain ⟨htoken, -⟩ := howns
          obtain rfl : t' = t := by simpa [written, after, Action.event, token_next] using htoken
          rw [h.own hable hthread]
        · rename_i hother
          exact hkept ((owns_next hguard (by simp [Ne.symm hother]) (by simp)).mp howns)
    | finalizeRelease u t' =>
        have hguard : Shim.enabled V s.shim (.finalizeRelease u) := ⟨hable.1, hable.2.1 _ rfl⟩
        by_cases heq : v = u
        · subst heq
          have hreleased : ((Shim.next V s.shim (.finalizeRelease v)).streams v).handle =
              .released := by
            rw [handle_next]
            simp [Event.drops]
          exact absurd hreleased howns.2.2
        · exact hkept ((owns_next hguard (by simp) (by simp [Ne.symm heq])).mp howns)
  · intro θ' a' n' hcounting' hn'
    simp only [written, Function.update_apply] at hcounting'
    split at hcounting'
    · cases hcounting'
    · rename_i hother
      obtain ⟨hthread', hcount', hmade'⟩ := h.counting θ' a' n' hcounting' hn'
      have htoken : a'.token ≠ a.token := by
        intro heq
        rw [heq] at hthread'
        exact hother (h.own hable hthread')
      rw [htokens, if_neg htoken]
      exact ⟨hthread', hcount', made_after hmade'⟩

theorem handlesStay_init : HandlesStay (machine V).init where
  handles _ := by simp [machine]
  owners t _ _ v howns := absurd rfl howns.2.1
  counting _ _ _ hcounting := by cases hcounting

/-- A run that hands no handle on keeps its counts sound, and its handles. -/
theorem handlesStay (h : (machine V).Run tr s) (hkept : ∀ θ v, .markHandle θ v ∉ tr) :
    CountsSound s ∧ HandlesStay s := by
  refine h.holds (I := fun tr s => (∀ θ v, .markHandle θ v ∉ tr) →
    CountsSound s ∧ HandlesStay s) (fun _ => ⟨countsSound_init, handlesStay_init⟩) ?_ hkept
  intro tr s e hrun ih guard hkept
  have hs : (machine V).Reachable s := ⟨tr, hrun⟩
  obtain ⟨hsound, hstay⟩ := ih fun θ v hmem => hkept θ v (List.mem_append_left _ hmem)
  have hcounts : CountsSound (next V s e) ↔ CountKept tr s e := countsSound_step hs hsound guard
  refine ⟨hcounts.mpr (hstay.countKept hsound), ?_⟩
  cases e with
  | shim e => exact handlesStay_shim hstay guard
  | newStopToken θ t => exact handlesStay_newStopToken hs hstay guard
  | markHandle θ v => exact absurd (List.mem_append_right _ List.mem_cons_self) (hkept θ v)
  | read θ a => exact handlesStay_read hs hsound hstay guard
  | write θ => exact handlesStay_write hstay guard

/-- **Handles that stay.**  As long as every handle stays with the thread that
started its stream, nothing dead is touched. -/
theorem nothing_dead_of_handles_stay (h : (machine V).Run tr s)
    (hkept : ∀ θ v, .markHandle θ v ∉ tr) :
    (machine V).EveryState (fun _ => NothingDead V) tr := by
  refine nothingDead_of_countsSound ?_
  rintro before after m rfl hm
  exact (handlesStay hm fun θ v hmem => hkept θ v (List.mem_append_left _ hmem)).1

/-- Thread `0` hands the token on, and both threads start a stream on it. -/
def tokenHandedOn : List Event :=
  [.newStopToken 0 0, .read 0 (.streamStart 0 0 .empty .empty), .write 0,
    .read 0 (.markToken 0), .write 0, .read 0 (.shareToken 0),
    .read 1 (.streamStart 1 0 .empty .empty), .write 0, .write 1, .read 0 (.releaseToken 0),
    .read 1 (.releaseToken 0), .write 1, .write 0]

/-- A token that is marked is counted atomically. -/
theorem tokenHandedOn_live :
    (machine tally).EveryState (fun _ => NothingDead tally) tokenHandedOn := by
  have hrun : (machine tally).Run tokenHandedOn _ := Machine.run_of_exec _ (by decide +kernel)
  exact nothing_dead_of_handles_stay hrun (by simp [tokenHandedOn])

end Cpsat.Shim.Counting
