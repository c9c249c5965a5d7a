import Mathlib.Data.Int.Order.Basic

/-!
# Reference counts

Lean counts the references to an object in the header of the object, in `m_rc`.
A positive `m_rc` is the count of an object that one thread has to itself; a
negative one is the count, negated, of an object marked as multi-threaded.
`lean.h` updates a positive count by a plain read and a plain write, and a
negative one by an atomic instruction.

* `References` — who refers to an object: what the count ought to be.
* `Header` — the header, and the functions that update it once they have read
  `m_rc`.
* `Header.Covers` — the count is not short of the references there are.
* `Object.Sound` — nor is an object taken for one thread's that is not:
  `sound_count_iff` says exactly which updates keep it so.
-/

/-! ## Who refers to an object -/

/-- The references to an object: the *visible* ones are held by the program at
large, the *owned* ones by owners that are told apart. -/
structure References where
  made : Bool
  visible : Nat
  owned : Nat

namespace References

/-- Before the object is made. -/
def absent : References := ⟨false, 0, 0⟩

/-- A new object, with one visible reference. -/
def fresh : References := ⟨true, 1, 0⟩

/-- An owner takes a reference. -/
def own (r : References) : References := { r with owned := r.owned + 1 }

/-- An owner gives its reference back. -/
def disown (r : References) : References := { r with owned := r.owned - 1 }

/-- A visible reference is copied. -/
def share (r : References) : References := { r with visible := r.visible + 1 }

/-- A visible reference is dropped. -/
def release (r : References) : References := { r with visible := r.visible - 1 }

/-- All references. -/
def total (r : References) : Nat := r.visible + r.owned

/-- The owned references are those of `n` owners, and before the object is made
there are none of either kind. -/
structure OwnedBy (r : References) (n : Nat) : Prop where
  owned : r.owned = n
  unmade : r.made = false → r.total = 0

variable {r : References} {n : Nat}

/-- An owner more is a reference more. -/
theorem total_own : r.own.total = r.total + 1 := by
  simp only [total, own]
  omega

theorem total_share : r.share.total = r.total + 1 := by
  simp only [total, share]
  omega

/-- An owner less is a reference less. -/
theorem total_disown (howned : 0 < r.owned) : r.disown.total = r.total - 1 := by
  simp only [total, disown]
  omega

theorem total_release (hvisible : 0 < r.visible) : r.release.total = r.total - 1 := by
  simp only [total, release]
  omega

/-- Whoever sees the object refers to it. -/
theorem total_pos_of_visible (hvisible : 0 < r.visible) : 0 < r.total := by
  rw [total]
  omega

theorem ownedBy_absent : OwnedBy absent 0 := ⟨rfl, fun _ => rfl⟩

theorem ownedBy_fresh : OwnedBy fresh 0 := ⟨rfl, by simp [fresh]⟩

namespace OwnedBy

/-- Whoever holds a reference holds it to an object that has been made. -/
theorem made (h : OwnedBy r n) (hheld : 0 < r.total) : r.made = true := by
  by_contra hunmade
  have hnone := h.unmade (Bool.eq_false_iff.mpr hunmade)
  omega

/-- Of an object that has been made, the owners are all there is to know. -/
theorem of_made (hmade : r.made = true) (howned : r.owned = n) : OwnedBy r n := by
  refine ⟨howned, ?_⟩
  intro hunmade
  rw [hmade] at hunmade
  cases hunmade

/-- One owner more. -/
theorem own (h : OwnedBy r n) (hheld : 0 < r.total) : OwnedBy r.own (n + 1) :=
  of_made (h.made hheld) (congrArg (· + 1) h.owned)

/-- One owner less. -/
theorem disown (h : OwnedBy r (n + 1)) : OwnedBy r.disown n := by
  have howned := h.owned
  refine of_made (h.made ?_) ?_
  · rw [total]
    omega
  · simp only [References.disown]
    omega

theorem share (h : OwnedBy r n) (hheld : 0 < r.total) : OwnedBy r.share n :=
  of_made (h.made hheld) h.owned

theorem release (h : OwnedBy r n) (hheld : 0 < r.total) : OwnedBy r.release n :=
  of_made (h.made hheld) h.owned

end OwnedBy

end References

/-! ## The header of an object -/

/-- The header of a Lean object, and whether the object has been finalized. -/
structure Header where
  m_rc : Int
  finalized : Bool
deriving DecidableEq, Repr

/-- What is done to a count. -/
inductive Update where
  | inc
  | dec
  | mark
deriving DecidableEq, Repr

/-- What an update does to the number of references. -/
def Update.references : Update → Nat → Nat
  | .inc, refs => refs + 1
  | .dec, refs => refs - 1
  | .mark, refs => refs

/-- Having read `n`, the update leaves a positive count behind. -/
def Update.Unmarks (n : Int) : Update → Prop
  | .inc => 0 < n
  | .dec => 1 < n
  | .mark => False

instance (n : Int) : (u : Update) → Decidable (u.Unmarks n)
  | .inc => inferInstanceAs (Decidable (0 < n))
  | .dec => inferInstanceAs (Decidable (1 < n))
  | .mark => inferInstanceAs (Decidable False)

/-- Only plain updates do. -/
theorem Update.Unmarks.pos {n : Int} {u : Update} (h : u.Unmarks n) : 0 < n := by
  cases u with
  | inc => exact h
  | dec => exact lt_trans Int.zero_lt_one h
  | mark => exact absurd h id

namespace Header

/-- `lean_set_st_header`: a new object, referred to once. -/
def lean_set_st_header : Header := ⟨1, false⟩

/-- `lean_inc_ref`, which has read `n`: a plain write of `n + 1`, or
`atomic_fetch_sub`.  Objects with `m_rc = 0` are not counted. -/
def lean_inc_ref (h : Header) (n : Int) : Header :=
  if 0 < n then { h with m_rc := n + 1 }
  else if n < 0 then { h with m_rc := h.m_rc - 1 }
  else h

/-- `lean_dec_ref`, which has read `n`: a plain write of `n - 1`, or the end of
the object; on a marked object `atomic_fetch_add`, and the end of the object if
that finds `-1`. -/
def lean_dec_ref (h : Header) (n : Int) : Header :=
  if 1 < n then { h with m_rc := n - 1 }
  else if n = 1 then { h with finalized := true }
  else if n < 0 then
    if h.m_rc = -1 then { h with finalized := true } else { h with m_rc := h.m_rc + 1 }
  else h

/-- `lean_mark_mt` of the object, which has read `n`. -/
def lean_mark_mt (h : Header) (n : Int) : Header :=
  if 0 < n then { h with m_rc := -n } else h

/-- An update that has read `n`. -/
def update (h : Header) : Update → Int → Header
  | .inc => h.lean_inc_ref
  | .dec => h.lean_dec_ref
  | .mark => h.lean_mark_mt

/-- The count is not short of the references, and an object that is referred to
has not been finalized. -/
def Covers (h : Header) (refs : Nat) : Prop :=
  if h.finalized then refs = 0 else refs ≤ h.m_rc.natAbs

variable {h : Header} {u : Update} {n : Int} {refs : Nat}

/-- A new object is referred to once. -/
theorem covers_new : lean_set_st_header.Covers 1 := by simp [lean_set_st_header, Covers]

/-- As long as it is referred to, a covered object has not been finalized. -/
theorem Covers.live (hcovers : h.Covers refs) (hrefs : 0 < refs) : h.finalized = false := by
  by_contra hfinalized
  rw [Bool.not_eq_false] at hfinalized
  simp only [Covers, hfinalized, if_true] at hcovers
  omega

/-- The references are no more than the count. -/
theorem Covers.le (hcovers : h.Covers refs) : refs ≤ h.m_rc.natAbs := by
  unfold Covers at hcovers
  split at hcovers <;> omega

/-- Nobody refers to what has been finalized. -/
theorem Covers.unreferred (hcovers : h.Covers refs) (hfinalized : h.finalized = true) :
    refs = 0 := by
  simpa [Covers, hfinalized] using hcovers

/-- **Plain updates.**  A plain update keeps the count from falling short
exactly if the value it has read is not short itself. -/
theorem covers_update_iff (hlive : h.finalized = false) (hrefs : 0 < refs) (hn : 0 < n) :
    (h.update u n).Covers (u.references refs) ↔ (refs : Int) ≤ n := by
  cases u with
  | inc =>
      simp only [update, lean_inc_ref, hn, if_true, Covers, hlive, Bool.false_eq_true, if_false,
        Update.references]
      omega
  | mark =>
      simp only [update, lean_mark_mt, hn, if_true, Covers, hlive, Bool.false_eq_true, if_false,
        Update.references]
      omega
  | dec =>
      by_cases hlast : n = 1
      · simp only [update, lean_dec_ref, hlast, lt_irrefl, if_true, if_false, Covers,
          Update.references]
        omega
      · have hmore : 1 < n := by omega
        simp only [update, lean_dec_ref, hmore, if_true, Covers, hlive, Bool.false_eq_true,
          if_false, Update.references]
        omega

/-- **Atomic updates.**  On a marked object an atomic update keeps the count
from falling short. -/
theorem covers_update (hcovers : h.Covers refs) (hrefs : 0 < refs) (hn : n < 0)
    (hmarked : h.m_rc < 0) : (h.update u n).Covers (u.references refs) := by
  have hlive := hcovers.live hrefs
  have hle := hcovers.le
  have hplain : ¬ 0 < n := by omega
  cases u with
  | inc =>
      simp only [update, lean_inc_ref, hplain, hn, if_true, if_false, Covers, hlive,
        Bool.false_eq_true, Update.references]
      omega
  | mark =>
      simpa only [update, lean_mark_mt, hplain, if_false, Update.references] using hcovers
  | dec =>
      have hmore : ¬ 1 < n := by omega
      have hlast : ¬ n = 1 := by omega
      by_cases hone : h.m_rc = -1
      · simp only [update, lean_dec_ref, hmore, hlast, hn, hone, if_true, if_false, Covers,
          Update.references]
        omega
      · simp only [update, lean_dec_ref, hmore, hlast, hn, hone, if_true, if_false, Covers, hlive,
          Bool.false_eq_true, Update.references]
        omega

/-! ## Marks -/

/-- The count an update leaves behind. -/
theorem update_m_rc : (h.update u n).m_rc =
    match u with
    | .inc => if 0 < n then n + 1 else if n < 0 then h.m_rc - 1 else h.m_rc
    | .dec =>
        if 1 < n then n - 1
        else if n = 1 then h.m_rc
        else if n < 0 then if h.m_rc = -1 then h.m_rc else h.m_rc + 1
        else h.m_rc
    | .mark => if 0 < n then -n else h.m_rc := by
  cases u <;> simp only [update, lean_inc_ref, lean_dec_ref, lean_mark_mt, apply_ite Header.m_rc]

/-- A marked object stays marked unless a plain update leaves a positive count
behind. -/
theorem neg_update_iff (hmarked : h.m_rc < 0) :
    (h.update u n).m_rc < 0 ↔ ¬ u.Unmarks n := by
  rw [update_m_rc]
  cases u with
  | inc =>
      simp only [Update.Unmarks]
      split_ifs <;> omega
  | mark =>
      simp only [Update.Unmarks, not_false_eq_true, iff_true]
      split_ifs <;> omega
  | dec =>
      simp only [Update.Unmarks]
      split_ifs <;> omega

/-- A mark makes a count negative. -/
theorem neg_mark (hn : 0 < n) : (h.update .mark n).m_rc < 0 := by
  simp only [update_m_rc, hn, if_true]
  omega

/-- A plain count leaves an unmarked object unmarked. -/
theorem nonneg_update (hunmarked : 0 ≤ h.m_rc) (hn : 0 < n) (hu : u ≠ .mark) :
    0 ≤ (h.update u n).m_rc := by
  rw [update_m_rc]
  cases u with
  | inc =>
      simp only [hn, if_true]
      omega
  | mark => exact absurd rfl hu
  | dec =>
      simp only
      split_ifs <;> omega

end Header

/-! ## Objects and threads -/

/-- An object and the one thread that has it to itself, if it has not been
marked. -/
structure Object where
  header : Header
  thread : Option Nat

namespace Object

/-- Thread `θ` may use the object. -/
def On (θ : Nat) (thread : Option Nat) : Prop := thread = none ∨ thread = some θ

instance (θ : Nat) (thread : Option Nat) : Decidable (On θ thread) :=
  inferInstanceAs (Decidable (_ ∨ _))

/-- An update that has read `n`; a marked object is for all threads. -/
def count (o : Object) (u : Update) (n : Int) : Object where
  header := o.header.update u n
  thread := if u = .mark then none else o.thread

/-- The count is not short of the references, and negative exactly for an
object that is for all threads. -/
structure Sound (o : Object) (refs : Nat) : Prop where
  covers : o.header.Covers refs
  marked : o.thread = none → o.header.m_rc < 0
  unmarked : o.thread ≠ none → 0 ≤ o.header.m_rc

variable {o : Object} {u : Update} {n : Int} {refs : Nat}

/-- **One update.**  It keeps an object sound exactly if it is atomic, or has
read a value that is not short of the references there are now, and leaves no
positive count to an object that has been marked meanwhile. -/
theorem sound_count_iff (h : o.Sound refs) (hrefs : 0 < refs) (hn : n ≠ 0)
    (hread : n < 0 → o.thread = none) (hmark : u = .mark → o.thread ≠ none) :
    (o.count u n).Sound (u.references refs) ↔
      (0 < n → (refs : Int) ≤ n ∧ (u.Unmarks n → o.thread ≠ none)) := by
  rcases lt_or_gt_of_ne hn with hatomic | hplain
  · -- only marked objects are updated atomically
    have hshared := hread hatomic
    have hmarked := h.marked hshared
    have hu : u ≠ .mark := fun heq => hmark heq hshared
    have hkeeps : ¬ u.Unmarks n := fun hunmarks => by
      have hpos := hunmarks.pos
      omega
    refine iff_of_true ?_ (fun hpos => by omega)
    refine ⟨Header.covers_update h.covers hrefs hatomic hmarked, ?_, ?_⟩
    · intro _
      exact (Header.neg_update_iff hmarked).mpr hkeeps
    · intro hthread
      simp only [count, hu, if_false] at hthread
      exact absurd hshared hthread
  · have hcovers := Header.covers_update_iff (u := u) (h.covers.live hrefs) hrefs hplain
    constructor
    · intro hsound _
      refine ⟨hcovers.mp hsound.covers, ?_⟩
      intro hunmarks hshared
      have hneg := hsound.marked (by simp [count, hshared])
      exact (Header.neg_update_iff (h.marked hshared)).mp hneg hunmarks
    · intro hkept
      obtain ⟨hle, hunmarks⟩ := hkept hplain
      refine ⟨hcovers.mpr hle, ?_, ?_⟩
      · intro hthread
        by_cases hu : u = .mark
        · subst hu
          exact Header.neg_mark hplain
        · simp only [count, hu, if_false] at hthread
          refine (Header.neg_update_iff (h.marked hthread)).mpr ?_
          exact fun hpositive => hunmarks hpositive hthread
      · intro hthread
        by_cases hu : u = .mark
        · simp [count, hu] at hthread
        · simp only [count, hu, if_false] at hthread
          exact Header.nonneg_update (h.unmarked hthread) hplain hu

end Object
