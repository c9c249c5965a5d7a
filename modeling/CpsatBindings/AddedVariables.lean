import Mathlib.Data.Set.Image
import Mathlib.Order.Bounds.Basic

/-!
# Systems that gain variables

A rewriting that adds variables to a system of constraints keeps its solutions
if each of them can be continued, and if nothing but the continued ones is a
solution afterwards.

* `of_push`, `of_iff`, `trans` — one variable more, other constraints on the
  same variables, one rewriting after another.
* `image_eq` — what depends on the old variables only takes the same values,
  so that the same one is best.
* `least_iff` — the best solutions are those that continue to best ones.
-/

namespace Extension

variable {α β : Type*}

/-- An array is its beginning and its end. -/
theorem extract_append {x : Array α} {n : ℕ} (hn : n ≤ x.size) :
    x.extract 0 n ++ x.extract n x.size = x := by
  rw [Array.extract_append_extract, Nat.zero_min, Nat.max_eq_right hn, Array.extract_size]

/-- Constraints on a number of variables. -/
structure System (α : Type*) where
  size : ℕ
  Holds : Array α → Prop

namespace System

variable {S T U : System α}

/-- The assignments of the right size. -/
def Solutions (S : System α) : Set (Array α) := {x | x.size = S.size ∧ S.Holds x}

/-- `T` has the variables of `S` and maybe more, and its solutions are those of
`S` with values for the new ones. -/
structure ExtendedBy (S T : System α) : Prop where
  size_le : S.size ≤ T.size
  holds_iff : ∀ x : Array α, x.size = S.size →
    (S.Holds x ↔ ∃ y : Array α, (x ++ y).size = T.size ∧ T.Holds (x ++ y))

namespace ExtendedBy

/-- Other constraints on the same variables. -/
theorem of_iff (hsize : S.size = T.size) (h : ∀ x : Array α, x.size = S.size →
    (S.Holds x ↔ T.Holds x)) : S.ExtendedBy T where
  size_le := hsize.le
  holds_iff x hx := by
    rw [h x hx]
    constructor
    · intro hT
      exact ⟨#[], by rwa [Array.append_empty, ← hsize], by rwa [Array.append_empty]⟩
    · rintro ⟨y, hy, hT⟩
      have hempty : y = #[] := by
        rw [Array.size_append] at hy
        exact Array.size_eq_zero_iff.mp (by omega)
      rwa [hempty, Array.append_empty] at hT

/-- One variable more. -/
theorem of_push (hsize : T.size = S.size + 1) (h : ∀ x : Array α, x.size = S.size →
    (S.Holds x ↔ ∃ v, T.Holds (x.push v))) : S.ExtendedBy T where
  size_le := by omega
  holds_iff x hx := by
    rw [h x hx]
    constructor
    · rintro ⟨v, hT⟩
      exact ⟨#[v], by rw [Array.size_append, hx, hsize]; rfl, by rwa [← Array.push_eq_append]⟩
    · rintro ⟨y, hy, hT⟩
      rw [Array.size_append] at hy
      obtain ⟨v, rfl⟩ := Array.size_eq_one_iff.mp (show y.size = 1 by omega)
      exact ⟨v, by rwa [Array.push_eq_append]⟩

/-- A system extends itself by nothing. -/
theorem refl (S : System α) : S.ExtendedBy S := of_iff rfl fun _ _ => Iff.rfl

/-- Extensions compose. -/
theorem trans (hST : S.ExtendedBy T) (hTU : T.ExtendedBy U) : S.ExtendedBy U where
  size_le := hST.size_le.trans hTU.size_le
  holds_iff x hx := by
    rw [hST.holds_iff x hx]
    constructor
    · rintro ⟨y, hy, hT⟩
      obtain ⟨z, hz, hU⟩ := (hTU.holds_iff (x ++ y) hy).mp hT
      exact ⟨y ++ z, by rwa [← Array.append_assoc], by rwa [← Array.append_assoc]⟩
    · rintro ⟨y, hy, hU⟩
      -- the first of the new values are those of `T`
      have hle := hTU.size_le
      have hge := hST.size_le
      rw [Array.size_append] at hy
      have hsplit : x ++ y = x ++ y.extract 0 (T.size - S.size) ++
          y.extract (T.size - S.size) y.size := by
        rw [Array.append_assoc, extract_append (by omega)]
      refine ⟨y.extract 0 (T.size - S.size), ?_, ?_⟩
      · rw [Array.size_append, Array.size_extract]
        omega
      · refine (hTU.holds_iff _ ?_).mpr ⟨y.extract (T.size - S.size) y.size, ?_, ?_⟩
        · rw [Array.size_append, Array.size_extract]
          omega
        · rw [← hsplit, Array.size_append, hy]
        · rwa [← hsplit]

variable (h : S.ExtendedBy T)

include h

/-- Every solution of the rewritten system continues one of the first. -/
theorem restrict {z : Array α} (hz : z ∈ T.Solutions) : z.extract 0 S.size ∈ S.Solutions := by
  obtain ⟨hsize, hT⟩ := hz
  have hle := h.size_le
  have hfront : (z.extract 0 S.size).size = S.size := by
    rw [Array.size_extract]
    omega
  have hsplit : z.extract 0 S.size ++ z.extract S.size z.size = z := extract_append (by omega)
  exact ⟨hfront, (h.holds_iff _ hfront).mpr
    ⟨z.extract S.size z.size, by rw [hsplit, hsize], by rwa [hsplit]⟩⟩

/-- What depends on the variables of `S` only. -/
theorem image_eq {f : Array α → β} (hf : ∀ x y : Array α, x.size = S.size → f (x ++ y) = f x) :
    f '' S.Solutions = f '' T.Solutions := by
  ext b
  constructor
  · rintro ⟨x, ⟨hx, hS⟩, rfl⟩
    obtain ⟨y, hy, hT⟩ := (h.holds_iff x hx).mp hS
    exact ⟨x ++ y, ⟨hy, hT⟩, hf x y hx⟩
  · rintro ⟨z, hz, rfl⟩
    have hle := h.size_le
    have hsize := hz.1
    have hsplit : z.extract 0 S.size ++ z.extract S.size z.size = z := extract_append (by omega)
    refine ⟨z.extract 0 S.size, h.restrict hz, ?_⟩
    rw [← hf _ (z.extract S.size z.size) (h.restrict hz).1, hsplit]

/-- A solution is a best one exactly if it continues to a best one. -/
theorem least_iff [LE β] {f : Array α → β}
    (hf : ∀ x y : Array α, x.size = S.size → f (x ++ y) = f x) {x : Array α}
    (hx : x.size = S.size) :
    (x ∈ S.Solutions ∧ f x ∈ lowerBounds (f '' S.Solutions)) ↔
      ∃ y : Array α, x ++ y ∈ T.Solutions ∧ f (x ++ y) ∈ lowerBounds (f '' T.Solutions) := by
  have hsolution : x ∈ S.Solutions ↔ ∃ y : Array α, x ++ y ∈ T.Solutions :=
    (and_iff_right hx).trans (h.holds_iff x hx)
  rw [h.image_eq hf, hsolution, ← exists_and_right]
  exact exists_congr fun y => by rw [hf x y hx]

end ExtendedBy

end System

end Extension
