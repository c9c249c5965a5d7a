import Mathlib.Algebra.BigOperators.Ring.List
import Mathlib.Algebra.Order.BigOperators.Group.List
import Mathlib.Algebra.Order.Ring.Abs
import Mathlib.Algebra.Order.Ring.Int
import Mathlib.Algebra.Ring.Parity
import Mathlib.Order.Bounds.Basic
import CpsatBindings.ClampedIntervals

/-!
# What accumulating loops compute

Loops over a list that carry one value along, and the value they end with:
counting, exclusive or, the greatest element, a sum that wraps, and a product
that saturates.

A wrapped sum forgets nothing but multiples of the word size
(`foldl_wrapping_add`).  A saturating product is exact as soon as the true one
is in range (`foldl_saturating_mul`): what saturates on the way there is lost
to a later zero.
-/

namespace Loops

variable {α β : Type*}

/-- Counting one by one counts. -/
theorem foldl_count (p : α → Bool) (l : List α) (n : ℕ) :
    l.foldl (fun num x => if p x then num + 1 else num) n = n + l.countP p := by
  induction l generalizing n with
  | nil => simp
  | cons x rest ih =>
      rw [List.foldl_cons, ih, List.countP_cons]
      split <;> omega

/-- An exclusive or is the parity of the count. -/
theorem foldl_xor (p : α → Bool) (l : List α) (b : Bool) :
    l.foldl (fun sum x => sum ^^ p x) b = (b ^^ decide (Odd (l.countP p))) := by
  induction l generalizing b with
  | nil => simp
  | cons x rest ih =>
      rw [List.foldl_cons, ih, List.countP_cons]
      cases hx : p x with
      | false => simp
      | true =>
          have hflip : decide (Odd (rest.countP p + 1)) = !decide (Odd (rest.countP p)) := by
            rw [Bool.eq_iff_iff, decide_eq_true_iff, Nat.odd_add_one]
            simp
          simp only [if_true, hflip, Bool.xor_true]
          cases b <;> simp

/-- The greatest of the start and the values. -/
theorem isGreatest_foldl_max_start [LinearOrder β] (f : α → β) (l : List α) (b : β) :
    IsGreatest {y | y = b ∨ ∃ x ∈ l, f x = y} (l.foldl (fun m x => max m (f x)) b) := by
  induction l generalizing b with
  | nil => simp
  | cons x rest ih =>
      obtain ⟨hmem, hupper⟩ := ih (max b (f x))
      rw [List.foldl_cons]
      have hstart : max b (f x) ≤ rest.foldl (fun m x => max m (f x)) (max b (f x)) :=
        hupper (Or.inl rfl)
      refine ⟨?_, ?_⟩
      · rcases hmem with heq | ⟨z, hz, hmax⟩
        · rw [heq]
          rcases max_choice b (f x) with hb | hx
          · exact Or.inl hb
          · exact Or.inr ⟨x, List.mem_cons_self, hx.symm⟩
        · exact Or.inr ⟨z, List.mem_cons_of_mem _ hz, hmax⟩
      · rintro y (rfl | ⟨z, hz, rfl⟩)
        · exact (le_max_left _ _).trans hstart
        · rcases List.mem_cons.mp hz with rfl | hz
          · exact (le_max_right _ _).trans hstart
          · exact hupper (Or.inr ⟨z, hz, rfl⟩)

/-- The greatest of the values, when there are some and none is below the
start. -/
theorem isGreatest_foldl_max [LinearOrder β] (f : α → β) {l : List α} (hl : l ≠ []) {b : β}
    (hb : ∀ x ∈ l, b ≤ f x) :
    IsGreatest {y | ∃ x ∈ l, f x = y} (l.foldl (fun m x => max m (f x)) b) := by
  obtain ⟨hmem, hupper⟩ := isGreatest_foldl_max_start f l b
  refine ⟨?_, fun y hy => hupper (Or.inr hy)⟩
  rcases hmem with heq | hvalue
  · obtain ⟨x, hx⟩ := List.exists_mem_of_ne_nil l hl
    refine ⟨x, hx, le_antisymm (hupper (Or.inr ⟨x, hx, rfl⟩)) ?_⟩
    rw [heq]
    exact hb x hx
  · exact hvalue

/-- A sum that wraps is the sum, wrapped once. -/
theorem foldl_wrapping_add (f g : α → ℤ) {w : ℕ} (hfg : ∀ x, f x = (g x).bmod w) (l : List α)
    (z : ℤ) :
    (l.foldl (fun sum x => (sum + f x).bmod w) (z.bmod w)) = (z + (l.map g).sum).bmod w := by
  induction l generalizing z with
  | nil => simp
  | cons x rest ih =>
      rw [List.foldl_cons, hfg, Int.bmod_add_bmod, Int.add_bmod_bmod, ih, List.map_cons,
        List.sum_cons, Int.add_assoc]

/-- A sum that saturates at both ends of `[-b, b)` is the sum, if every sum on
the way is in range. -/
theorem foldl_saturating_add (f : α → ℤ) {b : ℤ} (l : List α) {z : ℤ}
    (h : ∀ part, part <+: l → |z + (part.map f).sum| < b) :
    l.foldl (fun sum x => Intervals.clamp (-b) (b - 1) (sum + f x)) z = z + (l.map f).sum := by
  induction l generalizing z with
  | nil => simp
  | cons x rest ih =>
      have hfirst := h [x] ⟨rest, rfl⟩
      rw [List.map_singleton, List.sum_singleton] at hfirst
      obtain ⟨hlow, hhigh⟩ := abs_lt.mp hfirst
      have hexact : Intervals.clamp (-b) (b - 1) (z + f x) = z + f x :=
        Intervals.clamp_of_mem (by omega) (by omega)
      rw [List.foldl_cons, hexact, List.map_cons, List.sum_cons, ← Int.add_assoc]
      refine ih fun part hpart => ?_
      have hnext := h (x :: part) (List.prefix_cons_inj x |>.mpr hpart)
      rwa [List.map_cons, List.sum_cons, ← Int.add_assoc] at hnext

/-- A sum of nonnegative values that saturates is cut off once. -/
theorem foldl_capped_add (f : α → ℤ) {a b : ℤ} (ha : a ≤ 0) (l : List α) {z : ℤ} (hz : 0 ≤ z)
    (hzb : z ≤ b) (hf : ∀ x ∈ l, 0 ≤ f x) :
    l.foldl (fun sum x => Intervals.clamp a b (sum + Intervals.clamp a b (f x))) z =
      min b (z + (l.map f).sum) := by
  induction l generalizing z with
  | nil => simp [hzb]
  | cons x rest ih =>
      have hx := hf x List.mem_cons_self
      have hrest : 0 ≤ (rest.map f).sum := List.sum_nonneg (by
        rw [List.forall_mem_map]
        exact fun y hy => hf y (List.mem_cons_of_mem _ hy))
      rw [List.foldl_cons, List.map_cons, List.sum_cons, ih]
      · unfold Intervals.clamp
        omega
      · unfold Intervals.clamp
        omega
      · unfold Intervals.clamp
        omega
      · exact fun y hy => hf y (List.mem_cons_of_mem _ hy)

/-- A product that saturates at both ends of `[-b, b)` is the product, if that
is in range. -/
theorem foldl_saturating_mul (f : α → ℤ) {b : ℤ} (l : List α) {p : ℤ}
    (h : |p * (l.map f).prod| < b) :
    l.foldl (fun prod x => Intervals.clamp (-b) (b - 1) (prod * f x)) p =
      p * (l.map f).prod := by
  induction l generalizing p with
  | nil => simp
  | cons x rest ih =>
      rw [List.foldl_cons, List.map_cons, List.prod_cons]
      rw [List.map_cons, List.prod_cons, ← mul_assoc] at h
      by_cases hzero : (rest.map f).prod = 0
      · -- whatever has saturated is multiplied by zero
        rw [ih (by simpa [hzero] using h), hzero, mul_zero, mul_zero, mul_zero]
      · have hfits : |p * f x| < b := by
          refine lt_of_le_of_lt ?_ h
          rw [abs_mul (p * f x)]
          exact le_mul_of_one_le_right (abs_nonneg _) (Int.one_le_abs hzero)
        obtain ⟨hlow, hhigh⟩ := abs_lt.mp hfits
        have hexact : Intervals.clamp (-b) (b - 1) (p * f x) = p * f x :=
          Intervals.clamp_of_mem (by omega) (by omega)
        rw [hexact, ih h, mul_assoc]

/-- No part of a list, in no order, sums up to more than the greatest
contributions of the whole. -/
theorem subperm_sum_le {f most : α → ℤ} {part l : List α} (h : part.Subperm l)
    (hf : ∀ x ∈ l, f x ≤ most x) (hmost : ∀ x ∈ l, 0 ≤ most x) :
    (part.map f).sum ≤ (l.map most).sum := by
  obtain ⟨m, hperm, hsub⟩ := h
  have hpointwise : (m.map f).sum ≤ (m.map most).sum :=
    List.sum_le_sum fun x hx => hf x (hsub.subset hx)
  have hpart : (m.map most).sum ≤ (l.map most).sum := by
    refine (hsub.map most).sum_le_sum fun y hy => ?_
    obtain ⟨x, hx, rfl⟩ := List.mem_map.mp hy
    exact hmost x hx
  rw [← (hperm.map f).sum_eq]
  exact hpointwise.trans hpart

/-- Nor to less than the least ones. -/
theorem le_subperm_sum {f least : α → ℤ} {part l : List α} (h : part.Subperm l)
    (hf : ∀ x ∈ l, least x ≤ f x) (hleast : ∀ x ∈ l, least x ≤ 0) :
    (l.map least).sum ≤ (part.map f).sum := by
  have hneg : ∀ (g : α → ℤ) (l : List α), (l.map fun x => -g x).sum = -(l.map g).sum := by
    intro g l
    rw [List.sum_neg, List.map_map]
    rfl
  have hopposite := subperm_sum_le h (fun x hx => neg_le_neg (hf x hx))
    (fun x hx => neg_nonneg.mpr (hleast x hx))
  rw [hneg, hneg] at hopposite
  omega

end Loops
