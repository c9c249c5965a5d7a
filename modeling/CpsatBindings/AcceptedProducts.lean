import CpsatBindings.AcceptedExpressions

/-!
# Accepted products

The validator bounds a product by multiplying intervals, with saturating
products of their ends.  An interval that has reached an end of the `int64`
range keeps touching one, as long as the factors can be other than zero; so
where the last interval touches neither, nothing has been lost on the way and
the product is in it.
-/

namespace Cpsat.Checker

open Cpsat.Proto Intervals

/-- The least of the four products of the ends of two intervals. -/
def leastCorner (lo hi m M : ℤ) : ℤ := min (min (lo * m) (hi * M)) (min (lo * M) (hi * m))

/-- The greatest product of an end of the one and an end of the other. -/
def greatestCorner (lo hi m M : ℤ) : ℤ := max (max (lo * m) (hi * M)) (max (lo * M) (hi * m))

section Corners

variable {lo hi m M p x : ℤ}

/-- A product is between the least and the greatest of the four products of the
ends. -/
theorem mul_between (hlo : lo ≤ p) (hhi : p ≤ hi) (hm : m ≤ x) (hM : x ≤ M) :
    leastCorner lo hi m M ≤ p * x ∧ p * x ≤ greatestCorner lo hi m M := by
  have hends : ∀ y z w : ℤ, y ≤ z → z ≤ w → ∀ k : ℤ,
      min (k * y) (k * w) ≤ k * z ∧ k * z ≤ max (k * y) (k * w) := by
    intro y z w hyz hzw k
    rcases le_total 0 k with hpos | hneg
    · have hbelow := mul_le_mul_of_nonneg_left hyz hpos
      have habove := mul_le_mul_of_nonneg_left hzw hpos
      omega
    · have hbelow := mul_le_mul_of_nonpos_left hyz hneg
      have habove := mul_le_mul_of_nonpos_left hzw hneg
      omega
  have hfirst := hends lo p hi hlo hhi x
  have hlower := hends m x M hm hM lo
  have hupper := hends m x M hm hM hi
  rw [Int.mul_comm x lo, Int.mul_comm x p, Int.mul_comm x hi] at hfirst
  unfold leastCorner greatestCorner
  omega

/-- The interval touches an end of the symmetric range. -/
def Saturated (lo hi : ℤ) : Prop := lo ≤ -(2 ^ 63 - 1) ∨ 2 ^ 63 - 1 ≤ hi

/-- Multiplying by an interval that contains more than zero keeps it touching
one. -/
theorem saturated_mul (h : Saturated lo hi) (hmM : m ≤ M) (hne : ¬ (m = 0 ∧ M = 0)) :
    Saturated (leastCorner lo hi m M) (greatestCorner lo hi m M) := by
  unfold Saturated leastCorner greatestCorner at *
  by_cases hpos : 1 ≤ M
  · rcases h with hlo | hhi
    · have hcorner : lo * M ≤ lo * 1 := mul_le_mul_of_nonpos_left hpos (by omega)
      omega
    · have hcorner : hi * 1 ≤ hi * M := mul_le_mul_of_nonneg_left hpos (by omega)
      omega
  · have hneg : m ≤ -1 := by omega
    rcases h with hlo | hhi
    · have hcorner : lo * -1 ≤ lo * m := mul_le_mul_of_nonpos_left hneg (by omega)
      omega
    · have hcorner : hi * m ≤ hi * -1 := mul_le_mul_of_nonneg_left hneg (by omega)
      omega

end Corners

/-- The interval that is the product of two. -/
def productInterval (i j : ClosedInterval) : ClosedInterval :=
  (min (min (CapProd i.1 j.1) (CapProd i.2 j.2)) (min (CapProd i.1 j.2) (CapProd i.2 j.1)),
    max (max (CapProd i.1 j.1) (CapProd i.2 j.2)) (max (CapProd i.1 j.2) (CapProd i.2 j.1)))

/-- The product of two intervals is one interval. -/
theorem multiplication_single (i j : ClosedInterval) :
    SortedIntervalList.ContinuousMultiplicationBy ⟨[i]⟩ ⟨[j]⟩ = ⟨[productInterval i j]⟩ := by
  simp only [SortedIntervalList.ContinuousMultiplicationBy, List.flatMap_cons, List.flatMap_nil,
    List.map_cons, List.map_nil, List.append_nil, List.mergeSort_singleton,
    UnionOfSortedIntervals, unionLoop, productInterval]

/-- Its ends are the outermost of the four products, saturated. -/
theorem productInterval_toInt (i j : ClosedInterval) :
    (productInterval i j).1.toInt = clamp (-2 ^ 63) (2 ^ 63 - 1)
        (leastCorner i.1.toInt i.2.toInt j.1.toInt j.2.toInt) ∧
      (productInterval i j).2.toInt = clamp (-2 ^ 63) (2 ^ 63 - 1)
        (greatestCorner i.1.toInt i.2.toInt j.1.toInt j.2.toInt) := by
  have hmono : Monotone (clamp (-2 ^ 63) (2 ^ 63 - 1)) := fun _ _ => clamp_mono
  unfold productInterval leastCorner greatestCorner
  simp only [min_toInt, max_toInt, capProd_toInt, hmono.map_min, hmono.map_max, and_self]

section Product

variable {model : CpModelProto} {f : LinearExpressionProto → ℤ}

/-- What is known of the running product: it is in the interval, or the interval
has saturated, or a factor was zero. -/
def ProductBounded (d : SortedIntervalList) (p : ℤ) : Prop :=
  ∃ i : ClosedInterval, d = ⟨[i]⟩ ∧
    (Saturated i.1.toInt i.2.toInt ∨ p = 0 ∨ i.1.toInt ≤ p ∧ p ≤ i.2.toInt)

/-- One more factor: the domain of the product still bounds it. -/
theorem productBounded_step {d : SortedIntervalList} {p x : ℤ} {m M : Int64}
    (h : ProductBounded d p) (hm : m.toInt ≤ x) (hM : x ≤ M.toInt) (hne : ¬ (m = 0 ∧ M = 0)) :
    ProductBounded (d.ContinuousMultiplicationBy (.ofEnds m M)) (p * x) := by
  obtain ⟨i, rfl, hi⟩ := h
  have hends : SortedIntervalList.ofEnds m M = ⟨[(m, M)]⟩ := by
    unfold SortedIntervalList.ofEnds
    rw [if_neg]
    rw [gt_iff_lt, Int64.lt_iff_toInt_lt]
    omega
  have hzero : ¬ (m.toInt = 0 ∧ M.toInt = 0) := fun h =>
    hne ⟨Int64.toInt.inj h.1, Int64.toInt.inj h.2⟩
  obtain ⟨hlow, hhigh⟩ := productInterval_toInt i (m, M)
  refine ⟨productInterval i (m, M), by rw [hends, multiplication_single], ?_⟩
  unfold clamp at hlow hhigh
  dsimp only at hlow hhigh
  rcases hi with hsaturated | rfl | ⟨hlo, hhi⟩
  · have hkeeps := saturated_mul hsaturated (hm.trans hM) hzero
    unfold Saturated at hkeeps ⊢
    left
    omega
  · exact Or.inr (Or.inl (Int.zero_mul x))
  · obtain ⟨hbelow, habove⟩ := mul_between hlo hhi hm hM
    unfold Saturated
    omega

/-- **The bounds of a product bound it**, unless they have saturated or a factor
is zero. -/
theorem productDomain_bounded {exprs : List LinearExpressionProto}
    (hf : ∀ e ∈ exprs, (MinOfExpression model e).toInt ≤ f e ∧
      f e ≤ (MaxOfExpression model e).toInt) :
    ProductBounded (productDomain model exprs) (exprs.map f).prod := by
  have hone : ProductBounded (.ofValue 1) 1 :=
    ⟨(1, 1), rfl, Or.inr (Or.inr (by decide))⟩
  suffices hloop : ∀ (d : SortedIntervalList) (p : ℤ), ProductBounded d p →
      ProductBounded (exprs.foldl
        (fun product_domain expr =>
          if MinOfExpression model expr = 0 ∧ MaxOfExpression model expr = 0 then product_domain
          else product_domain.ContinuousMultiplicationBy
            (.ofEnds (MinOfExpression model expr) (MaxOfExpression model expr)))
        d) (p * (exprs.map f).prod) by
    have hproduct := hloop (.ofValue 1) 1 hone
    rwa [one_mul] at hproduct
  induction exprs with
  | nil => simp
  | cons e rest ih =>
      intro d p h
      obtain ⟨hmin, hmax⟩ := hf e List.mem_cons_self
      rw [List.foldl_cons, List.map_cons, List.prod_cons, ← mul_assoc]
      refine ih (fun e he => hf e (List.mem_cons_of_mem _ he)) _ _ ?_
      split
      · -- a factor that is always zero
        rename_i hzero
        obtain ⟨i, rfl, -⟩ := h
        rw [hzero.1, Int64.toInt_zero] at hmin
        rw [hzero.2, Int64.toInt_zero] at hmax
        refine ⟨i, rfl, Or.inr (Or.inl ?_)⟩
        rw [le_antisymm hmax hmin, mul_zero]
      · rename_i hne
        exact productBounded_step h hmin hmax hne

end Product

end Cpsat.Checker
