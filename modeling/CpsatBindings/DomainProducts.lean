import CpsatBindings.FlatDomains
import CpsatBindings.AcceptedProducts

/-!
# Products of domains

The solver scales a domain by a coefficient value by value, as long as there
are few, and end by end where there are many.  The first yields the products
that fit in a word, the second all words between, and so does the product of
two domains.  With a negative coefficient the smallest word gets lost.

* `multiplication_values` — what a domain times a coefficient has.
* `product_values` — the saturated product of two members is a member of the
  product.
-/

namespace Cpsat.Checker

open Cpsat.Proto Intervals

/-- How many values are multiplied one by one. -/
def kDomainComplexityLimit : Int64 := 100

/-- `v` goes from `start` on, `n` steps up to the end of the interval. -/
def visited : ℕ → Int64 → List Int64
  | 0, v => [v]
  | n + 1, v => v :: visited n (v + 1)

/-- The loop over the values of an interval; what overflows is ignored. -/
def multiplesOf (abs_coeff : Int64) (i : ClosedInterval) : List ClosedInterval :=
  let max_value := kint64max / abs_coeff
  let min_value := kint64min / abs_coeff
  (visited (i.2.toInt - i.1.toInt).toNat i.1).flatMap fun v =>
    if v ≥ min_value && v ≤ max_value then
      let new_value := v * abs_coeff
      [(new_value, new_value)]
    else []

namespace SortedIntervalList

/-- The number of values, saturated. -/
def Size (d : SortedIntervalList) : Int64 :=
  let size := d.intervals_.foldl (fun size interval => CapAdd size (CapSub interval.2 interval.1)) 0
  -- The ends are included: one more for each interval.
  CapAdd size (Int64.ofNat d.intervals_.length)

/-- `ContinuousMultiplicationBy`, the overload for a coefficient. -/
def ContinuousMultiplicationByCoeff (d : SortedIntervalList) (coeff : Int64) :
    SortedIntervalList :=
  let abs_coeff := coeff.abs
  let result : SortedIntervalList := ⟨UnionOfSortedIntervals
    (d.intervals_.map fun i => (CapProd i.1 abs_coeff, CapProd i.2 abs_coeff))⟩
  if coeff < 0 then result.Negation else result

/-- The domain, and `exact`. -/
def MultiplicationBy (d : SortedIntervalList) (coeff : Int64) : SortedIntervalList × Bool :=
  if d.intervals_.isEmpty then (⟨[]⟩, true)
  else if coeff = 0 then (.ofValue 0, true)
  else
    let abs_coeff := coeff.abs
    let size_if_non_trivial := if abs_coeff > 1 then d.Size else 0
    if size_if_non_trivial > kDomainComplexityLimit then
      (d.ContinuousMultiplicationByCoeff coeff, false)
    else
      let result : SortedIntervalList :=
        if abs_coeff > 1 then ⟨d.intervals_.flatMap (multiplesOf abs_coeff)⟩ else d
      (if coeff < 0 then result.Negation else result, true)

end SortedIntervalList

open SortedIntervalList

/-! ## The loop over the values -/

/-- The absolute value of a word that is not the smallest. -/
theorem abs_toInt {x : Int64} (h : x ≠ kint64min) : x.abs.toInt = |x.toInt| := by
  have hneg : x.toBitVec.msb = true ↔ x.toInt < 0 := by
    rw [BitVec.msb_eq_toInt, decide_eq_true_iff]
    rfl
  change (BitVec.abs x.toBitVec).toInt = _
  rw [BitVec.abs]
  split
  · rename_i hmsb
    rw [abs_of_neg (hneg.mp hmsb)]
    exact toInt_neg_of_ne h
  · rename_i hmsb
    rw [hneg, not_lt] at hmsb
    rw [abs_of_nonneg hmsb]
    rfl

section Visited

variable {n : ℕ} {v : Int64}

/-- The loop visits the words from its start to its end. -/
theorem mem_visited (h : v.toInt + n < 2 ^ 63) (w : Int64) :
    w ∈ visited n v ↔ v.toInt ≤ w.toInt ∧ w.toInt ≤ v.toInt + n := by
  induction n generalizing v with
  | zero =>
      rw [visited, List.mem_singleton, ← Int64.toInt_inj]
      omega
  | succ n ih =>
      have hnext : (v + 1).toInt = v.toInt + 1 := toInt_succ (by
        rintro rfl
        have hmax : kint64max.toInt = 2 ^ 63 - 1 := rfl
        omega)
      rw [visited, List.mem_cons, ih (by omega), hnext, ← Int64.toInt_inj]
      omega

theorem sorted_visited (h : v.toInt + n < 2 ^ 63) :
    (visited n v).Pairwise fun w w' => w.toInt < w'.toInt := by
  induction n generalizing v with
  | zero => exact List.pairwise_singleton _ _
  | succ n ih =>
      have hnext : (v + 1).toInt = v.toInt + 1 := toInt_succ (by
        rintro rfl
        have hmax : kint64max.toInt = 2 ^ 63 - 1 := rfl
        omega)
      refine List.pairwise_cons.mpr ⟨fun w hw => ?_, ih (by omega)⟩
      have hrange := (mem_visited (by omega) w).mp hw
      omega

end Visited

section Multiples

variable {k : Int64} (hk : 1 < k.toInt)

include hk

/-- The bounds of the loop are where the product stops fitting in a word. -/
theorem withinBounds_iff (v : Int64) :
    (v ≥ kint64min / k && v ≤ kint64max / k) = true ↔ v.toInt * k.toInt ∈ Words := by
  have hmin : kint64min.toInt = -2 ^ 63 := rfl
  have hmax : kint64max.toInt = 2 ^ 63 - 1 := rfl
  have hlow : (kint64min / k).toInt = -(2 ^ 63 / k.toInt) := by
    rw [Int64.toInt_div_of_ne_right _ _ (by rintro rfl; exact absurd hk (by decide)), hmin,
      Int.neg_tdiv, Int.tdiv_eq_ediv_of_nonneg (by decide)]
  have hhigh : (kint64max / k).toInt = (2 ^ 63 - 1) / k.toInt := by
    rw [Int64.toInt_div_of_ne_left _ _ (by decide), hmax, Int.tdiv_eq_ediv_of_nonneg (by decide)]
  have hbelow : -(2 ^ 63 / k.toInt) ≤ v.toInt ↔ -2 ^ 63 ≤ v.toInt * k.toInt := by
    have hdiv := @Int.le_ediv_iff_mul_le (-v.toInt) (2 ^ 63) k.toInt (by omega)
    rw [Int.neg_mul] at hdiv
    omega
  rw [Bool.and_eq_true, decide_eq_true_iff, decide_eq_true_iff, ge_iff_le,
    Int64.le_iff_toInt_le, Int64.le_iff_toInt_le, hlow, hhigh, hbelow,
    Int.le_ediv_iff_mul_le (by omega)]
  change _ ↔ kint64min.toInt ≤ _ ∧ _ ≤ kint64max.toInt
  rw [hmin, hmax]

/-- Multiples of different values are apart, as the coefficient is not one. -/
theorem multiples_apart {x y : ℤ} (hxy : x < y) : x * k.toInt + 1 < y * k.toInt := by
  have hstep : (x + 1) * k.toInt ≤ y * k.toInt := Int.mul_le_mul_of_nonneg_right hxy (by omega)
  rw [Int.add_mul, Int.one_mul] at hstep
  omega

omit hk in

/-- A product of words that is a word is exact. -/
theorem mul_toInt_of_mem {v : Int64} (hv : v.toInt * k.toInt ∈ Words) :
    (v * k).toInt = v.toInt * k.toInt := by
  have hmin : kint64min.toInt = -2 ^ 63 := rfl
  have hmax : kint64max.toInt = 2 ^ 63 - 1 := rfl
  obtain ⟨hlow, hhigh⟩ := hv
  rw [Int64.toInt_mul]
  exact Int.bmod_eq_of_le (by omega) (by omega)

/-- What one value pushes. -/
theorem mem_multiple {v : Int64} {j : ClosedInterval} :
    j ∈ (if v ≥ kint64min / k && v ≤ kint64max / k then [(v * k, v * k)] else []) ↔
      v.toInt * k.toInt ∈ Words ∧ ends j = (v.toInt * k.toInt, v.toInt * k.toInt) := by
  by_cases hv : v.toInt * k.toInt ∈ Words
  · rw [if_pos ((withinBounds_iff hk v).mpr hv), List.mem_singleton, and_iff_right hv,
      ← ends_injective.eq_iff, ← mul_toInt_of_mem hv]
    rfl
  · rw [if_neg (mt (withinBounds_iff hk v).mp hv)]
    exact iff_of_false List.not_mem_nil fun h => hv h.1

section Interval

variable {i : ClosedInterval} (hi : (ends i).1 ≤ (ends i).2)

include hi

/-- What an interval contributes are the multiples of its values, one by one. -/
theorem mem_multiplesOf {j : ClosedInterval} :
    j ∈ multiplesOf k i ↔ ∃ v : Int64, (i.1.toInt ≤ v.toInt ∧ v.toInt ≤ i.2.toInt) ∧
      v.toInt * k.toInt ∈ Words ∧ ends j = (v.toInt * k.toInt, v.toInt * k.toInt) := by
  have hlow := i.1.le_toInt
  have hhigh := i.2.toInt_lt
  dsimp only [ends] at hi
  have hvisited := fun v => @mem_visited (i.2.toInt - i.1.toInt).toNat i.1 (by omega) v
  have hlast : i.1.toInt + ((i.2.toInt - i.1.toInt).toNat : ℤ) = i.2.toInt := by omega
  unfold multiplesOf
  rw [List.mem_flatMap]
  refine exists_congr fun v => ?_
  rw [hvisited v, hlast]
  exact and_congr_right fun _ => mem_multiple hk

theorem sorted_multiplesOf :
    (multiplesOf k i).Pairwise fun j j' => (ends j).2 + 1 < (ends j').1 := by
  have hhigh := i.2.toInt_lt
  dsimp only [ends] at hi
  refine List.pairwise_flatMap.mpr ⟨fun v _ => ?_, (sorted_visited (by omega)).imp ?_⟩
  · split
    · exact List.pairwise_singleton _ _
    · exact List.Pairwise.nil
  · intro v v' hvv j hj j' hj'
    rw [((mem_multiple hk).mp hj).2, ((mem_multiple hk).mp hj').2]
    exact multiples_apart hk hvv

end Interval

variable {l : List ClosedInterval} (hl : Separated (l.map ends))

include hl

/-- So are the multiples of a whole domain, if the coefficient is above one. -/
theorem separated_multiples : Separated ((l.flatMap (multiplesOf k)).map ends) := by
  obtain ⟨hordered, hapart⟩ := separated_iff_pairwise.mp hl
  rw [List.forall_mem_map] at hordered
  refine separated_iff_pairwise.mpr ⟨List.forall_mem_map.mpr fun j hj => ?_,
    List.pairwise_map.mpr (List.pairwise_flatMap.mpr
      ⟨fun i hi => sorted_multiplesOf hk (hordered i hi), ?_⟩)⟩
  · obtain ⟨i, hi, hj⟩ := List.mem_flatMap.mp hj
    obtain ⟨v, -, -, hends⟩ := (mem_multiplesOf hk (hordered i hi)).mp hj
    rw [hends]
  · refine (List.pairwise_map.mp hapart).imp_of_mem fun {i i'} hi hi' hii j hj j' hj' => ?_
    obtain ⟨v, hv, -, hends⟩ := (mem_multiplesOf hk (hordered i hi)).mp hj
    obtain ⟨v', hv', -, hends'⟩ := (mem_multiplesOf hk (hordered i' hi')).mp hj'
    dsimp only [ends] at hii
    rw [hends, hends']
    exact multiples_apart hk (by omega)

/-- They cover the multiples that are words. -/
theorem covers_multiples (y : ℤ) : Covers ((l.flatMap (multiplesOf k)).map ends) y ↔
    y ∈ Words ∧ ∃ x, Covers (l.map ends) x ∧ x * k.toInt = y := by
  have hordered := List.forall_mem_map.mp hl.ordered
  simp only [Covers, List.mem_map, exists_exists_and_eq_and, List.mem_flatMap]
  constructor
  · rintro ⟨j, ⟨i, hi, hj⟩, hlow, hhigh⟩
    obtain ⟨v, hv, hword, hends⟩ := (mem_multiplesOf hk (hordered i hi)).mp hj
    rw [hends] at hlow hhigh
    obtain rfl := le_antisymm hlow hhigh
    exact ⟨hword, v.toInt, ⟨i, hi, hv⟩, rfl⟩
  · rintro ⟨hword, x, ⟨i, hi, hx⟩, rfl⟩
    have hlow := i.1.le_toInt
    have hhigh := i.2.toInt_lt
    dsimp only [ends] at hx
    obtain ⟨v, rfl⟩ : ∃ v : Int64, v.toInt = x :=
      ⟨Int64.ofInt x, Int64.toInt_ofInt_of_le (by omega) (by omega)⟩
    have hends : ends (v * k, v * k) = (v.toInt * k.toInt, v.toInt * k.toInt) := by
      rw [← mul_toInt_of_mem hword]
      rfl
    refine ⟨(v * k, v * k), ⟨i, hi, (mem_multiplesOf hk (hordered i hi)).mpr
      ⟨v, hx, hword, hends⟩⟩, ?_⟩
    rw [hends]
    exact ⟨le_refl _, le_refl _⟩

end Multiples

/-! ## End by end -/

/-- Ends moved without changing their order, and joined in one pass. -/
theorem moved_spec {f : Int64 → Int64}
    (hf : ∀ {x y : Int64}, x.toInt ≤ y.toInt → (f x).toInt ≤ (f y).toInt)
    {l : List ClosedInterval} (hl : Separated (l.map ends)) :
    Normal ⟨UnionOfSortedIntervals (l.map fun i => (f i.1, f i.2))⟩ ∧
      ∀ y, y ∈ Values ⟨UnionOfSortedIntervals (l.map fun i => (f i.1, f i.2))⟩ ↔
        ∃ i ∈ l, (f i.1).toInt ≤ y ∧ y ≤ (f i.2).toInt := by
  have hsorted : SortedByStart ((l.map fun i => (f i.1, f i.2)).map ends) :=
    List.pairwise_map.mpr (List.pairwise_map.mpr
      ((List.pairwise_map.mp hl.sorted).imp fun hij => hf hij))
  have hordered : ∀ i ∈ (l.map fun i => (f i.1, f i.2)).map ends, i.1 ≤ i.2 := by
    rw [List.map_map, List.forall_mem_map]
    exact fun i hi => hf (hl.ordered _ (List.mem_map_of_mem hi))
  rw [normal_iff, union_ends]
  refine ⟨separated_unionOfSorted hsorted hordered, fun y => ?_⟩
  change Covers ((UnionOfSortedIntervals _).map ends) _ ↔ _
  rw [union_ends, covers_unionOfSorted hsorted hordered, Covers, List.map_map]
  simp only [List.mem_map, exists_exists_and_eq_and]
  rfl

/-- Scaled ends keep their order, so one pass joins what has saturated together. -/
theorem scaled_spec {k : Int64} (hk : 0 ≤ k.toInt) {l : List ClosedInterval}
    (hl : Separated (l.map ends)) :
    Normal ⟨UnionOfSortedIntervals (l.map fun i => (CapProd i.1 k, CapProd i.2 k))⟩ ∧
      ∀ x, Covers (l.map ends) x → x * k.toInt ∈ Words →
        x * k.toInt ∈ Values ⟨UnionOfSortedIntervals
          (l.map fun i => (CapProd i.1 k, CapProd i.2 k))⟩ := by
  obtain ⟨hnormal, hmem⟩ := moved_spec (f := fun x => CapProd x k) (fun {x y} hxy => by
    rw [capProd_toInt, capProd_toInt]
    exact clamp_mono (Int.mul_le_mul_of_nonneg_right hxy hk)) hl
  refine ⟨hnormal, fun x hx hword => (hmem _).mpr ?_⟩
  obtain ⟨_, hends, hlow, hhigh⟩ := hx
  obtain ⟨i, hi, rfl⟩ := List.mem_map.mp hends
  have hclamp : clamp (-2 ^ 63) (2 ^ 63 - 1) (x * k.toInt) = x * k.toInt :=
    clamp_of_mem hword.1 hword.2
  refine ⟨i, hi, ?_⟩
  rw [capProd_toInt, capProd_toInt, ← hclamp]
  exact ⟨clamp_mono (Int.mul_le_mul_of_nonneg_right hlow hk),
    clamp_mono (Int.mul_le_mul_of_nonneg_right hhigh hk)⟩

/-- **Negation.**  The opposites of the values, without that of the smallest word. -/
theorem negation_values {d : SortedIntervalList} (hd : d.Normal) :
    d.Negation.Normal ∧ d.Negation.Values = {y | y ≤ kint64max.toInt ∧ -y ∈ d.Values} := by
  rw [normal_iff] at hd
  have hends : d.Negation.intervals_.map ends =
      clipped (2 ^ 63 - 1) (negated (d.intervals_.map ends)) := negation_ends hd
  rw [normal_iff, hends]
  refine ⟨separated_clipped (separated_negated hd), Set.ext fun y => ?_⟩
  change Covers (d.Negation.intervals_.map ends) y ↔ _
  rw [hends, covers_clipped, covers_negated]
  rfl

/-! ## A domain times a coefficient -/

/-- The products that fit in a word.  The smallest word is not one of them if the
coefficient is negative, as it is the opposite of none. -/
def Multiples (d : SortedIntervalList) (coeff : Int64) : Set ℤ :=
  {y | y ∈ Words ∧ (∃ x ∈ d.Values, coeff.toInt * x = y) ∧
    (coeff.toInt < 0 → y ≠ kint64min.toInt)}

/-- The same for the absolute value of a coefficient. -/
def Scaled (d : SortedIntervalList) (k : Int64) : Set ℤ :=
  {y | y ∈ Words ∧ ∃ x ∈ d.Values, x * k.toInt = y}

section Coefficient

variable {d : SortedIntervalList} {coeff : Int64} (hcoeff : coeff ≠ kint64min)

include hcoeff

/-- A negative multiple is the opposite of a positive one. -/
theorem multiples_of_neg (hneg : coeff.toInt < 0) :
    Multiples d coeff = {y | y ≤ kint64max.toInt ∧ -y ∈ Scaled d coeff.abs} := by
  have hmin : kint64min.toInt = -2 ^ 63 := rfl
  have hmax : kint64max.toInt = 2 ^ 63 - 1 := rfl
  have hwords : ∀ y, y ∈ Words ∧ y ≠ kint64min.toInt ↔ y ≤ kint64max.toInt ∧ -y ∈ Words := by
    intro y
    change (kint64min.toInt ≤ y ∧ y ≤ kint64max.toInt) ∧ _ ↔
      _ ∧ kint64min.toInt ≤ -y ∧ -y ≤ kint64max.toInt
    omega
  have hproduct : ∀ x y, coeff.toInt * x = y ↔ x * coeff.abs.toInt = -y := by
    intro x y
    rw [abs_toInt hcoeff, abs_of_neg hneg, Int.mul_neg, neg_inj, Int.mul_comm]
  ext y
  change y ∈ Words ∧ _ ∧ (_ → _) ↔ y ≤ _ ∧ -y ∈ Words ∧ _
  rw [forall_prop_of_true hneg, ← and_assoc (b := -y ∈ Words), ← hwords]
  simp only [hproduct]
  tauto

/-- The multiples by a coefficient that is not negative. -/
theorem multiples_of_nonneg (hpos : 0 ≤ coeff.toInt) : Multiples d coeff = Scaled d coeff.abs := by
  ext y
  change y ∈ Words ∧ _ ∧ (_ → _) ↔ y ∈ Words ∧ _
  rw [abs_toInt hcoeff, abs_of_nonneg hpos]
  simp only [Int.mul_comm coeff.toInt]
  refine and_congr_right fun _ => and_iff_left fun hneg => ?_
  omega

/-- The sign of the coefficient comes last. -/
theorem signed_values {e : SortedIntervalList} (he : e.Normal)
    (hsub : Scaled d coeff.abs ⊆ e.Values) :
    (if coeff < 0 then e.Negation else e).Normal ∧
      Multiples d coeff ⊆ (if coeff < 0 then e.Negation else e).Values ∧
      (e.Values = Scaled d coeff.abs →
        (if coeff < 0 then e.Negation else e).Values = Multiples d coeff) := by
  have hsign : coeff < 0 ↔ coeff.toInt < 0 := Int64.lt_iff_toInt_lt
  by_cases hneg : coeff < 0
  · obtain ⟨hnormal, hvalues⟩ := negation_values he
    rw [if_pos hneg, multiples_of_neg hcoeff (hsign.mp hneg), hvalues]
    refine ⟨hnormal, fun y hy => ⟨hy.1, hsub hy.2⟩, fun heq => ?_⟩
    rw [heq]
  · rw [if_neg hneg, multiples_of_nonneg hcoeff (not_lt.mp (mt hsign.mpr hneg))]
    exact ⟨he, hsub, id⟩

/-- Scaling the ends loses no multiple. -/
theorem continuous_values (hd : d.Normal) :
    (d.ContinuousMultiplicationByCoeff coeff).Normal ∧
      Multiples d coeff ⊆ (d.ContinuousMultiplicationByCoeff coeff).Values := by
  have habs : 0 ≤ coeff.abs.toInt := by
    rw [abs_toInt hcoeff]
    exact abs_nonneg _
  obtain ⟨hnormal, hscaled⟩ := scaled_spec habs (normal_iff.mp hd)
  have hsigned := signed_values (d := d) hcoeff hnormal fun y hy => by
    obtain ⟨hword, x, hx, rfl⟩ := hy
    exact hscaled x hx hword
  exact ⟨hsigned.1, hsigned.2.1⟩

/-- **What a domain times a coefficient has**: the products that fit in a word,
and, where the answer is not exact, possibly more. -/
theorem multiplication_values (hd : d.Normal) :
    (d.MultiplicationBy coeff).1.Normal ∧
    Multiples d coeff ⊆ (d.MultiplicationBy coeff).1.Values ∧
    ((d.MultiplicationBy coeff).2 = true →
      (d.MultiplicationBy coeff).1.Values = Multiples d coeff) := by
  have hseparated := normal_iff.mp hd
  unfold MultiplicationBy
  split
  · rename_i hempty
    have hnone : Multiples d coeff = Values ⟨[]⟩ := by
      ext y
      have hd : d.intervals_ = [] := List.isEmpty_iff.mp hempty
      simp [Multiples, Values, hd, Covers]
    exact ⟨by decide, hnone.subset, fun _ => hnone.symm⟩
  rename_i hsome
  split
  · rename_i hzero
    have hall : Multiples d coeff = (SortedIntervalList.ofValue 0).Values := by
      obtain ⟨x, hx⟩ := (nonempty_iff hd).mpr (eq_false_of_ne_true hsome)
      ext y
      rw [hzero]
      constructor
      · rintro ⟨-, ⟨x, -, rfl⟩, -⟩
        rw [Int64.toInt_zero, Int.zero_mul]
        exact ⟨_, List.mem_cons_self, by decide⟩
      · rintro ⟨i, hi, hlow, hhigh⟩
        rw [List.mem_singleton.mp hi] at hlow hhigh
        obtain rfl := le_antisymm hlow hhigh
        exact ⟨⟨by decide, by decide⟩, ⟨x, hx, Int.zero_mul x⟩, fun h => absurd h (by decide)⟩
    exact ⟨by decide, hall.subset, fun _ => hall.symm⟩
  rename_i hne
  have habs := abs_toInt hcoeff
  have hpos : 0 < coeff.abs.toInt := by
    rw [habs]
    exact abs_pos.mpr fun h => hne (Int64.toInt.inj h)
  dsimp only
  by_cases hlarge : coeff.abs > 1
  · rw [if_pos hlarge, if_pos hlarge]
    have hk : 1 < coeff.abs.toInt := Int64.lt_iff_toInt_lt.mp hlarge
    split
    · obtain ⟨hnormal, hsub⟩ := continuous_values hcoeff hd
      exact ⟨hnormal, hsub, fun h => absurd h Bool.false_ne_true⟩
    · have hvalues : Values ⟨d.intervals_.flatMap (multiplesOf coeff.abs)⟩ =
          Scaled d coeff.abs := Set.ext (covers_multiples hk hseparated)
      have hsigned := signed_values (d := d) hcoeff
        (normal_iff.mpr (separated_multiples hk hseparated)) hvalues.symm.subset
      exact ⟨hsigned.1, hsigned.2.1, fun _ => hsigned.2.2 hvalues⟩
  · rw [if_neg hlarge, if_neg hlarge, if_neg (by decide)]
    have hone : coeff.abs.toInt = 1 := by
      rw [gt_iff_lt, Int64.lt_iff_toInt_lt, Int64.toInt_one] at hlarge
      omega
    have hvalues : d.Values = Scaled d coeff.abs := by
      ext y
      change _ ↔ y ∈ Words ∧ _
      simp only [hone, Int.mul_one, exists_eq_right]
      exact (and_iff_right_of_imp fun hy => values_subset hy).symm
    have hsigned := signed_values (d := d) hcoeff hd hvalues.symm.subset
    exact ⟨hsigned.1, hsigned.2.1, fun _ => hsigned.2.2 hvalues⟩

end Coefficient

/-- An answer that is not exact is that of scaling the ends. -/
theorem inexact_eq {d : SortedIntervalList} {coeff : Int64}
    (h : (d.MultiplicationBy coeff).2 = false) :
    (d.MultiplicationBy coeff).1 = d.ContinuousMultiplicationByCoeff coeff := by
  unfold MultiplicationBy at h ⊢
  dsimp only at h ⊢
  by_cases hempty : d.intervals_.isEmpty = true
  · rw [if_pos hempty] at h
    cases h
  by_cases hzero : coeff = 0
  · rw [if_neg hempty, if_pos hzero] at h
    cases h
  by_cases hlarge : (if coeff.abs > 1 then d.Size else 0) > kDomainComplexityLimit
  · rw [if_neg hempty, if_neg hzero, if_pos hlarge]
  · rw [if_neg hempty, if_neg hzero, if_neg hlarge] at h
    cases h

section Size

variable {d : SortedIntervalList} (hd : d.Normal)

include hd

/-- The size is the number of values, cut off at the greatest word. -/
theorem size_toInt (hlength : d.intervals_.length < 2 ^ 63) :
    d.Size.toInt = min kint64max.toInt d.Values.ncard := by
  have hmax : kint64max.toInt = 2 ^ 63 - 1 := rfl
  have hseparated := normal_iff.mp hd
  have hsub : ∀ x y : Int64, (CapSub x y).toInt = clamp (-2 ^ 63) (2 ^ 63 - 1) (x.toInt - y.toInt) :=
    fun x y => clampToInt64_toInt _
  have hcard : (d.Values.ncard : ℤ) =
      (d.intervals_.map fun i => i.2.toInt - i.1.toInt).sum + d.intervals_.length := by
    calc (d.Values.ncard : ℤ)
        = ((d.intervals_.map ends).map fun i => i.2 - i.1 + 1).sum := hseparated.ncard.2
      _ = _ := by simp [List.sum_map_add, Function.comp_def, ends]
  have hordered : ∀ i ∈ d.intervals_, 0 ≤ i.2.toInt - i.1.toInt := fun i hi =>
    Int.sub_nonneg_of_le (hseparated.ordered _ (List.mem_map_of_mem hi))
  have hsum : (d.intervals_.foldl
        (fun size interval => CapAdd size (CapSub interval.2 interval.1)) 0).toInt =
      min (2 ^ 63 - 1) (d.intervals_.map fun i => i.2.toInt - i.1.toInt).sum := by
    calc (d.intervals_.foldl
          (fun size interval => CapAdd size (CapSub interval.2 interval.1)) 0).toInt
        = d.intervals_.foldl (fun size i => clamp (-2 ^ 63) (2 ^ 63 - 1)
            (size + clamp (-2 ^ 63) (2 ^ 63 - 1) (i.2.toInt - i.1.toInt))) (0 : Int64).toInt :=
          (List.foldl_hom Int64.toInt fun size i => by rw [capAdd_toInt, hsub]).symm
      _ = _ := by
          rw [Int64.toInt_zero, Loops.foldl_capped_add _ (by decide) _ (le_refl _) (by decide)
            hordered, Int.zero_add]
  have hnonneg : 0 ≤ (d.intervals_.map fun i => i.2.toInt - i.1.toInt).sum :=
    List.sum_nonneg (List.forall_mem_map.mpr hordered)
  have hlast : (Int64.ofNat d.intervals_.length).toInt = d.intervals_.length :=
    Int64.toInt_ofNat_of_lt hlength
  rw [Size, capAdd_toInt, hsum, hlast, hcard, hmax]
  unfold clamp
  omega

/-- Only a large domain times a large coefficient is not multiplied value by
value. -/
theorem exact_iff (hlength : d.intervals_.length < 2 ^ 63) {coeff : Int64}
    (hcoeff : coeff ≠ kint64min) :
    (d.MultiplicationBy coeff).2 = true ↔ |coeff.toInt| ≤ 1 ∨ d.Values.ncard ≤ 100 := by
  have hmax : kint64max.toInt = 2 ^ 63 - 1 := rfl
  have hsize := size_toInt hd hlength
  have hlarge : coeff.abs > 1 ↔ 1 < |coeff.toInt| := by
    rw [gt_iff_lt, Int64.lt_iff_toInt_lt, abs_toInt hcoeff, Int64.toInt_one]
  have hmany : d.Size > kDomainComplexityLimit ↔ 100 < d.Values.ncard := by
    have hlimit : kDomainComplexityLimit.toInt = 100 := rfl
    rw [gt_iff_lt, Int64.lt_iff_toInt_lt, hsize, hlimit]
    omega
  unfold MultiplicationBy
  split
  · rename_i hempty
    have hnone : d.intervals_ = [] := List.isEmpty_iff.mp hempty
    have hcard : (d.Values.ncard : ℤ) =
        ((d.intervals_.map ends).map fun i => i.2 - i.1 + 1).sum := (normal_iff.mp hd).ncard.2
    rw [hnone, List.map_nil, List.map_nil, List.sum_nil] at hcard
    refine iff_of_true rfl (Or.inr ?_)
    omega
  split
  · rename_i hzero
    refine iff_of_true rfl (Or.inl ?_)
    rw [hzero]
    decide
  dsimp only
  by_cases habs : coeff.abs > 1
  · rw [if_pos habs, if_pos habs]
    rw [hlarge] at habs
    split
    · rename_i hsize
      rw [hmany] at hsize
      exact iff_of_false Bool.false_ne_true (by omega)
    · rename_i hsize
      rw [hmany] at hsize
      exact iff_of_true rfl (by omega)
  · rw [if_neg habs, if_neg (by decide)]
    rw [hlarge] at habs
    exact iff_of_true rfl (by omega)

/-- **A domain times a coefficient.**  With a coefficient of one, zero or minus
one, or at most a hundred values, the answer has the products that fit in a
word; and it never has more than scaling the ends yields. -/
theorem coefficient_products (hlength : d.intervals_.length < 2 ^ 63) {coeff : Int64}
    (hcoeff : coeff ≠ kint64min) :
    (d.MultiplicationBy coeff).1.Normal ∧ (d.ContinuousMultiplicationByCoeff coeff).Normal ∧
    (|coeff.toInt| ≤ 1 ∨ d.Values.ncard ≤ 100 →
      (d.MultiplicationBy coeff).1.Values = Multiples d coeff) ∧
    Multiples d coeff ⊆ (d.MultiplicationBy coeff).1.Values ∧
    (d.MultiplicationBy coeff).1.Values ⊆ (d.ContinuousMultiplicationByCoeff coeff).Values := by
  obtain ⟨hnormal, hsub, hvalues⟩ := multiplication_values hcoeff hd
  obtain ⟨hnormal', hsub'⟩ := continuous_values hcoeff hd
  refine ⟨hnormal, hnormal', fun h => hvalues ((exact_iff hd hlength hcoeff).mpr h), hsub, ?_⟩
  cases hexact : (d.MultiplicationBy coeff).2 with
  | true =>
      rw [hvalues hexact]
      exact hsub'
  | false => rw [inexact_eq hexact]

omit hd in
/-- Two values times minus two. -/
theorem coefficient_products_two :
    (SortedIntervalList.MultiplicationBy ⟨[(kint64min, kint64min), (3, 3)]⟩ (-2)).1.Values =
      Multiples ⟨[(kint64min, kint64min), (3, 3)]⟩ (-2) := by
  have hd : Normal ⟨[(kint64min, kint64min), (3, 3)]⟩ := by decide
  refine (@coefficient_products _ hd (by decide) (-2) (by decide)).2.2.1 (Or.inr ?_)
  have hcard : ((Values ⟨[(kint64min, kint64min), (3, 3)]⟩).ncard : ℤ) = 2 :=
    (normal_iff.mp hd).ncard.2
  omega

end Size

/-! ## A domain times a domain -/

/-- The product of two intervals is not empty. -/
theorem productInterval_ordered (i j : ClosedInterval) :
    (ends (productInterval i j)).1 ≤ (ends (productInterval i j)).2 := by
  obtain ⟨hlow, hhigh⟩ := productInterval_toInt i j
  rw [ends, hlow, hhigh]
  refine clamp_mono ?_
  unfold leastCorner greatestCorner
  exact (min_le_left _ _).trans ((min_le_left _ _).trans
    ((le_max_left _ _).trans (le_max_left _ _)))

/-- The interval has the saturated products of its members. -/
theorem capProd_between {i j : ClosedInterval} {x y : Int64}
    (hx : i.1.toInt ≤ x.toInt ∧ x.toInt ≤ i.2.toInt)
    (hy : j.1.toInt ≤ y.toInt ∧ y.toInt ≤ j.2.toInt) :
    (ends (productInterval i j)).1 ≤ (CapProd x y).toInt ∧
      (CapProd x y).toInt ≤ (ends (productInterval i j)).2 := by
  obtain ⟨hlow, hhigh⟩ := productInterval_toInt i j
  obtain ⟨hbelow, habove⟩ := mul_between hx.1 hx.2 hy.1 hy.2
  rw [ends, hlow, hhigh, capProd_toInt]
  exact ⟨clamp_mono hbelow, clamp_mono habove⟩

/-- **The saturated product of two members is a member of the product.** -/
theorem product_values (d e : SortedIntervalList) :
    (d.ContinuousMultiplicationBy e).Normal ∧
      ∀ x y : Int64, x.toInt ∈ d.Values → y.toInt ∈ e.Values →
        (CapProd x y).toInt ∈ (d.ContinuousMultiplicationBy e).Values := by
  have hproducts : (d.ContinuousMultiplicationBy e).intervals_ = UnionOfSortedIntervals
      ((d.intervals_.flatMap fun i => e.intervals_.map (productInterval i)).mergeSort
        fun i j => i.1 ≤ j.1) := rfl
  have hsorted := sorted_ends (d.intervals_.flatMap fun i => e.intervals_.map (productInterval i))
  have hordered : ∀ k ∈ ((d.intervals_.flatMap fun i =>
      e.intervals_.map (productInterval i)).mergeSort fun i j => i.1 ≤ j.1).map ends,
      k.1 ≤ k.2 := by
    rw [List.forall_mem_map]
    intro k hk
    rw [List.mem_mergeSort, List.mem_flatMap] at hk
    obtain ⟨i, -, hk⟩ := hk
    obtain ⟨j, -, rfl⟩ := List.mem_map.mp hk
    exact productInterval_ordered i j
  rw [normal_iff, hproducts, union_ends]
  refine ⟨separated_unionOfSorted hsorted hordered, fun x y hx hy => ?_⟩
  change Covers ((d.ContinuousMultiplicationBy e).intervals_.map ends) _
  rw [hproducts, union_ends, covers_unionOfSorted hsorted hordered]
  obtain ⟨_, hi, hx⟩ := hx
  obtain ⟨i, himem, rfl⟩ := List.mem_map.mp hi
  obtain ⟨_, hj, hy⟩ := hy
  obtain ⟨j, hjmem, rfl⟩ := List.mem_map.mp hj
  exact ⟨ends (productInterval i j), List.mem_map_of_mem (List.mem_mergeSort.mpr
    (List.mem_flatMap.mpr ⟨i, himem, List.mem_map_of_mem hjmem⟩)), capProd_between hx hy⟩

end Cpsat.Checker
