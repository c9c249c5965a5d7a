import CpsatBindings.DomainProducts

/-!
# Quotients of domains

What the presolve asks of a domain when it takes a coefficient out: the values
whose multiples are in it (`InverseMultiplicationBy`), and the quotients of its
values (`DivisionBy`).  The first is a loop that rounds the ends inwards, drops
what is empty and closes up what has come to touch.

* `inverse_values`, `quotient_values` — both are exact, whatever the sign of
  the coefficient.
-/

namespace Cpsat.Checker

open Cpsat.Proto Intervals SortedIntervalList

/-! ## Ratios -/

/-- The quotient, rounded up. -/
def CeilRatio (value positive_coeff : Int64) : Int64 :=
  let result := value / positive_coeff
  let adjust := if result * positive_coeff < value then 1 else 0
  result + adjust

/-- The quotient, rounded down. -/
def FloorRatio (value positive_coeff : Int64) : Int64 :=
  let result := value / positive_coeff
  let adjust := if result * positive_coeff > value then 1 else 0
  result - adjust

/-- Rounding up. -/
theorem roundedUp_le_iff {c v x k : ℤ} (hk : 0 < k) (hlow : (c - 1) * k < v) (hhigh : v ≤ c * k) :
    c ≤ x ↔ v ≤ x * k := by
  constructor
  · intro hx
    exact hhigh.trans (Int.mul_le_mul_of_nonneg_right hx hk.le)
  · intro hx
    have hbefore := lt_of_mul_lt_mul_right (hlow.trans_le hx) hk.le
    omega

/-- Rounding down. -/
theorem le_roundedDown_iff {f v x k : ℤ} (hk : 0 < k) (hlow : f * k ≤ v)
    (hhigh : v < (f + 1) * k) : x ≤ f ↔ x * k ≤ v := by
  constructor
  · intro hx
    exact (Int.mul_le_mul_of_nonneg_right hx hk.le).trans hlow
  · intro hx
    have hafter := lt_of_mul_lt_mul_right (hx.trans_lt hhigh) hk.le
    omega

section Ratio

variable {k : Int64} (hk : 0 < k.toInt)

include hk

/-- The quotient, and what is left: less than the coefficient. -/
theorem quotient_spec (v : Int64) : ∃ q r : ℤ, (v / k).toInt = q ∧ (v / k * k).toInt = q * k.toInt ∧
    q * k.toInt + r = v.toInt ∧ -k.toInt < r ∧ r < k.toInt := by
  have hquotient : (v / k).toInt = v.toInt.tdiv k.toInt :=
    Int64.toInt_div_of_ne_right _ _ (by rintro rfl; exact absurd hk (by decide))
  have hsplit : v.toInt.tdiv k.toInt * k.toInt + v.toInt.tmod k.toInt = v.toInt :=
    Int.tdiv_mul_add_tmod ..
  have hlow := v.le_toInt
  have hhigh := v.toInt_lt
  -- both have the sign of the value, so that neither leaves the range
  have hsigns : (0 ≤ v.toInt ∧ 0 ≤ v.toInt.tmod k.toInt ∧ 0 ≤ v.toInt.tdiv k.toInt * k.toInt) ∨
      (v.toInt ≤ 0 ∧ v.toInt.tmod k.toInt ≤ 0 ∧ v.toInt.tdiv k.toInt * k.toInt ≤ 0) := by
    rcases le_total 0 v.toInt with hv | hv
    · exact .inl ⟨hv, Int.tmod_nonneg _ hv,
        Int.mul_nonneg (Int.tdiv_nonneg hv hk.le) hk.le⟩
    · have hneg : 0 ≤ (-v.toInt).tdiv k.toInt := Int.tdiv_nonneg (by omega) hk.le
      have hrest : 0 ≤ (-v.toInt).tmod k.toInt := Int.tmod_nonneg _ (by omega)
      rw [Int.neg_tdiv] at hneg
      rw [Int.neg_tmod] at hrest
      exact .inr ⟨hv, by omega, Int.mul_nonpos_of_nonpos_of_nonneg (by omega) hk.le⟩
  refine ⟨_, _, hquotient, ?_, hsplit, Int.lt_tmod_of_pos _ hk, Int.tmod_lt_of_pos _ hk⟩
  rw [Int64.toInt_mul, hquotient]
  exact Int.bmod_eq_of_le (by omega) (by omega)

/-- Rounding up is below `x` exactly if the value is below the multiple. -/
theorem ceilRatio_le_iff (v : Int64) (x : ℤ) :
    (CeilRatio v k).toInt ≤ x ↔ v.toInt ≤ x * k.toInt := by
  obtain ⟨q, r, hq, hqk, hsplit, hlow, hhigh⟩ := quotient_spec hk v
  by_cases hup : q * k.toInt < v.toInt
  · have hsmall : q < 2 ^ 63 - 1 := by
      by_contra hge
      have hlast := v.toInt_lt
      have hqpos : q * 1 ≤ q * k.toInt := Int.mul_le_mul_of_nonneg_left hk (by omega)
      omega
    have hceil : (CeilRatio v k).toInt = q + 1 := by
      rw [CeilRatio, if_pos (by rw [Int64.lt_iff_toInt_lt, hqk]; exact hup), Int64.toInt_add, hq,
        Int64.toInt_one]
      have hfirst := (v / k).le_toInt
      exact Int.bmod_eq_of_le (by omega) (by omega)
    rw [hceil]
    refine roundedUp_le_iff hk ?_ ?_
    · rwa [Int.add_sub_cancel]
    · rw [add_one_mul]
      omega
  · have hceil : (CeilRatio v k).toInt = q := by
      rw [CeilRatio, if_neg (by rw [Int64.lt_iff_toInt_lt, hqk]; exact hup), Int64.add_zero, hq]
    rw [hceil]
    refine roundedUp_le_iff hk ?_ (not_lt.mp hup)
    rw [sub_one_mul]
    omega

/-- Rounding down is above `x` exactly if the value is above the multiple. -/
theorem le_floorRatio_iff (v : Int64) (x : ℤ) :
    x ≤ (FloorRatio v k).toInt ↔ x * k.toInt ≤ v.toInt := by
  obtain ⟨q, r, hq, hqk, hsplit, hlow, hhigh⟩ := quotient_spec hk v
  by_cases hdown : q * k.toInt > v.toInt
  · have hlarge : -2 ^ 63 < q := by
      by_contra hle
      have hfirst := v.le_toInt
      have hqneg : q * k.toInt ≤ q * 1 := Int.mul_le_mul_of_nonpos_left (by omega) hk
      omega
    have hfloor : (FloorRatio v k).toInt = q - 1 := by
      rw [FloorRatio, if_pos (by rw [gt_iff_lt, Int64.lt_iff_toInt_lt, hqk]; exact hdown),
        Int64.toInt_sub, hq, Int64.toInt_one]
      have hlast := (v / k).toInt_lt
      exact Int.bmod_eq_of_le (by omega) (by omega)
    rw [hfloor]
    refine le_roundedDown_iff hk ?_ ?_
    · rw [sub_one_mul]
      omega
    · rwa [Int.sub_add_cancel]
  · have hfloor : (FloorRatio v k).toInt = q := by
      rw [FloorRatio, if_neg (by rw [gt_iff_lt, Int64.lt_iff_toInt_lt, hqk]; exact hdown),
        Int64.sub_zero, hq]
    rw [hfloor]
    refine le_roundedDown_iff hk (not_lt.mp hdown) ?_
    rw [add_one_mul]
    omega

end Ratio

/-! ## The values whose multiples are in a domain -/

/-- The loop, which closes up what it keeps: `kept` is the part of the list that
is final, but for the end of its last interval. -/
def inverseLoop (abs_coeff : Int64) (kept : List ClosedInterval) :
    List ClosedInterval → List ClosedInterval
  | [] => kept
  | i :: rest =>
    let start := CeilRatio i.1 abs_coeff
    let last_value := FloorRatio i.2 abs_coeff
    if start > last_value then inverseLoop abs_coeff kept rest
    else
      match kept.getLast? with
      | some last =>
        if start = last.2 + 1 then
          inverseLoop abs_coeff (kept.dropLast ++ [(last.1, last_value)]) rest
        else inverseLoop abs_coeff (kept ++ [(start, last_value)]) rest
      | none => inverseLoop abs_coeff [(start, last_value)] rest

namespace SortedIntervalList

/-- The domain of all words. -/
def AllValues : SortedIntervalList := ⟨[(kint64min, kint64max)]⟩

/-- The words whose product with the coefficient is in the domain. -/
def InverseMultiplicationBy (d : SortedIntervalList) (coeff : Int64) : SortedIntervalList :=
  if coeff = 0 then if d.Contains 0 then AllValues else ⟨[]⟩
  else
    let result : SortedIntervalList := ⟨inverseLoop coeff.abs [] d.intervals_⟩
    if coeff < 0 then result.Negation else result

/-- The quotients of the values, rounded towards zero. -/
def DivisionBy (d : SortedIntervalList) (coeff : Int64) : SortedIntervalList :=
  let abs_coeff := coeff.abs
  let result : SortedIntervalList := ⟨UnionOfSortedIntervals
    (d.intervals_.map fun i => (i.1 / abs_coeff, i.2 / abs_coeff))⟩
  if coeff < 0 then result.Negation else result

end SortedIntervalList

/-- What the loop keeps once it has seen one interval more. -/
def keepRatio (abs_coeff : Int64) (kept : List ClosedInterval) (i : ClosedInterval) :
    List ClosedInterval :=
  let start := CeilRatio i.1 abs_coeff
  let last_value := FloorRatio i.2 abs_coeff
  if start > last_value then kept
  else
    match kept.getLast? with
    | some last =>
      if start = last.2 + 1 then kept.dropLast ++ [(last.1, last_value)]
      else kept ++ [(start, last_value)]
    | none => [(start, last_value)]

/-- One interval: it is rounded inwards and kept if something is left of it. -/
theorem inverseLoop_cons (k : Int64) (kept : List ClosedInterval) (i : ClosedInterval)
    (rest : List ClosedInterval) :
    inverseLoop k kept (i :: rest) = inverseLoop k (keepRatio k kept i) rest := by
  rw [inverseLoop, keepRatio]
  split
  · rfl
  · split
    · split
      · rfl
      · rfl
    · rfl

section Inverse

variable {k : Int64} (hk : 0 < k.toInt)

include hk

/-- One interval more. -/
theorem keepRatio_spec {kept : List ClosedInterval} {i : ClosedInterval}
    (hkept : Separated (kept.map ends)) (hahead : ∀ j ∈ kept, j.2.toInt * k.toInt < i.1.toInt) :
    Separated ((keepRatio k kept i).map ends) ∧
      (∀ x, Covers ((keepRatio k kept i).map ends) x ↔ Covers (kept.map ends) x ∨
        (i.1.toInt ≤ x * k.toInt ∧ x * k.toInt ≤ i.2.toInt)) ∧
      ∀ j ∈ keepRatio k kept i, j ∈ kept ∨ j.2.toInt * k.toInt ≤ i.2.toInt := by
  have hstart := ceilRatio_le_iff hk i.1
  have hend := le_floorRatio_iff hk i.2
  have hlate := (hend _).mp (le_refl _)
  have hinside : ∀ x, (i.1.toInt ≤ x * k.toInt ∧ x * k.toInt ≤ i.2.toInt) ↔
      ((CeilRatio i.1 k).toInt ≤ x ∧ x ≤ (FloorRatio i.2 k).toInt) :=
    fun x => and_congr (hstart x).symm (hend x).symm
  simp only [hinside]
  unfold keepRatio
  dsimp only
  by_cases hnone : CeilRatio i.1 k > FloorRatio i.2 k
  · rw [if_pos hnone]
    rw [gt_iff_lt, Int64.lt_iff_toInt_lt] at hnone
    refine ⟨hkept, fun x => (or_iff_left fun h => ?_).symm, fun j hj => .inl hj⟩
    exact absurd (h.1.trans h.2) (not_le.mpr hnone)
  rw [if_neg hnone]
  rw [gt_iff_lt, Int64.lt_iff_toInt_lt, not_lt] at hnone
  cases hlast : kept.getLast? with
  | none =>
      obtain rfl := List.getLast?_eq_none_iff.mp hlast
      exact ⟨separated_singleton hnone, fun x => by simp [Covers, ends],
        List.forall_mem_singleton.mpr (.inr hlate)⟩
  | some last =>
      obtain ⟨front, rfl⟩ := List.getLast?_eq_some_iff.mp hlast
      rw [List.map_append] at hkept
      have hordered := hkept.ordered (ends last) (by simp)
      dsimp only [ends] at hordered
      -- what is kept ends below what comes
      have hlt : last.2.toInt < (CeilRatio i.1 k).toInt := by
        rw [← not_le, hstart, not_le]
        exact hahead last (List.mem_append_right _ List.mem_cons_self)
      have hnext : (last.2 + 1).toInt = last.2.toInt + 1 := toInt_succ fun hmax => by
        have hhigh := (CeilRatio i.1 k).toInt_lt
        have hword : kint64max.toInt = 2 ^ 63 - 1 := rfl
        rw [hmax] at hlt
        omega
      have htouches : CeilRatio i.1 k = last.2 + 1 ↔
          (CeilRatio i.1 k).toInt = last.2.toInt + 1 := by
        rw [← Int64.toInt_inj, hnext]
      dsimp only
      by_cases hjoin : CeilRatio i.1 k = last.2 + 1
      · rw [if_pos hjoin, List.dropLast_concat]
        rw [htouches] at hjoin
        refine ⟨?_, fun x => ?_, ?_⟩
        · rw [List.map_append]
          exact hkept.grow_last (hlt.le.trans hnone)
        · rw [List.map_append, List.map_append, List.map_singleton, List.map_singleton,
            covers_snoc, covers_snoc, or_assoc]
          refine or_congr_right ?_
          change last.1.toInt ≤ x ∧ x ≤ (FloorRatio i.2 k).toInt ↔
            (last.1.toInt ≤ x ∧ x ≤ last.2.toInt) ∨ _
          omega
        · rw [List.forall_mem_append, List.forall_mem_singleton]
          exact ⟨fun j hj => .inl (List.mem_append_left _ hj), .inr hlate⟩
      · rw [if_neg hjoin]
        rw [htouches] at hjoin
        refine ⟨?_, fun x => ?_, ?_⟩
        · rw [List.map_append, List.map_append]
          exact hkept.snoc hnone (lt_of_le_of_ne hlt (Ne.symm hjoin))
        · rw [List.map_append, List.map_singleton, covers_snoc]
          rfl
        · rw [List.forall_mem_append, List.forall_mem_singleton]
          exact ⟨fun j hj => .inl hj, .inr hlate⟩

/-- The loop keeps what it has, and adds the values whose multiples are in the
rest of the list. -/
theorem inverseLoop_spec {rest kept : List ClosedInterval} (hkept : Separated (kept.map ends))
    (hrest : Separated (rest.map ends))
    (hahead : ∀ j ∈ kept, ∀ i ∈ rest, j.2.toInt * k.toInt < i.1.toInt) :
    Separated ((inverseLoop k kept rest).map ends) ∧
      ∀ x, Covers ((inverseLoop k kept rest).map ends) x ↔
        Covers (kept.map ends) x ∨ Covers (rest.map ends) (x * k.toInt) := by
  induction rest generalizing kept with
  | nil => exact ⟨hkept, fun x => by simp [inverseLoop, Covers]⟩
  | cons i rest ih =>
      have hbeyond : ∀ j ∈ rest, i.2.toInt + 1 < j.1.toInt :=
        List.forall_mem_map (f := ends) |>.mp hrest.beyond
      obtain ⟨hseparated, hcovers, hlate⟩ :=
        keepRatio_spec hk hkept fun j hj => hahead j hj i List.mem_cons_self
      rw [inverseLoop_cons]
      obtain ⟨hresult, hall⟩ := ih hseparated hrest.tail fun j hj i' hi' => by
        rcases hlate j hj with hold | hlow
        · exact hahead j hold i' (List.mem_cons_of_mem _ hi')
        · have hbegins := hbeyond i' hi'
          omega
      refine ⟨hresult, fun x => (hall x).trans ?_⟩
      rw [hcovers, List.map_cons, covers_cons, or_assoc]
      rfl

end Inverse

/-! ## Quotients, rounded towards zero -/

/-- The quotients of an interval are the interval between the quotients of its
ends. -/
theorem tdiv_between {s e y k : ℤ} (hk : 0 < k) :
    (s.tdiv k ≤ y ∧ y ≤ e.tdiv k ∧ s ≤ e) ↔ ∃ x, (s ≤ x ∧ x ≤ e) ∧ x.tdiv k = y := by
  constructor
  · rintro ⟨hlow, hhigh, hse⟩
    by_cases hfirst : y * k ≤ s
    · exact ⟨s, ⟨le_refl _, hse⟩, le_antisymm hlow (Int.le_tdiv_of_mul_le hk hfirst)⟩
    by_cases hlast : e ≤ y * k
    · have hopposite : -y ≤ (-e).tdiv k := by
        refine Int.le_tdiv_of_mul_le hk ?_
        rw [Int.neg_mul]
        omega
      rw [Int.neg_tdiv] at hopposite
      exact ⟨e, ⟨hse, le_refl _⟩, by omega⟩
    · exact ⟨y * k, ⟨by omega, by omega⟩, Int.mul_tdiv_cancel y hk.ne'⟩
  · rintro ⟨x, ⟨hlow, hhigh⟩, rfl⟩
    exact ⟨Int.tdiv_le_tdiv hk hlow, Int.tdiv_le_tdiv hk hhigh, hlow.trans hhigh⟩

section Coefficient

variable {d : SortedIntervalList} {coeff : Int64} (hcoeff : coeff ≠ kint64min)

include hcoeff

/-- The absolute value of a coefficient that is not zero is positive. -/
theorem abs_pos_toInt (hne : coeff ≠ 0) : 0 < coeff.abs.toInt := by
  rw [abs_toInt hcoeff]
  exact abs_pos.mpr fun h => hne (Int64.toInt.inj h)

/-- The coefficient, from its absolute value. -/
theorem signed_abs : coeff.toInt = if coeff < 0 then -coeff.abs.toInt else coeff.abs.toInt := by
  rw [abs_toInt hcoeff]
  split
  · rename_i hneg
    rw [abs_of_neg (Int64.lt_iff_toInt_lt.mp hneg), Int.neg_neg]
  · rename_i hpos
    rw [abs_of_nonneg (not_lt.mp (mt Int64.lt_iff_toInt_lt.mpr hpos))]

omit hcoeff in
/-- The sign of the coefficient comes last, and loses nothing. -/
theorem signed_exact {e : SortedIntervalList} (he : e.Normal) {s : Set ℤ}
    (hvalues : ∀ x, x ∈ e.Values ↔ (if coeff < 0 then -x else x) ∈ s) :
    (if coeff < 0 then e.Negation else e).Normal ∧
      (if coeff < 0 then e.Negation else e).Values = {x | x ∈ Words ∧ x ∈ s} := by
  by_cases hneg : coeff < 0
  · obtain ⟨hnegated, hopposite⟩ := negation_values he
    rw [if_pos hneg, hopposite]
    refine ⟨hnegated, Set.ext fun y => ?_⟩
    have hmember := hvalues (-y)
    rw [if_pos hneg, Int.neg_neg] at hmember
    rw [Set.mem_ofPred_eq, Set.mem_ofPred_eq, ← hmember]
    refine and_congr_left fun hy => ⟨fun hhigh => ⟨?_, hhigh⟩, fun hword => hword.2⟩
    have hword := (values_subset hy).2
    have hmin : kint64min.toInt = -2 ^ 63 := rfl
    have hmax : kint64max.toInt = 2 ^ 63 - 1 := rfl
    omega
  · rw [if_neg hneg]
    refine ⟨he, Set.ext fun y => ?_⟩
    have hmember := hvalues y
    rw [if_neg hneg] at hmember
    rw [Set.mem_ofPred_eq, ← hmember]
    exact (and_iff_right_of_imp fun hy => values_subset hy).symm

/-- **The values whose multiples are in the domain**, all of them and no others. -/
theorem inverse_values (hd : d.Normal) :
    (d.InverseMultiplicationBy coeff).Normal ∧
      (d.InverseMultiplicationBy coeff).Values =
        {x | x ∈ Words ∧ coeff.toInt * x ∈ d.Values} := by
  unfold InverseMultiplicationBy
  by_cases hzero : coeff = 0
  · rw [if_pos hzero]
    have hmem : d.Contains 0 = true ↔ (0 : ℤ) ∈ d.Values := contains_iff_mem hd 0
    have hproduct : ∀ x : ℤ, coeff.toInt * x = 0 := by
      intro x
      rw [hzero, Int64.toInt_zero, Int.zero_mul]
    simp only [hproduct]
    split
    · rename_i hcontains
      refine ⟨by decide, Set.ext fun x => ?_⟩
      change Covers [_] x ↔ x ∈ Words ∧ _
      rw [and_iff_left (hmem.mp hcontains)]
      simp [Covers, Words, ends]
    · rename_i hnot
      refine ⟨by decide, Set.ext fun x => ?_⟩
      exact iff_of_false (by simp [Values, Covers]) fun h => hnot (hmem.mpr h.2)
  · rw [if_neg hzero]
    obtain ⟨hseparated, hcovers⟩ := @inverseLoop_spec _ (abs_pos_toInt hcoeff hzero) d.intervals_
      [] separated_nil (normal_iff.mp hd) (fun j hj => absurd hj List.not_mem_nil)
    refine signed_exact (s := {x | coeff.toInt * x ∈ d.Values}) (normal_iff.mpr hseparated)
      fun x => (hcovers x).trans ((or_iff_right (by simp [Covers])).trans ?_)
    have hproduct : coeff.toInt * (if coeff < 0 then -x else x) = x * coeff.abs.toInt := by
      rw [signed_abs hcoeff, Int.mul_comm]
      split
      · rw [Int.neg_mul_neg]
      · rfl
    rw [Set.mem_ofPred_eq, hproduct]
    rfl

/-- **The quotients of the members**, rounded towards zero, as far as they are
words. -/
theorem quotient_values (hne : coeff ≠ 0) (hd : d.Normal) :
    (d.DivisionBy coeff).Normal ∧ (d.DivisionBy coeff).Values =
      {y | y ∈ Words ∧ ∃ x ∈ d.Values, x.tdiv coeff.toInt = y} := by
  have hk := abs_pos_toInt hcoeff hne
  have hquotient : ∀ x : Int64, (x / coeff.abs).toInt = x.toInt.tdiv coeff.abs.toInt := fun x =>
    Int64.toInt_div_of_ne_right _ _ fun h => by rw [h] at hk; exact absurd hk (by decide)
  have hseparated := normal_iff.mp hd
  obtain ⟨hnormal, hmem⟩ := moved_spec (f := fun x => x / coeff.abs) (fun {x y} hxy => by
    rw [hquotient, hquotient]
    exact Int.tdiv_le_tdiv hk hxy) hseparated
  have hvalues : ∀ y, (∃ i ∈ d.intervals_, (i.1 / coeff.abs).toInt ≤ y ∧
      y ≤ (i.2 / coeff.abs).toInt) ↔ ∃ x ∈ d.Values, x.tdiv coeff.abs.toInt = y := by
    intro y
    constructor
    · rintro ⟨i, hi, hlow, hhigh⟩
      rw [hquotient] at hlow hhigh
      have hordered := hseparated.ordered _ (List.mem_map_of_mem hi)
      obtain ⟨x, hx, rfl⟩ := (tdiv_between hk).mp ⟨hlow, hhigh, hordered⟩
      exact ⟨x, ⟨_, List.mem_map_of_mem hi, hx⟩, rfl⟩
    · rintro ⟨x, ⟨_, hends, hx⟩, rfl⟩
      obtain ⟨i, hi, rfl⟩ := List.mem_map.mp hends
      obtain ⟨hlow, hhigh, -⟩ := (tdiv_between hk).mpr ⟨x, hx, rfl⟩
      refine ⟨i, hi, ?_⟩
      rw [hquotient, hquotient]
      exact ⟨hlow, hhigh⟩
  refine signed_exact (s := {y | ∃ x ∈ d.Values, x.tdiv coeff.toInt = y}) hnormal
    fun y => (hmem y).trans ((hvalues y).trans (exists_congr fun x => and_congr_right fun _ => ?_))
  rw [signed_abs hcoeff]
  split
  · rw [Int.tdiv_neg, neg_inj]
  · rfl

end Coefficient

/-- **A domain divided by a coefficient.**  One way it has the values whose
multiples are in the domain, the other way the quotients of its values, rounded
towards zero. -/
theorem coefficient_quotients {d : SortedIntervalList} {coeff : Int64}
    (hcoeff : coeff ≠ kint64min) (hd : d.Normal) :
    (d.InverseMultiplicationBy coeff).Normal ∧
    (d.InverseMultiplicationBy coeff).Values = {x | x ∈ Words ∧ coeff.toInt * x ∈ d.Values} ∧
    (coeff ≠ 0 → (d.DivisionBy coeff).Normal ∧ (d.DivisionBy coeff).Values =
      {y | y ∈ Words ∧ ∃ x ∈ d.Values, x.tdiv coeff.toInt = y}) := by
  obtain ⟨hnormal, hvalues⟩ := inverse_values hcoeff hd
  exact ⟨hnormal, hvalues, fun hne => quotient_values hcoeff hne hd⟩

/-- What twice the opposite of is the smallest word or at least three. -/
theorem coefficient_quotients_two :
    (SortedIntervalList.InverseMultiplicationBy ⟨[(kint64min, kint64min), (3, kint64max)]⟩
      (-2)).Values = {x | x ∈ Words ∧ (-2 : Int64).toInt * x ∈
        Values ⟨[(kint64min, kint64min), (3, kint64max)]⟩} :=
  (coefficient_quotients (by decide) (by decide)).2.1

end Cpsat.Checker
