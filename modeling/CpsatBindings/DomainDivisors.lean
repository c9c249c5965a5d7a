import CpsatBindings.DomainQuotients

/-!
# Domains divided by domains

The presolve needs a domain for a quotient or a remainder before it knows the
divisor.  It asks for a superset, computed from the ends of the two domains and,
where the divisor may have either sign, from its members next to zero.

* `division_superset` — every quotient that fits in a word is in the domain.
* `modulo_superset` — so is every remainder, for positive divisors.
-/

namespace Cpsat.Checker

open Cpsat.Proto Intervals SortedIntervalList

namespace SortedIntervalList

/-- The greatest value that is not above `input`, or `input` if there is none. -/
def ValueAtOrBefore (d : SortedIntervalList) (input : Int64) : Int64 :=
  match (d.intervals_.takeWhile fun i => i.1 ≤ input).getLast? with
  | none => input
  | some i => if input ≤ i.2 then input else i.2

/-- The least value that is not below `input`, or `input` if there is none. -/
def ValueAtOrAfter (d : SortedIntervalList) (input : Int64) : Int64 :=
  match (d.intervals_.dropWhile fun i => i.1 ≤ input).head? with
  | none => input
  | some next =>
    match (d.intervals_.takeWhile fun i => i.1 ≤ input).getLast? with
    | none => next.1
    | some i => if input ≤ i.2 then input else next.1

/-- The quotients by divisors between `rmin` and `rmax`, which are positive. -/
def positive_superset (lmin lmax rmin rmax : Int64) : SortedIntervalList :=
  ofEnds (min (lmin / rmax) (lmin / rmin)) (max (lmax / rmin) (lmax / rmax))

/-- The one quotient of two words that is not a word is replaced by the largest. -/
def safe_div (a b : Int64) : Int64 := if a = kint64min && b = -1 then kint64max else a / b

/-- The quotients by divisors between `rmin` and `rmax`, which are negative. -/
def negative_superset (lmin lmax rmin rmax : Int64) : SortedIntervalList :=
  ofEnds (min (safe_div lmax rmin) (safe_div lmax rmax))
    (max (safe_div lmin rmax) (safe_div lmin rmin))

/-- Zero is left out of the divisor, which falls into a negative and a positive
part. -/
def DivisionBySuperset (d divisor : SortedIntervalList) : SortedIntervalList :=
  if d.intervals_.isEmpty || divisor.intervals_.isEmpty then ⟨[]⟩
  else if divisor.Min = 0 && divisor.Max = 0 then ⟨[]⟩
  else if divisor.Min ≥ 0 then positive_superset d.Min d.Max (max divisor.Min 1) divisor.Max
  else if divisor.Max ≤ 0 then negative_superset d.Min d.Max divisor.Min (min divisor.Max (-1))
  else
    (negative_superset d.Min d.Max divisor.Min (divisor.ValueAtOrBefore (-1))).UnionWith
      (positive_superset d.Min d.Max (divisor.ValueAtOrAfter 1) divisor.Max)

/-- The remainders of the positive values from `min_value` to `max_value`. -/
def ModuloHelper (min_value max_value : Int64) (modulo : SortedIntervalList) :
    SortedIntervalList :=
  let max_mod := modulo.Max - 1
  if modulo.Min = modulo.Max then
    let size := max_value - min_value
    let v1 := min_value % modulo.Max
    if v1 + size > max_mod then ofEnds 0 max_mod else ofEnds v1 (v1 + size)
  else ofEnds 0 (min max_value max_mod)

/-- The remainders by a positive domain; those of negative values are opposites of
remainders of positive ones. -/
def PositiveModuloBySuperset (d modulo : SortedIntervalList) : SortedIntervalList :=
  if d.intervals_.isEmpty then ⟨[]⟩
  else
    let max_mod := modulo.Max - 1
    if d.Max ≥ 0 && d.Min ≤ 0 then ofEnds (max d.Min (-max_mod)) (min d.Max max_mod)
    else if d.Min > 0 then ModuloHelper d.Min d.Max modulo
    else (ModuloHelper (-d.Max) (-d.Min) modulo).Negation

end SortedIntervalList

/-- A domain made of two ends has what lies between them. -/
theorem ofEnds_values (left right : Int64) : (ofEnds left right).Normal ∧
    (ofEnds left right).Values = {x | left.toInt ≤ x ∧ x ≤ right.toInt} := by
  unfold ofEnds
  split
  · rename_i hnone
    rw [gt_iff_lt, Int64.lt_iff_toInt_lt] at hnone
    refine ⟨normal_iff.mpr separated_nil, Set.ext fun x => ?_⟩
    refine iff_of_false (by simp [Values, Covers]) fun h => ?_
    exact absurd (h.1.trans h.2) (not_le.mpr hnone)
  · rename_i hsome
    rw [gt_iff_lt, Int64.lt_iff_toInt_lt, not_lt] at hsome
    refine ⟨normal_iff.mpr (separated_singleton hsome), Set.ext fun x => ?_⟩
    simp [Values, Covers, ends]

/-! ## Ends and members -/

section Members

variable {d : SortedIntervalList} (hd : d.Normal) {x : ℤ} (hx : x ∈ d.Values)

include hd hx

/-- The members are between the ends. -/
theorem members_between : d.Min.toInt ≤ x ∧ x ≤ d.Max.toInt := by
  have hne : d.intervals_ ≠ [] := by
    rintro hnil
    obtain ⟨i, hi, -⟩ := hx
    rw [hnil] at hi
    exact absurd hi List.not_mem_nil
  have hbounds := (normal_iff.mp hd).bounds hx (by simpa using hne)
  rw [List.head_map, List.getLast_map] at hbounds
  rw [SortedIntervalList.Min, SortedIntervalList.Max, List.head?_eq_some_head hne,
    List.getLast?_eq_some_getLast hne]
  exact hbounds

end Members

/-! ## The member before and the one after -/

section Search

variable {l : List ClosedInterval} (hl : Separated (l.map ends)) {input : Int64}

include hl

/-- What is dropped begins later than the input. -/
theorem begins_late : ∀ i ∈ l.dropWhile (fun i => i.1 ≤ input), input.toInt < i.1.toInt := by
  induction l with
  | nil => exact fun i hi => absurd hi List.not_mem_nil
  | cons i rest ih =>
      by_cases hi : i.1 ≤ input
      · rw [List.dropWhile_cons_of_pos (by simpa using hi)]
        exact ih hl.tail
      · rw [List.dropWhile_cons_of_neg (by simpa using hi)]
        rw [Int64.le_iff_toInt_le, not_le] at hi
        have hbeyond := List.forall_mem_map (f := ends) |>.mp hl.beyond
        have hordered := hl.ordered (ends i) List.mem_cons_self
        refine List.forall_mem_cons.mpr ⟨hi, fun j hj => ?_⟩
        have hj := hbeyond j hj
        dsimp only [ends] at hj hordered
        omega

/-- The first interval that is dropped begins first. -/
theorem begins_first {next : ClosedInterval}
    (hnext : (l.dropWhile fun i => i.1 ≤ input).head? = some next) :
    ∀ i ∈ l.dropWhile (fun i => i.1 ≤ input), next.1.toInt ≤ i.1.toInt := by
  obtain ⟨rest, hrest⟩ := List.head?_eq_some_iff.mp hnext
  have hsorted : l.Pairwise fun i j => (ends i).1 ≤ (ends j).1 :=
    List.pairwise_map (f := ends) (R := fun i j => i.1 ≤ j.1) |>.mp hl.sorted
  have hdropped := hsorted.sublist (List.dropWhile_sublist fun i => i.1 ≤ input)
  rw [hrest] at hdropped ⊢
  exact List.forall_mem_cons.mpr ⟨le_refl _, (List.pairwise_cons.mp hdropped).1⟩

/-- The last interval that is taken ends last. -/
theorem ends_last {last : ClosedInterval}
    (hlast : (l.takeWhile fun i => i.1 ≤ input).getLast? = some last) :
    ∀ i ∈ l.takeWhile (fun i => i.1 ≤ input), i.2.toInt ≤ last.2.toInt := by
  obtain ⟨front, hfront⟩ := List.getLast?_eq_some_iff.mp hlast
  obtain ⟨hordered, hapart⟩ := separated_iff_pairwise.mp hl
  have hmem : last ∈ l := List.takeWhile_subset _ (List.mem_of_getLast? hlast)
  have hlastOrdered := hordered (ends last) (List.mem_map_of_mem hmem)
  have htaken := (List.pairwise_map.mp hapart).sublist
    (List.takeWhile_sublist fun i => i.1 ≤ input)
  rw [hfront, List.pairwise_append] at htaken
  rw [hfront, List.forall_mem_append, List.forall_mem_singleton]
  refine ⟨fun i hi => ?_, le_refl _⟩
  have hi := htaken.2.2 i hi last List.mem_cons_self
  dsimp only [ends] at hi hlastOrdered
  omega

omit hl in
/-- A member is in an interval that is taken, or in one that is dropped. -/
theorem member_interval {x : ℤ} (hx : Covers (l.map ends) x) :
    (∃ j ∈ l.takeWhile (fun i => i.1 ≤ input), x ≤ j.2.toInt) ∨
      ∃ j ∈ l.dropWhile (fun i => i.1 ≤ input), j.1.toInt ≤ x := by
  obtain ⟨_, hends, hlow, hhigh⟩ := hx
  obtain ⟨j, hj, rfl⟩ := List.mem_map.mp hends
  rw [← List.takeWhile_append_dropWhile (p := fun i : ClosedInterval => decide (i.1 ≤ input))
    (l := l), List.mem_append] at hj
  exact hj.imp (fun hj => ⟨j, hj, hhigh⟩) fun hj => ⟨j, hj, hlow⟩

end Search

theorem valueAtOrBefore_le (d : SortedIntervalList) (input : Int64) :
    (d.ValueAtOrBefore input).toInt ≤ input.toInt := by
  unfold ValueAtOrBefore
  split
  · exact le_refl _
  · split
    · exact le_refl _
    · rename_i hlate
      rw [Int64.le_iff_toInt_le, not_le] at hlate
      exact hlate.le

section Neighbours

variable {d : SortedIntervalList} (hd : d.Normal) {x : ℤ} (hx : x ∈ d.Values) {input : Int64}

include hd hx

/-- No member up to the input is beyond the one found. -/
theorem le_valueAtOrBefore (hinput : x ≤ input.toInt) :
    x ≤ (d.ValueAtOrBefore input).toInt := by
  have hseparated := normal_iff.mp hd
  unfold ValueAtOrBefore
  cases hlast : (d.intervals_.takeWhile fun i => i.1 ≤ input).getLast? with
  | none => exact hinput
  | some last =>
      dsimp only
      split
      · exact hinput
      · rcases member_interval hx with ⟨j, hj, hhigh⟩ | ⟨j, hj, hlow⟩
        · exact hhigh.trans (ends_last hseparated hlast j hj)
        · have hlate := begins_late hseparated j hj
          omega

/-- The value found is one from the input on, and no such member is before it. -/
theorem valueAtOrAfter_le (hinput : input.toInt ≤ x) :
    input.toInt ≤ (d.ValueAtOrAfter input).toInt ∧ (d.ValueAtOrAfter input).toInt ≤ x := by
  have hseparated := normal_iff.mp hd
  unfold ValueAtOrAfter
  cases hnext : (d.intervals_.dropWhile fun i => i.1 ≤ input).head? with
  | none => exact ⟨le_refl _, hinput⟩
  | some next =>
      have hlate := begins_late hseparated next (List.mem_of_mem_head? hnext)
      have hfirst := begins_first hseparated hnext
      dsimp only
      cases hlast : (d.intervals_.takeWhile fun i => i.1 ≤ input).getLast? with
      | none =>
          refine ⟨hlate.le, ?_⟩
          rcases member_interval hx with ⟨j, hj, -⟩ | ⟨j, hj, hlow⟩
          · rw [List.getLast?_eq_none_iff.mp hlast] at hj
            exact absurd hj List.not_mem_nil
          · exact (hfirst j hj).trans hlow
      | some last =>
          dsimp only
          split
          · exact ⟨le_refl _, hinput⟩
          · rename_i hbeyond
            rw [Int64.le_iff_toInt_le, not_le] at hbeyond
            refine ⟨hlate.le, ?_⟩
            rcases member_interval hx with ⟨j, hj, hhigh⟩ | ⟨j, hj, hlow⟩
            · have hends := ends_last hseparated hlast j hj
              omega
            · exact (hfirst j hj).trans hlow

end Neighbours

/-! ## Quotients -/

/-- A larger divisor makes the quotient smaller. -/
theorem tdiv_antitone {a b c : ℤ} (ha : 0 ≤ a) (hb : 0 < b) (hbc : b ≤ c) :
    a.tdiv c ≤ a.tdiv b := by
  refine Int.le_tdiv_of_mul_le hb ?_
  have hle : a.tdiv c * b ≤ a.tdiv c * c :=
    Int.mul_le_mul_of_nonneg_left hbc (Int.tdiv_nonneg ha (by omega))
  have hsplit : a.tdiv c * c + a.tmod c = a := Int.tdiv_mul_add_tmod ..
  have hrest : 0 ≤ a.tmod c := Int.tmod_nonneg _ ha
  omega

/-- The quotients by positive divisors are between those of the ends. -/
theorem tdiv_corners {lmin lmax rmin rmax x y : ℤ} (hr : 0 < rmin) (hx : lmin ≤ x ∧ x ≤ lmax)
    (hy : rmin ≤ y ∧ y ≤ rmax) :
    min (lmin.tdiv rmax) (lmin.tdiv rmin) ≤ x.tdiv y ∧
      x.tdiv y ≤ max (lmax.tdiv rmin) (lmax.tdiv rmax) := by
  have hpos : 0 < y := by omega
  have hlow := Int.tdiv_le_tdiv hpos hx.1
  have hhigh := Int.tdiv_le_tdiv hpos hx.2
  constructor
  · rcases le_total 0 lmin with hsign | hsign
    · have hcorner := tdiv_antitone hsign hpos hy.2
      omega
    · have hcorner := tdiv_antitone (show 0 ≤ -lmin by omega) hr hy.1
      rw [Int.neg_tdiv, Int.neg_tdiv] at hcorner
      omega
  · rcases le_total 0 lmax with hsign | hsign
    · have hcorner := tdiv_antitone hsign hr hy.1
      omega
    · have hcorner := tdiv_antitone (show 0 ≤ -lmax by omega) hpos hy.2
      rw [Int.neg_tdiv, Int.neg_tdiv] at hcorner
      omega

section Divisor

variable {lmin lmax rmin rmax : Int64} {x y : ℤ} (hx : lmin.toInt ≤ x ∧ x ≤ lmax.toInt)
  (hy : rmin.toInt ≤ y ∧ y ≤ rmax.toInt) (hword : x.tdiv y ∈ Words)

include hx hy

/-- A quotient by a positive divisor is between the quotients of the ends. -/
theorem positive_values (hr : 0 < rmin.toInt) :
    x.tdiv y ∈ (positive_superset lmin lmax rmin rmax).Values := by
  have hquotient : ∀ a b : Int64, 0 < b.toInt → (a / b).toInt = a.toInt.tdiv b.toInt :=
    fun a b hb => Int64.toInt_div_of_ne_right _ _ (by rintro rfl; exact absurd hb (by decide))
  have hlast : 0 < rmax.toInt := by omega
  rw [positive_superset, (ofEnds_values _ _).2, Set.mem_ofPred_eq, min_toInt, max_toInt,
    hquotient _ _ hr, hquotient _ _ hr, hquotient _ _ hlast, hquotient _ _ hlast]
  exact tdiv_corners hr hx hy

include hword

/-- And so is one by a negative divisor, as long as it is a word. -/
theorem negative_values (hr : rmax.toInt < 0) :
    x.tdiv y ∈ (negative_superset lmin lmax rmin rmax).Values := by
  have hmax : kint64max.toInt = 2 ^ 63 - 1 := rfl
  have hquotient : ∀ a b : Int64, b.toInt < 0 →
      (safe_div a b).toInt = min (a.toInt.tdiv b.toInt) kint64max.toInt := by
    intro a b hb
    unfold safe_div
    simp only [Bool.and_eq_true, decide_eq_true_iff]
    split
    · rename_i hcorner
      rw [hcorner.1, hcorner.2]
      rfl
    · rename_i hcorner
      have hexact : (a / b).toInt = a.toInt.tdiv b.toInt := by
        by_cases ha : a = kint64min
        · exact Int64.toInt_div_of_ne_right _ _ fun hb => hcorner ⟨ha, hb⟩
        · exact Int64.toInt_div_of_ne_left _ _ ha
      have hlast := (a / b).toInt_lt
      omega
  have hfirst : rmin.toInt < 0 := by omega
  rw [negative_superset, (ofEnds_values _ _).2, Set.mem_ofPred_eq, min_toInt, max_toInt,
    hquotient _ _ hr, hquotient _ _ hr, hquotient _ _ hfirst, hquotient _ _ hfirst]
  have hcorners := @tdiv_corners (-lmax.toInt) (-lmin.toInt) (-rmax.toInt) (-rmin.toInt) (-x) (-y)
    (by omega) (by omega) (by omega)
  simp only [Int.neg_tdiv_neg] at hcorners
  have hhigh := hword.2
  omega

end Divisor

/-- **The quotients of the members are in the domain computed for them.** -/
theorem division_superset {d divisor : SortedIntervalList} (hd : d.Normal)
    (hdivisor : divisor.Normal) :
    (d.DivisionBySuperset divisor).Normal ∧ ∀ x ∈ d.Values, ∀ y ∈ divisor.Values, y ≠ 0 →
      x.tdiv y ∈ Words → x.tdiv y ∈ (d.DivisionBySuperset divisor).Values := by
  have hpositive : ∀ lmin lmax rmin rmax, (positive_superset lmin lmax rmin rmax).Normal :=
    fun _ _ _ _ => (ofEnds_values _ _).1
  have hnegative : ∀ lmin lmax rmin rmax, (negative_superset lmin lmax rmin rmax).Normal :=
    fun _ _ _ _ => (ofEnds_values _ _).1
  have hnil : Normal ⟨[]⟩ := normal_iff.mpr separated_nil
  unfold DivisionBySuperset
  split
  · rename_i hempty
    refine ⟨hnil, fun x hx y hy => ?_⟩
    rw [Bool.or_eq_true, List.isEmpty_iff, List.isEmpty_iff] at hempty
    rcases hempty with hnone | hnone
    · exact absurd hx (by simp [Values, Covers, hnone])
    · exact absurd hy (by simp [Values, Covers, hnone])
  split
  · rename_i hzero
    simp only [Bool.and_eq_true, decide_eq_true_iff] at hzero
    refine ⟨hnil, fun x hx y hy hne => ?_⟩
    have hends := members_between hdivisor hy
    rw [hzero.1, hzero.2, Int64.toInt_zero] at hends
    exact absurd (le_antisymm hends.2 hends.1) hne
  split
  · rename_i hsign
    rw [ge_iff_le, Int64.le_iff_toInt_le, Int64.toInt_zero] at hsign
    refine ⟨hpositive _ _ _ _, fun x hx y hy hne hword => ?_⟩
    have hends := members_between hdivisor hy
    have hone : (max divisor.Min 1).toInt = max divisor.Min.toInt 1 := max_toInt _ _
    exact positive_values (members_between hd hx) (by omega) (by omega)
  split
  · rename_i hsign
    rw [Int64.le_iff_toInt_le, Int64.toInt_zero] at hsign
    refine ⟨hnegative _ _ _ _, fun x hx y hy hne hword => ?_⟩
    have hends := members_between hdivisor hy
    have hone : (min divisor.Max (-1)).toInt = min divisor.Max.toInt (-1) := min_toInt _ _
    exact negative_values (members_between hd hx) (by omega) hword (by omega)
  · have hunion := @union_values
      (negative_superset d.Min d.Max divisor.Min (divisor.ValueAtOrBefore (-1)))
      (positive_superset d.Min d.Max (divisor.ValueAtOrAfter 1) divisor.Max)
      (hnegative _ _ _ _) (hpositive _ _ _ _)
    refine ⟨hunion.1, fun x hx y hy hne hword => ?_⟩
    rw [hunion.2]
    have hends := members_between hdivisor hy
    have hminus : (-1 : Int64).toInt = -1 := rfl
    rcases lt_or_gt_of_ne hne with hneg | hpos
    · left
      have hbefore := @le_valueAtOrBefore _ hdivisor _ hy (-1) (by omega)
      have hbelow := valueAtOrBefore_le divisor (-1)
      exact negative_values (members_between hd hx) ⟨hends.1, hbefore⟩ hword (by omega)
    · right
      have hafter := @valueAtOrAfter_le _ hdivisor _ hy 1 hpos
      exact positive_values (members_between hd hx) ⟨hafter.2, hends.2⟩ (by
        have hone : (1 : Int64).toInt = 1 := rfl
        omega)

/-- `-7` divided by `-2`, between a negative and a positive divisor. -/
theorem division_superset_seven :
    (-7 : ℤ).tdiv (-2) ∈ (DivisionBySuperset ⟨[(-7, 7)]⟩ ⟨[(-2, -1), (3, 4)]⟩).Values :=
  (division_superset (by decide) (by decide)).2 (-7)
    ⟨_, List.mem_cons_self, by decide, by decide⟩ (-2)
    ⟨_, List.mem_cons_self, by decide, by decide⟩ (by decide) ⟨by decide, by decide⟩

/-! ## Remainders -/

/-- A remainder is smaller than the divisor, and has the sign of the value. -/
theorem tmod_between {x m : ℤ} (hm : 0 < m) : -m < x.tmod m ∧ x.tmod m < m ∧
    (0 ≤ x → 0 ≤ x.tmod m ∧ x.tmod m ≤ x) ∧ (x ≤ 0 → x ≤ x.tmod m ∧ x.tmod m ≤ 0) := by
  have hpos : ∀ z : ℤ, 0 ≤ z → 0 ≤ z.tmod m ∧ z.tmod m ≤ z := by
    intro z hz
    have hsplit : z.tdiv m * m + z.tmod m = z := Int.tdiv_mul_add_tmod ..
    have hquotient : 0 ≤ z.tdiv m * m := Int.mul_nonneg (Int.tdiv_nonneg hz hm.le) hm.le
    exact ⟨Int.tmod_nonneg _ hz, by omega⟩
  refine ⟨Int.lt_tmod_of_pos _ hm, Int.tmod_lt_of_pos _ hm, hpos x, fun hx => ?_⟩
  have hneg := hpos (-x) (by omega)
  rw [Int.neg_tmod] at hneg
  omega

/-- What the helper answers is in normal form. -/
theorem helper_normal (min_value max_value : Int64) (modulo : SortedIntervalList) :
    (ModuloHelper min_value max_value modulo).Normal := by
  unfold ModuloHelper
  dsimp only
  split
  · split
    · exact (ofEnds_values _ _).1
    · exact (ofEnds_values _ _).1
  · exact (ofEnds_values _ _).1

section Modulo

variable {modulo : SortedIntervalList} (hmodulo : modulo.Normal) {x m : ℤ}
  (hm : m ∈ modulo.Values) (hpositive : 0 < modulo.Min)

include hmodulo hm hpositive

/-- The greatest remainder. -/
theorem max_mod_toInt :
    0 < m ∧ m ≤ modulo.Max.toInt ∧ (modulo.Max - 1).toInt = modulo.Max.toInt - 1 := by
  have hends := members_between hmodulo hm
  rw [Int64.lt_iff_toInt_lt, Int64.toInt_zero] at hpositive
  refine ⟨by omega, hends.2, toInt_pred fun h => ?_⟩
  rw [h] at hends
  have hmin : kint64min.toInt = -2 ^ 63 := rfl
  omega

/-- Its answer has the remainders of positive values. -/
theorem helper_values {min_value max_value : Int64} (hmin : 0 < min_value.toInt)
    (hx : min_value.toInt ≤ x ∧ x ≤ max_value.toInt) :
    x.tmod m ∈ (ModuloHelper min_value max_value modulo).Values := by
  have hends := members_between hmodulo hm
  obtain ⟨hm, -, hlast⟩ := max_mod_toInt hmodulo hm hpositive
  have hremainder := @tmod_between x m hm
  unfold ModuloHelper
  dsimp only
  split
  · rename_i hfixed
    rw [hfixed] at hends
    obtain rfl : m = modulo.Max.toInt := le_antisymm hends.2 hends.1
    have hrest := @tmod_between min_value.toInt modulo.Max.toInt (by omega)
    have hhigh := max_value.toInt_lt
    have hsize : (max_value - min_value).toInt = max_value.toInt - min_value.toInt := by
      rw [Int64.toInt_sub]
      exact Int.bmod_eq_of_le (by omega) (by omega)
    have hsum : (min_value % modulo.Max + (max_value - min_value)).toInt =
        min_value.toInt.tmod modulo.Max.toInt + (max_value.toInt - min_value.toInt) := by
      rw [Int64.toInt_add, Int64.toInt_mod, hsize]
      exact Int.bmod_eq_of_le (by omega) (by omega)
    split
    · rw [(ofEnds_values _ _).2, Set.mem_ofPred_eq, hlast, Int64.toInt_zero]
      omega
    · rename_i hwhole
      rw [gt_iff_lt, Int64.lt_iff_toInt_lt, hsum, hlast, not_lt] at hwhole
      -- no multiple of the divisor is passed
      have hsplit : min_value.toInt.tdiv modulo.Max.toInt * modulo.Max.toInt +
          min_value.toInt.tmod modulo.Max.toInt = min_value.toInt := Int.tdiv_mul_add_tmod ..
      have hvalue : x.tmod modulo.Max.toInt =
          min_value.toInt.tmod modulo.Max.toInt + (x - min_value.toInt) := by
        rw [Int.tmod_eq_emod_of_nonneg (show 0 ≤ x by omega)]
        calc x % modulo.Max.toInt
            = (min_value.toInt.tmod modulo.Max.toInt + (x - min_value.toInt) +
                min_value.toInt.tdiv modulo.Max.toInt * modulo.Max.toInt) % modulo.Max.toInt := by
              congr 1
              omega
          _ = (min_value.toInt.tmod modulo.Max.toInt + (x - min_value.toInt)) %
                modulo.Max.toInt := Int.add_mul_emod_self_right ..
          _ = _ := Int.emod_eq_of_lt (by omega) (by omega)
      rw [(ofEnds_values _ _).2, Set.mem_ofPred_eq, hsum, Int64.toInt_mod, hvalue]
      omega
  · rw [(ofEnds_values _ _).2, Set.mem_ofPred_eq, min_toInt, hlast, Int64.toInt_zero]
    omega

/-- The answer has the remainders of all values. -/
theorem modulo_values {d : SortedIntervalList} (hd : d.Normal) (hword : d.Min ≠ kint64min)
    (hx : x ∈ d.Values) : x.tmod m ∈ (d.PositiveModuloBySuperset modulo).Values := by
  have hbetween := members_between hd hx
  obtain ⟨hpos, hle, hlast⟩ := max_mod_toInt hmodulo hm hpositive
  have hremainder := @tmod_between x m hpos
  unfold PositiveModuloBySuperset
  split
  · rename_i hempty
    exact absurd hx (by simp [Values, Covers, List.isEmpty_iff.mp hempty])
  dsimp only
  split
  · rename_i hzero
    simp only [Bool.and_eq_true, decide_eq_true_iff, ge_iff_le, Int64.le_iff_toInt_le,
      Int64.toInt_zero] at hzero
    have hopposite : (-(modulo.Max - 1)).toInt = -(modulo.Max.toInt - 1) := by
      rw [toInt_neg_of_ne, hlast]
      intro h
      rw [h] at hlast
      have hmin : Int64.minValue.toInt = -2 ^ 63 := rfl
      omega
    rw [(ofEnds_values _ _).2, Set.mem_ofPred_eq, max_toInt, min_toInt, hopposite, hlast]
    omega
  rename_i hapart
  simp only [Bool.and_eq_true, decide_eq_true_iff, ge_iff_le, Int64.le_iff_toInt_le,
    Int64.toInt_zero, not_and] at hapart
  split
  · rename_i habove
    rw [gt_iff_lt, Int64.lt_iff_toInt_lt, Int64.toInt_zero] at habove
    exact helper_values hmodulo hm hpositive habove hbetween
  · rename_i hbelow
    rw [gt_iff_lt, Int64.lt_iff_toInt_lt, Int64.toInt_zero] at hbelow
    have hmin : kint64min.toInt = -2 ^ 63 := rfl
    have hfirst : (-d.Min).toInt = -d.Min.toInt := toInt_neg_of_ne hword
    have hmaxNe : d.Max ≠ kint64min := by
      intro h
      have hlow := d.Min.le_toInt
      refine hword (Int64.toInt.inj ?_)
      rw [h] at hbetween
      omega
    have hsecond : (-d.Max).toInt = -d.Max.toInt := toInt_neg_of_ne hmaxNe
    have hhelper := @helper_values _ hmodulo (-x) _ hm hpositive (-d.Max) (-d.Min) (by omega)
      (by omega)
    rw [Int.neg_tmod] at hhelper
    rw [(negation_values (helper_normal _ _ _)).2]
    refine ⟨?_, hhelper⟩
    have hmax : kint64max.toInt = 2 ^ 63 - 1 := rfl
    omega

end Modulo

/-- **The remainders of the members are in the domain computed for them.** -/
theorem modulo_superset {d modulo : SortedIntervalList} (hd : d.Normal)
    (hmodulo : modulo.Normal) (hpositive : 0 < modulo.Min) (hword : d.Min ≠ kint64min) :
    (d.PositiveModuloBySuperset modulo).Normal ∧ ∀ x ∈ d.Values, ∀ m ∈ modulo.Values,
      x.tmod m ∈ (d.PositiveModuloBySuperset modulo).Values := by
  refine ⟨?_, fun x hx m hm => modulo_values hmodulo hm hpositive hd hword hx⟩
  unfold PositiveModuloBySuperset
  split
  · exact normal_iff.mpr separated_nil
  dsimp only
  split
  · exact (ofEnds_values _ _).1
  split
  · exact helper_normal _ _ _
  · exact (negation_values (helper_normal _ _ _)).1

/-- The remainder of `-7` by `4`. -/
theorem modulo_superset_seven :
    (-7 : ℤ).tmod 4 ∈ (PositiveModuloBySuperset ⟨[(-9, -7)]⟩ ⟨[(4, 5)]⟩).Values :=
  (modulo_superset (by decide) (by decide) (by decide) (by decide)).2 (-7)
    ⟨_, List.mem_cons_self, by decide, by decide⟩ 4
    ⟨_, List.mem_cons_self, by decide, by decide⟩

end Cpsat.Checker
