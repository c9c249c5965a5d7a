import CpsatBindings.IntervalUnion
import CpsatBindings.SolutionChecker

/-!
# Sorted interval lists

The class `Domain` of `ortools/util/sorted_interval_list.cc`, as far as the
validator uses it.  The class keeps its intervals in normal form, so that one
binary search decides membership, while a domain in a message is a flat list
that is searched from one end to the other.

`fromFlat_contains` says that the two agree: reading a flat list into the class
sorts it, drops the empty intervals and joins the others, and changes no
answer.
-/

namespace Cpsat.Checker

open Cpsat.Proto Intervals

/-- Where it starts and where it ends, both included. -/
abbrev ClosedInterval := Int64 × Int64

/-- The class `Domain`. -/
structure SortedIntervalList where
  intervals_ : List ClosedInterval

/-- What the class promises about its intervals. -/
def IntervalsAreSortedAndNonAdjacent : List ClosedInterval → Bool
  | [] => true
  | [i] => i.1 ≤ i.2
  | i :: j :: rest =>
    if i.1 > i.2 then false
    -- The first test makes sure that the `+ 1` does not overflow.
    else if i.2 ≥ j.1 || i.2 + 1 ≥ j.1 then false
    else IntervalsAreSortedAndNonAdjacent (j :: rest)

/-- Intervals that start together end up joined, so their order is free. -/
def SortAndRemoveInvalidIntervals (intervals : List ClosedInterval) : List ClosedInterval :=
  (intervals.filter fun i => !(i.1 > i.2)).mergeSort fun i j => i.1 ≤ j.1

/-- The loop, with the interval at `new_size - 1`. -/
def unionLoop (last : ClosedInterval) : List ClosedInterval → List ClosedInterval
  | [] => [last]
  | current :: rest =>
    if last.2 = kint64max || current.1 ≤ last.2 + 1 then
      unionLoop (last.1, max current.2 last.2) rest
    else last :: unionLoop current rest

/-- One pass over intervals sorted by their starts. -/
def UnionOfSortedIntervals : List ClosedInterval → List ClosedInterval
  | [] => []
  | i :: rest => unionLoop i rest

namespace SortedIntervalList

/-- The domain of one value. -/
def ofValue (value : Int64) : SortedIntervalList := ⟨[(value, value)]⟩

/-- The domain between two ends, empty if they are the wrong way round. -/
def ofEnds (left right : Int64) : SortedIntervalList :=
  ⟨if left > right then [] else [(left, right)]⟩

/-- Any flat list is sorted and joined. -/
def FromFlatSpanOfIntervals (flat_intervals : Array Int64) : SortedIntervalList :=
  ⟨UnionOfSortedIntervals (SortAndRemoveInvalidIntervals
    ((List.range' 0 ((flat_intervals.size + 1) / 2) 2).map fun i =>
      (flat_intervals[i]!, flat_intervals[i + 1]!)))⟩

/-- The least value, if there is one. -/
def Min (d : SortedIntervalList) : Int64 := (d.intervals_.head?.getD (0, 0)).1

/-- The greatest value, if there is one. -/
def Max (d : SortedIntervalList) : Int64 := (d.intervals_.getLast?.getD (0, 0)).2

/-- `std::upper_bound` finds the first interval that starts after the value; the
one before it has a chance to contain it. -/
def Contains (d : SortedIntervalList) (value : Int64) : Bool :=
  match (d.intervals_.takeWhile fun i => i.1 ≤ value).getLast? with
  | none => false
  | some i => value ≤ i.2

/-- The opposites, clipped where the smallest word has none. -/
def Negation (d : SortedIntervalList) : SortedIntervalList :=
  let opposite (x : Int64) := if x = kint64min then kint64max else -x
  let reversed := d.intervals_.reverse
  let kept :=
    match reversed.getLast? with
    | some i => if i.2 = kint64min then reversed.dropLast else reversed
    | none => reversed
  ⟨kept.map fun i => (opposite i.2, opposite i.1)⟩

/-- Each interval of the one with each of the other. -/
def ContinuousMultiplicationBy (d domain : SortedIntervalList) : SortedIntervalList :=
  let intervals := d.intervals_.flatMap fun i => domain.intervals_.map fun j =>
    let a := CapProd i.1 j.1
    let b := CapProd i.2 j.2
    let c := CapProd i.1 j.2
    let d := CapProd i.2 j.1
    (min (min a b) (min c d), max (max a b) (max c d))
  ⟨UnionOfSortedIntervals (intervals.mergeSort fun i j => i.1 ≤ j.1)⟩

end SortedIntervalList

/-! ## Over the integers -/

/-- The greater word is the greater integer. -/
theorem max_toInt (x y : Int64) : (max x y).toInt = max x.toInt y.toInt := by
  change (if x ≤ y then y else x).toInt = _
  by_cases h : x ≤ y
  · rw [if_pos h, max_eq_right (Int64.le_iff_toInt_le.mp h)]
  · rw [if_neg h]
    rw [Int64.le_iff_toInt_le] at h
    exact (max_eq_left (by omega)).symm

/-- The smaller word is the smaller integer. -/
theorem min_toInt (x y : Int64) : (min x y).toInt = min x.toInt y.toInt := by
  change (if x ≤ y then x else y).toInt = _
  by_cases h : x ≤ y
  · rw [if_pos h, min_eq_left (Int64.le_iff_toInt_le.mp h)]
  · rw [if_neg h]
    rw [Int64.le_iff_toInt_le] at h
    exact (min_eq_right (by omega)).symm

/-- The integer interval of a closed interval. -/
def ends (i : ClosedInterval) : ℤ × ℤ := (i.1.toInt, i.2.toInt)

/-- The guarded test for the next interval is the test over the integers. -/
theorem joins_iff (last current : ClosedInterval) :
    (last.2 = kint64max || current.1 ≤ last.2 + 1) = true ↔
      (ends current).1 ≤ (ends last).2 + 1 := by
  have hmax : kint64max.toInt = 2 ^ 63 - 1 := rfl
  have hlow := last.2.le_toInt
  have hhigh := last.2.toInt_lt
  have hstart := current.1.toInt_lt
  rw [Bool.or_eq_true, decide_eq_true_iff, decide_eq_true_iff]
  by_cases hlast : last.2 = kint64max
  · have hend : (ends last).2 = 2 ^ 63 - 1 := by
      rw [← hmax, ← hlast]
      rfl
    refine iff_of_true (Or.inl hlast) ?_
    change current.1.toInt ≤ _
    omega
  · have hne : last.2.toInt ≠ 2 ^ 63 - 1 := fun heq => hlast (Int64.toInt.inj heq)
    rw [or_iff_right hlast, Int64.le_iff_toInt_le, Int64.toInt_add, Int64.toInt_one,
      Int.bmod_eq_of_le (by omega) (by omega)]
    rfl

/-- The loop joins as lists of integers are joined. -/
theorem unionLoop_ends (last : ClosedInterval) (l : List ClosedInterval) :
    (unionLoop last l).map ends = joinInto (ends last) (l.map ends) := by
  induction l generalizing last with
  | nil => rfl
  | cons current rest ih =>
      unfold unionLoop
      rw [List.map_cons]
      unfold joinInto
      by_cases h : (ends current).1 ≤ (ends last).2 + 1
      · rw [if_pos ((joins_iff last current).mpr h), if_pos h, ih]
        simp [ends, max_toInt]
      · rw [if_neg (mt (joins_iff last current).mp h), if_neg h, List.map_cons, ih]

theorem union_ends (l : List ClosedInterval) :
    (UnionOfSortedIntervals l).map ends = unionOfSorted (l.map ends) := by
  cases l with
  | nil => rfl
  | cons i rest => exact unionLoop_ends i rest

theorem sorted_ends (l : List ClosedInterval) :
    SortedByStart ((l.mergeSort fun i j => i.1 ≤ j.1).map ends) := by
  have hsorted := @List.pairwise_mergeSort _ (fun i j : ClosedInterval => decide (i.1 ≤ j.1))
    (by
      intro i j k
      simp only [decide_eq_true_iff, Int64.le_iff_toInt_le]
      omega)
    (by
      intro i j
      simp only [Bool.or_eq_true, decide_eq_true_iff, Int64.le_iff_toInt_le]
      omega) l
  refine List.pairwise_map.mpr (hsorted.imp fun hij => ?_)
  rw [decide_eq_true_iff, Int64.le_iff_toInt_le] at hij
  exact hij

/-- The normal form over words is the normal form over the integers. -/
theorem sortedAndNonAdjacent_iff (l : List ClosedInterval) :
    IntervalsAreSortedAndNonAdjacent l = true ↔ Separated (l.map ends) := by
  induction l with
  | nil => exact iff_of_true rfl separated_nil
  | cons i rest ih =>
      cases rest with
      | nil =>
          unfold IntervalsAreSortedAndNonAdjacent
          rw [decide_eq_true_iff, Int64.le_iff_toInt_le]
          constructor
          · intro h
            exact separated_singleton h
          · intro h
            exact h.ordered (ends i) List.mem_cons_self
      | cons j rest =>
          have hsplit : Separated (ends i :: ends j :: rest.map ends) ↔
              i.1.toInt ≤ i.2.toInt ∧ i.2.toInt + 1 < j.1.toInt ∧
                Separated (ends j :: rest.map ends) := by
            constructor
            · intro h
              exact ⟨h.ordered (ends i) List.mem_cons_self,
                (List.isChain_cons_cons.mp h.apart).1, h.tail⟩
            · rintro ⟨hi, hij, hrest⟩
              refine ⟨?_, List.isChain_cons_cons.mpr ⟨hij, hrest.apart⟩⟩
              intro k hk
              rcases List.mem_cons.mp hk with rfl | hk
              · exact hi
              · exact hrest.ordered k hk
          unfold IntervalsAreSortedAndNonAdjacent
          rw [List.map_cons, List.map_cons, hsplit, ← apart_in_two_steps, ← List.map_cons, ← ih]
          by_cases hi : i.1 > i.2
          · rw [if_pos hi]
            rw [gt_iff_lt, Int64.lt_iff_toInt_lt] at hi
            refine iff_of_false Bool.false_ne_true fun h => ?_
            omega
          · rw [if_neg hi]
            rw [gt_iff_lt, Int64.lt_iff_toInt_lt, not_lt] at hi
            split
            · rename_i hjoined
              refine iff_of_false Bool.false_ne_true fun h => ?_
              simp only [Bool.or_eq_true, decide_eq_true_iff] at hjoined
              exact hjoined.elim h.2.1.1 h.2.1.2
            · rename_i hapart
              simp only [Bool.or_eq_true, decide_eq_true_iff, not_or] at hapart
              exact ⟨fun h => ⟨hi, hapart, h⟩, fun h => h.2.2⟩

/-- The search decides membership in a list in normal form. -/
theorem contains_iff {d : SortedIntervalList} (h : Separated (d.intervals_.map ends))
    (value : Int64) : d.Contains value = true ↔ Covers (d.intervals_.map ends) value.toInt := by
  have htake : (d.intervals_.map ends).takeWhile (fun i => decide (i.1 ≤ value.toInt)) =
      (d.intervals_.takeWhile fun i => i.1 ≤ value).map ends := by
    have hstart : (fun i => decide (i.1 ≤ value.toInt)) ∘ ends =
        fun i : ClosedInterval => decide (i.1 ≤ value) := by
      funext i
      rw [Function.comp_apply, decide_eq_decide, Int64.le_iff_toInt_le]
      rfl
    rw [List.takeWhile_map, hstart]
  rw [h.covers_iff_last, htake, List.getLast?_map, SortedIntervalList.Contains]
  cases (d.intervals_.takeWhile fun i => i.1 ≤ value).getLast? with
  | none => simp
  | some i => simp [ends, Int64.le_iff_toInt_le]

/-! ## Reading a flat list -/

/-- Sorting and joining a list of intervals of which some may be empty. -/
theorem union_spec (l : List ClosedInterval) :
    Separated ((UnionOfSortedIntervals (SortAndRemoveInvalidIntervals l)).map ends) ∧
      ∀ x, Covers ((UnionOfSortedIntervals (SortAndRemoveInvalidIntervals l)).map ends) x ↔
        Covers (l.map ends) x := by
  have hsorted : SortedByStart ((SortAndRemoveInvalidIntervals l).map ends) :=
    sorted_ends (l.filter fun i => !(i.1 > i.2))
  have hmem : ∀ i, i ∈ SortAndRemoveInvalidIntervals l ↔ i ∈ l ∧ i.1.toInt ≤ i.2.toInt := by
    intro i
    rw [SortAndRemoveInvalidIntervals, List.mem_mergeSort, List.mem_filter, Bool.not_eq_true',
      decide_eq_false_iff_not, gt_iff_lt, Int64.lt_iff_toInt_lt, not_lt]
  have hordered : ∀ i ∈ (SortAndRemoveInvalidIntervals l).map ends, i.1 ≤ i.2 := by
    intro i hi
    obtain ⟨j, hj, rfl⟩ := List.mem_map.mp hi
    exact ((hmem j).mp hj).2
  rw [union_ends]
  refine ⟨separated_unionOfSorted hsorted hordered, fun x => ?_⟩
  rw [covers_unionOfSorted hsorted hordered]
  simp only [Covers, List.mem_map, exists_exists_and_eq_and, hmem]
  constructor
  · rintro ⟨i, ⟨hi, -⟩, hx⟩
    exact ⟨i, hi, hx⟩
  · rintro ⟨i, hi, hx⟩
    exact ⟨i, ⟨hi, hx.1.trans hx.2⟩, hx⟩

/-- **Reading a flat list changes no answer.**  The class finds a value exactly
if the pass over the flat list does, and its intervals are in normal form. -/
theorem fromFlat_contains (flat : Array Int64) :
    IntervalsAreSortedAndNonAdjacent
        (SortedIntervalList.FromFlatSpanOfIntervals flat).intervals_ = true ∧
      ∀ value, (SortedIntervalList.FromFlatSpanOfIntervals flat).Contains value =
        DomainInProtoContains flat value := by
  obtain ⟨hseparated, hcovers⟩ := union_spec
    ((List.range' 0 ((flat.size + 1) / 2) 2).map fun i => (flat[i]!, flat[i + 1]!))
  refine ⟨(sortedAndNonAdjacent_iff _).mpr hseparated, fun value => ?_⟩
  have hcontains := @contains_iff (SortedIntervalList.FromFlatSpanOfIntervals flat) hseparated value
  rw [Bool.eq_iff_iff, hcontains, SortedIntervalList.FromFlatSpanOfIntervals, hcovers,
    DomainInProtoContains, List.any_eq_true, List.map_map]
  simp only [Covers, List.mem_map, exists_exists_and_eq_and]
  refine exists_congr fun i => and_congr_right fun _ => ?_
  rw [Bool.and_eq_true, decide_eq_true_iff, decide_eq_true_iff, ge_iff_le,
    Int64.le_iff_toInt_le, Int64.le_iff_toInt_le]
  rfl

/-! ## Negation -/

section Negation

variable {l : List ClosedInterval}

/-- Only the first interval of a normal form can end with the smallest word, so
dropping it drops every such interval. -/
theorem kept_eq (h : Separated (l.map ends)) :
    (match l.reverse.getLast? with
      | some i => if i.2 = kint64min then l.reverse.dropLast else l.reverse
      | none => l.reverse) =
      (l.filter fun i => i.2 ≠ kint64min).reverse := by
  cases l with
  | nil => rfl
  | cons i rest =>
      have hrest : rest.filter (fun i => i.2 ≠ kint64min) = rest := by
        refine List.filter_eq_self.mpr fun j hj => ?_
        have hbeyond := h.beyond (ends j) (List.mem_map_of_mem hj)
        have hordered := h.ordered (ends j) (List.mem_cons_of_mem _ (List.mem_map_of_mem hj))
        have hlow := i.2.le_toInt
        rw [decide_eq_true_iff]
        rintro hmin
        have hend : (ends j).2 = -2 ^ 63 := congrArg Int64.toInt hmin
        have hfirst : (ends i).2 = i.2.toInt := rfl
        omega
      rw [List.reverse_cons, List.getLast?_concat, List.dropLast_concat, List.filter_cons, hrest]
      dsimp only
      by_cases hi : i.2 = kint64min
      · simp [hi]
      · simp [hi]

/-- The word with the opposite value, or the nearest to it. -/
theorem opposite_toInt (x : Int64) :
    (if x = kint64min then kint64max else -x).toInt = min (-x.toInt) (2 ^ 63 - 1) := by
  have hlow := x.le_toInt
  by_cases hmin : x = kint64min
  · rw [if_pos hmin, hmin]
    rfl
  · have hne : x.toInt ≠ -2 ^ 63 := fun heq => hmin (Int64.toInt.inj heq)
    rw [if_neg hmin, toInt_neg_of_ne hmin]
    omega

/-- Negating in words is negating in the integers and cutting off what no word
can hold. -/
theorem negation_ends (h : Separated (l.map ends)) :
    (SortedIntervalList.Negation ⟨l⟩).intervals_.map ends =
      clipped (2 ^ 63 - 1) (negated (l.map ends)) := by
  have hfits : ∀ i : ClosedInterval, decide (i.2 ≠ kint64min) =
      decide (-(ends i).2 ≤ 2 ^ 63 - 1) := by
    intro i
    have hlow := i.2.le_toInt
    have hends : (ends i).2 = i.2.toInt := rfl
    rw [decide_eq_decide, ne_eq, ← Int64.toInt_inj, hends]
    change ¬ i.2.toInt = -2 ^ 63 ↔ _
    omega
  unfold SortedIntervalList.Negation
  dsimp only
  rw [kept_eq h, clipped, negated, List.filter_map, List.map_map, List.map_map, List.filter_reverse,
    List.filter_map, ← List.map_reverse, List.map_map]
  simp only [hfits, Function.comp_def]
  refine List.map_congr_left fun i hi => ?_
  rw [List.mem_reverse, List.mem_filter, decide_eq_true_iff] at hi
  have hends : ends i = (i.1.toInt, i.2.toInt) := rfl
  rw [hends] at hi ⊢
  simp only [ends, opposite_toInt]
  exact Prod.ext (min_eq_left hi.2) rfl

/-- **Negating a domain.**  The intervals are in normal form again, and a value
is found exactly if the opposite integer was covered. -/
theorem negation_contains {d : SortedIntervalList} (h : Separated (d.intervals_.map ends)) :
    IntervalsAreSortedAndNonAdjacent d.Negation.intervals_ = true ∧
      ∀ value : Int64, d.Negation.Contains value = true ↔
        Covers (d.intervals_.map ends) (-value.toInt) := by
  have hends : d.Negation.intervals_.map ends =
      clipped (2 ^ 63 - 1) (negated (d.intervals_.map ends)) := negation_ends h
  have hseparated : Separated (d.Negation.intervals_.map ends) := by
    rw [hends]
    exact separated_clipped (separated_negated h)
  refine ⟨(sortedAndNonAdjacent_iff _).mpr hseparated, fun value => ?_⟩
  have hhigh := value.toInt_lt
  rw [contains_iff hseparated, hends, covers_clipped, covers_negated]
  exact and_iff_right (by omega)

end Negation

end Cpsat.Checker
