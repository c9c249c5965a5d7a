import CpsatBindings.IntervalAlgebra
import CpsatBindings.SaturatedArithmetic
import Mathlib.Data.Set.Basic

/-!
# Set operations on domains

The rest of the class `Domain` that the linear messages are built with.  Each
operation works on words, guards its `+ 1` and `- 1` on its own, and promises
in a `DCHECK` to yield the normal form again.

`Values` says what a domain is for: a set of integers, of which no member is
beyond the words.

* `setOperations` — the operations are those of sets, in normal form.
* `addition_values` — a sum of two domains has the sums that fit in a word.
* `eq_of_values` — domains with the same values are the same list.
-/

namespace Cpsat.Checker

open Cpsat.Proto Intervals

/-- The loop of `Complement`, with `next_start`. -/
def complementLoop (next_start : Int64) : List ClosedInterval → List ClosedInterval
  | [] => [(next_start, kint64max)]
  | interval :: rest =>
    let pushed := if interval.1 ≠ kint64min then [(next_start, interval.1 - 1)] else []
    if interval.2 = kint64max then pushed else pushed ++ complementLoop (interval.2 + 1) rest

/-- The loop of `IntersectionWith`: the intervals from `i` on and from `j` on. -/
def intersectionLoop : List ClosedInterval → List ClosedInterval → List ClosedInterval
  | [], _ => []
  | _ :: _, [] => []
  | i :: a, j :: b =>
    if i.1 ≤ j.1 then
      if i.2 < j.1 then intersectionLoop a (j :: b)
      else if i.2 ≤ j.2 then (j.1, i.2) :: intersectionLoop a (j :: b)
      else (j.1, j.2) :: intersectionLoop (i :: a) b
    else if j.2 < i.1 then intersectionLoop (i :: a) b
    else if j.2 ≤ i.2 then (i.1, j.2) :: intersectionLoop (i :: a) b
    else (i.1, i.2) :: intersectionLoop a (j :: b)
termination_by a b => a.length + b.length

/-- The loop of `OverlapsWith`. -/
def overlapsLoop : List ClosedInterval → List ClosedInterval → Bool
  | [], _ => false
  | _ :: _, [] => false
  | i :: a, j :: b =>
    if i.1 ≤ j.1 then
      if i.2 < j.1 then overlapsLoop a (j :: b) else true
    else if j.2 < i.1 then overlapsLoop (i :: a) b
    else true
termination_by a b => a.length + b.length

/-- The loop of `IsIncludedIn`; `i` only moves forward. -/
def includedLoop : List ClosedInterval → List ClosedInterval → Bool
  | [], _ => true
  | interval :: rest, others =>
    match others.dropWhile fun other => interval.2 > other.2 with
    | [] => false
    | other :: others => if interval.1 < other.1 then false else includedLoop rest (other :: others)

/-- What two intervals add to the sum. -/
def additionOf (i j : ClosedInterval) : List ClosedInterval :=
  if i.1 > 0 && j.1 > 0 then
    if AddOverflows i.1 j.1 then [] else [(i.1 + j.1, CapAdd i.2 j.2)]
  else if i.2 < 0 && j.2 < 0 then
    if AddOverflows i.2 j.2 then [] else [(CapAdd i.1 j.1, i.2 + j.2)]
  else [(CapAdd i.1 j.1, CapAdd i.2 j.2)]

/-- The two loops of `AdditionWith`. -/
def additionLoops (a b : List ClosedInterval) : List ClosedInterval :=
  a.flatMap fun i => b.flatMap fun j => additionOf i j

namespace SortedIntervalList

/-- The words that are not in the domain: the gaps, from the smallest word to the
largest. -/
def Complement (d : SortedIntervalList) : SortedIntervalList :=
  ⟨complementLoop kint64min d.intervals_⟩

/-- The values in both domains: two sorted lists walked side by side. -/
def IntersectionWith (d domain : SortedIntervalList) : SortedIntervalList :=
  ⟨intersectionLoop d.intervals_ domain.intervals_⟩

/-- The values in either domain: the two lists merged by their starts and joined. -/
def UnionWith (d domain : SortedIntervalList) : SortedIntervalList :=
  ⟨UnionOfSortedIntervals (d.intervals_.merge domain.intervals_ fun i j => i.1 ≤ j.1)⟩

/-- Whether some value is in both domains. -/
def OverlapsWith (d domain : SortedIntervalList) : Bool :=
  overlapsLoop d.intervals_ domain.intervals_

/-- Whether every value of the domain is in the other. -/
def IsIncludedIn (d domain : SortedIntervalList) : Bool :=
  includedLoop d.intervals_ domain.intervals_

/-- The sort is skipped if one of the lists has one interval. -/
def AdditionWith (d domain : SortedIntervalList) : SortedIntervalList :=
  let a := d.intervals_
  let b := domain.intervals_
  let result := additionLoops a b
  ⟨UnionOfSortedIntervals
    (if a.length > 1 && b.length > 1 then result.mergeSort fun i j => i.1 ≤ j.1 else result)⟩

/-! ## The values -/

/-- The promise of the class. -/
def Normal (d : SortedIntervalList) : Prop :=
  IntervalsAreSortedAndNonAdjacent d.intervals_ = true

instance (d : SortedIntervalList) : Decidable d.Normal :=
  inferInstanceAs (Decidable (_ = true))

/-- What a domain is for. -/
def Values (d : SortedIntervalList) : Set ℤ := {x | Covers (d.intervals_.map ends) x}

end SortedIntervalList

/-- The integers a word can hold. -/
def Words : Set ℤ := {x | kint64min.toInt ≤ x ∧ x ≤ kint64max.toInt}

open SortedIntervalList

section Values

variable {d e : SortedIntervalList}

/-- A domain is in normal form exactly if its intervals are separated, as integers. -/
theorem normal_iff : d.Normal ↔ Separated (d.intervals_.map ends) :=
  sortedAndNonAdjacent_iff d.intervals_

/-- Intervals of words are told apart by their ends. -/
theorem ends_injective : Function.Injective ends := by
  intro i j h
  exact Prod.ext (Int64.toInt.inj (congrArg Prod.fst h)) (Int64.toInt.inj (congrArg Prod.snd h))

/-- All values of a domain are words. -/
theorem values_subset : d.Values ⊆ Words := by
  rintro x ⟨i, hi, hx⟩
  obtain ⟨j, -, rfl⟩ := List.mem_map.mp hi
  exact ⟨j.1.le_toInt.trans hx.1, hx.2.trans (Int.le_sub_one_of_lt j.2.toInt_lt)⟩

/-- The search finds the values. -/
theorem contains_iff_mem (h : d.Normal) (value : Int64) :
    d.Contains value = true ↔ value.toInt ∈ d.Values :=
  contains_iff (normal_iff.mp h) value

/-- **Domains with the same values are the same list.** -/
theorem eq_of_values (hd : d.Normal) (he : e.Normal) (h : d.Values = e.Values) : d = e := by
  have hends := (normal_iff.mp hd).ext (normal_iff.mp he) fun x => Set.ext_iff.mp h x
  obtain ⟨a⟩ := d
  obtain ⟨b⟩ := e
  exact congrArg _ (List.map_injective_iff.mpr ends_injective hends)

end Values

/-! ## The loops over the integers -/

/-- The successor of a word that is not the largest. -/
theorem toInt_succ {x : Int64} (h : x ≠ kint64max) : (x + 1).toInt = x.toInt + 1 := by
  have hlow := x.le_toInt
  have hhigh := x.toInt_lt
  have hne : x.toInt ≠ 2 ^ 63 - 1 := fun heq => h (Int64.toInt.inj heq)
  rw [Int64.toInt_add, Int64.toInt_one]
  exact Int.bmod_eq_of_le (by omega) (by omega)

/-- The predecessor of a word that is not the smallest. -/
theorem toInt_pred {x : Int64} (h : x ≠ kint64min) : (x - 1).toInt = x.toInt - 1 := by
  have hlow := x.le_toInt
  have hhigh := x.toInt_lt
  have hne : x.toInt ≠ -2 ^ 63 := fun heq => h (Int64.toInt.inj heq)
  rw [Int64.toInt_sub, Int64.toInt_one]
  exact Int.bmod_eq_of_le (by omega) (by omega)

section Loops

variable {a b : List ClosedInterval} {i j : ClosedInterval}

/-- The loop of `Complement` computes the gaps. -/
theorem complementLoop_ends {next : Int64}
    (h : Ahead kint64min.toInt kint64max.toInt next.toInt (a.map ends)) :
    (complementLoop next a).map ends =
      gaps kint64min.toInt kint64max.toInt next.toInt (a.map ends) := by
  induction a generalizing next with
  | nil => rfl
  | cons i a ih =>
      have hpushed : (if i.1 ≠ kint64min then [(next, i.1 - 1)] else []).map ends =
          if (ends i).1 ≠ kint64min.toInt then [(next.toInt, (ends i).1 - 1)] else [] := by
        have hbegin : i.1 = kint64min ↔ (ends i).1 = kint64min.toInt := Int64.toInt_inj.symm
        by_cases hfirst : i.1 = kint64min
        · rw [if_neg (not_not.mpr hfirst), if_neg (not_not.mpr (hbegin.mp hfirst))]
          rfl
        · rw [if_pos hfirst, if_pos (mt hbegin.mpr hfirst)]
          exact congrArg (fun z => [(next.toInt, z)]) (toInt_pred hfirst)
      have hend : i.2 = kint64max ↔ (ends i).2 = kint64max.toInt := Int64.toInt_inj.symm
      unfold complementLoop
      rw [List.map_cons]
      unfold gaps
      dsimp only
      by_cases hlast : i.2 = kint64max
      · rw [if_pos hlast, if_pos (hend.mp hlast), hpushed]
      · have hnext : (i.2 + 1).toInt = (ends i).2 + 1 := toInt_succ hlast
        have hstep := h.step (mt hend.mpr hlast)
        rw [← hnext] at hstep
        rw [if_neg hlast, if_neg (mt hend.mpr hlast), List.map_append, hpushed, ih hstep, hnext]

/-- Of the six branches, three drop the one interval and three the other, and
what is pushed is what the two have in common. -/
theorem intersectionLoop_cons (hi : (ends i).1 ≤ (ends i).2) (hj : (ends j).1 ≤ (ends j).2) :
    (intersectionLoop (i :: a) (j :: b)).map ends =
      if endsFirst (ends i) (ends j) then
        common (ends i) (ends j) ++ (intersectionLoop a (j :: b)).map ends
      else common (ends i) (ends j) ++ (intersectionLoop (i :: a) b).map ends := by
  dsimp only [ends] at hi hj
  rw [intersectionLoop]
  unfold endsFirst common
  simp only [Int64.le_iff_toInt_le, Int64.lt_iff_toInt_lt]
  split_ifs <;> grind [ends]

/-- The loop of `IntersectionWith` computes the intersection of lists. -/
theorem intersectionLoop_ends (ha : Separated (a.map ends)) (hb : Separated (b.map ends)) :
    (intersectionLoop a b).map ends = intersect (a.map ends) (b.map ends) := by
  induction hsize : a.length + b.length using Nat.strong_induction_on generalizing a b with
  | _ n ih =>
      subst hsize
      cases a with
      | nil => simp [intersectionLoop, intersect]
      | cons i a =>
          cases b with
          | nil => simp [intersectionLoop, intersect]
          | cons j b =>
              rw [intersectionLoop_cons (ha.ordered _ List.mem_cons_self)
                (hb.ordered _ List.mem_cons_self), List.map_cons, List.map_cons, intersect]
              split
              · rw [ih _ (by simp) ha.tail hb rfl, List.map_cons]
              · rw [ih _ (by simp) ha hb.tail rfl, List.map_cons]

/-- The loop of `OverlapsWith` finds out whether that of `IntersectionWith` finds
anything. -/
theorem overlapsLoop_eq (a b : List ClosedInterval) :
    overlapsLoop a b = !(intersectionLoop a b).isEmpty := by
  induction a, b using overlapsLoop.induct with
  | case1 b | case2 i a => simp [overlapsLoop, intersectionLoop]
  | case3 i a j b hbegin hends ih =>
      rw [overlapsLoop, intersectionLoop, if_pos hbegin, if_pos hends, if_pos hbegin,
        if_pos hends, ih]
  | case4 i a j b hbegin hends =>
      rw [overlapsLoop, intersectionLoop, if_pos hbegin, if_neg hends, if_pos hbegin,
        if_neg hends]
      split <;> rfl
  | case5 i a j b hbegin hends ih =>
      rw [overlapsLoop, intersectionLoop, if_neg hbegin, if_pos hends, if_neg hbegin,
        if_pos hends, ih]
  | case6 i a j b hbegin hends =>
      rw [overlapsLoop, intersectionLoop, if_neg hbegin, if_neg hends, if_neg hbegin,
        if_neg hends]
      split <;> rfl

/-- The loop of `IsIncludedIn` decides inclusion of lists. -/
theorem includedLoop_ends (a b : List ClosedInterval) :
    includedLoop a b = included (a.map ends) (b.map ends) := by
  induction a generalizing b with
  | nil => simp [includedLoop, included]
  | cons i a ih =>
      have hends : (fun j => decide (j.2 < (ends i).2)) ∘ ends =
          fun other : ClosedInterval => decide (i.2 > other.2) := by
        funext other
        rw [Function.comp_apply, decide_eq_decide, gt_iff_lt, Int64.lt_iff_toInt_lt]
        rfl
      rw [List.map_cons]
      unfold includedLoop included
      rw [List.dropWhile_map, hends]
      cases b.dropWhile fun other => decide (i.2 > other.2) with
      | nil => rfl
      | cons other others =>
          rw [List.map_cons]
          dsimp only
          rw [ih, List.map_cons]
          simp only [Int64.lt_iff_toInt_lt]
          rfl

/-- The test for an overflow, over the integers. -/
theorem addOverflows_iff (x y : Int64) :
    AddOverflows x y = true ↔
      ¬ (kint64min.toInt ≤ x.toInt + y.toInt ∧ x.toInt + y.toInt ≤ kint64max.toInt) := by
  have hmin : kint64min.toInt = -2 ^ 63 := rfl
  have hmax : kint64max.toInt = 2 ^ 63 - 1 := rfl
  rw [AddOverflows, addHadOverflow_iff]
  omega

/-- A sum that does not overflow is exact. -/
theorem toInt_add_of_fits {x y : Int64} (h : ¬ AddOverflows x y = true) :
    (x + y).toInt = x.toInt + y.toInt := by
  have hmin : kint64min.toInt = -2 ^ 63 := rfl
  have hmax : kint64max.toInt = 2 ^ 63 - 1 := rfl
  rw [addOverflows_iff, not_not] at h
  rw [Int64.toInt_add]
  exact Int.bmod_eq_of_le (by omega) (by omega)

/-- The list of one interval, by its ends. -/
theorem single_ends {x y : Int64} {k : ℤ × ℤ} (hx : x.toInt = k.1) (hy : y.toInt = k.2) :
    [(x, y)].map ends = [k] :=
  congrArg (fun k => [k]) (Prod.ext hx hy)

/-- Only intervals on the same side of zero can miss every word, and then the
end next to zero tells. -/
theorem additionOf_ends (hi : (ends i).1 ≤ (ends i).2) (hj : (ends j).1 ≤ (ends j).2) :
    (additionOf i j).map ends =
      common ((ends i).1 + (ends j).1, (ends i).2 + (ends j).2)
        (kint64min.toInt, kint64max.toInt) := by
  have hmin : kint64min.toInt = -2 ^ 63 := rfl
  have hmax : kint64max.toInt = 2 ^ 63 - 1 := rfl
  have hcap : ∀ x y : Int64, (CapAdd x y).toInt =
      clamp kint64min.toInt kint64max.toInt (x.toInt + y.toInt) := fun x y => clampToInt64_toInt _
  have hlow := i.1.le_toInt
  have hhigh := i.2.toInt_lt
  have hlow' := j.1.le_toInt
  have hhigh' := j.2.toInt_lt
  dsimp only [ends] at hi hj ⊢
  unfold additionOf common
  simp only [Bool.and_eq_true, decide_eq_true_iff, gt_iff_lt, Int64.lt_iff_toInt_lt,
    Int64.toInt_zero]
  split
  · rename_i hpositive
    split
    · rename_i hoverflow
      rw [addOverflows_iff] at hoverflow
      rw [if_neg (by omega)]
      rfl
    · rename_i hfits
      have hsum := toInt_add_of_fits hfits
      rw [addOverflows_iff, not_not] at hfits
      rw [if_pos (by omega)]
      refine single_ends ?_ ?_
      · rw [hsum]
        dsimp only
        omega
      · rw [hcap]
        unfold clamp
        dsimp only
        omega
  · rename_i hpositive
    split
    · rename_i hnegative
      split
      · rename_i hoverflow
        rw [addOverflows_iff] at hoverflow
        rw [if_neg (by omega)]
        rfl
      · rename_i hfits
        have hsum := toInt_add_of_fits hfits
        rw [addOverflows_iff, not_not] at hfits
        rw [if_pos (by omega)]
        refine single_ends ?_ ?_
        · rw [hcap]
          unfold clamp
          dsimp only
          omega
        · rw [hsum]
          dsimp only
          omega
    · rename_i hnegative
      rw [if_pos (by omega)]
      refine single_ends ?_ ?_
      · rw [hcap]
        unfold clamp
        dsimp only
        omega
      · rw [hcap]
        unfold clamp
        dsimp only
        omega

/-- The loops of `AdditionWith` compute the sums, pair by pair, as far as they are
in the range. -/
theorem additionLoops_ends (ha : ∀ i ∈ a.map ends, i.1 ≤ i.2)
    (hb : ∀ j ∈ b.map ends, j.1 ≤ j.2) :
    (additionLoops a b).map ends =
      sums kint64min.toInt kint64max.toInt (a.map ends) (b.map ends) := by
  rw [additionLoops, sums, List.map_flatMap, List.flatMap_map]
  refine List.flatMap_congr fun i hi => ?_
  rw [List.map_flatMap, List.flatMap_map]
  refine List.flatMap_congr fun j hj => ?_
  exact additionOf_ends (ha _ (List.mem_map_of_mem hi)) (hb _ (List.mem_map_of_mem hj))

end Loops

/-! ## The operations -/

section Operations

variable {d e : SortedIntervalList}

/-- **Complements.**  The complement has the words the domain does not have. -/
theorem complement_values (hd : d.Normal) :
    d.Complement.Normal ∧ d.Complement.Values = Words \ d.Values := by
  have hwords : ∀ i ∈ d.intervals_.map ends, kint64min.toInt ≤ i.1 ∧ i.2 ≤ kint64max.toInt := by
    intro i hi
    obtain ⟨j, -, rfl⟩ := List.mem_map.mp hi
    exact ⟨j.1.le_toInt, Int.le_sub_one_of_lt j.2.toInt_lt⟩
  have hahead : Ahead kint64min.toInt kint64max.toInt kint64min.toInt (d.intervals_.map ends) :=
    { separated := normal_iff.mp hd
      start := ⟨le_refl _, by decide⟩
      begins := fun i hi => (hwords i hi).1.lt_or_eq.imp_right fun heq => ⟨heq.symm, rfl⟩
      ends := fun i hi => (hwords i hi).2 }
  have hends : d.Complement.intervals_.map ends =
      gaps kint64min.toInt kint64max.toInt kint64min.toInt (d.intervals_.map ends) :=
    complementLoop_ends hahead
  rw [normal_iff, hends]
  refine ⟨separated_gaps hahead, Set.ext fun x => ?_⟩
  change Covers (d.Complement.intervals_.map ends) x ↔ _
  rw [hends, covers_gaps hahead]
  rfl

/-- **Intersections.**  The intersection has the values that both have. -/
theorem intersection_values (hd : d.Normal) (he : e.Normal) :
    (d.IntersectionWith e).Normal ∧ (d.IntersectionWith e).Values = d.Values ∩ e.Values := by
  rw [normal_iff] at hd he
  have hends : (d.IntersectionWith e).intervals_.map ends =
      intersect (d.intervals_.map ends) (e.intervals_.map ends) :=
    intersectionLoop_ends hd he
  rw [normal_iff, hends]
  refine ⟨separated_intersect hd he, Set.ext fun x => ?_⟩
  change Covers ((d.IntersectionWith e).intervals_.map ends) x ↔ _
  rw [hends, covers_intersect hd he]
  rfl

/-- The order the class sorts by. -/
theorem sortedByStart_iff {l : List ClosedInterval} :
    SortedByStart (l.map ends) ↔ l.Pairwise fun i j => decide (i.1 ≤ j.1) = true := by
  rw [SortedByStart, List.pairwise_map]
  simp only [decide_eq_true_iff, Int64.le_iff_toInt_le]
  rfl

/-- A merge by starts of two lists sorted by starts is sorted by starts. -/
theorem sorted_merge {l m : List ClosedInterval} (hl : SortedByStart (l.map ends))
    (hm : SortedByStart (m.map ends)) :
    SortedByStart ((l.merge m fun i j => i.1 ≤ j.1).map ends) := by
  rw [sortedByStart_iff] at hl hm ⊢
  refine List.pairwise_merge ?_ ?_ l m hl hm
  · intro i j k
    simp only [decide_eq_true_iff, Int64.le_iff_toInt_le]
    omega
  · intro i j
    simp only [Bool.or_eq_true, decide_eq_true_iff, Int64.le_iff_toInt_le]
    omega

/-- A normal form without values is empty. -/
theorem nonempty_iff (h : d.Normal) : d.Values.Nonempty ↔ d.intervals_.isEmpty = false := by
  rw [normal_iff] at h
  obtain ⟨l⟩ := d
  cases l with
  | nil => simp [Values, Covers, Set.Nonempty]
  | cons i l =>
      refine iff_of_true ⟨i.1.toInt, ends i, List.mem_cons_self, le_refl _, ?_⟩ rfl
      exact h.ordered _ List.mem_cons_self

/-- The pass over a sorted list of intervals. -/
theorem union_values_of_sorted {l : List ClosedInterval} (hsorted : SortedByStart (l.map ends))
    (hordered : ∀ i ∈ l.map ends, i.1 ≤ i.2) :
    Normal ⟨UnionOfSortedIntervals l⟩ ∧
      Values ⟨UnionOfSortedIntervals l⟩ = {x | Covers (l.map ends) x} := by
  refine ⟨normal_iff.mpr ?_, Set.ext fun x => ?_⟩
  · change Separated ((UnionOfSortedIntervals l).map ends)
    rw [union_ends]
    exact separated_unionOfSorted hsorted hordered
  · change Covers ((UnionOfSortedIntervals l).map ends) x ↔ _
    rw [union_ends, covers_unionOfSorted hsorted hordered]
    rfl

/-- **Unions.**  The union has the values that one of them has. -/
theorem union_values (hd : d.Normal) (he : e.Normal) :
    (d.UnionWith e).Normal ∧ (d.UnionWith e).Values = d.Values ∪ e.Values := by
  rw [normal_iff] at hd he
  have hmem : ∀ i, i ∈ d.intervals_.merge e.intervals_ (fun i j => i.1 ≤ j.1) ↔
      i ∈ d.intervals_ ∨ i ∈ e.intervals_ := fun i => List.mem_merge
  have hordered : ∀ i ∈ (d.intervals_.merge e.intervals_ fun i j => i.1 ≤ j.1).map ends,
      i.1 ≤ i.2 := by
    intro i hi
    obtain ⟨j, hj, rfl⟩ := List.mem_map.mp hi
    rcases (hmem j).mp hj with hj | hj
    · exact hd.ordered _ (List.mem_map_of_mem hj)
    · exact he.ordered _ (List.mem_map_of_mem hj)
  obtain ⟨hnormal, hvalues⟩ := union_values_of_sorted (sorted_merge hd.sorted he.sorted) hordered
  refine ⟨hnormal, hvalues.trans (Set.ext fun x => ?_)⟩
  change Covers _ x ↔ Covers _ x ∨ Covers _ x
  simp only [Covers, List.mem_map, exists_exists_and_eq_and, hmem, or_and_right, exists_or]

/-- **Inclusion.**  It is found exactly if it is there. -/
theorem included_values (hd : d.Normal) (he : e.Normal) :
    d.IsIncludedIn e = true ↔ d.Values ⊆ e.Values := by
  rw [IsIncludedIn, includedLoop_ends, included_iff (normal_iff.mp hd) (normal_iff.mp he)]
  rfl

/-- **Overlaps.**  One is found exactly if the two have a value in common. -/
theorem overlaps_values (hd : d.Normal) (he : e.Normal) :
    d.OverlapsWith e = true ↔ (d.Values ∩ e.Values).Nonempty := by
  obtain ⟨hnormal, hvalues⟩ := intersection_values hd he
  rw [← hvalues, nonempty_iff hnormal, OverlapsWith, overlapsLoop_eq, Bool.not_eq_true']
  rfl

/-- **Sums.**  The sum has the sums of their values, as far as they are words. -/
theorem addition_values (hd : d.Normal) (he : e.Normal) :
    (d.AdditionWith e).Normal ∧
      (d.AdditionWith e).Values = {x ∈ Words | ∃ y ∈ d.Values, ∃ z ∈ e.Values, y + z = x} := by
  rw [normal_iff] at hd he
  have hends := additionLoops_ends hd.ordered he.ordered
  have hcovers : ∀ x, Covers ((additionLoops d.intervals_ e.intervals_).map ends) x ↔
      x ∈ Words ∧ ∃ y ∈ d.Values, ∃ z ∈ e.Values, y + z = x := by
    intro x
    rw [hends, covers_sums hd.ordered he.ordered]
    simp only [exists_and_left]
    rfl
  have hordered : ∀ i ∈ (additionLoops d.intervals_ e.intervals_).map ends, i.1 ≤ i.2 := by
    rw [hends]
    exact sums_ordered
  unfold AdditionWith
  dsimp only
  split
  · have hsame : ∀ x, Covers (((additionLoops d.intervals_ e.intervals_).mergeSort
        fun i j => i.1 ≤ j.1).map ends) x ↔
          Covers ((additionLoops d.intervals_ e.intervals_).map ends) x := by
      intro x
      simp only [Covers, List.mem_map, List.mem_mergeSort]
    have hordered' : ∀ i ∈ ((additionLoops d.intervals_ e.intervals_).mergeSort
        fun i j => i.1 ≤ j.1).map ends, i.1 ≤ i.2 := by
      intro i hi
      obtain ⟨j, hj, rfl⟩ := List.mem_map.mp hi
      exact hordered _ (List.mem_map_of_mem (List.mem_mergeSort.mp hj))
    obtain ⟨hnormal, hvalues⟩ := union_values_of_sorted (sorted_ends _) hordered'
    exact ⟨hnormal, hvalues.trans (Set.ext fun x => (hsame x).trans (hcovers x))⟩
  · rename_i hone
    rw [Bool.and_eq_true, decide_eq_true_iff, decide_eq_true_iff, not_and_or, not_lt,
      not_lt] at hone
    have hsorted : SortedByStart ((additionLoops d.intervals_ e.intervals_).map ends) := by
      rw [hends]
      refine sorted_sums hd.sorted he.sorted ?_
      rwa [List.length_map, List.length_map]
    obtain ⟨hnormal, hvalues⟩ := union_values_of_sorted hsorted hordered
    exact ⟨hnormal, hvalues.trans (Set.ext hcovers)⟩

/-- **The operations of the class are those of sets**, and each keeps what the
class promises about its intervals. -/
theorem setOperations (hd : d.Normal) (he : e.Normal) :
    (d.Complement.Normal ∧ d.Complement.Values = Words \ d.Values) ∧
    ((d.IntersectionWith e).Normal ∧ (d.IntersectionWith e).Values = d.Values ∩ e.Values) ∧
    ((d.UnionWith e).Normal ∧ (d.UnionWith e).Values = d.Values ∪ e.Values) ∧
    ((d.AdditionWith e).Normal ∧
      (d.AdditionWith e).Values = {x ∈ Words | ∃ y ∈ d.Values, ∃ z ∈ e.Values, y + z = x}) ∧
    (d.IsIncludedIn e = true ↔ d.Values ⊆ e.Values) ∧
    (d.OverlapsWith e = true ↔ (d.Values ∩ e.Values).Nonempty) ∧
    ∀ value : Int64, d.Contains value = true ↔ value.toInt ∈ d.Values :=
  ⟨complement_values hd, intersection_values hd he, union_values hd he, addition_values hd he,
    included_values hd he, overlaps_values hd he, contains_iff_mem hd⟩

/-- Two intervals that reach the ends of the range, and one that does not. -/
theorem setOperations_words :
    (SortedIntervalList.UnionWith ⟨[(kint64min, -1), (1, kint64max)]⟩ (.ofValue 0)).Values =
      Values ⟨[(kint64min, -1), (1, kint64max)]⟩ ∪ (SortedIntervalList.ofValue 0).Values :=
  (@setOperations ⟨[(kint64min, -1), (1, kint64max)]⟩ (.ofValue 0)
    (by decide) (by decide)).2.2.1.2

/-- **The loops agree with each other**, interval by interval: complementing
twice changes nothing, the union is what the complements leave out together,
and inclusion is the absence of an overlap with the complement. -/
theorem loops_agree (hd : d.Normal) (he : e.Normal) :
    d.Complement.Complement = d ∧
    d.UnionWith e = (d.Complement.IntersectionWith e.Complement).Complement ∧
    d.IsIncludedIn e = !d.OverlapsWith e.Complement := by
  obtain ⟨hd', hcomplement⟩ := complement_values hd
  obtain ⟨he', hcomplement'⟩ := complement_values he
  obtain ⟨hmeet, hinter⟩ := intersection_values hd' he'
  obtain ⟨hjoin, hunion⟩ := union_values hd he
  refine ⟨?_, ?_, ?_⟩
  · obtain ⟨hd'', htwice⟩ := complement_values hd'
    refine eq_of_values hd'' hd ?_
    rw [htwice, hcomplement]
    exact Set.sdiff_sdiff_cancel_left values_subset
  · obtain ⟨hmeet', houtside⟩ := complement_values hmeet
    refine eq_of_values hjoin hmeet' (Set.ext fun x => ?_)
    have hword := @values_subset d x
    have hword' := @values_subset e x
    rw [houtside, hinter, hunion, hcomplement, hcomplement']
    simp only [Set.mem_union, Set.mem_sdiff, Set.mem_inter_iff]
    tauto
  · rw [Bool.eq_iff_iff, Bool.not_eq_true', ← Bool.not_eq_true, included_values hd he,
      overlaps_values hd he', hcomplement']
    constructor
    · rintro hsubset ⟨x, hx, -, hnot⟩
      exact hnot (hsubset hx)
    · intro hnone x hx
      by_contra hnot
      exact hnone ⟨x, hx, values_subset hx, hnot⟩

/-- Zero is not among the words other than zero. -/
theorem loops_agree_words :
    SortedIntervalList.IsIncludedIn ⟨[(0, 0)]⟩ ⟨[(kint64min, -1), (1, kint64max)]⟩ =
      !SortedIntervalList.OverlapsWith ⟨[(0, 0)]⟩
        (SortedIntervalList.Complement ⟨[(kint64min, -1), (1, kint64max)]⟩) :=
  (@loops_agree ⟨[(0, 0)]⟩ ⟨[(kint64min, -1), (1, kint64max)]⟩ (by decide) (by decide)).2.2

end Operations

end Cpsat.Checker
