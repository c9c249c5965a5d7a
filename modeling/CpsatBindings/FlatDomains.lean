import CpsatBindings.DomainAlgebra
import CpsatBindings.MeaningPreserved

/-!
# Domains on the wire

A message carries a domain as a flat list of ends.  `FillDomainInProto` and
`ReadDomainFromProto` of `ortools/sat/cp_model_utils.h` go there and back.

The solver has its own way to fold a constant into a domain: it reads the
domain, adds the opposite constant to it as a domain of one value, and writes
the sum.  An interval that is pushed out of the range is dropped there, where
the builder keeps it at the end of the range.

* `flatDomains_roundTrip` — the accepted flat lists are the written domains.
* `shift_agrees_iff` — builder and solver write the same domain exactly if no
  interval is pushed out.
-/

namespace Cpsat.Checker

open Cpsat.Proto Intervals SortedIntervalList

/-- The ends of the intervals, one after the other. -/
def FillDomainInProto (domain : SortedIntervalList) : Array Int64 :=
  (domain.intervals_.flatMap fun interval => [interval.1, interval.2]).toArray

/-- The list, two by two. -/
def ReadDomainFromProto (domain : Array Int64) : SortedIntervalList :=
  FromFlatSpanOfIntervals domain

/-! ## There and back -/

/-- A written domain as one of the builder's. -/
def builderDomain (d : SortedIntervalList) : Domain := ⟨d.intervals_.toArray⟩

section RoundTrip

variable {d : SortedIntervalList}

/-- The solver writes a domain as the builder does. -/
theorem fill_eq (d : SortedIntervalList) :
    FillDomainInProto d = domainToFlatArray (builderDomain d) := by
  simp [FillDomainInProto, domainToFlatArray, builderDomain, List.flatMap_toArray]

theorem builderDomain_ends (d : SortedIntervalList) :
    domainEnds (builderDomain d) = d.intervals_.map ends := rfl

/-- What is written is valid exactly if the domain is in normal form. -/
theorem valid_fill_iff (d : SortedIntervalList) :
    DomainInProtoIsValid (FillDomainInProto d) = true ↔ d.Normal := by
  rw [fill_eq, domainInProtoIsValid_iff, builderDomain_ends, normal_iff]

/-- What is read is in normal form, whatever the list. -/
theorem read_normal (flat : Array Int64) : (ReadDomainFromProto flat).Normal :=
  (fromFlat_contains flat).1

/-- **Domains that find the same words are the same list.** -/
theorem eq_of_contains {d e : SortedIntervalList} (hd : d.Normal) (he : e.Normal)
    (h : ∀ value : Int64, d.Contains value = e.Contains value) : d = e := by
  have hword : ∀ x ∈ Words, x ∈ d.Values ↔ x ∈ e.Values := by
    intro x hx
    have hmin : kint64min.toInt = -2 ^ 63 := rfl
    have hmax : kint64max.toInt = 2 ^ 63 - 1 := rfl
    obtain ⟨hlow, hhigh⟩ := hx
    have hvalue : (Int64.ofInt x).toInt = x := Int64.toInt_ofInt_of_le (by omega) (by omega)
    rw [← hvalue, ← contains_iff_mem hd, ← contains_iff_mem he, h]
  refine eq_of_values hd he (Set.ext fun x => ?_)
  constructor
  · intro hx
    exact (hword x (values_subset hx)).mp hx
  · intro hx
    exact (hword x (values_subset hx)).mpr hx

/-- The pass over the flat list finds what the class finds. -/
theorem fill_contains (hd : d.Normal) (value : Int64) :
    DomainInProtoContains (FillDomainInProto d) value = d.Contains value := by
  rw [Bool.eq_iff_iff, fill_eq, domainContains_iff, contains_iff_mem hd]
  rfl

/-- Reading what was written. -/
theorem read_fill (hd : d.Normal) : ReadDomainFromProto (FillDomainInProto d) = d :=
  eq_of_contains (read_normal _) hd fun value => by
    rw [← fill_contains hd]
    exact (fromFlat_contains _).2 value

/-- A valid flat list is a list of pairs. -/
theorem flat_of_valid {flat : Array Int64} (h : DomainInProtoIsValid flat = true) :
    ∃ d : SortedIntervalList, FillDomainInProto d = flat := by
  have heven : flat.size % 2 = 0 := by
    unfold DomainInProtoIsValid at h
    split at h
    · rename_i hempty
      rw [Array.isEmpty_iff_size_eq_zero] at hempty
      rw [hempty]
    · split at h
      · exact absurd h Bool.false_ne_true
      · rename_i heven
        exact not_not.mp heven
  refine ⟨⟨(List.range (flat.size / 2)).map fun k => (flat[2 * k]!, flat[2 * k + 1]!)⟩, ?_⟩
  rw [fill_eq]
  refine Array.ext_getElem? fun i => ?_
  obtain ⟨k, rfl | rfl⟩ := Nat.even_or_odd' i
  · rw [(domainToFlatArray_getElem? _ k).1]
    by_cases hk : k < flat.size / 2
    · have hin : 2 * k < flat.size := by omega
      simp [builderDomain, hk, hin]
    · have hout : flat.size ≤ 2 * k := by omega
      simp [builderDomain, hk, hout]
  · rw [(domainToFlatArray_getElem? _ k).2]
    by_cases hk : k < flat.size / 2
    · have hin : 2 * k + 1 < flat.size := by omega
      simp [builderDomain, hk, hin]
    · have hout : flat.size ≤ 2 * k + 1 := by omega
      simp [builderDomain, hk, hout]

/-- Writing what was read, if it was valid. -/
theorem fill_read {flat : Array Int64} (h : DomainInProtoIsValid flat = true) :
    FillDomainInProto (ReadDomainFromProto flat) = flat := by
  obtain ⟨d, rfl⟩ := flat_of_valid h
  rw [read_fill ((valid_fill_iff d).mp h)]

/-- **There and back.**  What is written is valid and read back the same, and
reading and writing what is valid changes nothing. -/
theorem flatDomains_roundTrip :
    (∀ d : SortedIntervalList, d.Normal →
      DomainInProtoIsValid (FillDomainInProto d) = true ∧
        ReadDomainFromProto (FillDomainInProto d) = d) ∧
    ∀ flat : Array Int64, DomainInProtoIsValid flat = true →
      (ReadDomainFromProto flat).Normal ∧
        FillDomainInProto (ReadDomainFromProto flat) = flat :=
  ⟨fun d hd => ⟨(valid_fill_iff d).mpr hd, read_fill hd⟩,
    fun flat hvalid => ⟨read_normal flat, fill_read hvalid⟩⟩

/-- The words other than zero, there and back. -/
theorem flatDomains_roundTrip_words :
    ReadDomainFromProto (FillDomainInProto ⟨[(kint64min, -1), (1, kint64max)]⟩) =
      ⟨[(kint64min, -1), (1, kint64max)]⟩ :=
  (flatDomains_roundTrip.1 ⟨[(kint64min, -1), (1, kint64max)]⟩ (by decide)).2

end RoundTrip

/-! ## Folding a constant into a domain -/

section Shift

variable {d : Domain} {c : Int64}

/-- A flat list has one reading. -/
theorem flat_injective {d d' : Domain} (h : domainToFlatArray d = domainToFlatArray d') :
    d.intervals = d'.intervals := by
  have hends : ∀ k : ℕ, d.intervals[k]?.map Prod.fst = d'.intervals[k]?.map Prod.fst ∧
      d.intervals[k]?.map Prod.snd = d'.intervals[k]?.map Prod.snd := by
    intro k
    rw [← (domainToFlatArray_getElem? d k).1, ← (domainToFlatArray_getElem? d k).2,
      ← (domainToFlatArray_getElem? d' k).1, ← (domainToFlatArray_getElem? d' k).2, h]
    exact ⟨rfl, rfl⟩
  refine Array.ext_getElem? fun k => ?_
  obtain ⟨hfst, hsnd⟩ := hends k
  cases hk : d.intervals[k]? <;> cases hk' : d'.intervals[k]? <;> simp_all [Prod.ext_iff]

/-- The solver's way: the opposite constant is added as a domain. -/
def shiftByAddition (d : Domain) (c : Int64) : SortedIntervalList :=
  (ReadDomainFromProto (domainToFlatArray d)).AdditionWith (.ofValue (-c))

/-- No interval is pushed out of the range altogether. -/
def StaysInRange (d : Domain) (c : Int64) : Prop :=
  ∀ i ∈ domainEnds d, kint64min.toInt ≤ i.2 - c.toInt ∧ i.1 - c.toInt ≤ kint64max.toInt

/-- The solver's shift cuts each interval off at the ends of the range, and drops it
if nothing is left. -/
theorem shiftByAddition_ends (h : Separated (domainEnds d)) (hc : c ≠ kint64min) :
    (shiftByAddition d c).intervals_.map ends =
      unionOfSorted ((domainEnds d).flatMap fun i =>
        common (i.1 + -c.toInt, i.2 + -c.toInt) (kint64min.toInt, kint64max.toInt)) := by
  have hnormal : Normal ⟨d.intervals.toList⟩ := normal_iff.mpr h
  have hread : ReadDomainFromProto (domainToFlatArray d) = ⟨d.intervals.toList⟩ := by
    rw [← read_fill hnormal, fill_eq]
    rfl
  have hvalue : ends (-c, -c) = (-c.toInt, -c.toInt) := by
    rw [ends, toInt_neg_of_ne hc]
  have hends := @additionLoops_ends d.intervals.toList [(-c, -c)] h.ordered
    (by simp [hvalue])
  have hone : ((ReadDomainFromProto (domainToFlatArray d)).AdditionWith (.ofValue (-c))).intervals_ =
      UnionOfSortedIntervals (additionLoops d.intervals.toList [(-c, -c)]) := by
    rw [hread, AdditionWith]
    simp [ofValue]
  rw [shiftByAddition, hone, union_ends, hends, sums, List.map_singleton, hvalue]
  simp only [List.flatMap_singleton]
  rfl

/-- An interval next to another one that stays in range leaves it room. -/
theorem roomForShift_of_staysInRange (h : Separated (domainEnds d)) (hkept : StaysInRange d c) :
    RoomForShift d c := by
  have hmin : kint64min.toInt = Int64.minValue.toInt := rfl
  have hmax : kint64max.toInt = Int64.maxValue.toInt := rfl
  have hapart := List.isChain_iff_getElem.mp h.apart
  refine List.isChain_iff_getElem.mpr fun k hk => ?_
  have hgap := hapart k hk
  have hfirst := hkept _ (List.getElem_mem (Nat.lt_of_succ_lt hk))
  have hsecond := hkept _ (List.getElem_mem hk)
  omega

/-- **Builder and solver agree on a shift exactly if no interval is pushed
out.**  One that is pushed out is dropped by the solver, and kept by the builder
at the end of the range. -/
theorem shift_agrees_iff (h : Separated (domainEnds d)) (hc : c ≠ kint64min) :
    domainToFlatArray (shiftDomain d c) = FillDomainInProto (shiftByAddition d c) ↔
      StaysInRange d c := by
  have hends := shiftByAddition_ends h hc
  constructor
  · intro heq
    rw [fill_eq] at heq
    have hsize : (domainEnds d).length = ((shiftByAddition d c).intervals_.map ends).length := by
      have hsame := congrArg Array.size (flat_injective heq)
      simpa [shiftDomain, builderDomain, domainEnds] using hsame
    have hlength := length_unionOfSorted_le ((domainEnds d).flatMap fun i =>
      common (i.1 + -c.toInt, i.2 + -c.toInt) (kint64min.toInt, kint64max.toInt))
    -- As many intervals as before means that every one has left one.
    rw [← hends, ← hsize, length_moved] at hlength
    have hall := List.countP_eq_length.mp (le_antisymm List.countP_le_length hlength)
    intro i hi
    have hmeet := of_decide_eq_true (hall i hi)
    omega
  · intro hkept
    have hrange : kint64min.toInt ≤ kint64max.toInt := by decide
    have hshift : (domainEnds d).flatMap (fun i =>
        common (i.1 + -c.toInt, i.2 + -c.toInt) (kint64min.toInt, kint64max.toInt)) =
          domainEnds (shiftDomain d c) := by
      rw [shiftDomain_ends, List.map_map]
      refine (moved_eq_map fun i hi => ?_).trans (List.map_congr_left fun i hi => ?_)
      · have hordered := h.ordered i hi
        have hi := hkept i hi
        dsimp only
        omega
      · have hordered := h.ordered i hi
        have hi := hkept i hi
        have hmin : Int64.minValue.toInt = kint64min.toInt := rfl
        have hmax : Int64.maxValue.toInt = kint64max.toInt := rfl
        simp only [Function.comp_apply, onEnds, clamp, hmin, hmax]
        exact Prod.ext (by dsimp only; omega) (by dsimp only; omega)
    have hseparated : Separated (domainEnds (shiftDomain d c)) :=
      (shiftDomain_separated_iff c h).mpr (roomForShift_of_staysInRange h hkept)
    rw [hshift, hseparated.union_eq] at hends
    have hsame : (shiftByAddition d c).intervals_ = (shiftDomain d c).intervals.toList :=
      List.map_injective_iff.mpr ends_injective hends
    rw [fill_eq, builderDomain, hsame]

/-- Words other than zero, shifted by five: nothing is pushed out. -/
theorem shift_agrees_five :
    domainToFlatArray (shiftDomain (.excluding 0) 5) =
      FillDomainInProto (shiftByAddition (.excluding 0) 5) :=
  (shift_agrees_iff separated_excluding_zero (by decide)).mpr (by unfold StaysInRange; decide)

/-- Pushed out: the builder keeps `2 ^ 63 - 1`, the solver keeps nothing. -/
example : domainToFlatArray (shiftDomain (.single kint64max) (-1)) = #[kint64max, kint64max] ∧
    FillDomainInProto (shiftByAddition (.single kint64max) (-1)) = #[] := by
  decide +kernel

end Shift

end Cpsat.Checker
