import Mathlib.Data.List.Chain
import Mathlib.Order.Lattice
import Mathlib.Order.MinMax
import Mathlib.Algebra.Order.Ring.Int

/-!
# Separated intervals under translation and clamping

A finite union of integer intervals has one normal form: the intervals are
nonempty, sorted, and no two of them touch.  This file says what the two
operations of saturating arithmetic do to that form.

* Translation keeps it (`separated_translate_iff`).
* Clamping every endpoint into `[a, b]` need not: two intervals beyond the
  same bound collapse onto it.  `Separated.clamp_iff` is the exact condition,
  a distance of two to the bound ahead for every interval but the last, and
  to the bound behind for every interval but the first.
* Clamping never changes which points strictly between the bounds are covered
  (`covers_clamp_iff`), separated or not.
-/

namespace Intervals

/-- Nonempty, sorted, pairwise non-adjacent intervals. -/
structure Separated (l : List (ℤ × ℤ)) : Prop where
  ordered : ∀ i ∈ l, i.1 ≤ i.2
  apart : l.IsChain fun i j => i.2 + 1 < j.1

/-- The integers an interval list stands for. -/
def Covers (l : List (ℤ × ℤ)) (x : ℤ) : Prop :=
  ∃ i ∈ l, i.1 ≤ x ∧ x ≤ i.2

/-- The point of `[a, b]` closest to `x`. -/
def clamp (a b x : ℤ) : ℤ := max a (min x b)

/-- Both endpoints moved by the same function. -/
def onEnds (f : ℤ → ℤ) (i : ℤ × ℤ) : ℤ × ℤ := (f i.1, f i.2)

/-- Clamping is monotone. -/
theorem clamp_mono {a b x y : ℤ} (h : x ≤ y) : clamp a b x ≤ clamp a b y := by
  unfold clamp
  omega

/-- Numbers in the range stay where they are. -/
theorem clamp_of_mem {a b x : ℤ} (ha : a ≤ x) (hb : x ≤ b) : clamp a b x = x := by
  unfold clamp
  omega

/-- No intervals are separated. -/
theorem separated_nil : Separated [] :=
  ⟨by simp, List.isChain_nil⟩

/-- One interval is, if it is not empty. -/
theorem separated_singleton {i : ℤ × ℤ} (h : i.1 ≤ i.2) : Separated [i] :=
  ⟨by simpa using h, List.isChain_singleton i⟩

/-- Two are, if there is a number between them. -/
theorem separated_pair {i j : ℤ × ℤ} :
    Separated [i, j] ↔ i.1 ≤ i.2 ∧ j.1 ≤ j.2 ∧ i.2 + 1 < j.1 := by
  constructor
  · intro h
    exact ⟨h.ordered i (by simp), h.ordered j (by simp), by simpa using h.apart⟩
  · rintro ⟨hi, hj, hij⟩
    exact ⟨by simp [hi, hj], by simpa using hij⟩

/-- Translation neither orders nor joins intervals. -/
theorem separated_translate_iff (c : ℤ) (l : List (ℤ × ℤ)) :
    Separated (l.map (onEnds (· + c))) ↔ Separated l := by
  have happart : (l.map (onEnds (· + c))).IsChain (fun i j => i.2 + 1 < j.1) ↔
      l.IsChain fun i j => i.2 + 1 < j.1 := by
    rw [List.isChain_map]
    apply List.IsChain.iff
    intro i j
    simp only [onEnds]
    omega
  constructor
  · intro h
    refine ⟨?_, happart.mp h.apart⟩
    intro i hi
    simpa [onEnds] using h.ordered _ (List.mem_map_of_mem hi)
  · intro h
    refine ⟨?_, happart.mpr h.apart⟩
    intro i hi
    obtain ⟨j, hj, rfl⟩ := List.mem_map.mp hi
    simpa [onEnds] using h.ordered j hj

/-- Room for clamping into `[a, b]`: the earlier of two consecutive intervals
ends at least two before `b`, the later one begins at least two after `a`. -/
def RoomBetween (a b : ℤ) (i j : ℤ × ℤ) : Prop :=
  i.2 + 2 ≤ b ∧ a + 2 ≤ j.1

instance (a b : ℤ) (i j : ℤ × ℤ) : Decidable (RoomBetween a b i j) :=
  inferInstanceAs (Decidable (_ ∧ _))

/-- Two separated intervals stay separated under clamping exactly if there is
room for them. -/
theorem clamp_apart_iff {a b : ℤ} {i j : ℤ × ℤ} (hab : a + 1 < b) (hij : i.2 + 1 < j.1) :
    clamp a b i.2 + 1 < clamp a b j.1 ↔ RoomBetween a b i j := by
  unfold clamp RoomBetween
  omega

/-- **Clamping a separated list.**  It stays separated exactly if every two
consecutive intervals have room. -/
theorem Separated.clamp_iff {a b : ℤ} {l : List (ℤ × ℤ)} (hab : a + 1 < b)
    (h : Separated l) :
    Separated (l.map (onEnds (clamp a b))) ↔ l.IsChain (RoomBetween a b) := by
  have hapart := List.isChain_iff_getElem.mp h.apart
  have hchain : (l.map (onEnds (clamp a b))).IsChain (fun i j => i.2 + 1 < j.1) ↔
      l.IsChain (RoomBetween a b) := by
    rw [List.isChain_map, List.isChain_iff_getElem, List.isChain_iff_getElem]
    exact forall₂_congr fun k hk => clamp_apart_iff hab (hapart k hk)
  constructor
  · intro hclamped
    exact hchain.mp hclamped.apart
  · intro hroom
    refine ⟨?_, hchain.mpr hroom⟩
    intro i hi
    obtain ⟨j, hj, rfl⟩ := List.mem_map.mp hi
    exact clamp_mono (h.ordered j hj)

/-- Clamping moves no point strictly between the bounds into or out of the
set. -/
theorem covers_clamp_iff {a b x : ℤ} (l : List (ℤ × ℤ)) (ha : a < x) (hb : x < b) :
    Covers (l.map (onEnds (clamp a b))) x ↔ Covers l x := by
  have hends : ∀ i : ℤ × ℤ,
      (clamp a b i.1 ≤ x ∧ x ≤ clamp a b i.2) ↔ (i.1 ≤ x ∧ x ≤ i.2) := by
    intro i
    unfold clamp
    omega
  simp only [Covers, List.mem_map, exists_exists_and_eq_and, onEnds, hends]

/-- Translation moves the covered set along. -/
theorem covers_translate_iff {c x : ℤ} (l : List (ℤ × ℤ)) :
    Covers (l.map (onEnds (· + c))) x ↔ Covers l (x - c) := by
  have hends : ∀ i : ℤ × ℤ,
      (i.1 + c ≤ x ∧ x ≤ i.2 + c) ↔ (i.1 ≤ x - c ∧ x - c ≤ i.2) := by
    intro i
    omega
  simp only [Covers, List.mem_map, exists_exists_and_eq_and, onEnds, hends]

end Intervals
