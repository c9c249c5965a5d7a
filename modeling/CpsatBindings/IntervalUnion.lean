import Mathlib.Data.List.TakeWhile
import CpsatBindings.ClampedIntervals

/-!
# The normal form of a finite union

Any list of nonempty intervals has a separated list that covers the same
integers.  With the intervals sorted by where they begin, one pass finds it:
carry the interval that is still growing, join the next one to it when they
overlap or touch, and put it down otherwise.

* `separated_unionOfSorted`, `covers_unionOfSorted` — the pass yields the
  normal form, and loses and invents no integer.
* `Separated.covers_iff_last` — in the normal form one interval decides
  membership: the last that begins no later than the integer.
* `Separated.bounds` — the first and the last interval bound what is covered.
* `separated_negated`, `separated_clipped` — negation and cutting off above
  yield normal forms again.
-/

namespace Intervals

/-- Sorted by where they begin. -/
def SortedByStart (l : List (ℤ × ℤ)) : Prop := l.Pairwise fun i j => i.1 ≤ j.1

/-- The rest of the pass, with the interval that is still growing. -/
def joinInto (last : ℤ × ℤ) : List (ℤ × ℤ) → List (ℤ × ℤ)
  | [] => [last]
  | i :: rest =>
    if i.1 ≤ last.2 + 1 then joinInto (last.1, max i.2 last.2) rest
    else last :: joinInto i rest

/-- One pass over a list sorted by starts: what touches or overlaps is joined. -/
def unionOfSorted : List (ℤ × ℤ) → List (ℤ × ℤ)
  | [] => []
  | i :: rest => joinInto i rest

theorem covers_cons {i : ℤ × ℤ} {l : List (ℤ × ℤ)} {x : ℤ} :
    Covers (i :: l) x ↔ (i.1 ≤ x ∧ x ≤ i.2) ∨ Covers l x := by
  simp [Covers]

/-- What grows begins where it began. -/
theorem joinInto_head (last : ℤ × ℤ) (l : List (ℤ × ℤ)) :
    ∃ i rest, joinInto last l = i :: rest ∧ i.1 = last.1 := by
  induction l generalizing last with
  | nil => exact ⟨last, [], rfl, rfl⟩
  | cons j rest ih =>
      unfold joinInto
      split
      · exact ih (last.1, max j.2 last.2)
      · exact ⟨last, joinInto j rest, rfl, rfl⟩

/-- Joining makes no list longer. -/
theorem length_joinInto_le (last : ℤ × ℤ) (l : List (ℤ × ℤ)) :
    (joinInto last l).length ≤ l.length + 1 := by
  induction l generalizing last with
  | nil => exact le_refl _
  | cons i rest ih =>
      unfold joinInto
      split
      · exact (ih _).trans (Nat.le_succ _)
      · exact Nat.succ_le_succ (ih i)

/-- Joining makes no list longer. -/
theorem length_unionOfSorted_le (l : List (ℤ × ℤ)) : (unionOfSorted l).length ≤ l.length := by
  cases l with
  | nil => exact le_refl _
  | cons i rest => exact length_joinInto_le i rest

section Pass

variable {last : ℤ × ℤ} {l : List (ℤ × ℤ)}

/-- Growing by the next interval keeps the list sorted and its intervals
nonempty. -/
theorem grown {i : ℤ × ℤ} (hsorted : SortedByStart (last :: i :: l))
    (hordered : ∀ j ∈ last :: i :: l, j.1 ≤ j.2) :
    SortedByStart ((last.1, max i.2 last.2) :: l) ∧
      ∀ j ∈ (last.1, max i.2 last.2) :: l, j.1 ≤ j.2 := by
  obtain ⟨hfirst, hrest⟩ := List.pairwise_cons.mp hsorted
  refine ⟨List.pairwise_cons.mpr ⟨fun j hj => hfirst j (List.mem_cons_of_mem _ hj), ?_⟩, ?_⟩
  · exact (List.pairwise_cons.mp hrest).2
  · intro j hj
    rcases List.mem_cons.mp hj with rfl | hj
    · exact le_max_of_le_right (hordered last List.mem_cons_self)
    · exact hordered j (List.mem_cons_of_mem _ (List.mem_cons_of_mem _ hj))

/-- What is joined covers what was there. -/
theorem covers_joinInto {x : ℤ} (hsorted : SortedByStart (last :: l))
    (hordered : ∀ i ∈ last :: l, i.1 ≤ i.2) :
    Covers (joinInto last l) x ↔ Covers (last :: l) x := by
  induction l generalizing last with
  | nil => rfl
  | cons i rest ih =>
      obtain ⟨hfirst, hrest⟩ := List.pairwise_cons.mp hsorted
      have hbegin := hfirst i List.mem_cons_self
      have hlast := hordered last List.mem_cons_self
      have hi := hordered i (List.mem_cons_of_mem _ List.mem_cons_self)
      unfold joinInto
      split
      · obtain ⟨hsorted', hordered'⟩ := grown hsorted hordered
        rw [ih hsorted' hordered', covers_cons, covers_cons, covers_cons, ← or_assoc]
        refine or_congr_left ?_
        simp only
        omega
      · rw [covers_cons, covers_cons,
          ih hrest fun j hj => hordered j (List.mem_cons_of_mem _ hj)]

theorem separated_joinInto (hsorted : SortedByStart (last :: l))
    (hordered : ∀ i ∈ last :: l, i.1 ≤ i.2) : Separated (joinInto last l) := by
  induction l generalizing last with
  | nil => exact separated_singleton (hordered last List.mem_cons_self)
  | cons i rest ih =>
      unfold joinInto
      split
      · obtain ⟨hsorted', hordered'⟩ := grown hsorted hordered
        exact ih hsorted' hordered'
      · rename_i hapart
        have hrest := ih (List.pairwise_cons.mp hsorted).2
          fun j hj => hordered j (List.mem_cons_of_mem _ hj)
        obtain ⟨j, tail, heq, hj⟩ := joinInto_head i rest
        rw [heq] at hrest ⊢
        refine ⟨?_, List.isChain_cons_cons.mpr ⟨by omega, hrest.apart⟩⟩
        intro k hk
        rcases List.mem_cons.mp hk with rfl | hk
        · exact hordered k List.mem_cons_self
        · exact hrest.ordered k hk

/-- The pass keeps what is covered. -/
theorem covers_unionOfSorted {x : ℤ} (hsorted : SortedByStart l)
    (hordered : ∀ i ∈ l, i.1 ≤ i.2) : Covers (unionOfSorted l) x ↔ Covers l x := by
  cases l with
  | nil => rfl
  | cons i rest => exact covers_joinInto hsorted hordered

theorem separated_unionOfSorted (hsorted : SortedByStart l)
    (hordered : ∀ i ∈ l, i.1 ≤ i.2) : Separated (unionOfSorted l) := by
  cases l with
  | nil => exact separated_nil
  | cons i rest => exact separated_joinInto hsorted hordered

end Pass

/-! ## Membership in the normal form -/

section Membership

variable {l : List (ℤ × ℤ)}

/-- The rest of a separated list is separated. -/
theorem Separated.tail {i : ℤ × ℤ} (h : Separated (i :: l)) : Separated l :=
  ⟨fun j hj => h.ordered j (List.mem_cons_of_mem _ hj), h.apart.tail⟩

/-- Everything after the first interval lies beyond it. -/
theorem Separated.beyond {i : ℤ × ℤ} (h : Separated (i :: l)) :
    ∀ j ∈ l, i.2 + 1 < j.1 := by
  induction l generalizing i with
  | nil => simp
  | cons k rest ih =>
      have hik : i.2 + 1 < k.1 := (List.isChain_cons_cons.mp h.apart).1
      have hk : k.1 ≤ k.2 := h.ordered k (by simp)
      intro j hj
      rcases List.mem_cons.mp hj with rfl | hj
      · exact hik
      · have hkj := ih h.tail j hj
        omega

/-- The last interval that begins no later than `x` decides whether `x` is
covered. -/
theorem Separated.covers_iff_last (h : Separated l) (x : ℤ) :
    Covers l x ↔ ∃ i, (l.takeWhile fun i => decide (i.1 ≤ x)).getLast? = some i ∧ x ≤ i.2 := by
  induction l with
  | nil => simp [Covers]
  | cons i rest ih =>
      have hbeyond := h.beyond
      rw [covers_cons, ih h.tail]
      by_cases hi : i.1 ≤ x
      · rw [List.takeWhile_cons_of_pos (by simpa using hi)]
        cases htake : (rest.takeWhile fun i => decide (i.1 ≤ x)).getLast? with
        | none => simp [List.getLast?_cons, htake, hi]
        | some j =>
            have hj := List.mem_of_getLast? htake
            have hstart : j.1 ≤ x := by simpa using List.mem_takeWhile_imp hj
            have hij := hbeyond j (List.takeWhile_subset _ hj)
            simp only [List.getLast?_cons, htake, Option.getD_some, Option.some.injEq,
              exists_eq_left']
            omega
      · rw [List.takeWhile_cons_of_neg (by simpa using hi)]
        have hrest : rest.takeWhile (fun i => decide (i.1 ≤ x)) = [] := by
          cases rest with
          | nil => rfl
          | cons j tail =>
              have hij := hbeyond j List.mem_cons_self
              have hordered := h.ordered i List.mem_cons_self
              rw [List.takeWhile_cons_of_neg (by simp; omega)]
        simp [hrest, hi]

/-- The first and the last interval bound what is covered. -/
theorem Separated.bounds (h : Separated l) {x : ℤ} (hx : Covers l x) (hl : l ≠ []) :
    (l.head hl).1 ≤ x ∧ x ≤ (l.getLast hl).2 := by
  induction l with
  | nil => exact absurd rfl hl
  | cons i rest ih =>
      have hi := h.ordered i List.mem_cons_self
      cases rest with
      | nil => simpa [Covers] using hx
      | cons j tail =>
          have hij := h.beyond j List.mem_cons_self
          have hlast := h.beyond _ (List.getLast_mem (List.cons_ne_nil j tail))
          have hordered := h.ordered _
            (List.mem_cons_of_mem _ (List.getLast_mem (List.cons_ne_nil j tail)))
          rw [List.getLast_cons_cons, List.head_cons]
          rcases covers_cons.mp hx with hfirst | hrest
          · exact ⟨hfirst.1, by omega⟩
          · obtain ⟨hlow, hhigh⟩ := ih h.tail hrest (List.cons_ne_nil j tail)
            rw [List.head_cons] at hlow
            exact ⟨by omega, hhigh⟩

end Membership

/-! ## Negation, and cutting off above -/

section Negation

variable {l : List (ℤ × ℤ)}

/-- Any two intervals of a separated list have a gap between them. -/
theorem separated_iff_pairwise :
    Separated l ↔ (∀ i ∈ l, i.1 ≤ i.2) ∧ l.Pairwise fun i j => i.2 + 1 < j.1 := by
  constructor
  · intro h
    refine ⟨h.ordered, ?_⟩
    induction l with
    | nil => exact List.Pairwise.nil
    | cons i rest ih => exact List.pairwise_cons.mpr ⟨h.beyond, ih h.tail⟩
  · rintro ⟨hordered, hpairwise⟩
    exact ⟨hordered, hpairwise.isChain⟩

/-- The list, turned around zero. -/
def negated (l : List (ℤ × ℤ)) : List (ℤ × ℤ) := l.reverse.map fun i => (-i.2, -i.1)

/-- It covers the opposites. -/
theorem covers_negated {x : ℤ} : Covers (negated l) x ↔ Covers l (-x) := by
  have hends : ∀ i : ℤ × ℤ, (-i.2 ≤ x ∧ x ≤ -i.1) ↔ (i.1 ≤ -x ∧ -x ≤ i.2) := by
    intro i
    omega
  simp only [Covers, negated, List.mem_map, List.mem_reverse, exists_exists_and_eq_and, hends]

/-- And it is separated if the list is. -/
theorem separated_negated (h : Separated l) : Separated (negated l) := by
  obtain ⟨hordered, hpairwise⟩ := separated_iff_pairwise.mp h
  refine separated_iff_pairwise.mpr ⟨?_, ?_⟩
  · intro i hi
    obtain ⟨j, hj, rfl⟩ := List.mem_map.mp hi
    have hj := hordered j (List.mem_reverse.mp hj)
    dsimp only
    omega
  · refine List.pairwise_map.mpr (List.pairwise_reverse.mpr (hpairwise.imp fun hij => ?_))
    dsimp only
    omega

/-- Without what lies above `b`. -/
def clipped (b : ℤ) (l : List (ℤ × ℤ)) : List (ℤ × ℤ) :=
  (l.filter fun i => i.1 ≤ b).map fun i => (i.1, min i.2 b)

/-- What is clipped covers what was there up to `b`. -/
theorem covers_clipped {b x : ℤ} : Covers (clipped b l) x ↔ x ≤ b ∧ Covers l x := by
  constructor
  · rintro ⟨i, hi, hx⟩
    obtain ⟨j, hj, rfl⟩ := List.mem_map.mp hi
    dsimp only at hx
    exact ⟨by omega, j, List.mem_of_mem_filter hj, by omega⟩
  · rintro ⟨hb, i, hi, hx⟩
    have hbegin : i.1 ≤ b := by omega
    refine ⟨(i.1, min i.2 b),
      List.mem_map.mpr ⟨i, List.mem_filter.mpr ⟨hi, decide_eq_true hbegin⟩, rfl⟩, ?_⟩
    dsimp only
    omega

theorem separated_clipped {b : ℤ} (h : Separated l) : Separated (clipped b l) := by
  obtain ⟨hordered, hpairwise⟩ := separated_iff_pairwise.mp h
  refine separated_iff_pairwise.mpr ⟨?_, ?_⟩
  · intro i hi
    obtain ⟨j, hj, rfl⟩ := List.mem_map.mp hi
    obtain ⟨hmem, hb⟩ := List.mem_filter.mp hj
    have hj := hordered j hmem
    rw [decide_eq_true_iff] at hb
    dsimp only
    omega
  · refine List.pairwise_map.mpr ((hpairwise.filter _).imp fun hij => ?_)
    dsimp only
    omega

end Negation

end Intervals
