import CpsatBindings.IntervalUnion
import Mathlib.Data.Int.Interval
import Mathlib.Data.Set.Card
import Mathlib.Order.Interval.Finset.SuccPred

/-!
# Set operations on the normal form

Two lists in normal form can be walked side by side.  Each step takes what the
first intervals of the two have in common, and then drops the one that ends
first.  The complement is what lies between the intervals.

* `covers_intersect`, `covers_gaps` — the walks compute the set operations.
* `separated_intersect`, `separated_gaps` — and they yield normal forms again.
* `included_iff` — one interval at a time decides inclusion.
* `Separated.snoc`, `Separated.grow_last` — how a pass over intervals in order
  builds a normal form.
* `Separated.ext` — the normal form is determined by the set, so that equal
  sets are equal lists.
-/

namespace Intervals

variable {l m : List (ℤ × ℤ)} {i j : ℤ × ℤ} {x : ℤ}

/-- Two lists cover what either covers. -/
theorem covers_append : Covers (l ++ m) x ↔ Covers l x ∨ Covers m x := by
  simp only [Covers, List.mem_append, or_and_right, exists_or]

/-- Many lists cover what one of them covers. -/
theorem covers_flatMap {ι : Type*} {f : ι → List (ℤ × ℤ)} {s : List ι} :
    Covers (s.flatMap f) x ↔ ∃ k ∈ s, Covers (f k) x := by
  constructor
  · rintro ⟨i, hi, hx⟩
    obtain ⟨k, hk, hi⟩ := List.mem_flatMap.mp hi
    exact ⟨k, hk, i, hi, hx⟩
  · rintro ⟨k, hk, i, hi, hx⟩
    exact ⟨i, List.mem_flatMap.mpr ⟨k, hk, hi⟩, hx⟩

/-- Whatever follows the first interval is covered beyond it. -/
theorem Separated.covers_beyond (h : Separated (i :: l)) (hx : Covers l x) : i.2 + 1 < x := by
  obtain ⟨k, hk, hlow, -⟩ := hx
  have hbeyond := h.beyond k hk
  omega

/-- The normal form is sorted. -/
theorem Separated.sorted (h : Separated l) : SortedByStart l := by
  induction l with
  | nil => exact List.Pairwise.nil
  | cons i l ih =>
      refine List.pairwise_cons.mpr ⟨fun j hj => ?_, ih h.tail⟩
      have hi := h.ordered i List.mem_cons_self
      have hbeyond := h.beyond j hj
      omega

theorem covers_snoc : Covers (l ++ [j]) x ↔ Covers l x ∨ (j.1 ≤ x ∧ x ≤ j.2) := by
  rw [covers_append, covers_cons]
  simp [Covers]

/-- A list with one interval more. -/
theorem separated_snoc :
    Separated (l ++ [j]) ↔ Separated l ∧ j.1 ≤ j.2 ∧ ∀ i ∈ l, i.2 + 1 < j.1 := by
  rw [separated_iff_pairwise, separated_iff_pairwise, List.forall_mem_append,
    List.forall_mem_singleton, List.pairwise_append]
  simp only [List.forall_mem_singleton, List.pairwise_singleton, true_and]
  tauto

/-- The last interval may grow. -/
theorem Separated.grow_last {b : ℤ} (h : Separated (l ++ [j])) (hb : j.2 ≤ b) :
    Separated (l ++ [(j.1, b)]) := by
  obtain ⟨hl, hj, hapart⟩ := separated_snoc.mp h
  exact separated_snoc.mpr ⟨hl, hj.trans hb, hapart⟩

/-- An interval beyond the last one. -/
theorem Separated.snoc (h : Separated (l ++ [i])) (hj : j.1 ≤ j.2) (hij : i.2 + 1 < j.1) :
    Separated (l ++ [i] ++ [j]) := by
  obtain ⟨-, hi, hapart⟩ := separated_snoc.mp h
  refine separated_snoc.mpr ⟨h, hj, ?_⟩
  rw [List.forall_mem_append, List.forall_mem_singleton]
  refine ⟨fun k hk => ?_, hij⟩
  have hk := hapart k hk
  omega

/-- How many integers the normal form covers. -/
theorem Separated.ncard (h : Separated l) :
    {x | Covers l x}.Finite ∧
      ({x | Covers l x}.ncard : ℤ) = (l.map fun i => i.2 - i.1 + 1).sum := by
  induction l with
  | nil => simp [Covers]
  | cons i l ih =>
      obtain ⟨hfinite, hcard⟩ := ih h.tail
      have hi := h.ordered i List.mem_cons_self
      have hsplit : {x | Covers (i :: l) x} = Set.Icc i.1 i.2 ∪ {x | Covers l x} :=
        Set.ext fun x => covers_cons
      have hdisjoint : Disjoint (Set.Icc i.1 i.2) {x | Covers l x} :=
        Set.disjoint_left.mpr fun x hx hx' => by
          have hbeyond := h.covers_beyond hx'
          have hend := hx.2
          omega
      have hfirst : ((Set.Icc i.1 i.2).ncard : ℤ) = i.2 - i.1 + 1 := by
        rw [← Finset.coe_Icc, Set.ncard_coe_finset, Int.card_Icc]
        omega
      rw [hsplit, List.map_cons, List.sum_cons,
        Set.ncard_union_eq hdisjoint (Set.finite_Icc _ _) hfinite, Nat.cast_add, hfirst, hcard]
      exact ⟨(Set.finite_Icc _ _).union hfinite, rfl⟩

/-! ## Intersection -/

/-- What two intervals have in common. -/
def common (i j : ℤ × ℤ) : List (ℤ × ℤ) :=
  if max i.1 j.1 ≤ min i.2 j.2 then [(max i.1 j.1, min i.2 j.2)] else []

/-- Which of two intervals is dropped; of two that end together, the one that
begins first. -/
def endsFirst (i j : ℤ × ℤ) : Bool := if i.1 ≤ j.1 then i.2 ≤ j.2 else i.2 < j.2

/-- Two lists, interval by interval; the one that ends first is done with. -/
def intersect : List (ℤ × ℤ) → List (ℤ × ℤ) → List (ℤ × ℤ)
  | [], _ => []
  | _ :: _, [] => []
  | i :: l, j :: m =>
    if endsFirst i j then common i j ++ intersect l (j :: m)
    else common i j ++ intersect (i :: l) m
termination_by l m => l.length + m.length

/-- Two intervals have in common what lies in both. -/
theorem covers_common : Covers (common i j) x ↔ (i.1 ≤ x ∧ x ≤ i.2) ∧ j.1 ≤ x ∧ x ≤ j.2 := by
  unfold common
  split
  · simp only [Covers, List.mem_singleton, exists_eq_left]
    omega
  · simp only [Covers, List.not_mem_nil, false_and, exists_false, false_iff]
    omega

theorem mem_common {k : ℤ × ℤ} (h : k ∈ common i j) :
    k.1 ≤ k.2 ∧ k.1 = max i.1 j.1 ∧ k.2 = min i.2 j.2 := by
  unfold common at h
  split at h
  · rename_i hmeet
    obtain rfl := List.mem_singleton.mp h
    exact ⟨hmeet, rfl, rfl⟩
  · exact absurd h List.not_mem_nil

/-- What is dropped ends no later. -/
theorem le_of_endsFirst (h : endsFirst i j = true) : i.2 ≤ j.2 := by
  unfold endsFirst at h
  split at h <;> rw [decide_eq_true_iff] at h <;> omega

theorem le_of_not_endsFirst (h : ¬ endsFirst i j = true) : j.2 ≤ i.2 := by
  unfold endsFirst at h
  split at h <;> rw [decide_eq_true_iff] at h <;> omega

/-- **Intersection.**  Separated lists intersect in what both cover. -/
theorem covers_intersect (hl : Separated l) (hm : Separated m) :
    Covers (intersect l m) x ↔ Covers l x ∧ Covers m x := by
  induction l, m using intersect.induct with
  | case1 m => simp [intersect, Covers]
  | case2 i l => simp [intersect, Covers]
  | case3 i l j m hfirst ih =>
      have hends := le_of_endsFirst hfirst
      have hbeyond : Covers m x → j.2 + 1 < x := hm.covers_beyond
      rw [intersect, if_pos hfirst, covers_append, covers_common, ih hl.tail hm]
      simp only [covers_cons]
      grind
  | case4 i l j m hfirst ih =>
      have hends := le_of_not_endsFirst hfirst
      have hbeyond : Covers l x → i.2 + 1 < x := hl.covers_beyond
      rw [intersect, if_neg hfirst, covers_append, covers_common, ih hl hm.tail]
      simp only [covers_cons]
      grind

/-- Nothing in the intersection is empty, and it begins where both lists have
begun. -/
theorem mem_intersect {k : ℤ × ℤ} (h : k ∈ intersect l m) :
    k.1 ≤ k.2 ∧ (∃ i ∈ l, i.1 ≤ k.1) ∧ ∃ j ∈ m, j.1 ≤ k.1 := by
  have hcommon : ∀ {i j : ℤ × ℤ}, k ∈ common i j → k.1 ≤ k.2 ∧ i.1 ≤ k.1 ∧ j.1 ≤ k.1 := by
    intro i j hk
    obtain ⟨hordered, hbegin, -⟩ := mem_common hk
    exact ⟨hordered, by omega, by omega⟩
  induction l, m using intersect.induct with
  | case1 m | case2 i l =>
      rw [intersect] at h
      exact absurd h List.not_mem_nil
  | case3 i l j m hfirst ih =>
      rw [intersect, if_pos hfirst] at h
      rcases List.mem_append.mp h with hhead | hrest
      · obtain ⟨hk, hi, hj⟩ := hcommon hhead
        exact ⟨hk, ⟨i, List.mem_cons_self, hi⟩, j, List.mem_cons_self, hj⟩
      · obtain ⟨hk, ⟨i', hi', hbegin⟩, hj⟩ := ih hrest
        exact ⟨hk, ⟨i', List.mem_cons_of_mem _ hi', hbegin⟩, hj⟩
  | case4 i l j m hfirst ih =>
      rw [intersect, if_neg hfirst] at h
      rcases List.mem_append.mp h with hhead | hrest
      · obtain ⟨hk, hi, hj⟩ := hcommon hhead
        exact ⟨hk, ⟨i, List.mem_cons_self, hi⟩, j, List.mem_cons_self, hj⟩
      · obtain ⟨hk, hi, j', hj', hbegin⟩ := ih hrest
        exact ⟨hk, hi, j', List.mem_cons_of_mem _ hj', hbegin⟩

/-- An interval in front of a list that begins beyond it. -/
theorem separated_common_append (hm : Separated m) (hbegin : ∀ k ∈ m, min i.2 j.2 + 1 < k.1) :
    Separated (common i j ++ m) := by
  unfold common
  split
  · rename_i hmeet
    rw [separated_iff_pairwise] at hm ⊢
    refine ⟨List.forall_mem_cons.mpr ⟨hmeet, hm.1⟩, List.pairwise_cons.mpr ⟨hbegin, hm.2⟩⟩
  · exact hm

/-- And the result is separated. -/
theorem separated_intersect (hl : Separated l) (hm : Separated m) :
    Separated (intersect l m) := by
  induction l, m using intersect.induct with
  | case1 m | case2 i l =>
      rw [intersect]
      exact separated_nil
  | case3 i l j m hfirst ih =>
      rw [intersect, if_pos hfirst]
      refine separated_common_append (ih hl.tail hm) fun k hk => ?_
      obtain ⟨-, ⟨i', hi', hbegin⟩, -⟩ := mem_intersect hk
      have hbeyond := hl.beyond i' hi'
      omega
  | case4 i l j m hfirst ih =>
      rw [intersect, if_neg hfirst]
      refine separated_common_append (ih hl hm.tail) fun k hk => ?_
      obtain ⟨-, -, j', hj', hbegin⟩ := mem_intersect hk
      have hbeyond := hm.beyond j' hj'
      omega

/-! ## Complement -/

/-- What lies from `next` to `b` outside the list; `a` is where it may begin. -/
def gaps (a b next : ℤ) : List (ℤ × ℤ) → List (ℤ × ℤ)
  | [] => [(next, b)]
  | i :: l =>
    let gap := if i.1 ≠ a then [(next, i.1 - 1)] else []
    if i.2 = b then gap else gap ++ gaps a b (i.2 + 1) l

section Complement

variable {a b next : ℤ}

/-- Where the walk stands: nothing that is left begins before `next`, and
nothing begins there unless it is the very beginning. -/
structure Ahead (a b next : ℤ) (l : List (ℤ × ℤ)) : Prop where
  separated : Separated l
  start : a ≤ next ∧ next ≤ b
  begins : ∀ i ∈ l, next < i.1 ∨ (i.1 = a ∧ next = a)
  ends : ∀ i ∈ l, i.2 ≤ b

/-- The walk goes on after an interval that does not end it. -/
theorem Ahead.step (h : Ahead a b next (i :: l)) (hends : i.2 ≠ b) :
    Ahead a b (i.2 + 1) l where
  separated := h.separated.tail
  start := by
    have hi := h.separated.ordered i List.mem_cons_self
    have hbegin := h.begins i List.mem_cons_self
    have hend := h.ends i List.mem_cons_self
    have hstart := h.start
    omega
  begins k hk := Or.inl (h.separated.beyond k hk)
  ends k hk := h.ends k (List.mem_cons_of_mem _ hk)

/-- **Complement.**  The gaps cover what the list does not, in the range. -/
theorem covers_gaps (h : Ahead a b next l) :
    Covers (gaps a b next l) x ↔ (next ≤ x ∧ x ≤ b) ∧ ¬ Covers l x := by
  induction l generalizing next with
  | nil => simp [gaps, Covers]
  | cons i l ih =>
      have hi := h.separated.ordered i List.mem_cons_self
      have hbegin := h.begins i List.mem_cons_self
      have hstart := h.start
      have hend := h.ends i List.mem_cons_self
      have hbeyond : Covers l x → i.2 + 1 < x := h.separated.covers_beyond
      have hgap : Covers (if i.1 ≠ a then [(next, i.1 - 1)] else []) x ↔
          next ≤ x ∧ x < i.1 := by
        split
        · simp only [Covers, List.mem_singleton, exists_eq_left]
          omega
        · simp only [Covers, List.not_mem_nil, false_and, exists_false, false_iff]
          omega
      rw [gaps, covers_cons]
      split
      · rw [hgap]
        grind
      · rename_i hends
        rw [covers_append, hgap, ih (h.step hends)]
        grind

/-- Every gap begins no earlier than the walk. -/
theorem mem_gaps (h : Ahead a b next l) : ∀ k ∈ gaps a b next l, next ≤ k.1 := by
  induction l generalizing next with
  | nil => simp [gaps]
  | cons i l ih =>
      have hi := h.separated.ordered i List.mem_cons_self
      have hbegin := h.begins i List.mem_cons_self
      have hgap : ∀ k ∈ (if i.1 ≠ a then [(next, i.1 - 1)] else []), next ≤ k.1 := by
        split <;> simp
      rw [gaps]
      split
      · exact hgap
      · rename_i hends
        rw [List.forall_mem_append]
        refine ⟨hgap, fun k hk => ?_⟩
        have hrest := ih (h.step hends) k hk
        omega

/-- And they are separated. -/
theorem separated_gaps (h : Ahead a b next l) : Separated (gaps a b next l) := by
  induction l generalizing next with
  | nil => exact separated_singleton h.start.2
  | cons i l ih =>
      have hi := h.separated.ordered i List.mem_cons_self
      have hbegin := h.begins i List.mem_cons_self
      have hgap : ∀ {m : List (ℤ × ℤ)}, Separated m → (∀ k ∈ m, i.1 < k.1) →
          Separated ((if i.1 ≠ a then [(next, i.1 - 1)] else []) ++ m) := by
        intro m hm hlater
        split
        · rw [separated_iff_pairwise] at hm ⊢
          refine ⟨List.forall_mem_cons.mpr ⟨?_, hm.1⟩, List.pairwise_cons.mpr ⟨?_, hm.2⟩⟩
          · dsimp only
            omega
          · intro k hk
            have hk := hlater k hk
            dsimp only
            omega
        · exact hm
      rw [gaps]
      split
      · rw [← List.append_nil (if i.1 ≠ a then [(next, i.1 - 1)] else [])]
        exact hgap separated_nil fun k hk => absurd hk List.not_mem_nil
      · rename_i hends
        refine hgap (ih (h.step hends)) fun k hk => ?_
        have hrest := mem_gaps (h.step hends) k hk
        omega

end Complement

/-! ## Sums -/

/-- The sums of an integer of the one and an integer of the other, within `[a, b]`. -/
def sums (a b : ℤ) (l m : List (ℤ × ℤ)) : List (ℤ × ℤ) :=
  l.flatMap fun i => m.flatMap fun j => common (i.1 + j.1, i.2 + j.2) (a, b)

section Sums

variable {a b : ℤ}

/-- **Sums.**  The sums of intervals cover the sums of their elements, in the range. -/
theorem covers_sums (hl : ∀ i ∈ l, i.1 ≤ i.2) (hm : ∀ j ∈ m, j.1 ≤ j.2) :
    Covers (sums a b l m) x ↔ (a ≤ x ∧ x ≤ b) ∧ ∃ y z, Covers l y ∧ Covers m z ∧ y + z = x := by
  simp only [sums, covers_flatMap]
  constructor
  · rintro ⟨i, hi, j, hj, hx⟩
    obtain ⟨hsum, hrange⟩ := covers_common.mp hx
    have hordered := hl i hi
    have hordered' := hm j hj
    dsimp only at hsum hrange
    -- As much of `x` as the first interval can hold.
    refine ⟨hrange, min i.2 (x - j.1), x - min i.2 (x - j.1), ⟨i, hi, ?_⟩, ⟨j, hj, ?_⟩, ?_⟩
    · omega
    · omega
    · omega
  · rintro ⟨hrange, y, z, ⟨i, hi, hy⟩, ⟨j, hj, hz⟩, rfl⟩
    refine ⟨i, hi, j, hj, covers_common.mpr ⟨?_, hrange⟩⟩
    dsimp only
    omega

/-- No sum of intervals is empty. -/
theorem sums_ordered : ∀ k ∈ sums a b l m, k.1 ≤ k.2 := by
  intro k hk
  simp only [sums, List.mem_flatMap] at hk
  obtain ⟨i, -, j, -, hk⟩ := hk
  exact (mem_common hk).1

/-- Intervals that are moved and cut off one by one stay sorted. -/
theorem sorted_moved {f : ℤ × ℤ → ℤ × ℤ} (hf : ∀ i j : ℤ × ℤ, i.1 ≤ j.1 → (f i).1 ≤ (f j).1)
    (hl : SortedByStart l) : SortedByStart (l.flatMap fun i => common (f i) (a, b)) := by
  refine List.pairwise_flatMap.mpr ⟨fun i _ => ?_, hl.imp fun {i j} hij p hp q hq => ?_⟩
  · unfold common
    split
    · exact List.pairwise_singleton _ _
    · exact List.Pairwise.nil
  · obtain ⟨-, hp, -⟩ := mem_common hp
    obtain ⟨-, hq, -⟩ := mem_common hq
    have hmoved := hf i j hij
    omega

/-- Every interval that is not cut off altogether leaves one. -/
theorem length_moved (f : ℤ × ℤ → ℤ × ℤ) (l : List (ℤ × ℤ)) :
    (l.flatMap fun i => common (f i) (a, b)).length =
      l.countP fun i => max (f i).1 a ≤ min (f i).2 b := by
  induction l with
  | nil => rfl
  | cons i l ih =>
      rw [List.flatMap_cons, List.length_append, ih, List.countP_cons, Nat.add_comm]
      congr 1
      unfold common
      by_cases hmeet : max (f i).1 a ≤ min (f i).2 b <;> simp [hmeet]

/-- Where none is cut off altogether, every interval keeps its place. -/
theorem moved_eq_map {f : ℤ × ℤ → ℤ × ℤ}
    (hkept : ∀ i ∈ l, max (f i).1 a ≤ min (f i).2 b) :
    (l.flatMap fun i => common (f i) (a, b)) =
      l.map fun i => (max (f i).1 a, min (f i).2 b) := by
  induction l with
  | nil => rfl
  | cons i l ih =>
      obtain ⟨hi, hl⟩ := List.forall_mem_cons.mp hkept
      rw [List.flatMap_cons, List.map_cons, ih hl, common, if_pos hi, List.singleton_append]

/-- Against one interval the sums are found in order. -/
theorem sorted_sums (hl : SortedByStart l) (hm : SortedByStart m)
    (hone : l.length ≤ 1 ∨ m.length ≤ 1) : SortedByStart (sums a b l m) := by
  unfold sums
  rcases hone with hone | hone
  · match l, hone with
    | [], _ => exact List.Pairwise.nil
    | [i], _ =>
        rw [List.flatMap_singleton]
        exact sorted_moved (fun j k hjk => by dsimp only; omega) hm
  · match m, hone with
    | [], _ =>
        exact List.pairwise_flatMap.mpr
          ⟨fun _ _ => List.Pairwise.nil, hl.imp fun _ p hp => absurd hp List.not_mem_nil⟩
    | [j], _ =>
        simp only [List.flatMap_singleton]
        exact sorted_moved (fun i k hik => by dsimp only; omega) hl

end Sums

/-! ## Inclusion -/

/-- A run of covered integers lies in one interval. -/
theorem Separated.one_covers {a b : ℤ} (h : Separated l) (hab : a ≤ b)
    (hcovers : ∀ x, a ≤ x → x ≤ b → Covers l x) : ∃ i ∈ l, i.1 ≤ a ∧ b ≤ i.2 := by
  induction l with
  | nil =>
      obtain ⟨i, hi, -⟩ := hcovers a (le_refl a) hab
      exact absurd hi List.not_mem_nil
  | cons i l ih =>
      have hbeyond : ∀ x, Covers l x → i.2 + 1 < x := fun x => h.covers_beyond
      simp only [covers_cons] at hcovers
      by_cases ha : a ≤ i.2
      · refine ⟨i, List.mem_cons_self, ?_, ?_⟩
        · rcases hcovers a (le_refl a) hab with hfirst | hrest
          · exact hfirst.1
          · have hgap := hbeyond a hrest
            omega
        · by_contra hb
          -- The integer after `i` would be covered.
          rcases hcovers (i.2 + 1) (by omega) (by omega) with hfirst | hrest
          · omega
          · exact lt_irrefl _ (hbeyond _ hrest)
      · obtain ⟨j, hj, hcontains⟩ := ih h.tail fun x hlow hhigh =>
          (hcovers x hlow hhigh).resolve_left (by omega)
        exact ⟨j, List.mem_cons_of_mem _ hj, hcontains⟩

/-- Each interval in turn is looked for among those that do not end before it. -/
def included : List (ℤ × ℤ) → List (ℤ × ℤ) → Bool
  | [], _ => true
  | i :: l, m =>
    match m.dropWhile fun j => j.2 < i.2 with
    | [] => false
    | j :: rest => if i.1 < j.1 then false else included l (j :: rest)

/-- What is dropped is too early for every later interval as well. -/
theorem covers_dropWhile {a : ℤ} (hx : a ≤ x) :
    Covers (m.dropWhile fun j => j.2 < a) x ↔ Covers m x := by
  induction m with
  | nil => rfl
  | cons j m ih =>
      by_cases hj : j.2 < a
      · rw [List.dropWhile_cons_of_pos (by simpa using hj), ih, covers_cons]
        exact (or_iff_right (by omega)).symm
      · rw [List.dropWhile_cons_of_neg (by simpa using hj)]

/-- What is left of a separated list is separated. -/
theorem separated_dropWhile {p : ℤ × ℤ → Bool} (h : Separated m) :
    Separated (m.dropWhile p) := by
  rw [separated_iff_pairwise] at h ⊢
  exact ⟨fun j hj => h.1 j (List.dropWhile_subset _ hj), h.2.sublist (List.dropWhile_sublist _)⟩

/-- **Inclusion.**  One pass decides inclusion of separated lists. -/
theorem included_iff (hl : Separated l) (hm : Separated m) :
    included l m = true ↔ ∀ x, Covers l x → Covers m x := by
  induction l generalizing m with
  | nil => simp [included, Covers]
  | cons i l ih =>
      have hi := hl.ordered i List.mem_cons_self
      have hbeyond : ∀ x, Covers l x → i.2 + 1 < x := fun x => hl.covers_beyond
      have hdropped := @separated_dropWhile m (fun j => j.2 < i.2) hm
      have hcovers : ∀ x, i.2 ≤ x → (Covers (m.dropWhile fun j => j.2 < i.2) x ↔ Covers m x) :=
        fun x => covers_dropWhile
      unfold included
      cases hdrop : m.dropWhile fun j => j.2 < i.2 with
      | nil =>
          refine iff_of_false Bool.false_ne_true fun h => ?_
          have hend := (hcovers i.2 (le_refl _)).mpr
            (h i.2 (covers_cons.mpr (Or.inl ⟨hi, le_refl _⟩)))
          rw [hdrop] at hend
          simp [Covers] at hend
      | cons j rest =>
          rw [hdrop] at hdropped hcovers
          have hj : i.2 ≤ j.2 := by
            have hhead := List.head?_dropWhile_not (fun j : ℤ × ℤ => decide (j.2 < i.2)) m
            rw [hdrop] at hhead
            simpa using hhead
          dsimp only
          split
          · rename_i hlate
            refine iff_of_false Bool.false_ne_true fun h => ?_
            obtain ⟨k, hk, hlow, hhigh⟩ := hm.one_covers hi fun x hlow hhigh =>
              h x (covers_cons.mpr (Or.inl ⟨hlow, hhigh⟩))
            have hkept : k ∈ j :: rest := by
              rw [← @List.takeWhile_append_dropWhile _ (fun j => decide (j.2 < i.2)) m, hdrop] at hk
              rcases List.mem_append.mp hk with htaken | hkept
              · have hends : k.2 < i.2 := by simpa using List.mem_takeWhile_imp htaken
                omega
              · exact hkept
            rcases List.mem_cons.mp hkept with rfl | hk
            · omega
            · have hbeyond := hdropped.beyond k hk
              omega
          · rename_i hearly
            rw [ih hl.tail hdropped]
            constructor
            · intro h x hx
              rcases covers_cons.mp hx with hfirst | hrest
              · have hmem : j ∈ m := List.dropWhile_subset (fun j => decide (j.2 < i.2)) (by
                  rw [hdrop]
                  exact List.mem_cons_self)
                exact ⟨j, hmem, by omega, by omega⟩
              · have hx := hbeyond x hrest
                exact (hcovers x (by omega)).mp (h x hrest)
            · intro h x hx
              have hlate := hbeyond x hx
              exact (hcovers x (by omega)).mpr (h x (covers_cons.mpr (Or.inr hx)))

/-! ## Equality -/

/-- **The normal form is unique.** -/
theorem Separated.ext (hl : Separated l) (hm : Separated m)
    (h : ∀ x, Covers l x ↔ Covers m x) : l = m := by
  induction l generalizing m with
  | nil =>
      cases m with
      | nil => rfl
      | cons j m =>
          have hj := hm.ordered j List.mem_cons_self
          have hcovers := (h j.1).mpr (covers_cons.mpr (Or.inl ⟨le_refl _, hj⟩))
          simp [Covers] at hcovers
  | cons i l ih =>
      have hi := hl.ordered i List.mem_cons_self
      have hcovered : ∀ x, i.1 ≤ x → x ≤ i.2 → Covers m x := fun x hlow hhigh =>
        (h x).mp (covers_cons.mpr (Or.inl ⟨hlow, hhigh⟩))
      cases m with
      | nil =>
          have hcovers := hcovered i.1 (le_refl _) hi
          simp [Covers] at hcovers
      | cons j m =>
          have hj := hm.ordered j List.mem_cons_self
          have hij : i = j := by
            obtain ⟨k, hk, hki⟩ := hm.one_covers hi hcovered
            obtain ⟨k', hk', hkj⟩ := hl.one_covers hj fun x hlow hhigh =>
              (h x).mpr (covers_cons.mpr (Or.inl ⟨hlow, hhigh⟩))
            have hlate : k ∈ m → j.2 + 1 < k.1 := hm.beyond k
            have hlate' : k' ∈ l → i.2 + 1 < k'.1 := hl.beyond k'
            rcases List.mem_cons.mp hk with rfl | hk <;> rcases List.mem_cons.mp hk' with rfl | hk'
            · exact Prod.ext (by omega) (by omega)
            · have hgap := hlate' hk'
              omega
            · have hgap := hlate hk
              omega
            · have hgap := hlate hk
              have hgap' := hlate' hk'
              omega
          subst hij
          refine congrArg _ (ih hl.tail hm.tail fun x => ?_)
          have hx := h x
          simp only [covers_cons] at hx
          constructor
          · intro hcovers
            have hlate := hl.covers_beyond hcovers
            exact (hx.mp (Or.inr hcovers)).resolve_left (by omega)
          · intro hcovers
            have hlate := hm.covers_beyond hcovers
            exact (hx.mpr (Or.inr hcovers)).resolve_left (by omega)

/-- The pass changes no normal form. -/
theorem Separated.union_eq (h : Separated l) : unionOfSorted l = l :=
  (separated_unionOfSorted h.sorted h.ordered).ext h
    fun _ => covers_unionOfSorted h.sorted h.ordered

end Intervals
