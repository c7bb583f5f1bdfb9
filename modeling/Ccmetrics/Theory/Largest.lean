/-
# Theory.Largest -- the largest elements of a finite set

`above s x` counts the elements of `s` that are greater than `x`. A set of `m` elements whose
every missing element has `m` of them above it is the set of the `m` largest (`largest_of_above`),
and there is one such set (`Largest.unique`). Removing an element that itself has `m` above it does
not push any count below `m` (`above_erase`), which is what lets eviction be reasoned about one
removal at a time.
-/
import Mathlib.Order.Defs.LinearOrder
import Mathlib.Data.Finset.Card

namespace Ccmetrics.Theory

set_option autoImplicit false

variable {K : Type} [LinearOrder K] {s u : Finset K} {m c : Nat} {x y : K}

def above (s : Finset K) (x : K) : Nat := (s.filter (x < ·)).card

/-- `s` consists of the `m` largest elements of `u`. -/
structure Largest (m : Nat) (u s : Finset K) : Prop where
  subset : s ⊆ u
  card : s.card = m
  above : ∀ x ∈ u, x ∉ s → ∀ y ∈ s, x < y

/-- There is one such set. -/
theorem Largest.unique {t : Finset K} (largest : Largest m u s) (other : Largest m u t) : s = t := by
  have inside : s ⊆ t := by
    intro x member
    by_contra missing
    -- then all of `t` is above `x`, so it is in `s` as well, and `s` has one element more
    have more : insert x t ⊆ s := by
      intro y inInsert
      rcases Finset.mem_insert.1 inInsert with rfl | inT
      · exact member
      · by_contra outside
        exact lt_asymm (other.above x (largest.subset member) missing y inT)
          (largest.above y (other.subset inT) outside x member)
    have count := Finset.card_le_card more
    rw [Finset.card_insert_of_notMem missing, largest.card, other.card] at count
    omega
  exact Finset.eq_of_subset_of_card_le inside (by rw [largest.card, other.card])

theorem above_insert_le (s : Finset K) (x y : K) : above s x ≤ above (insert y s) x :=
  Finset.card_le_card (Finset.filter_subset_filter _ (Finset.subset_insert y s))

theorem above_insert (isNew : y ∉ s) (greater : x < y) :
    above (insert y s) x = above s x + 1 := by
  rw [above, Finset.filter_insert, if_pos greater,
    Finset.card_insert_of_notMem fun member => isNew (Finset.mem_filter.1 member).1]
  rfl

/-- Below the least element everything is above. -/
theorem above_of_lt (below : ∀ y ∈ s, x < y) : above s x = s.card := by
  rw [above, Finset.filter_true_of_mem below]

theorem above_least (member : x ∈ s) (least : ∀ y ∈ s, x ≤ y) : above s x + 1 = s.card := by
  have rest : s.filter (x < ·) = s.erase x := by
    ext y
    simp only [Finset.mem_filter, Finset.mem_erase]
    constructor
    · rintro ⟨inSet, greater⟩
      exact ⟨greater.ne', inSet⟩
    · rintro ⟨other, inSet⟩
      exact ⟨inSet, lt_of_le_of_ne (least y inSet) (Ne.symm other)⟩
  rw [above, rest, Finset.card_erase_add_one member]

theorem above_erase (member : y ∈ s) (evictable : m ≤ above s y) (enough : c ≤ above s x)
    (small : c ≤ m) : c ≤ above (s.erase y) x := by
  by_cases greater : x < y
  · -- everything above `y`, and `y` itself, is above `x`
    have inside : insert y (s.filter (y < ·)) ⊆ s.filter (x < ·) := by
      intro z inInsert
      rcases Finset.mem_insert.1 inInsert with rfl | inFilter
      · exact Finset.mem_filter.2 ⟨member, greater⟩
      · have parts := Finset.mem_filter.1 inFilter
        exact Finset.mem_filter.2 ⟨parts.1, greater.trans parts.2⟩
    have more := Finset.card_le_card inside
    rw [Finset.card_insert_of_notMem (by simp)] at more
    have erased : (s.erase y).filter (x < ·) = (s.filter (x < ·)).erase y :=
      Finset.filter_erase ..
    have count : ((s.filter (x < ·)).erase y).card + 1 = (s.filter (x < ·)).card :=
      Finset.card_erase_add_one (Finset.mem_filter.2 ⟨member, greater⟩)
    simp only [above] at *
    rw [erased]
    omega
  · have same : (s.erase y).filter (x < ·) = s.filter (x < ·) := by
      rw [Finset.filter_erase, Finset.erase_eq_of_notMem]
      simp [greater]
    rwa [above, same]

theorem largest_of_above (subset : s ⊆ u) (card : s.card = m)
    (missing : ∀ x ∈ u, x ∉ s → m ≤ above s x) : Largest m u s where
  subset := subset
  card := card
  above := by
    intro x inUnion notIn y member
    have all : s.filter (x < ·) = s :=
      Finset.eq_of_subset_of_card_le (Finset.filter_subset ..) (card ▸ missing x inUnion notIn)
    rw [← all] at member
    exact (Finset.mem_filter.1 member).2

end Ccmetrics.Theory
