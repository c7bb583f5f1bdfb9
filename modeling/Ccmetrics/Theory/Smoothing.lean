/-
# Theory.Smoothing -- exponentially weighted averages

`smooth alpha rate x` moves a rate towards a sample `x` by the fraction `alpha` of the way.
Smoothing a whole list weighs the last sample by `alpha` and every earlier one by a factor
`1 - alpha` less, while the value started from keeps what weight is left (`foldl_smooth`). The
weights are a convex combination, so the result stays between all bounds of the samples
(`foldl_smooth_le`, `le_foldl_smooth`).
-/
import Mathlib.Algebra.BigOperators.Intervals
import Mathlib.Algebra.BigOperators.Ring.Finset
import Mathlib.Algebra.Order.Field.Basic
import Mathlib.Tactic.Linarith
import Mathlib.Tactic.Ring

namespace Ccmetrics.Theory

set_option autoImplicit false

variable {K : Type} [Field K]

def smooth (alpha rate x : K) : K := rate + alpha * (x - rate)

theorem smooth_eq (alpha rate x : K) : smooth alpha rate x = (1 - alpha) * rate + alpha * x := by
  rw [smooth]
  ring

theorem smooth_self (alpha x : K) : smooth alpha x x = x := by simp [smooth]

/-- The weights of the samples in a smoothed rate. -/
theorem foldl_smooth (alpha first : K) (xs : List K) :
    xs.foldl (smooth alpha) first = (1 - alpha) ^ xs.length * first +
      ∑ i ∈ Finset.range xs.length, alpha * (1 - alpha) ^ (xs.length - (i + 1)) * xs.getD i 0 := by
  induction xs using List.reverseRecOn with
  | nil => simp
  | append_singleton xs x ih =>
      rw [List.foldl_append, List.foldl_cons, List.foldl_nil, smooth_eq, ih, List.length_append,
        List.length_singleton, Finset.sum_range_succ]
      have last : (xs ++ [x]).getD xs.length 0 = x := by simp [List.getD]
      have earlier : ∀ i ∈ Finset.range xs.length,
          alpha * (1 - alpha) ^ (xs.length + 1 - (i + 1)) * (xs ++ [x]).getD i 0 =
            (1 - alpha) * (alpha * (1 - alpha) ^ (xs.length - (i + 1)) * xs.getD i 0) := by
        intro i inside
        have below : i < xs.length := Finset.mem_range.1 inside
        have old : (xs ++ [x]).getD i 0 = xs.getD i 0 := by
          rw [List.getD, List.getD, List.getElem?_append_left below]
        have one : xs.length + 1 - (i + 1) = (xs.length - (i + 1)) + 1 := by omega
        rw [old, one, pow_succ]
        ring
      rw [Finset.sum_congr rfl earlier, ← Finset.mul_sum, last, Nat.sub_self, pow_zero, pow_succ]
      ring

section Bounds

variable [LinearOrder K] [IsStrictOrderedRing K] {alpha lo hi : K}

theorem smooth_mono {rate rate' x x' : K} (nonneg : 0 ≤ alpha) (le_one : alpha ≤ 1)
    (rates : rate ≤ rate') (samples : x ≤ x') : smooth alpha rate x ≤ smooth alpha rate' x' := by
  rw [smooth_eq, smooth_eq]
  have rest : 0 ≤ 1 - alpha := by linarith
  exact add_le_add (mul_le_mul_of_nonneg_left rates rest) (mul_le_mul_of_nonneg_left samples nonneg)

theorem foldl_smooth_le (nonneg : 0 ≤ alpha) (le_one : alpha ≤ 1) {first : K} {xs : List K}
    (start : first ≤ hi) (bounded : ∀ x ∈ xs, x ≤ hi) : xs.foldl (smooth alpha) first ≤ hi := by
  induction xs generalizing first with
  | nil => exact start
  | cons x rest ih =>
      refine ih ?_ fun y member => bounded y (List.mem_cons_of_mem _ member)
      have := smooth_mono nonneg le_one start (bounded x (List.mem_cons_self ..))
      rwa [smooth_self] at this

theorem le_foldl_smooth (nonneg : 0 ≤ alpha) (le_one : alpha ≤ 1) {first : K} {xs : List K}
    (start : lo ≤ first) (bounded : ∀ x ∈ xs, lo ≤ x) : lo ≤ xs.foldl (smooth alpha) first := by
  induction xs generalizing first with
  | nil => exact start
  | cons x rest ih =>
      refine ih ?_ fun y member => bounded y (List.mem_cons_of_mem _ member)
      have := smooth_mono nonneg le_one start (bounded x (List.mem_cons_self ..))
      rwa [smooth_self] at this

end Bounds

end Ccmetrics.Theory
