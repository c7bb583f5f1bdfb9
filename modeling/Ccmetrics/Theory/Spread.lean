/-
# Theory.Spread -- mean and sum of squared deviations of a list

`mean l` is the arithmetic mean and `spread l` the sum of the squared deviations from it. One
more element moves the mean by `delta / (n + 1)` (`mean_concat`) and adds
`delta * (x - mean)` to the spread, where `delta` is its deviation from the old mean and `mean`
the new one (`spread_concat`): Welford's recurrence. The addend is never negative
(`addend_nonneg`).
-/
import Mathlib.Algebra.BigOperators.Group.List.Basic
import Mathlib.Algebra.Order.Field.Basic
import Mathlib.Data.Nat.Cast.Order.Field
import Mathlib.Tactic.FieldSimp
import Mathlib.Tactic.Positivity
import Mathlib.Tactic.Ring

namespace Ccmetrics.Theory

set_option autoImplicit false

variable {K : Type} [Field K]

def mean (l : List K) : K := l.sum / l.length

def spread (l : List K) : K := (l.map fun x => (x - mean l) ^ 2).sum

@[simp] theorem mean_nil : mean ([] : List K) = 0 := by simp [mean]
@[simp] theorem spread_nil : spread ([] : List K) = 0 := rfl

/-- The deviations from any point `c`. -/
theorem sum_deviations (l : List K) (c : K) :
    (l.map fun x => (x - c) ^ 2).sum =
      (l.map fun x => x ^ 2).sum - 2 * c * l.sum + l.length * c ^ 2 := by
  induction l with
  | nil => simp
  | cons x rest ih =>
      simp only [List.map_cons, List.sum_cons, ih, List.length_cons, Nat.cast_add, Nat.cast_one]
      ring

@[simp] theorem spread_singleton (x : K) : spread [x] = 0 := by simp [spread, mean]

variable [CharZero K]

theorem spread_eq (l : List K) :
    spread l = (l.map fun x => x ^ 2).sum - l.sum ^ 2 / l.length := by
  rw [spread, sum_deviations, mean]
  cases l with
  | nil => simp
  | cons x rest =>
      have some_ : ((x :: rest).length : K) ≠ 0 := Nat.cast_ne_zero.2 (by simp)
      field_simp
      ring

theorem mean_concat (l : List K) (x : K) :
    mean (l ++ [x]) = mean l + (x - mean l) / (l.length + 1) := by
  have more : ((l.length : K) + 1) ≠ 0 := Nat.cast_add_one_ne_zero _
  simp only [mean, List.sum_append, List.sum_singleton, List.length_append, List.length_singleton,
    Nat.cast_add, Nat.cast_one]
  cases l with
  | nil => simp
  | cons y rest =>
      have some_ : ((y :: rest).length : K) ≠ 0 := Nat.cast_ne_zero.2 (by simp)
      field_simp
      ring

/-- The deviation from the new mean is a part of the deviation from the old one. -/
theorem sub_mean_concat (l : List K) (x : K) :
    x - mean (l ++ [x]) = (x - mean l) * (l.length / (l.length + 1)) := by
  have more : ((l.length : K) + 1) ≠ 0 := Nat.cast_add_one_ne_zero _
  rw [mean_concat]
  field_simp
  ring

theorem spread_concat (l : List K) (x : K) :
    spread (l ++ [x]) = spread l + (x - mean l) * (x - mean (l ++ [x])) := by
  have more : ((l.length : K) + 1) ≠ 0 := Nat.cast_add_one_ne_zero _
  rw [sub_mean_concat, spread_eq, spread_eq, mean]
  simp only [List.map_append, List.map_cons, List.map_nil, List.sum_append, List.sum_singleton,
    List.length_append, List.length_singleton, Nat.cast_add, Nat.cast_one]
  cases l with
  | nil => simp
  | cons y rest =>
      have some_ : ((y :: rest).length : K) ≠ 0 := Nat.cast_ne_zero.2 (by simp)
      field_simp
      ring

theorem addend_nonneg [LinearOrder K] [IsStrictOrderedRing K] (l : List K) (x : K) :
    0 ≤ (x - mean l) * (x - mean (l ++ [x])) := by
  rw [sub_mean_concat]
  have part : (0 : K) ≤ l.length / (l.length + 1) := by positivity
  calc (0 : K) ≤ (x - mean l) ^ 2 * (l.length / (l.length + 1)) := mul_nonneg (sq_nonneg _) part
    _ = (x - mean l) * ((x - mean l) * (l.length / (l.length + 1))) := by ring

end Ccmetrics.Theory
