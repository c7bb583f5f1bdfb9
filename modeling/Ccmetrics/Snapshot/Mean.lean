/-
# Snapshot.Mean -- `Snapshot::mean`

The sum of the values is kept in an `int64_t`, and addition is taken modulo 2^64: whatever wraps on
the way, what is left at the end is the sum of the values in the range of the type (`total_eq`).
So the mean is exact if and only if the sum of all values is in that range (`mean_exact_iff`);
the partial sums do not matter.
-/
import Mathlib.Algebra.Order.BigOperators.Group.List
import Ccmetrics.Snapshot.Quantile

namespace Ccmetrics.Snapshot

set_option autoImplicit false
set_option linter.dupNamespace false

/-- The value of an `int64_t`. -/
def toInt64 (n : Int) : Int := n.bmod (2 ^ 64)

theorem toInt64_eq_iff (n : Int) : toInt64 n = n ↔ -2 ^ 63 ≤ n ∧ n < 2 ^ 63 := by
  unfold toInt64
  constructor
  · intro same
    have bottom := Int.le_bmod (x := n) (m := 2 ^ 64) (by norm_num)
    have top := Int.bmod_lt (x := n) (m := 2 ^ 64) (by norm_num)
    omega
  · rintro ⟨bottom, top⟩
    exact Int.bmod_eq_of_le (by omega) (by omega)

namespace Snapshot

variable {s : Snapshot}

/-- The loop of `mean`. -/
def total (values : List Int) : Int := values.foldl (fun sum v => toInt64 (sum + v)) 0

def mean (s : Snapshot) : ℚ :=
  if s.values.isEmpty then 0 else total s.values / s.values.length

theorem total_eq (values : List Int) : total values = toInt64 values.sum := by
  induction values using List.reverseRecOn with
  | nil => rfl
  | append_singleton rest v ih =>
      calc total (rest ++ [v])
          = toInt64 (total rest + v) := by simp [total, List.foldl_append]
        _ = toInt64 (toInt64 rest.sum + v) := by rw [ih]
        _ = toInt64 (rest.sum + v) := Int.bmod_add_bmod
        _ = toInt64 (rest ++ [v]).sum := by rw [List.sum_append, List.sum_singleton]

/-! ## The arithmetic mean -/

theorem sum_exact (values : List Int) : (exact values).sum = (values.sum : ℚ) := by
  induction values with
  | nil => simp [exact]
  | cons v rest ih =>
      rw [List.sum_cons, Int.cast_add, ← ih]
      rfl

theorem mean_exact (values : List Int) : Theory.mean (exact values) = values.sum / values.length := by
  rw [Theory.mean, sum_exact, exact, List.length_map]

/-- The arithmetic mean of sorted values is between the first and the last one. -/
theorem mean_bounds (sorted : s.values.Pairwise (· ≤ ·)) (some_ : s.values ≠ []) :
    (s.min : ℚ) ≤ Theory.mean (exact s.values) ∧ Theory.mean (exact s.values) ≤ s.max := by
  have positive : (0 : ℚ) < s.values.length := by exact_mod_cast List.length_pos_iff.2 some_
  have between : ∀ v ∈ s.values, s.min ≤ v ∧ v ≤ s.max := by
    intro v member
    obtain ⟨i, inside, rfl⟩ := List.getElem_of_mem member
    have bounds := interpolate_bounds sorted some_ ((i + 1 : Nat) : Int)
    rw [Theory.interpolate_intCast, statistic_inside (by omega) inside, List.getD_eq_getElem _ _ (by simpa)] at bounds
    exact_mod_cast bounds
  have low : s.values.length * s.min ≤ s.values.sum := by
    simpa using List.card_nsmul_le_sum s.values s.min fun v member => (between v member).1
  have high : s.values.sum ≤ s.values.length * s.max := by
    simpa using List.sum_le_card_nsmul s.values s.max fun v member => (between v member).2
  rw [mean_exact, le_div_iff₀ positive, div_le_iff₀ positive, mul_comm, mul_comm (s.max : ℚ)]
  exact ⟨by exact_mod_cast low, by exact_mod_cast high⟩

/-- `mean()` is the arithmetic mean of the values, and therefore between `min()` and `max()`. -/
structure Averaged (s : Snapshot) : Prop where
  exact : s.mean = Theory.mean (exact s.values)
  low : (s.min : ℚ) ≤ s.mean
  high : s.mean ≤ s.max

theorem averaged_iff (sorted : s.values.Pairwise (· ≤ ·)) (some_ : s.values ≠ []) :
    s.Averaged ↔ toInt64 s.values.sum = s.values.sum := by
  have positive : (s.values.length : ℚ) ≠ 0 := Nat.cast_ne_zero.2 (List.length_pos_iff.2 some_).ne'
  have mean_ : s.mean = toInt64 s.values.sum / s.values.length := by
    rw [mean, if_neg (by simpa using some_), total_eq]
  have bounds := mean_bounds sorted some_
  constructor
  · intro averaged
    have same := averaged.exact
    rw [mean_, mean_exact, div_left_inj' positive] at same
    exact_mod_cast same
  · intro same
    have exact_ : s.mean = Theory.mean (exact s.values) := by rw [mean_, same, mean_exact]
    exact ⟨exact_, exact_ ▸ bounds.1, exact_ ▸ bounds.2⟩

/-- **The mean is exact** if and only if the sum of the values is in the range of `int64_t`. -/
theorem mean_exact_iff (values : List Int) (sorted : Bool) (some_ : values ≠ [])
    (ordered : sorted = true → values.Pairwise (· ≤ ·)) :
    (new values sorted).Averaged ↔ -2 ^ 63 ≤ values.sum ∧ values.sum < 2 ^ 63 := by
  cases sorted with
  | true => exact (averaged_iff (s := new values true) (ordered rfl) some_).trans (toInt64_eq_iff _)
  | false =>
      have sum : (new values false).values.sum = values.sum := (perm_new values).sum_eq
      rw [averaged_iff (sorted_new values) (new_ne_nil some_), sum]
      exact toInt64_eq_iff _

/-- The partial sums of these values wrap, their sum does not. -/
theorem mean_exact_iff_wraps : (new [2 ^ 63 - 1, 2 ^ 63 - 1, -2 ^ 63] false).Averaged :=
  (mean_exact_iff [2 ^ 63 - 1, 2 ^ 63 - 1, -2 ^ 63] false (by decide) (by decide)).2 (by decide)

/-- Twice the largest value. -/
theorem mean_wraps :
    (new [2 ^ 63 - 1, 2 ^ 63 - 1] false).mean = -1 ∧
      Theory.mean (exact (new [2 ^ 63 - 1, 2 ^ 63 - 1] false).values) = 2 ^ 63 - 1 ∧
      (new [2 ^ 63 - 1, 2 ^ 63 - 1] false).min = 2 ^ 63 - 1 := by
  rw [new_of_sorted (by decide)]
  decide +kernel

end Snapshot

end Ccmetrics.Snapshot
