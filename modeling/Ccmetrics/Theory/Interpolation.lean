/-
# Theory.Interpolation -- linear interpolation along a sequence

`interpolate x h` reads the sequence `x` at the position `h`: at a whole number it is the element
there, and between two elements it moves linearly from one to the other.

* `interpolate_mono`: along an ascending sequence it ascends.
* `interpolate_eq_iff`: two positions give the same value exactly if they are the same, or the
  sequence is constant from the floor of the first to the ceiling of the second.
-/
import Mathlib

namespace Ccmetrics.Theory

set_option autoImplicit false

variable {K : Type} [Field K] [LinearOrder K] [IsStrictOrderedRing K]

theorem step_nonneg {x : ℤ → K} (ascending : Monotone x) (n : ℤ) : 0 ≤ x (n + 1) - x n := by
  have up : x n ≤ x (n + 1) := ascending (by omega)
  linarith

variable [FloorRing K]

/-- The value of the sequence `x` at the position `h`. -/
def interpolate (x : ℤ → K) (h : K) : K := x ⌊h⌋ + (h - ⌊h⌋) * (x (⌊h⌋ + 1) - x ⌊h⌋)

@[simp] theorem interpolate_intCast (x : ℤ → K) (n : ℤ) : interpolate x (n : K) = x n := by
  simp [interpolate]

/-- A rise between two elements is seen at every position behind the first. -/
theorem flat_below {x : ℤ → K} {a : K} (inside : (⌊a⌋ : K) < a) (same : interpolate x a = x ⌊a⌋) :
    x (⌊a⌋ + 1) = x ⌊a⌋ := by
  have product : (a - ⌊a⌋) * (x (⌊a⌋ + 1) - x ⌊a⌋) = 0 := by
    unfold interpolate at same
    linarith
  rcases mul_eq_zero.1 product with none_ | flat
  · linarith
  · linarith

/-- A rise between two elements is seen at every position in front of the second. -/
theorem flat_above {x : ℤ → K} {a : K} (same : interpolate x a = x (⌊a⌋ + 1)) : x (⌊a⌋ + 1) = x ⌊a⌋ := by
  have product : (1 - (a - ⌊a⌋)) * (x (⌊a⌋ + 1) - x ⌊a⌋) = 0 := by
    unfold interpolate at same
    linarith
  rcases mul_eq_zero.1 product with none_ | flat
  · have := Int.lt_floor_add_one a
    linarith
  · linarith

section Ascending

variable {x : ℤ → K} (ascending : Monotone x) {a b : K}
include ascending

theorem floor_le_interpolate (a : K) : x ⌊a⌋ ≤ interpolate x a := by
  have below : 0 ≤ a - ⌊a⌋ := sub_nonneg.2 (Int.floor_le a)
  have part := mul_nonneg below (step_nonneg ascending ⌊a⌋)
  unfold interpolate
  linarith

theorem interpolate_le_succ (a : K) : interpolate x a ≤ x (⌊a⌋ + 1) := by
  have above : 0 ≤ 1 - (a - ⌊a⌋) := by
    have := Int.lt_floor_add_one a
    linarith
  have part := mul_nonneg above (step_nonneg ascending ⌊a⌋)
  unfold interpolate
  linarith

theorem interpolate_le_ceil (a : K) : interpolate x a ≤ x ⌈a⌉ := by
  by_cases whole : (⌊a⌋ : K) = a
  · calc interpolate x a = x ⌊a⌋ := by rw [← whole, interpolate_intCast, Int.floor_intCast]
      _ ≤ x ⌈a⌉ := ascending (Int.floor_le_ceil a)
  · have between : ⌊a⌋ < ⌈a⌉ := Int.lt_ceil.2 (lt_of_le_of_ne (Int.floor_le a) whole)
    exact (interpolate_le_succ ascending a).trans (ascending between)

theorem interpolate_mono : Monotone (interpolate x) := by
  intro a b below
  rcases (Int.floor_mono below).eq_or_lt with same | apart
  · -- both between the same two elements
    have part : (a - ⌊a⌋) * (x (⌊a⌋ + 1) - x ⌊a⌋) ≤ (b - ⌊a⌋) * (x (⌊a⌋ + 1) - x ⌊a⌋) :=
      mul_le_mul_of_nonneg_right (by linarith) (step_nonneg ascending ⌊a⌋)
    show interpolate x a ≤ interpolate x b
    unfold interpolate
    rw [← same]
    linarith
  · calc interpolate x a ≤ x (⌊a⌋ + 1) := interpolate_le_succ ascending a
      _ ≤ x ⌊b⌋ := ascending apart
      _ ≤ interpolate x b := floor_le_interpolate ascending b

theorem interpolate_eq_iff (below : a < b) :
    interpolate x a = interpolate x b ↔ x ⌊a⌋ = x ⌈b⌉ := by
  constructor
  · intro same
    rcases (Int.floor_mono below.le).eq_or_lt with together | apart
    · have product : (b - a) * (x (⌊a⌋ + 1) - x ⌊a⌋) = 0 := by
        unfold interpolate at same
        rw [← together] at same
        linarith
      have flat : x (⌊a⌋ + 1) = x ⌊a⌋ := by
        rcases mul_eq_zero.1 product with none_ | flat
        · linarith
        · linarith
      have top : ⌈b⌉ = ⌊a⌋ + 1 := by
        refine le_antisymm ?_ ?_
        · rw [together]; exact Int.ceil_le_floor_add_one b
        · exact Int.lt_ceil.2 ((Int.floor_le a).trans_lt below)
      rw [top, flat]
    · -- everything between the two values is squeezed
      have first := interpolate_le_succ ascending a
      have middle : x (⌊a⌋ + 1) ≤ x ⌊b⌋ := ascending apart
      have last := floor_le_interpolate ascending b
      have left := flat_above (x := x) (a := a) (by linarith)
      by_cases whole : (⌊b⌋ : K) = b
      · have top : ⌈b⌉ = ⌊b⌋ := by
          conv_lhs => rw [← whole]
          exact Int.ceil_intCast _
        rw [top]
        linarith
      · have inside : (⌊b⌋ : K) < b := lt_of_le_of_ne (Int.floor_le b) whole
        have right := flat_below inside (by linarith)
        have top : ⌈b⌉ = ⌊b⌋ + 1 :=
          le_antisymm (Int.ceil_le_floor_add_one b) (Int.lt_ceil.2 inside)
        rw [top]
        linarith
  · intro flat
    refine le_antisymm (interpolate_mono ascending below.le) ?_
    calc interpolate x b ≤ x ⌈b⌉ := interpolate_le_ceil ascending b
      _ = x ⌊a⌋ := flat.symm
      _ ≤ interpolate x a := floor_le_interpolate ascending a

end Ascending

end Ccmetrics.Theory
