/-
# Snapshot.Stdev -- `Snapshot::stdev`

Welford's algorithm over the values of a snapshot, with doubles read as rational numbers. The sum
of squares is kept in an `int64_t`: `varsum += delta * (value - mean)` adds in floating point and
converts back, so every step drops the fraction of the sum. The steps that have no fraction to
drop are those after which the sum of squared deviations is a whole number, and the conversion is
defined as long as the sum is below 2^63 (`stdev_exact`).

* A conversion out of the range of `int64_t` is undefined (`Fault.conversion`), and so is `++n` for
  the largest `int` (`Fault.overflow`).
* What `sqrt` computes is a parameter.
-/
import Mathlib.Data.Rat.Floor
import Mathlib.Algebra.Order.Field.Rat
import Ccmetrics.Theory.Spread

namespace Ccmetrics.Snapshot

set_option autoImplicit false
set_option linter.dupNamespace false

open Theory (mean spread)

structure Snapshot where
  values : List Int

/-- `Snapshot(values, sorted)`. -/
def Snapshot.new (values : List Int) (sorted : Bool) : Snapshot where
  values := if sorted then values else values.mergeSort fun a b => decide (a ≤ b)

/-- How a member function fails; all but the first are undefined behaviour. -/
inductive Fault where
  | invalidArgument (what : String)
  | overflow
  | conversion
  | access
  deriving DecidableEq

/-- `++n` for an `int` that counts from 0. -/
def increment (n : Nat) : Except Fault Nat :=
  if n + 1 < 2 ^ 31 then .ok (n + 1) else .error .overflow

/-- A double with its fraction dropped. -/
def truncate (x : ℚ) : Int := x.num.tdiv x.den

/-- The conversion from `double` to `int64_t`, which rounds toward zero. -/
def convert (x : ℚ) : Except Fault Int :=
  if -2 ^ 63 ≤ truncate x ∧ truncate x < 2 ^ 63 then .ok (truncate x) else .error .conversion

/-- The locals of `stdev`. -/
structure Welford where
  n : Nat
  varsum : Int
  mean : ℚ
  deriving DecidableEq

namespace Welford

def init : Welford := ⟨0, 0, 0⟩

/-- The body of the loop. -/
def step (w : Welford) (value : Int) : Except Fault Welford := do
  let n ← increment w.n
  let delta := value - w.mean
  let mean := w.mean + delta / n
  let varsum ← convert (w.varsum + delta * (value - mean))
  return { n := n, varsum := varsum, mean := mean }

def loop (values : List Int) : Except Fault Welford := values.foldlM step init

end Welford

namespace Snapshot

/-- What is passed to `sqrt`; nothing for fewer than two values. -/
def variance (s : Snapshot) : Except Fault (Option ℚ) := do
  let w ← Welford.loop s.values
  return if w.n < 2 then none else some (w.varsum / ((w.n - 1 : Nat) : ℚ))

def stdev (sqrt : ℚ → ℚ) (s : Snapshot) : Except Fault ℚ := do
  match ← s.variance with
  | none => return 0
  | some variance => return sqrt variance

end Snapshot

/-! ## The loop -/

theorem truncate_of_nonneg {x : ℚ} (nonneg : 0 ≤ x) : truncate x = ⌊x⌋ := by
  rw [truncate, Rat.floor_def', Int.tdiv_eq_ediv_of_nonneg (Rat.num_nonneg.2 nonneg)]

theorem convert_of_small {x : ℚ} (nonneg : 0 ≤ x) (small : x < 2 ^ 63) : convert x = .ok ⌊x⌋ := by
  have bottom : 0 ≤ ⌊x⌋ := Int.floor_nonneg.2 nonneg
  have top : ⌊x⌋ < 2 ^ 63 := Int.floor_lt.2 (by exact_mod_cast small)
  rw [convert, truncate_of_nonneg nonneg, if_pos ⟨by omega, top⟩]

theorem convert_ok {x : ℚ} {n : Int} (nonneg : 0 ≤ x) (converts : convert x = .ok n) :
    n = ⌊x⌋ ∧ n < 2 ^ 63 := by
  unfold convert at converts
  split at converts <;> cases converts
  rename_i inside
  exact ⟨truncate_of_nonneg nonneg, inside.2⟩

namespace Welford

variable {w w' : Welford} {x : Int}

/-- What is added up before the conversion. -/
def sum (w : Welford) (x : Int) : ℚ :=
  w.varsum + (x - w.mean) * (x - (w.mean + (x - w.mean) / (w.n + 1)))

theorem step_eq (few : w.n + 1 < 2 ^ 31) : w.step x = (convert (w.sum x)).map fun varsum =>
    ⟨w.n + 1, varsum, w.mean + (x - w.mean) / (w.n + 1)⟩ := by
  unfold step increment sum
  rw [if_pos few]
  simp only [bind, Except.bind, Nat.cast_add, Nat.cast_one, pure, Except.pure]
  cases convert _ <;> rfl

theorem step_ok (stepped : w.step x = .ok w') : w.n + 1 < 2 ^ 31 ∧
    convert (w.sum x) = .ok w'.varsum ∧
      w'.n = w.n + 1 ∧ w'.mean = w.mean + (x - w.mean) / (w.n + 1) := by
  by_cases few : w.n + 1 < 2 ^ 31
  · rw [step_eq few] at stepped
    cases converts : convert (w.sum x) with
    | error fault => rw [converts] at stepped; cases stepped
    | ok varsum =>
        rw [converts] at stepped
        cases stepped
        exact ⟨few, rfl, rfl, rfl⟩
  · unfold step increment at stepped
    rw [if_neg few] at stepped
    cases stepped

theorem loop_concat (l : List Int) (x : Int) : loop (l ++ [x]) = (loop l).bind fun w => w.step x := by
  unfold loop
  rw [List.foldlM_append]
  simp only [List.foldlM_cons, List.foldlM_nil, bind_pure]
  rfl

end Welford

/-- The values as the exact algorithm sees them. -/
def exact (values : List Int) : List ℚ := values.map fun x : Int => (x : ℚ)

theorem exact_concat (l : List Int) (x : Int) : exact (l ++ [x]) = exact l ++ [(x : ℚ)] := by
  simp [exact]

/-- Another value does not make the sum of squared deviations smaller. -/
theorem spread_le_concat (l : List Int) (x : Int) :
    spread (exact l) ≤ spread (exact (l ++ [x])) := by
  have grown := Theory.spread_concat (exact l) (x : ℚ)
  have addend := Theory.addend_nonneg (exact l) (x : ℚ)
  rw [exact_concat, grown]
  linarith

/-- What the loop has computed after the values `l`. -/
structure Computed (l : List Int) (w : Welford) : Prop where
  n : w.n = l.length
  few : l.length < 2 ^ 31
  mean : w.mean = mean (exact l)
  nonneg : 0 ≤ w.varsum
  fits : w.varsum < 2 ^ 63
  below : (w.varsum : ℚ) ≤ spread (exact l)
  exact_iff : (w.varsum : ℚ) = spread (exact l) ↔ ∀ p, p <+: l → ∃ k : Int, spread (exact p) = k

theorem computed_init : Computed [] .init where
  n := rfl
  few := by decide
  mean := by simp [Welford.init, exact]
  nonneg := le_rfl
  fits := by decide
  below := by simp [Welford.init, exact]
  exact_iff := by
    refine iff_of_true (by simp [Welford.init, exact]) fun p isPrefix => ?_
    rw [List.prefix_nil.1 isPrefix]
    exact ⟨0, by simp [exact]⟩

namespace Computed

variable {l : List Int} {w w' : Welford}

theorem mean_concat (computed : Computed l w) (x : Int) :
    w.mean + (x - w.mean) / (w.n + 1) = Theory.mean (exact (l ++ [x])) := by
  have length : (exact l).length = l.length := List.length_map ..
  rw [exact_concat, Theory.mean_concat, ← computed.mean, length, ← computed.n]

/-- The sum misses as much as it missed before. -/
theorem sum_eq (computed : Computed l w) (x : Int) :
    w.sum x = w.varsum + (spread (exact (l ++ [x])) - spread (exact l)) := by
  have grown := Theory.spread_concat (exact l) (x : ℚ)
  rw [Welford.sum, computed.mean_concat x, computed.mean, exact_concat, grown]
  ring

theorem sum_nonneg (computed : Computed l w) (x : Int) : 0 ≤ w.sum x := by
  have whole : (0 : ℚ) ≤ w.varsum := by exact_mod_cast computed.nonneg
  have grows := spread_le_concat l x
  rw [computed.sum_eq x]
  linarith

theorem step (computed : Computed l w) (x : Int) (stepped : w.step x = .ok w') :
    Computed (l ++ [x]) w' := by
  obtain ⟨few, converts, n', mean'⟩ := Welford.step_ok stepped
  obtain ⟨summed, fits⟩ := convert_ok (computed.sum_nonneg x) converts
  have floor_le := Int.floor_le (w.sum x)
  rw [← summed, computed.sum_eq x] at floor_le
  have below := computed.below
  refine ⟨?_, ?_, ?_, ?_, fits, ?_, ?_⟩
  · rw [n', computed.n, List.length_append, List.length_singleton]
  · rwa [List.length_append, List.length_singleton, ← computed.n]
  · rw [mean', computed.mean_concat x]
  · rw [summed]
    exact Int.floor_nonneg.2 (computed.sum_nonneg x)
  · linarith
  · constructor
    · intro same p isPrefix
      rcases List.prefix_concat_iff.1 isPrefix with rfl | shorter
      · exact ⟨w'.varsum, same.symm⟩
      · exact computed.exact_iff.1 (by linarith) p shorter
    · intro whole
      have before : (w.varsum : ℚ) = spread (exact l) :=
        computed.exact_iff.2 fun p isPrefix => whole p (isPrefix.trans (List.prefix_append l [x]))
      obtain ⟨k, isWhole⟩ := whole (l ++ [x]) (List.prefix_refl _)
      rw [summed, computed.sum_eq x, before, add_sub_cancel, isWhole, Int.floor_intCast]

end Computed

theorem computed_loop {l : List Int} {w : Welford} (looped : Welford.loop l = .ok w) :
    Computed l w := by
  induction l using List.reverseRecOn generalizing w with
  | nil =>
      cases looped
      exact computed_init
  | append_singleton l x ih =>
      rw [Welford.loop_concat] at looped
      cases before : Welford.loop l with
      | error fault => rw [before] at looped; cases looped
      | ok w₀ =>
          rw [before] at looped
          exact (ih before).step x looped

/-- The loop comes to its end if the sum of squared deviations is in the range of `int64_t`. -/
theorem loop_returns {l : List Int} (few : l.length < 2 ^ 31) (small : spread (exact l) < 2 ^ 63) :
    ∃ w, Welford.loop l = .ok w := by
  induction l using List.reverseRecOn with
  | nil => exact ⟨_, rfl⟩
  | append_singleton l x ih =>
      rw [List.length_append, List.length_singleton] at few
      obtain ⟨w, before⟩ := ih (by omega) (lt_of_le_of_lt (spread_le_concat l x) small)
      have computed := computed_loop before
      have fits : w.sum x < 2 ^ 63 := by
        have below := computed.below
        rw [computed.sum_eq x]
        linarith
      rw [Welford.loop_concat, before]
      show ∃ w', w.step x = .ok w'
      rw [Welford.step_eq (by rwa [computed.n]), convert_of_small (computed.sum_nonneg x) fits]
      exact ⟨_, rfl⟩

/-- The sample variance. -/
def sampleVariance (values : List Int) : ℚ :=
  spread (exact values) / ((values.length - 1 : Nat) : ℚ)

/-- Fewer than two values do not deviate. -/
theorem spread_of_few {l : List Int} (few : l.length < 2) : spread (exact l) = 0 := by
  match l with
  | [] => simp [exact]
  | [x] => simp [exact]
  | x :: y :: rest => simp only [List.length_cons] at few; omega

/-- **The standard deviation is exact** if and only if an `int` counts the values, and the sum of
squared deviations is in the range of `int64_t` and a whole number after each of the values. -/
theorem stdev_exact (s : Snapshot) :
    s.variance = .ok (if s.values.length < 2 then none else some (sampleVariance s.values)) ↔
      s.values.length < 2 ^ 31 ∧ spread (exact s.values) < 2 ^ 63 ∧
        ∀ l, l <+: s.values → ∃ k : Int, spread (exact l) = k := by
  -- what `stdev` makes of the sum at the end of the loop
  have after : ∀ w, Welford.loop s.values = .ok w →
      (s.variance = .ok (if s.values.length < 2 then none else some (sampleVariance s.values)) ↔
        (w.varsum : ℚ) = spread (exact s.values)) := by
    intro w looped
    have computed := computed_loop looped
    rw [Snapshot.variance, looped]
    simp only [bind, Except.bind, pure, Except.pure, computed.n, Except.ok.injEq]
    by_cases few : s.values.length < 2
    · simp only [few, if_true, true_iff]
      refine computed.exact_iff.2 fun p isPrefix => ⟨0, ?_⟩
      rw [spread_of_few (lt_of_le_of_lt isPrefix.length_le few), Int.cast_zero]
    · have divisor : ((s.values.length - 1 : Nat) : ℚ) ≠ 0 := by
        rw [Nat.cast_ne_zero]
        omega
      simp only [few, if_false, Option.some.injEq, sampleVariance]
      exact div_left_inj' divisor
  constructor
  · intro returns
    cases looped : Welford.loop s.values with
    | error fault =>
        rw [Snapshot.variance, looped] at returns
        cases returns
    | ok w =>
        have computed := computed_loop looped
        have same := (after w looped).1 returns
        refine ⟨computed.few, ?_, computed.exact_iff.1 same⟩
        rw [← same]
        exact_mod_cast computed.fits
  · rintro ⟨few, small, whole⟩
    obtain ⟨w, looped⟩ := loop_returns few small
    exact (after w looped).2 ((computed_loop looped).exact_iff.2 whole)

-- the second deviation is out of range
example : (Snapshot.new [0, 2 ^ 33] true).variance = .error .conversion := by decide +kernel

/-- The variance of `{0, 1}` is one half. -/
theorem stdev_drops_fraction :
    sampleVariance (Snapshot.new [0, 1] true).values = 1 / 2 ∧
      (Snapshot.new [0, 1] true).variance = .ok (some 0) := by
  decide +kernel

end Ccmetrics.Snapshot
