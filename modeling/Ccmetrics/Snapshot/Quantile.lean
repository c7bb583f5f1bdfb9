/-
# Snapshot.Quantile -- `Snapshot::valueAt`

The values are sorted once, in the constructor. `valueAt` multiplies the quantile by `size() + 1`
and reads the order statistics at that position: the first one in front of 1, the last one from
`size()` on, and linearly interpolated in between. Doubles are read as rational numbers.

* An index passes through `static_cast<int>`, which is undefined for positions from 2^31 on
  (`Fault.conversion`); a read outside of the vector is `Fault.access`.
* `valueAt_eq`: what is computed is `Theory.interpolate` at `position`, where it is defined.
* `quantiles_iff`: the quantiles are bounded, ascending and do not depend on the order of
  the values if and only if there are at most 2^31 values.
* `valueAt_r6`: this is the estimator R-6. The comment in `valueAt` names R-7, which reads at
  `(n - 1) q + 1` and differs for most quantiles but the median (`valueAt_r7_iff`).
-/
import Mathlib.Data.List.GetD
import Ccmetrics.Theory.Interpolation
import Ccmetrics.Snapshot.Stdev

namespace Ccmetrics.Snapshot

set_option autoImplicit false
set_option linter.dupNamespace false

open Theory (interpolate interpolate_intCast)

/-- `static_cast<int>`. -/
def toInt (x : ℚ) : Except Fault Int :=
  if -2 ^ 31 ≤ truncate x ∧ truncate x < 2 ^ 31 then .ok (truncate x) else .error .conversion

namespace Snapshot

def min (s : Snapshot) : Int := if s.values.isEmpty then 0 else s.values.headD 0

def max (s : Snapshot) : Int := if s.values.isEmpty then 0 else s.values.getLastD 0

/-- `(*values_)[i]`. -/
def access (s : Snapshot) (i : Int) : Except Fault ℚ :=
  if i < 0 then .error .access
  else
    match s.values[i.toNat]? with
    | some value => .ok value
    | none => .error .access

/-- The fractional index `idx`. -/
def position (s : Snapshot) (quantile : ℚ) : ℚ := quantile * (s.values.length + 1)

def valueAt (s : Snapshot) (quantile : ℚ) : Except Fault ℚ :=
  if quantile < 0 ∨ 1 < quantile then .error (.invalidArgument "quantile must be in [0, 1]")
  else if s.values.isEmpty then .ok 0
  else
    let idx := s.position quantile
    if idx < 1 then s.access 0
    else if s.values.length ≤ idx then s.access (s.values.length - 1)
    else do
      let x_h ← s.access (← toInt (idx - 1))
      let x_hnext ← s.access (← toInt idx)
      return x_h + (idx - ⌊idx⌋) * (x_hnext - x_h)

def median (s : Snapshot) : Except Fault ℚ := s.valueAt (1 / 2)
def get75tile (s : Snapshot) : Except Fault ℚ := s.valueAt (75 / 100)
def get95tile (s : Snapshot) : Except Fault ℚ := s.valueAt (95 / 100)
def get99tile (s : Snapshot) : Except Fault ℚ := s.valueAt (99 / 100)
def get999tile (s : Snapshot) : Except Fault ℚ := s.valueAt (999 / 1000)

end Snapshot

/-! ## Order statistics -/

/-- The order statistic `x_k` of sorted values, for `k` from 1 to their number `n`; it is `x_1` in
front of them and `x_n` behind. -/
def statistic (l : List Int) (k : Int) : ℚ := (l.getD (Min.min (k - 1).toNat (l.length - 1)) 0 : Int)

theorem statistic_mono {l : List Int} (sorted : l.Pairwise (· ≤ ·)) : Monotone (statistic l) := by
  intro j k below
  unfold statistic
  rw [Int.cast_le]
  cases l with
  | nil => simp
  | cons x rest =>
      generalize small : Min.min (j - 1).toNat ((x :: rest).length - 1) = i
      generalize large : Min.min (k - 1).toNat ((x :: rest).length - 1) = i'
      have inside : i' < (x :: rest).length := by simp only [List.length_cons] at large ⊢; omega
      have order : i ≤ i' := by omega
      rw [List.getD_eq_getElem _ _ (by omega), List.getD_eq_getElem _ _ inside]
      rcases order.eq_or_lt with rfl | apart
      · exact le_rfl
      · exact List.pairwise_iff_getElem.1 sorted i i' (by omega) inside apart

theorem statistic_front {l : List Int} {k : Int} (front : k ≤ 1) : statistic l k = statistic l 1 := by
  unfold statistic
  rw [show (k - 1).toNat = (1 - 1 : Int).toNat by omega]

theorem statistic_back {l : List Int} {k : Int} (back : l.length ≤ k) :
    statistic l k = statistic l l.length := by
  unfold statistic
  rw [show Min.min (k - 1).toNat (l.length - 1) =
    Min.min ((l.length : Int) - 1).toNat (l.length - 1) by omega]

theorem interpolate_front {l : List Int} {h : ℚ} (front : h < 1) :
    interpolate (statistic l) h = statistic l 1 := by
  have floor : ⌊h⌋ < 1 := Int.floor_lt.2 (by exact_mod_cast front)
  rw [interpolate, statistic_front (by omega : ⌊h⌋ + 1 ≤ 1), statistic_front floor.le]
  ring

theorem interpolate_back {l : List Int} {h : ℚ} (back : l.length ≤ h) :
    interpolate (statistic l) h = statistic l l.length := by
  have floor : (l.length : Int) ≤ ⌊h⌋ := Int.le_floor.2 (by exact_mod_cast back)
  rw [interpolate, statistic_back (by omega : (l.length : Int) ≤ ⌊h⌋ + 1), statistic_back floor]
  ring

namespace Snapshot

variable {s : Snapshot} {q : ℚ}

theorem access_statistic {k : Int} (first : 1 ≤ k) (last : k ≤ s.values.length) :
    s.access (k - 1) = .ok (statistic s.values k) := by
  have inside : (k - 1).toNat < s.values.length := by omega
  rw [access, if_neg (by omega), List.getElem?_eq_getElem inside, statistic,
    Nat.min_eq_left (by omega), List.getD_eq_getElem _ _ inside]

theorem min_statistic (some_ : s.values ≠ []) : (s.min : ℚ) = statistic s.values 1 := by
  unfold min statistic
  cases values : s.values with
  | nil => exact absurd values some_
  | cons x rest => simp

theorem max_statistic (some_ : s.values ≠ []) : (s.max : ℚ) = statistic s.values s.values.length := by
  have positive := List.length_pos_iff.2 some_
  unfold max statistic
  rw [if_neg (by simpa using some_), Nat.min_eq_left (by omega), List.getD_eq_getElem?_getD,
    show ((s.values.length : Int) - 1).toNat = s.values.length - 1 by omega,
    ← List.getLast?_eq_getElem?, List.getLastD_eq_getLast?]

/-! ## What `valueAt` computes -/

/-- No conversion to `int` is out of range. -/
def Indexed (s : Snapshot) (q : ℚ) : Prop := 2 ^ 31 ≤ s.position q → s.values.length ≤ s.position q

instance (s : Snapshot) (q : ℚ) : Decidable (s.Indexed q) := by unfold Indexed; infer_instance

theorem toInt_of_small {x : ℚ} (nonneg : 0 ≤ x) (small : x < 2 ^ 31) : toInt x = .ok ⌊x⌋ := by
  have bottom : 0 ≤ ⌊x⌋ := Int.floor_nonneg.2 nonneg
  have top : ⌊x⌋ < 2 ^ 31 := Int.floor_lt.2 (by exact_mod_cast small)
  rw [toInt, truncate_of_nonneg nonneg, if_pos ⟨by omega, top⟩]

theorem toInt_of_large {x : ℚ} (large : 2 ^ 31 ≤ x) : toInt x = .error .conversion := by
  have bottom : (2 ^ 31 : Int) ≤ ⌊x⌋ := Int.le_floor.2 (by exact_mod_cast large)
  rw [toInt, truncate_of_nonneg (le_trans (by norm_num) large), if_neg (by omega)]

theorem valueAt_nil (none_ : s.values = []) (low : 0 ≤ q) (high : q ≤ 1) : s.valueAt q = .ok 0 := by
  rw [valueAt, if_neg (by simp [low, high]), if_pos (by simp [none_])]

theorem valueAt_eq (some_ : s.values ≠ []) (low : 0 ≤ q) (high : q ≤ 1) (indexed : s.Indexed q) :
    s.valueAt q = .ok (interpolate (statistic s.values) (s.position q)) := by
  have positive : (1 : Int) ≤ s.values.length := by have := List.length_pos_iff.2 some_; omega
  rw [valueAt, if_neg (by simp [low, high]), if_neg (by simpa using some_)]
  simp only
  split
  · rename_i front
    rw [interpolate_front front]
    exact access_statistic le_rfl positive
  · rename_i notFront
    split
    · rename_i back
      rw [interpolate_back back]
      exact access_statistic positive le_rfl
    · rename_i notBack
      rw [not_lt] at notFront
      rw [not_le] at notBack
      have small : s.position q < 2 ^ 31 := lt_of_not_ge fun large => absurd (indexed large) (not_le.2 notBack)
      have bottom : (1 : Int) ≤ ⌊s.position q⌋ := Int.le_floor.2 (by exact_mod_cast notFront)
      have top : ⌊s.position q⌋ < s.values.length := Int.floor_lt.2 (by exact_mod_cast notBack)
      have here : s.access (⌊s.position q - 1⌋) = .ok (statistic s.values ⌊s.position q⌋) := by
        rw [Int.floor_sub_one]
        exact access_statistic bottom top.le
      have behind : s.access ⌊s.position q⌋ = .ok (statistic s.values (⌊s.position q⌋ + 1)) := by
        have next := access_statistic (s := s) (k := ⌊s.position q⌋ + 1) (by omega) (by omega)
        rwa [add_sub_cancel_right] at next
      rw [toInt_of_small (by linarith) (by linarith), toInt_of_small (by linarith) small]
      simp only [bind, Except.bind, here, behind, pure, Except.pure, interpolate]

theorem valueAt_conversion (high : q ≤ 1) (overflows : ¬ s.Indexed q) :
    s.valueAt q = .error .conversion := by
  obtain ⟨large, notBack⟩ := Classical.not_imp.1 overflows
  have positive : 0 < s.position q := lt_of_lt_of_le (by norm_num) large
  have low : 0 ≤ q := by
    by_contra negative
    have := mul_nonpos_of_nonpos_of_nonneg (not_le.1 negative).le
      (by positivity : (0 : ℚ) ≤ s.values.length + 1)
    exact absurd positive (not_lt.2 this)
  have some_ : s.values ≠ [] := by
    intro none_
    rw [none_] at notBack
    simp only [List.length_nil, Nat.cast_zero, not_le] at notBack
    exact absurd positive (not_lt.2 notBack.le)
  have notFront : ¬ s.position q < 1 := not_lt.2 (le_trans (by norm_num) large)
  rw [valueAt, if_neg (by simp [low, high]), if_neg (by simpa using some_)]
  simp only [if_neg notFront, if_neg notBack, toInt_of_large large]
  by_cases larger : 2 ^ 31 ≤ s.position q - 1
  · rw [toInt_of_large larger]
    rfl
  · have bottom : (1 : Int) ≤ ⌊s.position q⌋ := Int.le_floor.2 (by exact_mod_cast not_lt.1 notFront)
    have top : ⌊s.position q⌋ < s.values.length :=
      Int.floor_lt.2 (by exact_mod_cast not_le.1 notBack)
    have here : s.access (⌊s.position q - 1⌋) = .ok (statistic s.values ⌊s.position q⌋) := by
      rw [Int.floor_sub_one]
      exact access_statistic bottom top.le
    rw [toInt_of_small (by linarith) (not_le.1 larger)]
    simp only [bind, Except.bind, here]

/-! ## Any order of the values -/

theorem sorted_new (values : List Int) : (new values false).values.Pairwise (· ≤ ·) := by
  have trans : ∀ a b c : Int, decide (a ≤ b) = true → decide (b ≤ c) = true →
      decide (a ≤ c) = true := fun a b c first second =>
    decide_eq_true ((of_decide_eq_true first).trans (of_decide_eq_true second))
  have total : ∀ a b : Int, (decide (a ≤ b) || decide (b ≤ a)) = true := by
    intro a b
    simp [Int.le_total]
  exact (List.pairwise_mergeSort trans total values).imp of_decide_eq_true

theorem perm_new (values : List Int) : (new values false).values.Perm values :=
  List.mergeSort_perm ..

@[simp] theorem length_new (values : List Int) : (new values false).values.length = values.length :=
  (perm_new values).length_eq

theorem new_ne_nil {values : List Int} (some_ : values ≠ []) : (new values false).values ≠ [] :=
  fun none_ => some_ (List.nil_perm.1 (none_ ▸ perm_new values))

theorem new_eq_of_perm {values other : List Int} (perm : other.Perm values) :
    new other false = new values false := by
  have same : (new other false).values = (new values false).values :=
    List.Perm.eq_of_pairwise (fun _ _ _ _ below above => le_antisymm below above)
      (sorted_new other) (sorted_new values)
      ((perm_new other).trans (perm.trans (perm_new values).symm))
  exact congrArg Snapshot.mk same

theorem new_of_sorted {values : List Int} (sorted : values.Pairwise (· ≤ ·)) :
    new values false = ⟨values⟩ :=
  congrArg Snapshot.mk (List.mergeSort_of_pairwise (sorted.imp decide_eq_true))

/-! ## Quantiles are ordered -/

theorem indexed_of_short (short : s.values.length ≤ 2 ^ 31) (q : ℚ) : s.Indexed q := by
  intro large
  have cast : (s.values.length : ℚ) ≤ 2 ^ 31 := by exact_mod_cast short
  exact cast.trans large

theorem not_indexed_of_long (long : 2 ^ 31 < s.values.length) :
    ¬ s.Indexed (2 ^ 31 / (s.values.length + 1)) := by
  have cast : (2 ^ 31 : ℚ) < s.values.length := by exact_mod_cast long
  have at_ : s.position (2 ^ 31 / (s.values.length + 1)) = 2 ^ 31 :=
    div_mul_cancel₀ _ (by positivity)
  intro indexed
  unfold Indexed at indexed
  rw [at_] at indexed
  exact absurd (indexed le_rfl) (not_le.2 cast)

theorem position_mono {q₁ q₂ : ℚ} (below : q₁ ≤ q₂) : s.position q₁ ≤ s.position q₂ :=
  mul_le_mul_of_nonneg_right below (by positivity)

/-- Between the first and the last of sorted values. -/
theorem interpolate_bounds (sorted : s.values.Pairwise (· ≤ ·)) (some_ : s.values ≠ []) (h : ℚ) :
    (s.min : ℚ) ≤ interpolate (statistic s.values) h ∧
      interpolate (statistic s.values) h ≤ s.max := by
  have ascending := statistic_mono sorted
  have least : ∀ k, statistic s.values 1 ≤ statistic s.values k := by
    intro k
    rcases le_total k 1 with front | back
    · exact (statistic_front front).ge
    · exact ascending back
  have greatest : ∀ k, statistic s.values k ≤ statistic s.values s.values.length := by
    intro k
    rcases le_total k s.values.length with front | back
    · exact ascending front
    · exact (statistic_back back).le
  rw [min_statistic some_, max_statistic some_]
  exact ⟨(least _).trans (Theory.floor_le_interpolate ascending h),
    (Theory.interpolate_le_ceil ascending h).trans (greatest _)⟩

/-- The quantiles of a snapshot, whatever order the values are given in. -/
structure Quantiles (values : List Int) : Prop where
  ordered : ∀ q₁ q₂ : ℚ, 0 ≤ q₁ → q₁ ≤ q₂ → q₂ ≤ 1 → ∃ v₁ v₂,
    (new values false).valueAt q₁ = .ok v₁ ∧ (new values false).valueAt q₂ = .ok v₂ ∧
      ((new values false).min : ℚ) ≤ v₁ ∧ v₁ ≤ v₂ ∧ v₂ ≤ (new values false).max
  empty : values = [] → (new values false).min = 0 ∧ (new values false).max = 0 ∧
    ∀ q : ℚ, 0 ≤ q → q ≤ 1 → (new values false).valueAt q = .ok 0
  permuted : ∀ other : List Int, other.Perm values → new other false = new values false
  tiles : ∃ m p75 p95 p99 p999, (new values false).median = .ok m ∧
    (new values false).get75tile = .ok p75 ∧ (new values false).get95tile = .ok p95 ∧
    (new values false).get99tile = .ok p99 ∧ (new values false).get999tile = .ok p999 ∧
    m ≤ p75 ∧ p75 ≤ p95 ∧ p95 ≤ p99 ∧ p99 ≤ p999

theorem ordered_of_short {values : List Int} (short : values.length ≤ 2 ^ 31) {q₁ q₂ : ℚ}
    (low : 0 ≤ q₁) (below : q₁ ≤ q₂) (high : q₂ ≤ 1) : ∃ v₁ v₂,
    (new values false).valueAt q₁ = .ok v₁ ∧ (new values false).valueAt q₂ = .ok v₂ ∧
      ((new values false).min : ℚ) ≤ v₁ ∧ v₁ ≤ v₂ ∧ v₂ ≤ (new values false).max := by
  rcases eq_or_ne values [] with rfl | some_
  · have none_ : (new [] false).values = [] := List.mergeSort_nil
    refine ⟨0, 0, valueAt_nil none_ low (below.trans high), valueAt_nil none_ (low.trans below) high, ?_⟩
    simp [min, max, none_]
  · have indexed := indexed_of_short (s := new values false) (by rwa [length_new])
    have sorted := sorted_new values
    have bounds := interpolate_bounds sorted (new_ne_nil some_)
    exact ⟨_, _, valueAt_eq (new_ne_nil some_) low (below.trans high) (indexed q₁),
      valueAt_eq (new_ne_nil some_) (low.trans below) high (indexed q₂), (bounds _).1,
      Theory.interpolate_mono (statistic_mono sorted) (position_mono below), (bounds _).2⟩

theorem quantiles_of_short {values : List Int} (short : values.length ≤ 2 ^ 31) :
    Quantiles values where
  ordered _ _ low below high := ordered_of_short short low below high
  empty := by
    rintro rfl
    have none_ : (new [] false).values = [] := List.mergeSort_nil
    exact ⟨by simp [min, none_], by simp [max, none_], fun q low high => valueAt_nil none_ low high⟩
  permuted _ perm := new_eq_of_perm perm
  tiles := by
    obtain ⟨m, p75, at50, at75, -, first, -⟩ := ordered_of_short short
      (show (0 : ℚ) ≤ 1 / 2 by norm_num) (show 1 / 2 ≤ 75 / 100 by norm_num) (by norm_num)
    obtain ⟨p75', p95, at75', at95, -, second, -⟩ := ordered_of_short short
      (show (0 : ℚ) ≤ 75 / 100 by norm_num) (show 75 / 100 ≤ 95 / 100 by norm_num) (by norm_num)
    obtain ⟨p95', p99, at95', at99, -, third, -⟩ := ordered_of_short short
      (show (0 : ℚ) ≤ 95 / 100 by norm_num) (show 95 / 100 ≤ 99 / 100 by norm_num) (by norm_num)
    obtain ⟨p99', p999, at99', at999, -, fourth, -⟩ := ordered_of_short short
      (show (0 : ℚ) ≤ 99 / 100 by norm_num) (show 99 / 100 ≤ 999 / 1000 by norm_num) (by norm_num)
    cases at75.symm.trans at75'
    cases at95.symm.trans at95'
    cases at99.symm.trans at99'
    exact ⟨m, p75, p95, p99, p999, at50, at75, at95, at99, at999, first, second, third, fourth⟩

theorem quantile_overflows {values : List Int} (long : 2 ^ 31 < values.length) :
    (new values false).valueAt (2 ^ 31 / (values.length + 1)) = .error .conversion := by
  have positive : (0 : ℚ) < values.length + 1 := by positivity
  have cast : (2 ^ 31 : ℚ) < values.length := by exact_mod_cast long
  have overflows := not_indexed_of_long (s := new values false) (by rwa [length_new])
  rw [length_new] at overflows
  exact valueAt_conversion ((div_le_one positive).2 (by linarith)) overflows

theorem not_quantiles_of_long {values : List Int} (long : 2 ^ 31 < values.length) :
    ¬ Quantiles values := by
  intro quantiles
  have positive : (0 : ℚ) < values.length + 1 := by positivity
  have cast : (2 ^ 31 : ℚ) < values.length := by exact_mod_cast long
  obtain ⟨v, -, computed, -⟩ := quantiles.ordered (2 ^ 31 / (values.length + 1)) _
    (by positivity) le_rfl ((div_le_one positive).2 (by linarith))
  rw [quantile_overflows long] at computed
  cases computed

/-- **Quantiles are ordered** and independent of the order of the values, if and only if an `int`
holds every index. -/
theorem quantiles_iff (values : List Int) : Quantiles values ↔ values.length ≤ 2 ^ 31 := by
  constructor
  · intro quantiles
    by_contra long
    exact not_quantiles_of_long (not_le.1 long) quantiles
  · exact quantiles_of_short

/-- The index 2^31 of one value more. -/
theorem quantile_overflows_zeros :
    (new (List.replicate (2 ^ 31 + 1) 0) false).valueAt (2 ^ 31 / (2 ^ 31 + 1 + 1)) =
        .error .conversion ∧
      ¬ Quantiles (List.replicate (2 ^ 31 + 1) 0) := by
  have long : 2 ^ 31 < (List.replicate (2 ^ 31 + 1) (0 : Int)).length := by
    rw [List.length_replicate]
    exact Nat.lt_succ_self _
  have overflows := quantile_overflows long
  rw [List.length_replicate] at overflows
  exact ⟨by exact_mod_cast overflows, not_quantiles_of_long long⟩

/-! ## Estimators -/

/-- Sorted values at a position between 1 and their number. -/
def between (l : List Int) (h : ℚ) : ℚ :=
  let f := ⌊h⌋.toNat
  let x (k : Nat) : ℚ := l.getD (k - 1) 0
  if f = l.length then x f else x f + (h - f) * (x (f + 1) - x f)

/-- Where the estimator R-6 reads, kept between 1 and the number of values. -/
def r6Position (l : List Int) (q : ℚ) : ℚ := Max.max 1 (Min.min (q * (l.length + 1)) l.length)

/-- The estimator R-6 over sorted values. -/
def r6 (l : List Int) (q : ℚ) : ℚ := between l (r6Position l q)

/-- Where the estimator R-7 reads. -/
def r7Position (l : List Int) (q : ℚ) : ℚ := (l.length - 1) * q + 1

/-- The estimator R-7 over sorted values. -/
def r7 (l : List Int) (q : ℚ) : ℚ := between l (r7Position l q)

theorem statistic_inside {l : List Int} {k : Nat} (first : 1 ≤ k) (last : k ≤ l.length) :
    statistic l k = l.getD (k - 1) 0 := by
  unfold statistic
  rw [show Min.min ((k : Int) - 1).toNat (l.length - 1) = k - 1 by omega]

theorem between_eq {l : List Int} {h : ℚ} (first : 1 ≤ h) (last : h ≤ l.length) :
    between l h = interpolate (statistic l) h := by
  obtain ⟨f, floor⟩ := Int.eq_ofNat_of_zero_le (Int.floor_nonneg.2 (zero_le_one.trans first))
  have atLeast : 1 ≤ f := by
    have : (1 : Int) ≤ ⌊h⌋ := Int.le_floor.2 (by exact_mod_cast first)
    omega
  have atMost : f ≤ l.length := by
    have : ⌊h⌋ ≤ (l.length : Int) :=
      Int.floor_le_iff.2 (lt_of_le_of_lt last (by exact_mod_cast lt_add_one _))
    omega
  unfold between
  simp only [floor, Int.toNat_natCast]
  split
  · rename_i isLast
    have back : (l.length : ℚ) ≤ h := by
      have := Int.floor_le h
      rw [floor, isLast] at this
      exact_mod_cast this
    rw [interpolate_back back, statistic_inside (by omega) le_rfl, isLast]
  · rename_i notLast
    have next : statistic l ((f : Int) + 1) = l.getD (f + 1 - 1) 0 := by
      exact_mod_cast statistic_inside (l := l) (k := f + 1) (by omega) (by omega)
    rw [interpolate, floor, next, statistic_inside atLeast atMost]
    norm_cast

theorem one_le_length {l : List Int} (some_ : l ≠ []) : (1 : ℚ) ≤ l.length := by
  exact_mod_cast List.length_pos_iff.2 some_

theorem r7_eq {l : List Int} (some_ : l ≠ []) (low : 0 ≤ q) (high : q ≤ 1) :
    r7 l q = interpolate (statistic l) (r7Position l q) := by
  have more := sub_nonneg.2 (one_le_length some_)
  refine between_eq ?_ ?_
  · have := mul_nonneg more low
    unfold r7Position
    linarith
  · have := mul_le_mul_of_nonneg_left high more
    unfold r7Position
    linarith

theorem r6_eq {l : List Int} (some_ : l ≠ []) (q : ℚ) :
    r6 l q = interpolate (statistic l) (q * (l.length + 1)) := by
  have positive := one_le_length some_
  rw [r6, r6Position, between_eq (le_max_left ..) (max_le positive (min_le_right ..))]
  rcases lt_or_ge (q * (l.length + 1)) 1 with front | notFront
  · rw [max_eq_left ((min_le_left ..).trans front.le), interpolate_front front]
    exact interpolate_intCast (statistic l) 1
  · rcases le_total (q * (l.length + 1)) l.length with notBack | back
    · rw [min_eq_left notBack, max_eq_right notFront]
    · rw [min_eq_right back, max_eq_right positive, interpolate_back back]
      exact interpolate_intCast (statistic l) l.length

/-- **`valueAt` is the estimator R-6**: it reads the sorted values at `q (n + 1)`, and the first and
the last one beyond them. -/
theorem valueAt_r6 (values : List Int) (some_ : values ≠ []) (q : ℚ) (low : 0 ≤ q) (high : q ≤ 1)
    (indexed : (new values false).Indexed q) :
    (new values false).valueAt q = .ok (r6 (new values false).values q) := by
  have some' := new_ne_nil some_
  rw [valueAt_eq some' low high indexed, r6_eq some']
  rfl

/-- The position is 3/2. -/
theorem valueAt_r6_between : (new [40, 0, 10, 20] false).valueAt (3 / 10) = .ok 5 ∧
    r6 (new [40, 0, 10, 20] false).values (3 / 10) = 5 := by
  have computed := valueAt_r6 [40, 0, 10, 20] (by simp) (3 / 10) (by norm_num) (by norm_num)
    (indexed_of_short (by simp) _)
  have perm : ([40, 0, 10, 20] : List Int).Perm [0, 10, 20, 40] := by decide
  have sorted : new [40, 0, 10, 20] false = ⟨[0, 10, 20, 40]⟩ :=
    (new_eq_of_perm perm).trans (new_of_sorted (by decide))
  rw [sorted] at computed ⊢
  have five : r6 [0, 10, 20, 40] (3 / 10) = 5 := by decide +kernel
  exact ⟨by rw [computed, five], five⟩

/-- The estimator R-7 gives the same exactly at the median, and where the values are all the same
from the floor of the smaller to the ceiling of the larger of the two positions. -/
theorem valueAt_r7_iff (values : List Int) (some_ : values ≠ []) (q : ℚ) (low : 0 ≤ q)
    (high : q ≤ 1) :
    (new values false).valueAt q = .ok (r7 (new values false).values q) ↔
      (new values false).Indexed q ∧
        (q = 1 / 2 ∨
          statistic (new values false).values
              ⌊Min.min ((new values false).position q) (r7Position (new values false).values q)⌋ =
            statistic (new values false).values
              ⌈Max.max ((new values false).position q) (r7Position (new values false).values q)⌉) := by
  generalize made : new values false = s
  have some' : s.values ≠ [] := made ▸ new_ne_nil some_
  have ascending := statistic_mono (l := s.values) (made ▸ sorted_new values)
  have apart : s.position q - r7Position s.values q = 2 * q - 1 := by
    unfold position r7Position
    ring
  by_cases indexed : s.Indexed q
  · rw [valueAt_eq some' low high indexed, r7_eq some' low high, Except.ok.injEq,
      and_iff_right indexed]
    rcases lt_trichotomy (s.position q) (r7Position s.values q) with below | same | above
    · have notHalf : q ≠ 1 / 2 := by rintro rfl; linarith
      rw [min_eq_left below.le, max_eq_right below.le, Theory.interpolate_eq_iff ascending below]
      exact (or_iff_right notHalf).symm
    · have half : q = 1 / 2 := by linarith
      rw [same]
      exact iff_of_true rfl (.inl half)
    · have notHalf : q ≠ 1 / 2 := by rintro rfl; linarith
      rw [min_eq_right above.le, max_eq_left above.le, eq_comm,
        Theory.interpolate_eq_iff ascending above]
      exact (or_iff_right notHalf).symm
  · rw [valueAt_conversion high indexed]
    exact iff_of_false (fun same => by cases same) (fun both => indexed both.1)

/-- The median is the same for both. -/
theorem valueAt_r7_median {values : List Int} (some_ : values ≠ [])
    (short : values.length ≤ 2 ^ 31) :
    (new values false).valueAt (1 / 2) = .ok (r7 (new values false).values (1 / 2)) :=
  (valueAt_r7_iff values some_ (1 / 2) (by norm_num) (by norm_num)).2
    ⟨indexed_of_short (by rwa [length_new]) _, .inl rfl⟩

/-- The lower quartile of 0 and 10 is 5/2. -/
theorem quartile_not_r7 :
    (new [0, 10] false).valueAt (1 / 4) = .ok 0 ∧ r7 (new [0, 10] false).values (1 / 4) = 5 / 2 := by
  rw [new_of_sorted (by decide)]
  decide +kernel

end Snapshot

end Ccmetrics.Snapshot
