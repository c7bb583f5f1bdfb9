/-
# Theory.Numbering -- tables that number keys on first demand

`demand` answers with the number of a key; a key that is asked for the first time gets the next
number. A number belongs to one key at most, and exactly the numbers below the next one have been
given: both are fields of the structure.

`number?_demand_eq_some` says what one demand adds to the table. `same_iff` is what the clients
rely on: two answers are the same if and only if the keys are.
-/
import Mathlib.Logic.Basic

namespace Ccmetrics.Theory

set_option autoImplicit false
set_option linter.unusedSectionVars false

structure Numbering (K : Type) where
  number? : K → Option Nat
  fresh : Nat
  injective : ∀ {k k' a}, number? k = some a → number? k' = some a → k = k'
  given : ∀ {a}, a < fresh ↔ ∃ k, number? k = some a

namespace Numbering

variable {K : Type} [DecidableEq K] {t : Numbering K} {k k' x : K} {a a' : Nat}

def empty : Numbering K where
  number? _ := none
  fresh := 0
  injective known := nomatch known
  given := by simp

/-- A number that has not been given belongs to no key. -/
theorem number?_ne_fresh : t.number? x ≠ some t.fresh :=
  fun known => Nat.lt_irrefl _ (t.given.2 ⟨x, known⟩)

/-- The next number goes to `k`. -/
def add (t : Numbering K) (k : K) (isNew : t.number? k = none) : Numbering K where
  number? x := if x = k then some t.fresh else t.number? x
  fresh := t.fresh + 1
  injective {x x' a} at_ at_' := by
    split at at_ <;> split at at_'
    · rename_i same same'
      exact same.trans same'.symm
    · cases at_
      exact absurd at_' number?_ne_fresh
    · cases at_'
      exact absurd at_ number?_ne_fresh
    · exact t.injective at_ at_'
  given {a} := by
    rw [Nat.lt_succ_iff_lt_or_eq, t.given]
    constructor
    · rintro (⟨x, known⟩ | rfl)
      · refine ⟨x, ?_⟩
        rw [if_neg, known]
        rintro rfl
        cases isNew.symm.trans known
      · exact ⟨k, if_pos rfl⟩
    · rintro ⟨x, known⟩
      split at known
      · cases known
        exact .inr rfl
      · exact .inl ⟨x, known⟩

def demand (t : Numbering K) (k : K) : Numbering K × Nat :=
  match known : t.number? k with
  | some a => (t, a)
  | none => (t.add k known, t.fresh)

theorem demand_known (known : t.number? k = some a) : t.demand k = (t, a) := by
  unfold demand
  split
  · rename_i known'
    cases known.symm.trans known'
    rfl
  · rename_i isNew
    cases isNew.symm.trans known

theorem demand_new (isNew : t.number? k = none) : t.demand k = (t.add k isNew, t.fresh) := by
  unfold demand
  split
  · rename_i known
    cases isNew.symm.trans known
  · rfl

theorem number?_demand : (t.demand k).1.number? x =
    if x = k then some (t.demand k).2 else t.number? x := by
  cases known : t.number? k with
  | none => rw [demand_new known]; rfl
  | some a =>
      rw [demand_known known]
      split
      · rename_i same
        rw [same, known]
      · rfl

/-- A demand adds its answer to the table, and keeps all others. -/
theorem number?_demand_eq_some : (t.demand k).1.number? x = some a ↔
    t.number? x = some a ∨ x = k ∧ a = (t.demand k).2 := by
  rw [number?_demand]
  by_cases same : x = k
  · rw [if_pos same, same, Option.some.injEq]
    constructor
    · rintro rfl
      exact .inr ⟨rfl, rfl⟩
    · rintro (known | ⟨-, rfl⟩)
      · rw [demand_known known]
      · rfl
  · rw [if_neg same]
    simp [same]

/-- Two numbers are the same if and only if their keys are. -/
theorem same_iff (at_ : t.number? k = some a) (at_' : t.number? k' = some a') :
    a = a' ↔ k = k' := by
  constructor
  · rintro rfl
    exact t.injective at_ at_'
  · rintro rfl
    exact Option.some.inj (at_.symm.trans at_')

end Numbering

end Ccmetrics.Theory
