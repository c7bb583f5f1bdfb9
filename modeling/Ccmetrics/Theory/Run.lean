/-
# Theory.Run -- runs of an action machine, and what holds along them

A machine is a partial function `next : σ → α → Option σ`: an action is either
taken, giving one state, or refused. Every choice the outside makes (which thread
moves, which operation it calls, what a random draw gives) is part of the action,
so a run is a list of actions and `run` replays it.

* `run_induction`: what holds at the start and is kept by every taken action holds
  after every run.
* `Along`: a condition met by every action of a run, in the state it is taken from.
  `run_along` is the invariant rule relative to such a condition, and
  `along_append` cuts a run in two.
-/
import Mathlib.Logic.Relation

namespace Ccmetrics.Theory

set_option autoImplicit false

universe u v

-- the threads of a run that is written out are `0`, `1` and `2`
instance (priority := high) neZero_two : @NeZero Nat Zero.ofOfNat0 2 := ⟨by decide⟩

instance (priority := high) neZero_three : @NeZero Nat Zero.ofOfNat0 3 := ⟨by decide⟩

variable {σ : Type u} {α : Type v}

/-- Replay a list of actions; `none` as soon as one is refused. -/
def run (next : σ → α → Option σ) : σ → List α → Option σ
  | s, [] => some s
  | s, a :: rest =>
      match next s a with
      | some s' => run next s' rest
      | none => none

/-- Every action of the run meets `ok` in the state it is taken from. -/
def Along (next : σ → α → Option σ) (ok : σ → α → Prop) : σ → List α → Prop
  | _, [] => True
  | s, a :: rest => ok s a ∧ ∀ s', next s a = some s' → Along next ok s' rest

instance decidableAlong {next : σ → α → Option σ} {ok : σ → α → Prop}
    [∀ s a, Decidable (ok s a)] : (s : σ) → (as : List α) → Decidable (Along next ok s as)
  | _, [] => isTrue trivial
  | s, a :: rest =>
      match taken : next s a with
      | some s' =>
          haveI : Decidable (Along next ok s' rest) := decidableAlong s' rest
          decidable_of_iff (ok s a ∧ Along next ok s' rest) (by simp [Along, taken])
      | none => decidable_of_iff (ok s a) (by simp [Along, taken])

section Runs

variable {next : σ → α → Option σ} {ok : σ → α → Prop} {s s' s'' : σ} {a : α} {as bs : List α}

@[simp] theorem run_nil : run next s [] = some s := rfl

theorem run_cons_eq_some :
    run next s (a :: as) = some s'' ↔ ∃ s', next s a = some s' ∧ run next s' as = some s'' := by
  simp only [run]
  split
  · rename_i mid taken
    simp [taken]
  · rename_i refused
    simp [refused]

theorem run_append_eq_some :
    run next s (as ++ bs) = some s'' ↔
      ∃ s', run next s as = some s' ∧ run next s' bs = some s'' := by
  induction as generalizing s with
  | nil => simp
  | cons a rest ih =>
      simp only [List.cons_append, run_cons_eq_some, ih]
      constructor
      · rintro ⟨mid, taken, last, first, second⟩
        exact ⟨last, ⟨mid, taken, first⟩, second⟩
      · rintro ⟨last, ⟨mid, taken, first⟩, second⟩
        exact ⟨mid, taken, last, first, second⟩

theorem run_snoc (first : run next s as = some s') (taken : next s' a = some s'') :
    run next s (as ++ [a]) = some s'' :=
  run_append_eq_some.2 ⟨s', first, by simp [run_cons_eq_some, taken]⟩

/-- The invariant rule relative to a condition on the actions of the run. -/
theorem run_along {P : σ → Prop}
    (keep : ∀ s a s', P s → ok s a → next s a = some s' → P s')
    (start : P s) (met : Along next ok s as) (ran : run next s as = some s') : P s' := by
  induction as generalizing s with
  | nil => simp only [run_nil, Option.some.injEq] at ran; exact ran ▸ start
  | cons a rest ih =>
      obtain ⟨mid, taken, ran⟩ := run_cons_eq_some.1 ran
      exact ih (keep s a mid start met.1 taken) (met.2 mid taken) ran

/-- The invariant rule: kept by every action, so kept by every run. -/
theorem run_induction {P : σ → Prop} (keep : ∀ s a s', P s → next s a = some s' → P s')
    (start : P s) (ran : run next s as = some s') : P s' := by
  induction as generalizing s with
  | nil => simp only [run_nil, Option.some.injEq] at ran; exact ran ▸ start
  | cons a rest ih =>
      obtain ⟨mid, taken, ran⟩ := run_cons_eq_some.1 ran
      exact ih (keep s a mid start taken) ran

/-- The simulation rule: a specification that follows every action follows the run. -/
theorem run_follows {μ : Type*} {R : σ → μ → Prop} {f : μ → α → μ} {m : μ}
    (keep : ∀ s a s' m, R s m → ok s a → next s a = some s' → R s' (f m a))
    (start : R s m) (met : Along next ok s as) (ran : run next s as = some s') :
    R s' (as.foldl f m) := by
  induction as generalizing s m with
  | nil => simp only [run_nil, Option.some.injEq] at ran; exact ran ▸ start
  | cons a rest ih =>
      obtain ⟨mid, taken, ran⟩ := run_cons_eq_some.1 ran
      exact ih (keep s a mid m start met.1 taken) (met.2 mid taken) ran

theorem along_of_forall {good : α → Prop} (met : ∀ a ∈ as, good a) :
    Along next (fun _ a => good a) s as := by
  induction as generalizing s with
  | nil => trivial
  | cons a rest ih =>
      exact ⟨met a (List.mem_cons_self ..), fun _ _ =>
        ih fun b inRest => met b (List.mem_cons_of_mem _ inRest)⟩

theorem along_append (met : Along next ok s (as ++ bs)) (ran : run next s as = some s') :
    Along next ok s as ∧ Along next ok s' bs := by
  induction as generalizing s with
  | nil => simp only [run_nil, Option.some.injEq] at ran; exact ⟨trivial, ran ▸ met⟩
  | cons a rest ih =>
      obtain ⟨mid, taken, ran⟩ := run_cons_eq_some.1 ran
      obtain ⟨first, second⟩ := ih (met.2 mid taken) ran
      refine ⟨⟨met.1, fun s₁ taken₁ => ?_⟩, second⟩
      cases Option.some.inj (taken.symm.trans taken₁)
      exact first

end Runs

end Ccmetrics.Theory
