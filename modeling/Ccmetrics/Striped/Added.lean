/-
# Striped.Added -- what has been added, and what `value` returns when nobody adds

The log has an entry for each call of `add`, from its start. `added_next` says what one action enters
for an object. When no call of `add` on it is running, the object holds the sum of the entries
(`Books.total_added`), and a call of `value` that meets no change of it is a `Reading` of that sum
(`Books.reading`). Only a constructor makes an object (`live_same`, `live_make`).
-/
import Ccmetrics.Striped.Reads

namespace Ccmetrics.Striped

set_option autoImplicit false
set_option linter.unusedSectionVars false

variable {T O : Type} [DecidableEq T] [DecidableEq O]

theorem added_append (log : List (Add O)) (e : Add O) (o : O) :
    added (log ++ [e]) o = added log o + if e.this = o then e.delta else 0 := by
  by_cases here : e.this = o <;> simp [added, here]

theorem added_eq (log : List (Add O)) (o : O) :
    added log o = (log.map fun e => if e.this = o then e.delta else 0).sum := by
  induction log with
  | nil => rfl
  | cons e rest ih =>
      rw [List.map_cons, List.sum_cons, ← ih]
      by_cases here : e.this = o <;> simp [added, here]

theorem added_modify (log : List (Add O)) (i : Nat) {f : Add O → Add O} (o : O)
    (same : ∀ e, (f e).this = e.this ∧ (f e).delta = e.delta) :
    added (log.modify i f) o = added log o := by
  rw [added_eq, added_eq]
  congr 1
  refine List.ext_getElem? fun j => ?_
  simp only [List.getElem?_map, List.getElem?_modify]
  cases log[j]? with
  | none => rfl
  | some e =>
      split
      · simp [same e]
      · rfl

namespace State

variable {s s' : State T O} {t : T} {e : Effect O} {nx : Next O} {o : O}

theorem after_added : added (s.after t e nx).log o = added s.log o := by
  have applied_ : added (s.apply t e).log o = added s.log o := by
    cases e with
    | addBase | addCell => exact added_modify _ _ _ fun _ => ⟨rfl, rfl⟩
    | _ => rfl
  cases nx with
  | goto pc => exact applied_
  | ret value =>
      simp only [State.after, ret]
      split
      · rw [added_modify]
        · exact applied_
        · intro e
          exact ⟨rfl, rfl⟩
      · exact applied_

/-- A call of `add` is entered into the log when it starts. -/
theorem added_next [Fintype T] {a : Action T O} (taken : s.next a = some s') :
    added s'.log o = added s.log o + match a with
      | .add _ this value => if this = o then value else 0
      | _ => 0 := by
  cases a with
  | make this k =>
      simp only [State.next] at taken
      split at taken
      · cases taken
      · cases taken
        cases k <;> simp [State.make, allocate]
  | add t this value =>
      simp only [State.next] at taken
      split at taken
      · cases taken
        exact added_append ..
      · cases taken
  | value | reset | reclaim =>
      simp only [State.next] at taken
      split at taken
      · cases taken
        simp [goto]
      · cases taken
  | step t =>
      obtain ⟨e, nx, -, rfl⟩ := next_step taken
      rw [after_added]
      simp

/-- Only a constructor makes an object. -/
theorem live_same [Fintype T] {a : Action T O} (taken : s.next a = some s')
    (notMake : ∀ this k, a ≠ .make this k) : s'.live = s.live := by
  cases a with
  | make this k => exact absurd rfl (notMake this k)
  | step t =>
      obtain ⟨e, nx, -, rfl⟩ := next_step taken
      exact after_live
  | add | value | reset | reclaim =>
      simp only [State.next] at taken
      split at taken
      · cases taken
        rfl
      · cases taken

theorem live_make [Fintype T] {this : O} {k : Option Nat}
    (taken : s.next (.make this k) = some s') : s.live this ≠ true ∧
      ∀ r, s'.live r = if r = this then true else s.live r := by
  simp only [State.next] at taken
  split at taken
  · cases taken
  · rename_i notLive
    cases taken
    exact ⟨notLive, fun r => by cases k <;> rfl⟩

/-- A call of `value` starts when no call of `add` is running. -/
theorem Books.reading [Fintype T] (books : s.Books o) (quiet : ∀ u, (s.pc u).adding ≠ some o)
    (taken : s.next (.value t o) = some s') : Reading s t o 0 s' := by
  have books' := books.next (by simp) taken
  simp only [State.next] at taken
  split at taken
  · rename_i enabled
    cases taken
    refine ⟨books', enabled.2, fun v adding => ?_, ⟨rfl, rfl, rfl, fun _ _ => rfl⟩, ?_⟩
    · by_cases same : v = t
      · subst same
        simp [State.goto, PC.adding] at adding
      · simp only [State.goto, same, if_false] at adding
        exact quiet v adding
    · simp [State.goto, ReadsAt]
  · cases taken

/-- If no `add` on the object is running, it holds all that was added. -/
theorem Books.total_added (books : s.Books o) (quiet : ∀ u, (s.pc u).adding ≠ some o) :
    s.total o = added s.log o := by
  rw [books.balanced]
  refine applied_eq_added fun e member here => ?_
  rcases books.accounted.entry member with ⟨one, -⟩ | ⟨⟨u, adding⟩, -⟩
  · omega
  · exact absurd (here ▸ adding) (quiet u)

end State

end Ccmetrics.Striped
