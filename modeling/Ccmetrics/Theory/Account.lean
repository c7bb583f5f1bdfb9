/-
# Theory.Account -- what a collector reads before it empties

Amounts are put into several places at any time. A collector makes rounds: in each it first reads
every place and then empties every place, one at a time. What is put into a place after it has been
read and before it is emptied is lost to the collector.

An `Account` follows one place: what has been put into it, what has been taken out of it, what has
been read off it in all rounds, and what has been put into it while a round was on.

* `Settled`: the place has been emptied since it was last read.
* `Seen`: it has been read and not been emptied.

From these alone, whatever the order: nothing is read twice (`sum_read_le`), and only what was put
in while a round was on can be lost (`sum_put_le`).

`sum_moved` is for amounts that parties hold: what one of them gains, all of them together gain.
-/
import Mathlib.Algebra.BigOperators.Group.Finset.Piecewise
import Mathlib.Algebra.Order.BigOperators.Group.List
import Mathlib.Algebra.Order.Group.Nat
import Mathlib.Algebra.Ring.Nat

namespace Ccmetrics.Theory

set_option autoImplicit false

structure Account where
  put : Nat
  taken : Nat
  read : Nat
  missed : Nat
  deriving DecidableEq

namespace Account

def zero : Account := ⟨0, 0, 0, 0⟩

/-- `v` is put in; `round` says whether a round is on. -/
def deposit (a : Account) (v : Nat) (round : Bool) : Account :=
  { a with put := a.put + v, missed := a.missed + if round = true then v else 0 }

/-- The collector reads `v` off the place. -/
def look (a : Account) (v : Nat) : Account := { a with read := a.read + v }

/-- The collector takes `v` out of the place. -/
def clear (a : Account) (v : Nat) : Account := { a with taken := a.taken + v }

def Settled (a : Account) : Prop := a.read ≤ a.taken ∧ a.taken ≤ a.read + a.missed

def Seen (a : Account) : Prop := a.read ≤ a.put ∧ a.put ≤ a.read + a.missed

variable {a : Account} {v : Nat}

theorem settled_zero : zero.Settled := ⟨Nat.le_refl _, Nat.le_refl _⟩

theorem seen_zero : zero.Seen := ⟨Nat.le_refl _, Nat.le_refl _⟩

theorem Settled.deposit (settled : a.Settled) (v : Nat) (round : Bool) :
    (a.deposit v round).Settled := by
  obtain ⟨lower, upper⟩ := settled
  constructor
  · exact lower
  · show a.taken ≤ a.read + (a.missed + _)
    omega

theorem Seen.deposit (seen : a.Seen) (v : Nat) : (a.deposit v true).Seen := by
  obtain ⟨lower, upper⟩ := seen
  constructor
  · show a.read ≤ a.put + v
    omega
  · show a.put + v ≤ a.read + (a.missed + v)
    omega

theorem Settled.look (settled : a.Settled) (all : a.taken + v = a.put) : (a.look v).Seen := by
  obtain ⟨lower, upper⟩ := settled
  constructor
  · show a.read + v ≤ a.put
    omega
  · show a.put ≤ a.read + v + a.missed
    omega

theorem Seen.clear (seen : a.Seen) (all : a.taken + v = a.put) : (a.clear v).Settled := by
  obtain ⟨lower, upper⟩ := seen
  constructor
  · show a.read ≤ a.taken + v
    omega
  · show a.taken + v ≤ a.read + a.missed
    omega

end Account

section Sums

variable {P : Type} {places : List P} {account : P → Account} {held : P → Nat}

theorem sum_read_le (all : ∀ p ∈ places, (account p).taken + held p = (account p).put)
    (stands : ∀ p ∈ places, (account p).Settled ∨ (account p).Seen) :
    (places.map fun p => (account p).read).sum ≤ (places.map fun p => (account p).put).sum := by
  refine List.sum_le_sum fun p member => ?_
  have whole := all p member
  rcases stands p member with ⟨lower, -⟩ | ⟨lower, -⟩ <;> omega

theorem sum_held (all : ∀ p ∈ places, (account p).taken + held p = (account p).put) :
    (places.map fun p => (account p).taken).sum + (places.map held).sum =
      (places.map fun p => (account p).put).sum := by
  rw [← List.sum_map_add]
  exact congrArg List.sum (List.map_congr_left all)

/-- Between two rounds: what has been read and what is held is no more than what was put in. -/
theorem sum_read_held_le (all : ∀ p ∈ places, (account p).taken + held p = (account p).put)
    (settled : ∀ p ∈ places, (account p).Settled) :
    (places.map fun p => (account p).read).sum + (places.map held).sum ≤
      (places.map fun p => (account p).put).sum := by
  have whole := sum_held all
  have lower : (places.map fun p => (account p).read).sum ≤
      (places.map fun p => (account p).taken).sum :=
    List.sum_le_sum fun p member => (settled p member).1
  omega

/-- Between two rounds: what is missing was put in while a round was on. -/
theorem sum_put_le (all : ∀ p ∈ places, (account p).taken + held p = (account p).put)
    (settled : ∀ p ∈ places, (account p).Settled) :
    (places.map fun p => (account p).put).sum ≤ (places.map fun p => (account p).read).sum +
      (places.map held).sum + (places.map fun p => (account p).missed).sum := by
  have whole := sum_held all
  have upper : (places.map fun p => (account p).taken).sum ≤
      (places.map fun p => (account p).read + (account p).missed).sum :=
    List.sum_le_sum fun p member => (settled p member).2
  rw [List.sum_map_add] at upper
  omega

end Sums

theorem sum_moved {T M : Type} [Fintype T] [DecidableEq T] [AddCommMonoid M] {f g : T → M} {t : T}
    (others : ∀ u, u ≠ t → g u = f u) : (∑ u, g u) + f t = (∑ u, f u) + g t := by
  have rest : ∑ u ∈ Finset.univ.erase t, g u = ∑ u ∈ Finset.univ.erase t, f u :=
    Finset.sum_congr rfl fun u inRest => others u (Finset.ne_of_mem_erase inRest)
  rw [← Finset.add_sum_erase _ g (Finset.mem_univ t), ← Finset.add_sum_erase _ f (Finset.mem_univ t),
    rest, add_right_comm, add_comm (g t), add_right_comm]

end Ccmetrics.Theory
