/-
# Theory.Lines -- texts made of terminated lines

`lines x` cuts a text at `x`, which ends every line. `lines_flatMap`: it gives back the lines that a
text was put together from.

A line is cut at its first `x` by `takeWhile` (`takeWhile_first`), and at its last `x` in one way
only (`cut_last`).
-/
import Mathlib.Data.List.Basic

namespace Ccmetrics.Theory

set_option autoImplicit false

variable {α : Type} [DecidableEq α] {x : α}

def lines (x : α) (text : List α) : List (List α) := (text.splitOn x).dropLast

theorem splitOn_flatMap {ls : List (List α)} (plain : ∀ l ∈ ls, x ∉ l) :
    (ls.flatMap (· ++ [x])).splitOn x = ls ++ [[]] := by
  induction ls with
  | nil => rfl
  | cons l rest ih =>
      rw [List.flatMap_cons, List.append_assoc, List.singleton_append,
        List.splitOn_append_cons_self_of_not_mem (plain l (List.mem_cons_self ..)),
        ih fun l' inRest => plain l' (List.mem_cons_of_mem _ inRest), List.cons_append]

theorem lines_flatMap {ls : List (List α)} (plain : ∀ l ∈ ls, x ∉ l) :
    lines x (ls.flatMap (· ++ [x])) = ls := by
  rw [lines, splitOn_flatMap plain, List.dropLast_concat]

theorem takeWhile_first {l rest : List α} (outside : x ∉ l) :
    (l ++ x :: rest).takeWhile (· ≠ x) = l := by
  have all : ∀ y ∈ l, decide (y ≠ x) = true := fun y member =>
    decide_eq_true fun same => outside (same ▸ member)
  rw [List.takeWhile_append_of_pos all, List.takeWhile_cons_of_neg (by simp), List.append_nil]

omit [DecidableEq α] in
theorem cut_last {a a' b b' : List α} (outside : x ∉ b) (outside' : x ∉ b') :
    a ++ x :: b = a' ++ x :: b' ↔ a = a' ∧ b = b' := by
  constructor
  · intro same
    -- if one cut comes first, the other one is in the part behind it
    rcases List.append_eq_append_iff.1 same with ⟨c, rfl, tail⟩ | ⟨c, rfl, tail⟩
    · cases c with
      | nil => exact ⟨(List.append_nil a).symm, (List.cons.inj tail).2⟩
      | cons y c =>
          refine absurd ?_ outside
          rw [(List.cons.inj tail).2]
          simp
    · cases c with
      | nil => exact ⟨List.append_nil a', (List.cons.inj tail).2.symm⟩
      | cons y c =>
          refine absurd ?_ outside'
          rw [(List.cons.inj tail).2]
          simp
  · rintro ⟨rfl, rfl⟩
    rfl

end Ccmetrics.Theory
