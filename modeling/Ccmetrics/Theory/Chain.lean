/-
# Theory.Chain -- singly linked chains in a memory of `next` pointers

A memory gives every node at most one successor, `next : α → Option α`. `Linked next l`
says that `l` is a whole chain: each node's successor is the following entry, and the last
node has none. A chain lists exactly the nodes reachable from its first one (`linked_reach`).

The two surgeries of a lock-free list are one pointer write each: `linked_insert` hangs a
new node behind `p`, and `linked_remove` swings `p` past its successor.
-/
import Mathlib.Logic.Relation
import Mathlib.Data.List.Nodup

namespace Ccmetrics.Theory.Chain

set_option autoImplicit false

universe u

variable {α : Type u} {next next' : α → Option α}

/-- `l` is a whole chain of `next`, down to a node without a successor. -/
def Linked (next : α → Option α) : List α → Prop
  | [] => True
  | a :: l => next a = l.head? ∧ Linked next l

theorem linked_suffix {l₁ l₂ : List α} (linked : Linked next (l₁ ++ l₂)) : Linked next l₂ := by
  induction l₁ with
  | nil => exact linked
  | cons a rest ih => exact ih linked.2

theorem linked_next {l₁ l₂ : List α} {p : α} (linked : Linked next (l₁ ++ p :: l₂)) :
    next p = l₂.head? :=
  (linked_suffix linked).1

/-- A chain only depends on the successors of its own nodes. -/
theorem linked_congr {l : List α} (linked : Linked next l)
    (same : ∀ x ∈ l, next' x = next x) : Linked next' l := by
  induction l with
  | nil => trivial
  | cons a rest ih =>
      refine ⟨(same a (List.mem_cons_self ..)).trans linked.1, ih linked.2 fun x inRest => ?_⟩
      exact same x (List.mem_cons_of_mem _ inRest)

/-- The nodes of a chain are exactly the nodes reachable from its first one. -/
theorem linked_reach {l : List α} {a x : α} (linked : Linked next (a :: l)) :
    Relation.ReflTransGen (fun x y => next x = some y) a x ↔ x ∈ a :: l := by
  constructor
  · intro reach
    induction reach with
    | refl => exact List.mem_cons_self ..
    | tail _ edge ih =>
        obtain ⟨l₁, l₂, split⟩ := List.append_of_mem ih
        rw [split] at linked ⊢
        have := (linked_next linked).symm.trans edge
        exact List.mem_append_right _ (List.mem_cons_of_mem _ (List.mem_of_head? this))
  · intro member
    induction l generalizing a with
    | nil => simp only [List.mem_singleton] at member; exact member ▸ .refl
    | cons b rest ih =>
        rcases List.mem_cons.1 member with rfl | inRest
        · exact .refl
        · exact .head linked.1 (ih linked.2 inRest)

/-- Hang the new node `n` behind `p`. -/
theorem linked_insert {l₁ l₂ : List α} {p n : α} (linked : Linked next (l₁ ++ p :: l₂))
    (nodup : (l₁ ++ p :: l₂).Nodup) (atP : next' p = some n) (atN : next' n = next p)
    (same : ∀ x ∈ l₁ ++ p :: l₂, x ≠ p → next' x = next x) :
    Linked next' (l₁ ++ p :: n :: l₂) := by
  induction l₁ with
  | nil =>
      refine ⟨atP, atN.trans linked.1, linked_congr linked.2 fun x member => ?_⟩
      refine same x (List.mem_cons_of_mem _ member) ?_
      rintro rfl
      exact (List.nodup_cons.1 nodup).1 member
  | cons a rest ih =>
      obtain ⟨fresh, nodup⟩ := List.nodup_cons.1 nodup
      have ne : a ≠ p := by rintro rfl; simp at fresh
      refine ⟨?_, ih linked.2 nodup fun x member => same x (List.mem_cons_of_mem _ member)⟩
      rw [same a (List.mem_cons_self ..) ne, linked.1]
      cases rest <;> rfl

/-- Swing `p` past its successor `c`. -/
theorem linked_remove {l₁ l₂ : List α} {p c : α} (linked : Linked next (l₁ ++ p :: c :: l₂))
    (nodup : (l₁ ++ p :: c :: l₂).Nodup) (atP : next' p = next c)
    (same : ∀ x ∈ l₁ ++ p :: c :: l₂, x ≠ p → next' x = next x) :
    Linked next' (l₁ ++ p :: l₂) := by
  induction l₁ with
  | nil =>
      refine ⟨atP.trans linked.2.1, linked_congr linked.2.2 fun x member => ?_⟩
      refine same x (List.mem_cons_of_mem _ (List.mem_cons_of_mem _ member)) ?_
      rintro rfl
      exact (List.nodup_cons.1 nodup).1 (List.mem_cons_of_mem _ member)
  | cons a rest ih =>
      obtain ⟨fresh, nodup⟩ := List.nodup_cons.1 nodup
      have ne : a ≠ p := by rintro rfl; simp at fresh
      refine ⟨?_, ih linked.2 nodup fun x member => same x (List.mem_cons_of_mem _ member)⟩
      rw [same a (List.mem_cons_self ..) ne, linked.1]
      cases rest <;> rfl

/-! ## The chain as a list -/

/-- The nodes behind `a`, at most `n` of them. -/
def follow (next : α → Option α) : Nat → α → List α
  | 0, _ => []
  | n + 1, a =>
      match next a with
      | some b => b :: follow next n b
      | none => []

theorem follow_eq {l : List α} {a : α} {n : Nat} (linked : Linked next (a :: l))
    (short : l.length ≤ n) : follow next n a = l := by
  induction l generalizing a n with
  | nil =>
      have last : next a = none := linked.1
      cases n <;> simp [follow, last]
  | cons b rest ih =>
      have first : next a = some b := linked.1
      cases n with
      | zero => simp at short
      | succ n =>
          simp only [follow, first]
          rw [ih linked.2 (by simpa using short)]

/-! ## Ordered chains -/

section Ordered

variable {r : α → α → Prop}

theorem pairwise_insert (trans : ∀ a b c, r a b → r b c → r a c) {l₁ l₂ : List α} {p n : α}
    (ordered : (l₁ ++ p :: l₂).Pairwise r) (after : r p n) (before : ∀ x, l₂.head? = some x → r n x) :
    (l₁ ++ p :: n :: l₂).Pairwise r := by
  rw [List.pairwise_append] at ordered ⊢
  obtain ⟨first, second, cross⟩ := ordered
  obtain ⟨above, rest⟩ := List.pairwise_cons.1 second
  have beyond : ∀ x ∈ l₂, r n x := by
    cases l₂ with
    | nil => simp
    | cons y rest' =>
        intro x member
        rcases List.mem_cons.1 member with rfl | later
        · exact before x rfl
        · exact trans n y x (before y rfl) ((List.pairwise_cons.1 rest).1 x later)
  refine ⟨first, ?_, ?_⟩
  · refine List.pairwise_cons.2 ⟨?_, List.pairwise_cons.2 ⟨beyond, rest⟩⟩
    intro x member
    rcases List.mem_cons.1 member with rfl | later
    · exact after
    · exact above x later
  · intro x inFirst y member
    rcases List.mem_cons.1 member with rfl | member
    · exact cross x inFirst y (List.mem_cons_self ..)
    · rcases List.mem_cons.1 member with rfl | later
      · exact trans x p y (cross x inFirst p (List.mem_cons_self ..)) after
      · exact cross x inFirst y (List.mem_cons_of_mem _ later)

/-- In an ordered chain, what lies above `p` comes behind it. -/
theorem mem_behind (irrefl : ∀ a, ¬ r a a) (trans : ∀ a b c, r a b → r b c → r a c)
    {l₁ l₂ : List α} {p x : α} (ordered : (l₁ ++ p :: l₂).Pairwise r)
    (member : x ∈ l₁ ++ p :: l₂) (above : r p x) : x ∈ l₂ := by
  rcases List.mem_append.1 member with inFirst | inSecond
  · have below := (List.pairwise_append.1 ordered).2.2 x inFirst p (List.mem_cons_self ..)
    exact absurd (trans p x p above below) (irrefl p)
  · rcases List.mem_cons.1 inSecond with rfl | later
    · exact absurd above (irrefl x)
    · exact later

end Ordered

end Ccmetrics.Theory.Chain
