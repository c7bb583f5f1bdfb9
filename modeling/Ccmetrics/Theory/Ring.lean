/-
# Theory.Ring -- circular doubly linked lists with a sentinel

An intrusive list: every node carries its own `next` and `prev`, null while the node is on no
list, and a sentinel closes the ring. `none` stands for the sentinel, so a pointer is an
`Option (Option α)`.

`Spells r l` says that the ring is exactly `l`, forwards and backwards, and that every other
node has null pointers. Adding a node at the end and taking one out are the four pointer writes
a C program makes (`spells_add`, `spells_remove`), and following `next` from the sentinel visits
`l` (`walk_spells`).
-/
import Mathlib.Data.List.Nodup
import Mathlib.Data.List.Chain

namespace Ccmetrics.Theory

set_option autoImplicit false
set_option linter.unusedSectionVars false

universe u

/-- The pointers of all nodes; the sentinel is the node `none`. -/
structure Ring (α : Type u) where
  next : Option α → Option (Option α)
  prev : Option α → Option (Option α)

namespace Ring

variable {α : Type u} [DecidableEq α]

/-- Only the sentinel. -/
def empty : Ring α where
  next a := if a = none then some none else none
  prev a := if a = none then some none else none

def setNext (r : Ring α) (a : Option α) (b : Option (Option α)) : Ring α :=
  { r with next := fun x => if x = a then b else r.next x }

def setPrev (r : Ring α) (a : Option α) (b : Option (Option α)) : Ring α :=
  { r with prev := fun x => if x = a then b else r.prev x }

def onList (r : Ring α) (x : α) : Bool := (r.next (some x)).isSome && (r.prev (some x)).isSome

/-- Hang a node in front of the sentinel; a null `prev` of the sentinel would be a fault. -/
def add (r : Ring α) (x : α) : Ring α :=
  let r := r.setNext (some x) (some none)
  let r := r.setPrev (some x) (r.prev none)
  match r.prev (some x) with
  | some p => (r.setNext p (some (some x))).setPrev none (some (some x))
  | none => r

/-- Take a node out; a null pointer of the node would be a fault. -/
def remove (r : Ring α) (x : α) : Ring α :=
  match r.next (some x), r.prev (some x) with
  | some n, some p =>
      let r := (r.setPrev n (some p)).setNext p (some n)
      (r.setNext (some x) none).setPrev (some x) none
  | _, _ => r

/-- The nodes from a pointer to the sentinel; `none` if the fuel runs out or a pointer is null. -/
def walk (r : Ring α) : Nat → Option (Option α) → Option (List α)
  | _, some none => some []
  | fuel + 1, some (some x) => (r.walk fuel (r.next (some x))).map (x :: ·)
  | _, _ => none

/-- The ring from the sentinel on, and up to the sentinel. -/
def opening (l : List α) : List (Option α) := none :: l.map some

def closing (l : List α) : List (Option α) := l.map some ++ [none]

/-- The ring is exactly `l`. -/
structure Spells (r : Ring α) (l : List α) : Prop where
  nodup : l.Nodup
  links : (none :: closing l).IsChain fun a b => r.next a = some b ∧ r.prev b = some a
  off : ∀ x ∉ l, r.next (some x) = none ∧ r.prev (some x) = none

variable {r : Ring α} {l l₁ l₂ : List α} {x : α}

theorem spells_empty : (empty : Ring α).Spells [] where
  nodup := List.nodup_nil
  links := by simp [closing, empty]
  off x _ := by simp [empty]

/-- A chain is kept where the relation is kept between neighbours. -/
theorem chain_imp {β : Type u} {R S : β → β → Prop} {m : List β} (chain : m.IsChain R)
    (imp : ∀ a ∈ m.dropLast, ∀ b ∈ m.tail, R a b → S a b) : m.IsChain S := by
  rw [List.isChain_iff_forall_rel_of_append_cons_cons] at chain ⊢
  intro a b before behind split
  refine imp a ?_ b ?_ (chain split)
  · rw [split, List.dropLast_append_of_ne_nil (by simp)]
    simp
  · rw [split]
    cases before <;> simp

theorem some_mem_opening : some x ∈ opening l ↔ x ∈ l := by simp [opening]

theorem some_mem_closing : some x ∈ closing l ↔ x ∈ l := by simp [closing]

/-- The last node of the way out; it is not met before. -/
theorem opening_snoc (nodup : l.Nodup) :
    ∃ before p, opening l = before ++ [p] ∧ p ∉ before := by
  obtain empty | ⟨before, p, split⟩ := List.eq_nil_or_concat (opening l)
  · cases empty
  · have distinct : (opening l).Nodup := by
      simp [opening, nodup.map (fun a b => Option.some.inj)]
    rw [List.concat_eq_append] at split
    rw [split] at distinct
    exact ⟨before, p, split, fun member =>
      (List.nodup_append.1 distinct).2.2 p member p (List.mem_singleton_self p) rfl⟩

/-- The first node of the way back; it is not met again. -/
theorem closing_cons (nodup : l.Nodup) :
    ∃ q behind, closing l = q :: behind ∧ q ∉ behind := by
  cases l with
  | nil => exact ⟨none, [], rfl, by simp⟩
  | cons y l =>
      refine ⟨some y, closing l, by simp [closing], ?_⟩
      simp [closing, (List.nodup_cons.1 nodup).1]

theorem split_around : none :: closing (l₁ ++ x :: l₂) = opening l₁ ++ some x :: closing l₂ := by
  simp [opening, closing]

theorem join_around : none :: closing (l₁ ++ l₂) = opening l₁ ++ closing l₂ := by
  simp [opening, closing]

theorem Spells.onList_iff (spells : r.Spells l) (x : α) : r.onList x = true ↔ x ∈ l := by
  constructor
  · intro on
    by_contra notMem
    simp [onList, (spells.off x notMem).1] at on
  · intro member
    obtain ⟨l₁, l₂, rfl⟩ := List.append_of_mem member
    have nodup := List.nodup_append.1 spells.nodup
    obtain ⟨before, p, opens, -⟩ := opening_snoc nodup.1
    obtain ⟨q, behind, closes, -⟩ := closing_cons (List.nodup_cons.1 nodup.2.1).2
    have links := spells.links
    rw [split_around, opens, closes, List.append_assoc, List.singleton_append,
      List.isChain_append_cons_cons, List.isChain_cons_cons] at links
    simp [onList, links.2.1.2, links.2.2.1.1]

/-- `add` hangs the node at the end. -/
theorem spells_add (spells : r.Spells l) (isNew : x ∉ l) : (r.add x).Spells (l ++ [x]) := by
  obtain ⟨before, p, opens, once⟩ := opening_snoc spells.nodup
  have links := spells.links
  rw [← List.append_nil l, join_around, opens, closing, List.map_nil, List.nil_append,
    List.append_assoc, List.singleton_append, List.isChain_append_cons_cons] at links
  obtain ⟨chain, ⟨-, back⟩, -⟩ := links
  have apart : some x ∉ before ++ [p] := opens ▸ fun member => isNew (some_mem_opening.1 member)
  have pApart : p ≠ some x := fun same => apart (by simp [same])
  have added : r.add x =
      { next := fun a => if a = p then some (some x) else if a = some x then some none else r.next a
        prev := fun a => if a = none then some (some x) else if a = some x then some p else r.prev a } := by
    simp [add, setNext, setPrev, back]
  rw [added]
  refine ⟨?_, ?_, ?_⟩
  · exact List.nodup_append.2 ⟨spells.nodup, by simp, by rintro a member b isX rfl; simp_all⟩
  · rw [split_around, opens, List.append_assoc, List.singleton_append,
      List.isChain_append_cons_cons]
    refine ⟨chain_imp chain ?_, ?_, ?_⟩
    · rintro a inInit b inTail ⟨ahead, behind⟩
      rw [List.dropLast_concat] at inInit
      have notX : a ≠ some x := fun same => apart (by simp [← same, inInit])
      have notP : a ≠ p := fun same => once (same ▸ inInit)
      have tailIs : (before ++ [p]).tail = l.map some := by rw [← opens]; rfl
      rw [tailIs, List.mem_map] at inTail
      obtain ⟨y, member, rfl⟩ := inTail
      have notX' : y ≠ x := fun same => isNew (same ▸ member)
      simp [notX, notP, notX', ahead, behind]
    · simp
    · simp [closing, pApart.symm]
  · intro y notMem
    rw [List.mem_append, List.mem_singleton, not_or] at notMem
    have notP : some y ≠ p := fun same => notMem.1 (some_mem_opening.1 (by simp [opens, same]))
    simp [notP, notMem.2, spells.off y notMem.1]

/-- `remove` takes the node out of wherever it hangs. -/
theorem spells_remove (spells : r.Spells l) (member : x ∈ l) :
    (r.remove x).Spells (l.erase x) := by
  obtain ⟨l₁, l₂, rfl⟩ := List.append_of_mem member
  have nodup := List.nodup_append.1 spells.nodup
  have parts := List.nodup_cons.1 nodup.2.1
  have notBefore : x ∉ l₁ := fun inFirst => nodup.2.2 x inFirst x (List.mem_cons_self ..) rfl
  obtain ⟨before, p, opens, onceP⟩ := opening_snoc nodup.1
  obtain ⟨q, behind, closes, onceQ⟩ := closing_cons parts.2
  have links := spells.links
  rw [split_around, opens, closes, List.append_assoc, List.singleton_append,
    List.isChain_append_cons_cons, List.isChain_cons_cons] at links
  obtain ⟨chain₁, ⟨-, prevX⟩, ⟨nextX, -⟩, chain₂⟩ := links
  have inOpening : p ∈ opening l₁ := by simp [opens]
  have inClosing : q ∈ closing l₂ := by simp [closes]
  have pNotX : p ≠ some x := fun same => notBefore (some_mem_opening.1 (same ▸ inOpening))
  have qNotX : q ≠ some x := fun same => parts.1 (some_mem_closing.1 (same ▸ inClosing))
  have removed : r.remove x =
      { next := fun a => if a = some x then none else if a = p then some q else r.next a
        prev := fun a => if a = some x then none else if a = q then some p else r.prev a } := by
    simp [remove, setNext, setPrev, prevX, nextX]
  have erased : (l₁ ++ x :: l₂).erase x = l₁ ++ l₂ := by
    rw [List.erase_append_right _ notBefore, List.erase_cons_head]
  rw [removed, erased]
  refine ⟨?_, ?_, ?_⟩
  · exact erased ▸ spells.nodup.erase x
  · rw [join_around, opens, closes, List.append_assoc, List.singleton_append,
      List.isChain_append_cons_cons]
    refine ⟨chain_imp chain₁ ?_, ?_, chain_imp chain₂ ?_⟩
    · rintro a inInit b inTail ⟨ahead, back⟩
      rw [List.dropLast_concat] at inInit
      have notP : a ≠ p := fun same => onceP (same ▸ inInit)
      have notX : a ≠ some x := fun same =>
        notBefore (some_mem_opening.1 (by simp [opens, ← same, inInit]))
      have tailIs : (before ++ [p]).tail = l₁.map some := by rw [← opens]; rfl
      rw [tailIs, List.mem_map] at inTail
      obtain ⟨y, inFirst, rfl⟩ := inTail
      have notX' : y ≠ x := fun same => notBefore (same ▸ inFirst)
      have notQ : some y ≠ q := fun same =>
        nodup.2.2 y inFirst y (List.mem_cons_of_mem _ (some_mem_closing.1 (same ▸ inClosing))) rfl
      simp [notX, notP, notX', notQ, ahead, back]
    · simp [pNotX, qNotX]
    · rintro a inInit b inTail ⟨ahead, back⟩
      have initIs : (q :: behind).dropLast = l₂.map some := by
        rw [← closes, closing, List.dropLast_concat]
      rw [initIs, List.mem_map] at inInit
      obtain ⟨y, inLast, rfl⟩ := inInit
      have notX : y ≠ x := fun same => parts.1 (same ▸ inLast)
      have notP : some y ≠ p := fun same =>
        nodup.2.2 y (some_mem_opening.1 (same ▸ inOpening)) y (List.mem_cons_of_mem _ inLast) rfl
      have notQ : b ≠ q := fun same => onceQ (same ▸ inTail)
      have notX' : b ≠ some x := fun same =>
        parts.1 (some_mem_closing.1 (by rw [closes, ← same]; exact List.mem_cons_of_mem _ inTail))
      simp [notX, notP, notX', notQ, ahead, back]
  · intro y notMem
    rw [List.mem_append, not_or] at notMem
    by_cases same : y = x
    · simp [same]
    · have off := spells.off y (by simp [notMem, same])
      have notP : some y ≠ p := fun same => notMem.1 (some_mem_opening.1 (same ▸ inOpening))
      have notQ : some y ≠ q := fun same => notMem.2 (some_mem_closing.1 (same ▸ inClosing))
      simp [same, notP, notQ, off]

/-- Following `next` from the sentinel visits the list. -/
theorem walk_spells (spells : r.Spells l) {fuel : Nat} (enough : l.length ≤ fuel) :
    r.walk fuel (r.next none) = some l := by
  have visit : ∀ (l : List α) (a : Option α) (fuel : Nat), l.length ≤ fuel →
      (a :: closing l).IsChain (fun a b => r.next a = some b ∧ r.prev b = some a) →
      r.walk fuel (r.next a) = some l := by
    intro l
    induction l with
    | nil =>
        intro a fuel _ chain
        have ahead : r.next a = some none := by simp [closing] at chain; exact chain.1
        rw [ahead, walk]
    | cons y l ih =>
        intro a fuel enough chain
        have unfold_ : a :: closing (y :: l) = a :: some y :: closing l := rfl
        rw [unfold_, List.isChain_cons_cons] at chain
        obtain ⟨fuel, rfl⟩ : ∃ n, fuel = n + 1 :=
          ⟨fuel - 1, by simp at enough; omega⟩
        rw [chain.1.1, walk, ih (some y) fuel (by simpa using enough) chain.2]
        rfl
  exact visit l none fuel enough spells.links

end Ring

end Ccmetrics.Theory
