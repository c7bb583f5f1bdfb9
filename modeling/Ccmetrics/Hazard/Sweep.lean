/-
# Hazard.Sweep -- the compaction loop of `scan`

Phase 2 of `scan` goes through `retire_list_` with an iterator. A node that is not live is swapped
with the last one, deleted and popped; the iterator stays, and looks at the node swapped in. The
flag `done` is computed before the swap and says that the node was the last one: then there is
nothing left to look at, and `iter` must not be used any more.

* `Sweep.iterate` is one round of the loop. Dereferencing the iterator anywhere but in front of
  `end()` is `pastEnd`.
* `Swept`: what the loop has kept is live, what it has deleted is not, and together they are the
  nodes it started with.
* `sweep_exact`: the loop ends, and keeps exactly the live nodes.
* `plan_sweep`: the rounds are the steps of the machine in `Hazard.Pointers`.
-/
import Ccmetrics.Hazard.Bounded
import Ccmetrics.Hazard.Conserve

namespace Ccmetrics.Hazard

set_option autoImplicit false
set_option linter.unusedSectionVars false

variable {P C : Type} [DecidableEq P] [Inhabited P]

/-- `std::swap(*iter, retire_list_.back())`. -/
def swapBack (l : List P) (i : Nat) : List P :=
  (l.set i (l.getLastD default)).set (l.length - 1) (l.getD i default)

/-- The list, the iterator, and what has been deleted. -/
structure Sweep (P : Type) where
  retireList : List P
  iter : Nat
  deleted : List P
  deriving DecidableEq

inductive Flow (P : Type) where
  | again (s : Sweep P)
  | leave (s : Sweep P)
  | pastEnd

namespace Sweep

def start (l : List P) : Sweep P := ⟨l, 0, []⟩

/-- `delete retire_list_.back(); retire_list_.pop_back()` after the swap. -/
def swapDelete (s : Sweep P) : Sweep P :=
  let swapped := swapBack s.retireList s.iter
  { s with retireList := swapped.dropLast, deleted := s.deleted ++ [swapped.getLastD default] }

/-- One round of `while (iter != retire_list_.end())`. -/
def iterate (live : List P) (s : Sweep P) : Flow P :=
  if s.iter = s.retireList.length then .leave s
  else
    match s.retireList[s.iter]? with
    | none => .pastEnd
    | some node =>
        if node ∈ live then .again { s with iter := s.iter + 1 }
        else
          let done := decide (s.iter + 1 = s.retireList.length)
          if done then .leave s.swapDelete else .again s.swapDelete

end Sweep

/-- The loop; `none` if it reads past the end or has not ended after `fuel` rounds. -/
def sweep (live : List P) : Nat → Sweep P → Option (Sweep P)
  | 0, _ => none
  | fuel + 1, s =>
      match s.iterate live with
      | .again s' => sweep live fuel s'
      | .leave s' => some s'
      | .pastEnd => none

/-! ## The swap -/

theorem swapBack_dropLast (l : List P) (i : Nat) : (swapBack l i).dropLast = swapPop l i := by
  rw [swapPop, swapBack, List.dropLast_eq_take, List.dropLast_eq_take, List.length_set,
    List.length_set, List.take_set_of_le le_rfl]

theorem swapBack_getLastD {l : List P} {i : Nat} {p : P} (found : l[i]? = some p) :
    (swapBack l i).getLastD default = p := by
  have inside := (List.getElem?_eq_some_iff.1 found).1
  rw [List.getLastD_eq_getLast?, List.getLast?_eq_getElem?, swapBack, List.length_set,
    List.length_set, List.getElem?_set_self (by rw [List.length_set]; omega),
    List.getD_eq_getElem?_getD, found]
  rfl

theorem length_swapPop (l : List P) (i : Nat) : (swapPop l i).length = l.length - 1 := by
  rw [swapPop, List.length_dropLast, List.length_set]

namespace Sweep

variable {live l : List P} {s s' : Sweep P} {p : P}

theorem swapDelete_eq (found : s.retireList[s.iter]? = some p) :
    s.swapDelete =
      { s with retireList := swapPop s.retireList s.iter, deleted := s.deleted ++ [p] } := by
  simp only [swapDelete, swapBack_dropLast, swapBack_getLastD found]

/-- What a round can be. -/
theorem iterate_cases (live : List P) (inside : s.iter ≤ s.retireList.length) :
    (s.iter = s.retireList.length ∧ s.iterate live = .leave s) ∨
    ∃ p, s.retireList[s.iter]? = some p ∧
      ((p ∈ live ∧ s.iterate live = .again { s with iter := s.iter + 1 }) ∨
       (p ∉ live ∧ s.iter + 1 = s.retireList.length ∧ s.iterate live = .leave s.swapDelete) ∨
       (p ∉ live ∧ s.iter + 1 < s.retireList.length ∧ s.iterate live = .again s.swapDelete)) := by
  rcases inside.eq_or_lt with atEnd | before
  · exact .inl ⟨atEnd, by rw [iterate, if_pos atEnd]⟩
  · have found := List.getElem?_eq_getElem before
    refine .inr ⟨s.retireList[s.iter], found, ?_⟩
    by_cases isLive : s.retireList[s.iter] ∈ live
    · refine .inl ⟨isLive, ?_⟩
      simp only [iterate, if_neg before.ne, found, if_pos isLive]
    · by_cases last : s.iter + 1 = s.retireList.length
      · refine .inr (.inl ⟨isLive, last, ?_⟩)
        simp only [iterate, if_neg before.ne, found, if_neg isLive, decide_eq_true last, if_true]
      · refine .inr (.inr ⟨isLive, by omega, ?_⟩)
        simp only [iterate, if_neg before.ne, found, if_neg isLive, decide_eq_false last]
        rfl

/-- What the loop over `l` has done so far. -/
structure Swept (live l : List P) (s : Sweep P) : Prop where
  inside : s.iter ≤ s.retireList.length
  parts : l.Perm (s.deleted ++ s.retireList)
  kept : ∀ p ∈ s.retireList.take s.iter, p ∈ live
  deleted : ∀ p ∈ s.deleted, p ∉ live

theorem swept_start (live l : List P) : Swept live l (start l) where
  inside := Nat.zero_le _
  parts := List.Perm.refl l
  kept _ member := absurd member List.not_mem_nil
  deleted _ member := absurd member List.not_mem_nil

theorem Swept.keep (swept : s.Swept live l) (found : s.retireList[s.iter]? = some p)
    (isLive : p ∈ live) : Swept live l { s with iter := s.iter + 1 } where
  inside := (List.getElem?_eq_some_iff.1 found).1
  parts := swept.parts
  kept q member := by
    rw [List.take_add_one, found, List.mem_append] at member
    rcases member with before | here
    · exact swept.kept q before
    · rw [Option.toList_some, List.mem_singleton] at here
      exact here ▸ isLive
  deleted := swept.deleted

theorem Swept.delete (swept : s.Swept live l) (found : s.retireList[s.iter]? = some p)
    (isDead : p ∉ live) : s.swapDelete.Swept live l := by
  have before := (List.getElem?_eq_some_iff.1 found).1
  rw [swapDelete_eq found]
  constructor
  case inside =>
      show s.iter ≤ (swapPop s.retireList s.iter).length
      rw [length_swapPop]
      omega
  case parts =>
      have moved : (s.deleted ++ s.retireList).Perm
          (s.deleted ++ p :: swapPop s.retireList s.iter) :=
        (swapPop_perm found).append_left s.deleted
      simpa using swept.parts.trans moved
  case kept =>
      intro q member
      rw [take_swapPop before] at member
      exact swept.kept q member
  case deleted =>
      intro q member
      rcases List.mem_append.1 member with old | new
      · exact swept.deleted q old
      · rw [List.mem_singleton] at new
        exact new ▸ isDead

/-- The loop comes to its end, and then all nodes left in the list are live. -/
theorem Swept.ends (swept : s.Swept live l) : ∃ s', s'.Swept live l ∧
    (∀ p ∈ s'.retireList, p ∈ live) ∧
    ∀ fuel, s.retireList.length - s.iter < fuel → sweep live fuel s = some s' := by
  -- every round that goes on makes the part still to be looked at shorter
  induction rest : s.retireList.length - s.iter generalizing s with
  | zero =>
      have atEnd : s.iter = s.retireList.length := by have := swept.inside; omega
      refine ⟨s, swept, fun p member => swept.kept p ?_, fun fuel enough => ?_⟩
      · rwa [atEnd, List.take_length]
      · obtain ⟨fuel, rfl⟩ := Nat.exists_eq_add_one_of_ne_zero (by omega : fuel ≠ 0)
        simp only [sweep, iterate, if_pos atEnd]
  | succ n ih =>
      rcases iterate_cases live swept.inside with
        ⟨atEnd, -⟩ | ⟨p, found, ⟨isLive, on⟩ | ⟨isDead, last, out⟩ | ⟨isDead, before, on⟩⟩
      · omega
      · obtain ⟨s', swept', kept, ran⟩ := ih (swept.keep found isLive) (by simp only; omega)
        refine ⟨s', swept', kept, fun fuel enough => ?_⟩
        obtain ⟨fuel, rfl⟩ := Nat.exists_eq_add_one_of_ne_zero (by omega : fuel ≠ 0)
        simp only [sweep, on]
        exact ran fuel (by omega)
      · have swept' := swept.delete found isDead
        have length : s.swapDelete.retireList.length = s.iter := by
          rw [swapDelete_eq found]
          show (swapPop s.retireList s.iter).length = s.iter
          rw [length_swapPop]
          omega
        refine ⟨s.swapDelete, swept', fun p member => swept'.kept p ?_, fun fuel enough => ?_⟩
        · rwa [List.take_of_length_le (by rw [length]; exact le_rfl)]
        · obtain ⟨fuel, rfl⟩ := Nat.exists_eq_add_one_of_ne_zero (by omega : fuel ≠ 0)
          simp only [sweep, out]
      · have shorter : s.swapDelete.retireList.length - s.swapDelete.iter = n := by
          rw [swapDelete_eq found]
          show (swapPop s.retireList s.iter).length - s.iter = n
          rw [length_swapPop]
          omega
        obtain ⟨s', swept', kept, ran⟩ := ih (swept.delete found isDead) shorter
        refine ⟨s', swept', kept, fun fuel enough => ?_⟩
        obtain ⟨fuel, rfl⟩ := Nat.exists_eq_add_one_of_ne_zero (by omega : fuel ≠ 0)
        simp only [sweep, on]
        exact ran fuel (by omega)

end Sweep

/-- **The sweep is exact**: it ends without reading past the end, keeps exactly the live nodes and
deletes exactly the others, each once. -/
theorem sweep_exact (live l : List P) (nodup : l.Nodup) : ∃ s,
    (∀ fuel, l.length < fuel → sweep live fuel (.start l) = some s) ∧
    s.retireList.Perm (l.filter fun p => p ∈ live) ∧
    s.deleted.Perm (l.filter fun p => p ∉ live) ∧ s.deleted.Nodup := by
  obtain ⟨s, swept, kept, ran⟩ := (Sweep.swept_start live l).ends
  have stays : (s.deleted ++ s.retireList).filter (fun p => p ∈ live) = s.retireList := by
    rw [List.filter_append, List.filter_eq_nil_iff.2, List.nil_append, List.filter_eq_self.2]
    · intro p member
      exact decide_eq_true (kept p member)
    · intro p member isLive
      exact swept.deleted p member (of_decide_eq_true isLive)
  have goes : (s.deleted ++ s.retireList).filter (fun p => p ∉ live) = s.deleted := by
    rw [List.filter_append, List.filter_eq_self.2, List.filter_eq_nil_iff.2, List.append_nil]
    · intro p member isDead
      exact of_decide_eq_true isDead (kept p member)
    · intro p member
      exact decide_eq_true (swept.deleted p member)
  have left := swept.parts.filter fun p => p ∈ live
  have gone := swept.parts.filter fun p => p ∉ live
  rw [stays] at left
  rw [goes] at gone
  exact ⟨s, ran, left.symm, gone.symm, gone.nodup_iff.1 (nodup.filter _)⟩

/-- Dead nodes at both ends. -/
theorem sweep_exact_ends : ∃ s, (∀ fuel, 4 < fuel → sweep [2, 4] fuel (.start [1, 2, 3, 5]) = some s) ∧
    s.retireList.Perm [2] ∧ s.deleted.Perm [1, 3, 5] ∧ s.deleted.Nodup :=
  sweep_exact [2, 4] [1, 2, 3, 5] (by decide)

/-! ## The machine -/

/-- What the loop sees of the record list. -/
def HazardPointers.sweeping (h : HazardPointers P) (this iter : Nat) : Sweep P :=
  ⟨(h.record this).retireList, iter, h.deleted⟩

/-- A round of the loop is a step of the machine. -/
theorem plan_sweep {K this i : Nat} {rd : C → P} {h : HazardPointers P} {helping : Option Nat}
    {live : List P} (inside : i ≤ (h.record this).retireList.length) :
    ∃ e pc, plan K rd h (.sweep this helping live i) = some (e, .goto pc) ∧
      ((∃ i', pc = .sweep this helping live i' ∧
          (h.sweeping this i).iterate live = .again ((h.apply e).sweeping this i')) ∨
       (pc = afterScan this helping ∧ ∃ i',
          (h.sweeping this i).iterate live = .leave ((h.apply e).sweeping this i'))) := by
  have deletes : ∀ p, (h.record this).retireList[i]? = some p →
      (h.sweeping this i).swapDelete = (h.apply (.delete this i)).sweeping this i := by
    intro p found
    rw [Sweep.swapDelete_eq (s := h.sweeping this i) found]
    simp [HazardPointers.sweeping, HazardPointers.apply, HazardPointers.modify, found]
  rcases Sweep.iterate_cases (s := h.sweeping this i) live inside with
    ⟨atEnd, out⟩ | ⟨p, found, ⟨isLive, on⟩ | ⟨isDead, last, out⟩ | ⟨isDead, before, on⟩⟩
  · have none_ : (h.record this).retireList[i]? = none :=
      List.getElem?_eq_none (le_of_eq atEnd.symm)
    exact ⟨.none, _, by simp only [plan, none_], .inr ⟨rfl, i, out⟩⟩
  · have found : (h.record this).retireList[i]? = some p := found
    exact ⟨.none, _, by simp only [plan, found, if_pos isLive], .inl ⟨i + 1, rfl, on⟩⟩
  · have found : (h.record this).retireList[i]? = some p := found
    have last : i + 1 = (h.record this).retireList.length := last
    refine ⟨.delete this i, _, by simp only [plan, found, if_neg isDead, if_pos last], .inr ⟨rfl, i, ?_⟩⟩
    rw [← deletes p found]
    exact out
  · have found : (h.record this).retireList[i]? = some p := found
    have before : i + 1 < (h.record this).retireList.length := before
    refine ⟨.delete this i, _, by simp only [plan, found, if_neg isDead, if_neg before.ne],
      .inl ⟨i, rfl, ?_⟩⟩
    rw [← deletes p found]
    exact on

end Ccmetrics.Hazard
