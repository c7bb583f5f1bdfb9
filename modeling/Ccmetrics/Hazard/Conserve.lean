/-
# Hazard.Conserve -- a retired node is in one place

From the call of `retireNode` on, a node is about to be pushed by one thread, or on one retire
list, or deleted, and only in one of these places and only once (`Conserved`). `scan` deletes
from its own list and `helpScan` moves from a list it has locked to its own, one node at a time.
-/
import Mathlib.Data.List.Nodup
import Ccmetrics.Hazard.Cover

namespace Ccmetrics.Hazard

set_option autoImplicit false
set_option linter.unusedSectionVars false

section Lists

variable {P : Type} [DecidableEq P] [Inhabited P]

/-- Swapping an element with the last one and popping removes just that element. -/
theorem swapPop_perm {l : List P} {i : Nat} {p : P} (found : l[i]? = some p) :
    l.Perm (p :: swapPop l i) := by
  have nonempty : l ≠ [] := by rintro rfl; cases found
  obtain ⟨init, last, rfl⟩ : ∃ init last, l = init ++ [last] :=
    ⟨l.dropLast, l.getLast nonempty, (List.dropLast_append_getLast nonempty).symm⟩
  simp only [swapPop, List.getLastD_concat]
  by_cases inside : i < init.length
  · rw [List.getElem?_append_left inside] at found
    obtain ⟨first, rest, rfl, rfl⟩ : ∃ first rest, init = first ++ p :: rest ∧ i = first.length := by
      refine ⟨init.take i, init.drop (i + 1), ?_, ?_⟩
      · rw [← Option.some.inj ((List.getElem?_eq_getElem inside).symm.trans found),
          ← List.drop_eq_getElem_cons inside, List.take_append_drop]
      · rw [List.length_take, Nat.min_eq_left (Nat.le_of_lt inside)]
    have set : (first ++ p :: rest ++ [last]).set first.length last = first ++ last :: rest ++ [last] := by
      simp
    rw [set, List.dropLast_concat]
    have moved : (rest ++ [last]).Perm (last :: rest) := List.perm_append_singleton last rest
    have front : (first ++ p :: rest ++ [last]).Perm (p :: (first ++ (rest ++ [last]))) := by
      rw [List.append_assoc]
      exact List.perm_middle
    exact front.trans ((moved.append_left first).cons p)
  · have atLast : i = init.length := by
      have := (List.getElem?_eq_some_iff.1 found).1
      rw [List.length_append, List.length_singleton] at this
      omega
    subst atLast
    have isLast : last = p := by simpa using found
    subst isLast
    have set : (init ++ [last]).set init.length last = init ++ [last] := by simp
    rw [set, List.dropLast_concat]
    exact List.perm_append_singleton last init

theorem mem_swapPop_iff {l : List P} {i : Nat} {p q : P} (nodup : l.Nodup)
    (found : l[i]? = some p) : q ∈ swapPop l i ↔ q ∈ l ∧ q ≠ p := by
  have perm := swapPop_perm found
  have apart := (List.nodup_cons.1 (perm.nodup_iff.1 nodup)).1
  rw [perm.mem_iff, List.mem_cons]
  constructor
  · intro member
    exact ⟨.inr member, by rintro rfl; exact apart member⟩
  · rintro ⟨rfl | member, ne⟩
    · exact absurd rfl ne
    · exact member

theorem mem_dropLast_iff {l : List P} {q : P} (nodup : l.Nodup) (nonempty : l ≠ []) :
    q ∈ l.dropLast ↔ q ∈ l ∧ q ≠ l.getLastD default := by
  obtain ⟨init, last, rfl⟩ : ∃ init last, l = init ++ [last] :=
    ⟨l.dropLast, l.getLast nonempty, (List.dropLast_append_getLast nonempty).symm⟩
  have apart : last ∉ init := by
    intro member
    exact (List.nodup_append.1 nodup).2.2 last member last (List.mem_singleton_self last) rfl
  simp only [List.dropLast_concat, List.getLastD_concat, List.mem_append, List.mem_singleton]
  constructor
  · intro member
    exact ⟨.inl member, by rintro rfl; exact apart member⟩
  · rintro ⟨member | rfl, ne⟩
    · exact member
    · exact absurd rfl ne

end Lists

namespace HazardPointers

variable {P C : Type} [DecidableEq P] [Inhabited P]
variable {K : Nat} {rd : C → P} {h : HazardPointers P} {pc : PC P C}
variable {e : Effect P} {nx : Next P C}

/-- Every listed or deleted node is in one place and there once. -/
structure Intact (h : HazardPointers P) : Prop where
  lists : ∀ r, (h.record r).retireList.Nodup
  apart : ∀ r r' p, p ∈ (h.record r).retireList → p ∈ (h.record r').retireList → r = r'
  deleted : h.deleted.Nodup
  gone : ∀ p ∈ h.deleted, ∀ r, p ∉ (h.record r).retireList
  unborn : ∀ r, h.fresh ≤ r → (h.record r).retireList = []

theorem access_move_nonempty {hp this : Nat} (access : Access K rd h pc (.move hp this) nx) :
    (h.record hp).retireList ≠ [] := by
  cases access
  assumption

/-- Which nodes are on which list after an access. -/
theorem Intact.mem_after (intact : h.Intact) (access : Access K rd h pc e nx)
    (other : ∀ hp this, e = .move hp this → hp ≠ this) (r : Nat) (p : P) :
    p ∈ ((h.apply e).record r).retireList ↔
      (match e with
      | .push hp node => p ∈ (h.record r).retireList ∨ (r = hp ∧ p = node)
      | .move hp this =>
          (p ∈ (h.record r).retireList ∧
            p ≠ (h.record hp).retireList.getLastD default) ∨
          (r = this ∧ p = (h.record hp).retireList.getLastD default)
      | .delete this i => p ∈ (h.record r).retireList ∧
          p ≠ (h.record this).retireList.getD i default
      | _ => p ∈ (h.record r).retireList) := by
  rw [HazardPointers.apply_retireList]
  cases e with
  | push hp node => by_cases same : r = hp <;> simp [same]
  | move hp this =>
      have nonempty := access_move_nonempty access
      have inHp := getLastD_mem nonempty
      have ne : hp ≠ this := other hp this rfl
      by_cases isHp : r = hp
      · subst isHp
        simp only [if_true, ne, if_false, false_and, or_false]
        exact mem_dropLast_iff (intact.lists r) nonempty
      · have other : p ∈ (h.record r).retireList →
            p ≠ (h.record hp).retireList.getLastD default := by
          rintro member rfl
          exact isHp (intact.apart r hp _ member inHp)
        have stays : p ∈ (h.record r).retireList ↔ p ∈ (h.record r).retireList ∧
            p ≠ (h.record hp).retireList.getLastD default :=
          ⟨fun member => ⟨member, other member⟩, fun both => both.1⟩
        by_cases isThis : r = this
        · simp only [isThis, if_true, if_neg ne.symm, true_and, List.mem_append,
            List.mem_singleton]
          rw [isThis] at stays
          exact or_congr_left stays
        · simp only [isHp, isThis, if_false, false_and, or_false]
          exact stays
  | delete this i =>
      obtain ⟨helping, live, node, -, found, -⟩ := access_delete access
      have isNode : (h.record this).retireList.getD i default = node := by simp [found]
      simp only [isNode]
      by_cases isThis : r = this
      · subst isThis
        simp only [if_true]
        exact mem_swapPop_iff (intact.lists r) found
      · simp only [isThis, if_false]
        refine ⟨fun member => ⟨member, ?_⟩, fun both => both.1⟩
        rintro rfl
        exact isThis (intact.apart r this p member (List.mem_of_getElem? found))
  | create =>
      by_cases isNew : r = h.fresh
      · simp [isNew, intact.unborn h.fresh (Nat.le_refl _)]
      · simp [isNew]
  | _ => rfl

/-- An access leaves a list without duplicates. -/
theorem Intact.nodup_after (intact : h.Intact) (access : Access K rd h pc e nx)
    (other : ∀ hp this, e = .move hp this → hp ≠ this)
    (new : ∀ hp node, e = .push hp node → ∀ r, node ∉ (h.record r).retireList) (r : Nat) :
    ((h.apply e).record r).retireList.Nodup := by
  have before := intact.lists r
  rw [HazardPointers.apply_retireList]
  cases e with
  | push hp node =>
      by_cases same : r = hp
      · simp only [same, if_true]
        rw [same] at before
        exact List.Nodup.append before (List.nodup_singleton node)
          (by simpa using new hp node rfl hp)
      · simpa only [same, if_false] using before
  | move hp this =>
      have nonempty := access_move_nonempty access
      have ne : hp ≠ this := other hp this rfl
      by_cases isHp : r = hp
      · simp only [isHp, if_true, ne, if_false]
        exact (intact.lists hp).sublist (List.dropLast_sublist _)
      · simp only [isHp, if_false]
        by_cases isThis : r = this
        · simp only [isThis, if_true]
          rw [isThis] at before
          refine List.Nodup.append before (List.nodup_singleton _) ?_
          simp only [List.disjoint_singleton]
          exact fun member => ne (intact.apart hp this _ (getLastD_mem nonempty) member)
        · simpa only [isThis, if_false] using before
  | delete this i =>
      obtain ⟨helping, live, node, -, found, -⟩ := access_delete access
      by_cases isThis : r = this
      · subst isThis
        simp only [if_true]
        exact (List.nodup_cons.1 ((swapPop_perm found).nodup_iff.1 before)).2
      · simpa only [isThis, if_false] using before
  | create =>
      by_cases isNew : r = h.fresh
      · simp [isNew]
      · simpa only [isNew, if_false] using before
  | _ => exact before

/-- A node is in one place after an access, too, if a pushed node was in none before. -/
theorem Intact.after (intact : h.Intact) (access : Access K rd h pc e nx)
    (other : ∀ hp this, e = .move hp this → hp ≠ this)
    (new : ∀ hp node, e = .push hp node →
      node ∉ h.deleted ∧ ∀ r, node ∉ (h.record r).retireList)
    (born : ∀ this, (∃ hp, e = .move hp this) ∨ (∃ node, e = .push this node) → this < h.fresh) :
    (h.apply e).Intact := by
  have members := intact.mem_after access other
  constructor
  case lists => exact intact.nodup_after access other fun hp node pushed => (new hp node pushed).2
  case apart =>
      intro r r' p first second
      rw [members] at first second
      cases e with
      | push hp node =>
          obtain ⟨-, absent⟩ := new hp node rfl
          rcases first with first | ⟨rfl, rfl⟩ <;> rcases second with second | ⟨rfl, same⟩
          · exact intact.apart r r' p first second
          · exact absurd first (same ▸ absent r)
          · exact absurd second (absent r')
          · rfl
      | move hp this =>
          rcases first with first | ⟨rfl, rfl⟩ <;> rcases second with second | ⟨rfl, same⟩
          · exact intact.apart r r' p first.1 second.1
          · exact absurd same first.2
          · exact absurd rfl second.2
          · rfl
      | delete this i => exact intact.apart r r' p first.1 second.1
      | _ => exact intact.apart r r' p first second
  case deleted =>
      rw [HazardPointers.apply_deleted]
      cases e with
      | delete this i =>
          obtain ⟨helping, live, node, -, found, -⟩ := access_delete access
          have isNode : (h.record this).retireList.getD i default = node := by simp [found]
          simp only [isNode]
          refine List.Nodup.append intact.deleted (List.nodup_singleton node) ?_
          simp only [List.disjoint_singleton]
          exact fun gone => intact.gone node gone this (List.mem_of_getElem? found)
      | _ => exact intact.deleted
  case gone =>
      intro p gone r member
      rw [HazardPointers.apply_deleted] at gone
      rw [members] at member
      cases e with
      | push hp node =>
          rcases member with member | ⟨-, rfl⟩
          · exact intact.gone p gone r member
          · exact (new hp p rfl).1 gone
      | move hp this =>
          rcases member with member | ⟨-, rfl⟩
          · exact intact.gone p gone r member.1
          · exact intact.gone _ gone hp (getLastD_mem (access_move_nonempty access))
      | delete this i =>
          rcases List.mem_append.1 gone with old | new
          · exact intact.gone p old r member.1
          · exact member.2 (List.mem_singleton.1 new)
      | _ => exact intact.gone p gone r member
  case unborn =>
      intro r unborn
      have before := intact.unborn r (Nat.le_trans (HazardPointers.fresh_le_apply e) unborn)
      have small : ∀ this, this < h.fresh → r ≠ this := by
        rintro this isBorn rfl
        exact Nat.lt_irrefl _ (Nat.lt_of_lt_of_le isBorn
          (Nat.le_trans (HazardPointers.fresh_le_apply e) unborn))
      rw [List.eq_nil_iff_forall_not_mem] at before ⊢
      intro p member
      rw [members] at member
      cases e with
      | push hp node =>
          rcases member with member | ⟨same, -⟩
          · exact before p member
          · exact small hp (born hp (.inr ⟨node, rfl⟩)) same
      | move hp this =>
          rcases member with member | ⟨same, -⟩
          · exact before p member.1
          · exact small this (born this (.inl ⟨hp, rfl⟩)) same
      | delete this i => exact before p member.1
      | _ => exact before p member

end HazardPointers

namespace Sys

variable {T P C : Type} [DecidableEq T] [DecidableEq P] [Inhabited P]
variable {K : Nat} {rd cells : C → P} {s s' : Sys T P C} {t u : T}
variable {e : Effect P} {nx : Next P C}

structure Conserved (s : Sys T P C) : Prop where
  intact : s.pool.Intact
  pending : ∀ t this p, s.pc t = .push this p →
    p ∉ s.pool.deleted ∧ ∀ r, p ∉ (s.pool.record r).retireList
  once : ∀ t u this this' p, s.pc t = .push this p → s.pc u = .push this' p → t = u
  kept : ∀ p ∈ s.retired, (∃ t this, s.pc t = .push this p) ∨
    (∃ r, p ∈ (s.pool.record r).retireList) ∨ p ∈ s.pool.deleted
  listed : ∀ r, ∀ p ∈ (s.pool.record r).retireList, p ∈ s.retired
  removed : ∀ p ∈ s.pool.deleted, p ∈ s.retired
  called : ∀ t this p, s.pc t = .push this p → p ∈ s.retired

/-- A helper drains another record than its own. -/
theorem Owned.move_other (owned : s.Owned) (access : Access K rd s.pool (s.pc t) e nx)
    {hp this : Nat} (moved : e = .move hp this) : hp ≠ this := by
  subst moved
  obtain ⟨pc, -⟩ := access_move access
  rintro rfl
  exact owned.apart t hp (by rw [pc]; rfl) (owned.this t hp (by rw [pc]; rfl))

/-- A list grows only by its owner's push or its owner's help. -/
theorem Owned.grower (owned : s.Owned) (access : Access K rd s.pool (s.pc t) e nx) {this : Nat}
    (grown : (∃ hp, e = .move hp this) ∨ ∃ node, e = .push this node) : s.own t = some this := by
  refine owned.this t this ?_
  rcases grown with ⟨hp, rfl⟩ | ⟨node, rfl⟩
  · rw [(access_move access).1]; rfl
  · rw [(access_push access).1]; rfl

/-- A node is in one place after an access, too. -/
theorem Conserved.after (conserved : s.Conserved) (owned : s.Owned)
    (access : Access K rd s.pool (s.pc t) e nx) : (s.after t e nx).Conserved := by
  have members := conserved.intact.mem_after access fun _ _ => owned.move_other access
  have pendingBefore : ∀ u this p, (s.after t e nx).pc u = .push this p →
      s.pc u = .push this p ∧ u ≠ t := by
    intro u this p pending
    by_cases same : u = t
    · rw [same, after_pc_self] at pending
      exact absurd pending (access_not_push access this p)
    · rw [after_pc_other same] at pending
      exact ⟨pending, same⟩
  constructor
  case intact =>
      rw [after_pool]
      refine conserved.intact.after access (fun _ _ => owned.move_other access) ?_ ?_
      · rintro hp node rfl
        exact conserved.pending t hp node (access_push access).1
      · exact fun this grown => owned.bounded t this (.inl (owned.grower access grown))
  case pending =>
      intro u this p pending
      obtain ⟨before, other⟩ := pendingBefore u this p pending
      obtain ⟨alive, unlisted⟩ := conserved.pending u this p before
      rw [after_pool, HazardPointers.apply_deleted]
      refine ⟨?_, fun r member => ?_⟩
      · cases e with
        | delete this' i =>
            obtain ⟨helping, live, node, -, found, -⟩ := access_delete access
            have isNode : (s.pool.record this').retireList.getD i default = node := by simp [found]
            intro gone
            rcases List.mem_append.1 gone with old | new
            · exact alive old
            · rw [isNode, List.mem_singleton] at new
              exact unlisted this' (new ▸ List.mem_of_getElem? found)
        | _ => exact alive
      · rw [members] at member
        cases e with
        | push hp node =>
            obtain ⟨pc, -⟩ := access_push access
            rcases member with member | ⟨-, rfl⟩
            · exact unlisted r member
            · exact other (conserved.once u t this hp p before pc)
        | move hp this' =>
            have nonempty := HazardPointers.access_move_nonempty access
            rcases member with member | ⟨-, rfl⟩
            · exact unlisted r member.1
            · exact unlisted hp (getLastD_mem nonempty)
        | delete this' i => exact unlisted r member.1
        | _ => exact unlisted r member
  case once =>
      intro u v this this' p first second
      exact conserved.once u v this this' p (pendingBefore u this p first).1
        (pendingBefore v this' p second).1
  case kept =>
      intro p retired
      rw [after_retired] at retired
      rw [after_pool, HazardPointers.apply_deleted]
      simp only [members]
      rcases conserved.kept p retired with ⟨u, this, pending⟩ | ⟨r, listed⟩ | gone
      · by_cases same : u = t
        · subst same
          -- the pending push is the access itself
          rw [pending] at access
          cases access
          exact .inr (.inl ⟨this, .inr ⟨rfl, rfl⟩⟩)
        · exact .inl ⟨u, this, by rw [after_pc_other same]; exact pending⟩
      · refine .inr ?_
        cases e with
        | push hp node => exact .inl ⟨r, .inl listed⟩
        | move hp this =>
            by_cases isLast : p = (s.pool.record hp).retireList.getLastD default
            · exact .inl ⟨this, .inr ⟨rfl, isLast⟩⟩
            · exact .inl ⟨r, .inl ⟨listed, isLast⟩⟩
        | delete this i =>
            by_cases isNode : p = (s.pool.record this).retireList.getD i default
            · exact .inr (List.mem_append_right _ (List.mem_singleton.2 isNode))
            · exact .inl ⟨r, listed, isNode⟩
        | _ => exact .inl ⟨r, listed⟩
      · refine .inr (.inr ?_)
        cases e with
        | delete this i => exact List.mem_append_left _ gone
        | _ => exact gone
  case listed =>
      intro r p member
      rw [after_pool] at member
      rw [after_retired]
      rcases HazardPointers.mem_apply_retireList access member with old | rfl | ⟨hp, -, old⟩
      · exact conserved.listed r p old
      · exact conserved.called t r p (access_push access).1
      · exact conserved.listed hp p old
  case removed =>
      intro p gone
      rw [after_pool, HazardPointers.apply_deleted] at gone
      rw [after_retired]
      cases e with
      | delete this i =>
          obtain ⟨helping, live, node, -, found, -⟩ := access_delete access
          have isNode : (s.pool.record this).retireList.getD i default = node := by simp [found]
          rcases List.mem_append.1 gone with old | new
          · exact conserved.removed p old
          · rw [isNode, List.mem_singleton] at new
            exact conserved.listed this p (new ▸ List.mem_of_getElem? found)
      | _ => exact conserved.removed p gone
  case called =>
      intro u this p pending
      rw [after_retired]
      exact conserved.called u this p (pendingBefore u this p pending).1

/-- A node is retired once, so its call finds it in no place. -/
theorem Conserved.call (conserved : s.Conserved) (idle : s.pc t = .idle) {c : Call P C}
    (new : ∀ p, c = .retireNode p → p ∉ s.retired) : (s.call t c).Conserved := by
  have pendingNow : ∀ u this p, (s.call t c).pc u = .push this p →
      s.pc u = .push this p ∨ (u = t ∧ c = .retireNode p) := by
    intro u this p pending
    by_cases same : u = t
    · subst same
      rw [call_pc_self] at pending
      cases c with
      | retireNode node => cases pending; exact .inr ⟨rfl, rfl⟩
      | _ => cases pending
    · rw [call_pc_other c same] at pending
      exact .inl pending
  refine ⟨conserved.intact, ?_, ?_, ?_, ?_, ?_, ?_⟩
  · intro u this p pending
    rcases pendingNow u this p pending with before | ⟨-, isCall⟩
    · exact conserved.pending u this p before
    · exact ⟨fun gone => new p isCall (conserved.removed p gone),
        fun r listed => new p isCall (conserved.listed r p listed)⟩
  · intro u v this this' p first second
    rcases pendingNow u this p first with before | ⟨rfl, isCall⟩ <;>
      rcases pendingNow v this' p second with before' | ⟨rfl, isCall'⟩
    · exact conserved.once u v this this' p before before'
    · exact absurd (conserved.called u this p before) (new p isCall')
    · exact absurd (conserved.called v this' p before') (new p isCall)
    · rfl
  · intro p retired
    rcases mem_call_retired retired with old | rfl
    · rcases conserved.kept p old with ⟨u, this, pending⟩ | stored
      · refine .inl ⟨u, this, ?_⟩
        have other : u ≠ t := by rintro rfl; rw [idle] at pending; cases pending
        rw [call_pc_other c other]
        exact pending
      · exact .inr stored
    · exact .inl ⟨t, _, call_pc_self _⟩
  · exact fun r p listed => retired_subset_call c (conserved.listed r p listed)
  · exact fun p gone => retired_subset_call c (conserved.removed p gone)
  · intro u this p pending
    rcases pendingNow u this p pending with before | ⟨-, rfl⟩
    · exact retired_subset_call c (conserved.called u this p before)
    · exact List.mem_cons_self ..

theorem conserved_init : (init : Sys T P C).Conserved := by
  constructor
  case intact => constructor <;> simp [init, HazardPointer.new]
  all_goals simp [init, HazardPointer.new]

theorem Conserved.step (conserved : s.Conserved) (owned : s.Owned) {r : Option (Ret P)}
    (stepped : s.step K rd t = some (s', r)) : s'.Conserved := by
  obtain ⟨e, nx, access, rfl, -⟩ := step_access stepped
  exact conserved.after owned access

end Sys

end Ccmetrics.Hazard
