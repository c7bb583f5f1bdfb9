/-
# Hazard.Emptied -- what `~HazardPointers` has deleted when it is done

`scan` and `helpScan` only move nodes between the retire lists and the deleted ones, so nothing
is ever deleted that was not given to `retireNode` (`Within`). When every record has been retired
the destructor empties all lists: the deleted nodes are then exactly the retired ones (`emptied`).
-/
import Ccmetrics.Hazard.Destroy

namespace Ccmetrics.Hazard

set_option autoImplicit false
set_option linter.unusedSectionVars false

section Cleaning

variable {P : Type} [DecidableEq P] [Inhabited P] {K : Nat}
variable {h : HazardPointers P} {pc : PC P Empty} {e : Effect P} {nx : Next P Empty}
variable {given : List P}

/-- Every node on a list and every deleted node is among the given ones. -/
structure Within (given : List P) (h : HazardPointers P) : Prop where
  listed : ∀ r, ∀ p ∈ (h.record r).retireList, p ∈ given
  deleted : ∀ p ∈ h.deleted, p ∈ given

theorem Within.after (within : Within given h) (access : Access K Empty.elim h pc e nx)
    (inside : pc.cleaning = true) : Within given (h.apply e) := by
  have kinds := (access_cleaning access inside).2
  constructor
  · intro r p member
    rcases HazardPointers.mem_apply_retireList access member with old | isPush | ⟨hp, -, old⟩
    · exact within.listed r p old
    · rcases kinds with rfl | ⟨hp, rfl⟩ | ⟨hp, rfl⟩ | ⟨hp, this, rfl⟩ | ⟨this, i, rfl⟩ <;>
        cases isPush
    · exact within.listed hp p old
  · intro p member
    rw [HazardPointers.apply_deleted] at member
    split at member
    · obtain ⟨helping, live, node, -, found, -⟩ := access_delete access
      rw [List.mem_append, List.mem_singleton, List.getD_eq_getElem?_getD, found,
        Option.getD_some] at member
      rcases member with old | rfl
      · exact within.deleted p old
      · exact within.listed _ p (List.mem_of_getElem? found)
    · exact within.deleted p member

theorem Within.advance {x y : HazardPointers P × PC P Empty} (within : Within given x.1)
    (inside : x.2.cleaning = true ∨ x.2 = .idle) (taken : Hazard.advance K x = some y) :
    Within given y.1 ∧ (y.2.cleaning = true ∨ y.2 = .idle) := by
  obtain ⟨⟨e, nx⟩, planned, rfl⟩ := Option.map_eq_some_iff.1 taken
  have access := access_of_plan planned
  have busy : x.2.cleaning = true := inside.resolve_right fun idle => by
    rw [idle] at planned
    cases planned
  exact ⟨within.after access busy, (access_cleaning access busy).1⟩

theorem Within.runUntil {x y : HazardPointers P × PC P Empty} {done : _ → Bool} {n : Nat}
    (within : Within given x.1) (inside : x.2.cleaning = true ∨ x.2 = .idle)
    (ran : Theory.runUntil (Hazard.advance K) done n x = some y) : Within given y.1 := by
  induction n generalizing x with
  | zero =>
      simp only [Theory.runUntil] at ran
      split at ran
      · exact Option.some.inj ran ▸ within
      · cases ran
  | succ n ih =>
      simp only [Theory.runUntil] at ran
      split at ran
      · exact Option.some.inj ran ▸ within
      · obtain ⟨mid, taken, ran⟩ := Option.bind_eq_some_iff.1 ran
        obtain ⟨within', inside'⟩ := within.advance inside taken
        exact ih within' inside' ran

end Cleaning

namespace Sys

variable {T P C : Type} [DecidableEq T] [DecidableEq P] [Inhabited P] {K : Nat} {s : Sys T P C}

/-- If every record has been retired, the destructor deletes the retired nodes and no others. -/
theorem Orderly.emptied (orderly : s.Orderly K) (distinct : s.retired.Nodup)
    (inactive : ∀ r < s.pool.fresh, (s.pool.record r).active = false) :
    ∃ fuel h', s.pool.destructor K fuel = some (h', s.pool.records) ∧
      h'.deleted.Perm s.retired := by
  have within : Within s.retired s.pool := ⟨orderly.conserved.listed, orderly.conserved.removed⟩
  cases head : s.pool.head with
  | none =>
      have empty : s.pool.records = [] := by simp [HazardPointers.records, head]
      refine ⟨0, s.pool, by simp [HazardPointers.destructor, head, empty], ?_⟩
      refine (List.perm_ext_iff_of_nodup orderly.conserved.intact.deleted distinct).2 fun p => ?_
      refine ⟨within.deleted p, fun given => ?_⟩
      refine (orderly.stored inactive given).resolve_left ?_
      rintro ⟨r, listed⟩
      have member := orderly.vacant.stocked r (List.ne_nil_of_mem listed)
      rw [orderly.row.listed_iff, empty] at member
      exact List.not_mem_nil member
  | some first =>
      obtain ⟨n, h₁, helped, done⟩ := helpScan_ends (K := K) (orderly.closing inactive head)
      have within₁ : Within s.retired h₁ := within.runUntil (.inl rfl) helped
      obtain ⟨m, h₂, scanned, final, empty⟩ := scan_ends (K := K) done.closing.scan fun r other => by
        by_contra stocked
        have member := done.closing.stocked r stocked
        exact stocked (done.drained r member other (HazardPointers.left_pos member))
      have within₂ : Within s.retired h₂ := within₁.runUntil (.inl rfl) scanned
      refine ⟨max n m, h₂, ?_, ?_⟩
      · simp only [HazardPointers.destructor, head,
          Theory.runUntil_mono helped (Nat.le_max_left n m), Option.bind_some,
          Theory.runUntil_mono scanned (Nat.le_max_right n m), Option.map_some, final.same]
      · refine (List.perm_ext_iff_of_nodup final.intact.deleted distinct).2 fun p => ?_
        refine ⟨within₂.deleted p, fun given => ?_⟩
        refine (final.kept p given).resolve_left ?_
        rintro ⟨r, listed⟩
        rw [empty r] at listed
        exact List.not_mem_nil listed

end Sys

end Ccmetrics.Hazard
