/-
# Hazard.Holding -- what a thread has in its slots

`Holding t k p` says that slot `k` of the record of `t` covers the node `p`, so that `scan` has
not deleted it (`Holding.not_deleted`). It comes about by a load of a node that is not retired,
by storing such a node, or by storing a node that a smaller slot covers, and it goes on until
the thread itself writes the slot or gives its record back.
-/
import Ccmetrics.Hazard.Calls
import Ccmetrics.Hazard.Cover

namespace Ccmetrics.Hazard

set_option autoImplicit false
set_option linter.unusedSectionVars false

/-- The slot that a call writes. -/
def Call.slot? {P C : Type} : Call P C → Option Nat
  | .setHazard k _ | .loadAndSetHazard _ k | .loadAndSetHazardOrFail _ k => some k
  | _ => none

namespace Sys

variable {T P C : Type} [DecidableEq T] [DecidableEq P] [Inhabited P]
variable {K : Nat} {rd cells : C → P} {s s' : Sys T P C} {t u : T} {k : Nat} {p : P}
variable {e : Effect P} {nx : Next P C}

def Holding (s : Sys T P C) (t : T) (k : Nat) (p : P) : Prop :=
  ∃ r, s.own t = some r ∧ s.slot r k = p ∧ s.held r k = true

theorem Holding.not_deleted (holding : s.Holding t k p) (covered : s.Covered K cells) :
    p ∉ s.pool.deleted := by
  obtain ⟨r, -, holds, held⟩ := holding
  intro gone
  exact (covered.gone p gone).2 r k held holds

/-- Entering a member function changes no slot. -/
theorem Holding.call (holding : s.Holding t k p) (c : Call P C) : (s.call u c).Holding t k p :=
  holding

/-- A call writes no slot but its own. -/
theorem runs_slot {h : HazardPointers P} {c : Call P C} {pc : PC P C} {r j : Nat} {value : P}
    (runs : c.Runs pc) (access : Access K rd h pc (.slot r j value) nx) :
    c.slot? = some j ∨ c = .retire := by
  cases access with
  | retireClear => cases c <;> first | exact runs.elim | exact .inr rfl
  | setSlot this k value =>
      cases c <;> first | exact runs.elim | exact .inl (congrArg some runs.1.symm)
  | loadSet this once c' k cur =>
      cases c <;> first | exact runs.elim | exact .inl (congrArg some runs.2.2.symm)
  | loadClear this k =>
      cases c <;> first | exact runs.elim | exact .inl (congrArg some (Eq.symm runs))

/-- A call other than `allocate` and `retire` leaves the thread its record. -/
theorem runs_own {h : HazardPointers P} {c : Call P C} {pc : PC P C} (runs : c.Runs pc)
    (access : Access K rd h pc e nx) (notAllocate : c ≠ .allocate) (notRetire : c ≠ .retire)
    (own : Option Nat) : nx.own own = own := by
  have onwards := runs_access runs access
  cases nx with
  | goto pc => rfl
  | ret r =>
      cases r with
      | record hp => cases c <;> first | exact absurd rfl notAllocate | exact onwards.elim
      | released => cases c <;> first | exact absurd rfl notRetire | exact onwards.elim
      | _ => rfl

theorem Holding.access (holding : s.Holding t k p) (owned : s.Owned)
    (access : Access K rd s.pool (s.pc u) e nx)
    (apart : u = t → ∃ c : Call P C, c.Runs (s.pc t) ∧ c.slot? ≠ some k ∧ c ≠ .allocate ∧
      c ≠ .retire) :
    (s.after u e nx).Holding t k p := by
  obtain ⟨r, mine, holds, held⟩ := holding
  have keptOwn : (s.after u e nx).own t = some r := by
    by_cases same : u = t
    · subst same
      obtain ⟨c, runs, -, notAllocate, notRetire⟩ := apart rfl
      rw [after_own_self, runs_own runs access notAllocate notRetire, mine]
    · rw [after_own_other (Ne.symm same), mine]
  have bounded : r ≠ s.pool.fresh := Nat.ne_of_lt (owned.bounded t r (.inl mine))
  have unwritten : ∀ value, e ≠ .slot r k value := by
    rintro value rfl
    have isU : u = t := by
      have onRecord := owned.this u r (access_slot access)
      exact owned.exclusive u t r (.inl onRecord) (.inl mine)
    subst isU
    obtain ⟨c, runs, other, -, notRetire⟩ := apart rfl
    exact (runs_slot runs access).elim other notRetire
  refine ⟨r, keptOwn, ?_, ?_⟩
  · rw [slot, after_pool, HazardPointers.apply_pointers]
    cases e with
    | slot hp j value =>
        have ne : ¬ (r = hp ∧ k = j) := by
          rintro ⟨rfl, rfl⟩
          exact unwritten value rfl
        simp only [ne, if_false]
        exact holds
    | create =>
        simp only [bounded, if_false]
        exact holds
    | _ => exact holds
  · rw [after_held]
    cases e with
    | slot hp j value =>
        have ne : ¬ (r = hp ∧ k = j) := by
          rintro ⟨rfl, rfl⟩
          exact unwritten value rfl
        simpa only [Sys.apply, ne, if_false] using held
    | _ => exact held

/-- A slot stays as it is until its own thread writes it. -/
theorem Holding.step (holding : s.Holding t k p) (owned : s.Owned) {q : Option (Ret P)}
    (stepped : s.step K rd u = some (s', q))
    (apart : u = t → ∃ c : Call P C, c.Runs (s.pc t) ∧ c.slot? ≠ some k ∧ c ≠ .allocate ∧
      c ≠ .retire) :
    s'.Holding t k p := by
  obtain ⟨e, nx, access, rfl, -⟩ := step_access stepped
  exact holding.access owned access apart

/-- `setHazard` covers a node that is not retired, or that a smaller slot covers. -/
theorem holding_set (owned : s.Owned) (runs : (Call.setHazard k p : Call P C).Runs (s.pc t))
    {q : Option (Ret P)} (stepped : s.step K rd t = some (s', q))
    (covers : p ∉ s.retired ∨ ∃ i < k, s.Holding t i p) : s'.Holding t k p := by
  obtain ⟨e, nx, access, rfl, -⟩ := step_access stepped
  cases pc : s.pc t with
  | setSlot this j value =>
      rw [pc] at runs access
      obtain ⟨rfl, rfl⟩ := runs
      have mine : s.own t = some this := owned.this t this (by rw [pc]; rfl)
      cases access
      refine ⟨this, by rw [after_own_self]; exact mine, ?_, ?_⟩
      · rw [slot, after_pool, HazardPointers.apply_pointers]
        simp
      · simp only [after_held, Sys.apply, and_self, if_true, Sys.covers, Bool.or_eq_true,
          Bool.and_eq_true, decide_eq_true_eq, List.any_eq_true, List.mem_range]
        rcases covers with fresh | ⟨i, below, r, mine', holds, held⟩
        · exact .inl (.inl fresh)
        · obtain rfl := Option.some.inj (mine.symm.trans mine')
          exact .inr ⟨i, below, held, holds⟩
  | _ => rw [pc] at runs; exact runs.elim

/-- A load covers the node that it returns, if that is not retired. -/
theorem holding_load (owned : s.Owned) (covered : s.Covered K cells) {c : Call P C}
    (runs : c.Runs (s.pc t)) (isSlot : c.slot? = some k)
    (stepped : s.step K rd t = some (s', some (.value p))) (fresh : p ∉ s.retired) :
    s'.Holding t k p := by
  obtain ⟨e, nx, access, rfl, last⟩ := step_access stepped
  obtain rfl := (last _).1 rfl
  generalize running : s.pc t = pc at runs access
  generalize returned : (Next.ret (.value p) : Next P C) = nx at access
  cases access with
  | loadSame this once cell j =>
      cases returned
      have same : j = k := by
        cases c <;> first | exact runs.elim | exact runs.2.2.trans (Option.some.inj isSlot)
      subst same
      have mine : s.own t = some this := owned.this t this (by rw [running]; rfl)
      have holds := covered.loaded t this once cell j _ running
      exact ⟨this, by rw [after_own_self]; exact mine, holds, covered.early this j (holds ▸ fresh)⟩
  | allocHead | allocBusy | allocLost =>
      simp only [walkAlloc] at returned
      split at returned <;> cases returned
  | helpHead | helpSkip | helpUnlock =>
      simp only [walkHelp] at returned
      split at returned <;> cases returned
  | _ => cases returned

end Sys

end Ccmetrics.Hazard
