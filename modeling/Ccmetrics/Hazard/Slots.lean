/-
# Hazard.Slots -- the slots of a thread's own record

`mine` reads a slot of the record that a thread has; a thread without a record has nothing in
any slot. Other threads do not write these slots (`mine_other`), the thread itself writes the slot
its call is for (`mine_kept`, `mine_set`), and a record comes with all of its slots null
(`mine_allocated`).
-/
import Ccmetrics.Hazard.Holding
import Ccmetrics.Hazard.Records

namespace Ccmetrics.Hazard.Sys

set_option autoImplicit false
set_option linter.unusedSectionVars false

variable {T P C : Type} [DecidableEq T] [DecidableEq P] [Inhabited P]
variable {K : Nat} {rd : C → P} {s s' : Sys T P C} {t u : T} {k : Nat}
variable {e : Effect P} {nx : Next P C}

/-- What is in slot `k` of the record that `t` has. -/
def mine (s : Sys T P C) (t : T) (k : Nat) : P :=
  match s.own t with
  | some r => s.slot r k
  | none => default

theorem mine_none (without : s.own t = none) : s.mine t k = default := by
  unfold mine
  rw [without]

theorem mine_some {r : Nat} (has : s.own t = some r) : s.mine t k = s.slot r k := by
  unfold mine
  rw [has]

/-- An access that does not write the slot. -/
theorem slot_unwritten {r : Nat} (born : r < s.pool.fresh) (unwritten : ∀ v, e ≠ .slot r k v) :
    (s.after u e nx).slot r k = s.slot r k := by
  unfold slot
  rw [after_pool, HazardPointers.apply_pointers]
  cases e with
  | slot hp j value =>
      refine if_neg ?_
      rintro ⟨rfl, rfl⟩
      exact unwritten value rfl
  | create => simp only [Nat.ne_of_lt born, if_false]
  | _ => rfl

theorem mine_other (owned : s.Owned) {q : Option (Ret P)} (stepped : s.step K rd u = some (s', q))
    (other : t ≠ u) : s'.mine t k = s.mine t k := by
  obtain ⟨e, nx, access, rfl, -⟩ := step_access stepped
  have kept : (s.after u e nx).own t = s.own t := after_own_other other
  cases has : s.own t with
  | none => rw [mine_none has, mine_none (kept.trans has)]
  | some r =>
      rw [mine_some has, mine_some (kept.trans has)]
      refine slot_unwritten (owned.bounded t r (.inl has)) fun v => ?_
      rintro rfl
      have on := owned.this u r (access_slot access)
      exact other (owned.exclusive t u r (.inl has) (.inl on))

/-- A call writes the slot it is for, and no other. -/
theorem mine_kept (owned : s.Owned) {c : Call P C} (runs : c.Runs (s.pc t))
    {q : Option (Ret P)} (stepped : s.step K rd t = some (s', q)) (notSlot : c.slot? ≠ some k)
    (notAllocate : c ≠ .allocate) (notRetire : c ≠ .retire) : s'.mine t k = s.mine t k := by
  obtain ⟨e, nx, access, rfl, -⟩ := step_access stepped
  have kept : (s.after t e nx).own t = s.own t := by
    rw [after_own_self, runs_own runs access notAllocate notRetire]
  cases has : s.own t with
  | none => rw [mine_none has, mine_none (kept.trans has)]
  | some r =>
      rw [mine_some has, mine_some (kept.trans has)]
      refine slot_unwritten (owned.bounded t r (.inl has)) fun v => ?_
      rintro rfl
      exact (runs_slot runs access).elim notSlot notRetire

/-- `setHazard` is one access, and stores its argument. -/
theorem mine_set (owned : s.Owned) {value : P} (runs : (Call.setHazard k value : Call P C).Runs (s.pc t))
    {q : Option (Ret P)} (stepped : s.step K rd t = some (s', q)) :
    s'.mine t k = value ∧ q = some .unit := by
  obtain ⟨e, nx, access, rfl, last⟩ := step_access stepped
  cases pc : s.pc t with
  | setSlot this j v =>
      rw [pc] at runs access
      obtain ⟨rfl, rfl⟩ := runs
      have has : s.own t = some this := owned.this t this (by rw [pc]; rfl)
      cases access
      have has' : (s.after t (.slot this j v) (.ret .unit)).own t = some this := by
        rw [after_own_self]
        exact has
      refine ⟨?_, (last _).2 rfl⟩
      rw [mine_some has', slot, after_pool, HazardPointers.apply_pointers]
      exact if_pos ⟨rfl, rfl⟩
  | _ => rw [pc] at runs; exact runs.elim

theorem access_allocating_slot {h : HazardPointers P} {pc : PC P C} {r : Nat} {v : P}
    (access : Access K rd h pc (.slot r k v) nx) : pc.allocating = false := by
  cases access <;> rfl

/-- `allocate` hands out a record with null slots. -/
theorem mine_allocated (orderly : s.Orderly K) (inside : (s.pc t).allocating = true)
    {q : Option (Ret P)} (stepped : s.step K rd t = some (s', q)) : s'.mine t k = default := by
  have none_ := orderly.vacant.allocating t inside
  by_contra written
  cases has : s'.own t with
  | none => exact written (mine_none has)
  | some hp =>
      rw [mine_some has] at written
      obtain ⟨e, nx, access, rfl, last⟩ := step_access stepped
      rcases slot_after written with ⟨before, -⟩ | ⟨v, rfl⟩
      · -- the slot was set before, so the record had an owner, who is the one that allocates now
        obtain ⟨u, mine⟩ := orderly.vacant.owned hp k before
        have after := (orderly.step (.access s t rd _ q stepped)).owned
        by_cases same : u = t
        · rw [same, none_] at mine
          cases mine
        · have still : (s.after t e nx).own u = some hp := (after_own_other same).trans mine
          exact same (after.exclusive u t hp (.inl still) (.inl has))
      · rw [access_allocating_slot access] at inside
        cases inside

end Ccmetrics.Hazard.Sys
