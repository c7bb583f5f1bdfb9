/-
# Hazard.Lone -- the only node on a retire list

A thread that retires a node when everything retired before has been deleted has one node on its
list, so its call of `retireNode` does not scan and the node is still there when it returns
(`Lone.step`). Before that, what any access of a call leaves alone.
-/
import Ccmetrics.Hazard.Calls
import Ccmetrics.Hazard.Records

namespace Ccmetrics.Hazard.Sys

set_option autoImplicit false
set_option linter.unusedSectionVars false

variable {T P C : Type} [DecidableEq T] [DecidableEq P] [Inhabited P]
variable {K : Nat} {rd : C → P} {s s' : Sys T P C} {t : T} {p : P} {q : Option (Ret P)}

theorem retired_step (stepped : s.step K rd t = some (s', q)) : s'.retired = s.retired := by
  obtain ⟨e, nx, -, rfl, -⟩ := step_access stepped
  exact after_retired

theorem deleted_step (stepped : s.step K rd t = some (s', q)) (gone : p ∈ s.pool.deleted) :
    p ∈ s'.pool.deleted := by
  obtain ⟨e, nx, -, rfl, -⟩ := step_access stepped
  rw [after_pool, HazardPointers.apply_deleted]
  cases e with
  | delete this i => exact List.mem_append_left _ gone
  | _ => exact gone

/-- A call stays inside itself until it returns. -/
theorem runs_step {c : Call P C} (runs : c.Runs (s.pc t))
    (stepped : s.step K rd t = some (s', q)) :
    (q = none ∧ c.Runs (s'.pc t)) ∨ ∃ r, q = some r ∧ c.Returns rd r ∧ s'.pc t = .idle := by
  obtain ⟨e, nx, access, rfl, last⟩ := step_access stepped
  have onwards := runs_access runs access
  rw [after_pc_self]
  cases nx with
  | goto pc =>
      refine .inl ⟨?_, onwards⟩
      cases q with
      | none => rfl
      | some r => cases (last r).1 rfl
  | ret r => exact .inr ⟨r, (last r).2 rfl, onwards, rfl⟩

/-- Every call but `retire` leaves the thread with its record, if it had one or got one. -/
theorem own_step {c : Call P C} (runs : c.Runs (s.pc t)) (notRetire : c ≠ .retire)
    (stepped : s.step K rd t = some (s', q)) (has : (s.own t).isSome ∨ ∃ hp, q = some (.record hp)) :
    (s'.own t).isSome := by
  obtain ⟨e, nx, access, rfl, last⟩ := step_access stepped
  have onwards := runs_access runs access
  rw [after_own_self]
  cases nx with
  | goto pc =>
      rcases has with has | ⟨hp, rfl⟩
      · exact has
      · cases (last _).1 rfl
  | ret r =>
      have same := (last r).2 rfl
      cases r with
      | record hp => rfl
      | released => cases c <;> first | exact absurd rfl notRetire | exact onwards.elim
      | _ =>
          rcases has with has | ⟨hp, isRecord⟩
          · exact has
          · rw [isRecord] at same
            cases same

/-- The thread retires `p`, and everything retired before has been deleted. -/
def Lone (s : Sys T P C) (t : T) (p : P) : Prop :=
  p ∉ s.pool.deleted ∧ (∀ q ∈ s.retired, q = p ∨ q ∈ s.pool.deleted) ∧
    ∃ this, s.pc t = .push this p ∨ s.pc t = .should this

/-- With one node on its list a thread does not scan. -/
theorem Lone.short (lone : s.Lone t p) (orderly : s.Orderly K) (slots : 0 < K) {this : Nat}
    (at_ : s.pc t = .should this) : shouldScan K s.pool this = false := by
  have only : ∀ q ∈ (s.pool.record this).retireList, q = p := by
    intro q member
    rcases lone.2.1 q (orderly.conserved.listed this q member) with same | gone
    · exact same
    · exact absurd member (orderly.conserved.intact.gone q gone this)
  have one : (s.pool.record this).retireList.length ≤ 1 := by
    have sub : (s.pool.record this).retireList ⊆ [p] :=
      fun q member => List.mem_singleton.2 (only q member)
    exact (List.subperm_of_subset (orderly.conserved.intact.lists this) sub).length_le
  have counted : 0 < s.pool.hpCount := by
    obtain ⟨waiting, -, -, count⟩ := orderly.counted
    have has := orderly.owned.this t this (by rw [at_]; rfl)
    have := orderly.owned.bounded t this (.inl has)
    omega
  have product : 0 < s.pool.hpCount * K := Nat.mul_pos counted slots
  unfold shouldScan
  rw [decide_eq_false_iff_not]
  omega

theorem Lone.step (lone : s.Lone t p) (orderly : s.Orderly K) (slots : 0 < K)
    (stepped : s.step K rd t = some (s', q)) :
    p ∉ s'.pool.deleted ∧ (q = none → s'.Lone t p) := by
  have short : ∀ this, s.pc t = .should this → shouldScan K s.pool this = false :=
    fun _ at_ => lone.short orderly slots at_
  obtain ⟨alive, others, this, pushing | checking⟩ := lone
  all_goals
    obtain ⟨e, nx, access, rfl, last⟩ := step_access stepped
  · rw [pushing] at access
    cases access
    exact ⟨alive, fun _ => ⟨alive, others, this, .inr after_pc_self⟩⟩
  · have short := short this checking
    rw [checking] at access
    cases access with
    | full _ full =>
        rw [short] at full
        cases full
    | notFull =>
        refine ⟨alive, fun going => ?_⟩
        rw [(last .unit).2 rfl] at going
        cases going

end Ccmetrics.Hazard.Sys
