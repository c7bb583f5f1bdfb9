/-
# Hazard.Calls -- what a member function does from its call to its return

`Runs c pc` says that a thread at `pc` is inside the call `c`, and `Returns rd c r` what `c`
can hand back when it returns in a state whose cells are `rd`. A call stays inside itself
until it returns (`runs_access`).
-/
import Ccmetrics.Hazard.Pointers

namespace Ccmetrics.Hazard

set_option autoImplicit false
set_option linter.unusedSectionVars false

variable {P C : Type}

namespace Call

def Runs : Call P C → PC P C → Prop
  | .allocate, .allocHead | .allocate, .allocActive _ | .allocate, .allocLock _
  | .allocate, .allocCount | .allocate, .allocNew | .allocate, .allocNext _
  | .allocate, .allocPush _ _ => True
  | .retire, .retireSlot _ _ => True
  | .setHazard k value, .setSlot _ k' value' => k' = k ∧ value' = value
  | .loadAndSetHazard c k, .load _ once c' k' => once = false ∧ c' = c ∧ k' = k
  | .loadAndSetHazard c k, .loadSet _ once c' k' _ => once = false ∧ c' = c ∧ k' = k
  | .loadAndSetHazard c k, .loadCheck _ once c' k' _ => once = false ∧ c' = c ∧ k' = k
  | .loadAndSetHazardOrFail c k, .load _ once c' k' => once = true ∧ c' = c ∧ k' = k
  | .loadAndSetHazardOrFail c k, .loadSet _ once c' k' _ => once = true ∧ c' = c ∧ k' = k
  | .loadAndSetHazardOrFail c k, .loadCheck _ once c' k' _ => once = true ∧ c' = c ∧ k' = k
  | .loadAndSetHazardOrFail _ k, .loadClear _ k' => k' = k
  | .retireNode node, .push _ node' => node' = node
  | .retireNode _, .should _ | .retireNode _, .scanHead _ _ | .retireNode _, .scanSlot _ _ _ _ _
  | .retireNode _, .sweep _ _ _ _ | .retireNode _, .helpHead _ | .retireNode _, .helpLock _ _
  | .retireNode _, .helpDrain _ _ | .retireNode _, .helpShould _ _
  | .retireNode _, .helpUnlock _ _ => True
  | _, _ => False

def Returns (rd : C → P) : Call P C → Ret P → Prop
  | .allocate, .record _ => True
  | .retire, .released => True
  | .setHazard _ _, .unit => True
  | .loadAndSetHazard c _, .value p => p = rd c
  | .loadAndSetHazardOrFail c _, .value p => p = rd c
  | .loadAndSetHazardOrFail _ _, .fail => True
  | .retireNode _, .unit => True
  | _, _ => False

theorem runs_entry (c : Call P C) (this : Nat) : c.Runs (c.entry this) := by
  cases c <;> simp [entry, Runs]

theorem not_runs_idle (c : Call P C) : ¬ c.Runs .idle := by
  cases c <;> exact id

end Call

/-- What holds of a call after one of its accesses. -/
def Call.Onwards (rd : C → P) (c : Call P C) : Next P C → Prop
  | .goto pc => c.Runs pc
  | .ret r => c.Returns rd r

variable [DecidableEq P] [Inhabited P]
variable {K : Nat} {rd : C → P} {h : HazardPointers P} {pc : PC P C}
variable {e : Effect P} {nx : Next P C} {c : Call P C}

theorem runs_access (runs : c.Runs pc) (access : Access K rd h pc e nx) : c.Onwards rd nx := by
  cases access
  case allocHead | allocBusy | allocLost =>
      cases c <;> try exact runs.elim
      simp only [walkAlloc]
      split <;> trivial
  case helpHead | helpSkip | helpUnlock =>
      cases c <;> try exact runs.elim
      simp only [walkHelp]
      split <;> trivial
  case scanHead | scanNext =>
      cases c <;> try exact runs.elim
      simp only [walkScan]
      split <;> trivial
  case sweepEnd | sweepLast =>
      cases c <;> try exact runs.elim
      simp only [afterScan]
      split <;> trivial
  case loadSame =>
      cases c <;> try exact runs.elim
      all_goals exact congrArg rd runs.2.1
  case loadGone =>
      cases c <;> try exact runs.elim
      · cases runs.1
      · exact runs.2.2
  case loadAgain =>
      cases c <;> try exact runs.elim
      · exact runs
      · cases runs.1
  all_goals cases c <;> first | exact runs.elim | exact runs | trivial

end Ccmetrics.Hazard
