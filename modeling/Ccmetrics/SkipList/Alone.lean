/-
# SkipList.Alone -- a thread that runs alone, one access of the map after the other

While one thread runs and the others are stopped, a call into the hazard pointers returns, and
what it returns is known: a load gives what the cell holds (`reply`). So the thread goes on in
one way, to the access `solo` of the map. `Ready.goes` is the rule for running it: whatever the
thread leads to from the state after its next access, it leads to now.

The one exception is a thread that was stopped inside `loadAndSetHazardOrFail`, which may fail
when it goes on (`Ready`).
-/
import Ccmetrics.Theory.Alone
import Ccmetrics.Hazard.Alone
import Ccmetrics.Hazard.Lone
import Ccmetrics.SkipList.Records

namespace Ccmetrics.SkipList

set_option autoImplicit false
set_option linter.unusedSectionVars false

variable {T Key Value : Type} [DecidableEq T] [LinearOrder Key] [Inhabited Key] [Inhabited Value]

namespace State

open Theory (Leads)

variable {s s' : State T Key Value} {t : T} {e : Effect Key Value} {nx : Next Key Value}
variable {Q : State T Key Value → Prop}

/-- What a call returns to a thread that runs alone; the number of a record makes no difference. -/
def reply (s : State T Key Value) : Hazard.Call Ptr (Addr × Nat) → Hazard.Ret Ptr
  | .allocate => .record 0
  | .retire => .released
  | .setHazard _ _ | .retireNode _ => .unit
  | .loadAndSetHazard c _ | .loadAndSetHazardOrFail c _ => .value (s.cell c)

/-- The next access of a thread that runs alone. -/
def solo (s : State T Key Value) (t : T) : Option (Effect Key Value × Next Key Value) :=
  match (s.pc t).call with
  | some c => some (.none, resume (s.pc t) (s.reply c))
  | none => s.plan t (s.pc t)

/-- A thread that has not been stopped in the middle of `loadAndSetHazardOrFail`. -/
structure Ready (s : State T Key Value) (t : T) : Prop where
  reached : s.Reached
  steady : ∀ f i prev cur, s.pc t = .findNext f i prev cur → (s.sys.pc t).Steady s.cell

/-- What the thread has changed with an access, and where it stands. -/
structure Stepped (s : State T Key Value) (t : T) (e : Effect Key Value) (nx : Next Key Value)
    (s' : State T Key Value) : Prop where
  node : s'.node = (s.apply t e).node
  linked : s'.linked = (s.apply t e).linked
  fresh : s'.fresh = (s.apply t e).fresh
  height : s'.height = (s.apply t e).height
  pc : s'.pc t = nx.pc
  result : ∀ r, nx = .ret r → s'.result t = r

theorem stepped_after (sys : Hazard.Sys T Ptr (Addr × Nat)) (e : Effect Key Value)
    (nx : Next Key Value) :
    s.Stepped t e nx (({ s with sys := sys }.apply t e).after t nx) := by
  have same := apply_with_sys (s := s) (t := t) sys e
  constructor
  case node => rw [after_node, same]
  case linked => rw [after_linked, same]
  case fresh => rw [after_fresh, same]
  case height => rw [after_height, same]
  case pc => exact after_pc_self
  case result =>
      rintro r rfl
      exact if_pos rfl

/-! ## Calls into the hazard pointers -/

/-- A step of the running call is a step of the thread. -/
theorem step_stays {sys : Hazard.Sys T Ptr (Addr × Nat)}
    (stepped : s.sys.step 4 s.cell t = some (sys, none)) :
    s.step t = some { s with sys := sys } := by
  unfold step
  rw [stepped]

theorem step_returns {sys : Hazard.Sys T Ptr (Addr × Nat)} {r : Hazard.Ret Ptr}
    (stepped : s.sys.step 4 s.cell t = some (sys, some r)) :
    s.step t = some ({ s with sys := sys }.after t (resume (s.pc t) r)) := by
  unfold step
  rw [stepped]

/-- A call that runs alone returns. -/
theorem completes_leads {sys sys' : Hazard.Sys T Ptr (Addr × Nat)} {r : Hazard.Ret Ptr}
    {c : Hazard.Call Ptr (Addr × Nat)} (runs : c.Runs (sys.pc t))
    (completes : Hazard.Sys.Completes 4 s.cell t sys sys' r) :
    Leads (fun s => s.step t) { s with sys := sys } fun s' => c.Returns s.cell r ∧
      ∃ sys, s' = { s with sys := sys }.after t (resume (s.pc t) r) := by
  induction completes with
  | last sys sys' r stepped =>
      have stepped' : { s with sys := sys }.sys.step 4 { s with sys := sys }.cell t =
          some (sys', some r) := stepped
      refine Theory.leads_step (step_returns stepped') (Theory.leads_here ⟨?_, sys', rfl⟩)
      rcases Hazard.Sys.runs_step runs stepped with ⟨returned, -⟩ | ⟨r', returned, returns, -⟩
      · cases returned
      · cases returned
        exact returns
  | more sys mid sys' r stepped _ ih =>
      have stepped' : { s with sys := sys }.sys.step 4 { s with sys := sys }.cell t =
          some (mid, none) := stepped
      refine Theory.leads_step (step_stays stepped') (ih ?_)
      rcases Hazard.Sys.runs_step runs stepped with ⟨-, runs⟩ | ⟨r', returned, -, -⟩
      · exact runs
      · cases returned

/-- What a call returns is the reply, if it does not fail. -/
theorem resume_reply {c : Hazard.Call Ptr (Addr × Nat)} {r : Hazard.Ret Ptr}
    (calls : (s.pc t).call = some c) (returns : c.Returns s.cell r) (success : r ≠ .fail) :
    resume (s.pc t) r = resume (s.pc t) (s.reply c) := by
  cases c with
  | allocate =>
      cases pc : s.pc t <;> rw [pc] at calls <;> cases calls
      cases r <;> first | rfl | exact returns.elim
  | retire => cases r <;> first | rfl | exact returns.elim
  | setHazard k value => cases r <;> first | rfl | exact returns.elim
  | retireNode node => cases r <;> first | rfl | exact returns.elim
  | loadAndSetHazard c k =>
      cases r with
      | value p => rw [show p = s.cell c from returns]; rfl
      | _ => exact returns.elim
  | loadAndSetHazardOrFail c k =>
      cases r with
      | value p => rw [show p = s.cell c from returns]; rfl
      | fail => exact absurd rfl success
      | _ => exact returns.elim

/-- Only `find` uses `loadAndSetHazardOrFail`. -/
theorem call_orFail {pc : PC Key Value} {c : Hazard.Call Ptr (Addr × Nat)} {rd : Addr × Nat → Ptr}
    (calls : pc.call = some c) (returns : c.Returns rd .fail) :
    ∃ f i prev cur, pc = .findNext f i prev cur := by
  cases pc <;> cases calls <;> first | exact ⟨_, _, _, _, rfl⟩ | exact returns.elim

/-- A thread in a call runs until the call has returned. -/
theorem Reached.returns (reached : s.Reached) {c : Hazard.Call Ptr (Addr × Nat)}
    (calls : (s.pc t).call = some c) :
    Leads (fun s => s.step t) s fun s' => ∃ r, c.Returns s.cell r ∧
      ((s.sys.pc t).Steady s.cell → r ≠ .fail) ∧
      ∃ sys, s' = { s with sys := sys }.after t (resume (s.pc t) r) := by
  have runs := reached.level0.synced t
  rw [calls] at runs
  have busy : s.sys.pc t ≠ .idle := by
    intro idle
    rw [idle] at runs
    exact Hazard.Call.not_runs_idle c runs
  obtain ⟨sys', r, completes⟩ := reached.hazards.orderly.completes busy
  exact (completes_leads (s := s) runs completes).imp fun s' ⟨returns, sys, moved⟩ =>
    ⟨r, returns, fun steady => completes.steady steady, sys, moved⟩

/-! ## The rule for one access -/

theorem reached_leads (reached : s.Reached) (leads : Leads (fun s => s.step t) s Q) :
    Leads (fun s => s.step t) s fun s' => s'.Reached ∧ Q s' :=
  leads.keep (fun _ _ before taken => before.step taken) reached

/-- A thread that has just arrived somewhere has not been stopped in the middle of a call. -/
theorem ready_after {q : State T Key Value} (reached : (q.after t nx).Reached) :
    (q.after t nx).Ready t := by
  refine ⟨reached, fun f i prev cur pc => ?_⟩
  rw [after_pc_self] at pc
  have entered : (q.after t nx).sys.pc t = (Hazard.Call.loadAndSetHazardOrFail (cur, i) 0).entry
      ((q.sys.own t).getD 0) := by
    rw [after_goto, pc]
    exact Hazard.Sys.call_pc_self _
  rw [entered]
  exact Hazard.steady_entry ..

theorem Ready.solo_leads (ready : s.Ready t) (solo : s.solo t = some (e, nx)) :
    Leads (fun s => s.step t) s fun s' => s'.Ready t ∧ s.Stepped t e nx s' := by
  obtain ⟨reached, steady⟩ := ready
  unfold State.solo at solo
  cases calls : (s.pc t).call with
  | some c =>
      rw [calls] at solo
      cases solo
      refine (reached_leads reached (reached.returns calls)).imp ?_
      rintro s' ⟨reached', r, returns, success, sys, rfl⟩
      have success : r ≠ .fail := by
        rintro rfl
        obtain ⟨f, i, prev, cur, pc⟩ := call_orFail calls returns
        exact success (steady f i prev cur pc) rfl
      have same := resume_reply calls returns success
      rw [same] at reached' ⊢
      exact ⟨ready_after reached', stepped_after sys .none _⟩
  | none =>
      rw [calls] at solo
      have outside := reached.level0.synced t
      rw [calls] at outside
      have taken : s.step t = some ((s.apply t e).after t nx) := by
        unfold step Hazard.Sys.step
        rw [outside]
        simp only [Hazard.plan, solo]
      have reached' := reached.step taken
      exact Theory.leads_step taken (Theory.leads_here ⟨ready_after reached', stepped_after s.sys e nx⟩)

/-- **Running one access.** -/
theorem Ready.goes (ready : s.Ready t) (solo : s.solo t = some (e, nx))
    (rest : ∀ s', s'.Ready t → s.Stepped t e nx s' → Leads (fun s => s.step t) s' Q) :
    Leads (fun s => s.step t) s Q :=
  (ready.solo_leads solo).bind fun s' after => rest s' after.1 after.2

/-- The nodes and the height are as they were. -/
structure Same (s s' : State T Key Value) : Prop where
  nodes : s.SameNodes s'
  height : s'.height = s.height

theorem Same.refl (s : State T Key Value) : s.Same s := ⟨⟨rfl, rfl, rfl⟩, rfl⟩

theorem Same.trans {s'' : State T Key Value} (first : s.Same s') (second : s'.Same s'') :
    s.Same s'' :=
  ⟨⟨second.nodes.node.trans first.nodes.node, second.nodes.linked.trans first.nodes.linked,
    second.nodes.fresh.trans first.nodes.fresh⟩, second.height.trans first.height⟩

theorem Same.dead (same : s.Same s') : s'.dead = s.dead := same.nodes.dead

theorem Same.key (same : s.Same s') : s'.key = s.key := same.nodes.key

theorem Stepped.same (stepped : s.Stepped t e nx s') : (s.apply t e).Same s' :=
  ⟨⟨stepped.node, stepped.linked, stepped.fresh⟩, stepped.height⟩

/-- An access that writes nothing. -/
theorem Ready.reads (ready : s.Ready t) {pc : PC Key Value} (solo : s.solo t = some (.none, .goto pc))
    (rest : ∀ s', s'.Ready t → s.Same s' → s'.pc t = pc → Leads (fun s => s.step t) s' Q) :
    Leads (fun s => s.step t) s Q :=
  ready.goes solo fun s' ready' stepped => rest s' ready' stepped.same stepped.pc

end State

end Ccmetrics.SkipList
