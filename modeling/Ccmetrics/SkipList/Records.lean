/-
# SkipList.Records -- the map as a client of its hazard pointers

A thread gets a record when it first needs one and keeps it until it exits. `Equipped` says at
which points it has it; so every call into the hazard pointers is one that the thread may make
(`Equipped.callable`). A node is given to `retireNode` once, and no cell that other threads can
see holds it then (`Counted.away`), so what `hazard_pointers.h` promises its clients holds here
(`Hazards`).
-/
import Ccmetrics.Hazard.Records
import Ccmetrics.SkipList.Counts

namespace Ccmetrics.SkipList

set_option autoImplicit false
set_option linter.unusedSectionVars false

variable {T Key Value : Type} [DecidableEq T] [LinearOrder Key] [Inhabited Key] [Inhabited Value]

/-- Whether a thread has its record, and the slots that it has left to clear. -/
def PC.Equipped (own : Option Nat) : PC Key Value → Prop
  | .idle | .insertLevel _ _ _ => True
  | .acquire _ => own = none
  | .clear k last _ => own.isSome = true ∧ k ≤ last ∧ last < 4
  | _ => own.isSome = true

namespace State

variable {s s' : State T Key Value} {t u : T} {e : Effect Key Value} {nx : Next Key Value}
variable {pc : PC Key Value} {own : Option Nat}

section Equipped

variable (has : own.isSome = true)
include has

theorem equipped_start (start : Start Key Value) : start.pc.Equipped own := by
  cases start <;> exact has

theorem equipped_findDown {f : Find Key Value} {i : Nat} {prev : Addr} {cur : Ptr} :
    (findDown f i prev cur).Equipped own := by
  simp only [findDown]
  split <;> exact has

theorem equipped_findLoop {f : Find Key Value} {i : Nat} {prev : Addr} {cur : Ptr} :
    (findLoop f i prev cur).Equipped own := by
  cases cur with
  | null | markedNull => exact equipped_findDown has
  | node c | marked c => exact has

theorem equipped_indexLevel {x : Index Key} {i : Nat} {prev : Addr} :
    (indexLevel x prev i : PC Key Value).Equipped own := by
  cases i with
  | zero =>
      simp only [indexLevel]
      split
      · exact has
      · exact ⟨has, by omega, by omega⟩
  | succ i => exact has

theorem equipped_indexHere {x : Index Key} {i : Nat} {prev : Addr} {cur : Ptr} :
    (indexHere x i prev cur : PC Key Value).Equipped own := by
  simp only [indexHere]
  split <;> exact has

theorem equipped_indexWhile {x : Index Key} {i : Nat} {prev : Addr} {cur : Ptr} :
    (indexWhile x i prev cur : PC Key Value).Equipped own := by
  cases cur with
  | null => exact equipped_indexHere has
  | _ => exact has

theorem equipped_itemsLoop {what : Extract} {ret : List (Item Key Value)} {prev cur : Ptr} :
    (itemsLoop what ret prev cur).Equipped own := by
  cases cur with
  | null => exact ⟨has, by omega, by omega⟩
  | node c => cases prev <;> exact has
  | markedNull | marked c => exact has

theorem equipped_found {f : Find Key Value} {prev : Addr} {cur : Ptr} {hit : Bool} :
    (s.found f prev cur hit).2.pc.Equipped own := by
  simp only [found]
  repeat' split
  all_goals trivial

end Equipped

theorem equipped_enter (start : Start Key Value) : (s.enter t start).Equipped (s.sys.own t) := by
  simp only [enter]
  split
  · exact equipped_start ‹_› start
  · rename_i hasNone
    exact Option.not_isSome_iff_eq_none.1 hasNone

theorem equipped_eraseDown {key : Key} {cur : Addr} {i : Nat} {m : Bool}
    (has : (s.sys.own t).isSome = true) : (s.eraseDown t key cur i m).Equipped (s.sys.own t) := by
  simp only [eraseDown]
  split
  · exact equipped_enter _
  · exact has

theorem equipped_begin (op : Op Key Value) : (s.begin t op).Equipped (s.sys.own t) := by
  cases op with
  | insert key value level => trivial
  | _ => exact equipped_enter _

/-- A thread keeps its record. -/
theorem equipped_access (access : s.Access t pc e nx) (equipped : pc.Equipped (s.sys.own t))
    (started : ∀ start, pc ≠ .acquire start) : nx.pc.Equipped (s.sys.own t) := by
  cases access with
  | acquired start => exact absurd rfl (started start)
  | curLoaded | curSet => exact equipped_findLoop equipped
  | keyReached | drop | retired => exact equipped_findDown equipped
  | matchNull | matchNode => exact equipped_found equipped
  | eraseFlat | marked => exact equipped_eraseDown equipped
  | grown | levelled | linkFailed => exact equipped_enter _
  | overage | indexMarked | indexNextMarked | indexPrevChanged | indexFailed | indexDead
  | indexAlive =>
      simp only [Next.pc_goto, indexExit]
      exact equipped_indexLevel equipped
  | indexLoaded | indexCurSet => exact equipped_indexWhile equipped
  | indexReached => exact equipped_indexHere equipped
  | itemsLoaded | itemsCurSet => rw [Next.pc_goto]; exact equipped_itemsLoop equipped
  | itemsNextLoaded =>
      simp only [Next.pc_goto, itemsNextOf]
      split <;> exact equipped
  | valueRead | overageDropped | newRetired | firstNull | firstRead =>
      exact ⟨equipped, by omega, by omega⟩
  | clearedLast k leave =>
      cases leave with
      | ret r => trivial
      | free n => exact equipped.1
  | cleared k last leave more =>
      obtain ⟨has, below, small⟩ := equipped
      exact ⟨has, by omega, small⟩
  | freed | exited => trivial
  | _ => exact equipped

/-- Every call into the hazard pointers is one that the thread may make. -/
theorem Equipped.callable {c : Hazard.Call Ptr (Addr × Nat)} (equipped : pc.Equipped (s.sys.own t))
    (calls : pc.call = some c) : s.sys.Callable 4 t c := by
  cases pc <;> cases calls
  case acquire => exact equipped
  case findRetire | insertRetire | exiting => exact equipped
  case clear k last leave => exact ⟨equipped.1, by have := equipped.2; omega⟩
  all_goals exact ⟨equipped, by omega⟩

/-! ## The cells that other threads can see -/

open Classical in
/-- What other threads can load from a cell. -/
noncomputable def seen (s : State T Key Value) (c : Addr × Nat) : Ptr :=
  if s.Public c.1 then s.cell c else .null

theorem seen_public {c : Addr × Nat} (shared : s.Public c.1) : s.seen c = s.cell c := if_pos shared

/-- No cell that other threads can see holds a retired node. -/
theorem Counted.away (counted : s.Counted) (memory : s.Memory) {p : Ptr}
    (retired : p ∈ s.sys.retired) (c : Addr × Nat) : s.seen c ≠ p := by
  obtain ⟨n, rfl, -, -⟩ := counted.retired p retired
  obtain ⟨-, notOwed⟩ := counted.retired_off retired
  intro holds
  by_cases shared : s.Public c.1
  · rw [seen_public shared, cell] at holds
    by_cases bottom : c.2 = 0
    · rw [bottom] at holds
      exact notOwed (.inl (memory.points shared holds))
    · rw [memory.index c.1 c.2 (Nat.pos_of_ne_zero bottom)] at holds
      cases holds
  · rw [seen, if_neg shared] at holds
    cases holds

/-! ## Every reachable state -/

structure Hazards (s : State T Key Value) : Prop where
  equipped : ∀ t, (s.pc t).Equipped (s.sys.own t)
  orderly : s.sys.Orderly 4
  covered : s.sys.Covered 4 s.seen

/-- Going on to a point keeps the hazard pointers in order, if a node that is retired there is
retired for the first time. -/
theorem orderly_goto (idle : s.sys.pc t = .idle) (equipped : pc.Equipped (s.sys.own t))
    {cells : Addr × Nat → Ptr} (orderly : s.sys.Orderly 4) (covered : s.sys.Covered 4 cells)
    (new : ∀ n, pc.retires = some n → .node n ∉ s.sys.retired ∧ ∀ c, cells c ≠ .node n) :
    (s.goto t pc).sys.Orderly 4 ∧ (s.goto t pc).sys.Covered 4 cells := by
  cases calls : pc.call with
  | none =>
      have same : (s.goto t pc).sys = s.sys := by simp only [goto, calls]
      rw [same]
      exact ⟨orderly, covered⟩
  | some c =>
      have called : (s.goto t pc).sys = s.sys.call t c := by simp only [goto, calls]
      have callable := Equipped.callable equipped calls
      have retires : ∀ p, c = .retireNode p → ∃ n, p = .node n ∧ pc.retires = some n := by
        rintro p rfl
        cases pc <;> cases calls <;> exact ⟨_, rfl, rfl⟩
      rw [called]
      refine ⟨orderly.step (.call s.sys t c idle callable fun p isRetire => ?_),
        covered.call callable ?_⟩
      · obtain ⟨n, rfl, gives⟩ := retires p isRetire
        exact (new n gives).1
      · cases c with
        | retireNode p =>
            obtain ⟨n, rfl, gives⟩ := retires p rfl
            exact ⟨Ptr.noConfusion, new n gives⟩
        | _ => trivial

@[simp] theorem goto_own : (s.goto t pc).sys.own = s.sys.own := by
  simp only [goto]
  split <;> rfl

theorem after_goto (nx : Next Key Value) : (s.after t nx).sys = (s.goto t nx.pc).sys := by
  cases nx <;> rfl

/-- What a returning call does to the record of its thread. -/
theorem sys_step_own {sys : Hazard.Sys T Ptr (Addr × Nat)} {r : Option (Hazard.Ret Ptr)}
    {rd : Addr × Nat → Ptr} (stepped : s.sys.step 4 rd t = some (sys, r)) :
    (∀ u, u ≠ t → sys.own u = s.sys.own u) ∧
      match r with
      | some (.record hp) => sys.own t = some hp
      | some .released => sys.own t = none
      | _ => sys.own t = s.sys.own t := by
  obtain ⟨e, nx, -, rfl, last⟩ := Hazard.Sys.step_access stepped
  refine ⟨fun u other => Hazard.Sys.after_own_other other, ?_⟩
  cases nx with
  | goto pc =>
      have none_ : r = none := by
        cases r with
        | none => rfl
        | some q => cases (last q).1 rfl
      subst none_
      exact Hazard.Sys.after_own_self
  | ret q =>
      obtain rfl := (last q).2 rfl
      cases q <;> exact Hazard.Sys.after_own_self

/-- The hazard pointers after a return: the thread is outside and has the record it needs. -/
theorem equipped_resume {sys : Hazard.Sys T Ptr (Addr × Nat)} {r : Hazard.Ret Ptr}
    {c : Hazard.Call Ptr (Addr × Nat)} (stepped : s.sys.step 4 s.cell t = some (sys, some r))
    (calls : (s.pc t).call = some c) (returns : c.Returns s.cell r)
    (access : s.Access t (s.pc t) .none (resume (s.pc t) r))
    (equipped : (s.pc t).Equipped (s.sys.own t)) :
    (resume (s.pc t) r).pc.Equipped (sys.own t) := by
  have owns := (sys_step_own stepped).2
  by_cases started : ∃ start, s.pc t = .acquire start
  · obtain ⟨start, pc⟩ := started
    rw [pc] at calls ⊢
    cases calls
    cases r with
    | record hp => exact equipped_start (by rw [show sys.own t = some hp from owns]; rfl) start
    | _ => exact returns.elim
  · have kept := equipped_access access equipped fun start pc => started ⟨start, pc⟩
    by_cases exiting : s.pc t = .exiting
    · rw [exiting] at access ⊢
      generalize resume (PC.exiting : PC Key Value) r = nx at access ⊢
      cases access
      trivial
    · have same : sys.own t = s.sys.own t := by
        generalize s.pc t = pc at calls started exiting
        cases pc <;> cases calls <;> cases r <;>
          first
            | exact owns
            | exact returns.elim
            | exact absurd ⟨_, rfl⟩ started
            | exact absurd rfl exiting
      rw [same]
      exact kept

/-- A thread that has left the hazard pointers goes on to its next point. -/
theorem Hazards.goto {q : State T Key Value} (hazards : s.Hazards) (idle : q.sys.pc t = .idle)
    (orderly : q.sys.Orderly 4) (covered : q.sys.Covered 4 s.seen)
    (others : ∀ u, u ≠ t → q.pc u = s.pc u ∧ q.sys.own u = s.sys.own u)
    (equipped : pc.Equipped (q.sys.own t)) (after : s'.Level0 ∧ s'.Counted)
    (sys : s'.sys = (q.goto t pc).sys) (moved : s'.pc = (q.goto t pc).pc) : s'.Hazards := by
  have away : ∀ p ∈ s'.sys.retired, ∀ c, s'.seen c ≠ p :=
    fun p retired c => after.2.away after.1.memory retired c
  have log := goto_retired (s := q) (t := t) pc
  rw [← sys] at log
  have subset : ∀ p ∈ q.sys.retired, p ∈ s'.sys.retired := by
    intro p retired
    rw [log]
    split
    · exact List.mem_cons_of_mem _ retired
    · exact retired
  have covered' : q.sys.Covered 4 s'.seen :=
    covered.write fun c => .inr fun retired => away _ (subset _ retired) c rfl
  have new : ∀ n, pc.retires = some n → .node n ∉ q.sys.retired ∧ ∀ c, s'.seen c ≠ .node n := by
    intro n retires
    rw [retires] at log
    have nodup := after.2.nodup
    rw [log] at nodup
    refine ⟨(List.nodup_cons.1 nodup).1, away _ ?_⟩
    rw [log]
    exact List.mem_cons_self ..
  obtain ⟨orderly', covered''⟩ := orderly_goto idle equipped orderly covered' new
  refine ⟨fun u => ?_, by rw [sys]; exact orderly', by rw [sys]; exact covered''⟩
  rw [sys, moved, goto_own]
  by_cases isT : u = t
  · subst isT
    rw [show (q.goto u pc).pc u = pc from if_pos rfl]
    exact equipped
  · rw [show (q.goto t pc).pc u = q.pc u from if_neg isT, (others u isT).1, (others u isT).2]
    exact hazards.equipped u

theorem Hazards.step (hazards : s.Hazards) (level0 : s.Level0) (after : s'.Level0 ∧ s'.Counted)
    (taken : s.step t = some s') : s'.Hazards := by
  obtain ⟨equipped, orderly, covered⟩ := hazards
  have sound : s.sys.Sound 4 s.seen := ⟨orderly.owned, orderly.listing, covered⟩
  have after_moved : ∀ (q : State T Key Value) (nx : Next Key Value),
      (q.after t nx).pc = (q.goto t nx.pc).pc := by
    intro q nx
    cases nx <;> rfl
  rcases step_cases level0.synced taken with
    ⟨sys, c, stepped, -, -, rfl⟩ | ⟨sys, c, r, stepped, calls, returns, access, rfl⟩ |
      ⟨e, nx, calls, access, rfl⟩
  · refine ⟨fun u => ?_, orderly.step (.access s.sys t s.cell sys _ stepped),
      (sound.step stepped).covered⟩
    by_cases isT : u = t
    · subst isT
      have same : sys.own u = s.sys.own u := (sys_step_own stepped).2
      rw [same]
      exact equipped u
    · rw [(sys_step_own stepped).1 u isT]
      exact equipped u
  · refine Hazards.goto ⟨equipped, orderly, covered⟩ (q := { s with sys := sys })
      (sys_step_return stepped) (orderly.step (.access s.sys t s.cell sys _ stepped))
      (sound.step stepped).covered (fun u other => ⟨rfl, (sys_step_own stepped).1 u other⟩)
      (equipped_resume stepped calls returns access (equipped t)) after (after_goto _)
      (after_moved _ _)
  · have idle := level0.synced t
    rw [calls] at idle
    refine Hazards.goto ⟨equipped, orderly, covered⟩ (q := s.apply t e) (by rw [apply_sys]; exact idle)
      (by rw [apply_sys]; exact orderly) (by rw [apply_sys]; exact covered)
      (fun u _ => by rw [apply_pc, apply_sys]; exact ⟨rfl, rfl⟩) ?_ after (after_goto _)
      (after_moved _ _)
    rw [apply_sys]
    refine equipped_access access (equipped t) fun start pc => ?_
    rw [pc] at calls
    cases calls

theorem Hazards.next (hazards : s.Hazards) (level0 : s.Level0) (counted : s.Counted)
    {a : Action T Key Value} (taken : s.next a = some s') : s'.Hazards := by
  have after : s'.Level0 ∧ s'.Counted := ⟨level0.next taken, counted.next level0 taken⟩
  have outside : ∀ t, (s.pc t).isIdle = true → s.sys.pc t = .idle := by
    intro t resting
    have here := level0.synced t
    cases pc : s.pc t <;> rw [pc] at resting here <;> first | exact here | cases resting
  cases a with
  | call t op =>
      simp only [State.next] at taken
      split at taken
      · rename_i enabled
        split at taken
        all_goals
          cases taken
          exact hazards.goto (outside t enabled.1) hazards.orderly hazards.covered
            (fun u _ => ⟨rfl, rfl⟩) (equipped_begin op) after rfl rfl
      · cases taken
  | exit t =>
      simp only [State.next] at taken
      split at taken
      · rename_i enabled
        cases taken
        have equipped : (PC.exiting : PC Key Value).Equipped (s.sys.own t) := enabled.2
        exact hazards.goto (outside t enabled.1) hazards.orderly hazards.covered
          (fun u _ => ⟨rfl, rfl⟩) equipped after rfl rfl
      · cases taken
  | step t => exact hazards.step level0 after taken

theorem hazards_init : (init : State T Key Value).Hazards where
  equipped _ := trivial
  orderly := Hazard.Sys.orderly_init
  covered := Hazard.Sys.covered_init _

/-- The invariants of every reachable state of the map and of its hazard pointers. -/
structure Reached (s : State T Key Value) : Prop where
  level0 : s.Level0
  counted : s.Counted
  hazards : s.Hazards

theorem Reached.next (reached : s.Reached) {a : Action T Key Value} (taken : s.next a = some s') :
    s'.Reached :=
  ⟨reached.level0.next taken, reached.counted.next reached.level0 taken,
    reached.hazards.next reached.level0 reached.counted taken⟩

theorem Reached.step (reached : s.Reached) (taken : s.step t = some s') : s'.Reached :=
  reached.next (a := .step t) taken

theorem reached_run {as : List (Action T Key Value)}
    (ran : Theory.run State.next (init : State T Key Value) as = some s) : s.Reached :=
  Theory.run_induction (fun _ _ _ reached taken => reached.next taken)
    ⟨level0_init, counted_init, hazards_init⟩ ran

end State

end Ccmetrics.SkipList
