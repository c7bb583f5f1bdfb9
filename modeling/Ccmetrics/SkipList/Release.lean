/-
# SkipList.Release -- which calls leave hazard slots set

A call that starts with null slots has at each point some slots that are null still or again
(`PC.Unset`), and from its first `setHazard(2, prev)` on `find` keeps slot 2 set (`PC.stage`).
Every exit of the map clears what has been set, except two: `insert` that finds its key at the
first search and `erase` that does not find it return right away (`early`).

* `hazards_released_iff`: a call returns with null slots if and only if it does not return early.
-/
import Ccmetrics.Hazard.Slots
import Ccmetrics.SkipList.Records

namespace Ccmetrics.SkipList

set_option autoImplicit false
set_option linter.unusedSectionVars false

variable {T Key Value : Type} [DecidableEq T] [LinearOrder Key] [Inhabited Key] [Inhabited Value]

/-- Slot 3 is for the node that `insert` links. -/
def Find.Unset (f : Find Key Value) (k : Nat) : Prop :=
  match f.site with
  | .insertAgain _ _ => False
  | _ => k = 3

/-- The slots that are null at a point of a call that started with null slots. -/
def PC.Unset (k : Nat) : PC Key Value → Prop
  | .acquire (.find f) | .findHead f | .findHeight f | .findCur f _ _ | .findNext f _ _ _
  | .findPrev f _ _ _ _ | .findDead f _ _ _ _ | .findKey f _ _ _ _ | .findSetPrev f _ _ _
  | .findSetCur f _ _ _ | .findNexti f _ _ _ | .findUnlink f _ _ _ _ | .findDrop f _ _ _
  | .findClear f _ _ _ | .findRetire f _ _ _ | .findMatch f _ _ => f.Unset k
  | .findValue _ | .eraseHeight _ _ | .eraseLoad _ _ _ _ | .eraseMark _ _ _ _ _ => k = 3
  | .insertLevel _ _ _ | .free _ => True
  | .acquire .first | .firstCur | .firstKey _ => k ≠ 1
  | .acquire (.items _) | .itemsCur _ _ | .itemsRead _ _ _ _ | .itemsNext _ _ _ _
  | .itemsAgain _ _ _ | .itemsSetPrev _ _ _ _ | .itemsSetCur _ _ _ _ => k = 3
  | .clear j last _ => k < j ∨ last < k
  | _ => False

/-- Whether the caller of `find` returns at once when told that there is a `match`, or none. -/
def Site.leaves (hit : Bool) : Site Value → Bool
  | .insert _ _ => hit
  | .erase => !hit
  | _ => false

/-- Outside the operations, inside one, or where `find` has a predecessor in slot 2. -/
inductive Stage where
  | outside
  | inside
  | standing
  deriving DecidableEq

def PC.stage : PC Key Value → Stage
  | .idle | .exiting => .outside
  | .findHeight _ | .findCur _ _ _ | .findNext _ _ _ _ | .findPrev _ _ _ _ _ | .findDead _ _ _ _ _
  | .findKey _ _ _ _ _ | .findSetPrev _ _ _ _ | .findSetCur _ _ _ _ | .findNexti _ _ _ _
  | .findUnlink _ _ _ _ _ | .findDrop _ _ _ _ | .findClear _ _ _ _ | .findRetire _ _ _ _
  | .findMatch _ _ _ => .standing
  | _ => .inside

namespace State

variable {s s' : State T Key Value} {t u : T} {e : Effect Key Value} {nx : Next Key Value}
variable {pc : PC Key Value} {k : Nat}

/-- The search that has ended was the first one of `insert` and has found the key, or the first
one of `erase` and has not. -/
def early (s : State T Key Value) : PC Key Value → Bool
  | .findMatch f _ .null => f.site.leaves false
  | .findMatch f _ (.node cur) => f.site.leaves (decide ((s.node cur).key = f.key))
  | _ => false

/-! ## The points of a call -/

section Points

variable {f : Find Key Value} {i : Nat} {prev : Addr} {cur : Ptr}

theorem unset_findDown : (findDown f i prev cur).Unset k ↔ f.Unset k := by
  unfold findDown
  split <;> exact Iff.rfl

theorem unset_findLoop (unset : (findLoop f i prev cur).Unset k) : f.Unset k := by
  cases cur with
  | null | markedNull => exact unset_findDown.1 unset
  | node c => exact unset
  | marked c => exact unset.elim

theorem unset_enter (start : Start Key Value) :
    (s.enter t start).Unset k ↔ (PC.acquire start).Unset k := by
  unfold enter
  split
  · cases start <;> exact Iff.rfl
  · exact Iff.rfl

theorem unset_eraseDown {key : Key} {c : Addr} {m : Bool}
    (unset : (s.eraseDown t key c i m).Unset k) : k = 3 := by
  unfold eraseDown at unset
  split at unset
  · exact (unset_enter _).1 unset
  · exact unset

theorem not_unset_indexLevel {x : Index Key} (small : k < 4) :
    ¬ (indexLevel x prev i : PC Key Value).Unset k := by
  intro unset
  cases i with
  | zero =>
      simp only [indexLevel] at unset
      split at unset
      · exact unset
      · rcases unset with below | above <;> omega
  | succ i => exact unset

theorem not_unset_indexHere {x : Index Key} : ¬ (indexHere x i prev cur : PC Key Value).Unset k := by
  unfold indexHere
  split <;> exact id

theorem not_unset_indexWhile {x : Index Key} :
    ¬ (indexWhile x i prev cur : PC Key Value).Unset k := by
  cases cur with
  | null => exact not_unset_indexHere
  | _ => exact id

theorem unset_itemsLoop {what : Extract} {ret : List (Item Key Value)} {prev : Ptr} (small : k < 4)
    (unset : (itemsLoop what ret prev cur).Unset k) : k = 3 := by
  cases cur with
  | null => rcases unset with below | above <;> omega
  | node c => cases prev <;> first | exact unset | exact unset.elim
  | markedNull | marked c => exact unset.elim

theorem unset_found {hit : Bool} (small : k < 4)
    (unset : (s.found f prev cur hit).2.pc.Unset k) : f.Unset k := by
  unfold found at unset
  unfold Find.Unset
  cases site : f.site with
  | insertAgain n level =>
      simp only [site] at unset
      split at unset
      · rcases unset with below | above <;> omega
      · exact unset
  | insert value level =>
      simp only [site] at unset
      split at unset <;> exact unset.elim
  | erase =>
      simp only [site] at unset
      split at unset
      · exact unset
      · exact unset.elim
  | find =>
      simp only [site] at unset
      split at unset
      · exact unset
      · rcases unset with below | above <;> omega
  | exists_ | eraseAgain c m =>
      simp only [site] at unset
      rcases unset with below | above <;> omega

end Points

/-- A slot that is null after an access was null before, or has just been cleared. -/
theorem access_unset (small : k < 4) (access : s.Access t pc e nx) (unset : nx.pc.Unset k) :
    pc.Unset k ∨ ∃ last leave, pc = .clear k last leave := by
  cases access with
  | acquired start => cases start <;> exact .inl unset
  | curLoaded f i prev | curSet f i prev cur => exact .inl (unset_findLoop unset)
  | keyReached f i prev cur next | drop f i prev cur | retired f i prev cur =>
      exact .inl (unset_findDown.1 unset)
  | matchNull f prev | matchNode f prev cur => exact .inl (unset_found small unset)
  | valueRead cur =>
      refine .inl (show k = 3 from ?_)
      rcases unset with below | above <;> omega
  | eraseFlat key cur | marked key cur i m => exact .inl (unset_eraseDown unset)
  | grown | levelled => exact .inl trivial
  | linkFailed key level n prev cur => exact ((unset_enter _).1 unset).elim
  | overage | indexMarked | indexNextMarked | indexPrevChanged | indexFailed | indexDead
  | indexAlive =>
      simp only [Next.pc_goto, indexExit] at unset
      exact absurd unset (not_unset_indexLevel small)
  | indexLoaded | indexCurSet => exact absurd unset not_unset_indexWhile
  | indexReached => exact absurd unset not_unset_indexHere
  | overageDropped | newRetired => rcases unset with below | above <;> omega
  | firstNull | firstRead cur =>
      refine .inl (show k ≠ 1 from ?_)
      rcases unset with below | above <;> omega
  | itemsLoaded | itemsCurSet =>
      rw [Next.pc_goto] at unset
      exact .inl (unset_itemsLoop small unset)
  | itemsNextLoaded what ret prev cur =>
      simp only [Next.pc_goto, itemsNextOf] at unset
      split at unset <;> exact .inl unset
  | clearedLast j leave =>
      rcases Nat.lt_trichotomy k j with below | rfl | above
      · exact .inl (.inl below)
      · exact .inr ⟨k, leave, rfl⟩
      · exact .inl (.inr above)
  | cleared j last leave more =>
      rcases unset with below | above
      · rcases Nat.lt_succ_iff_lt_or_eq.1 below with below | rfl
        · exact .inl (.inl below)
        · exact .inr ⟨last, leave, rfl⟩
      · exact .inl (.inr above)
  | _ => first | exact .inl unset | exact unset.elim

section Stages

variable {f : Find Key Value} {i : Nat} {prev : Addr} {cur : Ptr}

@[simp] theorem stage_enter (start : Start Key Value) : (s.enter t start).stage = .inside := by
  unfold enter
  split
  · cases start <;> rfl
  · rfl

@[simp] theorem stage_eraseDown {key : Key} {c : Addr} {m : Bool} :
    (s.eraseDown t key c i m).stage = .inside := by
  unfold eraseDown
  split
  · exact stage_enter _
  · rfl

@[simp] theorem stage_findDown : (findDown f i prev cur).stage = .standing := by
  unfold findDown
  split <;> rfl

theorem stage_findLoop : (findLoop f i prev cur).stage ≠ .outside := by
  cases cur with
  | null | markedNull =>
      show (findDown f i prev _).stage ≠ .outside
      rw [stage_findDown]
      exact Stage.noConfusion
  | node c | marked c => exact Stage.noConfusion

@[simp] theorem stage_indexLevel {x : Index Key} :
    (indexLevel x prev i : PC Key Value).stage = .inside := by
  cases i with
  | zero => simp only [indexLevel]; split <;> rfl
  | succ i => rfl

@[simp] theorem stage_indexHere {x : Index Key} :
    (indexHere x i prev cur : PC Key Value).stage = .inside := by
  unfold indexHere
  split <;> rfl

@[simp] theorem stage_indexWhile {x : Index Key} :
    (indexWhile x i prev cur : PC Key Value).stage = .inside := by
  cases cur with
  | null => exact stage_indexHere
  | _ => rfl

@[simp] theorem stage_itemsLoop {what : Extract} {ret : List (Item Key Value)} {prev : Ptr} :
    (itemsLoop what ret prev cur).stage = .inside := by
  cases cur with
  | node c => cases prev <;> rfl
  | _ => rfl

theorem stage_found {hit : Bool} {pc' : PC Key Value}
    (found : (s.found f prev cur hit).2 = .goto pc') : pc'.stage = .inside := by
  unfold State.found at found
  repeat' split at found
  all_goals first | (cases found; done) | (cases found; rfl)

/-- A call that goes on is not over, and `find` fills slot 2 before it looks at anything. -/
theorem access_stage {pc' : PC Key Value} (access : s.Access t pc e (.goto pc')) :
    pc'.stage ≠ .outside ∧
      (pc'.stage = .standing → pc.stage = .standing ∨ ∃ f, pc = .findHead f) := by
  have inside : pc'.stage = .inside → pc'.stage ≠ .outside ∧
      (pc'.stage = .standing → pc.stage = .standing ∨ ∃ f, pc = .findHead f) := by
    intro is
    rw [is]
    exact ⟨Stage.noConfusion, fun same => Stage.noConfusion same⟩
  have standing : pc'.stage ≠ .outside → pc.stage = .standing → pc'.stage ≠ .outside ∧
      (pc'.stage = .standing → pc.stage = .standing ∨ ∃ f, pc = .findHead f) :=
    fun busy is => ⟨busy, fun _ => .inl is⟩
  generalize going : (.goto pc' : Next Key Value) = nx at access
  cases access with
  | acquired start => cases going; cases start <;> exact inside rfl
  | headSet f => cases going; exact ⟨Stage.noConfusion, fun _ => .inr ⟨f, rfl⟩⟩
  | matchNull | matchNode => exact inside (stage_found going.symm)
  | curLoaded | curSet => cases going; exact standing stage_findLoop rfl
  | keyReached | drop | retired =>
      cases going
      exact standing (by rw [stage_findDown]; exact Stage.noConfusion) rfl
  | clearedLast k leave =>
      cases leave with
      | ret r => cases going
      | free n => cases going; exact inside rfl
  | itemsNextLoaded =>
      simp only [itemsNextOf] at going
      split at going <;> cases going <;> exact inside rfl
  | freed | exited => cases going
  | _ =>
      cases going
      first
        | exact inside rfl
        | exact standing Stage.noConfusion rfl
        | exact inside (by simp [indexExit])

end Stages

section Exits

variable {f : Find Key Value} {i : Nat} {prev : Addr} {cur : Ptr} {r : Result Key Value}

theorem found_ret {hit : Bool} (atNode : hit = true → ∃ c, cur = .node c) :
    (∃ r, (s.found f prev cur hit).2 = .ret r) ↔ f.site.leaves hit = true := by
  unfold found Site.leaves
  cases f.site with
  | insert value level =>
      cases hit with
      | true => exact ⟨fun _ => rfl, fun _ => ⟨_, rfl⟩⟩
      | false => exact ⟨fun ⟨r, returns⟩ => (nomatch returns), fun found => (nomatch found)⟩
  | erase =>
      cases hit with
      | true =>
          obtain ⟨c, rfl⟩ := atNode rfl
          exact ⟨fun ⟨r, returns⟩ => (nomatch returns), fun found => (nomatch found)⟩
      | false => exact ⟨fun _ => rfl, fun _ => ⟨_, rfl⟩⟩
  | exists_ | eraseAgain c m =>
      exact ⟨fun ⟨r, returns⟩ => (nomatch returns), fun found => (nomatch found)⟩
  | find | insertAgain n level =>
      simp only
      split
      all_goals exact ⟨fun ⟨r, returns⟩ => (nomatch returns), fun found => (nomatch found)⟩

theorem null_hit : false = true → ∃ c, Ptr.null = .node c := Bool.noConfusion

/-- The points from which a call returns. -/
theorem access_ret (access : s.Access t pc e (.ret r)) :
    pc = .exiting ∨ (∃ n, pc = .free n) ∨ (∃ k leave, pc = .clear k k leave) ∨
      s.early pc = true := by
  generalize returns : (.ret r : Next Key Value) = nx at access
  cases access with
  | matchNull f prev =>
      exact .inr (.inr (.inr ((found_ret null_hit).1 ⟨r, returns.symm⟩)))
  | matchNode f prev cur =>
      exact .inr (.inr (.inr ((found_ret fun _ => ⟨cur, rfl⟩).1 ⟨r, returns.symm⟩)))
  | clearedLast k leave => exact .inr (.inr (.inl ⟨k, leave, rfl⟩))
  | freed n => exact .inr (.inl ⟨n, rfl⟩)
  | exited => exact .inl rfl
  | _ => cases returns

theorem early_ret (access : s.Access t pc e nx) (isEarly : s.early pc = true) :
    ∃ r, nx = .ret r := by
  cases access with
  | matchNull f prev => exact (found_ret null_hit).2 isEarly
  | matchNode f prev cur => exact (found_ret fun _ => ⟨cur, rfl⟩).2 isEarly
  | matchFault f prev cur bad => rcases bad with rfl | ⟨a, rfl⟩ <;> cases isEarly
  | _ => cases isEarly

theorem early_stage (isEarly : s.early pc = true) : pc.stage = .standing ∧ pc.call = none := by
  cases pc <;> first | exact ⟨rfl, rfl⟩ | cases isEarly

end Exits

/-! ## A running call -/

/-- All four hazard slots of a thread are null. -/
def Clear (s : State T Key Value) (t : T) : Prop :=
  ∀ k < 4, s.sys.mine t k = .null

/-- Thread `t` is in a call that it started with null slots. -/
structure Underway (s : State T Key Value) (t : T) : Prop where
  busy : (s.pc t).stage ≠ .outside
  unset : ∀ k < 4, (s.pc t).Unset k → s.sys.mine t k = .null
  standing : (s.pc t).stage = .standing → s.sys.mine t 2 ≠ .null

@[simp] theorem mine_goto : (s.goto t pc).sys.mine u k = s.sys.mine u k := by
  unfold goto
  simp only
  split <;> rfl

theorem mine_after (nx : Next Key Value) : (s.after t nx).sys.mine u k = s.sys.mine u k := by
  rw [after_goto, mine_goto]

/-- A slot that has been null is only written with null. -/
theorem call_unset {c : Hazard.Call Ptr (Addr × Nat)} (calls : pc.call = some c)
    (isSlot : c.slot? = some k) (unset : pc.Unset k ∨ ∃ last leave, pc = .clear k last leave) :
    c = .setHazard k .null := by
  rcases unset with unset | ⟨last, leave, rfl⟩
  · cases pc <;> cases calls <;> cases isSlot
    case inl.findHead.refl.refl f | inl.findCur.refl.refl f i prev
        | inl.findNext.refl.refl f i prev cur | inl.findSetPrev.refl.refl f i prev cur
        | inl.findSetCur.refl.refl f i prev cur | inl.findClear.refl.refl f i prev cur =>
      simp only [PC.Unset, Find.Unset] at unset
      split at unset
      · exact unset.elim
      · cases unset
    case inl.clear.refl.refl => rfl
    all_goals first | exact unset.elim | exact absurd rfl unset | cases unset
  · cases calls
    rfl

/-- `find` only ever stores a node in slot 2. -/
theorem call_standing {c : Hazard.Call Ptr (Addr × Nat)} (calls : pc.call = some c)
    (isSlot : c.slot? = some 2) (stands : pc.stage = .standing ∨ ∃ f, pc = .findHead f) :
    ∃ a, c = .setHazard 2 (.node a) := by
  rcases stands with stands | ⟨f, rfl⟩
  · cases pc <;> cases calls <;> cases isSlot
    case inl.findSetPrev.refl.refl f i prev next => exact ⟨prev, rfl⟩
    all_goals cases stands
  · cases calls
    exact ⟨head, rfl⟩

theorem Underway.sys (under : s.Underway t) (reached : s.Reached)
    {sys : Hazard.Sys T Ptr (Addr × Nat)} {q : Option (Hazard.Ret Ptr)}
    {c : Hazard.Call Ptr (Addr × Nat)} (calls : (s.pc t).call = some c)
    (stepped : s.sys.step 4 s.cell t = some (sys, q)) :
    (∀ k < 4, ((s.pc t).Unset k ∨ ∃ last leave, s.pc t = .clear k last leave) →
      sys.mine t k = .null) ∧
    (((s.pc t).stage = .standing ∨ ∃ f, s.pc t = .findHead f) → sys.mine t 2 ≠ .null) := by
  have owned := reached.hazards.orderly.owned
  have runs := reached.level0.synced t
  rw [calls] at runs
  have notRetire : c ≠ .retire := by
    rintro rfl
    refine under.busy ?_
    cases pc : s.pc t <;> rw [pc] at calls <;> cases calls
    rfl
  refine ⟨fun k small unset => ?_, fun stands => ?_⟩
  · by_cases isSlot : c.slot? = some k
    · obtain rfl := call_unset calls isSlot unset
      exact (Hazard.Sys.mine_set owned runs stepped).1
    · by_cases allocates : c = .allocate
      · subst allocates
        have inside : (s.sys.pc t).allocating = true := by
          cases at_ : s.sys.pc t <;> rw [at_] at runs <;> first | rfl | exact runs.elim
        exact Hazard.Sys.mine_allocated reached.hazards.orderly inside stepped
      · rw [Hazard.Sys.mine_kept owned runs stepped isSlot allocates notRetire]
        rcases unset with unset | ⟨last, leave, at_⟩
        · exact under.unset k small unset
        · rw [at_] at calls
          cases calls
          exact absurd rfl isSlot
  · by_cases isSlot : c.slot? = some 2
    · obtain ⟨a, rfl⟩ := call_standing calls isSlot stands
      rw [(Hazard.Sys.mine_set owned runs stepped).1]
      exact Ptr.noConfusion
    · have notAllocate : c ≠ .allocate := by
        rintro rfl
        cases at_ : s.pc t <;> rw [at_] at calls stands <;> cases calls
        rcases stands with stands | ⟨f, same⟩
        · cases stands
        · cases same
      rw [Hazard.Sys.mine_kept owned runs stepped isSlot notAllocate notRetire]
      rcases stands with stands | ⟨f, at_⟩
      · exact under.standing stands
      · rw [at_] at calls
        cases calls
        exact absurd rfl isSlot

/-- The thread's own next point, with the slots as they are there. -/
theorem Underway.moved {q : State T Key Value} (access : s.Access t (s.pc t) e nx)
    (under : s.Underway t)
    (unset : ∀ k < 4, ((s.pc t).Unset k ∨ ∃ last leave, s.pc t = .clear k last leave) →
      q.sys.mine t k = .null)
    (standing : ((s.pc t).stage = .standing ∨ ∃ f, s.pc t = .findHead f) →
      q.sys.mine t 2 ≠ .null) :
    (((q.after t nx).pc t).isIdle = false ∧ (q.after t nx).Underway t ∧
        s.early (s.pc t) = false) ∨
      (((q.after t nx).pc t).isIdle = true ∧
        ((q.after t nx).Clear t ↔ s.early (s.pc t) = false)) := by
  cases nx with
  | goto pc' =>
      obtain ⟨busy, stands⟩ := access_stage access
      have here : (q.after t (.goto pc')).pc t = pc' := after_pc_self
      refine .inl ⟨?_, ⟨?_, fun k small clear => ?_, fun is => ?_⟩, ?_⟩
      · rw [here]
        cases pc' <;> first | rfl | exact absurd rfl busy
      · rw [here]
        exact busy
      · rw [here] at clear
        rw [mine_after]
        exact unset k small (access_unset small access clear)
      · rw [here] at is
        rw [mine_after]
        exact standing (stands is)
      · rw [← Bool.not_eq_true]
        intro early
        obtain ⟨r, returns⟩ := early_ret access early
        cases returns
  | ret r =>
      refine .inr ⟨by rw [after_pc_self]; rfl, ?_⟩
      rcases access_ret access with exits | ⟨n, at_⟩ | ⟨k, leave, at_⟩ | early
      · exact absurd (by rw [exits]; rfl) under.busy
      · rw [at_] at unset ⊢
        refine ⟨fun _ => rfl, fun _ k small => ?_⟩
        rw [mine_after]
        exact unset k small (.inl trivial)
      · rw [at_] at unset ⊢
        refine ⟨fun _ => rfl, fun _ j small => ?_⟩
        rw [mine_after]
        rcases Nat.lt_trichotomy j k with below | rfl | above
        · exact unset j small (.inl (.inl below))
        · exact unset j small (.inr ⟨j, leave, rfl⟩)
        · exact unset j small (.inl (.inr above))
      · refine ⟨fun clear => ?_, fun late => ?_⟩
        · have null := clear 2 (by omega)
          rw [mine_after] at null
          exact absurd null (standing (.inl (early_stage early).1))
        · rw [late] at early
          cases early

/-- One step of the thread: the call goes on, or it returns. -/
theorem Underway.step (under : s.Underway t) (reached : s.Reached) (taken : s.step t = some s') :
    ((s'.pc t).isIdle = false ∧ s'.Underway t ∧ s.early (s.pc t) = false) ∨
      ((s'.pc t).isIdle = true ∧ (s'.Clear t ↔ s.early (s.pc t) = false)) := by
  rcases step_cases reached.level0.synced taken with
    ⟨sys, c, stepped, calls, -, rfl⟩ | ⟨sys, c, r, stepped, calls, -, access, rfl⟩ |
      ⟨e, nx, calls, access, rfl⟩
  · obtain ⟨unset, standing⟩ := under.sys reached calls stepped
    refine .inl ⟨?_, ⟨under.busy, fun k small clear => unset k small (.inl clear),
      fun stands => standing (.inl stands)⟩, ?_⟩
    · show (s.pc t).isIdle = false
      cases at_ : s.pc t <;> first | rfl | exact absurd (by rw [at_]; rfl) under.busy
    · rw [← Bool.not_eq_true]
      intro early
      rw [(early_stage early).2] at calls
      cases calls
  · obtain ⟨unset, standing⟩ := under.sys reached calls stepped
    exact Underway.moved (q := { s with sys := sys }) access under unset standing
  · refine Underway.moved (q := s.apply t e) access under (fun k small unset => ?_)
      fun stands => ?_
    · rw [apply_sys]
      rcases unset with unset | ⟨last, leave, at_⟩
      · exact under.unset k small unset
      · rw [at_] at calls
        cases calls
    · rw [apply_sys]
      rcases stands with stands | ⟨f, at_⟩
      · exact under.standing stands
      · rw [at_] at calls
        cases calls

/-- Whatever another thread does, the call and its slots stay as they are. -/
theorem Underway.other (under : s.Underway t) (reached : s.Reached) {a : Action T Key Value}
    (taken : s.next a = some s') (apart : a ≠ .step t) : s'.Underway t := by
  have resting : ∀ u, (s.pc u).isIdle = true → t ≠ u := by
    rintro u idle rfl
    refine under.busy ?_
    cases at_ : s.pc t <;> rw [at_] at idle <;> first | rfl | cases idle
  have same : s'.pc t = s.pc t → (∀ k, s'.sys.mine t k = s.sys.mine t k) → s'.Underway t := by
    intro pc mine
    refine ⟨by rw [pc]; exact under.busy, fun k small unset => ?_, fun stands => ?_⟩
    · rw [pc] at unset
      rw [mine]
      exact under.unset k small unset
    · rw [pc] at stands
      rw [mine]
      exact under.standing stands
  cases a with
  | call u op =>
      simp only [State.next] at taken
      split at taken
      · rename_i enabled
        have other := resting u enabled.1
        split at taken
        all_goals
          cases taken
          exact same (if_neg other) fun k => mine_goto
      · cases taken
  | exit u =>
      simp only [State.next] at taken
      split at taken
      · rename_i enabled
        cases taken
        exact same (if_neg (resting u enabled.1)) fun k => mine_goto
      · cases taken
  | step u =>
      have other : t ≠ u := by
        rintro rfl
        exact apart rfl
      have owned := reached.hazards.orderly.owned
      rcases step_cases reached.level0.synced taken with
        ⟨sys, c, stepped, -, -, rfl⟩ | ⟨sys, c, r, stepped, -, -, -, rfl⟩ | ⟨e, nx, -, -, rfl⟩
      · exact same rfl fun k => Hazard.Sys.mine_other owned stepped other
      · refine same (after_pc_other other) fun k => ?_
        rw [mine_after]
        exact Hazard.Sys.mine_other owned stepped other
      · refine same (by rw [after_pc_other other, apply_pc]) fun k => ?_
        rw [mine_after, apply_sys]

theorem underway_begin (clear : s.Clear t) {op : Op Key Value} (called : s.next (.call t op) = some s') :
    s'.Underway t := by
  have stage : (s.begin t op).stage = .inside := by
    cases op with
    | insert key value level => rfl
    | _ => exact stage_enter _
  have entered : (s.goto t (s.begin t op)).Underway t := by
    have here : (s.goto t (s.begin t op)).pc t = s.begin t op := if_pos rfl
    refine ⟨?_, fun k small _ => mine_goto.trans (clear k small), fun stands => ?_⟩
    · rw [here, stage]
      exact Stage.noConfusion
    · rw [here, stage] at stands
      cases stands
  simp only [State.next] at called
  split at called
  · split at called
    all_goals
      cases called
      exact ⟨entered.busy, entered.unset, entered.standing⟩
  · cases called

/-- From the middle of a call to its return. -/
theorem Underway.run {as : List (Action T Key Value)} (under : s.Underway t) (reached : s.Reached)
    (inside : Theory.Along State.next (fun q _ => (q.pc t).isIdle = false) s as)
    (ran : Theory.run State.next s as = some s') (returned : (s'.pc t).isIdle = true) :
    s'.Clear t ↔
      Theory.Along State.next (fun q a => a = .step t → q.early (q.pc t) = false) s as := by
  induction as generalizing s with
  | nil =>
      cases ran
      refine absurd ?_ under.busy
      cases at_ : s'.pc t <;> rw [at_] at returned <;> first | rfl | cases returned
  | cons a rest ih =>
      obtain ⟨mid, taken, onRan⟩ := Theory.run_cons_eq_some.1 ran
      have onward := inside.2 mid taken
      have split : Theory.Along State.next (fun q a => a = .step t → q.early (q.pc t) = false) s
          (a :: rest) ↔ (a = .step t → s.early (s.pc t) = false) ∧
            Theory.Along State.next (fun q a => a = .step t → q.early (q.pc t) = false) mid rest := by
        simp [Theory.Along, taken]
      rw [split]
      by_cases mine : a = .step t
      · subst mine
        rcases under.step reached taken with ⟨-, under, late⟩ | ⟨idle, released⟩
        · rw [ih under (reached.next taken) onward onRan]
          exact ⟨fun rest => ⟨fun _ => late, rest⟩, And.right⟩
        · -- the thread has returned, so the run ends here
          cases rest with
          | nil =>
              cases onRan
              rw [released]
              exact ⟨fun late => ⟨fun _ => late, trivial⟩, fun both => both.1 rfl⟩
          | cons b more =>
              have busy : (mid.pc t).isIdle = false := onward.1
              rw [idle] at busy
              cases busy
      · rw [ih (under.other reached taken mine) (reached.next taken) onward onRan]
        exact ⟨fun rest => ⟨fun is => absurd is mine, rest⟩, And.right⟩

/-- **A call releases its hazards** if and only if it does not return early: whatever the other
threads do meanwhile, a call that starts with null slots returns with null slots, except an
`insert` whose first search finds the key and an `erase` whose first search does not. -/
theorem hazards_released_iff {as bs : List (Action T Key Value)} {op : Op Key Value}
    {s₁ s₂ : State T Key Value}
    (ran : Theory.run State.next (init : State T Key Value) as = some s) (clear : s.Clear t)
    (called : s.next (.call t op) = some s₁)
    (inside : Theory.Along State.next (fun q _ => (q.pc t).isIdle = false) s₁ bs)
    (ran' : Theory.run State.next s₁ bs = some s₂) (returned : (s₂.pc t).isIdle = true) :
    s₂.Clear t ↔
      Theory.Along State.next (fun q a => a = .step t → q.early (q.pc t) = false) s₁ bs :=
  (underway_begin clear called).run ((reached_run ran).next called) inside ran' returned

/-- `insert` of a new key. -/
theorem hazards_released_insert : ∃ s₁ s₂ : State (Fin 2) Nat Nat,
    State.init.next (.call 0 (.insert 1 10 0)) = some s₁ ∧
    Theory.run State.next s₁ (List.replicate 21 (.step 0)) = some s₂ ∧
    s₂.result 0 = .flag true ∧ s₂.Clear 0 := by
  have played : ((State.init : State (Fin 2) Nat Nat).next (.call 0 (.insert 1 10 0))).bind
      (fun s₁ => (Theory.run State.next s₁ (List.replicate 21 (.step 0))).map fun s₂ =>
        decide (Theory.Along State.next (fun q _ => (q.pc 0).isIdle = false) s₁
            (List.replicate 21 (.step 0)) ∧
          Theory.Along State.next (fun q a => a = .step 0 → q.early (q.pc 0) = false) s₁
            (List.replicate 21 (.step 0)) ∧
          (s₂.pc 0).isIdle = true ∧ s₂.result 0 = .flag true)) = some true := by
    decide +kernel
  obtain ⟨s₁, called, played⟩ := Option.bind_eq_some_iff.1 played
  obtain ⟨s₂, ran', checked⟩ := Option.map_eq_some_iff.1 played
  obtain ⟨inside, late, returned, result⟩ := of_decide_eq_true checked
  have start : Theory.run State.next (State.init : State (Fin 2) Nat Nat) [] = some .init := rfl
  exact ⟨s₁, s₂, called, ran', result,
    (hazards_released_iff start (fun _ _ => rfl) called inside ran' returned).2 late⟩

/-- `erase` of a key that is not there returns with `head_` in slot 2. -/
theorem early_return_keeps_slots : ∃ s₁ s₂ : State (Fin 2) Nat Nat,
    (State.init : State (Fin 2) Nat Nat).Clear 0 ∧
    (State.init : State (Fin 2) Nat Nat).next (.call 0 (.erase 1)) = some s₁ ∧
    Theory.run State.next s₁ (List.replicate 11 (.step 0)) = some s₂ ∧
    (s₂.pc 0).isIdle = true ∧ s₂.sys.mine 0 2 = .node head ∧ ¬ s₂.Clear 0 := by
  have played : ((State.init : State (Fin 2) Nat Nat).next (.call 0 (.erase 1))).bind
      (fun s₁ => (Theory.run State.next s₁ (List.replicate 11 (.step 0))).map fun s₂ =>
        ((s₂.pc 0).isIdle, s₂.sys.mine 0 2)) = some (true, .node head) := by
    decide +kernel
  obtain ⟨s₁, called, played⟩ := Option.bind_eq_some_iff.1 played
  obtain ⟨s₂, ran', checked⟩ := Option.map_eq_some_iff.1 played
  obtain ⟨returned, kept⟩ := Prod.mk.inj checked
  refine ⟨s₁, s₂, fun _ _ => rfl, called, ran', returned, kept, fun clear => ?_⟩
  have null := clear 2 (by omega)
  rw [kept] at null
  cases null

end State

end Ccmetrics.SkipList
