/-
# SkipList.Counts -- link counts and the moment a node is retired

`link_count` starts at the height of the tower. Level 0 accounts for one of it as long as the
node is on the chain or a `find` has cut it off and not counted yet; the levels above it account
for the rest until `insert`, which links none of them, gives its overage back. `Duty` says which
of this a thread still has to do, and `due` what the count must be.

`retired_in_time` is the result: a node is retired once, when it is marked and no list leads to
it, by the `find` that cut it off or by the `insert` that made it; no count wraps; and when no
operation is running every node that has been cut off has been retired.
-/
import Ccmetrics.Hazard.Cover
import Ccmetrics.SkipList.Level0

namespace Ccmetrics.SkipList

set_option autoImplicit false
set_option linter.unusedSectionVars false

variable {T Key Value : Type} [DecidableEq T] [LinearOrder Key] [Inhabited Key] [Inhabited Value]

/-- What a thread still has to do with a link count. -/
inductive Duty where
  | drop (n : Addr)
  | build (n : Addr)
  | retire (n : Addr)
  deriving DecidableEq

def PC.duty : PC Key Value → Option Duty
  | .findDrop _ _ _ cur => some (.drop cur)
  | .findClear _ _ _ cur => some (.retire cur)
  | .insertOverage _ _ n | .insertDrop n _ => some (.build n)
  | .indexCur x _ _ => some (.build x.n)
  | _ => none

/-- The node that a thread hands to `retireNode`. -/
def PC.retires : PC Key Value → Option Addr
  | .findRetire _ _ _ cur => some cur
  | .insertRetire n => some n
  | _ => none

/-- The node whose count a thread has set and which it has not linked yet. -/
def PC.ready : PC Key Value → Option Addr
  | .insertStore _ _ n _ _ | .insertLink _ _ n _ _ => some n
  | pc => pc.finding.bind Find.owns

/-- The level that an `insert` has drawn. -/
def PC.level : PC Key Value → Nat
  | .insertLevel _ _ level => level
  | pc =>
      match pc.finding with
      | some ⟨_, .insert _ level⟩ => level
      | _ => 0

namespace State

variable {s s' : State T Key Value} {t u : T} {e : Effect Key Value} {nx : Next Key Value}
variable {pc : PC Key Value}

/-! ## Duties along a step -/

section Duties

variable {f : Find Key Value} {i : Nat} {prev : Addr} {cur : Ptr}

theorem duty_findDown : (findDown f i prev cur).duty = none ∧ (findDown f i prev cur).retires = none := by
  simp only [findDown]
  split <;> exact ⟨rfl, rfl⟩

theorem duty_findLoop : (findLoop f i prev cur).duty = none ∧ (findLoop f i prev cur).retires = none := by
  cases cur with
  | null | markedNull => exact duty_findDown
  | node c | marked c => exact ⟨rfl, rfl⟩

theorem duty_enter {start : Start Key Value} :
    (s.enter t start).duty = none ∧ (s.enter t start).retires = none := by
  simp only [enter]
  split
  · cases start <;> exact ⟨rfl, rfl⟩
  · exact ⟨rfl, rfl⟩

theorem duty_eraseDown {key : Key} {cur : Addr} {m : Bool} :
    (s.eraseDown t key cur i m).duty = none ∧ (s.eraseDown t key cur i m).retires = none := by
  simp only [eraseDown]
  split
  · exact duty_enter
  · exact ⟨rfl, rfl⟩

theorem duty_itemsLoop {what : Extract} {ret : List (Item Key Value)} {prev : Ptr} :
    (itemsLoop what ret prev cur).duty = none ∧ (itemsLoop what ret prev cur).retires = none := by
  cases cur with
  | node c => cases prev <;> exact ⟨rfl, rfl⟩
  | _ => exact ⟨rfl, rfl⟩

theorem duty_found {hit : Bool} :
    (s.found f prev cur hit).2.pc.duty = none ∧ (s.found f prev cur hit).2.pc.retires = none := by
  simp only [found]
  repeat' split
  all_goals exact ⟨rfl, rfl⟩

theorem retires_indexLevel (x : Index Key) (prev : Addr) (i : Nat) : (indexLevel x prev i : PC Key Value).retires = none := by
  cases i with
  | zero => simp only [indexLevel]; split <;> rfl
  | succ i => rfl

/-- `insert` keeps its overage in mind until it has given it back, unless there is none. -/
theorem duty_indexLevel (x : Index Key) (prev : Addr) (i : Nat) :
    (indexLevel x prev i : PC Key Value).duty = some (.build x.n) ∨
      x.overage = 0 ∧ (indexLevel x prev i : PC Key Value).duty = none := by
  cases i with
  | zero =>
      simp only [indexLevel]
      split
      · exact .inl rfl
      · exact .inr ⟨by omega, rfl⟩
  | succ i => exact .inl rfl

theorem duty_indexLevel_some {x : Index Key} {d : Duty}
    (duty : (indexLevel x prev i : PC Key Value).duty = some d) : d = .build x.n := by
  have atLevel : (indexLevel x prev i : PC Key Value).duty = some (.build x.n) ∨ _ :=
    duty_indexLevel x prev i
  rcases atLevel with same | ⟨-, none_⟩
  · exact Option.some.inj (duty.symm.trans same)
  · cases none_.symm.trans duty

theorem Memory.index_marked (memory : s.Memory) {x : Index Key} {i : Nat} {prev : Addr}
    (here : s.Local (.indexCur x i prev)) (clean : ((s.node prev).next i).marked0 = false) :
    False := by
  rw [memory.index prev i (Nat.pos_of_ne_zero here.2.2)] at clean
  cases clean

/-- A duty is taken on by cutting a node off, by linking one, or by counting to zero. -/
theorem Local.access_duty {d : Duty} (here : s.Local pc) (memory : s.Memory)
    (access : s.Access t pc e nx) (duty : nx.pc.duty = some d) :
    (pc.duty = some d ∧ e = .none) ∨
    (∃ n prev, d = .drop n ∧ n ∈ s.chain ∧ (s.node prev).next 0 = .node n ∧ pc.duty = none ∧
      e = .unlink prev 0 ((s.node n).next 0).clear) ∨
    (∃ n prev, d = .build n ∧ pc.ready = some n ∧ pc.duty = none ∧ e = .link prev n) ∨
    (∃ n, d = .retire n ∧ pc.duty = some (.drop n) ∧ e = .drop n 1 ∧
      countSub (s.node n).linkCount 1 = 0) := by
  cases access with
  | unlinked f i prev cur nexti points =>
      obtain ⟨window, -, frozen⟩ := here
      obtain rfl := window.bottom
      subst frozen
      exact .inr (.inl ⟨cur, prev, (Option.some.inj duty).symm,
        memory.points window.before.1 points, points, rfl, rfl⟩)
  | dropLast f i prev cur last =>
      exact .inr (.inr (.inr ⟨cur, (Option.some.inj duty).symm, rfl, rfl, last⟩))
  | linked key level n prev =>
      exact .inr (.inr (.inl ⟨n, prev, (Option.some.inj duty).symm, rfl, rfl, rfl⟩))
  | overage key level n =>
      obtain rfl := duty_indexLevel_some duty
      exact .inl ⟨rfl, rfl⟩
  | indexMarked x i prev isMarked =>
      rw [Next.pc_goto, indexExit] at duty
      obtain rfl := duty_indexLevel_some duty
      exact .inl ⟨rfl, rfl⟩
  | indexLoaded x i prev clean => exact (memory.index_marked here clean).elim
  | acquired start => cases start <;> cases duty
  | curLoaded | curSet => cases duty_findLoop.1.symm.trans duty
  | keyReached | drop | retired => cases duty_findDown.1.symm.trans duty
  | matchNull | matchNode => cases duty_found.1.symm.trans duty
  | eraseFlat | marked => cases duty_eraseDown.1.symm.trans duty
  | grown | levelled | linkFailed => cases duty_enter.1.symm.trans duty
  | itemsLoaded | itemsCurSet => rw [Next.pc_goto, duty_itemsLoop.1] at duty; cases duty
  | itemsNextLoaded =>
      simp only [itemsNextOf] at duty
      split at duty <;> cases duty
  | clearedLast k leave => cases leave <;> cases duty
  | indexBelow | indexReached | indexNextMarked | indexNextLoaded | indexPrevChanged
  | indexPrevSame | indexPrevSet | indexCurSet | indexStored | indexed | indexFailed | indexDead
  | indexAlive => exact here.elim
  | _ => cases duty

/-- The overage that `insert` carries along is the whole tower above level 0. -/
def Overage (s : State T Key Value) : PC Key Value → Prop
  | .indexCur x _ _ => x.overage = (s.node x.n).height - 1
  | .insertDrop n overage => overage = (s.node n).height - 1 ∧ 0 < overage
  | _ => True

/-- How a duty is done by an access. -/
def Done (s : State T Key Value) (e : Effect Key Value) (nx : Next Key Value) : Duty → Prop
  | .drop n => e = .drop n 1 ∧ nx.pc.retires = none ∧
      nx.pc.duty = if countSub (s.node n).linkCount 1 = 0 then some (.retire n) else none
  | .retire n => e = .none ∧ nx.pc.retires = some n ∧ nx.pc.duty = none
  | .build n =>
      (e = .none ∧ nx.pc.retires = none ∧
        (nx.pc.duty = some (.build n) ∨ (s.node n).height - 1 = 0 ∧ nx.pc.duty = none)) ∨
      (e = .drop n ((s.node n).height - 1) ∧ 0 < (s.node n).height - 1 ∧ nx.pc.duty = none ∧
        nx.pc.retires =
        if countSub (s.node n).linkCount ((s.node n).height - 1) = 0 then some n else none)

theorem Local.duty_done {d : Duty} (here : s.Local pc) (memory : s.Memory)
    (overage : s.Overage pc) (access : s.Access t pc e nx) (duty : pc.duty = some d) :
    s.Done e nx d := by
  cases access with
  | dropLast f i prev cur last =>
      cases duty
      exact ⟨rfl, rfl, by simp [last, PC.duty]⟩
  | drop f i prev cur more =>
      cases duty
      exact ⟨rfl, duty_findDown.2, by simp [more, duty_findDown.1]⟩
  | curCleared f i prev cur =>
      cases duty
      exact ⟨rfl, rfl, rfl⟩
  | overage key level n =>
      cases duty
      exact .inl ⟨rfl, retires_indexLevel .., duty_indexLevel ..⟩
  | indexMarked x i prev isMarked =>
      cases duty
      have whole : x.overage = (s.node x.n).height - 1 := overage
      refine .inl ⟨rfl, retires_indexLevel x head 0, ?_⟩
      rw [← whole]
      exact duty_indexLevel x head 0
  | indexLoaded x i prev clean => exact (memory.index_marked here clean).elim
  | overageLast n k last =>
      cases duty
      obtain ⟨rfl, some_⟩ : k = (s.node n).height - 1 ∧ 0 < k := overage
      exact .inr ⟨rfl, some_, rfl, by simp [last, PC.retires]⟩
  | overageDropped n k more =>
      cases duty
      obtain ⟨rfl, some_⟩ : k = (s.node n).height - 1 ∧ 0 < k := overage
      exact .inr ⟨rfl, some_, rfl, by simp [more, PC.retires]⟩
  | _ => cases duty

/-- A node is retired by the `find` that has cut it off, or by the `insert` that made it. -/
theorem Local.access_retires {n : Addr} (here : s.Local pc) (memory : s.Memory)
    (access : s.Access t pc e nx) (retires : nx.pc.retires = some n) :
    (∃ f i prev, pc = .findClear f i prev n) ∨
      ∃ overage, pc = .insertDrop n overage ∧ countSub (s.node n).linkCount overage = 0 := by
  cases access with
  | curCleared => cases retires; exact .inl ⟨_, _, _, rfl⟩
  | overageLast n overage last => cases retires; exact .inr ⟨_, rfl, last⟩
  | overage | indexMarked =>
      simp only [Next.pc_goto, indexExit, retires_indexLevel] at retires
      cases retires
  | indexLoaded x i prev clean => exact (memory.index_marked here clean).elim
  | acquired start => cases start <;> cases retires
  | curLoaded | curSet => cases duty_findLoop.2.symm.trans retires
  | keyReached | drop | retired => cases duty_findDown.2.symm.trans retires
  | matchNull | matchNode => cases duty_found.2.symm.trans retires
  | eraseFlat | marked => cases duty_eraseDown.2.symm.trans retires
  | grown | levelled | linkFailed => cases duty_enter.2.symm.trans retires
  | itemsLoaded | itemsCurSet => rw [Next.pc_goto, duty_itemsLoop.2] at retires; cases retires
  | itemsNextLoaded =>
      simp only [itemsNextOf] at retires
      split at retires <;> cases retires
  | clearedLast k leave => cases leave <;> cases retires
  | indexBelow | indexReached | indexNextMarked | indexNextLoaded | indexPrevChanged
  | indexPrevSame | indexPrevSet | indexCurSet | indexStored | indexed | indexFailed | indexDead
  | indexAlive => exact here.elim
  | _ => cases retires

theorem Local.retires_duty {n : Addr} (here : s.Local pc) (memory : s.Memory)
    (access : s.Access t pc e nx) (retires : nx.pc.retires = some n) :
    pc.duty = some (.retire n) ∨ pc.duty = some (.build n) := by
  rcases here.access_retires memory access retires with ⟨f, i, prev, rfl⟩ | ⟨overage, rfl, -⟩
  · exact .inl rfl
  · exact .inr rfl

/-- Cutting a node off is a duty taken on. -/
theorem Local.unlink_duty {prev : Addr} {j : Nat} {p : Ptr} (here : s.Local pc)
    (access : s.Access t pc (.unlink prev j p) nx) :
    ∃ cur, (s.node prev).next 0 = .node cur ∧ nx.pc.duty = some (.drop cur) := by
  generalize effect : (.unlink prev j p : Effect Key Value) = e at access
  cases access with
  | unlinked f i prev' cur nexti points =>
      cases effect
      obtain rfl := here.1.bottom
      exact ⟨cur, points, rfl⟩
  | matchNull f prev | matchNode f prev cur =>
      simp only [found] at effect
      repeat' split at effect
      all_goals cases effect
  | _ => cases effect

theorem Local.link_duty {prev n : Addr} (access : s.Access t pc (.link prev n) nx) :
    pc.ready = some n ∧ pc.duty = none ∧ nx.pc.duty = some (.build n) ∧ nx.pc.retires = none := by
  generalize effect : (.link prev n : Effect Key Value) = e at access
  cases access with
  | linked => cases effect; exact ⟨rfl, rfl, rfl, rfl⟩
  | matchNull f prev | matchNode f prev cur =>
      simp only [found] at effect
      repeat' split at effect
      all_goals cases effect
  | _ => cases effect

/-- Only a thread with a duty to a node counts it down. -/
theorem Local.drop_duty {n : Addr} {k : Nat} (access : s.Access t pc (.drop n k) nx) :
    pc.duty = some (.drop n) ∨ pc.duty = some (.build n) := by
  generalize effect : (.drop n k : Effect Key Value) = e at access
  cases access with
  | dropLast | drop => cases effect; exact .inl rfl
  | overageLast | overageDropped => cases effect; exact .inr rfl
  | matchNull f prev | matchNode f prev cur =>
      simp only [found] at effect
      repeat' split at effect
      all_goals cases effect
  | _ => cases effect

/-- The count of a node is set before `insert` tries to link it. -/
theorem Local.access_ready {n : Addr} (here : s.Local pc) (memory : s.Memory)
    (access : s.Access t pc e nx) (ready : nx.pc.ready = some n) :
    pc.ready = some n ∨ e = .count n := by
  have findDown_ready : ∀ (f : Find Key Value) i prev cur,
      (findDown f i prev cur).ready = f.owns := by
    intro f i prev cur
    simp only [findDown]
    split <;> rfl
  have findLoop_ready : ∀ (f : Find Key Value) i prev cur,
      (findLoop f i prev cur).ready = some n → f.owns = some n := by
    intro f i prev cur ready
    cases cur with
    | null | markedNull => exact (findDown_ready ..).symm.trans ready
    | node c => exact ready
    | marked c => cases ready
  have enter_ready : ∀ f : Find Key Value, (s.enter t (.find f)).ready = f.owns := by
    intro f
    simp only [enter]
    split <;> rfl
  cases access with
  | counted => cases ready; exact .inr rfl
  | acquired start =>
      cases start with
      | find f => exact .inl ready
      | first => cases ready
      | items what => cases ready
  | curLoaded | curSet => exact .inl (findLoop_ready _ _ _ _ ready)
  | keyReached | drop | retired => exact .inl ((findDown_ready ..).symm.trans ready)
  | matchNull f prev | matchNode f prev cur =>
      refine .inl ?_
      simp only [found] at ready
      split at ready
      case h_6 m level atSite =>
          split at ready
          · cases ready
          · cases ready
            simp [PC.ready, PC.finding, Find.owns, atSite]
      all_goals first | cases ready | (split at ready <;> cases ready)
  | eraseFlat | marked =>
      simp only [Next.pc_goto, eraseDown] at ready
      split at ready
      · rw [enter_ready] at ready; cases ready
      · cases ready
  | grown | levelled => rw [Next.pc_goto, enter_ready] at ready; cases ready
  | linkFailed => exact .inl ((enter_ready _).symm.trans ready)
  | overage | indexMarked =>
      simp only [Next.pc_goto, indexExit, indexLevel] at ready
      split at ready <;> first | cases ready | (split at ready <;> cases ready)
  | indexLoaded x i prev clean => exact (memory.index_marked here clean).elim
  | itemsLoaded | itemsCurSet =>
      simp only [Next.pc_goto, itemsLoop] at ready
      repeat' split at ready
      all_goals cases ready
  | itemsNextLoaded =>
      simp only [itemsNextOf] at ready
      split at ready <;> cases ready
  | clearedLast k leave => cases leave <;> cases ready
  | indexBelow | indexReached | indexNextMarked | indexNextLoaded | indexPrevChanged
  | indexPrevSame | indexPrevSet | indexCurSet | indexStored | indexed | indexFailed | indexDead
  | indexAlive => exact here.elim
  | _ => first | exact .inl ready | cases ready

theorem Local.access_overage (here : s.Local pc) (memory : s.Memory) (overage : s.Overage pc)
    (access : s.Access t pc e nx) : s.Overage nx.pc := by
  have atLevel : ∀ (x : Index Key) i prev, x.overage = (s.node x.n).height - 1 →
      s.Overage (indexLevel x prev i : PC Key Value) := by
    intro x i prev whole
    cases i with
    | zero =>
        simp only [indexLevel]
        split
        · exact ⟨whole, ‹_›⟩
        · trivial
    | succ i => exact whole
  have enter_overage : ∀ start : Start Key Value, s.Overage (s.enter t start) := by
    intro start
    simp only [enter]
    split
    · cases start <;> trivial
    · trivial
  have findDown_overage : ∀ (f : Find Key Value) i prev cur, s.Overage (findDown f i prev cur) := by
    intro f i prev cur
    simp only [findDown]
    split <;> trivial
  have findLoop_overage : ∀ (f : Find Key Value) i prev cur, s.Overage (findLoop f i prev cur) := by
    intro f i prev cur
    cases cur with
    | null | markedNull => exact findDown_overage ..
    | node c | marked c => trivial
  cases access with
  | overage key level n => exact atLevel _ _ _ rfl
  | indexMarked x i prev isMarked => exact atLevel x 0 head overage
  | indexLoaded x i prev clean => exact (memory.index_marked here clean).elim
  | acquired start => cases start <;> trivial
  | curLoaded | curSet => exact findLoop_overage ..
  | keyReached | drop | retired => exact findDown_overage ..
  | matchNull | matchNode =>
      simp only [found]
      repeat' split
      all_goals trivial
  | eraseFlat | marked =>
      simp only [Next.pc_goto, eraseDown]
      split
      · exact enter_overage _
      · trivial
  | grown | levelled | linkFailed => exact enter_overage _
  | itemsLoaded | itemsCurSet =>
      simp only [Next.pc_goto, itemsLoop]
      repeat' split
      all_goals trivial
  | itemsNextLoaded =>
      simp only [Next.pc_goto, itemsNextOf]
      split <;> trivial
  | clearedLast k leave => cases leave <;> trivial
  | indexBelow | indexReached | indexNextMarked | indexNextLoaded | indexPrevChanged
  | indexPrevSame | indexPrevSet | indexCurSet | indexStored | indexed | indexFailed | indexDead
  | indexAlive => exact here.elim
  | _ => trivial

theorem Local.duty_linked {d : Duty} (here : s.Local pc) (duty : pc.duty = some d) :
    match d with
    | .drop n | .build n | .retire n => s.linked n = true := by
  cases pc with
  | findDrop f i prev cur => cases duty; exact here.1.linked
  | findClear f i prev cur => cases duty; exact here.1.linked
  | insertOverage key level n => cases duty; exact here.1
  | indexCur x i prev => cases duty; exact here.1
  | insertDrop n overage => cases duty; exact here
  | _ => cases duty

theorem Local.ready_owns {n : Addr} (ready : pc.ready = some n) : pc.owns = some n := by
  cases pc with
  | acquire start => cases start <;> exact ready
  | _ => first | exact ready | cases ready

theorem Local.access_level (here : s.Local pc) (memory : s.Memory) (access : s.Access t pc e nx)
    (low : pc.level < kMaxHeight) : nx.pc.level < kMaxHeight := by
  have zero : 0 < kMaxHeight := by decide
  have findDown_level : ∀ (f : Find Key Value) i prev cur,
      (findDown f i prev cur).level = (PC.findHead f).level := by
    intro f i prev cur
    simp only [findDown]
    split <;> rfl
  have findLoop_level : ∀ (f : Find Key Value) i prev cur, (PC.findHead f).level < kMaxHeight →
      (findLoop f i prev cur).level < kMaxHeight := by
    intro f i prev cur below
    cases cur with
    | null | markedNull => rw [findLoop, findDown_level]; exact below; all_goals simp
    | node c => exact below
    | marked c => exact zero
  have enter_level : ∀ f : Find Key Value, (s.enter t (.find f)).level = (PC.findHead f).level := by
    intro f
    simp only [enter]
    split <;> rfl
  cases access with
  | acquired start => cases start <;> exact low
  | curLoaded | curSet => exact findLoop_level _ _ _ _ low
  | keyReached | drop | retired => rw [Next.pc_goto, findDown_level]; exact low
  | matchNull | matchNode =>
      simp only [found]
      repeat' split
      all_goals exact zero
  | eraseFlat | marked =>
      simp only [Next.pc_goto, eraseDown]
      split
      · rw [enter_level]; exact zero
      · exact zero
  | grown key value level lower =>
      rw [Next.pc_goto, enter_level]
      exact Nat.lt_of_le_of_lt lower low
  | levelled key value level => rw [Next.pc_goto, enter_level]; exact low
  | linkFailed => rw [Next.pc_goto, enter_level]; exact zero
  | overage | indexMarked =>
      simp only [Next.pc_goto, indexExit, indexLevel]
      repeat' split
      all_goals exact zero
  | indexLoaded x i prev clean => exact (memory.index_marked here clean).elim
  | itemsLoaded | itemsCurSet =>
      simp only [Next.pc_goto, itemsLoop]
      repeat' split
      all_goals exact zero
  | itemsNextLoaded =>
      simp only [Next.pc_goto, itemsNextOf]
      split <;> exact zero
  | clearedLast k leave => cases leave <;> exact zero
  | indexBelow | indexReached | indexNextMarked | indexNextLoaded | indexPrevChanged
  | indexPrevSame | indexPrevSet | indexCurSet | indexStored | indexed | indexFailed | indexDead
  | indexAlive => exact here.elim
  | _ => first | exact low | exact zero

/-- No tower is higher than the drawn level allows. -/
theorem Local.access_create {h : Nat} {key : Key} {value : Value}
    (access : s.Access t pc (.create h key value) nx) : h = pc.level + 1 := by
  generalize effect : (.create h key value : Effect Key Value) = e at access
  cases access with
  | matchNull f prev | matchNode f prev cur =>
      obtain ⟨key', site⟩ := f
      simp only [found] at effect
      repeat' split at effect
      all_goals cases effect
      all_goals rfl
  | _ => cases effect

end Duties

/-! ## The counts -/

/-- Level 0 still accounts for the node. -/
def Owes (s : State T Key Value) (n : Addr) : Prop :=
  n ∈ s.chain ∨ ∃ t, (s.pc t).duty = some (.drop n)

/-- The levels above still account for the node. -/
def Builds (s : State T Key Value) (n : Addr) : Prop :=
  ∃ t, (s.pc t).duty = some (.build n)

open Classical in
/-- What the link count of a node must be. -/
noncomputable def due (s : State T Key Value) (n : Addr) : Nat :=
  (if s.Owes n then 1 else 0) + if s.Builds n then (s.node n).height - 1 else 0

structure Counted (s : State T Key Value) : Prop where
  short : ∀ a, (s.node a).height ≤ kMaxHeight
  low : s.height < kMaxHeight
  levels : ∀ t, (s.pc t).level < kMaxHeight
  overage : ∀ t, s.Overage (s.pc t)
  ready : ∀ t n, (s.pc t).ready = some n → (s.node n).linkCount = (s.node n).height
  count : ∀ n, s.linked n = true → (s.node n).linkCount = s.due n
  cut : ∀ t n, (s.pc t).duty = some (.drop n) → n ∉ s.chain
  once : ∀ t u d, (s.pc t).duty = some d → (s.pc u).duty = some d → t = u
  spent : ∀ n, s.linked n = true → (s.node n).linkCount = 0 →
    .node n ∈ s.sys.retired ∨ ∃ t, (s.pc t).duty = some (.retire n)
  waiting : ∀ t n, (s.pc t).duty = some (.retire n) →
    (s.node n).linkCount = 0 ∧ .node n ∉ s.sys.retired
  retired : ∀ p ∈ s.sys.retired, ∃ n, p = .node n ∧ s.linked n = true ∧ (s.node n).linkCount = 0
  nodup : s.sys.retired.Nodup

theorem countSub_of_le {c k : Nat} (le : k ≤ c) (small : c < 256) : countSub c k = c - k := by
  simp only [countSub]
  omega

theorem due_owes {n : Addr} (owes : s.Owes n) : 1 ≤ s.due n := by
  simp only [due, if_pos owes]
  omega

theorem due_builds {n : Addr} (builds : s.Builds n) : (s.node n).height - 1 ≤ s.due n := by
  simp only [due, if_pos builds]
  omega

theorem due_congr {n : Addr} (owes : s'.Owes n ↔ s.Owes n) (builds : s'.Builds n ↔ s.Builds n)
    (height : (s'.node n).height = (s.node n).height) : s'.due n = s.due n := by
  by_cases owed : s.Owes n <;> by_cases built : s.Builds n <;>
    simp [due, height, owes, builds, owed, built]

theorem due_drop {n : Addr} (owes : s.Owes n) (owes' : ¬ s'.Owes n)
    (builds : s'.Builds n ↔ s.Builds n) (height : (s'.node n).height = (s.node n).height) :
    s'.due n + 1 = s.due n := by
  by_cases built : s.Builds n
  · simp [due, owes, owes', builds, built, height, Nat.add_comm]
  · simp [due, owes, owes', builds, built]

theorem due_build {n : Addr} (owes : s'.Owes n ↔ s.Owes n) (builds : s.Builds n)
    (builds' : ¬ s'.Builds n) : s'.due n + ((s.node n).height - 1) = s.due n := by
  by_cases owed : s.Owes n <;> simp [due, builds, builds', owes, owed]

theorem Counted.due_le (counted : s.Counted) (n : Addr) : s.due n < 256 := by
  have := counted.short n
  simp only [due, kMaxHeight] at *
  split <;> split <;> omega

/-- A node that has been retired, or is about to be, is nobody's duty any more. -/
theorem Counted.quiet (counted : s.Counted) (here : ∀ t, s.Local (s.pc t)) {n : Addr}
    (zero : (s.node n).linkCount = 0) :
    (s.pc t).duty ≠ some (.drop n) ∧
      ((s.pc t).duty = some (.build n) → (s.node n).height - 1 = 0) := by
  constructor
  · intro duty
    have := due_owes (.inr ⟨t, duty⟩)
    rw [← counted.count n ((here t).duty_linked duty)] at this
    omega
  · intro duty
    have := due_builds ⟨t, duty⟩
    rw [← counted.count n ((here t).duty_linked duty)] at this
    omega

/-- The count of a node after a step. -/
theorem apply_linkCount (a : Addr) : ((s.apply t e).node a).linkCount =
    (match e with
    | .create _ _ _ => if a = s.fresh then 0 else (s.node a).linkCount
    | .count n => if a = n then (s.node a).height else (s.node a).linkCount
    | .drop n k => if a = n then countSub (s.node a).linkCount k else (s.node a).linkCount
    | _ => (s.node a).linkCount) := by
  have setNext_count : ∀ b i p, ((s.setNext b i p).node a).linkCount = (s.node a).linkCount := by
    intro b i p
    by_cases same : a = b <;> simp [setNext, modify, same]
  cases e with
  | create h key value => by_cases isNew : a = s.fresh <;> simp [apply, isNew, mkNode]
  | count n => by_cases same : a = n <;> simp [apply, modify, same]
  | drop n k => by_cases same : a = n <;> simp [apply, modify, same]
  | link prev n => rw [(apply_link (s := s) (t := t) prev n).1]; exact setNext_count ..
  | mark cur i nexti => rw [(apply_mark (s := s) (t := t) cur i nexti).1]; exact setNext_count ..
  | store n i p => exact setNext_count n i p
  | index prev i n => exact setNext_count prev i (.node n)
  | unlink prev i p => exact setNext_count prev i p
  | _ => rfl

theorem apply_towerHeight (a : Addr) : ((s.apply t e).node a).height =
    (match e with
    | .create h _ _ => if a = s.fresh then h else (s.node a).height
    | _ => (s.node a).height) := by
  have setNext_height : ∀ b i p, ((s.setNext b i p).node a).height = (s.node a).height := by
    intro b i p
    by_cases same : a = b <;> simp [setNext, modify, same]
  cases e with
  | create h key value => by_cases isNew : a = s.fresh <;> simp [apply, isNew, mkNode]
  | count n => by_cases same : a = n <;> simp [apply, modify, same]
  | drop n k => by_cases same : a = n <;> simp [apply, modify, same]
  | link prev n => rw [(apply_link (s := s) (t := t) prev n).1]; exact setNext_height ..
  | mark cur i nexti => rw [(apply_mark (s := s) (t := t) cur i nexti).1]; exact setNext_height ..
  | store n i p => exact setNext_height n i p
  | index prev i n => exact setNext_height prev i (.node n)
  | unlink prev i p => exact setNext_height prev i p
  | _ => rfl

theorem goto_retired (pc : PC Key Value) : (s.goto t pc).sys.retired =
    match pc.retires with
    | some n => .node n :: s.sys.retired
    | none => s.sys.retired := by
  cases pc <;> rfl

theorem after_retired : (s.after t nx).sys.retired =
    match nx.pc.retires with
    | some n => .node n :: s.sys.retired
    | none => s.sys.retired := by
  cases nx with
  | goto pc => exact goto_retired pc
  | ret r => rfl

/-- A step leaves the log of retired nodes to the calls it makes. -/
theorem step_retired (synced : s.Synced) (taken : s.step t = some s') :
    (∃ sys, sys.retired = s.sys.retired ∧ s' = { s with sys := sys }) ∨
    ∃ sys e nx, sys.retired = s.sys.retired ∧ Access s t (s.pc t) e nx ∧
      s' = ({ s with sys := sys }.apply t e).after t nx := by
  have same : ∀ {sys : Hazard.Sys T Ptr (Addr × Nat)} {r : Option (Hazard.Ret Ptr)},
      s.sys.step 4 s.cell t = some (sys, r) → sys.retired = s.sys.retired := by
    intro sys r stepped
    obtain ⟨e, nx, -, rfl, -⟩ := Hazard.Sys.step_access stepped
    exact Hazard.Sys.after_retired
  rcases step_cases synced taken with
    ⟨sys, c, stepped, calls, -, rfl⟩ | ⟨sys, c, r, stepped, -, -, access, rfl⟩ | ⟨e, nx, -, access, rfl⟩
  · exact .inl ⟨sys, same stepped, rfl⟩
  · exact .inr ⟨sys, .none, _, same stepped, access, rfl⟩
  · exact .inr ⟨s.sys, e, nx, rfl, access, rfl⟩


section Step

variable {sys : Hazard.Sys T Ptr (Addr × Nat)}

theorem step_chain (sys : Hazard.Sys T Ptr (Addr × Nat)) (level0 : s.Level0)
    (access : s.Access t (s.pc t) e nx) :
    s.Spliced (({ s with sys := sys }.apply t e).after t nx) e := by
  have spliced := (level0.memory.write (t := t) ((level0.here t).write access)).2
  have chain := (sameNodes_after (s := s) (t := t) sys e nx).chain
  cases e with
  | link prev n => intro a; rw [chain]; exact spliced a
  | unlink prev j p =>
      obtain ⟨cur, points, removed⟩ := spliced
      exact ⟨cur, points, fun a => by rw [chain]; exact removed a⟩
  | _ => exact chain.trans spliced

theorem step_pc_self : (({ s with sys := sys }.apply t e).after t nx).pc t = nx.pc :=
  after_pc_self

theorem step_pc_other (other : u ≠ t) :
    (({ s with sys := sys }.apply t e).after t nx).pc u = s.pc u := by
  rw [after_pc_other other, apply_pc]

/-- What level 0 accounts for after a step. -/
theorem Counted.owes_after (counted : s.Counted) (sys : Hazard.Sys T Ptr (Addr × Nat))
    (level0 : s.Level0) (access : s.Access t (s.pc t) e nx) (n : Addr) :
    (({ s with sys := sys }.apply t e).after t nx).Owes n ↔
      (∃ prev, e = .link prev n) ∨ s.Owes n ∧ (s.pc t).duty ≠ some (.drop n) := by
  have spliced := step_chain sys level0 access
  have onChain : n ∈ s.chain → (s.pc t).duty ≠ some (.drop n) :=
    fun member duty => counted.cut t n duty member
  constructor
  · rintro (member | ⟨u, duty⟩)
    · cases e with
      | link prev m =>
          rcases (spliced n).1 member with rfl | old
          · exact .inl ⟨prev, rfl⟩
          · exact .inr ⟨.inl old, onChain old⟩
      | unlink prev j p =>
          obtain ⟨cur, -, removed⟩ := spliced
          have old := ((removed n).1 member).1
          exact .inr ⟨.inl old, onChain old⟩
      | _ =>
          rw [show _ = s.chain from spliced] at member
          exact .inr ⟨.inl member, onChain member⟩
    · by_cases same : u = t
      · rw [same, step_pc_self] at duty
        rcases (level0.here t).access_duty level0.memory access duty with
          ⟨before, rfl⟩ | ⟨m, prev, isDrop, member, -⟩ | ⟨m, prev, isBuild, -⟩ | ⟨m, isRetire, -⟩
        · have done := (level0.here t).duty_done level0.memory (counted.overage t) access before
          cases done.1
        · cases isDrop
          exact .inr ⟨.inl member, onChain member⟩
        · cases isBuild
        · cases isRetire
      · rw [step_pc_other same] at duty
        exact .inr ⟨.inr ⟨u, duty⟩, fun mine => same (counted.once u t _ duty mine)⟩
  · rintro (⟨prev, rfl⟩ | ⟨member | ⟨u, duty⟩, free⟩)
    · exact .inl ((spliced n).2 (.inl rfl))
    · cases e with
      | link prev m => exact .inl ((spliced n).2 (.inr member))
      | unlink prev j p =>
          obtain ⟨cur, points, removed⟩ := spliced
          obtain ⟨cur', points', duty⟩ := (level0.here t).unlink_duty access
          by_cases isCur : n = cur
          · cases points.symm.trans points'
            exact .inr ⟨t, by rw [step_pc_self, isCur]; exact duty⟩
          · exact .inl ((removed n).2 ⟨member, isCur⟩)
      | _ => exact .inl (by rw [show _ = s.chain from spliced]; exact member)
    · have other : u ≠ t := by rintro rfl; exact free duty
      exact .inr ⟨u, by rw [step_pc_other other]; exact duty⟩

/-- What the levels above account for after a step. -/
theorem Counted.builds_after (counted : s.Counted) (sys : Hazard.Sys T Ptr (Addr × Nat))
    (e : Effect Key Value) (nx : Next Key Value) (n : Addr) :
    (({ s with sys := sys }.apply t e).after t nx).Builds n ↔
      nx.pc.duty = some (.build n) ∨ s.Builds n ∧ (s.pc t).duty ≠ some (.build n) := by
  constructor
  · rintro ⟨u, duty⟩
    by_cases same : u = t
    · rw [same, step_pc_self] at duty
      exact .inl duty
    · rw [step_pc_other same] at duty
      exact .inr ⟨⟨u, duty⟩, fun mine => same (counted.once u t _ duty mine)⟩
  · rintro (duty | ⟨⟨u, duty⟩, free⟩)
    · exact ⟨t, by rw [step_pc_self]; exact duty⟩
    · have other : u ≠ t := by rintro rfl; exact free duty
      exact ⟨u, by rw [step_pc_other other]; exact duty⟩

/-- The count of a linked node only changes by a thread that has a duty to it. -/
theorem linkCount_linked (level0 : s.Level0) (access : s.Access t (s.pc t) e nx) {n : Addr}
    (linked : s.linked n = true) :
    ((s.apply t e).node n).height = (s.node n).height ∧
    (((s.apply t e).node n).linkCount = (s.node n).linkCount ∨
      ∃ k, e = .drop n k ∧ ((s.apply t e).node n).linkCount = countSub (s.node n).linkCount k) := by
  have write := (level0.here t).write access
  have old : n ≠ s.fresh := Nat.ne_of_lt (level0.memory.known n linked).2
  rw [apply_linkCount, apply_towerHeight]
  cases write with
  | create level key value => exact ⟨if_neg old, .inl (if_neg old)⟩
  | count m k mine =>
      have ne : n ≠ m := by
        rintro rfl
        rw [mine.new] at linked
        cases linked
      exact ⟨rfl, .inl (if_neg ne)⟩
  | drop m k isLinked =>
      by_cases same : n = m
      · subst same
        exact ⟨rfl, .inr ⟨k, rfl, if_pos rfl⟩⟩
      · exact ⟨rfl, .inl (if_neg same)⟩
  | _ => exact ⟨rfl, .inl rfl⟩

theorem linked_after (access : s.Access t (s.pc t) e nx) (level0 : s.Level0) {n : Addr}
    (linked : (s.apply t e).linked n = true) : s.linked n = true ∨ ∃ prev, e = .link prev n := by
  have write := (level0.here t).write access
  cases write with
  | link prev m k mine before behind stored =>
      rw [(apply_link (s := s) (t := t) prev m).2.1] at linked
      by_cases same : n = m
      · exact .inr ⟨prev, by rw [same]⟩
      · simp only [same, if_false] at linked
        exact .inl linked
  | mark cur i isLinked =>
      rw [(apply_mark (s := s) (t := t) cur i ((s.node cur).next i)).2.1] at linked
      exact .inl linked
  | _ => exact .inl linked

theorem Counted.count_after (counted : s.Counted) (level0 : s.Level0)
    (access : s.Access t (s.pc t) e nx) {n : Addr}
    (linked : (s.apply t e).linked n = true) :
    ((s.apply t e).node n).linkCount =
      (({ s with sys := sys }.apply t e).after t nx).due n := by
  have same := (sameNodes_after (s := s) (t := t) sys e nx).node
  have owes := counted.owes_after sys level0 access n
  have builds := counted.builds_after (t := t) sys e nx n
  have here := level0.here t
  generalize ({ s with sys := sys }.apply t e).after t nx = s' at same owes builds
  rcases linked_after access level0 linked with before | ⟨prev, rfl⟩
  · obtain ⟨height, kept⟩ := linkCount_linked level0 access before
    rw [← same] at height kept ⊢
    have count := counted.count n before
    have small := counted.due_le n
    have notLink : ¬ ∃ prev, e = .link prev n := by
      rintro ⟨prev, rfl⟩
      obtain ⟨k, mine⟩ := here.owned (Local.ready_owns (Local.link_duty access).1)
      rw [mine.new] at before
      cases before
    rw [or_iff_right notLink] at owes
    have newBuild : nx.pc.duty = some (.build n) → (s.pc t).duty = some (.build n) := by
      intro duty
      rcases here.access_duty level0.memory access duty with
        ⟨same, -⟩ | ⟨m, prev, isDrop, -⟩ | ⟨m, prev, isBuild, -, -, isLink⟩ | ⟨m, isRetire, -⟩
      · exact same
      · cases isDrop
      · cases isBuild
        exact absurd ⟨prev, isLink⟩ notLink
      · cases isRetire
    by_cases drops : (s.pc t).duty = some (.drop n)
    · obtain ⟨rfl, -, -⟩ := here.duty_done level0.memory (counted.overage t) access drops
      have counts : (s'.node n).linkCount = countSub (s.node n).linkCount 1 := by
        rw [same, apply_linkCount]
        exact if_pos rfl
      have isOwed : s.Owes n := .inr ⟨t, drops⟩
      have notOwed : ¬ s'.Owes n := fun owed => (owes.1 owed).2 drops
      have stillBuilds : s'.Builds n ↔ s.Builds n := by
        rw [builds]
        constructor
        · rintro (duty | ⟨old, -⟩)
          · rw [newBuild duty] at drops; cases drops
          · exact old
        · exact fun old => .inr ⟨old, by rw [drops]; simp⟩
      have less := due_drop isOwed notOwed stillBuilds height
      rw [counts, countSub_of_le (by omega) (by omega)]
      omega
    · have stillOwes : s'.Owes n ↔ s.Owes n := by
        rw [owes]
        exact and_iff_left drops
      by_cases building : (s.pc t).duty = some (.build n)
      · have isBuilt : s.Builds n := ⟨t, building⟩
        rcases here.duty_done level0.memory (counted.overage t) access building with
          ⟨rfl, -, again | ⟨none_, free⟩⟩ | ⟨rfl, some_, free, -⟩
        · have stillBuilds : s'.Builds n ↔ s.Builds n :=
            ⟨fun _ => isBuilt, fun _ => builds.2 (.inl again)⟩
          rw [due_congr stillOwes stillBuilds height, ← count, same]
          rfl
        · have notBuilt : ¬ s'.Builds n := by
            rw [builds, free]
            simp [building]
          have less := due_build stillOwes isBuilt notBuilt
          have counts : (s'.node n).linkCount = (s.node n).linkCount := by rw [same]; rfl
          omega
        · have notBuilt : ¬ s'.Builds n := by
            rw [builds, free]
            simp [building]
          have less := due_build stillOwes isBuilt notBuilt
          have counts : (s'.node n).linkCount =
              countSub (s.node n).linkCount ((s.node n).height - 1) := by
            rw [same, apply_linkCount]
            exact if_pos rfl
          rw [counts, countSub_of_le (by omega) (by omega)]
          omega
      · have stillBuilds : s'.Builds n ↔ s.Builds n := by
          rw [builds]
          constructor
          · rintro (duty | ⟨old, -⟩)
            · exact absurd (newBuild duty) building
            · exact old
          · exact fun old => .inr ⟨old, building⟩
        rw [due_congr stillOwes stillBuilds height, ← count]
        rcases kept with unchanged | ⟨k, rfl, -⟩
        · exact unchanged
        · rcases Local.drop_duty access with duty | duty
          · exact absurd duty drops
          · exact absurd duty building
  · -- the node has just been linked
    obtain ⟨ready, -, duty, -⟩ := Local.link_duty access
    have isOwed : s'.Owes n := owes.2 (.inl ⟨prev, rfl⟩)
    have isBuilt : s'.Builds n := builds.2 (.inl duty)
    have height : (s'.node n).height = (s.node n).height := by rw [same, apply_towerHeight]
    have full := counted.ready t n ready
    have tall := level0.tall n
    have whole : s'.due n = 1 + ((s'.node n).height - 1) := by
      simp only [due, if_pos isOwed, if_pos isBuilt]
    rw [whole, apply_linkCount, height]
    simp only
    omega

theorem apply_height_lt (low : s.height < kMaxHeight) (level : pc.level < kMaxHeight)
    (access : s.Access t pc e nx) : (s.apply t e).height < kMaxHeight := by
  cases e with
  | height h =>
      generalize effect : (.height h : Effect Key Value) = e at access
      cases access with
      | grown key value level' lower =>
          cases effect
          exact Nat.lt_of_le_of_lt lower level
      | matchNull f prev | matchNode f prev cur =>
          simp only [found] at effect
          repeat' split at effect
          all_goals cases effect
      | _ => cases effect
  | link prev n => simpa [apply, setNext, modify] using low
  | mark cur i nexti => simp only [apply]; split <;> simpa [setNext, modify] using low
  | _ => exact low

/-- What a step does to the count of a node that is not linked yet. -/
theorem linkCount_private {n : Addr} {k : Key} (write : s.Write e) (mine : s.Private n k) :
    ((s.apply t e).node n).height = (s.node n).height ∧
    (((s.apply t e).node n).linkCount = (s.node n).linkCount ∨
      ((s.apply t e).node n).linkCount = (s.node n).height) := by
  have old : n ≠ s.fresh := Nat.ne_of_lt mine.known.2
  rw [apply_linkCount, apply_towerHeight]
  cases write with
  | create level key value => exact ⟨if_neg old, .inl (if_neg old)⟩
  | count m k mine =>
      by_cases same : n = m
      · exact ⟨rfl, .inr (if_pos same)⟩
      · exact ⟨rfl, .inl (if_neg same)⟩
  | drop m k isLinked =>
      have ne : n ≠ m := by
        rintro rfl
        rw [mine.new] at isLinked
        cases isLinked
      exact ⟨rfl, .inl (if_neg ne)⟩
  | _ => exact ⟨rfl, .inl rfl⟩

theorem Overage.congr (overage : s.Overage pc)
    (same : ∀ n, pc.duty = some (.build n) → (s'.node n).height = (s.node n).height) :
    s'.Overage pc := by
  cases pc with
  | indexCur x i prev =>
      have height := same x.n rfl
      exact Eq.trans overage (by rw [height])
  | insertDrop n k =>
      have height := same n rfl
      exact ⟨overage.1.trans (by rw [height]), overage.2⟩
  | _ => trivial

/-- A count that is zero stays zero, unless the node is new. -/
theorem Counted.zero_after (counted : s.Counted) (level0 : s.Level0)
    (access : s.Access t (s.pc t) e nx) {n : Addr} (linked : s.linked n = true)
    (zero : (s.node n).linkCount = 0) : ((s.apply t e).node n).linkCount = 0 := by
  rcases (linkCount_linked level0 access linked).2 with same | ⟨k, rfl, -⟩
  · rw [same, zero]
  · obtain ⟨noDrop, flat⟩ := counted.quiet (t := t) level0.here zero
    rcases Local.drop_duty access with duty | duty
    · exact absurd duty noDrop
    · rcases (level0.here t).duty_done level0.memory (counted.overage t) access duty with
        ⟨isNone, -⟩ | ⟨-, some_, -⟩
      · cases isNone
      · have := flat duty
        omega

/-- The node that a thread hands to `retireNode` has a count of zero and has not been handed
over before. -/
theorem Counted.new_retired (counted : s.Counted) (level0 : s.Level0)
    (access : s.Access t (s.pc t) e nx) {n : Addr} (retires : nx.pc.retires = some n) :
    s.linked n = true ∧ ((s.apply t e).node n).linkCount = 0 ∧ .node n ∉ s.sys.retired := by
  have here := level0.here t
  rcases here.retires_duty level0.memory access retires with duty | duty
  · obtain ⟨rfl, -, -⟩ := here.duty_done level0.memory (counted.overage t) access duty
    obtain ⟨zero, new⟩ := counted.waiting t n duty
    exact ⟨here.duty_linked duty, zero, new⟩
  · have linked : s.linked n = true := here.duty_linked duty
    rcases here.duty_done level0.memory (counted.overage t) access duty with
      ⟨-, none_, -⟩ | ⟨rfl, some_, -, last⟩
    · rw [none_] at retires
      cases retires
    · refine ⟨linked, ?_, fun old => ?_⟩
      · rw [apply_linkCount]
        simp only [if_true]
        by_contra more
        rw [last, if_neg more] at retires
        cases retires
      · obtain ⟨m, same, -, zero⟩ := counted.retired _ old
        cases same
        have := (counted.quiet (t := t) level0.here zero).2 duty
        omega

/-- What a step hands to `retireNode`. -/
theorem retired_after (same : sys.retired = s.sys.retired) :
    (({ s with sys := sys }.apply t e).after t nx).sys.retired =
      match nx.pc.retires with
      | some n => .node n :: s.sys.retired
      | none => s.sys.retired := by
  rw [after_retired, apply_sys, same]

theorem Counted.short_after (counted : s.Counted) (access : s.Access t (s.pc t) e nx) (a : Addr) :
    ((s.apply t e).node a).height ≤ kMaxHeight := by
  rw [apply_towerHeight]
  cases e with
  | create h key value =>
      simp only
      split
      · rw [Local.access_create access]
        exact counted.levels t
      · exact counted.short a
  | _ => exact counted.short a

theorem Counted.overage_after (counted : s.Counted) (level0 : s.Level0)
    (sys : Hazard.Sys T Ptr (Addr × Nat)) (access : s.Access t (s.pc t) e nx) (u : T) :
    (({ s with sys := sys }.apply t e).after t nx).Overage
      ((({ s with sys := sys }.apply t e).after t nx).pc u) := by
  have nodes := sameNodes_after (s := s) (t := t) sys e nx
  have here := level0.here t
  have kept := level0.memory.extends_write (t := t) (here.write access)
  have height : ∀ n, (s.apply t e).linked n = true →
      ((s.apply t e).node n).height = (s.node n).height := by
    intro n linked
    rcases linked_after access level0 linked with before | ⟨prev, rfl⟩
    · exact (linkCount_linked level0 access before).1
    · rw [apply_towerHeight]
  by_cases isT : u = t
  · rw [isT, step_pc_self]
    refine (here.access_overage level0.memory (counted.overage t) access).congr fun n duty => ?_
    rw [nodes.node]
    exact height n ((here.access access level0.memory level0.tall).duty_linked duty)
  · rw [step_pc_other isT]
    refine (counted.overage u).congr fun n duty => ?_
    rw [nodes.node]
    exact height n (kept.linked n ((level0.here u).duty_linked duty))

theorem Counted.ready_after (counted : s.Counted) (level0 : s.Level0)
    (sys : Hazard.Sys T Ptr (Addr × Nat)) (access : s.Access t (s.pc t) e nx) {u : T} {n : Addr}
    (ready : ((({ s with sys := sys }.apply t e).after t nx).pc u).ready = some n) :
    ((s.apply t e).node n).linkCount = ((s.apply t e).node n).height := by
  have here := level0.here t
  have write := here.write access
  by_cases isT : u = t
  · rw [isT, step_pc_self] at ready
    rcases here.access_ready level0.memory access ready with before | rfl
    · obtain ⟨k, mine⟩ := here.owned (Local.ready_owns before)
      obtain ⟨height, unchanged | counts⟩ := linkCount_private (t := t) write mine
      · rw [height, unchanged]
        exact counted.ready t n before
      · rw [height, counts]
    · rw [apply_linkCount, apply_towerHeight]
      exact if_pos rfl
  · rw [step_pc_other isT] at ready
    obtain ⟨k, mine⟩ := (level0.here u).owned (Local.ready_owns ready)
    have others : e.owner ≠ some n := fun owner =>
      isT (level0.mine u t n (Local.ready_owns ready) (here.owner access owner))
    rw [(write.untouched (t := t) mine others).1]
    exact counted.ready u n ready

/-- A node whose count is still to be dropped stays off the chain. -/
theorem Counted.cut_after (counted : s.Counted) (level0 : s.Level0)
    (sys : Hazard.Sys T Ptr (Addr × Nat)) (access : s.Access t (s.pc t) e nx) {u : T} {n : Addr}
    (duty : ((({ s with sys := sys }.apply t e).after t nx).pc u).duty = some (.drop n)) :
    n ∉ (({ s with sys := sys }.apply t e).after t nx).chain := by
  have here := level0.here t
  have spliced := step_chain sys level0 access
  by_cases isT : u = t
  · rw [isT, step_pc_self] at duty
    rcases here.access_duty level0.memory access duty with
      ⟨before, rfl⟩ | ⟨m, prev, isDrop, -, points, -, rfl⟩ | ⟨m, prev, isBuild, -⟩ | ⟨m, isRetire, -⟩
    · have done := here.duty_done level0.memory (counted.overage t) access before
      cases done.1
    · cases isDrop
      obtain ⟨cur, points', removed⟩ := spliced
      cases points.symm.trans points'
      exact fun member => ((removed n).1 member).2 rfl
    · cases isBuild
    · cases isRetire
  · rw [step_pc_other isT] at duty
    have off := counted.cut u n duty
    have linked : s.linked n = true := (level0.here u).duty_linked duty
    cases e with
    | link prev m =>
        rw [spliced n]
        rintro (rfl | member)
        · obtain ⟨k, mine⟩ := here.owned (Local.ready_owns (Local.link_duty access).1)
          rw [mine.new] at linked
          cases linked
        · exact off member
    | unlink prev j p =>
        obtain ⟨cur, -, removed⟩ := spliced
        exact fun member => off ((removed n).1 member).1
    | _ =>
        rw [show _ = s.chain from spliced]
        exact off

/-- What `t` takes on, no other thread has. -/
theorem Counted.duty_fresh (counted : s.Counted) (level0 : s.Level0)
    (access : s.Access t (s.pc t) e nx) {u : T} {d : Duty} (other : u ≠ t)
    (duty : nx.pc.duty = some d) : (s.pc u).duty ≠ some d := by
  have here := level0.here t
  intro duty'
  rcases here.access_duty level0.memory access duty with
    ⟨before, -⟩ | ⟨n, prev, rfl, member, -⟩ | ⟨n, prev, rfl, ready, -⟩ | ⟨n, rfl, drops, -⟩
  · exact other (counted.once u t d duty' before)
  · exact counted.cut u n duty' member
  · obtain ⟨k, mine⟩ := here.owned (Local.ready_owns ready)
    have linked : s.linked n = true := (level0.here u).duty_linked duty'
    rw [mine.new] at linked
    cases linked
  · exact (counted.quiet level0.here (counted.waiting u n duty').1).1 drops

theorem Counted.once_after (counted : s.Counted) (level0 : s.Level0)
    (sys : Hazard.Sys T Ptr (Addr × Nat)) (access : s.Access t (s.pc t) e nx) {u v : T} {d : Duty}
    (dutyU : ((({ s with sys := sys }.apply t e).after t nx).pc u).duty = some d)
    (dutyV : ((({ s with sys := sys }.apply t e).after t nx).pc v).duty = some d) : u = v := by
  by_cases isU : u = t
  · by_cases isV : v = t
    · exact isU.trans isV.symm
    · rw [isU, step_pc_self] at dutyU
      rw [step_pc_other isV] at dutyV
      exact absurd dutyV (counted.duty_fresh level0 access isV dutyU)
  · by_cases isV : v = t
    · rw [isV, step_pc_self] at dutyV
      rw [step_pc_other isU] at dutyU
      exact absurd dutyU (counted.duty_fresh level0 access isU dutyV)
    · rw [step_pc_other isU] at dutyU
      rw [step_pc_other isV] at dutyV
      exact counted.once u v d dutyU dutyV

/-- A node whose count is zero has been retired, or is about to be. -/
theorem Counted.spent_after (counted : s.Counted) (level0 : s.Level0)
    (same : sys.retired = s.sys.retired) (access : s.Access t (s.pc t) e nx) {n : Addr}
    (linked : (s.apply t e).linked n = true) (zero : ((s.apply t e).node n).linkCount = 0) :
    .node n ∈ (({ s with sys := sys }.apply t e).after t nx).sys.retired ∨
      ∃ u, ((({ s with sys := sys }.apply t e).after t nx).pc u).duty = some (.retire n) := by
  have here := level0.here t
  have handed : nx.pc.retires = some n →
      .node n ∈ (({ s with sys := sys }.apply t e).after t nx).sys.retired := by
    intro retires
    rw [retired_after same, retires]
    exact List.mem_cons_self ..
  rcases linked_after access level0 linked with before | ⟨prev, rfl⟩
  · by_cases already : (s.node n).linkCount = 0
    · rcases counted.spent n before already with old | ⟨u, duty⟩
      · refine .inl ?_
        rw [retired_after same]
        split
        · exact List.mem_cons_of_mem _ old
        · exact old
      · by_cases isT : u = t
        · subst isT
          have done := here.duty_done level0.memory (counted.overage u) access duty
          exact .inl (handed done.2.1)
        · exact .inr ⟨u, by rw [step_pc_other isT]; exact duty⟩
    · rcases (linkCount_linked level0 access before).2 with unchanged | ⟨k, rfl, counts⟩
      · exact absurd (unchanged.symm.trans zero) already
      · rw [counts] at zero
        rcases Local.drop_duty access with duty | duty
        · obtain ⟨isDrop, -, next⟩ := here.duty_done level0.memory (counted.overage t) access duty
          cases isDrop
          rw [if_pos zero] at next
          exact .inr ⟨t, by rw [step_pc_self]; exact next⟩
        · rcases here.duty_done level0.memory (counted.overage t) access duty with
            ⟨isNone, -⟩ | ⟨isDrop, -, -, next⟩
          · cases isNone
          · cases isDrop
            rw [if_pos zero] at next
            exact .inl (handed next)
  · have full := counted.ready t n (Local.link_duty access).1
    rw [apply_linkCount] at zero
    have tall := level0.tall n
    exact absurd (full.symm.trans zero) (Nat.ne_of_gt tall)

/-- A node that is about to be retired has a count of zero and has not been retired. -/
theorem Counted.waiting_after (counted : s.Counted) (level0 : s.Level0)
    (same : sys.retired = s.sys.retired) (access : s.Access t (s.pc t) e nx) {u : T} {n : Addr}
    (duty : ((({ s with sys := sys }.apply t e).after t nx).pc u).duty = some (.retire n)) :
    ((s.apply t e).node n).linkCount = 0 ∧
      .node n ∉ (({ s with sys := sys }.apply t e).after t nx).sys.retired := by
  have here := level0.here t
  have unhanded : .node n ∉ s.sys.retired → nx.pc.retires ≠ some n →
      .node n ∉ (({ s with sys := sys }.apply t e).after t nx).sys.retired := by
    intro old notNew
    rw [retired_after same]
    split
    · rename_i m retires
      intro member
      rcases List.mem_cons.1 member with isNew | before
      · cases isNew
        exact notNew retires
      · exact old before
    · exact old
  by_cases isT : u = t
  · rw [isT, step_pc_self] at duty
    rcases here.access_duty level0.memory access duty with
      ⟨before, rfl⟩ | ⟨m, prev, isDrop, -⟩ | ⟨m, prev, isBuild, -⟩ | ⟨m, isRetire, drops, rfl, last⟩
    · have done := here.duty_done level0.memory (counted.overage t) access before
      rw [done.2.2] at duty
      cases duty
    · cases isDrop
    · cases isBuild
    · cases isRetire
      have done := here.duty_done level0.memory (counted.overage t) access drops
      refine ⟨?_, unhanded (fun old => ?_) (by rw [done.2.1]; simp)⟩
      · rw [apply_linkCount]
        exact (if_pos rfl).trans last
      · obtain ⟨m, isNode, -, zero⟩ := counted.retired _ old
        cases isNode
        exact (counted.quiet level0.here zero).1 drops
  · rw [step_pc_other isT] at duty
    obtain ⟨zero, new⟩ := counted.waiting u n duty
    have linked : s.linked n = true := (level0.here u).duty_linked duty
    refine ⟨counted.zero_after level0 access linked zero, unhanded new fun retires => ?_⟩
    rcases here.retires_duty level0.memory access retires with mine | mine
    · exact isT (counted.once u t _ duty mine)
    · have flat := (counted.quiet level0.here zero).2 mine
      rcases here.duty_done level0.memory (counted.overage t) access mine with
        ⟨-, none_, -⟩ | ⟨-, some_, -⟩
      · rw [none_] at retires
        cases retires
      · omega

theorem Counted.retired_zero (counted : s.Counted) (level0 : s.Level0)
    (same : sys.retired = s.sys.retired) (access : s.Access t (s.pc t) e nx) {p : Ptr}
    (member : p ∈ (({ s with sys := sys }.apply t e).after t nx).sys.retired) :
    ∃ n, p = .node n ∧ (s.apply t e).linked n = true ∧ ((s.apply t e).node n).linkCount = 0 := by
  have kept := level0.memory.extends_write (t := t) ((level0.here t).write access)
  have old : ∀ p ∈ s.sys.retired, ∃ n, p = .node n ∧ (s.apply t e).linked n = true ∧
      ((s.apply t e).node n).linkCount = 0 := by
    intro p before
    obtain ⟨n, rfl, linked, zero⟩ := counted.retired p before
    exact ⟨n, rfl, kept.linked n linked, counted.zero_after level0 access linked zero⟩
  rw [retired_after same] at member
  split at member
  · rename_i n retires
    rcases List.mem_cons.1 member with rfl | before
    · obtain ⟨linked, zero, -⟩ := counted.new_retired level0 access retires
      exact ⟨n, rfl, kept.linked n linked, zero⟩
    · exact old p before
  · exact old p member

theorem Counted.after (counted : s.Counted) (level0 : s.Level0) (same : sys.retired = s.sys.retired)
    (access : s.Access t (s.pc t) e nx) :
    (({ s with sys := sys }.apply t e).after t nx).Counted := by
  have nodes := sameNodes_after (s := s) (t := t) sys e nx
  constructor
  case short =>
      intro a
      rw [nodes.node]
      exact counted.short_after access a
  case low =>
      rw [after_height, apply_with_sys]
      exact apply_height_lt counted.low (counted.levels t) access
  case levels =>
      intro u
      by_cases isT : u = t
      · rw [isT, step_pc_self]
        exact (level0.here t).access_level level0.memory access (counted.levels t)
      · rw [step_pc_other isT]
        exact counted.levels u
  case overage => exact counted.overage_after level0 sys access
  case ready =>
      intro u n ready
      rw [nodes.node]
      exact counted.ready_after level0 sys access ready
  case count =>
      intro n linked
      rw [nodes.linked] at linked
      rw [nodes.node]
      exact counted.count_after level0 access linked
  case cut => exact fun u n duty => counted.cut_after level0 sys access duty
  case once => exact fun u v d dutyU dutyV => counted.once_after level0 sys access dutyU dutyV
  case spent =>
      intro n linked zero
      rw [nodes.linked] at linked
      rw [nodes.node] at zero
      exact counted.spent_after level0 same access linked zero
  case waiting =>
      intro u n duty
      rw [nodes.node]
      exact counted.waiting_after level0 same access duty
  case retired =>
      intro p member
      rw [nodes.node, nodes.linked]
      exact counted.retired_zero level0 same access member
  case nodup =>
      rw [retired_after same]
      split
      · rename_i n retires
        exact List.nodup_cons.2 ⟨(counted.new_retired level0 access retires).2.2, counted.nodup⟩
      · exact counted.nodup

end Step

/-- Moving a thread to a point without duties. -/
theorem Counted.move (counted : s.Counted) (same : s.SameNodes s') (height : s'.height = s.height)
    (retired : s'.sys.retired = s.sys.retired)
    (moved : ∀ u, s'.pc u ≠ s.pc u → (s.pc u).duty = none ∧ (s'.pc u).duty = none ∧
      (s'.pc u).ready = none ∧ (s'.pc u).level < kMaxHeight ∧ s.Overage (s'.pc u)) :
    s'.Counted := by
  have duties : ∀ u, (s'.pc u).duty = (s.pc u).duty := by
    intro u
    by_cases still : s'.pc u = s.pc u
    · rw [still]
    · rw [(moved u still).1, (moved u still).2.1]
  have owes : ∀ n, s'.Owes n ↔ s.Owes n := by
    intro n
    simp only [Owes, same.chain, duties]
  have builds : ∀ n, s'.Builds n ↔ s.Builds n := by
    intro n
    simp only [Builds, duties]
  obtain ⟨short, low, levels, overage, ready, count, cut, once, spent, waiting, handed, nodup⟩ :=
    counted
  constructor
  case short => rw [same.node]; exact short
  case low => rw [height]; exact low
  case levels =>
      intro u
      by_cases still : s'.pc u = s.pc u
      · rw [still]; exact levels u
      · exact (moved u still).2.2.2.1
  case overage =>
      intro u
      have before : s.Overage (s'.pc u) := by
        by_cases still : s'.pc u = s.pc u
        · rw [still]; exact overage u
        · exact (moved u still).2.2.2.2
      exact before.congr fun n _ => by rw [same.node]
  case ready =>
      intro u n isReady
      rw [same.node]
      by_cases still : s'.pc u = s.pc u
      · rw [still] at isReady; exact ready u n isReady
      · rw [(moved u still).2.2.1] at isReady; cases isReady
  case count =>
      intro n linked
      rw [same.linked] at linked
      rw [due_congr (owes n) (builds n) (by rw [same.node]), same.node]
      exact count n linked
  case cut => simp only [duties, same.chain]; exact cut
  case once => simp only [duties]; exact once
  case spent => rw [same.linked, same.node, retired]; simp only [duties]; exact spent
  case waiting => simp only [duties, same.node, retired]; exact waiting
  case retired => rw [retired, same.linked, same.node]; exact handed
  case nodup => rw [retired]; exact nodup

theorem begin_quiet (op : Op Key Value) (allowed : op.allowed = true) :
    (s.begin t op).duty = none ∧ (s.begin t op).ready = none ∧ (s.begin t op).level < kMaxHeight ∧
      s.Overage (s.begin t op) ∧ (s.begin t op).retires = none := by
  have zero : 0 < kMaxHeight := by decide
  cases op with
  | insert key value level =>
      have drawn : level < kMaxHeight := by simpa [Op.allowed] using allowed
      exact ⟨rfl, rfl, drawn, trivial, rfl⟩
  | _ =>
      simp only [begin, enter]
      split <;> exact ⟨rfl, rfl, zero, trivial, rfl⟩

theorem Counted.next (counted : s.Counted) (level0 : s.Level0) {a : Action T Key Value}
    (taken : s.next a = some s') : s'.Counted := by
  have idle_quiet : ∀ {pc : PC Key Value}, pc.isIdle = true → pc.duty = none := by
    intro pc idle
    cases pc <;> first | rfl | cases idle
  cases a with
  | call t op =>
      simp only [State.next] at taken
      split at taken
      · rename_i enabled
        obtain ⟨duty, ready, level, overage, retires⟩ :=
          begin_quiet (s := s) (t := t) op enabled.2
        have moved : ∀ u, (s.goto t (s.begin t op)).pc u ≠ s.pc u →
            (s.pc u).duty = none ∧ ((s.goto t (s.begin t op)).pc u).duty = none ∧
            ((s.goto t (s.begin t op)).pc u).ready = none ∧
            ((s.goto t (s.begin t op)).pc u).level < kMaxHeight ∧
            s.Overage ((s.goto t (s.begin t op)).pc u) := by
          intro u changed
          have isT : u = t := by
            by_contra other
            exact changed (if_neg other)
          rw [goto_pc_ne changed]
          exact ⟨isT ▸ idle_quiet enabled.1, duty, ready, level, overage⟩
        have log : (s.goto t (s.begin t op)).sys.retired = s.sys.retired := by
          rw [goto_retired, retires]
        split at taken
        all_goals
          cases taken
          exact counted.move ⟨rfl, rfl, rfl⟩ rfl log moved
      · cases taken
  | exit t =>
      simp only [State.next] at taken
      split at taken
      · rename_i enabled
        cases taken
        refine counted.move ⟨rfl, rfl, rfl⟩ rfl rfl fun u changed => ?_
        have isT : u = t := by
          by_contra other
          exact changed (if_neg other)
        rw [goto_pc_ne changed]
        exact ⟨isT ▸ idle_quiet enabled.1, rfl, rfl, Nat.zero_lt_succ _, trivial⟩
      · cases taken
  | step t =>
      rcases step_retired level0.synced taken with ⟨sys, same, rfl⟩ | ⟨sys, e, nx, same, access, rfl⟩
      · exact counted.move ⟨rfl, rfl, rfl⟩ rfl same fun u changed => absurd rfl changed
      · exact counted.after level0 same access

theorem counted_init : (init : State T Key Value).Counted := by
  constructor
  case short => intro a; exact Nat.le_refl _
  case low => exact (by decide : 0 < kMaxHeight)
  case levels => intro t; exact (by decide : 0 < kMaxHeight)
  case overage => intro t; trivial
  case nodup => exact List.nodup_nil
  all_goals simp [init, PC.ready, PC.duty, PC.finding, Hazard.Sys.init]


theorem counted_run {as : List (Action T Key Value)}
    (ran : Theory.run State.next (init : State T Key Value) as = some s) :
    s.Level0 ∧ s.Counted :=
  Theory.run_induction (P := fun q : State T Key Value => q.Level0 ∧ q.Counted)
    (fun _ _ _ before taken => ⟨before.1.next taken, before.2.next before.1 taken⟩)
    ⟨level0_init, counted_init⟩ ran

/-- A retired node is off the chain. -/
theorem Counted.retired_off (counted : s.Counted) {n : Addr}
    (retired : .node n ∈ s.sys.retired) : s.linked n = true ∧ ¬ s.Owes n := by
  obtain ⟨m, same, linked, zero⟩ := counted.retired _ retired
  cases same
  refine ⟨linked, fun owes => ?_⟩
  have := due_owes owes
  rw [← counted.count n linked] at this
  omega

/-- No list leads to a node that is not on the chain. -/
theorem Memory.unreachable (memory : s.Memory) {n : Addr} (off : n ∉ s.chain) (i : Nat) (x : Addr)
    (member : x ∈ head :: s.chainAt i) : s.edgeAt i x ≠ some n := by
  intro edge
  cases i with
  | zero => exact off (memory.next_mem member edge)
  | succ i =>
      rw [edgeAt, memory.index x (i + 1) (Nat.succ_pos i)] at edge
      cases edge

/-- A step that retires a node. -/
theorem Level0.retires (level0 : s.Level0) {a : Action T Key Value}
    (taken : s.next a = some s') {n : Addr} (new : .node n ∈ s'.sys.retired)
    (old : .node n ∉ s.sys.retired) :
    ∃ t, a = .step t ∧ ((∃ f i prev, s.pc t = .findClear f i prev n) ∨
      ∃ overage, s.pc t = .insertDrop n overage ∧
        countSub (s.node n).linkCount overage = 0) := by
  cases a with
  | call t op =>
      simp only [State.next] at taken
      split at taken
      · rename_i enabled
        have log : (s.goto t (s.begin t op)).sys.retired = s.sys.retired := by
          rw [goto_retired, (begin_quiet op enabled.2).2.2.2.2]
        split at taken
        all_goals
          cases taken
          exact absurd (log ▸ new) old
      · cases taken
  | exit t =>
      simp only [State.next] at taken
      split at taken
      · cases taken
        exact absurd new old
      · cases taken
  | step t =>
      refine ⟨t, rfl, ?_⟩
      rcases step_retired level0.synced taken with ⟨sys, same, rfl⟩ | ⟨sys, e, nx, same, access, rfl⟩
      · exact absurd (same ▸ new) old
      · rw [after_retired, apply_sys, same] at new
        split at new
        · rename_i m retires
          rcases List.mem_cons.1 new with isNew | before
          · cases isNew
            exact (level0.here t).access_retires level0.memory access retires
          · exact absurd before old
        · exact absurd new old

/-- A node is off the chain before it is retired. -/
theorem Counted.retires_off (counted : s.Counted) (level0 : s.Level0) {n : Addr}
    (retires : (∃ f i prev, s.pc t = .findClear f i prev n) ∨
      ∃ overage, s.pc t = .insertDrop n overage ∧ countSub (s.node n).linkCount overage = 0) :
    s.linked n = true ∧ n ∉ s.chain := by
  rcases retires with ⟨f, i, prev, pc⟩ | ⟨overage, pc, last⟩
  · have duty : (s.pc t).duty = some (.retire n) := by rw [pc]; rfl
    have linked : s.linked n = true := (level0.here t).duty_linked duty
    refine ⟨linked, fun member => ?_⟩
    have := due_owes (.inl member)
    rw [← counted.count n linked, (counted.waiting t n duty).1] at this
    omega
  · have duty : (s.pc t).duty = some (.build n) := by rw [pc]; rfl
    have linked : s.linked n = true := (level0.here t).duty_linked duty
    have whole := counted.overage t
    rw [pc] at whole
    refine ⟨linked, fun member => ?_⟩
    -- level 0 and the overage are both still due, so the drop cannot be the last one
    have owed : s.due n = 1 + overage := by
      simp only [due, if_pos (show s.Owes n from .inl member),
        if_pos (show s.Builds n from ⟨t, duty⟩), whole.1]
    have small := counted.due_le n
    rw [counted.count n linked, countSub_of_le (by omega) small] at last
    omega

/-- **Link counts retire a node once and in time.** In every reachable state no node has been
given to `retireNode` twice; the step that gives a node to it is the one of the `find` that has
cut the node off or of the `insert` that made it, the node is marked, and nothing on any list
points to it; no count is taken below zero; and when no operation is running every node that was
linked and is not on the chain any more has been retired. -/
theorem retired_in_time {as : List (Action T Key Value)}
    (ran : Theory.run State.next (init : State T Key Value) as = some s) :
    s.sys.retired.Nodup ∧
    (∀ a s' n, s.next a = some s' → .node n ∈ s'.sys.retired → .node n ∉ s.sys.retired →
      (∃ t, a = .step t ∧ ((∃ f i prev, s.pc t = .findClear f i prev n) ∨
        ∃ overage, s.pc t = .insertDrop n overage)) ∧
      s.dead n = true ∧ ∀ i, ∀ x ∈ head :: s.chainAt i, s.edgeAt i x ≠ some n) ∧
    (∀ t f i prev n, s.pc t = .findDrop f i prev n → 1 ≤ (s.node n).linkCount) ∧
    (∀ t n overage, s.pc t = .insertDrop n overage → overage ≤ (s.node n).linkCount) ∧
    ((∀ t, (s.pc t).isIdle = true) →
      ∀ n, s.linked n = true → n ∉ s.chain → .node n ∈ s.sys.retired) := by
  obtain ⟨level0, counted⟩ := counted_run ran
  have memory := level0.memory
  refine ⟨counted.nodup, ?_, ?_, ?_, ?_⟩
  · intro a s' n taken new old
    obtain ⟨t, stepped, by_⟩ := level0.retires taken new old
    have off := counted.retires_off level0 by_
    refine ⟨⟨t, stepped, by_.imp_right fun ⟨overage, pc, _⟩ => ⟨overage, pc⟩⟩, ?_,
      memory.unreachable off.2⟩
    by_contra alive
    exact off.2 (memory.live n off.1 (by simpa using alive))
  · intro t f i prev n pc
    have duty : (s.pc t).duty = some (.drop n) := by rw [pc]; rfl
    rw [counted.count n ((level0.here t).duty_linked duty)]
    exact due_owes (.inr ⟨t, duty⟩)
  · intro t n overage pc
    have duty : (s.pc t).duty = some (.build n) := by rw [pc]; rfl
    have whole := counted.overage t
    rw [pc] at whole
    rw [counted.count n ((level0.here t).duty_linked duty), whole.1]
    exact due_builds ⟨t, duty⟩
  · intro quiescent n linked off
    have quiet : ∀ t d, (s.pc t).duty ≠ some d := by
      intro t d duty
      have idle := quiescent t
      cases pc : s.pc t <;> rw [pc] at idle duty
      case idle => cases duty
      all_goals cases idle
    have zero : (s.node n).linkCount = 0 := by
      rw [counted.count n linked, due, if_neg, if_neg]
      · rintro ⟨t, duty⟩
        exact quiet t _ duty
      · rintro (member | ⟨t, duty⟩)
        · exact off member
        · exact quiet t _ duty
    rcases counted.spent n linked zero with retired | ⟨t, duty⟩
    · exact retired
    · exact absurd duty (quiet t _)

/-- A node is erased while its tower is still being built; its `insert` retires it. -/
def eraseUnbuilt : List (Action (Fin 2) Nat Nat) :=
  Action.call 0 (.insert 5 50 3) :: List.replicate 20 (.step 0) ++
    Action.call 1 (.erase 5) :: List.replicate 45 (.step 1) ++ List.replicate 10 (Action.step 0)

theorem retired_in_time_unbuilt : ∃ s : State (Fin 2) Nat Nat,
    Theory.run State.next State.init eraseUnbuilt = some s ∧
    s.sys.retired = [.node 1] ∧ (∀ t, (s.pc t).isIdle = true) ∧ s.sys.retired.Nodup ∧
    ∀ n, s.linked n = true → n ∉ s.chain → .node n ∈ s.sys.retired := by
  have ran : (Theory.run State.next State.init eraseUnbuilt).map
      (fun s : State (Fin 2) Nat Nat => (s.sys.retired, (s.pc 0).isIdle, (s.pc 1).isIdle)) =
        some ([.node 1], true, true) := by decide +kernel
  obtain ⟨s, ran, seen⟩ := Option.map_eq_some_iff.1 ran
  simp only [Prod.mk.injEq] at seen
  have quiescent : ∀ t, (s.pc t).isIdle = true := by
    intro t
    match t with
    | 0 => exact seen.2.1
    | 1 => exact seen.2.2
  have result := retired_in_time ran
  exact ⟨s, ran, seen.1, quiescent, result.1, result.2.2.2.2 quiescent⟩

end State

end Ccmetrics.SkipList
