/-
# SkipList.Heights -- `height_` and the indices into the towers

`height_` is a plain `int`. It decides at which index `find` and `insert` start in the tower of
`head_`, and `insert` raises it: `if (level > height_) height_ = level = height_ + 1`.

* `InBounds`: every `next_[i]` that a thread is about to access is inside its tower. It holds in
  all states in which `height_` and the levels of the running inserts are below `kMaxHeight`
  (`Bounded.inBounds`), and a step of the machine keeps them there (`Bounded.access`).
* `Racing` is the machine in which every read and write of `height_` in `insert` is a step of its
  own (`Clamp`). `racing_of_run`: whatever the first machine does, this one does.
* `indices_in_bounds`: no access is out of bounds, unless an `insert` that has compared its level
  with `height_` finds it at the maximum when it reads it again. `height_overgrown` is such a run.
-/
import Ccmetrics.SkipList.Lookup
import Ccmetrics.SkipList.Towers

namespace Ccmetrics.SkipList

set_option autoImplicit false
set_option linter.unusedSectionVars false

variable {T Key Value : Type} [DecidableEq T] [LinearOrder Key] [Inhabited Key] [Inhabited Value]

theorem kMaxHeight_pos : 0 < kMaxHeight := by decide

def Site.level : Site Value → Nat
  | .insert _ level | .insertAgain _ level => level
  | _ => 0

/-- The level that an `insert` works with. -/
def PC.carries : PC Key Value → Nat
  | .insertLevel _ _ level | .insertHazard _ level _ _ _ | .insertCount _ level _ _ _
  | .insertStore _ level _ _ _ | .insertLink _ level _ _ _ | .insertOverage _ level _ => level
  | pc =>
      match pc.finding with
      | some f => f.site.level
      | none => 0

/-- The level of the list that `find` or the loop over the index is on. -/
def PC.onLevel : PC Key Value → Nat
  | .findCur _ i _ | .findNext _ i _ _ | .findPrev _ i _ _ _ | .findDead _ i _ _ _
  | .findKey _ i _ _ _ | .findSetPrev _ i _ _ | .findSetCur _ i _ _ | .findNexti _ i _ _
  | .findUnlink _ i _ _ _ | .findDrop _ i _ _ | .findClear _ i _ _ | .findRetire _ i _ _
  | .indexCur _ i _ | .indexKey _ i _ _ | .indexNext _ i _ _ | .indexPrev _ i _ _ _
  | .indexSetPrev _ i _ _ | .indexSetCur _ i _ _ | .indexStore _ i _ _ | .indexLink _ i _ _
  | .indexDead _ i _ => i
  | _ => 0

/-- The place of the marking loop of `erase`. -/
def PC.erasing : PC Key Value → Option (Addr × Nat)
  | .eraseLoad _ cur i _ | .eraseMark _ cur i _ _ => some (cur, i)
  | _ => none

/-- The `node->next_[i]` that the next access of a thread is to. -/
def PC.accesses : PC Key Value → Option (Addr × Nat)
  | .findCur _ i prev => some (prev, i)
  | .findNext _ i _ cur => some (cur, i)
  | .findPrev _ i prev _ _ => some (prev, i)
  | .findDead _ _ _ cur _ => some (cur, 0)
  | .findNexti _ i _ cur => some (cur, i)
  | .findUnlink _ i prev _ _ => some (prev, i)
  | .eraseLoad _ cur i _ | .eraseMark _ cur i _ _ => some (cur, i)
  | .insertStore _ _ n _ _ => some (n, 0)
  | .insertLink _ _ _ prev _ => some (prev, 0)
  | .indexCur _ i prev => some (prev, i)
  | .indexNext _ i _ cur => some (cur, i)
  | .indexPrev _ i prev _ _ => some (prev, i)
  | .indexStore x i _ _ => some (x.n, i)
  | .indexLink _ i prev _ => some (prev, i)
  | .indexDead x _ _ => some (x.n, 0)
  | .firstCur | .itemsCur _ _ => some (head, 0)
  | .itemsNext _ _ _ cur => some (cur, 0)
  | .itemsAgain _ _ prev => some (prev, 0)
  | _ => none

namespace State

variable {s s' : State T Key Value} {t u : T} {e : Effect Key Value} {nx : Next Key Value}
variable {pc : PC Key Value} {f : Find Key Value} {x : Index Key} {i : Nat} {prev : Addr} {cur : Ptr}

/-- No access is outside of a tower. -/
structure InBounds (s : State T Key Value) : Prop where
  height : s.height ≤ kMaxHeight - 1
  access : ∀ t a i, (s.pc t).accesses = some (a, i) → i < (s.node a).height

structure Bounded (s : State T Key Value) : Prop where
  height : s.height < kMaxHeight
  head : (s.node head).height = kMaxHeight
  carries : ∀ t, (s.pc t).carries < kMaxHeight
  onLevel : ∀ t, (s.pc t).onLevel < kMaxHeight
  erasing : ∀ t a i, (s.pc t).erasing = some (a, i) → i < (s.node a).height

/-- Above level 0 only the tower of `head_` is looked at, which is as high as can be. -/
theorem Bounded.inBounds (bounded : s.Bounded) (level0 : s.Level0) : s.InBounds where
  height := Nat.le_sub_one_of_lt bounded.height
  access t a i accesses := by
    have here := level0.here t
    have low := bounded.onLevel t
    have marking := bounded.erasing t a i
    generalize s.pc t = pc at accesses here low marking
    have bottom : ∀ {f : Find Key Value} {prev cur}, s.Window f i prev cur → i < (s.node a).height :=
      fun window => window.bottom ▸ level0.tall a
    cases pc <;> cases accesses
    case findCur f =>
        obtain ⟨-, -, above⟩ := here
        by_cases isBottom : i = 0
        · exact isBottom ▸ level0.tall a
        · rw [above isBottom, bounded.head]
          exact low
    case findNext => exact bottom here
    case findPrev => exact bottom here.1
    case findNexti => exact bottom here.1
    case findUnlink => exact bottom here.1
    case eraseLoad => exact marking rfl
    case eraseMark => exact marking rfl
    case indexCur x =>
        rw [here.2.1, bounded.head]
        exact low
    case indexNext => exact here.elim
    case indexPrev => exact here.elim
    case indexStore => exact here.elim
    case indexLink => exact here.elim
    all_goals exact level0.tall _

/-! ## The level a thread is on -/

theorem onLevel_findDown : (findDown f i prev cur).onLevel ≤ i := by
  simp only [findDown]
  split
  · exact Nat.zero_le i
  · exact Nat.sub_le i 1

theorem onLevel_findLoop : (findLoop f i prev cur).onLevel ≤ i := by
  cases cur with
  | null | markedNull => exact onLevel_findDown
  | node c => exact Nat.le_refl i
  | marked c => exact Nat.zero_le i

theorem onLevel_enter (start : Start Key Value) : (s.enter t start).onLevel = 0 := by
  simp only [enter]
  split
  · cases start <;> rfl
  · rfl

theorem onLevel_indexLevel : (indexLevel x prev i : PC Key Value).onLevel ≤ i := by
  cases i with
  | zero => simp only [indexLevel]; split <;> exact Nat.le_refl 0
  | succ i => exact Nat.le_refl _

theorem onLevel_indexExit : (indexExit x : PC Key Value).onLevel = 0 :=
  Nat.le_zero.1 onLevel_indexLevel

theorem onLevel_indexHere : (indexHere x i prev cur : PC Key Value).onLevel = i := by
  simp only [indexHere]
  split <;> rfl

theorem onLevel_indexWhile : (indexWhile x i prev cur : PC Key Value).onLevel ≤ i := by
  cases cur with
  | null => exact onLevel_indexHere.le
  | node c => exact Nat.le_refl i
  | markedNull | marked c => exact Nat.zero_le i

theorem onLevel_found {hit : Bool} : (s.found f prev cur hit).2.pc.onLevel = 0 := by
  simp only [found]
  split <;> (try split) <;> rfl

/-- A thread goes down, or starts at `height_` or at the level it carries. -/
theorem access_onLevel (access : s.Access t pc e nx) :
    nx.pc.onLevel ≤ max pc.onLevel (max pc.carries s.height) := by
  cases access
  case height => exact le_max_of_le_right (le_max_right ..)
  case overage key level n => exact le_max_of_le_right onLevel_indexLevel
  case acquired start => cases start <;> exact Nat.zero_le _
  case curLoaded | curSet => exact le_max_of_le_left onLevel_findLoop
  case keyReached | drop | retired => exact le_max_of_le_left onLevel_findDown
  case matchNull | matchNode => exact onLevel_found.le.trans (Nat.zero_le _)
  case eraseFlat | marked =>
      simp only [eraseDown, Next.pc_goto]
      split
      · exact (onLevel_enter _).le.trans (Nat.zero_le _)
      · exact Nat.zero_le _
  case grown | levelled | linkFailed => exact (onLevel_enter _).le.trans (Nat.zero_le _)
  case indexMarked | indexNextMarked | indexPrevChanged | indexFailed | indexDead =>
      exact onLevel_indexExit.le.trans (Nat.zero_le _)
  case indexLoaded | indexCurSet => exact le_max_of_le_left onLevel_indexWhile
  case indexReached => exact le_max_of_le_left onLevel_indexHere.le
  case indexAlive => exact le_max_of_le_left (onLevel_indexLevel.trans (Nat.sub_le _ 1))
  case itemsLoaded | itemsCurSet =>
      simp only [Next.pc_goto, itemsLoop]
      repeat' split
      all_goals exact Nat.zero_le _
  case itemsNextLoaded =>
      simp only [Next.pc_goto, itemsNextOf]
      split <;> exact Nat.zero_le _
  case clearedLast k leave => cases leave <;> exact Nat.zero_le _
  all_goals first | exact Nat.zero_le _ | exact le_max_left ..

/-! ## What an `insert` carries -/

theorem carries_findDown : (findDown f i prev cur).carries = f.site.level := by
  simp only [findDown]
  split <;> rfl

theorem carries_findLoop : (findLoop f i prev cur).carries ≤ f.site.level := by
  cases cur with
  | null | markedNull => exact carries_findDown.le
  | node c => exact Nat.le_refl _
  | marked c => exact Nat.zero_le _

theorem carries_enter (f : Find Key Value) : (s.enter t (.find f)).carries = f.site.level := by
  simp only [enter]
  split <;> rfl

theorem carries_index : (indexLevel x prev i : PC Key Value).carries = 0 := by
  cases i with
  | zero => simp only [indexLevel]; split <;> rfl
  | succ i => rfl

theorem carries_indexExit : (indexExit x : PC Key Value).carries = 0 := carries_index

theorem carries_indexHere : (indexHere x i prev cur : PC Key Value).carries = 0 := by
  simp only [indexHere]
  split <;> rfl

theorem carries_indexWhile : (indexWhile x i prev cur : PC Key Value).carries = 0 := by
  cases cur with
  | null => exact carries_indexHere
  | _ => rfl

theorem carries_found {hit : Bool} : (s.found f prev cur hit).2.pc.carries ≤ f.site.level := by
  simp only [found]
  split
  case h_5 value level atSite => split <;> simp [PC.carries, PC.finding, atSite, Site.level]
  case h_6 n level atSite => split <;> simp [PC.carries, PC.finding, atSite, Site.level]
  all_goals (try split) <;> exact Nat.zero_le _

/-- The level is the one drawn, or has been clamped to less. -/
theorem access_carries (access : s.Access t pc e nx) : nx.pc.carries ≤ pc.carries := by
  cases access
  case acquired start => cases start <;> exact Nat.le_refl _
  case curLoaded | curSet => exact carries_findLoop
  case keyReached | drop | retired => exact carries_findDown.le
  case matchNull | matchNode => exact carries_found
  case eraseFlat | marked =>
      simp only [eraseDown, Next.pc_goto]
      split
      · exact (carries_enter _).le
      · exact Nat.zero_le _
  case grown key value level higher => exact (carries_enter _).le.trans higher
  case levelled | linkFailed => exact (carries_enter _).le
  case overage | indexAlive => exact carries_index.le.trans (Nat.zero_le _)
  case indexMarked | indexNextMarked | indexPrevChanged | indexFailed | indexDead =>
      exact carries_indexExit.le.trans (Nat.zero_le _)
  case indexLoaded | indexCurSet => exact carries_indexWhile.le.trans (Nat.zero_le _)
  case indexReached => exact carries_indexHere.le.trans (Nat.zero_le _)
  case itemsLoaded | itemsCurSet =>
      simp only [Next.pc_goto, itemsLoop]
      repeat' split
      all_goals exact Nat.zero_le _
  case itemsNextLoaded =>
      simp only [Next.pc_goto, itemsNextOf]
      split <;> exact Nat.zero_le _
  case clearedLast k leave => cases leave <;> exact Nat.zero_le _
  all_goals first | exact Nat.le_refl _ | exact Nat.zero_le _

/-! ## The marking loop -/

theorem erasing_enter (start : Start Key Value) : (s.enter t start).erasing = none := by
  simp only [enter]
  split
  · cases start <;> rfl
  · rfl

theorem erasing_index : (indexLevel x prev i : PC Key Value).erasing = none := by
  cases i with
  | zero => simp only [indexLevel]; split <;> rfl
  | succ i => rfl

theorem erasing_found {hit : Bool} : (s.found f prev cur hit).2.pc.erasing = none := by
  simp only [found]
  split <;> (try split) <;> rfl

/-- `erase` starts below the height of its node, and goes down. -/
theorem access_erasing {a : Addr} (access : s.Access t pc e nx)
    (erasing : nx.pc.erasing = some (a, i)) :
    (∃ key, pc = .eraseHeight key a ∧ i < (s.node a).height) ∨
      ∃ j, i ≤ j ∧ pc.erasing = some (a, j) := by
  cases access
  case eraseTop key cur j height =>
      cases erasing
      exact .inl ⟨key, rfl, by omega⟩
  case eraseLoaded key cur j m =>
      cases erasing
      exact .inr ⟨i, Nat.le_refl i, rfl⟩
  case markFailed key cur j nexti m =>
      cases erasing
      exact .inr ⟨i, Nat.le_refl i, rfl⟩
  case marked key cur j m =>
      simp only [eraseDown, Next.pc_goto] at erasing
      split at erasing
      · rw [erasing_enter] at erasing
        cases erasing
      · cases erasing
        exact .inr ⟨j, Nat.sub_le j 1, rfl⟩
  case eraseFlat key cur height =>
      simp only [eraseDown, Next.pc_goto, if_true, erasing_enter] at erasing
      cases erasing
  case matchNull | matchNode => cases erasing_found.symm.trans erasing
  case grown | levelled | linkFailed => cases (erasing_enter _).symm.trans erasing
  case acquired start => cases start <;> cases erasing
  case clearedLast k leave => cases leave <;> cases erasing
  all_goals
    simp only [Next.pc_goto, Next.pc_ret, findDown, findLoop, indexExit, indexLevel, indexWhile, indexHere,
      itemsLoop, itemsNextOf] at erasing
    repeat' split at erasing
    all_goals cases erasing

/-! ## The bounds are kept -/

theorem access_low (bounded : s.Bounded) (access : s.Access t (s.pc t) e nx) :
    (s.apply t e).height < kMaxHeight := by
  have carried := bounded.carries t
  generalize at_ : s.pc t = pc at access carried
  have returned : ∀ (f : Find Key Value) prev cur hit,
      (s.apply t (s.found f prev cur hit).1).height < kMaxHeight := by
    intro f prev cur hit
    rw [apply_height]
    rcases found_effect (s := s) f prev cur hit with none_ | ⟨level, value, -, create⟩
    · rw [none_]; exact bounded.height
    · rw [create]; exact bounded.height
  cases access
  case matchNull | matchNode => exact returned ..
  case grown key value level higher => exact Nat.lt_of_le_of_lt higher carried
  all_goals rw [apply_height]; exact bounded.height

/-- Outside of the hazard pointers a step is the next access of the thread. -/
theorem step_access (synced : s.Synced) (outside : (s.pc t).call = none) (taken : s.step t = some s') :
    ∃ e nx, s.Access t (s.pc t) e nx ∧ s' = (s.apply t e).after t nx := by
  rcases step_cases synced taken with
    ⟨sys, c, -, calls, -⟩ | ⟨sys, c, r, -, calls, -⟩ | ⟨e, nx, -, access, same⟩
  · cases outside.symm.trans calls
  · cases outside.symm.trans calls
  · exact ⟨e, nx, access, same⟩

/-- The tower of a node that is there stays as high as it is. -/
theorem tower_after {a : Addr} (known : a < s.fresh) (sys : Hazard.Sys T Ptr (Addr × Nat)) :
    ((({ s with sys := sys }.apply t e).after t nx).node a).height = (s.node a).height := by
  rw [after_node, apply_with_sys]
  rcases apply_node_height (s := s) (t := t) (a := a) e with same | ⟨_, _, _, _, isNew, -⟩
  · exact same
  · exact absurd isNew (Nat.ne_of_lt known)

theorem Bounded.access {sys : Hazard.Sys T Ptr (Addr × Nat)} (bounded : s.Bounded)
    (level0 : s.Level0) (access : s.Access t (s.pc t) e nx) :
    (({ s with sys := sys }.apply t e).after t nx).Bounded := by
  have self : (({ s with sys := sys }.apply t e).after t nx).pc t = nx.pc := after_pc_self
  have other : ∀ u, u ≠ t → (({ s with sys := sys }.apply t e).after t nx).pc u = s.pc u := by
    intro u apart
    rw [after_pc_other apart, apply_pc]
  -- a node that is being erased has been linked
  have known : ∀ u a i, (s.pc u).erasing = some (a, i) → a < s.fresh := by
    intro u a i erasing
    have here := level0.here u
    generalize s.pc u = pc at erasing here
    cases pc <;> cases erasing
    case eraseLoad => exact (level0.memory.known a here.1).2
    case eraseMark => exact (level0.memory.known a here.1).2
  constructor
  case height =>
      rw [after_height, apply_with_sys]
      exact access_low bounded access
  case head => rw [tower_after level0.memory.started, bounded.head]
  case carries =>
      intro u
      by_cases same : u = t
      · rw [same, self]
        exact (access_carries access).trans_lt (bounded.carries t)
      · rw [other u same]
        exact bounded.carries u
  case onLevel =>
      intro u
      by_cases same : u = t
      · rw [same, self]
        exact (access_onLevel access).trans_lt
          (max_lt (bounded.onLevel t) (max_lt (bounded.carries t) bounded.height))
      · rw [other u same]
        exact bounded.onLevel u
  case erasing =>
      intro u a i erasing
      by_cases same : u = t
      · rw [same, self] at erasing
        rcases access_erasing access erasing with ⟨key, atHeight, inside⟩ | ⟨j, down, before⟩
        · have here := level0.here t
          rw [atHeight] at here
          rwa [tower_after (level0.memory.known a here.1).2]
        · rw [tower_after (known t a j before)]
          exact down.trans_lt (bounded.erasing t a j before)
      · rw [other u same] at erasing
        rw [tower_after (known u a i erasing)]
        exact bounded.erasing u a i erasing

/-- Moving one thread. -/
theorem Bounded.move (bounded : s.Bounded) (node : s'.node = s.node) (height : s'.height < kMaxHeight)
    (moved : ∀ u, s'.pc u ≠ s.pc u → (s'.pc u).carries < kMaxHeight ∧
      (s'.pc u).onLevel < kMaxHeight ∧ (s'.pc u).erasing = none) : s'.Bounded where
  height := height
  head := by rw [node]; exact bounded.head
  carries u := by
    by_cases same : s'.pc u = s.pc u
    · rw [same]; exact bounded.carries u
    · exact (moved u same).1
  onLevel u := by
    by_cases same : s'.pc u = s.pc u
    · rw [same]; exact bounded.onLevel u
    · exact (moved u same).2.1
  erasing u a i erasing := by
    rw [node]
    by_cases same : s'.pc u = s.pc u
    · rw [same] at erasing
      exact bounded.erasing u a i erasing
    · rw [(moved u same).2.2] at erasing
      cases erasing

theorem Bounded.next (bounded : s.Bounded) (level0 : s.Level0) {a : Action T Key Value}
    (taken : s.next a = some s') : s'.Bounded := by
  have positive := kMaxHeight_pos
  cases a with
  | call t op =>
      simp only [State.next] at taken
      split at taken
      · rename_i enabled
        have first : (s.begin t op).carries < kMaxHeight ∧ (s.begin t op).onLevel < kMaxHeight ∧
            (s.begin t op).erasing = none := by
          cases op with
          | insert key value level => exact ⟨of_decide_eq_true enabled.2, positive, rfl⟩
          | exists_ key | find key | erase key =>
              refine ⟨?_, ?_, erasing_enter _⟩
              · exact (carries_enter _).trans_lt positive
              · exact (onLevel_enter _).trans_lt positive
          | firstKey | extract what =>
              refine ⟨?_, (onLevel_enter _).trans_lt positive, erasing_enter _⟩
              simp only [begin, enter]
              split <;> exact positive
        split at taken
        all_goals
          cases taken
          refine bounded.move rfl bounded.height fun u moved => ?_
          have moved : (s.goto t (s.begin t op)).pc u ≠ s.pc u := moved
          rw [show _ = s.begin t op from goto_pc_ne moved]
          exact first
      · cases taken
  | exit t =>
      simp only [State.next] at taken
      split at taken
      · cases taken
        refine bounded.move rfl bounded.height fun u moved => ?_
        rw [goto_pc_ne moved]
        exact ⟨positive, positive, rfl⟩
      · cases taken
  | step t =>
      rcases step_map level0.synced taken with ⟨sys, -, rfl⟩ | ⟨sys, e, nx, access, rfl⟩
      · exact bounded.move rfl bounded.height fun u moved => absurd rfl moved
      · exact bounded.access level0 access

theorem bounded_init : (init : State T Key Value).Bounded where
  height := kMaxHeight_pos
  head := rfl
  carries _ := kMaxHeight_pos
  onLevel _ := kMaxHeight_pos
  erasing _ _ _ erasing := nomatch erasing

end State

/-! ## Every access of `height_` on its own -/

/-- Where a thread stands between two accesses of `height_` in `insert`. -/
inductive Clamp (Key Value : Type) where
  | none
  -- `level > height_` was true
  | read (key : Key) (value : Value)
  -- `height_ + 1` has been computed
  | write (key : Key) (value : Value) (level : Nat)
  -- `std::max` has returned its reference to `height_`
  | again (key : Key) (level : Nat) (n : Addr)
  deriving DecidableEq

structure Racing (T Key Value : Type) where
  map : State T Key Value
  clamp : T → Clamp Key Value

namespace Racing

def init : Racing T Key Value := ⟨.init, fun _ => .none⟩

def goto (r : Racing T Key Value) (t : T) (c : Clamp Key Value) : Racing T Key Value :=
  { r with clamp := fun u => if u = t then c else r.clamp u }

/-- A step that the two machines have in common. -/
def plain (r : Racing T Key Value) (t : T) : Option (Racing T Key Value) :=
  (r.map.step t).map fun s => { r with map := s }

def step (r : Racing T Key Value) (t : T) : Option (Racing T Key Value) :=
  match r.clamp t with
  | .none =>
      match r.map.pc t with
      | .insertLevel key value level =>
          if r.map.height < level then some (r.goto t (.read key value)) else r.plain t
      | .insertOverage key level n =>
          if level < r.map.height then some (r.goto t (.again key level n)) else r.plain t
      | _ => r.plain t
  | .read key value => some (r.goto t (.write key value (r.map.height + 1)))
  | .write key value level =>
      let map := { r.map with height := level }
      some { r.goto t .none with map := map.goto t (map.enter t (.find ⟨key, .insert value level⟩)) }
  | .again key level n =>
      let x : Index Key := ⟨key, level, n, (r.map.node n).height - 1⟩
      some { r.goto t .none with map := r.map.goto t (indexLevel x head r.map.height) }

def next (r : Racing T Key Value) : Action T Key Value → Option (Racing T Key Value)
  | .step t => r.step t
  | a => (r.map.next a).map fun s => { r with map := s }

/-- An `insert` that reads `height_` to raise it finds it below the maximum. -/
def clampsBelow (r : Racing T Key Value) : Action T Key Value → Bool
  | .step t =>
      match r.clamp t with
      | .read _ _ => decide (r.map.height < kMaxHeight - 1)
      | _ => true
  | _ => true

end Racing

/-- What a thread between two accesses of `height_` is in the middle of. -/
def Clamp.Stands : Clamp Key Value → PC Key Value → Prop
  | .none, _ => True
  | .read key value, pc | .write key value _, pc => ∃ level, pc = .insertLevel key value level
  | .again key level n, pc => pc = .insertOverage key level n

namespace Racing

variable {r r' : Racing T Key Value} {s s' : State T Key Value} {t : T}

/-- What is true of the list whatever the accesses of `height_` find. -/
structure Lawful (r : Racing T Key Value) : Prop where
  level0 : r.map.Level0
  stands : ∀ t, (r.clamp t).Stands (r.map.pc t)

theorem lawful_init : (init : Racing T Key Value).Lawful :=
  ⟨State.level0_init, fun _ => trivial⟩

@[simp] theorem goto_map (c : Clamp Key Value) : (r.goto t c).map = r.map := rfl

@[simp] theorem goto_clamp_self (c : Clamp Key Value) : (r.goto t c).clamp t = c := if_pos rfl

theorem goto_clamp_other {u : T} (other : u ≠ t) (c : Clamp Key Value) :
    (r.goto t c).clamp u = r.clamp u := if_neg other

/-- A step is one of the first machine, or one of the four accesses of `height_`. -/
theorem step_cases (taken : r.step t = some r') :
    (r.clamp t = .none ∧ ∃ s, r.map.step t = some s ∧ r' = { r with map := s }) ∨
    (∃ c, (∀ key value level, c ≠ .write key value level) ∧ c.Stands (r.map.pc t) ∧
      r' = r.goto t c) ∨
    (∃ key value, r.clamp t = .read key value ∧
      r' = r.goto t (.write key value (r.map.height + 1))) ∨
    (∃ key value level, r.clamp t = .write key value level ∧
      r' = { r.goto t .none with
        map := { r.map with height := level }.goto t
          (r.map.enter t (.find ⟨key, .insert value level⟩)) }) ∨
    ∃ key level n, r.clamp t = .again key level n ∧
      r' = { r.goto t .none with
        map := r.map.goto t
          (indexLevel ⟨key, level, n, (r.map.node n).height - 1⟩ head r.map.height) } := by
  have shared : r.clamp t = .none → r.plain t = some r' →
      r.clamp t = .none ∧ ∃ s, r.map.step t = some s ∧ r' = { r with map := s } := by
    intro clamp taken
    obtain ⟨s, stepped, rfl⟩ := Option.map_eq_some_iff.1 taken
    exact ⟨clamp, s, stepped, rfl⟩
  unfold step at taken
  split at taken
  · rename_i clamp
    split at taken
    · rename_i key value level at_
      split at taken
      · cases taken
        exact .inr (.inl ⟨.read key value, fun _ _ _ => by simp, ⟨level, at_⟩, rfl⟩)
      · exact .inl (shared clamp taken)
    · rename_i key level n at_
      split at taken
      · cases taken
        exact .inr (.inl ⟨.again key level n, fun _ _ _ => by simp, at_, rfl⟩)
      · exact .inl (shared clamp taken)
    · exact .inl (shared clamp taken)
  · rename_i key value clamp
    cases taken
    exact .inr (.inr (.inl ⟨key, value, clamp, rfl⟩))
  · rename_i key value level clamp
    cases taken
    exact .inr (.inr (.inr (.inl ⟨key, value, level, clamp, rfl⟩)))
  · rename_i key level n clamp
    cases taken
    exact .inr (.inr (.inr (.inr ⟨key, level, n, clamp, rfl⟩)))

/-- A thread between two accesses of `height_` is in a call. -/
theorem Lawful.busy (lawful : r.Lawful) (clamped : r.clamp t ≠ .none) :
    (r.map.pc t).isIdle = false ∧ r.map.sys.pc t = .idle := by
  have stands := lawful.stands t
  have synced := lawful.level0.synced t
  cases clamp : r.clamp t with
  | none => exact absurd clamp clamped
  | read key value | write key value level =>
      rw [clamp] at stands
      obtain ⟨level', at_⟩ := stands
      rw [at_] at synced ⊢
      exact ⟨rfl, synced⟩
  | again key level n =>
      rw [clamp] at stands
      rw [show _ = _ from stands] at synced ⊢
      exact ⟨rfl, synced⟩

/-- What the two machines have in common leaves the other threads where they are. -/
theorem Lawful.common (lawful : r.Lawful) {a : Action T Key Value} (taken : r.map.next a = some s)
    (free : ∀ t, a = .step t → r.clamp t = .none) : ({ r with map := s } : Racing T Key Value).Lawful := by
  refine ⟨lawful.level0.next taken, fun u => ?_⟩
  by_cases clamp : r.clamp u = .none
  · show (r.clamp u).Stands (s.pc u)
    rw [clamp]
    trivial
  · have busy := (lawful.busy clamp).1
    have other : a ≠ .step u := fun same => clamp (free u same)
    show (r.clamp u).Stands (s.pc u)
    rw [(State.next_other lawful.level0.synced busy other taken).1]
    exact lawful.stands u

/-- A thread goes on after its last access of `height_`. -/
theorem Lawful.leave (lawful : r.Lawful) (clamped : r.clamp t ≠ .none) (h : Nat)
    {pc : PC Key Value} (here : r.map.Local pc) (owns : pc.owns = none) :
    ({ r.goto t .none with map := { r.map with height := h }.goto t pc } : Racing T Key Value).Lawful := by
  have synced : ({ r.map with height := h }.goto t pc).Synced :=
    State.synced_goto (lawful.busy clamped).2 (fun u _ => lawful.level0.synced u) pc
  constructor
  case level0 =>
      refine lawful.level0.move ⟨rfl, rfl, rfl⟩ synced fun u moved => ?_
      have at_ : ({ r.map with height := h }.goto t pc).pc u = pc := State.goto_pc_ne moved
      rw [at_]
      exact ⟨here, owns⟩
  case stands =>
      intro u
      by_cases same : u = t
      · subst same
        show ((r.goto u .none).clamp u).Stands _
        rw [goto_clamp_self]
        trivial
      · show ((r.goto t .none).clamp u).Stands (({ r.map with height := h }.goto t pc).pc u)
        rw [goto_clamp_other same]
        have at_ : ({ r.map with height := h }.goto t pc).pc u = r.map.pc u := if_neg same
        rw [at_]
        exact lawful.stands u

theorem Lawful.stand (lawful : r.Lawful) {c : Clamp Key Value} (stands : c.Stands (r.map.pc t)) :
    (r.goto t c).Lawful := by
  refine ⟨lawful.level0, fun u => ?_⟩
  by_cases same : u = t
  · subst same
    rw [goto_clamp_self]
    exact stands
  · rw [goto_clamp_other same]
    exact lawful.stands u

theorem Lawful.step (lawful : r.Lawful) (taken : r.step t = some r') : r'.Lawful := by
  have stands := lawful.stands t
  rcases step_cases taken with ⟨clamp, s, stepped, rfl⟩ | ⟨c, -, stands', rfl⟩ |
    ⟨key, value, clamp, rfl⟩ | ⟨key, value, level, clamp, rfl⟩ | ⟨key, level, n, clamp, rfl⟩
  · refine lawful.common (a := .step t) stepped fun u same => ?_
    cases same
    exact clamp
  · exact lawful.stand stands'
  · rw [clamp] at stands
    exact lawful.stand stands
  · exact lawful.leave (by rw [clamp]; simp) level (State.local_enter trivial) State.owns_enter
  · have here := lawful.level0.here t
    rw [clamp] at stands
    rw [show _ = _ from stands] at here
    exact lawful.leave (by rw [clamp]; simp) r.map.height (State.local_index here.1)
      State.owns_indexLevel

theorem Lawful.next (lawful : r.Lawful) {a : Action T Key Value} (taken : r.next a = some r') :
    r'.Lawful := by
  cases a with
  | step t => exact lawful.step taken
  | call t op =>
      obtain ⟨s, called, rfl⟩ := Option.map_eq_some_iff.1 taken
      exact lawful.common called fun u same => nomatch same
  | exit t =>
      obtain ⟨s, left, rfl⟩ := Option.map_eq_some_iff.1 taken
      exact lawful.common left fun u same => nomatch same

/-! ## The bounds -/

/-- The bounds, and those of the levels that are about to be written. -/
structure Tame (r : Racing T Key Value) : Prop where
  bounded : r.map.Bounded
  writes : ∀ t key value level, r.clamp t = .write key value level → level < kMaxHeight

theorem tame_init : (init : Racing T Key Value).Tame :=
  ⟨State.bounded_init, fun _ _ _ _ clamp => nomatch clamp⟩

/-- After its last access of `height_` a thread is below the maximum. -/
theorem Tame.leave (tame : r.Tame) {h : Nat} (low : h < kMaxHeight) {pc : PC Key Value}
    (carries : pc.carries < kMaxHeight) (onLevel : pc.onLevel < kMaxHeight)
    (erasing : pc.erasing = none) :
    ({ r.goto t .none with map := { r.map with height := h }.goto t pc } : Racing T Key Value).Tame := by
  constructor
  case bounded =>
      refine tame.bounded.move rfl low fun u moved => ?_
      have at_ : ({ r.map with height := h }.goto t pc).pc u = pc := State.goto_pc_ne moved
      rw [at_]
      exact ⟨carries, onLevel, erasing⟩
  case writes =>
      intro u key value level clamp
      have clamp : (r.goto t .none).clamp u = .write key value level := clamp
      by_cases same : u = t
      · rw [same, goto_clamp_self] at clamp
        cases clamp
      · rw [goto_clamp_other same] at clamp
        exact tame.writes u key value level clamp

theorem Tame.stand (tame : r.Tame) {c : Clamp Key Value}
    (low : ∀ key value level, c = .write key value level → level < kMaxHeight) :
    (r.goto t c).Tame := by
  refine ⟨tame.bounded, fun u key value level clamp => ?_⟩
  by_cases same : u = t
  · rw [same, goto_clamp_self] at clamp
    exact low key value level clamp
  · rw [goto_clamp_other same] at clamp
    exact tame.writes u key value level clamp

theorem Tame.next (tame : r.Tame) (lawful : r.Lawful) {a : Action T Key Value}
    (below : r.clampsBelow a = true) (taken : r.next a = some r') : r'.Tame := by
  have common : ∀ {a s}, r.map.next a = some s → ({ r with map := s } : Racing T Key Value).Tame :=
    fun taken => ⟨tame.bounded.next lawful.level0 taken, tame.writes⟩
  cases a with
  | call t op =>
      obtain ⟨s, called, rfl⟩ := Option.map_eq_some_iff.1 taken
      exact common called
  | exit t =>
      obtain ⟨s, left, rfl⟩ := Option.map_eq_some_iff.1 taken
      exact common left
  | step t =>
      have taken : r.step t = some r' := taken
      rcases step_cases taken with ⟨clamp, s, stepped, rfl⟩ | ⟨c, noWrite, -, rfl⟩ |
        ⟨key, value, clamp, rfl⟩ | ⟨key, value, level, clamp, rfl⟩ | ⟨key, level, n, clamp, rfl⟩
      · exact common (a := .step t) stepped
      · exact tame.stand fun key value level same => absurd same (noWrite key value level)
      · -- the one place where the condition is needed
        simp only [clampsBelow, clamp, decide_eq_true_eq] at below
        refine tame.stand fun key' value' level same => ?_
        cases same
        omega
      · have low := tame.writes t key value level clamp
        exact tame.leave low ((State.carries_enter _).trans_lt low)
          ((State.onLevel_enter _).trans_lt kMaxHeight_pos) (State.erasing_enter _)
      · have low := tame.bounded.height
        exact tame.leave low (State.carries_index.trans_lt kMaxHeight_pos)
          (State.onLevel_indexLevel.trans_lt low) State.erasing_index

theorem step_read {key : Key} {value : Value} (clamp : r.clamp t = .read key value) :
    r.step t = some (r.goto t (.write key value (r.map.height + 1))) := by
  unfold step
  rw [clamp]

theorem step_write {key : Key} {value : Value} {level : Nat}
    (clamp : r.clamp t = .write key value level) :
    r.step t = some { r.goto t .none with
      map := { r.map with height := level }.goto t
        (r.map.enter t (.find ⟨key, .insert value level⟩)) } := by
  unfold step
  rw [clamp]
  rfl

theorem step_again {key : Key} {level : Nat} {n : Addr} (clamp : r.clamp t = .again key level n) :
    r.step t = some { r.goto t .none with
      map := r.map.goto t
        (indexLevel ⟨key, level, n, (r.map.node n).height - 1⟩ head r.map.height) } := by
  unfold step
  rw [clamp]

/-- From the maximum on, `height_` grows beyond it. -/
theorem overgrows (above : r.clampsBelow (.step t) = false) : ∃ r',
    Theory.run next r [.step t, .step t] = some r' ∧ ¬ r'.map.InBounds := by
  cases clamp : r.clamp t with
  | read key value =>
      simp only [clampsBelow, clamp, decide_eq_false_iff_not] at above
      refine ⟨_, Theory.run_cons_eq_some.2 ⟨_, step_read clamp,
        Theory.run_cons_eq_some.2 ⟨_, step_write (goto_clamp_self _), Theory.run_nil⟩⟩, ?_⟩
      intro inBounds
      have height : r.map.height + 1 ≤ kMaxHeight - 1 := inBounds.height
      omega
  | none | write key value level | again key level n => simp [clampsBelow, clamp] at above

/-- **The indices stay inside of the towers** as long as no `insert` finds `height_` at the maximum
when it reads it again to raise it. An `insert` that does so takes `height_` out of bounds. -/
theorem indices_in_bounds {as : List (Action T Key Value)}
    (below : Theory.Along next (fun r a => clampsBelow r a = true) (init : Racing T Key Value) as)
    (ran : Theory.run next (init : Racing T Key Value) as = some r) :
    r.map.InBounds ∧ ∀ t, r.clampsBelow (.step t) = false → ∃ r',
      Theory.run next r [.step t, .step t] = some r' ∧ ¬ r'.map.InBounds := by
  obtain ⟨tame, lawful⟩ : r.Tame ∧ r.Lawful :=
    Theory.run_along (P := fun r : Racing T Key Value => r.Tame ∧ r.Lawful)
      (fun _ _ _ before below taken => ⟨before.1.next before.2 below taken, before.2.next taken⟩)
      ⟨tame_init, lawful_init⟩ below ran
  exact ⟨tame.bounded.inBounds lawful.level0, fun _ => overgrows⟩

/-- Two inserts of the same key draw the maximal level, compare, and raise `height_` one after the
other; the first one then runs to its end. -/
def raisePair : List (Action (Fin 2) Nat Nat) :=
  [Action.call 0 (.insert 1 10 11), .call 1 (.insert 1 20 11), .step 0, .step 1, .step 0, .step 0,
    .step 1, .step 1] ++ List.replicate 31 (Action.step 0)

theorem indices_in_bounds_pair : ∃ r : Racing (Fin 2) Nat Nat,
    Theory.run next init raisePair = some r ∧ r.map.height = 2 ∧ r.map.InBounds := by
  have played : (Theory.run next init raisePair).map
      (fun r : Racing (Fin 2) Nat Nat => decide (r.map.height = 2)) = some true := by decide +kernel
  obtain ⟨r, ran, height⟩ := Option.map_eq_some_iff.1 played
  exact ⟨r, ran, of_decide_eq_true height, (indices_in_bounds (by decide +kernel) ran).1⟩

/-- Twelve threads draw the maximal level and find it above `height_`, which is 0. Then each of them
raises `height_`, and the first one goes on to `find`. -/
def overgrow : List (Action (Fin 12) Nat Nat) :=
  (List.finRange 12).flatMap (fun t => [Action.call t (.insert 1 10 11), .step t]) ++
    (List.finRange 12).flatMap (fun t => [Action.step t, .step t]) ++
      List.replicate 7 (Action.step 0)

/-- `height_` is `kMaxHeight`, and `find` is about to load `head_->next_[kMaxHeight]`. -/
theorem height_overgrown : ∃ r : Racing (Fin 12) Nat Nat,
    Theory.run next init overgrow = some r ∧ ¬ r.map.height ≤ kMaxHeight - 1 ∧
    (r.map.pc 0).accesses = some (head, kMaxHeight) ∧
    ¬ kMaxHeight < (r.map.node head).height := by
  have played : (Theory.run next init overgrow).map
      (fun r : Racing (Fin 12) Nat Nat => decide (¬ r.map.height ≤ kMaxHeight - 1 ∧
        (r.map.pc 0).accesses = some (head, kMaxHeight) ∧
        ¬ kMaxHeight < (r.map.node head).height)) = some true := by decide +kernel
  obtain ⟨r, ran, checked⟩ := Option.map_eq_some_iff.1 played
  exact ⟨r, ran, of_decide_eq_true checked⟩

/-! ## The first machine is a part of this one -/

/-- No thread is between two accesses of `height_`. -/
def calm (s : State T Key Value) : Racing T Key Value := ⟨s, fun _ => .none⟩

@[simp] theorem goto_goto (c c' : Clamp Key Value) : (r.goto t c).goto t c' = r.goto t c' := by
  simp only [goto, Racing.mk.injEq, true_and]
  funext u
  split <;> rfl

@[simp] theorem calm_goto_none : (calm s).goto t .none = calm s := by
  simp only [goto, calm, ite_self]

/-- Comparing, reading and writing `height_` without a pause in between is one step of the first
machine; so is reading it twice. -/
theorem step_calm (synced : s.Synced) (taken : s.step t = some s') :
    ∃ bs, Theory.run next (calm s) bs = some (calm s') := by
  by_cases raises : ∃ key value level, s.pc t = .insertLevel key value level ∧ s.height < level
  · obtain ⟨key, value, level, at_, above⟩ := raises
    have first : (calm s).step t = some ((calm s).goto t (.read key value)) := by
      simp only [step, calm, at_]
      exact if_pos above
    obtain rfl : s' = { s with height := s.height + 1 }.goto t
        (s.enter t (.find ⟨key, .insert value (s.height + 1)⟩)) := by
      obtain ⟨e, nx, access, rfl⟩ := State.step_access synced (by rw [at_]; rfl) taken
      rw [at_] at access
      cases access with
      | grown => rfl
      | levelled _ _ _ notAbove => exact absurd above (Nat.not_lt.2 notAbove)
    refine ⟨[.step t, .step t, .step t], Theory.run_cons_eq_some.2 ⟨_, first,
      Theory.run_cons_eq_some.2 ⟨_, step_read (goto_clamp_self _),
        Theory.run_cons_eq_some.2 ⟨_, step_write (goto_clamp_self _), ?_⟩⟩⟩⟩
    simp only [goto_goto, calm_goto_none, Theory.run_nil]
    rfl
  by_cases rereads : ∃ key level n, s.pc t = .insertOverage key level n ∧ level < s.height
  · obtain ⟨key, level, n, at_, below⟩ := rereads
    have first : (calm s).step t = some ((calm s).goto t (.again key level n)) := by
      simp only [step, calm, at_]
      exact if_pos below
    obtain rfl : s' = s.goto t
        (indexLevel ⟨key, level, n, (s.node n).height - 1⟩ head s.height) := by
      obtain ⟨e, nx, access, rfl⟩ := State.step_access synced (by rw [at_]; rfl) taken
      rw [at_] at access
      cases access with
      | overage => rw [Nat.max_eq_right below.le]; rfl
    refine ⟨[.step t, .step t], Theory.run_cons_eq_some.2 ⟨_, first,
      Theory.run_cons_eq_some.2 ⟨_, step_again (goto_clamp_self _), ?_⟩⟩⟩
    simp only [goto_goto, calm_goto_none, Theory.run_nil]
    rfl
  · have shared : (calm s).step t = (calm s).plain t := by
      simp only [step]
      rw [show (calm s).clamp t = .none from rfl]
      simp only
      split
      · rename_i key value level at_
        exact if_neg fun above => raises ⟨key, value, level, at_, above⟩
      · rename_i key level n at_
        exact if_neg fun below => rereads ⟨key, level, n, at_, below⟩
      · rfl
    refine ⟨[.step t], Theory.run_cons_eq_some.2 ⟨_, ?_, Theory.run_nil⟩⟩
    show (calm s).step t = _
    rw [shared]
    exact Option.map_eq_some_iff.2 ⟨s', taken, rfl⟩

/-- Whatever the first machine does, this one does. -/
theorem racing_of_run {as : List (Action T Key Value)}
    (ran : Theory.run State.next (State.init : State T Key Value) as = some s) :
    ∃ bs, Theory.run next (init : Racing T Key Value) bs = some (calm s) := by
  suffices both : s.Level0 ∧ ∃ bs, Theory.run next (init : Racing T Key Value) bs = some (calm s) from
    both.2
  refine Theory.run_induction (P := fun s : State T Key Value =>
    s.Level0 ∧ ∃ bs, Theory.run next (init : Racing T Key Value) bs = some (calm s))
    (fun s a s' before taken => ?_) ⟨State.level0_init, [], rfl⟩ ran
  obtain ⟨level0, bs, reached⟩ := before
  have onward : ∃ cs, Theory.run next (calm s) cs = some (calm s') := by
    cases a with
    | step t => exact step_calm level0.synced taken
    | call t op =>
        exact ⟨[.call t op], Theory.run_cons_eq_some.2
          ⟨_, Option.map_eq_some_iff.2 ⟨s', taken, rfl⟩, Theory.run_nil⟩⟩
    | exit t =>
        exact ⟨[.exit t], Theory.run_cons_eq_some.2
          ⟨_, Option.map_eq_some_iff.2 ⟨s', taken, rfl⟩, Theory.run_nil⟩⟩
  obtain ⟨cs, further⟩ := onward
  exact ⟨level0.next taken, bs ++ cs, Theory.run_append_eq_some.2 ⟨_, reached, further⟩⟩

end Racing

end Ccmetrics.SkipList
