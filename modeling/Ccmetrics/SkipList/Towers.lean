/-
# SkipList.Towers -- the index lists are never built

`mkNode` fills the upper levels of every tower with marked nulls, those of `head_` included.
`insert` reads `head_->next_[i]` before it links a node on level `i`, takes the marked null for the
mark of a deleted node and gives up (`Memory.index`). So every index list is empty in every
reachable state, and the index agrees with the towers exactly when no live node has a tower
(`index_built_iff`).

A node's tower is at most one higher than `height_`, because `insert` clamps its level (`Towers`).
-/
import Ccmetrics.SkipList.Level0

namespace Ccmetrics.SkipList

set_option autoImplicit false
set_option linter.unusedSectionVars false

variable {T Key Value : Type} [DecidableEq T] [LinearOrder Key] [Inhabited Key] [Inhabited Value]

/-- The clamped level of an `insert` that has not created its node yet. -/
def Find.drawn (f : Find Key Value) : Option Nat :=
  match f.site with
  | .insert _ level => some level
  | _ => none

def PC.drawn (pc : PC Key Value) : Option Nat := pc.finding.bind Find.drawn

namespace State

variable {s s' : State T Key Value} {t u : T} {e : Effect Key Value} {nx : Next Key Value}
variable {pc : PC Key Value}

structure Towers (s : State T Key Value) : Prop where
  tower : ∀ a, head < a → a < s.fresh → (s.node a).height ≤ s.height + 1
  drawn : ∀ t level, (s.pc t).drawn = some level → level ≤ s.height

theorem drawn_findDown {f : Find Key Value} {i : Nat} {prev : Addr} {cur : Ptr} :
    (findDown f i prev cur).drawn = f.drawn := by
  simp only [PC.drawn, finding_findDown, Option.bind_some]

theorem drawn_findLoop {f : Find Key Value} {i : Nat} {prev : Addr} {cur : Ptr} {level : Nat}
    (drawn : (findLoop f i prev cur).drawn = some level) : f.drawn = some level := by
  cases cur with
  | null | markedNull => exact drawn_findDown.symm.trans drawn
  | node c => exact drawn
  | marked c => cases drawn

theorem drawn_enter {f : Find Key Value} : (s.enter t (.find f)).drawn = f.drawn := by
  simp only [PC.drawn, finding_enter, Option.bind_some]

theorem drawn_found {f : Find Key Value} {prev : Addr} {cur : Ptr} {hit : Bool} :
    (s.found f prev cur hit).2.pc.drawn = none := by
  simp only [found]
  split <;> (try split) <;> rfl

theorem drawn_index {x : Index Key} {i : Nat} {prev : Addr} :
    (indexLevel x prev i : PC Key Value).drawn = none := by
  cases i with
  | zero => simp only [indexLevel]; split <;> rfl
  | succ i => rfl

theorem drawn_indexHere {x : Index Key} {i : Nat} {prev : Addr} {cur : Ptr} :
    (indexHere x i prev cur : PC Key Value).drawn = none := by
  simp only [indexHere]
  split <;> rfl

theorem drawn_indexWhile {x : Index Key} {i : Nat} {prev : Addr} {cur : Ptr} :
    (indexWhile x i prev cur : PC Key Value).drawn = none := by
  cases cur with
  | null => exact drawn_indexHere
  | _ => rfl

theorem drawn_itemsLoop {what : Extract} {ret : List (Item Key Value)} {prev cur : Ptr} :
    (itemsLoop what ret prev cur).drawn = none := by
  cases cur <;> cases prev <;> rfl

/-- Only `insert` draws a level, and clamps it. -/
theorem access_drawn {level : Nat} (access : s.Access t pc e nx) (drawn : nx.pc.drawn = some level) :
    pc.drawn = some level ∨ level ≤ (s.apply t e).height := by
  cases access
  case acquired start =>
      cases start with
      | find f => exact .inl drawn
      | _ => cases drawn
  case curLoaded | curSet => exact .inl (drawn_findLoop drawn)
  case keyReached | drop | retired => exact .inl (drawn_findDown.symm.trans drawn)
  case matchNull | matchNode => cases drawn_found.symm.trans drawn
  case eraseFlat | marked =>
      simp only [eraseDown, Next.pc_goto] at drawn
      split at drawn
      · cases drawn_enter.symm.trans drawn
      · cases drawn
  case grown key value level' higher =>
      cases drawn_enter.symm.trans drawn
      exact .inr (Nat.le_refl _)
  case levelled key value level' below =>
      cases drawn_enter.symm.trans drawn
      exact .inr below
  case linkFailed => cases drawn_enter.symm.trans drawn
  case overage | indexMarked | indexNextMarked | indexPrevChanged | indexFailed | indexDead
    | indexAlive =>
      simp only [Next.pc_goto, indexExit, drawn_index] at drawn
      cases drawn
  case indexLoaded | indexCurSet =>
      rw [Next.pc_goto, drawn_indexWhile] at drawn
      cases drawn
  case indexReached =>
      rw [Next.pc_goto, drawn_indexHere] at drawn
      cases drawn
  case itemsLoaded | itemsCurSet =>
      rw [Next.pc_goto, drawn_itemsLoop] at drawn
      cases drawn
  case itemsNextLoaded =>
      simp only [itemsNextOf, Next.pc_goto] at drawn
      split at drawn <;> cases drawn
  case clearedLast k leave => cases leave <;> cases drawn
  all_goals first | exact .inl drawn | cases drawn

/-- `find(key)` itself writes nothing; `insert` creates its node when it returns. -/
theorem found_effect (f : Find Key Value) (prev : Addr) (cur : Ptr) (hit : Bool) :
    (s.found f prev cur hit).1 = .none ∨
      ∃ level value, f.drawn = some level ∧
        (s.found f prev cur hit).1 = .create (level + 1) f.key value := by
  cases site : f.site with
  | insert value level =>
      simp only [found, site]
      split
      · exact .inl rfl
      · exact .inr ⟨level, value, by simp [Find.drawn, site], rfl⟩
  | exists_ | eraseAgain => exact .inl (by simp only [found, site])
  | insertAgain | find | erase =>
      left
      simp only [found, site]
      split <;> rfl

/-- A new node has the height that its `insert` drew. -/
theorem access_create {height : Nat} {key : Key} {value : Value}
    (access : s.Access t pc (.create height key value) nx) :
    ∃ level, pc.drawn = some level ∧ height = level + 1 := by
  have created : ∀ {f : Find Key Value} {prev cur hit}, (.create height key value) =
      (s.found f prev cur hit).1 → ∃ level, f.drawn = some level ∧ height = level + 1 := by
    intro f prev cur hit effect
    rcases found_effect (s := s) f prev cur hit with none_ | ⟨level, value, drawn, create⟩
    · cases effect.trans none_
    · cases effect.trans create
      exact ⟨level, drawn, rfl⟩
  generalize effect : Effect.create height key value = e at access
  cases access <;> first | cases effect | exact created effect

theorem apply_height (e : Effect Key Value) :
    (s.apply t e).height = (match e with | .height h => h | _ => s.height) := by
  cases e with
  | link prev n => simp [apply, setNext, modify]
  | mark cur i nexti => simp only [apply]; split <;> simp [setNext, modify]
  | _ => rfl

theorem access_height_le (access : s.Access t pc e nx) : s.height ≤ (s.apply t e).height := by
  have returned : ∀ (f : Find Key Value) prev cur hit,
      s.height ≤ (s.apply t (s.found f prev cur hit).1).height := by
    intro f prev cur hit
    rw [apply_height]
    rcases found_effect (s := s) f prev cur hit with none_ | ⟨level, value, -, create⟩
    · rw [none_]
    · rw [create]
  cases access
  case matchNull | matchNode => exact returned ..
  all_goals rw [apply_height]
  case grown => exact Nat.le_succ _

/-- Nothing but `mkNode` gives a node its height. -/
theorem apply_node_height {a : Addr} (e : Effect Key Value) :
    ((s.apply t e).node a).height = (s.node a).height ∨
      ∃ height key value, e = .create height key value ∧ a = s.fresh ∧
        ((s.apply t e).node a).height = height := by
  have setNext_height : ∀ b i p, ((s.setNext b i p).node a).height = (s.node a).height := by
    intro b i p
    by_cases same : a = b <;> simp [setNext, modify, same]
  cases e with
  | create height key value =>
      by_cases isNew : a = s.fresh
      · exact .inr ⟨height, key, value, rfl, isNew, by simp [apply, isNew, mkNode]⟩
      · exact .inl (by simp [apply, isNew])
  | count n | drop n k => left; by_cases same : a = n <;> simp [apply, modify, same]
  | link prev n => left; rw [(apply_link (s := s) (t := t) prev n).1, setNext_height]
  | mark cur i nexti => left; rw [(apply_mark (s := s) (t := t) cur i nexti).1, setNext_height]
  | store n i p | index prev i n | unlink prev i p => exact .inl (setNext_height ..)
  | none | height h | free n => exact .inl rfl

theorem apply_fresh (e : Effect Key Value) :
    (s.apply t e).fresh = (match e with | .create _ _ _ => s.fresh + 1 | _ => s.fresh) := by
  cases e with
  | link prev n => simp [apply, setNext, modify]
  | mark cur i nexti => simp only [apply]; split <;> simp [setNext, modify]
  | _ => rfl

theorem Towers.access {sys : Hazard.Sys T Ptr (Addr × Nat)} (towers : s.Towers)
    (access : s.Access t (s.pc t) e nx) :
    (({ s with sys := sys }.apply t e).after t nx).Towers := by
  have higher := access_height_le access
  have height : (({ s with sys := sys }.apply t e).after t nx).height = (s.apply t e).height := by
    rw [after_height, apply_with_sys]
  have node : (({ s with sys := sys }.apply t e).after t nx).node = (s.apply t e).node := by
    rw [after_node, apply_with_sys]
  have fresh : (({ s with sys := sys }.apply t e).after t nx).fresh = (s.apply t e).fresh := by
    rw [after_fresh, apply_with_sys]
  constructor
  case tower =>
      intro a above known
      rw [height, node]
      rw [fresh, apply_fresh] at known
      by_cases old : a < s.fresh
      · rcases apply_node_height (s := s) (t := t) (a := a) e with same | ⟨_, _, _, _, new, -⟩
        · have := towers.tower a above old
          omega
        · exact absurd old (by rw [new]; exact Nat.lt_irrefl _)
      · cases e with
        | create tall key value =>
            have new : a = s.fresh := Nat.le_antisymm (Nat.lt_succ_iff.1 known) (Nat.not_lt.1 old)
            obtain ⟨level, drawn, rfl⟩ := access_create access
            have := towers.drawn t level drawn
            have created : ((s.apply t (.create (level + 1) key value)).node a).height = level + 1 := by
              simp [apply, new, mkNode]
            omega
        | _ => exact absurd known old
  case drawn =>
      intro u level drawn
      rw [height]
      by_cases same : u = t
      · rw [same, after_pc_self] at drawn
        rcases access_drawn access drawn with before | clamped
        · exact (towers.drawn t level before).trans higher
        · exact clamped
      · rw [after_pc_other same, apply_pc] at drawn
        exact (towers.drawn u level drawn).trans higher

theorem Towers.move (towers : s.Towers) (height : s'.height = s.height) (same : s.SameNodes s')
    (drawn : ∀ u level, (s'.pc u).drawn = some level → (s.pc u).drawn = some level) : s'.Towers where
  tower := by
    rw [same.node, same.fresh, height]
    exact towers.tower
  drawn u level now := by
    rw [height]
    exact towers.drawn u level (drawn u level now)

theorem Towers.next (towers : s.Towers) (level0 : s.Level0) {a : Action T Key Value}
    (taken : s.next a = some s') : s'.Towers := by
  have enters : ∀ (t : T) (pc : PC Key Value), pc.drawn = none → ∀ u level,
      ((s.goto t pc).pc u).drawn = some level → (s.pc u).drawn = some level := by
    intro t pc none_ u level now
    by_cases same : u = t
    · simp only [goto, same, if_true, none_] at now
      cases now
    · simpa only [goto, same, if_false] using now
  cases a with
  | call t op =>
      simp only [State.next] at taken
      split at taken
      · have none_ : (s.begin t op).drawn = none := by
          cases op <;> simp only [begin, enter] <;> (try split) <;> rfl
        split at taken
        · cases taken
          exact towers.move rfl ⟨rfl, rfl, rfl⟩ (enters t _ none_)
        · cases taken
          exact towers.move rfl ⟨rfl, rfl, rfl⟩ (enters t _ none_)
      · cases taken
  | exit t =>
      simp only [State.next] at taken
      split at taken
      · cases taken
        exact towers.move rfl ⟨rfl, rfl, rfl⟩ (enters t _ rfl)
      · cases taken
  | step t =>
      rcases step_map level0.synced taken with ⟨sys, -, rfl⟩ | ⟨sys, e, nx, access, rfl⟩
      · exact towers.move rfl ⟨rfl, rfl, rfl⟩ fun u level now => now
      · exact towers.access access

theorem towers_init : (init : State T Key Value).Towers where
  tower a above known := absurd known (Nat.not_lt.2 above)
  drawn t level drawn := by cases drawn

/-! ## The index -/

/-- The live entries with a tower that reaches level `i`, in the order of their keys. -/
def towersAt (s : State T Key Value) (i : Nat) : List Addr :=
  s.chain.filter fun a => !s.dead a && decide (i < (s.node a).height)

/-- Every index list is what it should be. -/
def Indexed (s : State T Key Value) : Prop :=
  ∀ i, 1 ≤ i → i ≤ s.height → s.chainAt i = s.towersAt i

theorem Memory.chainAt_nil (memory : s.Memory) {i : Nat} (upper : 1 ≤ i) : s.chainAt i = [] := by
  have last : s.edgeAt i head = none := by simp [edgeAt, memory.index head i upper, Ptr.target]
  unfold chainAt
  cases s.fresh with
  | zero => rfl
  | succ n => simp [Theory.Chain.follow, last]

theorem towersAt_eq_nil {i : Nat} : s.towersAt i = [] ↔
    ∀ a ∈ s.chain, s.dead a = false → (s.node a).height ≤ i := by
  simp only [towersAt, List.filter_eq_nil_iff, Bool.and_eq_true, Bool.not_eq_true',
    decide_eq_true_eq, not_and, Nat.not_lt]

/-- **The index lists are never built.** In every state that a run from a fresh map reaches, every
index list is empty. So they consist of the live nodes whose towers reach their level exactly when
no live node has a tower at all. -/
theorem index_built_iff {as : List (Action T Key Value)} (ran : Theory.run next init as = some s) :
    s.Indexed ↔ ∀ a ∈ s.chain, s.dead a = false → (s.node a).height = 1 := by
  obtain ⟨level0, towers⟩ : s.Level0 ∧ s.Towers :=
    Theory.run_induction (P := fun s : State T Key Value => s.Level0 ∧ s.Towers)
      (fun s a s' inv taken => ⟨inv.1.next taken, inv.2.next inv.1 taken⟩)
      ⟨level0_init, towers_init⟩ ran
  have memory := level0.memory
  constructor
  · intro indexed a inChain alive
    have tall := level0.tall a
    have known := memory.known a (memory.member a inChain)
    have clamped := towers.tower a known.1 known.2
    by_contra tower
    have empty := indexed 1 (Nat.le_refl 1) (by omega)
    rw [memory.chainAt_nil (Nat.le_refl 1)] at empty
    have := towersAt_eq_nil.1 empty.symm a inChain alive
    omega
  · intro flat i upper _
    rw [memory.chainAt_nil upper, eq_comm, towersAt_eq_nil]
    intro a inChain alive
    rw [flat a inChain alive]
    exact upper

/-- One thread inserts a key at level 1 and returns. -/
def towerSchedule : List (Action Unit Nat Nat) :=
  .call () (.insert 5 50 1) :: List.replicate 28 (.step ())

/-- It erases the key again and inserts another one at level 0. -/
def flatSchedule : List (Action Unit Nat Nat) :=
  towerSchedule ++ Action.call () (.erase 5) :: List.replicate 42 (.step ()) ++
    Action.call () (.insert 6 60 0) :: List.replicate 22 (.step ())

/-- `height_` is 1 by then, but there is no tower to index. -/
theorem index_built_flat : ∃ s : State Unit Nat Nat,
    Theory.run next init flatSchedule = some s ∧ s.height = 1 ∧ s.chain = [2] ∧ s.Indexed := by
  have taken : (Theory.run next init flatSchedule).map
      (fun s => (s.height, s.chain, (s.node 2).height)) = some (1, [2], 1) := by
    decide +kernel
  obtain ⟨s, ran, facts⟩ := Option.map_eq_some_iff.1 taken
  simp only [Prod.mk.injEq] at facts
  refine ⟨s, ran, facts.1, facts.2.1, (index_built_iff ran).2 fun a inChain _ => ?_⟩
  rw [facts.2.1] at inChain
  rw [List.mem_singleton.1 inChain]
  exact facts.2.2

/-- After the first insertion with a level above 0, `height_` is 1, and the live node of height 2 is not on
the index list of level 1. -/
theorem index_not_built : ∃ s : State Unit Nat Nat,
    Theory.run next init towerSchedule = some s ∧ (s.pc ()).isIdle = true ∧ ¬ s.Indexed := by
  have taken : (Theory.run next init towerSchedule).map
      (fun s => ((s.pc ()).isIdle, s.height, s.chainAt 1, s.towersAt 1)) =
      some (true, 1, [], [1]) := by
    decide +kernel
  obtain ⟨s, ran, facts⟩ := Option.map_eq_some_iff.1 taken
  simp only [Prod.mk.injEq] at facts
  refine ⟨s, ran, facts.1, fun indexed => ?_⟩
  have level := indexed 1 (Nat.le_refl 1) (by rw [facts.2.1])
  rw [facts.2.2.1, facts.2.2.2] at level
  cases level

end State

end Ccmetrics.SkipList
