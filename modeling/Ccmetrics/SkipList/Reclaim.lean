/-
# SkipList.Reclaim -- no thread touches a node that has been deleted

`touches` names the node whose fields the next access of a thread reads or writes, and `slots`
the hazard slots that cover the nodes a thread still needs: `prev` in slot 2, `cur` in slot 1,
`next` in slot 0, and in slot 3 the node that `insert` is linking. A node gets into slot 0 or 1
by a load from a node that other threads see, and moves up from there; `head_` needs no slot.

`nodes_reclaimed` is the result. A node is deleted by `scan`, after it was given to
`retireNode`, or by the `insert` that made it, if that finds its key in the map when it tries
again; never by both and never twice.
-/
import Ccmetrics.Hazard.Holding
import Ccmetrics.SkipList.Records

namespace Ccmetrics.SkipList

set_option autoImplicit false
set_option linter.unusedSectionVars false

variable {T Key Value : Type} [DecidableEq T] [LinearOrder Key] [Inhabited Key] [Inhabited Value]

/-- The node whose fields the next access of a thread reads or writes. -/
def PC.touches : PC Key Value → Option Addr
  | .findCur _ _ prev | .findPrev _ _ prev _ _ | .findUnlink _ _ prev _ _ => some prev
  | .findNext _ _ _ cur | .findDead _ _ _ cur _ | .findKey _ _ _ cur _ | .findNexti _ _ _ cur
  | .findDrop _ _ _ cur => some cur
  | .findMatch _ _ cur => cur.target
  | .findValue cur | .eraseHeight _ cur | .eraseLoad _ cur _ _ | .eraseMark _ cur _ _ _ => some cur
  | .insertCount _ _ n _ _ | .insertStore _ _ n _ _ | .insertOverage _ _ n => some n
  | .insertLink _ _ _ prev _ => some prev
  | .indexCur _ _ prev | .indexPrev _ _ prev _ _ | .indexLink _ _ prev _ => some prev
  | .indexKey _ _ _ cur | .indexNext _ _ _ cur => some cur
  | .indexStore x _ _ _ | .indexDead x _ _ => some x.n
  | .insertDrop n _ => some n
  | .firstCur | .itemsCur _ _ => some head
  | .firstKey cur | .itemsRead _ _ _ cur | .itemsNext _ _ _ cur => some cur
  | .itemsAgain _ _ prev => some prev
  | .free n => some n
  | _ => none

/-- The nodes that an effect writes to. -/
def Effect.writes : Effect Key Value → Option Addr
  | .count n | .store n _ _ | .drop n _ | .free n => some n
  | .link prev _ | .index prev _ _ | .unlink prev _ _ => some prev
  | .mark cur _ _ => some cur
  | _ => Option.none

def Ptr.slot (k : Nat) : Ptr → List (Nat × Addr)
  | .node a => [(k, a)]
  | _ => []

def Find.slots (f : Find Key Value) : List (Nat × Addr) :=
  match f.site with
  | .insertAgain n _ => [(3, n)]
  | _ => []

/-- The slots that a thread relies on, with what they hold. -/
def PC.slots : PC Key Value → List (Nat × Addr)
  | .acquire (.find f) | .findHead f | .findHeight f => f.slots
  | .findCur f _ prev => (2, prev) :: f.slots
  | .findNext f _ prev cur | .findNexti f _ prev cur | .findUnlink f _ prev cur _
  | .findDrop f _ prev cur => (2, prev) :: (1, cur) :: f.slots
  | .findPrev f _ prev cur next | .findDead f _ prev cur next | .findKey f _ prev cur next =>
      (2, prev) :: (1, cur) :: (next.slot 0 ++ f.slots)
  | .findSetPrev f _ prev next => (1, prev) :: (next.slot 0 ++ f.slots)
  | .findSetCur f _ prev next => (2, prev) :: (next.slot 0 ++ f.slots)
  | .findClear f _ prev _ | .findRetire f _ prev _ => (2, prev) :: f.slots
  | .findMatch f prev cur => (2, prev) :: (cur.slot 1 ++ f.slots)
  | .findValue cur | .eraseHeight _ cur | .eraseLoad _ cur _ _ | .eraseMark _ cur _ _ _
  | .firstKey cur => [(1, cur)]
  | .insertHazard _ _ _ prev _ => [(2, prev)]
  | .insertCount _ _ n prev _ | .insertStore _ _ n prev _ | .insertLink _ _ n prev _ =>
      [(3, n), (2, prev)]
  | .insertOverage _ _ n | .insertDrop n _ => [(3, n)]
  | .indexCur x _ _ => [(3, x.n)]
  | .itemsRead _ _ prev cur | .itemsNext _ _ prev cur => [(2, prev), (1, cur)]
  | .itemsAgain _ _ prev => [(2, prev)]
  | .itemsSetPrev _ _ prev next => prev.slot 1 ++ next.slot 0
  | .itemsSetCur _ _ prev next => prev.slot 2 ++ next.slot 0
  | _ => []

namespace State

variable {s s' : State T Key Value} {t u : T} {e : Effect Key Value} {nx : Next Key Value}
variable {pc : PC Key Value} {k : Nat} {a : Addr}

/-! ## What a step reads and writes -/

/-- The next access of a thread looks at no other node. -/
theorem plan_touches (same : ∀ a, pc.touches = some a → s'.node a = s.node a)
    (own : s'.sys.own = s.sys.own) (height : s'.height = s.height) (fresh : s'.fresh = s.fresh) :
    s'.plan t pc = s.plan t pc := by
  have enter_same : ∀ start, s'.enter t start = s.enter t start := by
    intro start
    simp only [enter, own]
  have found_same : ∀ f prev cur hit, s'.found f prev cur hit = s.found f prev cur hit := by
    intro f prev cur hit
    simp only [found, fresh]
  cases pc with
  | findMatch f prev cur =>
      cases cur with
      | node c => simp only [plan, same c rfl, found_same]
      | null => simp only [plan, found_same]
      | markedNull | marked c => rfl
  | findHeight f => simp only [plan, height]
  | insertLevel key value level => simp only [plan, height, enter_same]
  | insertOverage key level n => simp only [plan, same n rfl, height]
  | insertLink key level n prev cur => simp only [plan, same prev rfl, enter_same]
  | eraseHeight key cur => simp only [plan, same cur rfl, eraseDown, enter_same]
  | eraseMark key cur i nexti m => simp only [plan, same cur rfl, eraseDown, enter_same]
  | findPrev f i prev cur next => simp only [plan, same prev rfl]
  | findUnlink f i prev cur nexti => simp only [plan, same prev rfl]
  | findDead f i prev cur next => simp only [plan, same cur rfl]
  | findKey f i prev cur next => simp only [plan, same cur rfl]
  | findNexti f i prev cur => simp only [plan, same cur rfl]
  | findDrop f i prev cur => simp only [plan, same cur rfl]
  | findValue cur => simp only [plan, same cur rfl]
  | eraseLoad key cur i m => simp only [plan, same cur rfl]
  | indexKey x i prev cur => simp only [plan, same cur rfl]
  | indexPrev x i prev cur next => simp only [plan, same prev rfl]
  | indexLink x i prev cur => simp only [plan, same prev rfl]
  | indexDead x i prev => simp only [plan, same x.n rfl]
  | insertDrop n overage => simp only [plan, same n rfl]
  | firstKey cur => simp only [plan, same cur rfl]
  | itemsRead what ret prev cur => simp only [plan, same cur rfl]
  | _ => rfl

/-- The cell that a call into the hazard pointers loads belongs to the touched node. -/
theorem call_touches {c : Addr × Nat} (calls : pc.call = some (.loadAndSetHazard c k) ∨
    pc.call = some (.loadAndSetHazardOrFail c k)) : pc.touches = some c.1 := by
  rcases calls with calls | calls <;> cases pc <;> cases calls <;> rfl

/-- The next access of a thread writes to no other node. -/
theorem access_writes (access : s.Access t pc e nx) (writes : e.writes = some a) :
    pc.touches = some a := by
  cases access with
  | matchNull f prev | matchNode f prev cur =>
      simp only [found] at writes
      repeat' split at writes
      all_goals cases writes
  | _ => first | exact writes | cases writes

/-! ## The slots along a step -/

section Slots

variable {f : Find Key Value} {i : Nat} {prev : Addr} {cur : Ptr}

theorem mem_slot {j : Nat} {p : Ptr} : (k, a) ∈ p.slot j ↔ p = .node a ∧ k = j := by
  cases p with
  | node b =>
      simp only [Ptr.slot, List.mem_singleton, Prod.mk.injEq, Ptr.node.injEq]
      constructor
      · rintro ⟨rfl, rfl⟩
        exact ⟨rfl, rfl⟩
      · rintro ⟨rfl, rfl⟩
        exact ⟨rfl, rfl⟩
  | null | markedNull | marked b => simp [Ptr.slot]

theorem mem_find_slots (member : (k, a) ∈ f.slots) : k = 3 := by
  simp only [Find.slots] at member
  split at member
  · cases List.mem_singleton.1 member
    rfl
  · cases member

theorem slots_findDown (member : (k, a) ∈ (findDown f i prev cur).slots) :
    (k, a) = (2, prev) ∨ (k, a) ∈ cur.slot 1 ∨ (k, a) ∈ f.slots := by
  simp only [findDown] at member
  split at member
  · rcases List.mem_cons.1 member with same | rest
    · exact .inl same
    · exact .inr (List.mem_append.1 rest)
  · rcases List.mem_cons.1 member with same | rest
    · exact .inl same
    · exact .inr (.inr rest)

theorem slots_findLoop (member : (k, a) ∈ (findLoop f i prev cur).slots) :
    (k, a) = (2, prev) ∨ (k, a) ∈ cur.slot 1 ∨ (k, a) ∈ f.slots := by
  cases cur with
  | null | markedNull => exact slots_findDown member
  | node c =>
      rcases List.mem_cons.1 member with same | rest
      · exact .inl same
      · rcases List.mem_cons.1 rest with same | rest
        · exact .inr (.inl (List.mem_singleton.2 same))
        · exact .inr (.inr rest)
  | marked c => cases member

theorem slots_enter : (s.enter t (.find f)).slots = f.slots := by
  simp only [enter]
  split <;> rfl

theorem slots_eraseDown {key : Key} {cur : Addr} {m : Bool}
    (member : (k, a) ∈ (s.eraseDown t key cur i m).slots) : (k, a) = (1, cur) := by
  simp only [eraseDown] at member
  split at member
  · rw [slots_enter] at member
    cases member
  · exact List.mem_singleton.1 member

theorem slots_indexLevel {x : Index Key}
    (member : (k, a) ∈ (indexLevel x prev i : PC Key Value).slots) : (k, a) = (3, x.n) := by
  cases i with
  | zero =>
      simp only [indexLevel] at member
      split at member
      · exact List.mem_singleton.1 member
      · cases member
  | succ i => exact List.mem_singleton.1 member

theorem slots_itemsLoop {what : Extract} {ret : List (Item Key Value)} {prev : Ptr}
    (member : (k, a) ∈ (itemsLoop what ret prev cur).slots) :
    (k, a) ∈ prev.slot 2 ∨ (k, a) ∈ cur.slot 1 := by
  cases cur with
  | node c =>
      cases prev with
      | node p =>
          rcases List.mem_cons.1 member with same | rest
          · exact .inl (List.mem_singleton.2 same)
          · exact .inr rest
      | null | markedNull | marked p => cases member
  | null | markedNull | marked c => cases member

theorem slots_found {hit : Bool} (member : (k, a) ∈ (s.found f prev cur hit).2.pc.slots) :
    (k, a) = (2, prev) ∨ (k, a) ∈ cur.slot 1 ∨ (k, a) ∈ f.slots := by
  simp only [found] at member
  split at member
  case h_2 | h_3 =>
      split at member
      · exact .inr (.inl member)
      · cases member
  case h_5 =>
      split at member
      · cases member
      · exact .inl (List.mem_singleton.1 member)
  case h_6 n level atSite =>
      split at member
      · cases member
      · rcases List.mem_cons.1 member with same | rest
        · refine .inr (.inr ?_)
          rw [Find.slots, atSite]
          exact List.mem_singleton.2 same
        · exact .inl (List.mem_singleton.1 rest)
  all_goals cases member

end Slots

/-- No call writes a slot that the thread relies on. -/
theorem slots_call {c : Hazard.Call Ptr (Addr × Nat)} (calls : pc.call = some c)
    (isSlot : c.slot? = some k) : (k, a) ∉ pc.slots := by
  intro member
  cases pc <;> cases calls <;> cases isSlot
  case clear => cases member
  all_goals
    simp only [PC.slots, List.mem_cons, List.mem_append, Prod.mk.injEq, mem_slot,
      List.not_mem_nil, or_false] at member
  all_goals grind [mem_find_slots]

/-- The call that returns now has put node `a` into slot `k`: by a load, or by a store of a node
that is not published or that is in a smaller slot. -/
inductive Fills (s : State T Key Value) (pc : PC Key Value) (k : Nat) (a : Addr) : Prop
  | load (c : Addr × Nat) : pc.call = some (.loadAndSetHazard c k) ∨
      pc.call = some (.loadAndSetHazardOrFail c k) → s.cell c = .node a → Fills s pc k a
  | new : pc.call = some (.setHazard k (.node a)) → s.linked a = false → Fills s pc k a
  | copy (i : Nat) : pc.call = some (.setHazard k (.node a)) → i < k → (i, a) ∈ pc.slots →
      Fills s pc k a

/-- A thread relies on a slot that it relied on before, or that has just been filled. -/
theorem Local.access_slots (here : s.Local pc) (memory : s.Memory) (access : s.Access t pc e nx)
    (member : (k, a) ∈ nx.pc.slots) : a = head ∨ (k, a) ∈ pc.slots ∨ s.Fills pc k a := by
  have ofFind : ∀ {f : Find Key Value} {prev : Addr} {cur : Ptr},
      (k, a) = (2, prev) ∨ (k, a) ∈ cur.slot 1 ∨ (k, a) ∈ f.slots →
      (2, prev) ∈ pc.slots → ((k, a) ∈ f.slots → (k, a) ∈ pc.slots) →
      (cur = .node a → k = 1 → (k, a) ∈ pc.slots ∨ s.Fills pc k a) →
      a = head ∨ (k, a) ∈ pc.slots ∨ s.Fills pc k a := by
    rintro f prev cur (same | inCur | inFind) hasPrev hasFind hasCur
    · exact .inr (.inl (same ▸ hasPrev))
    · obtain ⟨isNode, isOne⟩ := mem_slot.1 inCur
      exact .inr (hasCur isNode isOne)
    · exact .inr (.inl (hasFind inFind))
  cases access with
  | acquired start =>
      cases start with
      | find f => exact .inr (.inl member)
      | first => cases member
      | items what => cases member
  | headSet f => exact .inr (.inl member)
  | height f =>
      rcases List.mem_cons.1 member with same | rest
      · cases same
        exact .inl rfl
      · exact .inr (.inl rest)
  | curMarked f i prev isMarked => exact .inr (.inl (List.mem_cons_of_mem _ member))
  | curLoaded f i prev clean =>
      refine ofFind (slots_findLoop member) (List.mem_cons_self ..)
        (fun inFind => List.mem_cons_of_mem _ inFind) fun points isOne => ?_
      subst isOne
      exact .inr (.load (prev, i) (.inl rfl) points)
  | nextFailed f i prev cur =>
      exact .inr (.inl (List.mem_cons_of_mem _ (List.mem_cons_of_mem _ member)))
  | nextLoaded f i prev cur =>
      simp only [Next.pc_goto, PC.slots, List.mem_cons, List.mem_append, mem_slot] at member ⊢
      rcases member with same | same | ⟨points, rfl⟩ | inFind
      · exact .inr (.inl (.inl same))
      · exact .inr (.inl (.inr (.inl same)))
      · exact .inr (.inr (.load (cur, i) (.inr rfl) points))
      · exact .inr (.inl (.inr (.inr inFind)))
  | prevChanged f i prev cur next =>
      refine .inr (.inl ?_)
      simp only [PC.slots, List.mem_cons, List.mem_append]
      exact .inr (.inr (.inr member))
  | prevMarked f i prev cur next points isMarked | dead f i prev cur next isDead =>
      refine .inr (.inl ?_)
      simp only [Next.pc_goto, PC.slots, List.mem_cons, List.mem_append] at member ⊢
      tauto
  | prevSame | notDead => exact .inr (.inl member)
  | keyReached f i prev cur next reached =>
      refine ofFind (slots_findDown member) (List.mem_cons_self ..) (fun inFind => ?_)
        fun points isOne => ?_
      · simp only [PC.slots, List.mem_cons, List.mem_append]
        exact .inr (.inr (.inr inFind))
      · cases points
        subst isOne
        exact .inl (List.mem_cons_of_mem _ (List.mem_cons_self ..))
  | keyBelow f i prev cur next below => exact .inr (.inl (List.mem_cons_of_mem _ member))
  | prevSet f i prev next =>
      rcases List.mem_cons.1 member with same | rest
      · cases same
        exact .inr (.inr (.copy 1 rfl (by omega) (List.mem_cons_self ..)))
      · exact .inr (.inl (List.mem_cons_of_mem _ rest))
  | curSet f i prev cur =>
      refine ofFind (slots_findLoop member) (List.mem_cons_self ..) (fun inFind => ?_)
        fun points isOne => ?_
      · exact List.mem_cons_of_mem _ (List.mem_append_right _ inFind)
      · subst points isOne
        exact .inr (.copy 0 rfl (by omega)
          (List.mem_cons_of_mem _ (List.mem_append_left _ (mem_slot.2 ⟨rfl, rfl⟩))))
  | nexti | unlinked => exact .inr (.inl member)
  | unlinkFailed => exact .inr (.inl (List.mem_cons_of_mem _ (List.mem_cons_of_mem _ member)))
  | dropLast f i prev cur last =>
      refine .inr (.inl ?_)
      rcases List.mem_cons.1 member with same | rest
      · exact same ▸ List.mem_cons_self ..
      · exact List.mem_cons_of_mem _ (List.mem_cons_of_mem _ rest)
  | drop f i prev cur more =>
      exact ofFind (slots_findDown member) (List.mem_cons_self ..)
        (fun inFind => List.mem_cons_of_mem _ (List.mem_cons_of_mem _ inFind))
        fun points => by cases points
  | curCleared => exact .inr (.inl member)
  | retired f i prev cur =>
      exact ofFind (slots_findDown member) (List.mem_cons_self ..)
        (fun inFind => List.mem_cons_of_mem _ inFind) fun points => by cases points
  | matchNull f prev =>
      exact ofFind (slots_found member) (List.mem_cons_self ..)
        (fun inFind => List.mem_cons_of_mem _ inFind) fun points => by cases points
  | matchNode f prev cur =>
      refine ofFind (slots_found member) (List.mem_cons_self ..)
        (fun inFind => List.mem_cons_of_mem _ (List.mem_append_right _ inFind))
        fun points isOne => .inl ?_
      exact List.mem_cons_of_mem _ (List.mem_append_left _ (mem_slot.2 ⟨points, isOne⟩))
  | matchFault => cases member
  | valueRead => cases member
  | eraseFlat key cur flat =>
      exact .inr (.inl (List.mem_singleton.2 (slots_eraseDown member)))
  | marked key cur i m => exact .inr (.inl (List.mem_singleton.2 (slots_eraseDown member)))
  | eraseTop | eraseLoaded | markFailed => exact .inr (.inl member)
  | grown | levelled =>
      rw [Next.pc_goto, slots_enter] at member
      cases member
  | newGuarded key level n prev cur =>
      rcases List.mem_cons.1 member with same | rest
      · cases same
        exact .inr (.inr (.new rfl here.1.new))
      · exact .inr (.inl rest)
  | counted | stored => exact .inr (.inl member)
  | linked key level n prev =>
      exact .inr (.inl (List.mem_singleton.1 member ▸ List.mem_cons_self ..))
  | linkFailed key level n prev cur =>
      rw [Next.pc_goto, slots_enter] at member
      exact .inr (.inl (List.mem_singleton.1 member ▸ List.mem_cons_self ..))
  | overage key level n => exact .inr (.inl (List.mem_singleton.2 (slots_indexLevel member)))
  | indexMarked x i prev isMarked =>
      rw [Next.pc_goto, indexExit] at member
      exact .inr (.inl (List.mem_singleton.2 (slots_indexLevel member)))
  | indexLoaded x i prev clean => exact (memory.index_marked here clean).elim
  | firstNode cur points =>
      cases List.mem_singleton.1 member
      exact .inr (.inr (.load (head, 0) (.inl rfl) points))
  | itemsLoaded what ret =>
      rw [Next.pc_goto] at member
      rcases slots_itemsLoop member with inPrev | inCur
      · obtain ⟨same, -⟩ := mem_slot.1 inPrev
        cases same
        exact .inl rfl
      · obtain ⟨points, rfl⟩ := mem_slot.1 inCur
        exact .inr (.inr (.load (head, 0) (.inl rfl) points))
  | itemRead => exact .inr (.inl member)
  | itemsNextLoaded what ret prev cur =>
      simp only [Next.pc_goto, itemsNextOf] at member
      split at member
      · exact .inr (.inl (List.mem_singleton.1 member ▸ List.mem_cons_self ..))
      · rcases List.mem_append.1 member with inPrev | inNext
        · exact .inr (.inl (List.mem_cons_of_mem _ inPrev))
        · obtain ⟨points, rfl⟩ := mem_slot.1 inNext
          exact .inr (.inr (.load (cur, 0) (.inl rfl) points))
  | itemsAgainNode what ret prev cur points =>
      rcases List.mem_cons.1 member with same | rest
      · exact .inr (.inl (same ▸ List.mem_cons_self ..))
      · cases List.mem_singleton.1 rest
        exact .inr (.inr (.load (prev, 0) (.inl rfl) points))
  | itemsPrevSet what ret prev next =>
      rcases List.mem_append.1 member with inPrev | inNext
      · obtain ⟨rfl, rfl⟩ := mem_slot.1 inPrev
        exact .inr (.inr (.copy 1 rfl (by omega) (List.mem_append_left _ (mem_slot.2 ⟨rfl, rfl⟩))))
      · exact .inr (.inl (List.mem_append_right _ inNext))
  | itemsCurSet what ret prev cur =>
      rcases slots_itemsLoop member with inPrev | inCur
      · exact .inr (.inl (List.mem_append_left _ inPrev))
      · obtain ⟨rfl, rfl⟩ := mem_slot.1 inCur
        exact .inr (.inr (.copy 0 rfl (by omega) (List.mem_append_right _ (mem_slot.2 ⟨rfl, rfl⟩))))
  | clearedLast k leave => cases leave <;> cases member
  | indexBelow | indexReached | indexNextMarked | indexNextLoaded | indexPrevChanged
  | indexPrevSame | indexPrevSet | indexCurSet | indexStored | indexed | indexFailed | indexDead
  | indexAlive => exact here.elim
  | _ => cases member

theorem Fills.call (fills : s.Fills pc k a) : ∃ c, pc.call = some c := by
  cases fills with
  | load c calls => exact calls.elim (fun here => ⟨_, here⟩) fun here => ⟨_, here⟩
  | new calls => exact ⟨_, calls⟩
  | copy i calls => exact ⟨_, calls⟩

/-- Threads load from nodes that other threads see. -/
theorem Local.load_public (here : s.Local pc) {c : Addr × Nat}
    (calls : pc.call = some (.loadAndSetHazard c k) ∨
      pc.call = some (.loadAndSetHazardOrFail c k)) : s.Public c.1 := by
  rcases calls with calls | calls <;> cases pc <;> cases calls
  case inl.findCur f i prev => exact here.2.1.1
  case inl.indexCur x i prev => exact .inl here.2.1
  case inl.indexNext => exact here.elim
  case inl.itemsNext what ret prev cur => exact .inr here.2
  case inl.itemsAgain what ret prev => exact here
  case inr.findNext f i prev cur => exact .inr here.linked
  all_goals exact .inl rfl

/-! ## Every reachable state -/

/-- What a thread relies on is covered by its slots. -/
def Guarded (s : State T Key Value) : Prop :=
  ∀ t k a, (k, a) ∈ (s.pc t).slots → a = head ∨ s.sys.Holding t k (.node a)

theorem holding_goto {p : Ptr} : (s.goto t pc).sys.Holding u k p ↔ s.sys.Holding u k p := by
  simp only [goto]
  split <;> exact Iff.rfl

/-- A slot that a thread relies on is kept by a step inside the hazard pointers. -/
theorem Reached.keeps_slot (reached : s.Reached) {sys : Hazard.Sys T Ptr (Addr × Nat)}
    {r : Option (Hazard.Ret Ptr)} (stepped : s.sys.step 4 s.cell t = some (sys, r))
    (member : (k, a) ∈ (s.pc u).slots) (holding : s.sys.Holding u k (.node a)) :
    sys.Holding u k (.node a) := by
  refine holding.step reached.hazards.orderly.owned stepped fun same => ?_
  subst same
  obtain ⟨e, nx, access, -, -⟩ := Hazard.Sys.step_access stepped
  obtain ⟨c, calls, runs⟩ := calling (reached.level0.synced t) access
  refine ⟨c, runs, fun isSlot => slots_call calls isSlot member, ?_, ?_⟩
  · rintro rfl
    have equipped := reached.hazards.equipped t
    obtain ⟨hp, mine, -⟩ := holding
    cases pc : s.pc t <;> rw [pc] at calls equipped <;> cases calls
    rw [show s.sys.own t = none from equipped] at mine
    cases mine
  · rintro rfl
    cases pc : s.pc t <;> rw [pc] at calls member <;> cases calls
    cases member

/-- A slot that a returning call has filled. -/
theorem Reached.fills (reached : s.Reached) (guarded : s.Guarded)
    {sys : Hazard.Sys T Ptr (Addr × Nat)} {r : Hazard.Ret Ptr}
    {c : Hazard.Call Ptr (Addr × Nat)} (stepped : s.sys.step 4 s.cell t = some (sys, some r))
    (calls : (s.pc t).call = some c) (returns : c.Returns s.cell r) (loaded : r ≠ .fail)
    (fills : s.Fills (s.pc t) k a) : a = head ∨ sys.Holding t k (.node a) := by
  have owned := reached.hazards.orderly.owned
  have covered := reached.hazards.covered
  have runs := reached.level0.synced t
  rw [calls] at runs
  have unlisted : ∀ {b}, s.linked b = false → .node b ∉ s.sys.retired := by
    intro b new retired
    rw [(reached.counted.retired_off retired).1] at new
    cases new
  cases fills with
  | load cell isLoad points =>
      have shared := (reached.level0.here t).load_public isLoad
      have fresh : .node a ∉ s.sys.retired := by
        intro retired
        refine reached.counted.away reached.level0.memory retired cell ?_
        rw [seen_public shared, points]
      have isSlot : c.slot? = some k := by
        rcases isLoad with isLoad | isLoad <;> cases calls.symm.trans isLoad <;> rfl
      have value : r = .value (.node a) := by
        rw [← points]
        rcases isLoad with isLoad | isLoad <;> cases calls.symm.trans isLoad <;> cases r <;>
          first
            | exact congrArg Hazard.Ret.value returns
            | exact returns.elim
            | exact absurd rfl loaded
      subst value
      exact .inr (Hazard.Sys.holding_load owned covered runs isSlot stepped fresh)
  | new isSet new =>
      cases calls.symm.trans isSet
      exact .inr (Hazard.Sys.holding_set owned runs stepped (.inl (unlisted new)))
  | copy i isSet below member =>
      cases calls.symm.trans isSet
      rcases guarded t i a member with isHead | holding
      · exact .inl isHead
      · exact .inr (Hazard.Sys.holding_set owned runs stepped (.inr ⟨i, below, holding⟩))

theorem Guarded.step (guarded : s.Guarded) (reached : s.Reached) (taken : s.step t = some s') :
    s'.Guarded := by
  have memory := reached.level0.memory
  have here := reached.level0.here t
  rcases step_cases reached.level0.synced taken with
    ⟨sys, c, stepped, -, -, rfl⟩ | ⟨sys, c, r, stepped, calls, returns, access, rfl⟩ |
      ⟨e, nx, calls, access, rfl⟩
  · intro u k a member
    exact (guarded u k a member).imp_right (reached.keeps_slot stepped member)
  · intro u k a member
    rw [after_goto, holding_goto]
    by_cases isT : u = t
    · subst isT
      rw [after_pc_self] at member
      have old : (k, a) ∈ (s.pc u).slots → a = head ∨ sys.Holding u k (.node a) :=
        fun before => (guarded u k a before).imp_right (reached.keeps_slot stepped before)
      by_cases failed : r = .fail
      · subst failed
        refine old ?_
        generalize s.pc u = pc at calls member
        cases pc <;> cases calls <;> first | exact returns.elim | skip
        exact List.mem_cons_of_mem _ (List.mem_cons_of_mem _ member)
      · rcases here.access_slots memory access member with isHead | before | fills
        · exact .inl isHead
        · exact old before
        · exact reached.fills guarded stepped calls returns failed fills
    · rw [after_pc_other isT] at member
      exact (guarded u k a member).imp_right (reached.keeps_slot stepped member)
  · intro u k a member
    rw [after_goto, holding_goto, apply_sys]
    by_cases isT : u = t
    · subst isT
      rw [after_pc_self] at member
      rcases here.access_slots memory access member with isHead | before | fills
      · exact .inl isHead
      · exact guarded u k a before
      · obtain ⟨c, calls'⟩ := fills.call
        rw [calls] at calls'
        cases calls'
    · rw [after_pc_other isT, apply_pc] at member
      exact guarded u k a member

theorem slots_begin (op : Op Key Value) : (s.begin t op).slots = [] := by
  cases op with
  | insert key value level => rfl
  | exists_ key | find key | erase key => exact slots_enter
  | firstKey | extract what => simp only [begin, enter]; split <;> rfl

theorem Guarded.next (guarded : s.Guarded) (reached : s.Reached) {a : Action T Key Value}
    (taken : s.next a = some s') : s'.Guarded := by
  have entering : ∀ t pc, pc.slots = [] → (s.goto t pc).Guarded := by
    intro t pc none_ u k b member
    rw [holding_goto]
    by_cases isT : u = t
    · rw [show (s.goto t pc).pc u = pc from if_pos isT, none_] at member
      cases member
    · rw [show (s.goto t pc).pc u = s.pc u from if_neg isT] at member
      exact guarded u k b member
  cases a with
  | call t op =>
      simp only [State.next] at taken
      split at taken
      · split at taken
        all_goals
          cases taken
          exact entering t _ (slots_begin op)
      · cases taken
  | exit t =>
      simp only [State.next] at taken
      split at taken
      · cases taken
        exact entering t .exiting rfl
      · cases taken
  | step t => exact guarded.step reached taken

/-! ## The nodes that `insert` deletes itself -/

structure Freed (s : State T Key Value) : Prop where
  known : ∀ n ∈ s.freed, ∃ k, s.Private n k
  unowned : ∀ n ∈ s.freed, ∀ t, (s.pc t).owns ≠ some n
  nodup : s.freed.Nodup

theorem apply_freed (e : Effect Key Value) : (s.apply t e).freed =
    (match e with | .free n => n :: s.freed | _ => s.freed) := by
  cases e with
  | link prev n => simp [apply, setNext, modify]
  | mark cur i nexti => simp only [apply]; split <;> simp [setNext, modify]
  | _ => rfl

theorem step_freed (sys : Hazard.Sys T Ptr (Addr × Nat)) (e : Effect Key Value)
    (nx : Next Key Value) : (({ s with sys := sys }.apply t e).after t nx).freed =
      (match e with | .free n => n :: s.freed | _ => s.freed) := by
  rw [after_freed, apply_freed]

/-- Only the thread that made a node deletes it without retiring it, and it is done then. -/
theorem Local.access_free {n : Addr} (access : s.Access t pc (.free n) nx) :
    pc.owns = some n ∧ nx.pc.owns = none := by
  generalize effect : (.free n : Effect Key Value) = e at access
  cases access with
  | freed m => cases effect; exact ⟨rfl, rfl⟩
  | matchNull f prev | matchNode f prev cur =>
      simp only [found] at effect
      repeat' split at effect
      all_goals cases effect
  | _ => cases effect

/-- Nobody else's node changes hands. -/
theorem Freed.same (freed : s.Freed) (nodes : s.SameNodes s') (list : s'.freed = s.freed)
    (moved : ∀ u, s'.pc u = s.pc u ∨ (s'.pc u).owns = none) : s'.Freed := by
  refine ⟨?_, ?_, by rw [list]; exact freed.nodup⟩
  · intro n member
    rw [list] at member
    obtain ⟨k, mine⟩ := freed.known n member
    exact ⟨k, mine.extend nodes.extends (by rw [nodes.linked])⟩
  · intro n member u owned
    rw [list] at member
    rcases moved u with same | none_
    · rw [same] at owned
      exact freed.unowned n member u owned
    · rw [none_] at owned
      cases owned

theorem Freed.access {sys : Hazard.Sys T Ptr (Addr × Nat)} (freed : s.Freed) (level0 : s.Level0)
    (access : s.Access t (s.pc t) e nx) :
    (({ s with sys := sys }.apply t e).after t nx).Freed := by
  have here := level0.here t
  have write := here.write access
  have kept := level0.memory.extends_write (t := t) write
  have same := sameNodes_after (s := s) (t := t) sys e nx
  have list := step_freed (s := s) (t := t) sys e nx
  -- a node that has been freed stays private and without an owner
  have private_ : ∀ n, (∃ k, s.Private n k) → (∀ prev, e ≠ .link prev n) →
      ∃ k, (({ s with sys := sys }.apply t e).after t nx).Private n k := by
    rintro n ⟨k, mine⟩ unlinked
    refine ⟨k, mine.extend (kept.same same) ?_⟩
    rw [same.linked, mine.new]
    by_contra isLinked
    rcases linked_after access level0 (by simpa using isLinked) with before | ⟨prev, isLink⟩
    · rw [mine.new] at before
      cases before
    · exact unlinked prev isLink
  have unowned : ∀ n, n < s.fresh → (∀ u, u ≠ t → (s.pc u).owns ≠ some n) →
      (nx.pc.owns = some n → (s.pc t).owns ≠ some n) →
      ∀ u, ((({ s with sys := sys }.apply t e).after t nx).pc u).owns ≠ some n := by
    intro n old others mine u owned
    by_cases isT : u = t
    · rw [isT, step_pc_self] at owned
      rcases here.access_owns access owned with before | isFresh
      · exact mine owned before
      · exact absurd isFresh (Nat.ne_of_lt old)
    · rw [step_pc_other isT] at owned
      exact others u isT owned
  have old : ∀ n ∈ s.freed, (∃ k, (({ s with sys := sys }.apply t e).after t nx).Private n k) ∧
      ∀ u, ((({ s with sys := sys }.apply t e).after t nx).pc u).owns ≠ some n := by
    intro n member
    have free := freed.unowned n member
    obtain ⟨k, mine⟩ := freed.known n member
    refine ⟨private_ n ⟨k, mine⟩ fun prev isLink => ?_,
      unowned n mine.known.2 (fun u _ => free u) fun _ => free t⟩
    exact free t (here.owner access (by rw [isLink]; rfl))
  by_cases frees : ∃ m, e = .free m
  · obtain ⟨m, rfl⟩ := frees
    obtain ⟨owns, done⟩ := Local.access_free access
    have mine := here.owned owns
    have new : (∃ k, (({ s with sys := sys }.apply t (.free m)).after t nx).Private m k) ∧
        ∀ u, ((({ s with sys := sys }.apply t (.free m)).after t nx).pc u).owns ≠ some m := by
      refine ⟨private_ m mine fun prev isLink => (by cases isLink), ?_⟩
      obtain ⟨k, isPrivate⟩ := mine
      refine unowned m isPrivate.known.2 (fun u other owned => ?_) fun owned => ?_
      · exact other (level0.mine u t m owned owns)
      · rw [done] at owned
        cases owned
    constructor
    · intro n member
      rw [list] at member
      rcases List.mem_cons.1 member with rfl | before
      · exact new.1
      · exact (old n before).1
    · intro n member
      rw [list] at member
      rcases List.mem_cons.1 member with rfl | before
      · exact new.2
      · exact (old n before).2
    · rw [list]
      exact List.nodup_cons.2 ⟨fun member => freed.unowned m member t owns, freed.nodup⟩
  · have unchanged : (({ s with sys := sys }.apply t e).after t nx).freed = s.freed := by
      rw [list]
      split
      · exact absurd ⟨_, rfl⟩ frees
      · rfl
    constructor
    · intro n member
      exact (old n (unchanged ▸ member)).1
    · intro n member
      exact (old n (unchanged ▸ member)).2
    · rw [unchanged]
      exact freed.nodup

theorem Freed.next (freed : s.Freed) (level0 : s.Level0) {a : Action T Key Value}
    (taken : s.next a = some s') : s'.Freed := by
  have entering : ∀ t pc, pc.owns = none → ∀ u, (s.goto t pc).pc u = s.pc u ∨
      ((s.goto t pc).pc u).owns = none := by
    intro t pc none_ u
    by_cases isT : u = t
    · exact .inr (by rw [show (s.goto t pc).pc u = pc from if_pos isT, none_])
    · exact .inl (if_neg isT)
  cases a with
  | call t op =>
      simp only [State.next] at taken
      split at taken
      · split at taken
        all_goals
          cases taken
          exact freed.same ⟨rfl, rfl, rfl⟩ rfl (entering t _ (local_begin op).2)
      · cases taken
  | exit t =>
      simp only [State.next] at taken
      split at taken
      · cases taken
        exact freed.same ⟨rfl, rfl, rfl⟩ rfl (entering t _ rfl)
      · cases taken
  | step t =>
      rcases step_map level0.synced taken with ⟨sys, -, rfl⟩ | ⟨sys, e, nx, access, rfl⟩
      · exact freed.same ⟨rfl, rfl, rfl⟩ rfl fun u => .inl rfl
      · exact freed.access level0 access

theorem freed_init : (init : State T Key Value).Freed := by
  constructor <;> simp [init]

/-- A thread touches nodes that other threads see and its own, and those it relies on. -/
theorem Local.touches_known (here : s.Local pc) (touches : pc.touches = some a) :
    (s.Public a ∧ (a = head ∨ ∃ k, (k, a) ∈ pc.slots)) ∨ pc.owns = some a := by
  have second : ∀ {x : Nat × Addr} {l : List (Nat × Addr)} {k}, (k, a) ∈ x :: (k, a) :: l :=
    fun {_ _ _} => List.mem_cons_of_mem _ (List.mem_cons_self ..)
  cases pc with
  | findCur f i prev =>
      cases touches
      exact .inl ⟨here.2.1.1, .inr ⟨2, List.mem_cons_self ..⟩⟩
  | findNext f i prev cur => cases touches; exact .inl ⟨.inr here.linked, .inr ⟨1, second⟩⟩
  | findPrev f i prev cur next | findUnlink f i prev cur next =>
      cases touches
      exact .inl ⟨here.1.before.1, .inr ⟨2, List.mem_cons_self ..⟩⟩
  | findDead f i prev cur next | findKey f i prev cur next | findNexti f i prev cur
  | findDrop f i prev cur => cases touches; exact .inl ⟨.inr here.1.linked, .inr ⟨1, second⟩⟩
  | findMatch f prev cur =>
      obtain ⟨-, -, shared, -⟩ := here
      cases cur with
      | node c => cases touches; exact .inl ⟨.inr shared, .inr ⟨1, second⟩⟩
      | null | markedNull => cases touches
      | marked c => exact shared.elim
  | findValue cur | firstKey cur =>
      cases touches
      exact .inl ⟨.inr here, .inr ⟨1, List.mem_cons_self ..⟩⟩
  | eraseHeight key cur | eraseLoad key cur i m | eraseMark key cur i nexti m =>
      cases touches
      exact .inl ⟨.inr here.1, .inr ⟨1, List.mem_cons_self ..⟩⟩
  | insertCount key level n prev cur | insertStore key level n prev cur =>
      exact .inr touches
  | insertLink key level n prev cur => cases touches; exact .inl ⟨here.2.1.1, .inr ⟨2, second⟩⟩
  | insertOverage key level n =>
      cases touches
      exact .inl ⟨.inr here.1, .inr ⟨3, List.mem_cons_self ..⟩⟩
  | insertDrop n overage =>
      cases touches
      exact .inl ⟨.inr here, .inr ⟨3, List.mem_cons_self ..⟩⟩
  | indexCur x i prev => cases touches; exact .inl ⟨.inl here.2.1, .inl here.2.1⟩
  | firstCur | itemsCur what ret => cases touches; exact .inl ⟨.inl rfl, .inl rfl⟩
  | itemsRead what ret prev cur | itemsNext what ret prev cur =>
      cases touches
      exact .inl ⟨.inr here.2, .inr ⟨1, second⟩⟩
  | itemsAgain what ret prev =>
      cases touches
      exact .inl ⟨here, .inr ⟨2, List.mem_cons_self ..⟩⟩
  | free n => exact .inr touches
  | indexKey | indexNext | indexPrev | indexStore | indexLink | indexDead => exact here.elim
  | _ => cases touches

/-- A node that is deleted by `scan` has been retired. -/
theorem Reached.deleted_linked (reached : s.Reached) {p : Ptr} (deleted : p ∈ s.sys.pool.deleted) :
    ∃ n, p = .node n ∧ s.linked n = true := by
  obtain ⟨n, rfl, isLinked, -⟩ :=
    reached.counted.retired p (reached.hazards.covered.gone p deleted).1
  exact ⟨n, rfl, isLinked⟩

/-- **Nodes are reclaimed safely**: whatever the threads do, the node that the next access of a
thread reads or writes has been deleted neither by a `scan` nor by the `insert` that made it, and
no node has been deleted twice. -/
theorem nodes_reclaimed {as : List (Action T Key Value)}
    (ran : Theory.run State.next (init : State T Key Value) as = some s) :
    (∀ t a, (s.pc t).touches = some a → .node a ∉ s.sys.pool.deleted ∧ a ∉ s.freed) ∧
      (s.sys.pool.deleted ++ s.freed.map Ptr.node).Nodup := by
  obtain ⟨reached, guarded, freed⟩ : s.Reached ∧ s.Guarded ∧ s.Freed := by
    refine Theory.run_induction (P := fun q : State T Key Value => q.Reached ∧ q.Guarded ∧ q.Freed)
      ?_ ⟨⟨level0_init, counted_init, hazards_init⟩, ?_, ?_⟩ ran
    · rintro q a q' ⟨reached, guarded, freed⟩ taken
      exact ⟨reached.next taken, guarded.next reached taken, freed.next reached.level0 taken⟩
    · intro t k a member
      cases member
    · exact freed_init
  have private_ : ∀ n, (∃ k, s.Private n k) → .node n ∉ s.sys.pool.deleted := by
    rintro n ⟨k, mine⟩ deleted
    obtain ⟨m, same, isLinked⟩ := reached.deleted_linked deleted
    cases same
    rw [mine.new] at isLinked
    cases isLinked
  have memory := reached.level0.memory
  refine ⟨fun t a touches => ?_, ?_⟩
  · have here := reached.level0.here t
    rcases here.touches_known touches with ⟨shared, covered⟩ | owned
    · have notPrivate : ¬ ∃ k, s.Private a k := by
        rintro ⟨k, mine⟩
        rcases shared with rfl | isLinked
        · exact absurd mine.known.1 (Nat.lt_irrefl _)
        · rw [mine.new] at isLinked
          cases isLinked
      refine ⟨?_, fun member => notPrivate (freed.known a member)⟩
      have headKept : .node head ∉ s.sys.pool.deleted := by
        intro deleted
        obtain ⟨m, same, isLinked⟩ := reached.deleted_linked deleted
        cases same
        exact absurd (memory.known head isLinked).1 (Nat.lt_irrefl _)
      rcases covered with rfl | ⟨k, member⟩
      · exact headKept
      · rcases guarded t k a member with rfl | holding
        · exact headKept
        · exact holding.not_deleted reached.hazards.covered
    · exact ⟨private_ a (here.owned owned), fun member => freed.unowned a member t owned⟩
  · refine List.nodup_append.2 ⟨reached.hazards.orderly.conserved.intact.deleted, ?_, ?_⟩
    · exact freed.nodup.map fun a b same => by cases same; rfl
    · intro p deleted q inFreed
      obtain ⟨n, member, rfl⟩ := List.mem_map.1 inFreed
      rintro rfl
      exact private_ n (freed.known n member) deleted

/-- Thread 1 stands in front of the value of node 1 when thread 0 erases it; then thread 0 inserts
and erases the key again until its list is full and it scans. -/
def eraseRepeatedly : List (Action (Fin 2) Nat Nat) :=
  let cycle (n : Nat) : List (Action (Fin 2) Nat Nat) :=
    Action.call 0 (.insert 1 10 0) :: List.replicate 16 (.step 0) ++
      Action.call 0 (.erase 1) :: List.replicate n (.step 0)
  Action.call 0 (.insert 1 10 0) :: List.replicate 21 (.step 0) ++
    Action.call 1 (.find 1) :: List.replicate 18 (.step 1) ++
    Action.call 0 (.erase 1) :: List.replicate 34 (.step 0) ++
    (List.replicate 8 (cycle 34)).flatten ++ cycle 58

/-- The other nodes are deleted, and the one that thread 1 reads next is not. -/
theorem nodes_reclaimed_reading : ∃ s : State (Fin 2) Nat Nat,
    Theory.run State.next State.init eraseRepeatedly = some s ∧
    s.sys.pool.deleted = [2, 10, 9, 8, 7, 6, 5, 4, 3].map Ptr.node ∧ .node 1 ∈ s.sys.retired ∧
    (s.pc 1).touches = some 1 ∧ .node 1 ∉ s.sys.pool.deleted := by
  have ran : (Theory.run State.next State.init eraseRepeatedly).map
      (fun s : State (Fin 2) Nat Nat => (s.sys.pool.deleted, decide (.node 1 ∈ s.sys.retired),
        (s.pc 1).touches)) =
        some ([2, 10, 9, 8, 7, 6, 5, 4, 3].map Ptr.node, true, some 1) := by decide +kernel
  obtain ⟨s, ran, seen⟩ := Option.map_eq_some_iff.1 ran
  simp only [Prod.mk.injEq, decide_eq_true_eq] at seen
  obtain ⟨deleted, retired, touches⟩ := seen
  exact ⟨s, ran, deleted, retired, touches, ((nodes_reclaimed ran).1 1 1 touches).1⟩

end State

end Ccmetrics.SkipList
