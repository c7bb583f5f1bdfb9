/-
# SkipList.Steps -- what one step of a thread can be

`Access` has one rule for each branch of the member functions, whether it is taken on an
access of the map itself or on the return of a call into the hazard pointers. A step of the
machine is either inside such a call and leaves the nodes alone, or one of these rules
(`State.step_cases`). `Synced` keeps the two program counters of a thread together.
-/
import Ccmetrics.Hazard.Calls
import Ccmetrics.SkipList.Machine

namespace Ccmetrics.SkipList

set_option autoImplicit false
set_option linter.unusedSectionVars false

variable {T Key Value : Type} [DecidableEq T] [LinearOrder Key] [Inhabited Key] [Inhabited Value]

def Next.pc : Next Key Value → PC Key Value
  | .goto pc => pc
  | .ret _ => .idle

@[simp] theorem Next.pc_goto (pc : PC Key Value) : (Next.goto pc).pc = pc := rfl
@[simp] theorem Next.pc_ret (r : Result Key Value) : (Next.ret r).pc = .idle := rfl

namespace State

inductive Access (s : State T Key Value) (t : T) :
    PC Key Value → Effect Key Value → Next Key Value → Prop
  | acquired (start) : Access s t (.acquire start) .none (.goto start.pc)
  -- find(key)
  | headSet (f) : Access s t (.findHead f) .none (.goto (.findHeight f))
  | height (f) : Access s t (.findHeight f) .none (.goto (.findCur f s.height head))
  | curMarked (f i prev) : ((s.node prev).next i).isMarked i = true →
      Access s t (.findCur f i prev) .none (.goto (.findHead f))
  | curLoaded (f i prev) : ((s.node prev).next i).isMarked i = false →
      Access s t (.findCur f i prev) .none (.goto (findLoop f i prev ((s.node prev).next i)))
  | nextFailed (f i prev cur) : Access s t (.findNext f i prev cur) .none (.goto (.findHead f))
  | nextLoaded (f i prev cur) :
      Access s t (.findNext f i prev cur) .none
        (.goto (.findPrev f i prev cur ((s.node cur).next i)))
  | prevChanged (f i prev cur next) :
      Access s t (.findPrev f i prev cur next) .none (.goto (.findHead f))
  | prevMarked (f i prev cur next) : (s.node prev).next i = .node cur →
      next.isMarked i = true →
      Access s t (.findPrev f i prev cur next) .none (.goto (.findNexti f i prev cur))
  | prevSame (f i prev cur next) : (s.node prev).next i = .node cur →
      next.isMarked i = false →
      Access s t (.findPrev f i prev cur next) .none (.goto (.findDead f i prev cur next))
  | dead (f i prev cur next) : ((s.node cur).next 0).marked0 = true →
      Access s t (.findDead f i prev cur next) .none (.goto (.findNexti f i prev cur))
  | notDead (f i prev cur next) : ((s.node cur).next 0).marked0 = false →
      Access s t (.findDead f i prev cur next) .none (.goto (.findKey f i prev cur next))
  | keyReached (f i prev cur next) : f.key ≤ (s.node cur).key →
      Access s t (.findKey f i prev cur next) .none (.goto (findDown f i prev (.node cur)))
  | keyBelow (f i prev cur next) : (s.node cur).key < f.key →
      Access s t (.findKey f i prev cur next) .none (.goto (.findSetPrev f i cur next))
  | prevSet (f i prev next) :
      Access s t (.findSetPrev f i prev next) .none (.goto (.findSetCur f i prev next))
  | curSet (f i prev cur) :
      Access s t (.findSetCur f i prev cur) .none (.goto (findLoop f i prev cur))
  | nexti (f i prev cur) :
      Access s t (.findNexti f i prev cur) .none
        (.goto (.findUnlink f i prev cur ((s.node cur).next i)))
  | unlinked (f i prev cur nexti) : (s.node prev).next i = .node cur →
      Access s t (.findUnlink f i prev cur nexti) (.unlink prev i nexti.clear)
        (.goto (.findDrop f i prev cur))
  | unlinkFailed (f i prev cur nexti) : (s.node prev).next i ≠ .node cur →
      Access s t (.findUnlink f i prev cur nexti) .none (.goto (.findHead f))
  | dropLast (f i prev cur) : countSub (s.node cur).linkCount 1 = 0 →
      Access s t (.findDrop f i prev cur) (.drop cur 1) (.goto (.findClear f i prev cur))
  | drop (f i prev cur) : countSub (s.node cur).linkCount 1 ≠ 0 →
      Access s t (.findDrop f i prev cur) (.drop cur 1) (.goto (findDown f i prev .null))
  | curCleared (f i prev cur) :
      Access s t (.findClear f i prev cur) .none (.goto (.findRetire f i prev cur))
  | retired (f i prev cur) :
      Access s t (.findRetire f i prev cur) .none (.goto (findDown f i prev .null))
  | matchNull (f prev) :
      Access s t (.findMatch f prev .null) (s.found f prev .null false).1
        (s.found f prev .null false).2
  | matchNode (f prev cur) :
      Access s t (.findMatch f prev (.node cur))
        (s.found f prev (.node cur) (decide ((s.node cur).key = f.key))).1
        (s.found f prev (.node cur) (decide ((s.node cur).key = f.key))).2
  | matchFault (f prev cur) : cur = .markedNull ∨ (∃ a, cur = .marked a) →
      Access s t (.findMatch f prev cur) .none (.goto .fault)
  | valueRead (cur) :
      Access s t (.findValue cur) .none
        (.goto (.clear 0 2 (.ret (.value (some (s.node cur).value)))))
  -- erase
  | eraseFlat (key cur) : (s.node cur).height = 0 →
      Access s t (.eraseHeight key cur) .none (.goto (s.eraseDown t key cur 0 false))
  | eraseTop (key cur i) : (s.node cur).height = i + 1 →
      Access s t (.eraseHeight key cur) .none (.goto (.eraseLoad key cur i false))
  | eraseLoaded (key cur i m) :
      Access s t (.eraseLoad key cur i m) .none
        (.goto (.eraseMark key cur i ((s.node cur).next i) m))
  | marked (key cur i m) :
      Access s t (.eraseMark key cur i ((s.node cur).next i) m)
        (.mark cur i ((s.node cur).next i))
        (.goto (s.eraseDown t key cur i
          (if i = 0 ∧ (s.node cur).next i = ((s.node cur).next i).clear then true else m)))
  | markFailed (key cur i nexti m) :
      Access s t (.eraseMark key cur i nexti m) .none (.goto (.eraseLoad key cur i m))
  -- insert
  | grown (key value level) : s.height < level →
      Access s t (.insertLevel key value level) (.height (s.height + 1))
        (.goto (s.enter t (.find ⟨key, .insert value (s.height + 1)⟩)))
  | levelled (key value level) : level ≤ s.height →
      Access s t (.insertLevel key value level) .none
        (.goto (s.enter t (.find ⟨key, .insert value level⟩)))
  | newGuarded (key level n prev cur) :
      Access s t (.insertHazard key level n prev cur) .none
        (.goto (.insertCount key level n prev cur))
  | counted (key level n prev cur) :
      Access s t (.insertCount key level n prev cur) (.count n)
        (.goto (.insertStore key level n prev cur))
  | stored (key level n prev cur) :
      Access s t (.insertStore key level n prev cur) (.store n 0 cur)
        (.goto (.insertLink key level n prev cur))
  | linked (key level n prev) :
      Access s t (.insertLink key level n prev ((s.node prev).next 0)) (.link prev n)
        (.goto (.insertOverage key level n))
  | linkFailed (key level n prev cur) :
      Access s t (.insertLink key level n prev cur) .none
        (.goto (s.enter t (.find ⟨key, .insertAgain n level⟩)))
  | overage (key level n) :
      Access s t (.insertOverage key level n) .none
        (.goto (indexLevel ⟨key, level, n, (s.node n).height - 1⟩ head (max level s.height)))
  | indexMarked (x i prev) : ((s.node prev).next i).marked0 = true →
      Access s t (.indexCur x i prev) .none (.goto (indexExit x))
  | indexLoaded (x i prev) : ((s.node prev).next i).marked0 = false →
      Access s t (.indexCur x i prev) .none (.goto (indexWhile x i prev ((s.node prev).next i)))
  | indexBelow (x i prev cur) : (s.node cur).key < x.key →
      Access s t (.indexKey x i prev cur) .none (.goto (.indexNext x i prev cur))
  | indexReached (x i prev cur) :
      Access s t (.indexKey x i prev cur) .none (.goto (indexHere x i prev (.node cur)))
  | indexNextMarked (x i prev cur) :
      Access s t (.indexNext x i prev cur) .none (.goto (indexExit x))
  | indexNextLoaded (x i prev cur) :
      Access s t (.indexNext x i prev cur) .none
        (.goto (.indexPrev x i prev cur ((s.node cur).next i)))
  | indexPrevChanged (x i prev cur next) :
      Access s t (.indexPrev x i prev cur next) .none (.goto (indexExit x))
  | indexPrevSame (x i prev cur next) : (s.node prev).next i = .node cur →
      Access s t (.indexPrev x i prev cur next) .none (.goto (.indexSetPrev x i cur next))
  | indexPrevSet (x i prev next) :
      Access s t (.indexSetPrev x i prev next) .none (.goto (.indexSetCur x i prev next))
  | indexCurSet (x i prev cur) :
      Access s t (.indexSetCur x i prev cur) .none (.goto (indexWhile x i prev cur))
  | indexStored (x i prev cur) :
      Access s t (.indexStore x i prev cur) (.store x.n i cur) (.goto (.indexLink x i prev cur))
  | indexed (x i prev) :
      Access s t (.indexLink x i prev ((s.node prev).next i)) (.index prev i x.n)
        (.goto (.indexDead { x with overage := x.overage - 1 } i prev))
  | indexFailed (x i prev cur) :
      Access s t (.indexLink x i prev cur) .none (.goto (indexExit x))
  | indexDead (x i prev) : Access s t (.indexDead x i prev) .none (.goto (indexExit x))
  | indexAlive (x i prev) :
      Access s t (.indexDead x i prev) .none (.goto (indexLevel x prev (i - 1)))
  | overageLast (n overage) : countSub (s.node n).linkCount overage = 0 →
      Access s t (.insertDrop n overage) (.drop n overage) (.goto (.insertRetire n))
  | overageDropped (n overage) : countSub (s.node n).linkCount overage ≠ 0 →
      Access s t (.insertDrop n overage) (.drop n overage)
        (.goto (.clear 0 3 (.ret (.flag true))))
  | newRetired (n) :
      Access s t (.insertRetire n) .none (.goto (.clear 0 3 (.ret (.flag true))))
  -- firstKey
  | firstNull : (s.node head).next 0 = .null →
      Access s t .firstCur .none (.goto (.clear 1 1 (.ret (.key default))))
  | firstNode (cur) : (s.node head).next 0 = .node cur →
      Access s t .firstCur .none (.goto (.firstKey cur))
  | firstAgain : ((s.node head).next 0).marked0 = true →
      Access s t .firstCur .none (.goto .firstCur)
  | firstRead (cur) :
      Access s t (.firstKey cur) .none (.goto (.clear 1 1 (.ret (.key (s.node cur).key))))
  -- extractor
  | itemsLoaded (what ret) :
      Access s t (.itemsCur what ret) .none
        (.goto (itemsLoop what ret (.node head) ((s.node head).next 0)))
  | itemRead (what ret prev cur) :
      Access s t (.itemsRead what ret prev cur) .none
        (.goto (.itemsNext what (ret ++ [what.item (s.node cur)]) prev cur))
  | itemsNextLoaded (what ret prev cur) :
      Access s t (.itemsNext what ret prev cur) .none
        (.goto (itemsNextOf what ret prev (.node cur) ((s.node cur).next 0)))
  | itemsAgainNull (what ret prev) : (s.node prev).next 0 = .null →
      Access s t (.itemsAgain what ret prev) .none
        (.goto (.itemsSetPrev what ret .null .null))
  | itemsAgainNode (what ret prev cur) : (s.node prev).next 0 = .node cur →
      Access s t (.itemsAgain what ret prev) .none (.goto (.itemsNext what ret prev cur))
  | itemsRestart (what ret prev) : ((s.node prev).next 0).marked0 = true →
      Access s t (.itemsAgain what ret prev) .none (.goto (.itemsCur what ret))
  | itemsPrevSet (what ret prev next) :
      Access s t (.itemsSetPrev what ret prev next) .none
        (.goto (.itemsSetCur what ret prev next))
  | itemsCurSet (what ret prev cur) :
      Access s t (.itemsSetCur what ret prev cur) .none (.goto (itemsLoop what ret prev cur))
  -- leaving
  | clearedLast (k leave) : Access s t (.clear k k leave) .none leave.next
  | cleared (k last leave) : k ≠ last →
      Access s t (.clear k last leave) .none (.goto (.clear (k + 1) last leave))
  | freed (n) : Access s t (.free n) (.free n) (.ret (.flag false))
  | exited : Access s t .exiting .none (.ret .exit)

variable {s s' : State T Key Value} {t u : T} {e : Effect Key Value} {nx : Next Key Value}
variable {pc : PC Key Value}

theorem access_of_plan (planned : s.plan t pc = some (e, nx)) : Access s t pc e nx := by
  cases pc <;> simp only [plan] at planned
  case findMatch f prev cur =>
      split at planned
      · have result := Option.some.inj planned
        have rule := Access.matchNull (s := s) (t := t) f prev
        rwa [result] at rule
      · rename_i c
        have result := Option.some.inj planned
        have rule := Access.matchNode (s := s) (t := t) f prev c
        rwa [result] at rule
      · rename_i notNull notNode
        cases planned
        refine .matchFault f prev cur ?_
        cases cur with
        | null => exact absurd rfl notNull
        | markedNull => exact .inl rfl
        | node a => exact absurd rfl (notNode a)
        | marked a => exact .inr ⟨a, rfl⟩
  case eraseMark key cur i nexti m =>
      split at planned
      · rename_i same
        cases planned
        cases same
        exact .marked key cur i m
      · cases planned
        exact .markFailed key cur i nexti m
  all_goals repeat' split at planned
  all_goals
    first
      | contradiction
      | (simp only [Option.some.injEq, Prod.mk.injEq] at planned
         obtain ⟨rfl, rfl⟩ := planned
         subst_vars
         try simp only [Bool.not_eq_true, not_le, Nat.not_lt, ne_eq, not_not] at *
         constructor <;> assumption)

theorem access_of_resume {c : Hazard.Call Ptr (Addr × Nat)} {r : Hazard.Ret Ptr}
    (calls : pc.call = some c) (returns : c.Returns s.cell r) :
    Access s t pc .none (resume pc r) := by
  cases pc <;> cases calls <;> cases r <;> try exact returns.elim
  case findCur.refl.value f i prev cur =>
      obtain rfl : cur = (s.node prev).next i := returns
      simp only [resume]
      split
      · exact .curMarked f i prev ‹_›
      · rename_i clean
        exact .curLoaded f i prev (by simpa using clean)
  case findNext.refl.value f i prev cur next =>
      obtain rfl : next = (s.node cur).next i := returns
      exact .nextLoaded f i prev cur
  case indexCur.refl.value x i prev cur =>
      obtain rfl : cur = (s.node prev).next i := returns
      simp only [resume]
      split
      · exact .indexMarked x i prev ‹_›
      · rename_i clean
        exact .indexLoaded x i prev (by simpa using clean)
  case indexNext.refl.value x i prev cur next =>
      obtain rfl : next = (s.node cur).next i := returns
      simp only [resume]
      split
      · exact .indexNextMarked x i prev cur
      · exact .indexNextLoaded x i prev cur
  case firstCur.refl.value cur =>
      obtain rfl : cur = (s.node head).next 0 := returns
      simp only [resume]
      split
      · exact .firstNull ‹_›
      · exact .firstNode _ ‹_›
      · rename_i notNull notNode
        refine .firstAgain ?_
        cases pointer : (s.node head).next 0 with
        | null => exact absurd pointer notNull
        | node a => exact absurd pointer (notNode a)
        | _ => rfl
  case itemsCur.refl.value what ret cur =>
      obtain rfl : cur = (s.node head).next 0 := returns
      exact .itemsLoaded what ret
  case itemsNext.refl.value what ret prev cur next =>
      obtain rfl : next = (s.node cur).next 0 := returns
      exact .itemsNextLoaded what ret prev cur
  case itemsAgain.refl.value what ret prev cur =>
      obtain rfl : cur = (s.node prev).next 0 := returns
      simp only [resume]
      split
      · exact .itemsAgainNull what ret prev ‹_›
      · exact .itemsAgainNode what ret prev _ ‹_›
      · rename_i notNull notNode
        refine .itemsRestart what ret prev ?_
        cases pointer : (s.node prev).next 0 with
        | null => exact absurd pointer notNull
        | node a => exact absurd pointer (notNode a)
        | _ => rfl
  case clear.refl.unit k last leave =>
      simp only [resume]
      split
      · rename_i same
        subst same
        exact .clearedLast k leave
      · exact .cleared k last leave ‹_›
  all_goals constructor

/-- A thread is inside the hazard pointers exactly where it makes a call, and in that call. -/
def Synced (s : State T Key Value) : Prop :=
  ∀ t, match (s.pc t).call with
    | some c => c.Runs (s.sys.pc t)
    | none => s.sys.pc t = .idle

theorem plan_call (planned : s.plan t pc = some (e, nx)) : pc.call = none := by
  cases pc <;> first | rfl | cases planned

theorem calling (here : match pc.call with
      | some c => c.Runs (s.sys.pc t)
      | none => s.sys.pc t = .idle)
    {rd : Addr × Nat → Ptr} {e : Hazard.Effect Ptr} {nx : Hazard.Next Ptr (Addr × Nat)}
    (access : Hazard.Access 4 rd s.sys.pool (s.sys.pc t) e nx) :
    ∃ c, pc.call = some c ∧ c.Runs (s.sys.pc t) := by
  cases calls : pc.call with
  | some c => rw [calls] at here; exact ⟨c, rfl, here⟩
  | none =>
      rw [calls] at here
      rw [here] at access
      cases access

/-- A step stays inside the hazard pointers, or is one of the rules of `Access`. -/
theorem step_cases (synced : s.Synced) (taken : s.step t = some s') :
    (∃ sys c, s.sys.step 4 s.cell t = some (sys, none) ∧ (s.pc t).call = some c ∧
      c.Runs (sys.pc t) ∧ s' = { s with sys := sys }) ∨
    (∃ sys c r, s.sys.step 4 s.cell t = some (sys, some r) ∧ (s.pc t).call = some c ∧
      c.Returns s.cell r ∧ Access s t (s.pc t) .none (resume (s.pc t) r) ∧
      s' = { s with sys := sys }.after t (resume (s.pc t) r)) ∨
    ∃ e nx, (s.pc t).call = none ∧ Access s t (s.pc t) e nx ∧ s' = (s.apply t e).after t nx := by
  have here := synced t
  simp only [step] at taken
  split at taken
  · rename_i sys stepped
    cases taken
    obtain ⟨e, nx, access, rfl, last⟩ := Hazard.Sys.step_access stepped
    obtain ⟨c, calls, runs⟩ := calling here access
    cases nx with
    | ret r => exact absurd ((last r).2 rfl) (by simp)
    | goto pc =>
        have runs : c.Runs pc := Hazard.runs_access runs access
        exact .inl ⟨_, c, stepped, calls, by simpa [Hazard.Sys.after, Hazard.Sys.goto] using runs, rfl⟩
  · rename_i sys r stepped
    cases taken
    obtain ⟨e, nx, access, rfl, last⟩ := Hazard.Sys.step_access stepped
    obtain rfl := (last r).1 rfl
    obtain ⟨c, calls, runs⟩ := calling here access
    have returns : c.Returns s.cell r := Hazard.runs_access runs access
    exact .inr (.inl ⟨_, c, r, stepped, calls, returns, access_of_resume calls returns, rfl⟩)
  · rename_i refused
    split at taken
    · rename_i e nx planned
      cases taken
      exact .inr (.inr ⟨e, nx, plan_call planned, access_of_plan planned, rfl⟩)
    · cases taken

/-! ## The fields of a state after a step -/

@[simp] theorem after_node : (s.after t nx).node = s.node := by cases nx <;> rfl
@[simp] theorem after_fresh : (s.after t nx).fresh = s.fresh := by cases nx <;> rfl
@[simp] theorem after_height : (s.after t nx).height = s.height := by cases nx <;> rfl
@[simp] theorem after_freed : (s.after t nx).freed = s.freed := by cases nx <;> rfl
@[simp] theorem after_linked : (s.after t nx).linked = s.linked := by cases nx <;> rfl

theorem after_pc_self : (s.after t nx).pc t = nx.pc := by
  cases nx <;> simp [after, goto, ret]

theorem after_pc_other (other : u ≠ t) : (s.after t nx).pc u = s.pc u := by
  cases nx <;> simp [after, goto, ret, other]

@[simp] theorem swapped_node : (s.swapped t).node = s.node := by
  simp only [swapped]; split <;> rfl

@[simp] theorem swapped_fresh : (s.swapped t).fresh = s.fresh := by
  simp only [swapped]; split <;> rfl

@[simp] theorem swapped_linked : (s.swapped t).linked = s.linked := by
  simp only [swapped]; split <;> rfl

@[simp] theorem swapped_pc : (s.swapped t).pc = s.pc := by
  simp only [swapped]; split <;> rfl

@[simp] theorem swapped_height : (s.swapped t).height = s.height := by
  simp only [swapped]; split <;> rfl

@[simp] theorem swapped_freed : (s.swapped t).freed = s.freed := by
  simp only [swapped]; split <;> rfl

@[simp] theorem swapped_sys : (s.swapped t).sys = s.sys := by
  simp only [swapped]; split <;> rfl

@[simp] theorem swapped_call : (s.swapped t).call = s.call := by
  simp only [swapped]; split <;> rfl

@[simp] theorem apply_pc (e : Effect Key Value) : (s.apply t e).pc = s.pc := by
  cases e with
  | link prev n => simp [apply, setNext, modify]
  | mark cur i nexti => simp only [apply]; split <;> simp [setNext, modify]
  | _ => rfl

@[simp] theorem apply_sys (e : Effect Key Value) : (s.apply t e).sys = s.sys := by
  cases e with
  | link prev n => simp [apply, setNext, modify]
  | mark cur i nexti => simp only [apply]; split <;> simp [setNext, modify]
  | _ => rfl

@[simp] theorem apply_call (e : Effect Key Value) : (s.apply t e).call = s.call := by
  cases e with
  | link prev n => simp [apply, setNext, modify]
  | mark cur i nexti => simp only [apply]; split <;> simp [setNext, modify]
  | _ => rfl

theorem swapped_with_sys (sys : Hazard.Sys T Ptr (Addr × Nat)) :
    { s with sys := sys }.swapped t = { s.swapped t with sys := sys } := by
  simp only [swapped]; split <;> rfl

/-- What a step does to the nodes does not depend on the hazard pointers. -/
theorem apply_with_sys (sys : Hazard.Sys T Ptr (Addr × Nat)) (e : Effect Key Value) :
    { s with sys := sys }.apply t e = { s.apply t e with sys := sys } := by
  cases e with
  | link prev n =>
      have same := swapped_with_sys (s := s.setNext prev 0 (.node n)) (t := t) sys
      exact congrArg (fun q : State T Key Value =>
        { q with linked := fun x => if x = n then true else s.linked x }) same
  | mark cur i nexti =>
      simp only [apply]
      split
      · exact swapped_with_sys (s := s.setNext cur i nexti.mark) sys
      · rfl
  | _ => rfl

/-! ## The two program counters -/

theorem sys_call_pc_self (sys : Hazard.Sys T Ptr (Addr × Nat)) (c : Hazard.Call Ptr (Addr × Nat)) :
    c.Runs ((sys.call t c).pc t) := by
  simpa [Hazard.Sys.call, Hazard.Sys.goto] using c.runs_entry _

theorem sys_call_pc_other (sys : Hazard.Sys T Ptr (Addr × Nat)) (c : Hazard.Call Ptr (Addr × Nat))
    (other : u ≠ t) : (sys.call t c).pc u = sys.pc u := by
  simp [Hazard.Sys.call, Hazard.Sys.goto, other]

/-- Moving one thread, which has just left the hazard pointers. -/
theorem synced_goto (idle : s.sys.pc t = .idle)
    (others : ∀ u, u ≠ t → match (s.pc u).call with
      | some c => c.Runs (s.sys.pc u)
      | none => s.sys.pc u = .idle) (pc : PC Key Value) : (s.goto t pc).Synced := by
  intro u
  by_cases same : u = t
  · subst same
    simp only [goto, if_true]
    cases pc.call with
    | some c => exact sys_call_pc_self _ c
    | none => exact idle
  · have before := others u same
    simp only [goto, same, if_false]
    cases calls : (s.pc u).call with
    | some c =>
        rw [calls] at before
        cases pc.call with
        | some c' => simpa only [sys_call_pc_other _ c' same] using before
        | none => exact before
    | none =>
        rw [calls] at before
        cases pc.call with
        | some c' => simpa only [sys_call_pc_other _ c' same] using before
        | none => exact before

theorem synced_after (idle : s.sys.pc t = .idle)
    (others : ∀ u, u ≠ t → match (s.pc u).call with
      | some c => c.Runs (s.sys.pc u)
      | none => s.sys.pc u = .idle) : (s.after t nx).Synced := by
  cases nx with
  | goto pc => exact synced_goto idle others pc
  | ret r => exact synced_goto idle others .idle

theorem sys_step_other {sys : Hazard.Sys T Ptr (Addr × Nat)} {r : Option (Hazard.Ret Ptr)}
    {rd : Addr × Nat → Ptr} (stepped : s.sys.step 4 rd t = some (sys, r)) (other : u ≠ t) :
    sys.pc u = s.sys.pc u := by
  obtain ⟨e, nx, -, rfl, -⟩ := Hazard.Sys.step_access stepped
  cases nx <;> simp [Hazard.Sys.after, Hazard.Sys.goto, Hazard.Sys.finish, Hazard.Sys.apply, other]

theorem sys_step_return {sys : Hazard.Sys T Ptr (Addr × Nat)} {r : Hazard.Ret Ptr}
    {rd : Addr × Nat → Ptr} (stepped : s.sys.step 4 rd t = some (sys, some r)) :
    sys.pc t = .idle := by
  obtain ⟨e, nx, -, rfl, last⟩ := Hazard.Sys.step_access stepped
  obtain rfl := (last r).1 rfl
  simp [Hazard.Sys.after, Hazard.Sys.goto, Hazard.Sys.finish]

theorem Synced.step (synced : s.Synced) (taken : s.step t = some s') : s'.Synced := by
  rcases step_cases synced taken with
    ⟨sys, c, stepped, calls, runs, rfl⟩ | ⟨sys, c, r, stepped, -, -, -, rfl⟩ | ⟨e, nx, calls, -, rfl⟩
  · intro u
    by_cases same : u = t
    · subst same
      simp only [calls]
      exact runs
    · simp only [sys_step_other stepped same]
      exact synced u
  · refine synced_after (sys_step_return stepped) fun u other => ?_
    simp only [sys_step_other stepped other]
    exact synced u
  · have idle := synced t
    rw [calls] at idle
    refine synced_after (by rw [apply_sys]; exact idle) fun u _ => ?_
    rw [apply_sys, apply_pc]
    exact synced u

theorem Synced.next (synced : s.Synced) {a : Action T Key Value} (taken : s.next a = some s') :
    s'.Synced := by
  have idle : ∀ t, (s.pc t).isIdle = true → s.sys.pc t = .idle := by
    intro t resting
    have here := synced t
    cases pc : s.pc t <;> rw [pc] at resting here <;> first | exact here | cases resting
  cases a with
  | call t op =>
      simp only [State.next] at taken
      split at taken
      · rename_i enabled
        have entered := synced_goto (idle t enabled.1) (fun u _ => synced u) (s.begin t op)
        split at taken
        · cases taken; exact entered
        · cases taken; exact entered
      · cases taken
  | exit t =>
      simp only [State.next] at taken
      split at taken
      · rename_i enabled
        cases taken
        exact synced_goto (idle t enabled.1) (fun u _ => synced u) .exiting
      · cases taken
  | step t => exact synced.step taken

theorem synced_init : (init : State T Key Value).Synced := fun _ => rfl

/-- What a step does to the map: nothing, or a rule of `Access`. -/
theorem step_map (synced : s.Synced) (taken : s.step t = some s') :
    (∃ sys, (s.pc t).call ≠ none ∧ s' = { s with sys := sys }) ∨
    ∃ sys e nx, Access s t (s.pc t) e nx ∧ s' = ({ s with sys := sys }.apply t e).after t nx := by
  rcases step_cases synced taken with
    ⟨sys, c, -, calls, -, rfl⟩ | ⟨sys, c, r, -, -, -, access, rfl⟩ | ⟨e, nx, -, access, rfl⟩
  · exact .inl ⟨sys, by rw [calls]; exact Option.some_ne_none c, rfl⟩
  · exact .inr ⟨sys, .none, _, access, rfl⟩
  · exact .inr ⟨s.sys, e, nx, access, rfl⟩

end State

end Ccmetrics.SkipList
