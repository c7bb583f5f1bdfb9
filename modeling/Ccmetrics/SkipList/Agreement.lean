/-
# SkipList.Agreement -- inserts and erases agree on what is in the map

For every key, the calls of `insert` that have linked a node and the calls of `erase` that
have set the mark of one take turns: their numbers differ by one while the key is in the map,
and are equal while it is not. A call makes at most one such exchange and returns whether it
has (`Logged`), so the numbers count the calls that return true.
-/
import Ccmetrics.SkipList.Level0

namespace Ccmetrics.SkipList

set_option autoImplicit false
set_option linter.unusedSectionVars false

variable {T Key Value : Type} [DecidableEq T] [LinearOrder Key] [Inhabited Key] [Inhabited Value]

/-! ## The log entry of a call, point by point -/

/-- The write is the linking exchange of `insert`, or sets a level-0 mark. -/
def Effect.swaps : Effect Key Value → Bool
  | .link _ _ => true
  | .mark _ i nexti => decide (i = 0 ∧ nexti = nexti.clear)
  | _ => false

def Update.swap (e : Update Key) : Update Key := { e with swaps := e.swaps + 1 }

/-- An entry that has made its exchange or not, and not returned. -/
def Update.open (inserts : Bool) (key : Key) (swapped : Bool) : Update Key :=
  ⟨inserts, key, if swapped then 1 else 0, none⟩

/-- One exchange at most, and a result that tells whether there was one. -/
def Update.Sound (e : Update Key) : Prop :=
  e.swaps ≤ 1 ∧ ∀ b, e.returned = some b → (b = true ↔ e.swaps = 1)

/-- A call that returns `r` has this entry. -/
def Result.Logged (r : Result Key Value) (o : Option (Update Key)) : Prop :=
  o = none ∨ ∃ inserts key b, r = .flag b ∧ o = some (.open inserts key b)

def Find.Logged (f : Find Key Value) (o : Option (Update Key)) : Prop :=
  match f.site with
  | .exists_ | .find => o = none
  | .erase => o = some (.open false f.key false)
  | .eraseAgain _ marked0 => o = some (.open false f.key marked0)
  | .insert _ _ | .insertAgain _ _ => o = some (.open true f.key false)

/-- The log entry of the running call, at each point. -/
def PC.Logged : PC Key Value → Option (Update Key) → Prop
  | .acquire (.find f), o | .findHead f, o | .findHeight f, o | .findCur f _ _, o
  | .findNext f _ _ _, o | .findPrev f _ _ _ _, o | .findDead f _ _ _ _, o | .findKey f _ _ _ _, o
  | .findSetPrev f _ _ _, o | .findSetCur f _ _ _, o | .findNexti f _ _ _, o
  | .findUnlink f _ _ _ _, o | .findDrop f _ _ _, o | .findClear f _ _ _, o
  | .findRetire f _ _ _, o | .findMatch f _ _, o => f.Logged o
  | .eraseHeight key _, o | .eraseLoad key _ _ _, o | .eraseMark key _ _ _ _, o =>
      o = some (.open false key false)
  | .insertLevel key _ _, o | .insertHazard key _ _ _ _, o | .insertCount key _ _ _ _, o
  | .insertStore key _ _ _ _, o | .insertLink key _ _ _ _, o => o = some (.open true key false)
  | .insertOverage key _ _, o => o = some (.open true key true)
  | .indexCur x _ _, o | .indexKey x _ _ _, o | .indexNext x _ _ _, o | .indexPrev x _ _ _ _, o
  | .indexSetPrev x _ _ _, o | .indexSetCur x _ _ _, o | .indexStore x _ _ _, o
  | .indexLink x _ _ _, o | .indexDead x _ _, o => o = some (.open true x.key true)
  | .insertDrop _ _, o | .insertRetire _, o => ∃ key, o = some (.open true key true)
  | .clear _ _ (.free _), o | .free _, o => ∃ key, o = some (.open true key false)
  | .clear _ _ (.ret r), o => r.Logged o
  | .fault, _ => True
  | _, o => o = none

/-- What leaving the map does to the entry. -/
def Next.close : Next Key Value → Update Key → Update Key
  | .ret (.flag b), e => { e with returned := some b }
  | _, e => e

/-- What a step does to the entry of its call. -/
def Update.step (e : Effect Key Value) (nx : Next Key Value) (entry : Update Key) : Update Key :=
  nx.close (if e.swaps then entry.swap else entry)

def Next.Logged : Next Key Value → Option (Update Key) → Prop
  | .goto pc, o => pc.Logged o
  | .ret r, o => r.Logged o

section Points

variable {f : Find Key Value} {o : Option (Update Key)} {x : Index Key} {i : Nat} {prev : Addr}
variable {cur : Ptr}

theorem logged_findDown (logged : f.Logged o) : (findDown f i prev cur).Logged o := by
  simp only [findDown]
  split <;> exact logged

theorem logged_findLoop (logged : f.Logged o) : (findLoop f i prev cur).Logged o := by
  cases cur with
  | null | markedNull => exact logged_findDown logged
  | node c => exact logged
  | marked c => trivial

theorem logged_indexLevel (logged : o = some (.open true x.key true)) :
    (indexLevel x prev i : PC Key Value).Logged o := by
  cases i with
  | zero =>
      simp only [indexLevel]
      split
      · exact ⟨x.key, logged⟩
      · exact .inr ⟨true, x.key, true, rfl, logged⟩
  | succ i => exact logged

theorem logged_indexHere (logged : o = some (.open true x.key true)) :
    (indexHere x i prev cur : PC Key Value).Logged o := by
  simp only [indexHere]
  split <;> exact logged

theorem logged_indexWhile (logged : o = some (.open true x.key true)) :
    (indexWhile x i prev cur : PC Key Value).Logged o := by
  cases cur with
  | null => exact logged_indexHere logged
  | node c => exact logged
  | markedNull | marked c => trivial

theorem logged_itemsLoop {what : Extract} {ret : List (Item Key Value)} {prev : Ptr}
    (none_ : o = none) : (itemsLoop what ret prev cur).Logged o := by
  cases cur with
  | null => exact .inl none_
  | node c => cases prev <;> first | exact none_ | trivial
  | markedNull | marked c => trivial

end Points

namespace State

variable {s s' : State T Key Value} {t u : T} {e : Effect Key Value} {nx : Next Key Value}
variable {k : Key} {pc : PC Key Value} {o : Option (Update Key)}

theorem logged_enter {f : Find Key Value} (logged : f.Logged o) :
    (s.enter t (.find f)).Logged o := by
  simp only [enter]
  split <;> exact logged

theorem swaps_found {f : Find Key Value} {prev : Addr} {cur : Ptr} {hit : Bool} :
    (s.found f prev cur hit).1.swaps = false := by
  simp only [found]
  repeat' split
  all_goals rfl

theorem logged_found {f : Find Key Value} {prev : Addr} {cur : Ptr} {hit : Bool}
    (logged : f.Logged o) : (s.found f prev cur hit).2.Logged o := by
  cases atSite : f.site with
  | exists_ =>
      simp only [Find.Logged, atSite] at logged
      simp only [found, atSite]
      exact .inl logged
  | find =>
      simp only [Find.Logged, atSite] at logged
      simp only [found, atSite]
      split
      · exact logged
      · exact .inl logged
  | erase =>
      simp only [Find.Logged, atSite] at logged
      simp only [found, atSite]
      split
      · exact logged
      · exact .inr ⟨false, f.key, false, rfl, logged⟩
  | eraseAgain c m =>
      simp only [Find.Logged, atSite] at logged
      simp only [found, atSite]
      exact .inr ⟨false, f.key, m, rfl, logged⟩
  | insert value level =>
      simp only [Find.Logged, atSite] at logged
      simp only [found, atSite]
      split
      · exact .inr ⟨true, f.key, false, rfl, logged⟩
      · exact logged
  | insertAgain n level =>
      simp only [Find.Logged, atSite] at logged
      simp only [found, atSite]
      split
      · exact ⟨f.key, logged⟩
      · exact logged

/-- The entry follows the call: an exchange counts one, and the result tells it. -/
theorem Local.access_logged (here : s.Local pc) (access : s.Access t pc e nx)
    (logged : pc.Logged o) : nx.Logged (if e.swaps then o.map Update.swap else o) := by
  cases access with
  | acquired start =>
      cases start with
      | find f => exact logged
      | first => exact logged
      | items what => exact logged
  | curLoaded | curSet => exact logged_findLoop logged
  | keyReached | drop | retired => exact logged_findDown logged
  | matchNull | matchNode =>
      rw [swaps_found]
      exact logged_found logged
  | matchFault => trivial
  | valueRead cur => exact .inl logged
  | eraseFlat key cur flat =>
      simp only [eraseDown, if_true]
      exact logged_enter logged
  | marked key cur i m =>
      obtain ⟨-, -, rfl⟩ := here
      obtain rfl : o = some (.open false key false) := logged
      by_cases bottom : i = 0
      · subst bottom
        simp only [eraseDown, if_true, Effect.swaps, true_and, decide_eq_true_eq]
        refine logged_enter ?_
        by_cases alive : (s.node cur).next 0 = ((s.node cur).next 0).clear
        · rw [if_pos alive, if_pos alive]; rfl
        · rw [if_neg alive, if_neg alive]; rfl
      · simp only [eraseDown, bottom, if_false, false_and, Effect.swaps, decide_false]
        rfl
  | grown | levelled => exact logged_enter logged
  | linked key level n prev =>
      obtain rfl : o = some (.open true key false) := logged
      rfl
  | linkFailed => exact logged_enter logged
  | overage => exact logged_indexLevel logged
  | indexMarked | indexAlive | indexNextMarked | indexPrevChanged | indexFailed | indexDead =>
      exact logged_indexLevel logged
  | indexLoaded | indexCurSet => exact logged_indexWhile logged
  | indexReached => exact logged_indexHere logged
  | overageDropped n overage more | newRetired n =>
      obtain ⟨key, logged⟩ := logged
      exact .inr ⟨true, key, true, rfl, logged⟩
  | firstNull | firstRead => exact .inl logged
  | itemsLoaded | itemsCurSet => exact logged_itemsLoop logged
  | itemsNextLoaded =>
      simp only [itemsNextOf]
      split <;> exact logged
  | clearedLast k leave =>
      cases leave with
      | ret r => exact logged
      | free n => exact logged
  | cleared k last leave more =>
      cases leave with
      | ret r => exact logged
      | free n => exact logged
  | freed n =>
      obtain ⟨key, logged⟩ := logged
      exact .inr ⟨true, key, false, rfl, logged⟩
  | exited => exact .inl logged
  | _ => exact logged

/-! ## The log -/

/-- The entry of the running call of a thread. -/
def running (s : State T Key Value) (t : T) : Option (Update Key) :=
  (s.call t).bind fun i => s.log[i]?

structure Logged (s : State T Key Value) : Prop where
  known : ∀ t i, s.call t = some i → i < s.log.length
  mine : ∀ t u i, s.call t = some i → s.call u = some i → t = u
  here : ∀ t, (s.pc t).Logged (s.running t)
  entries : ∀ e ∈ s.log, e.Sound

theorem apply_log : (s.apply t e).log = if e.swaps then (s.swapped t).log else s.log := by
  cases e with
  | link prev n =>
      simp only [apply, Effect.swaps, if_true, swapped, setNext, modify]
      cases s.call t <;> rfl
  | mark cur i nexti =>
      simp only [apply, Effect.swaps, decide_eq_true_eq]
      split
      · simp only [swapped, setNext, modify]
        cases s.call t <;> rfl
      · rfl
  | _ => rfl

theorem running_eq {i : Nat} (calls : s.call t = some i) : s.running t = s.log[i]? := by
  simp [running, calls]

theorem Logged.not_running (logged : s.Logged) (none_ : s.running t = none) : s.call t = none := by
  cases calls : s.call t with
  | none => rfl
  | some i =>
      rw [running_eq calls, List.getElem?_eq_none_iff] at none_
      exact absurd (logged.known t i calls) (Nat.not_lt.2 none_)

/-- A step of a thread rewrites the entry of its running call. -/
theorem after_log (nx : Next Key Value) (i : Nat) (calls : s.call t = some i) :
    ((s.apply t e).after t nx).log = s.log.modify i (Update.step e nx) := by
  have applied : (s.apply t e).log = s.log.modify i fun x => if e.swaps then x.swap else x := by
    rw [apply_log]
    cases e.swaps with
    | true => simp [swapped, calls, Update.swap]
    | false => exact (List.modify_id ..).symm
  cases nx with
  | goto pc => exact applied
  | ret r =>
      cases r with
      | flag b =>
          simp only [after, ret, apply_call, calls, applied, List.modify_modify_eq]
          rfl
      | _ =>
          simp only [after, ret, apply_call, calls, applied]
          rfl

theorem after_log_none (nx : Next Key Value) (calls : s.call t = none) :
    ((s.apply t e).after t nx).log = s.log := by
  have applied : (s.apply t e).log = s.log := by
    rw [apply_log]
    simp [swapped, calls]
  cases nx with
  | goto pc => exact applied
  | ret r => simp only [after, ret, apply_call, calls, applied]

theorem after_call_other (other : u ≠ t) : ((s.apply t e).after t nx).call u = s.call u := by
  cases nx with
  | goto pc => exact congrFun (apply_call e) u
  | ret r => simp [after, ret, other]

theorem after_call_self : ((s.apply t e).after t nx).call t =
    match nx with | .goto _ => s.call t | .ret _ => none := by
  cases nx with
  | goto pc => exact congrFun (apply_call e) t
  | ret r => simp [after, ret]

theorem isOpen_of_logged {entry : Update Key} (logged : pc.Logged (some entry))
    (noFault : pc ≠ .fault) : ∃ inserts key b, entry = .open inserts key b := by
  have ofFind : ∀ f : Find Key Value, f.Logged (some entry) →
      ∃ inserts key b, entry = .open inserts key b := by
    intro f logged
    simp only [Find.Logged] at logged
    split at logged <;> first | exact ⟨_, _, _, Option.some.inj logged⟩ | cases logged
  cases pc with
  | acquire start =>
      cases start with
      | find f => exact ofFind f logged
      | first => cases logged
      | items what => cases logged
  | findHead f | findHeight f | findCur f | findNext f | findPrev f | findDead f | findKey f
  | findSetPrev f | findSetCur f | findNexti f | findUnlink f | findDrop f | findClear f
  | findRetire f | findMatch f => exact ofFind f logged
  | eraseHeight | eraseLoad | eraseMark | insertLevel | insertHazard | insertCount | insertStore
  | insertLink | insertOverage | indexCur | indexKey | indexNext | indexPrev | indexSetPrev
  | indexSetCur | indexStore | indexLink | indexDead => exact ⟨_, _, _, Option.some.inj logged⟩
  | insertDrop | insertRetire | free =>
      obtain ⟨key, logged⟩ := logged
      exact ⟨_, key, _, Option.some.inj logged⟩
  | clear first last leave =>
      cases leave with
      | ret r =>
          rcases logged with none_ | ⟨inserts, key, b, -, same⟩
          · cases none_
          · exact ⟨inserts, key, b, Option.some.inj same⟩
      | free n =>
          obtain ⟨key, logged⟩ := logged
          exact ⟨_, key, _, Option.some.inj logged⟩
  | fault => exact absurd rfl noFault
  | _ => cases logged

theorem sound_step {entry : Update Key}
    (logged : nx.Logged (some (if e.swaps then entry.swap else entry)))
    (noFault : nx.pc ≠ .fault) : (Update.step e nx entry).Sound := by
  simp only [Update.step]
  cases nx with
  | goto pc =>
      obtain ⟨inserts, key, b, isOpen⟩ := isOpen_of_logged logged noFault
      rw [isOpen]
      cases b <;> simp [Next.close, Update.Sound, Update.open]
  | ret r =>
      rcases logged with none_ | ⟨inserts, key, b, rfl, same⟩
      · cases none_
      · rw [Option.some.inj same]
        cases b <;> simp [Next.close, Update.Sound, Update.open]

theorem Logged.after (logged : s.Logged) (access : s.Access t (s.pc t) e nx)
    (here : s.Local (s.pc t)) (noFault : nx.pc ≠ .fault) : ((s.apply t e).after t nx).Logged := by
  have next := here.access_logged access (logged.here t)
  have pcOther : ∀ u, u ≠ t → ((s.apply t e).after t nx).pc u = s.pc u := by
    intro u other
    rw [after_pc_other other, apply_pc]
  cases calls : s.call t with
  | none =>
      have log := after_log_none (e := e) nx calls
      have call : ((s.apply t e).after t nx).call = s.call := by
        funext u
        by_cases same : u = t
        · subst same
          rw [after_call_self]
          cases nx <;> simp [calls]
        · exact after_call_other same
      have none_ : s.running t = none := by simp [running, calls]
      refine ⟨by rw [log, call]; exact logged.known, by rw [call]; exact logged.mine, ?_,
        by rw [log]; exact logged.entries⟩
      intro u
      rw [running, log, call]
      by_cases same : u = t
      · subst same
        rw [after_pc_self, calls]
        rw [none_] at next
        have next : nx.Logged none := by simpa using next
        cases nx with
        | goto pc => exact next
        | ret r => rfl
      · rw [pcOther u same]
        exact logged.here u
  | some i =>
      have log := after_log (e := e) nx i calls
      obtain ⟨entry, found⟩ : ∃ entry, s.log[i]? = some entry :=
        ⟨_, List.getElem?_eq_getElem (logged.known t i calls)⟩
      rw [running_eq calls, found] at next
      have next : nx.Logged (some (if e.swaps then entry.swap else entry)) := by
        cases swaps : e.swaps <;> simpa [swaps] using next
      -- no call is new
      have back : ∀ w j, ((s.apply t e).after t nx).call w = some j → s.call w = some j := by
        intro w j calls'
        by_cases same : w = t
        · subst same
          rw [after_call_self] at calls'
          cases nx with
          | goto pc => exact calls'
          | ret r => cases calls'
        · rwa [after_call_other same] at calls'
      refine ⟨?_, ?_, ?_, ?_⟩
      · intro u j calls'
        rw [log, List.length_modify]
        exact logged.known u j (back u j calls')
      · intro u v j callsU callsV
        exact logged.mine u v j (back u j callsU) (back v j callsV)
      · intro u
        by_cases same : u = t
        · subst same
          rw [after_pc_self, running, after_call_self, log]
          cases nx with
          | goto pc =>
              simp only [calls, Option.bind_some, List.getElem?_modify_eq, found]
              exact next
          | ret r => rfl
        · rw [pcOther u same, running, after_call_other same, log]
          have before := logged.here u
          cases callsU : s.call u with
          | none => simpa [running, callsU] using before
          | some j =>
              have ne : i ≠ j := fun eq => same (logged.mine u t j callsU (eq ▸ calls))
              simpa [running, callsU, List.getElem?_modify_ne _ _ ne] using before
      · intro x member
        rw [log] at member
        obtain ⟨j, found'⟩ := List.mem_iff_getElem?.1 member
        by_cases same : i = j
        · subst same
          rw [List.getElem?_modify_eq, found] at found'
          cases found'
          exact sound_step next noFault
        · rw [List.getElem?_modify_ne _ _ same] at found'
          exact logged.entries x (List.mem_of_getElem? found')

theorem Logged.congr (logged : s.Logged) (call : s'.call = s.call) (log : s'.log = s.log)
    (pc : s'.pc = s.pc) : s'.Logged := by
  refine ⟨by rw [call, log]; exact logged.known, by rw [call]; exact logged.mine, ?_,
    by rw [log]; exact logged.entries⟩
  intro t
  rw [running, call, log, pc]
  exact logged.here t

theorem after_with_sys (nx : Next Key Value) (sys : Hazard.Sys T Ptr (Addr × Nat)) :
    ({ s with sys := sys }.after t nx).call = (s.after t nx).call ∧
    ({ s with sys := sys }.after t nx).log = (s.after t nx).log ∧
    ({ s with sys := sys }.after t nx).pc = (s.after t nx).pc := by
  cases nx <;> exact ⟨rfl, rfl, rfl⟩

theorem Logged.step (logged : s.Logged) (level0 : s.Level0) (taken : s.step t = some s') :
    s'.Logged := by
  rcases step_map level0.synced taken with ⟨sys, -, rfl⟩ | ⟨sys, e, nx, access, rfl⟩
  · exact logged.congr rfl rfl rfl
  · have noFault : nx.pc ≠ .fault := by
      intro fault
      have here := (level0.here t).access access level0.memory level0.tall
      rw [fault] at here
      exact here
    rw [apply_with_sys]
    obtain ⟨call, log, pc⟩ := after_with_sys (s := s.apply t e) (t := t) nx sys
    exact (logged.after access (level0.here t) noFault).congr call log pc

theorem logged_begin (op : Op Key Value) : (s.begin t op).Logged op.update := by
  cases op with
  | exists_ key | find key | erase key => exact logged_enter rfl
  | insert key value level => rfl
  | firstKey | extract what => simp only [begin, enter]; split <;> rfl

theorem Logged.not_called (logged : s.Logged) (idle : (s.pc t).isIdle = true) :
    s.call t = none := by
  refine logged.not_running ?_
  have here := logged.here t
  cases pc : s.pc t <;> rw [pc] at here idle <;> first | exact here | cases idle

/-- A call that is not logged. -/
theorem Logged.goto (logged : s.Logged) (idle : (s.pc t).isIdle = true) (quiet : pc.Logged none) :
    (s.goto t pc).Logged := by
  refine ⟨logged.known, logged.mine, ?_, logged.entries⟩
  intro u
  by_cases same : u = t
  · subst same
    have none_ : (s.goto u pc).running u = none := by simp [running, State.goto, logged.not_called idle]
    rw [none_]
    simpa [State.goto] using quiet
  · simpa [State.goto, same, running] using logged.here u

theorem Logged.next (logged : s.Logged) (level0 : s.Level0) {a : Action T Key Value}
    (taken : s.next a = some s') : s'.Logged := by
  cases a with
  | call t op =>
      simp only [State.next] at taken
      split at taken
      · rename_i enabled
        have entry := logged_begin (s := s) (t := t) op
        split at taken
        · rename_i e update
          cases taken
          rw [update] at entry
          have old : ∀ u j, s.call u = some j → j < s.log.length := logged.known
          refine ⟨?_, ?_, ?_, ?_⟩
          · intro u j calls
            simp only [List.length_append, List.length_singleton]
            simp only at calls
            split at calls
            · cases calls; exact Nat.lt_succ_self _
            · exact Nat.lt_succ_of_lt (old u j calls)
          · intro u v j callsU callsV
            simp only at callsU callsV
            split at callsU <;> split at callsV
            · rename_i isU isV; exact isU.trans isV.symm
            · cases callsU; exact absurd (old v _ callsV) (Nat.lt_irrefl _)
            · cases callsV; exact absurd (old u _ callsU) (Nat.lt_irrefl _)
            · exact logged.mine u v j callsU callsV
          · intro u
            by_cases same : u = t
            · subst same
              simpa [running, State.goto] using entry
            · have before := logged.here u
              cases calls : s.call u with
              | none => simpa [running, State.goto, same, calls] using before
              | some j =>
                  have inLog := old u j calls
                  simpa [running, State.goto, same, calls, List.getElem?_append_left inLog] using before
          · intro x member
            rcases List.mem_append.1 member with inLog | new
            · exact logged.entries x inLog
            · obtain rfl := List.mem_singleton.1 new
              cases op <;> cases update <;> simp [Update.Sound]
        · rename_i update
          cases taken
          rw [update] at entry
          exact logged.goto enabled.1 entry
      · cases taken
  | exit t =>
      simp only [State.next] at taken
      split at taken
      · rename_i enabled
        cases taken
        exact logged.goto enabled.1 rfl
      · cases taken
  | step t => exact logged.step level0 taken

theorem logged_init : (init : State T Key Value).Logged where
  known _ _ calls := by cases calls
  mine _ _ _ calls := by cases calls
  here _ := rfl
  entries _ member := by cases member

/-! ## Keys in the map -/

/-- `k` is in the map: an unmarked node with this key is reachable. -/
def holds (s : State T Key Value) (k : Key) : Bool :=
  s.chain.any fun a => decide (s.key a = k) && !s.dead a

/-- The calls of `insert(k)` that have made their linking exchange. -/
def inserted (s : State T Key Value) (k : Key) : Nat :=
  s.log.countP fun e => e.inserts && decide (e.key = k) && decide (0 < e.swaps)

/-- The calls of `erase(k)` that have set the mark of a node. -/
def erased (s : State T Key Value) (k : Key) : Nat :=
  s.log.countP fun e => !e.inserts && decide (e.key = k) && decide (0 < e.swaps)

theorem Memory.holds_iff (memory : s.Memory) :
    s.holds k = true ↔ ∃ a, s.linked a = true ∧ s.dead a = false ∧ s.key a = k := by
  simp only [holds, List.any_eq_true, Bool.and_eq_true, decide_eq_true_eq, Bool.not_eq_true']
  constructor
  · rintro ⟨a, inChain, atKey, alive⟩
    exact ⟨a, memory.member a inChain, alive, atKey⟩
  · rintro ⟨a, isLinked, alive, atKey⟩
    exact ⟨a, memory.live a isLinked alive, atKey, alive⟩

theorem Memory.key_inj (memory : s.Memory) {a b : Addr} (inA : a ∈ s.chain) (inB : b ∈ s.chain)
    (same : s.key a = s.key b) : a = b := by
  have sorted := (List.pairwise_cons.1 memory.sorted).2
  by_contra apart
  have strict : ∀ x y, x ∈ s.chain → y ∈ s.chain → s.key x = s.key y → ¬ s.rank x < s.rank y := by
    intro x y inX inY eq
    rw [memory.rank_linked (memory.member x inX), memory.rank_linked (memory.member y inY), eq]
    exact lt_irrefl _
  rcases (List.pairwise_iff_getElem.1 sorted) with order
  obtain ⟨i, hi, rfl⟩ := List.mem_iff_getElem.1 inA
  obtain ⟨j, hj, rfl⟩ := List.mem_iff_getElem.1 inB
  rcases Nat.lt_trichotomy i j with less | rfl | more
  · exact strict _ _ inA inB same (order i j hi hj less)
  · exact apart rfl
  · exact strict _ _ inB inA same.symm (order j i hj hi more)

theorem Memory.rank_inj (memory : s.Memory) {a b : Addr} (inA : a ∈ s.chain) (inB : b ∈ s.chain)
    (same : s.rank a = s.rank b) : a = b := by
  rw [memory.rank_linked (memory.member a inA), memory.rank_linked (memory.member b inB),
    WithBot.coe_inj] at same
  exact memory.key_inj inA inB same

theorem Memory.rank_next (memory : s.Memory) {a b : Addr} (member : a ∈ head :: s.chain)
    (next : s.edgeAt 0 a = some b) : s.rank a < s.rank b := by
  obtain ⟨l₁, l₂, split⟩ := List.append_of_mem member
  have chained := memory.chained
  have sorted := memory.sorted
  rw [split] at chained sorted
  have first : l₂.head? = some b := (Theory.Chain.linked_next chained).symm.trans next
  exact (List.pairwise_cons.1 (List.pairwise_append.1 sorted).2.1).1 b (List.mem_of_head? first)

/-- The successor of an unmarked node. -/
theorem points_of_edge {a b : Addr} (next : s.edgeAt 0 a = some b)
    (clean : ((s.node a).next 0).marked0 = false) : (s.node a).next 0 = .node b := by
  rw [edgeAt] at next
  cases points : (s.node a).next 0 with
  | node c => rw [points] at next; cases next; rfl
  | null | markedNull => rw [points] at next; cases next
  | marked c => rw [points] at clean; cases clean

/-- Nothing lies between a node of the chain and its successor. -/
theorem Memory.gap (memory : s.Memory) {a x : Addr} (member : a ∈ head :: s.chain)
    (inChain : x ∈ s.chain) (above : s.rank a < s.rank x) :
    ∃ b, s.edgeAt 0 a = some b ∧ b ∈ s.chain ∧ s.rank b ≤ s.rank x := by
  obtain ⟨l₁, l₂, split⟩ := List.append_of_mem member
  have chained := memory.chained
  have sorted := memory.sorted
  rw [split] at chained sorted
  have behind : x ∈ l₂ :=
    Theory.Chain.mem_behind (r := fun a b => s.rank a < s.rank b) (fun _ => lt_irrefl _)
      (fun _ _ _ => lt_trans) sorted (split ▸ List.mem_cons_of_mem _ inChain) above
  cases l₂ with
  | nil => cases behind
  | cons b rest =>
      have next : s.edgeAt 0 a = some b := Theory.Chain.linked_next chained
      refine ⟨b, next, memory.next_mem member next, ?_⟩
      rcases List.mem_cons.1 behind with rfl | later
      · exact le_refl _
      · have ordered := (List.pairwise_append.1 sorted).2.1
        exact le_of_lt ((List.pairwise_cons.1 (List.pairwise_cons.1 ordered).2).1 x later)

/-- Where `insert` can link a node, its key is not in the map. -/
theorem Memory.absent (memory : s.Memory) {prev : Addr} (before : s.Before k prev)
    (behind : s.Behind k ((s.node prev).next 0)) : s.holds k = false := by
  cases present : s.holds k with
  | false => rfl
  | true =>
      obtain ⟨x, isLinked, alive, atKey⟩ := memory.holds_iff.1 present
      have inChain := memory.live x isLinked alive
      have member := memory.onChain before.1 behind.alive
      have above : s.rank prev < s.rank x := by
        rw [memory.rank_linked isLinked, atKey]
        exact before.2
      obtain ⟨b, next, inChain', below⟩ := memory.gap member inChain above
      rw [memory.rank_linked isLinked, memory.rank_linked (memory.member b inChain'), atKey,
        WithBot.coe_le_coe] at below
      rw [edgeAt] at next
      cases points : (s.node prev).next 0 with
      | node c =>
          rw [points] at next behind
          cases next
          exact absurd behind.2 (not_lt.2 below)
      | null => rw [points] at next; cases next
      | markedNull => rw [points] at next; cases next
      | marked c => rw [points] at behind; exact behind.elim

/-- A write that is no such exchange marks no node and publishes none. -/
theorem Memory.quiet (memory : s.Memory) (write : s.Write e) (quiet : e.swaps = false) :
    (s.apply t e).linked = s.linked ∧
      ∀ a, s.linked a = true → (s.apply t e).dead a = s.dead a := by
  cases write with
  | none | height h | free n k mine => exact ⟨rfl, fun _ _ => rfl⟩
  | create level key value =>
      refine ⟨rfl, fun a isLinked => ?_⟩
      simp [dead, apply, Nat.ne_of_lt (memory.known a isLinked).2]
  | count n k mine | drop n k isLinked =>
      refine ⟨rfl, fun a _ => ?_⟩
      by_cases same : a = n <;> simp [dead, apply, modify, same]
  | store n k cur mine =>
      refine ⟨rfl, fun a isLinked => ?_⟩
      have ne : a ≠ n := by rintro rfl; rw [mine.new] at isLinked; cases isLinked
      simp [dead, apply, ne]
  | link => cases quiet
  | mark cur i isLinked =>
      obtain ⟨node, linked, -⟩ := apply_mark (s := s) (t := t) cur i ((s.node cur).next i)
      refine ⟨linked, fun a _ => ?_⟩
      rw [dead, dead, node, setNext_next]
      split
      · rename_i here
        obtain ⟨rfl, rfl⟩ := here
        simp only [Effect.swaps, true_and, decide_eq_false_iff_not, Ptr.eq_clear_iff,
          Bool.not_eq_false] at quiet
        simp [quiet]
      · rfl
  | unlink prev cur shared isLinked isDead points =>
      refine ⟨rfl, fun a _ => ?_⟩
      by_cases same : a = prev
      · rw [dead, dead, same, points]
        simp only [apply, setNext_next, and_self, if_true, Ptr.marked0_clear]
        rfl
      · simp [dead, apply, same]

theorem Memory.holds_quiet (memory : s.Memory) (write : s.Write e) (quiet : e.swaps = false) :
    (s.apply t e).holds k = s.holds k := by
  have memory' := (memory.write (t := t) write).1
  have kept := memory.extends_write (t := t) write
  obtain ⟨linked, marks⟩ := memory.quiet (t := t) write quiet
  rw [Bool.eq_iff_iff, memory'.holds_iff, memory.holds_iff]
  refine exists_congr fun a => ?_
  rw [linked]
  refine and_congr_right fun isLinked => ?_
  rw [marks a isLinked, key_extend memory kept isLinked]

/-- Linking a node marks none. -/
theorem dead_link {prev n a : Addr} (alive : s.dead prev = false) :
    (s.apply t (.link prev n)).dead a = s.dead a := by
  rw [dead, dead, (apply_link (s := s) (t := t) prev n).1, setNext_next]
  split
  · rename_i here
    rw [here.1]
    exact alive.symm
  · rfl

theorem dead_mark {cur a : Addr} : (s.apply t (.mark cur 0 ((s.node cur).next 0))).dead a =
    (s.dead a || decide (a = cur)) := by
  rw [dead, (apply_mark (s := s) (t := t) cur 0 ((s.node cur).next 0)).1, setNext_next]
  by_cases same : a = cur <;> simp [dead, same]

theorem Memory.holds_link (memory : s.Memory) {prev n : Addr} {k' : Key} (mine : s.Private n k')
    (before : s.Before k' prev) (behind : s.Behind k' ((s.node prev).next 0))
    (stored : (s.node n).next 0 = (s.node prev).next 0) :
    (s.apply t (.link prev n)).holds k = (decide (k' = k) || s.holds k) := by
  have memory' := (memory.write (t := t) (.link prev n k' mine before behind stored)).1
  obtain ⟨node, linked, -⟩ := apply_link (s := s) (t := t) prev n
  rw [Bool.eq_iff_iff, memory'.holds_iff, Bool.or_eq_true, memory.holds_iff, decide_eq_true_eq]
  simp only [dead_link (show s.dead prev = false from behind.alive), key_of_node node, linked]
  constructor
  · rintro ⟨a, isLinked, isAlive, atKey⟩
    by_cases isNew : a = n
    · subst isNew
      exact .inl (mine.key.symm.trans atKey)
    · simp only [isNew, if_false] at isLinked
      exact .inr ⟨a, isLinked, isAlive, atKey⟩
  · rintro (rfl | ⟨a, isLinked, isAlive, atKey⟩)
    · exact ⟨n, by simp, by rw [dead, stored]; exact behind.alive, mine.key⟩
    · exact ⟨a, by simp [isLinked], isAlive, atKey⟩

theorem Memory.holds_mark (memory : s.Memory) {cur : Addr} (isLinked : s.linked cur = true)
    (alive : s.dead cur = false) :
    (s.apply t (.mark cur 0 ((s.node cur).next 0))).holds k =
      (s.holds k && decide (s.key cur ≠ k)) := by
  have memory' := (memory.write (t := t) (.mark cur 0 isLinked)).1
  obtain ⟨node, linked, -⟩ := apply_mark (s := s) (t := t) cur 0 ((s.node cur).next 0)
  rw [Bool.eq_iff_iff, memory'.holds_iff, Bool.and_eq_true, memory.holds_iff, decide_eq_true_eq]
  simp only [dead_mark, key_of_node node, linked, Bool.or_eq_false_iff, decide_eq_false_iff_not]
  constructor
  · rintro ⟨a, isLinked', ⟨isAlive, ne⟩, atKey⟩
    refine ⟨⟨a, isLinked', isAlive, atKey⟩, fun same => ne ?_⟩
    exact memory.key_inj (memory.live a isLinked' isAlive) (memory.live cur isLinked alive)
      (atKey.trans same.symm)
  · rintro ⟨⟨a, isLinked', isAlive, atKey⟩, ne⟩
    exact ⟨a, isLinked', ⟨isAlive, by rintro rfl; exact ne atKey⟩, atKey⟩

/-! ## The count -/

theorem countP_modify {α : Type} {l : List α} {i : Nat} {a : α} (found : l[i]? = some a)
    (f : α → α) (p : α → Bool) :
    (l.modify i f).countP p + (if p a then 1 else 0) = l.countP p + (if p (f a) then 1 else 0) := by
  induction l generalizing i with
  | nil => simp at found
  | cons b rest ih =>
      cases i with
      | zero =>
          simp only [List.getElem?_cons_zero, Option.some.injEq] at found
          subst found
          simp only [List.modify_zero_cons, List.countP_cons]
          omega
      | succ i =>
          simp only [List.getElem?_cons_succ] at found
          simp only [List.modify_succ_cons, List.countP_cons]
          have := ih found
          omega

def Balanced (s : State T Key Value) (k : Key) : Prop :=
  s.inserted k = s.erased k + if s.holds k then 1 else 0

theorem close_same (nx : Next Key Value) (entry : Update Key) :
    (nx.close entry).inserts = entry.inserts ∧ (nx.close entry).key = entry.key ∧
      (nx.close entry).swaps = entry.swaps := by
  simp only [Next.close]
  split <;> exact ⟨rfl, rfl, rfl⟩

/-- Returning counts for nothing. -/
theorem Logged.counts_quiet (logged : s.Logged) (nx : Next Key Value) (quiet : e.swaps = false) :
    ((s.apply t e).after t nx).inserted k = s.inserted k ∧
    ((s.apply t e).after t nx).erased k = s.erased k := by
  cases calls : s.call t with
  | none =>
      have log := after_log_none (e := e) nx calls
      exact ⟨by rw [inserted, log]; rfl, by rw [erased, log]; rfl⟩
  | some i =>
      have log := after_log (e := e) nx i calls
      obtain ⟨entry, found⟩ : ∃ entry, s.log[i]? = some entry :=
        ⟨_, List.getElem?_eq_getElem (logged.known t i calls)⟩
      have insertedStep := countP_modify found (Update.step e nx)
        fun e => e.inserts && decide (e.key = k) && decide (0 < e.swaps)
      have erasedStep := countP_modify found (Update.step e nx)
        fun e => !e.inserts && decide (e.key = k) && decide (0 < e.swaps)
      obtain ⟨inserts, key, swaps⟩ := close_same nx entry
      simp only [Update.step, quiet, Bool.false_eq_true, if_false, inserts, key, swaps] at insertedStep erasedStep
      rw [inserted, erased, log]
      exact ⟨Nat.add_right_cancel insertedStep, Nat.add_right_cancel erasedStep⟩

/-- An exchange counts once, for the key of its call. -/
theorem counts_swap (nx : Next Key Value) {i : Nat} {inserts : Bool} {k' : Key} (calls : s.call t = some i)
    (found : s.log[i]? = some (.open inserts k' false)) (swaps : e.swaps = true) :
    ((s.apply t e).after t nx).inserted k =
      s.inserted k + (if inserts = true ∧ k' = k then 1 else 0) ∧
    ((s.apply t e).after t nx).erased k =
      s.erased k + (if inserts = false ∧ k' = k then 1 else 0) := by
  have log := after_log (e := e) nx i calls
  have insertedStep := countP_modify found (Update.step e nx)
    fun e => e.inserts && decide (e.key = k) && decide (0 < e.swaps)
  have erasedStep := countP_modify found (Update.step e nx)
    fun e => !e.inserts && decide (e.key = k) && decide (0 < e.swaps)
  obtain ⟨sameInserts, sameKey, sameSwaps⟩ := close_same nx (Update.open inserts k' false).swap
  simp only [Update.step, swaps, if_true, sameInserts, sameKey, sameSwaps] at insertedStep erasedStep
  rw [inserted, erased, log]
  simp only [inserted, erased]
  cases inserts <;> simp [Update.swap, Update.open] at insertedStep erasedStep ⊢ <;>
    exact ⟨insertedStep, erasedStep⟩

theorem running_call {entry : Update Key}
    (runs : s.running t = some entry) : ∃ i : Nat, s.call t = some i ∧ s.log[i]? = some entry := by
  obtain ⟨i, calls, found⟩ := Option.bind_eq_some_iff.1 runs
  exact ⟨i, calls, found⟩

theorem SameNodes.holds (same : s.SameNodes s') : s'.holds k = s.holds k := by
  rw [State.holds, State.holds, same.chain, same.key, same.dead]

theorem Balanced.after (balanced : s.Balanced k) (level0 : s.Level0) (logged : s.Logged)
    (access : s.Access t (s.pc t) e nx) : ((s.apply t e).after t nx).Balanced k := by
  have here := level0.here t
  have write := here.write access
  have same : (s.apply t e).SameNodes ((s.apply t e).after t nx) := ⟨by simp, by simp, by simp⟩
  rw [Balanced, same.holds]
  cases swaps : e.swaps with
  | false =>
      obtain ⟨sameInserted, sameErased⟩ := logged.counts_quiet (t := t) (k := k) nx swaps
      rw [sameInserted, sameErased, level0.memory.holds_quiet write swaps]
      exact balanced
  | true =>
      have entry := logged.here t
      generalize s.pc t = pc at access here entry
      cases access with
      | linked key level n prev =>
          obtain ⟨mine, before, behind, stored⟩ := here
          obtain ⟨i, calls, found⟩ := running_call entry
          have absent := level0.memory.absent before behind
          obtain ⟨plus, same⟩ := counts_swap (k := k) (.goto (.insertOverage key level n))
            calls found swaps
          rw [plus, same, level0.memory.holds_link mine before behind stored, balanced]
          by_cases isKey : key = k
          · subst isKey
            simp [absent]
          · simp [isKey]
      | marked key cur i m =>
          obtain ⟨isLinked, atKey, -⟩ := here
          obtain ⟨rfl, clean⟩ := of_decide_eq_true swaps
          have alive : s.dead cur = false := (Ptr.eq_clear_iff _).1 clean
          obtain ⟨i, calls, found⟩ := running_call entry
          obtain ⟨same, plus⟩ := counts_swap (k := k)
            (.goto (s.eraseDown t key cur 0 (if 0 = 0 ∧
              (s.node cur).next 0 = ((s.node cur).next 0).clear then true else m)))
            calls found swaps
          rw [plus, same, level0.memory.holds_mark isLinked alive, balanced, atKey]
          by_cases isKey : key = k
          · subst isKey
            have present : s.holds key = true :=
              level0.memory.holds_iff.2 ⟨cur, isLinked, alive, atKey⟩
            simp [present]
          · simp [isKey]
      | matchNull | matchNode => rw [swaps_found] at swaps; cases swaps
      | _ => cases swaps

theorem Balanced.congr (balanced : s.Balanced k) (same : s.SameNodes s')
    (inserted : s'.inserted k = s.inserted k) (erased : s'.erased k = s.erased k) :
    s'.Balanced k := by
  rw [Balanced, inserted, erased, same.holds]
  exact balanced

/-- What the books of the map say. -/
structure Books (s : State T Key Value) : Prop where
  level0 : s.Level0
  logged : s.Logged
  balanced : ∀ k, s.Balanced k

theorem Books.next (books : s.Books) {a : Action T Key Value} (taken : s.next a = some s') :
    s'.Books := by
  refine ⟨books.level0.next taken, books.logged.next books.level0 taken, fun k => ?_⟩
  have balanced := books.balanced k
  cases a with
  | call t op =>
      simp only [State.next] at taken
      split at taken
      · split at taken
        · rename_i e update
          cases taken
          -- a new entry has made no exchange yet
          have zero : e.swaps = 0 := by cases op <;> cases update <;> rfl
          refine balanced.congr ⟨rfl, rfl, rfl⟩ ?_ ?_
          · simp [inserted, List.countP_append, zero]
          · simp [erased, List.countP_append, zero]
        · cases taken
          exact balanced.congr ⟨rfl, rfl, rfl⟩ rfl rfl
      · cases taken
  | exit t =>
      simp only [State.next] at taken
      split at taken
      · cases taken
        exact balanced.congr ⟨rfl, rfl, rfl⟩ rfl rfl
      · cases taken
  | step t =>
      rcases step_map books.level0.synced taken with ⟨sys, -, rfl⟩ | ⟨sys, e, nx, access, rfl⟩
      · exact balanced.congr ⟨rfl, rfl, rfl⟩ rfl rfl
      · obtain ⟨-, log, -⟩ := after_with_sys (s := s.apply t e) (t := t) nx sys
        rw [apply_with_sys]
        refine (balanced.after books.level0 books.logged access).congr ?_ ?_ ?_
        · exact ⟨by simp, by simp, by simp⟩
        · rw [inserted, log]; rfl
        · rw [erased, log]; rfl

theorem books_init : (init : State T Key Value).Books :=
  ⟨level0_init, logged_init, fun _ => rfl⟩

theorem books_run {as : List (Action T Key Value)} (books : s.Books)
    (ran : Theory.run State.next s as = some s') : s'.Books :=
  Theory.run_induction (fun _ _ _ books taken => books.next taken) books ran

theorem Memory.sorted_keys (memory : s.Memory) :
    s.chain.Pairwise fun a b => s.key a < s.key b := by
  refine List.Pairwise.imp_of_mem ?_ (List.pairwise_cons.1 memory.sorted).2
  intro a b inA inB below
  rwa [memory.rank_linked (memory.member a inA), memory.rank_linked (memory.member b inB),
    WithBot.coe_lt_coe] at below

/-- **Inserts and erases agree**: in every reachable state the chain is in key order, for every
key the inserts that have linked a node are the erases that have marked one, plus one while
the key is in the map, and each of these calls returns whether it has made its exchange. So in
any stretch of a run without an exchange of the one kind, one of the other kind at most
succeeds. -/
theorem inserts_agree_erases {as : List (Action T Key Value)}
    (ran : Theory.run State.next (init : State T Key Value) as = some s) :
    Theory.Chain.Linked (s.edgeAt 0) (head :: s.chain) ∧
    (s.chain.Pairwise fun a b => s.key a < s.key b) ∧
    (∀ k, s.inserted k = s.erased k + if s.holds k then 1 else 0) ∧
    (∀ e ∈ s.log, e.swaps ≤ 1 ∧ ∀ b, e.returned = some b → (b = true ↔ e.swaps = 1)) ∧
    ∀ bs s', Theory.run State.next s bs = some s' → ∀ k,
      s'.inserted k + s.erased k ≤ s.inserted k + s'.erased k + 1 ∧
      s'.erased k + s.inserted k ≤ s.erased k + s'.inserted k + 1 := by
  have books := books_run books_init ran
  refine ⟨books.level0.memory.chained, books.level0.memory.sorted_keys, books.balanced,
    books.logged.entries, ?_⟩
  intro bs s' ran' k
  have first : s.inserted k = s.erased k + if s.holds k then 1 else 0 := books.balanced k
  have second : s'.inserted k = s'.erased k + if s'.holds k then 1 else 0 :=
    (books_run books ran').balanced k
  rw [first, second]
  cases s.holds k <;> cases s'.holds k <;> simp <;> omega

/-- Two threads erase the same key in lockstep. -/
def eraseRace : List (Action (Fin 2) Nat Nat) :=
  Action.call 0 (.insert 5 50 0) :: List.replicate 21 (.step 0) ++
    [Action.call 0 (.erase 5), .call 1 (.erase 5)] ++
    (List.replicate 23 [Action.step 0, .step 1]).flatten ++ List.replicate 4 (Action.step 0)

theorem inserts_agree_erases_race : ∃ s : State (Fin 2) Nat Nat,
    Theory.run State.next State.init eraseRace = some s ∧
    s.log.map (·.returned) = [some true, some true, some false] ∧
    s.inserted 5 = s.erased 5 + if s.holds 5 then 1 else 0 := by
  have ran : (Theory.run State.next State.init eraseRace).map
      (fun s : State (Fin 2) Nat Nat => s.log.map (·.returned)) =
        some [some true, some true, some false] := by decide +kernel
  obtain ⟨s, ran, returned⟩ := Option.map_eq_some_iff.1 ran
  exact ⟨s, ran, returned, (inserts_agree_erases ran).2.2.1 5⟩

end State

end Ccmetrics.SkipList
