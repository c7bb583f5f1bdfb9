/-
# SkipList.Linearize -- concurrent calls against the ordered map

`insert`, `erase`, `find` and `exists`, called by any number of threads, are linearizable with
respect to the ordered map that a single thread sees (`Op.onMap`): each call has one moment
between its call and its return at which the ordered map would have answered the same.

There is one exception, the one of `SkipList.Lookup`: a search that unlinks a marked node itself
reports that there is no match, whatever is in the map. `Op.Spec` lets a search miss when
`spurious` holds, so that `linearizable` says both what every run does (`spurious` true) and what
the runs do in which no search gives up (`spurious` false).

The calls that change the map take effect at their level-0 exchange. For the others `Searching`
keeps what has been right since the call: a miss, once the search has seen the gap in which its
key would lie; a hit, once it has seen a node with its key unmarked.
-/
import Ccmetrics.Theory.Linearize
import Ccmetrics.SkipList.Sequential

namespace Ccmetrics.SkipList

set_option autoImplicit false
set_option linter.unusedSectionVars false

open Theory (OrderedMap)
open Theory.Linearize
  (Event Spec Right Standing Watched Steps Linearizable observed linearizable_of_watched)

variable {T Key Value : Type} [DecidableEq T] [LinearOrder Key] [Inhabited Key] [Inhabited Value]

/-! ## What the calls may return -/

/-- What a search that has no match returns. -/
def Op.miss : Op Key Value → Option (Result Key Value)
  | .exists_ _ | .erase _ => some (.flag false)
  | .find _ => some (.value none)
  | _ => none

/-- What a call that does not change the map returns for a key that is bound to `v`. -/
def Op.hit (v : Value) : Op Key Value → Option (Result Key Value)
  | .exists_ _ => some (.flag true)
  | .find _ => some (.value (some v))
  | .insert _ _ _ => some (.flag false)
  | _ => none

/-- The key that a call is about. -/
def Op.key? : Op Key Value → Option Key
  | .exists_ key | .find key | .erase key | .insert key _ _ => some key
  | _ => none

/-- The calls of the map; `firstKey` and `extractor` are not linearizable. -/
def Op.isPoint (op : Op Key Value) : Bool := op.key?.isSome

/-- The ordered map, in which a search may miss if `spurious` holds. -/
def Op.Spec (spurious : Prop) : Spec (OrderedMap Key Value) (Op Key Value) (Result Key Value) :=
  fun m op r m' => op.onMap m = (r, m') ∨ spurious ∧ op.miss = some r ∧ m' = m

/-- What `insert`, `erase`, `find` and `exists` return. -/
def Result.isPoint : Result Key Value → Bool
  | .flag _ | .value _ => true
  | _ => false

namespace State

variable {s s' : State T Key Value} {t u : T} {e : Effect Key Value} {nx : Next Key Value}
variable {k : Key} {pc : PC Key Value} {m : OrderedMap Key Value} {op : Op Key Value}
variable {spurious : Prop} {right right' : Result Key Value → Prop}

/-- What is seen of an action that has led to this state. -/
def shows (s : State T Key Value) :
    Action T Key Value → List (Event T (Op Key Value) (Result Key Value))
  | .call t op => if op.isPoint then [.call t op] else []
  | .exit _ => []
  | .step t => if (s.pc t).isIdle && (s.result t).isPoint then [.ret t (s.result t)] else []

/-- The calls and returns of a run. -/
def history (s : State T Key Value) :
    List (Action T Key Value) → List (Event T (Op Key Value) (Result Key Value))
  | [] => []
  | a :: rest =>
      match s.next a with
      | some s' => s'.shows a ++ s'.history rest
      | none => []

/-- A search of `t` gives up in this step. -/
def givesUp (s : State T Key Value) : Action T Key Value → Bool
  | .step t => stops t s (.step t)
  | _ => false

/-! ## The ordered map in a state -/

/-- The ordered map that is in the list: the nodes that are not marked. -/
def Models (s : State T Key Value) (m : OrderedMap Key Value) : Prop :=
  ∀ x, x ∈ m.entries ↔ ∃ a, s.linked a = true ∧ s.dead a = false ∧ s.entry a = x

theorem Models.contains (models : s.Models m) (memory : s.Memory) : m.contains k = s.holds k := by
  rw [Bool.eq_iff_iff, OrderedMap.contains_iff, OrderedMap.mem_keys, memory.holds_iff]
  constructor
  · rintro ⟨x, member, rfl⟩
    obtain ⟨a, isLinked, alive, rfl⟩ := (models x).1 member
    exact ⟨a, isLinked, alive, rfl⟩
  · rintro ⟨a, isLinked, alive, rfl⟩
    exact ⟨s.entry a, (models _).2 ⟨a, isLinked, alive, rfl⟩, rfl⟩

theorem Models.find? (models : s.Models m) {a : Addr} (isLinked : s.linked a = true)
    (alive : s.dead a = false) : m.find? (s.key a) = some (s.node a).value :=
  OrderedMap.find?_eq_some.2 ((models _).2 ⟨a, isLinked, alive, rfl⟩)

theorem find?_absent (absent : m.contains k = false) : m.find? k = none := by
  refine Option.eq_none_iff_forall_ne_some.2 fun v found => ?_
  have present : m.contains k = true :=
    OrderedMap.contains_iff.2 (OrderedMap.mem_keys.2 ⟨_, OrderedMap.find?_eq_some.1 found, rfl⟩)
  rw [absent] at present
  cases present

/-- A write does not touch the entry of a published node. -/
theorem Memory.entry_write (memory : s.Memory) (write : s.Write e) {a : Addr}
    (isLinked : s.linked a = true) : (s.apply t e).entry a = s.entry a :=
  Prod.ext (key_extend memory (memory.extends_write write) isLinked)
    (value_write write (memory.known a isLinked).2)

theorem Models.quiet (models : s.Models m) (memory : s.Memory) (write : s.Write e)
    (quiet : e.swaps = false) : (s.apply t e).Models m := by
  obtain ⟨linked, marks⟩ := memory.quiet (t := t) write quiet
  intro x
  rw [models x]
  refine exists_congr fun a => ?_
  rw [linked]
  refine and_congr_right fun isLinked => ?_
  rw [marks a isLinked, memory.entry_write write isLinked]

theorem Models.congr (models : s.Models m) (same : s.SameNodes s') : s'.Models m := by
  intro x
  rw [models x]
  refine exists_congr fun a => ?_
  rw [same.linked, same.dead, entry, entry, same.key, same.node]

/-- The linking exchange inserts into the map. -/
theorem Models.link (models : s.Models m) (memory : s.Memory) {prev n : Addr}
    (mine : s.Private n k) (before : s.Before k prev)
    (behind : s.Behind k ((s.node prev).next 0))
    (stored : (s.node n).next 0 = (s.node prev).next 0) :
    (s.apply t (.link prev n)).Models (m.insert k (s.node n).value) ∧ m.contains k = false := by
  have write : s.Write (.link prev n) := .link prev n k mine before behind stored
  have absent : m.contains k = false := by
    rw [models.contains memory]
    exact memory.absent before behind
  have outside : k ∉ m.entries.map (·.1) := by
    intro inside
    have present : m.contains k = true :=
      OrderedMap.contains_iff.2 (by simpa [OrderedMap.keys] using inside)
    rw [absent] at present
    cases present
  obtain ⟨node, linked, -⟩ := apply_link (s := s) (t := t) prev n
  have entryN : (s.apply t (.link prev n)).entry n = (k, (s.node n).value) :=
    Prod.ext ((congrFun (key_of_node node) n).trans mine.key) (value_write write mine.known.2)
  refine ⟨fun x => ?_, absent⟩
  have member : x ∈ (m.insert k (s.node n).value).entries ↔
      x ∈ m.entries ∨ x = (k, (s.node n).value) ∧ k ∉ m.entries.map (·.1) :=
    OrderedMap.mem_iff_insertEntry m.sorted
  simp only [member, models x, dead_link (show s.dead prev = false from behind.alive), linked]
  constructor
  · rintro (⟨a, isLinked, alive, rfl⟩ | ⟨rfl, -⟩)
    · exact ⟨a, by simp [isLinked], alive, memory.entry_write write isLinked⟩
    · exact ⟨n, by simp, by rw [dead, stored]; exact behind.alive, entryN⟩
  · rintro ⟨a, isLinked, alive, rfl⟩
    by_cases isNew : a = n
    · subst isNew
      exact .inr ⟨entryN, outside⟩
    · simp only [isNew, if_false] at isLinked
      exact .inl ⟨a, isLinked, alive, (memory.entry_write write isLinked).symm⟩

/-- The level-0 mark erases from the map. -/
theorem Models.mark (models : s.Models m) (memory : s.Memory) {cur : Addr}
    (isLinked : s.linked cur = true) (alive : s.dead cur = false) :
    (s.apply t (.mark cur 0 ((s.node cur).next 0))).Models (m.erase (s.key cur)) := by
  have write : s.Write (.mark cur 0 ((s.node cur).next 0)) := .mark cur 0 isLinked
  obtain ⟨-, linked, -⟩ := apply_mark (s := s) (t := t) cur 0 ((s.node cur).next 0)
  intro x
  rw [OrderedMap.erase, List.mem_filter, models x]
  simp only [dead_mark, linked, Bool.or_eq_false_iff, decide_eq_true_eq, decide_eq_false_iff_not]
  constructor
  · rintro ⟨⟨a, isLinked', alive', rfl⟩, other⟩
    exact ⟨a, isLinked', ⟨alive', by rintro rfl; exact other rfl⟩, memory.entry_write write isLinked'⟩
  · rintro ⟨a, isLinked', ⟨alive', other⟩, rfl⟩
    have same := memory.entry_write (t := t) write isLinked'
    rw [same]
    refine ⟨⟨a, isLinked', alive', rfl⟩, fun atKey => other ?_⟩
    exact memory.key_inj (memory.live a isLinked' alive') (memory.live cur isLinked alive) atKey

/-! ## What a call knows -/

/-- The results in `o` are right. -/
def Was (right : Result Key Value → Prop) (o : Option (Result Key Value)) : Prop :=
  ∀ r, o = some r → right r

/-- The search with which `op` begins, or begins again. -/
def Finds (s : State T Key Value) (op : Op Key Value) (f : Find Key Value) : Prop :=
  match f.site, op with
  | .exists_, .exists_ key | .find, .find key | .erase, .erase key => key = f.key
  | .insert v _, .insert key value _ => key = f.key ∧ v = value
  | .insertAgain n _, .insert key value _ => key = f.key ∧ (s.node n).value = value
  | _, _ => False

/-- If the search has come past the place of its key, a miss has been right. -/
def Ahead (s : State T Key Value) (op : Op Key Value) (right : Result Key Value → Prop) (k : Key)
    (p : Ptr) : Prop :=
  (∀ c, p = .node c → k < s.key c) → Was right op.miss

/-- The search has seen the node alive; if it is dead now, it has died in the meantime. -/
def Met (s : State T Key Value) (op : Op Key Value) (right : Result Key Value → Prop) (c : Addr) :
    Prop :=
  Was right (op.hit (s.node c).value) ∧ (s.dead c = true → Was right op.miss)

/-- A call that has not taken effect. -/
def Searching (s : State T Key Value) (op : Op Key Value) (right : Result Key Value → Prop) :
    PC Key Value → Prop
  | .acquire (.find f) | .findHead f | .findHeight f | .findCur f _ _ | .findNexti f _ _ _
  | .findUnlink f _ _ _ _ => s.Finds op f
  | .findNext f _ _ cur => s.Finds op f ∧ s.Ahead op right f.key (.node cur)
  | .findPrev f _ _ cur next | .findDead f _ _ cur next =>
      s.Finds op f ∧ s.Ahead op right f.key (.node cur) ∧
        (next.marked0 = false → s.key cur < f.key → s.Ahead op right f.key next)
  | .findKey f _ _ cur next =>
      s.Finds op f ∧ s.Ahead op right f.key (.node cur) ∧
        (s.key cur < f.key → s.Ahead op right f.key next) ∧
        (s.key cur = f.key → s.Met op right cur)
  | .findSetPrev f _ _ next | .findSetCur f _ _ next =>
      s.Finds op f ∧ s.Ahead op right f.key next
  | .findDrop f _ _ _ | .findClear f _ _ _ | .findRetire f _ _ _ =>
      s.Finds op f ∧ Was right op.miss
  | .findMatch f _ cur =>
      s.Finds op f ∧ s.Ahead op right f.key cur ∧
        ∀ c, cur = .node c → s.key c = f.key → s.Met op right c
  | .findValue cur => right (.value (some (s.node cur).value))
  | .eraseHeight key cur | .eraseLoad key cur _ _ | .eraseMark key cur _ _ _ =>
      op = .erase key ∧ (s.dead cur = true → Was right op.miss)
  | .insertLevel key value _ => ∃ level, op = .insert key value level
  | .insertHazard key _ n _ _ | .insertCount key _ n _ _ | .insertStore key _ n _ _
  | .insertLink key _ n _ _ => ∃ level, op = .insert key (s.node n).value level
  | _ => False

/-- A call that only has to return. -/
def Closing (right : Result Key Value → Prop) : PC Key Value → Prop
  | .insertOverage _ _ _ | .indexCur _ _ _ | .insertDrop _ _ | .insertRetire _ =>
      right (.flag true)
  | .clear _ _ (.ret r) => r.isPoint = true ∧ right r
  | .clear _ _ (.free _) | .free _ => right (.flag false)
  | pc => ∃ f c m, pc.finding = some f ∧ f.site = .eraseAgain c m ∧ right (.flag m)

/-- A thread that is in none of these calls. -/
def Outside : PC Key Value → Prop
  | .idle | .acquire .first | .acquire (.items _) | .firstCur | .firstKey _ | .itemsCur _ _
  | .itemsRead _ _ _ _ | .itemsNext _ _ _ _ | .itemsAgain _ _ _ | .itemsSetPrev _ _ _ _
  | .itemsSetCur _ _ _ _ | .exiting | .fault => True
  | .clear _ _ (.ret r) => r.isPoint = false
  | _ => False

theorem Finds.key {f : Find Key Value} (finds : s.Finds op f) : op.key? = some f.key := by
  simp only [Finds] at finds
  split at finds
  · exact congrArg some finds
  · exact congrArg some finds
  · exact congrArg some finds
  · exact congrArg some finds.1
  · exact congrArg some finds.1
  · exact finds.elim

theorem Closing.mono (closing : Closing right pc) (wider : ∀ r, right r → right' r) :
    Closing right' pc := by
  cases pc with
  | clear first last leave =>
      cases leave with
      | ret r => exact ⟨closing.1, wider r closing.2⟩
      | free n => exact wider _ closing
  | insertOverage | indexCur | insertDrop | insertRetire | free => exact wider _ closing
  | _ =>
      obtain ⟨f, c, m, finding, site, isRight⟩ := closing
      exact ⟨f, c, m, finding, site, wider _ isRight⟩

section Keeping

variable (memory : s.Memory) (kept : s.Extends s') (wider : ∀ r, right r → right' r)
include memory kept wider

theorem Ahead.extend {p : Ptr} (ahead : s.Ahead op right k p)
    (shared : ∀ c, p = .node c → s.linked c = true) : s'.Ahead op right' k p := by
  intro past r isMiss
  refine wider r (ahead (fun c isNode => ?_) r isMiss)
  rw [← key_extend memory kept (shared c isNode)]
  exact past c isNode

omit memory kept in
theorem Met.extend {c : Addr} (met : s.Met op right c)
    (value : (s'.node c).value = (s.node c).value)
    (dies : s.dead c = false → s'.dead c = true → Was right' op.miss) : s'.Met op right' c := by
  refine ⟨fun r isHit => wider r (met.1 r (by rwa [← value])), fun isDead r isMiss => ?_⟩
  cases before : s.dead c with
  | true => exact wider r (met.2 before r isMiss)
  | false => exact dies before isDead r isMiss

omit memory kept wider in
theorem Finds.extend {f : Find Key Value} (finds : s.Finds op f)
    (value : ∀ n, f.owns = some n → (s'.node n).value = (s.node n).value) : s'.Finds op f := by
  cases site : f.site <;> cases op <;> simp only [Finds, site] at finds ⊢ <;>
    first | exact finds | exact ⟨finds.1, (value _ (by simp [Find.owns, site])).trans finds.2⟩

/-- What a call knows stays true while other threads go on. -/
theorem Searching.extend (searching : s.Searching op right pc) (here : s.Local pc)
    (value : ∀ a, s.linked a = true ∨ pc.owns = some a → (s'.node a).value = (s.node a).value)
    (dies : ∀ c, s.linked c = true → op.key? = some (s.key c) → s.dead c = false →
      s'.dead c = true → Was right' op.miss) : s'.Searching op right' pc := by
  have linkedOf : ∀ {p : Ptr}, s.Shared p → ∀ c, p = .node c → s.linked c = true := by
    rintro p shared c rfl
    exact shared
  have nodeOf : ∀ {cur : Addr}, s.linked cur = true → ∀ c, Ptr.node cur = .node c →
      s.linked c = true := by
    rintro cur isLinked c ⟨⟩
    exact isLinked
  cases pc with
  | acquire start =>
      cases start with
      | find f => exact Finds.extend searching fun n mine => value n (.inr mine)
      | first | items what => exact searching
  | findHead f | findHeight f | findCur f | findNexti f | findUnlink f =>
      exact Finds.extend searching fun n mine => value n (.inr mine)
  | findNext f i prev cur =>
      exact ⟨searching.1.extend fun n mine => value n (.inr mine),
        searching.2.extend memory kept wider (nodeOf here.linked)⟩
  | findPrev f i prev cur next =>
      obtain ⟨finds, ahead, onward⟩ := searching
      refine ⟨finds.extend fun n mine => value n (.inr mine),
        ahead.extend memory kept wider (nodeOf here.1.linked), fun clean below => ?_⟩
      rw [key_extend memory kept here.1.linked] at below
      exact (onward clean below).extend memory kept wider (linkedOf (here.2.1 clean))
  | findDead f i prev cur next =>
      obtain ⟨finds, ahead, onward⟩ := searching
      refine ⟨finds.extend fun n mine => value n (.inr mine),
        ahead.extend memory kept wider (nodeOf here.1.linked), fun clean below => ?_⟩
      rw [key_extend memory kept here.1.linked] at below
      exact (onward clean below).extend memory kept wider (linkedOf here.2)
  | findKey f i prev cur next =>
      obtain ⟨finds, ahead, onward, met⟩ := searching
      refine ⟨finds.extend fun n mine => value n (.inr mine),
        ahead.extend memory kept wider (nodeOf here.1.linked), fun below => ?_, fun atKey => ?_⟩
      · rw [key_extend memory kept here.1.linked] at below
        exact (onward below).extend memory kept wider (linkedOf here.2)
      · rw [key_extend memory kept here.1.linked] at atKey
        exact (met atKey).extend wider (value cur (.inl here.1.linked))
          (dies cur here.1.linked (by rw [atKey]; exact finds.key))
  | findSetPrev f i prev next =>
      exact ⟨searching.1.extend fun n mine => value n (.inr mine),
        searching.2.extend memory kept wider (linkedOf here.2.2.2)⟩
  | findSetCur f i prev next =>
      exact ⟨searching.1.extend fun n mine => value n (.inr mine),
        searching.2.extend memory kept wider (linkedOf here.2.2.2)⟩
  | findDrop f | findClear f | findRetire f =>
      exact ⟨searching.1.extend fun n mine => value n (.inr mine),
        fun r isMiss => wider r (searching.2 r isMiss)⟩
  | findMatch f prev cur =>
      obtain ⟨finds, ahead, met⟩ := searching
      obtain ⟨-, -, shared, -⟩ := here
      refine ⟨finds.extend fun n mine => value n (.inr mine),
        ahead.extend memory kept wider (linkedOf shared), ?_⟩
      rintro c rfl atKey
      rw [key_extend memory kept shared] at atKey
      exact (met c rfl atKey).extend wider (value c (.inl shared))
        (dies c shared (by rw [atKey]; exact finds.key))
  | findValue cur =>
      show right' (.value (some (s'.node cur).value))
      rw [value cur (.inl here)]
      exact wider _ searching
  | eraseHeight key cur =>
      obtain ⟨rfl, gone⟩ := searching
      refine ⟨rfl, fun isDead r isMiss => ?_⟩
      cases before : s.dead cur with
      | true => exact wider r (gone before r isMiss)
      | false => exact dies cur here.1 (congrArg some here.2.symm) before isDead r isMiss
  | eraseLoad key cur i m =>
      obtain ⟨rfl, gone⟩ := searching
      refine ⟨rfl, fun isDead r isMiss => ?_⟩
      cases before : s.dead cur with
      | true => exact wider r (gone before r isMiss)
      | false => exact dies cur here.1 (congrArg some here.2.1.symm) before isDead r isMiss
  | eraseMark key cur i nexti m =>
      obtain ⟨rfl, gone⟩ := searching
      refine ⟨rfl, fun isDead r isMiss => ?_⟩
      cases before : s.dead cur with
      | true => exact wider r (gone before r isMiss)
      | false => exact dies cur here.1 (congrArg some here.2.1.symm) before isDead r isMiss
  | insertLevel => exact searching
  | insertHazard key level n | insertCount key level n | insertStore key level n
  | insertLink key level n =>
      obtain ⟨level', rfl⟩ := searching
      exact ⟨level', by rw [value n (.inr rfl)]⟩
  | _ => exact searching.elim

end Keeping

/-! ## What is right now -/

section Now

variable (current : ∀ r, Right (Op.Spec spurious) m op r → right r)
include current

theorem was_miss (absent : m.contains k = false) (about : op.key? = some k) :
    Was right op.miss := by
  intro r isMiss
  refine current r (.inl ?_)
  cases op <;> cases about <;> cases isMiss
  · simp [Op.onMap, absent]
  · simp [Op.onMap, find?_absent absent]
  · simp [Op.onMap, absent, erase_absent absent]

theorem was_hit {v : Value} (found : m.find? k = some v) (about : op.key? = some k) :
    Was right (op.hit v) := by
  have present : m.contains k = true :=
    OrderedMap.contains_iff.2 (OrderedMap.mem_keys.2 ⟨_, OrderedMap.find?_eq_some.1 found, rfl⟩)
  intro r isHit
  refine current r (.inl ?_)
  cases op <;> cases about <;> cases isHit
  · simp [Op.onMap, present]
  · simp [Op.onMap, found]
  · simp [Op.onMap, present, insert_contains present]

theorem was_spurious (allowed : spurious) : Was right op.miss :=
  fun r isMiss => current r (.inr ⟨allowed, isMiss, rfl⟩)

/-- Between two neighbours there is no key. -/
theorem Models.ahead (models : s.Models m) (memory : s.Memory) {a : Addr}
    (before : s.Before k a) (clean : ((s.node a).next 0).marked0 = false)
    (about : op.key? = some k) : s.Ahead op right k ((s.node a).next 0) := by
  intro past
  refine was_miss current ?_ about
  rw [models.contains memory]
  refine memory.absent before ?_
  have shared := memory.shared_next before.1 clean
  cases points : (s.node a).next 0 with
  | null => trivial
  | node c => rw [points] at shared past; exact ⟨shared, past c rfl⟩
  | markedNull | marked c => rw [points] at clean; cases clean

theorem Models.met (models : s.Models m) {c : Addr} (isLinked : s.linked c = true)
    (alive : s.dead c = false) (about : op.key? = some (s.key c)) : s.Met op right c := by
  refine ⟨was_hit current (models.find? isLinked alive) about, fun isDead => ?_⟩
  rw [alive] at isDead
  cases isDead

end Now

/-! ## The steps of a call -/

/-- A step leads on to the return, or returns. -/
def Closes (right : Result Key Value → Prop) (nx : Next Key Value) : Prop :=
  Closing right nx.pc ∨ ∃ r, nx = .ret r ∧ r.isPoint = true ∧ right r

/-- Where a step leads that does not change the map. -/
def Onward (s : State T Key Value) (t : T) (op : Op Key Value) (right : Result Key Value → Prop)
    (e : Effect Key Value) (nx : Next Key Value) : Prop :=
  (s.apply t e).Searching op right nx.pc ∨ Closes right nx

theorem finds_enter {f : Find Key Value} (finds : s'.Finds op f) :
    s'.Searching op right (s.enter t (.find f)) := by
  simp only [enter]
  split <;> exact finds

theorem closing_enter {f : Find Key Value} {c : Addr} {b : Bool}
    (site : f.site = .eraseAgain c b) (isRight : right (.flag b)) :
    Closing right (s.enter t (.find f)) := by
  simp only [enter]
  split <;> exact ⟨f, c, b, rfl, site, isRight⟩

theorem Ahead.loop {f : Find Key Value} {prev : Addr} {p : Ptr} (finds : s.Finds op f)
    (ahead : s.Ahead op right f.key p) (shared : s.Shared p) :
    s.Searching op right (findLoop f 0 prev p) := by
  cases p with
  | null => exact ⟨finds, ahead, fun c isNode => by cases isNode⟩
  | node c => exact ⟨finds, ahead⟩
  | markedNull | marked c => exact shared.elim

theorem value_create (height : Nat) (key : Key) (value : Value) :
    ((s.apply t (.create height key value)).node s.fresh).value = value := by
  simp [apply, mkNode]

/-- `find(key)` returns to its caller. -/
theorem Finds.found {f : Find Key Value} {prev : Addr} {cur : Ptr} {hit : Bool}
    (finds : s.Finds op f) (missed : hit = false → Was right op.miss)
    (met : hit = true → ∃ c, cur = .node c ∧ s.Met op right c) :
    s.Onward t op right (s.found f prev cur hit).1 (s.found f prev cur hit).2 := by
  obtain ⟨key, site⟩ := f
  cases op <;> cases site <;> simp only [Finds] at finds <;> try exact finds.elim
  case exists_.exists_ =>
    cases hit with
    | false => exact .inr (.inl ⟨rfl, missed rfl _ rfl⟩)
    | true =>
        obtain ⟨c, rfl, saw⟩ := met rfl
        exact .inr (.inl ⟨rfl, saw.1 _ rfl⟩)
  case find.find =>
    cases hit with
    | false => exact .inr (.inl ⟨rfl, missed rfl _ rfl⟩)
    | true =>
        obtain ⟨c, rfl, saw⟩ := met rfl
        exact .inl (saw.1 _ rfl)
  case erase.erase =>
    subst finds
    cases hit with
    | false => exact .inr (.inr ⟨_, rfl, rfl, missed rfl _ rfl⟩)
    | true =>
        obtain ⟨c, rfl, saw⟩ := met rfl
        exact .inl ⟨rfl, saw.2⟩
  case insert.insert =>
    obtain ⟨rfl, rfl⟩ := finds
    cases hit with
    | false => exact .inl ⟨_, congrArg (Op.insert _ · _) (value_create ..).symm⟩
    | true =>
        obtain ⟨c, rfl, saw⟩ := met rfl
        exact .inr (.inr ⟨_, rfl, rfl, saw.1 _ rfl⟩)
  case insert.insertAgain =>
    obtain ⟨rfl, rfl⟩ := finds
    cases hit with
    | false => exact .inl ⟨_, rfl⟩
    | true =>
        obtain ⟨c, rfl, saw⟩ := met rfl
        exact .inr (.inl (saw.1 _ rfl))

/-- One step of a call that has not taken effect: it goes on, or it takes effect. -/
theorem Searching.access (searching : s.Searching op right pc) (here : s.Local pc)
    (access : s.Access t pc e nx) (memory : s.Memory) (tall : ∀ a, 0 < (s.node a).height)
    (models : s.Models m) (current : ∀ r, Right (Op.Spec spurious) m op r → right r)
    (fair : ∀ f prev cur nexti, pc = .findUnlink f 0 prev cur nexti →
      (s.node prev).next 0 = .node cur → f.site = .exists_ ∨ f.site = .find ∨ f.site = .erase →
      spurious) :
    (e.swaps = false ∧ s.Onward t op right e nx) ∨
    (e.swaps = true ∧ ∃ r m', Op.Spec spurious m op r m' ∧ (s.apply t e).Models m' ∧
      Closing (· = r) nx.pc) := by
  have keeps : ∀ n, pc.owns = some n → ((s.apply t e).node n).value = (s.node n).value := by
    intro n mine
    obtain ⟨key, private_⟩ := here.owned mine
    exact value_write (here.write access) private_.known.2
  cases access with
  | acquired start =>
      cases start with
      | find f => exact .inl ⟨rfl, .inl searching⟩
      | first | items what => exact searching.elim
  | headSet f | height f | curMarked f i prev | nexti f i prev cur | unlinkFailed f i prev cur nexti =>
      exact .inl ⟨rfl, .inl searching⟩
  | nextFailed f i prev cur | prevChanged f i prev cur next | prevMarked f i prev cur next
  | dead f i prev cur next => exact .inl ⟨rfl, .inl searching.1⟩
  | prevSame | prevSet | curCleared => exact .inl ⟨rfl, .inl searching⟩
  | curLoaded f i prev clean =>
      have finds : s.Finds op f := searching
      obtain ⟨-, before, onHead⟩ := here
      refine .inl ⟨rfl, .inl ?_⟩
      cases i with
      | zero =>
          exact (models.ahead current memory before clean finds.key).loop finds
            (memory.shared_next before.1 clean)
      | succ i =>
          obtain rfl := onHead (Nat.succ_ne_zero i)
          simp only [memory.index head (i + 1) (Nat.succ_pos i), findLoop, findDown,
            Nat.succ_ne_zero, if_false]
          exact finds
  | nextLoaded f i prev cur =>
      obtain ⟨finds, ahead⟩ := searching
      obtain rfl := here.bottom
      refine .inl ⟨rfl, .inl ⟨finds, ahead, fun clean below => ?_⟩⟩
      exact models.ahead current memory (memory.before_linked here.linked below) clean finds.key
  | notDead f i prev cur next alive =>
      obtain ⟨finds, ahead, onward⟩ := searching
      obtain ⟨window, shared⟩ := here
      refine .inl ⟨rfl, .inl ⟨finds, ahead, onward shared.alive, fun atKey => ?_⟩⟩
      exact models.met current window.linked alive (finds.key.trans (congrArg some atKey.symm))
  | keyReached f i prev cur next reached =>
      obtain ⟨finds, ahead, -, met⟩ := searching
      obtain rfl := here.1.bottom
      refine .inl ⟨rfl, .inl ⟨finds, ahead, ?_⟩⟩
      rintro c ⟨⟩
      exact met
  | keyBelow f i prev cur next below =>
      exact .inl ⟨rfl, .inl ⟨searching.1, searching.2.2.1 below⟩⟩
  | curSet f i prev cur =>
      obtain ⟨-, rfl, -, shared⟩ := here
      exact .inl ⟨rfl, .inl (searching.2.loop searching.1 shared)⟩
  | unlinked f i prev cur nexti points =>
      have finds : s.Finds op f := searching
      obtain rfl := here.1.bottom
      refine .inl ⟨rfl, .inl ⟨finds.extend keeps, ?_⟩⟩
      have gives : f.site = .exists_ ∨ f.site = .find ∨ f.site = .erase → Was right op.miss :=
        fun search => was_spurious current (fair f prev cur nexti rfl points search)
      cases op with
      | exists_ key | find key | erase key =>
          refine gives ?_
          cases site : f.site <;> simp [Finds, site] at finds ⊢
      | insert | firstKey | extract => intro r isMiss; cases isMiss
  | dropLast f i prev cur last => exact .inl ⟨rfl, .inl ⟨searching.1.extend keeps, searching.2⟩⟩
  | drop f i prev cur more =>
      obtain rfl := here.1.bottom
      refine .inl ⟨rfl, .inl ⟨searching.1.extend keeps, fun _ => searching.2, ?_⟩⟩
      rintro c ⟨⟩
  | retired f i prev cur =>
      obtain rfl := here.1.bottom
      refine .inl ⟨rfl, .inl ⟨searching.1, fun _ => searching.2, ?_⟩⟩
      rintro c ⟨⟩
  | matchNull f prev =>
      obtain ⟨finds, ahead, -⟩ := searching
      refine .inl ⟨swaps_found, finds.found (fun _ => ahead ?_) fun hit => by cases hit⟩
      rintro c ⟨⟩
  | matchNode f prev cur =>
      obtain ⟨finds, ahead, met⟩ := searching
      obtain ⟨-, -, -, reached⟩ := here
      refine .inl ⟨swaps_found, finds.found (fun missed => ahead ?_) fun hit => ?_⟩
      · rintro c ⟨⟩
        exact lt_of_le_of_ne (reached cur rfl) (Ne.symm (of_decide_eq_false missed))
      · exact ⟨cur, rfl, met cur rfl (of_decide_eq_true hit)⟩
  | matchFault f prev cur tagged =>
      obtain ⟨-, -, shared, -⟩ := here
      rcases tagged with rfl | ⟨a, rfl⟩ <;> exact shared.elim
  | valueRead cur => exact .inl ⟨rfl, .inr (.inl ⟨rfl, searching⟩)⟩
  -- erase
  | eraseFlat key cur flat => exact absurd (tall cur) (by rw [flat]; exact Nat.lt_irrefl 0)
  | eraseTop | eraseLoaded | markFailed => exact .inl ⟨rfl, .inl searching⟩
  | marked key cur i b =>
      obtain ⟨rfl, gone⟩ := searching
      obtain ⟨isLinked, rfl, rfl⟩ := here
      by_cases bottom : i = 0
      · subst bottom
        cases state : s.dead cur with
        | false =>
            have clean := (Ptr.eq_clear_iff _).2 state
            have present : m.contains (s.key cur) = true := by
              rw [models.contains memory]
              exact memory.holds_iff.2 ⟨cur, isLinked, state, rfl⟩
            refine .inr ⟨decide_eq_true ⟨rfl, clean⟩, .flag true, _, ?_,
              models.mark memory isLinked state, ?_⟩
            · exact .inl (by simp [Op.onMap, present])
            · simp only [eraseDown, if_true, Next.pc_goto, if_pos clean, true_and]
              exact closing_enter rfl rfl
        | true =>
            have tagged : ¬ (s.node cur).next 0 = ((s.node cur).next 0).clear := by
              rw [Ptr.eq_clear_iff]
              exact fun clean => by rw [dead, clean] at state; cases state
            refine .inl ⟨decide_eq_false fun both => tagged both.2, .inr (.inl ?_)⟩
            simp only [eraseDown, if_true, Next.pc_goto, if_neg tagged, true_and]
            exact closing_enter rfl (gone state _ rfl)
      · refine .inl ⟨decide_eq_false fun both => bottom both.1, .inl ?_⟩
        simp only [eraseDown, bottom, if_false, false_and, Next.pc_goto]
        refine ⟨rfl, fun isDead => gone ?_⟩
        have write : s.Write (.mark cur i ((s.node cur).next i)) := .mark cur i isLinked
        have quiet : (Effect.mark cur i ((s.node cur).next i) : Effect Key Value).swaps = false :=
          decide_eq_false fun both => bottom both.1
        rwa [(memory.quiet (t := t) write quiet).2 cur isLinked] at isDead
  -- insert
  | grown key value level low =>
      obtain ⟨level', rfl⟩ := searching
      exact .inl ⟨rfl, .inl (finds_enter ⟨rfl, rfl⟩)⟩
  | levelled key value level high =>
      obtain ⟨level', rfl⟩ := searching
      exact .inl ⟨rfl, .inl (finds_enter ⟨rfl, rfl⟩)⟩
  | newGuarded => exact .inl ⟨rfl, .inl searching⟩
  | counted key level n prev cur =>
      obtain ⟨level', rfl⟩ := searching
      exact .inl ⟨rfl, .inl ⟨level', by rw [keeps n rfl]⟩⟩
  | stored key level n prev cur =>
      obtain ⟨level', rfl⟩ := searching
      exact .inl ⟨rfl, .inl ⟨level', by rw [keeps n rfl]⟩⟩
  | linked key level n prev =>
      obtain ⟨level', rfl⟩ := searching
      obtain ⟨mine, before, behind, stored⟩ := here
      obtain ⟨linked, absent⟩ := models.link (t := t) memory mine before behind stored
      exact .inr ⟨rfl, .flag true, _, .inl (by simp [Op.onMap, absent]), linked, rfl⟩
  | linkFailed key level n prev cur =>
      obtain ⟨level', rfl⟩ := searching
      exact .inl ⟨rfl, .inl (finds_enter ⟨rfl, rfl⟩)⟩
  | _ => exact searching.elim

/-- One step of a call that has taken effect, or knows what it returns. -/
theorem Closing.access (closing : Closing right pc) (here : s.Local pc)
    (access : s.Access t pc e nx) (memory : s.Memory) (tall : ∀ a, 0 < (s.node a).height) :
    e.swaps = false ∧ Closes right nx := by
  have ofFind : ∀ f, pc.finding = some f →
      (∃ f c b, pc.finding = some f ∧ f.site = .eraseAgain c b ∧ right (.flag b)) →
      e.swaps = false ∧ Closes right nx := by
    rintro - - ⟨f, c, b, finding, again, isRight⟩
    rcases here.access_finding access memory tall finding with onward | ⟨prev, cur, rfl⟩
    · refine ⟨?_, .inl ?_⟩
      · cases access <;> first | rfl | exact swaps_found | cases finding
      · cases atNext : nx.pc <;> rw [atNext] at onward <;>
          first | exact ⟨f, c, b, onward, again, isRight⟩ | cases onward
    · obtain ⟨key, site⟩ := f
      obtain rfl : site = .eraseAgain c b := again
      cases access with
      | matchNull => exact ⟨rfl, .inl ⟨rfl, isRight⟩⟩
      | matchNode => exact ⟨rfl, .inl ⟨rfl, isRight⟩⟩
      | matchFault f prev cur tagged =>
          rcases tagged with rfl | ⟨a, rfl⟩ <;> exact here.2.2.1.elim
  have level : ∀ (x : Index Key) (i : Nat), right (.flag true) →
      Closing right (indexLevel x head i : PC Key Value) := by
    intro x i isRight
    cases i with
    | zero =>
        simp only [indexLevel]
        split
        · exact isRight
        · exact ⟨rfl, isRight⟩
    | succ i => exact isRight
  cases access with
  | overage key l n => exact ⟨rfl, .inl (level _ _ closing)⟩
  | indexMarked x i prev isMarked => exact ⟨rfl, .inl (level x 0 closing)⟩
  | indexLoaded x i prev clean =>
      obtain ⟨-, rfl, above⟩ := here
      rw [memory.index head i (Nat.pos_of_ne_zero above)] at clean
      cases clean
  | overageLast => exact ⟨rfl, .inl closing⟩
  | overageDropped | newRetired => exact ⟨rfl, .inl ⟨rfl, closing⟩⟩
  | clearedLast k leave =>
      cases leave with
      | ret r => exact ⟨rfl, .inr ⟨r, rfl, closing⟩⟩
      | free n => exact ⟨rfl, .inl closing⟩
  | cleared k last leave more =>
      cases leave with
      | ret r => exact ⟨rfl, .inl closing⟩
      | free n => exact ⟨rfl, .inl closing⟩
  | freed n => exact ⟨rfl, .inr ⟨_, rfl, rfl, closing⟩⟩
  | acquired start =>
      cases start with
      | find f => exact ofFind f rfl closing
      | first | items what => obtain ⟨f, c, b, finding, -⟩ := closing; cases finding
  | _ =>
      first
        | exact ofFind _ rfl closing
        | (obtain ⟨f, c, b, finding, -⟩ := closing; cases finding)

/-- Outside these calls nothing is changed, and none of them returns. -/
theorem Outside.access (outside : Outside pc) (access : s.Access t pc e nx) :
    e.swaps = false ∧ ((∃ pc', nx = .goto pc' ∧ pc'.isIdle = false ∧ Outside pc') ∨
      ∃ r, nx = .ret r ∧ r.isPoint = false) := by
  have items : ∀ (what : Extract) (ret : List (Item Key Value)) (prev cur : Ptr),
      (itemsLoop what ret prev cur).isIdle = false ∧ Outside (itemsLoop what ret prev cur) := by
    intro what ret prev cur
    cases cur with
    | null => exact ⟨rfl, rfl⟩
    | node c => cases prev <;> exact ⟨rfl, trivial⟩
    | markedNull | marked c => exact ⟨rfl, trivial⟩
  cases access with
  | acquired start =>
      cases start <;> first | exact outside.elim | exact ⟨rfl, .inl ⟨_, rfl, rfl, trivial⟩⟩
  | itemsLoaded | itemsCurSet => exact ⟨rfl, .inl ⟨_, rfl, items ..⟩⟩
  | itemsNextLoaded what ret prev cur =>
      refine ⟨rfl, .inl ⟨_, rfl, ?_⟩⟩
      simp only [itemsNextOf]
      split <;> exact ⟨rfl, trivial⟩
  | firstNull | firstRead => exact ⟨rfl, .inl ⟨_, rfl, rfl, rfl⟩⟩
  | firstNode | firstAgain | itemRead | itemsAgainNull | itemsAgainNode | itemsRestart
  | itemsPrevSet => exact ⟨rfl, .inl ⟨_, rfl, rfl, trivial⟩⟩
  | clearedLast k leave =>
      cases leave with
      | ret r => exact ⟨rfl, .inr ⟨r, rfl, outside⟩⟩
      | free n => exact outside.elim
  | cleared k last leave more =>
      cases leave with
      | ret r => exact ⟨rfl, .inl ⟨_, rfl, rfl, outside⟩⟩
      | free n => exact outside.elim
  | exited => exact ⟨rfl, .inr ⟨_, rfl, rfl⟩⟩
  | _ => exact outside.elim

/-! ## Every run -/

/-- A thread stands where the watched object has it. -/
def Stands (spurious : Prop) (s : State T Key Value) (m : OrderedMap Key Value)
    (pc : PC Key Value) : Standing (Op Key Value) (Result Key Value) → Prop
  | .idle => Outside pc
  | .open op right =>
      (∀ r, Right (Op.Spec spurious) m op r → right r) ∧
        (s.Searching op right pc ∨ Closing right pc)
  | .done r => Closing (· = r) pc

/-- The watched object follows the list. -/
structure WatchedAs (spurious : Prop) (s : State T Key Value)
    (w : Watched T (OrderedMap Key Value) (Op Key Value) (Result Key Value)) : Prop where
  models : s.Models w.content
  stands : ∀ t, s.Stands spurious w.content (s.pc t) (w.standing t)

section Keeping

variable {standing : Standing (Op Key Value) (Result Key Value)} {m' : OrderedMap Key Value}
variable (stands : s.Stands spurious m pc standing) (here : s.Local pc) (memory : s.Memory)
variable (kept : s.Extends s')
variable (value : ∀ a, s.linked a = true ∨ pc.owns = some a →
  (s'.node a).value = (s.node a).value)
include stands here memory kept value

/-- A step of another thread that does not change the map. -/
theorem Stands.quiet (alive : ∀ c, s.linked c = true → s'.dead c = s.dead c) :
    s'.Stands spurious m pc standing := by
  cases standing with
  | idle => exact stands
  | done r => exact stands
  | «open» op right =>
      obtain ⟨current, searching | closing⟩ := stands
      · refine ⟨current, .inl (searching.extend memory kept (fun _ => id) here value ?_)⟩
        intro c isLinked _ isAlive isDead
        rw [alive c isLinked, isAlive] at isDead
        cases isDead
      · exact ⟨current, .inr closing⟩

/-- A step of another thread that changes the map to `m'`. -/
theorem Stands.note (dies : ∀ c, s.linked c = true → s.dead c = false → s'.dead c = true →
    m'.contains (s.key c) = false) :
    s'.Stands spurious m' pc (standing.note (Op.Spec spurious) m') := by
  cases standing with
  | idle => exact stands
  | done r => exact stands
  | «open» op right =>
      have current : ∀ r, Right (Op.Spec spurious) m' op r →
          right r ∨ Right (Op.Spec spurious) m' op r := fun _ => .inr
      obtain ⟨-, searching | closing⟩ := stands
      · refine ⟨current, .inl (searching.extend memory kept (fun _ => .inl) here value ?_)⟩
        intro c isLinked about isAlive isDead
        exact was_miss current (dies c isLinked isAlive isDead) about
      · exact ⟨current, .inr (closing.mono fun _ => .inl)⟩

end Keeping

theorem not_idle_closing (closing : Closing right pc) : pc.isIdle = false := by
  cases pc with
  | idle => obtain ⟨f, c, b, finding, -⟩ := closing; cases finding
  | _ => rfl

theorem not_idle_searching (searching : s.Searching op right pc) : pc.isIdle = false := by
  cases pc with
  | idle => exact searching.elim
  | _ => rfl

theorem Stands.idle {standing : Standing (Op Key Value) (Result Key Value)}
    (stands : s.Stands spurious m pc standing) (idle : pc.isIdle = true) : standing = .idle := by
  cases standing with
  | idle => rfl
  | «open» op right =>
      obtain ⟨-, searching | closing⟩ := stands
      · rw [not_idle_searching searching] at idle; cases idle
      · rw [not_idle_closing closing] at idle; cases idle
  | done r =>
      have closing : Closing (· = r) pc := stands
      rw [not_idle_closing closing] at idle
      cases idle

/-- Nobody else sees a write that does not change the map. -/
theorem WatchedAs.others {w : Watched T (OrderedMap Key Value) (Op Key Value) (Result Key Value)}
    (watched : s.WatchedAs spurious w) (level0 : s.Level0) (write : s.Write e)
    (same : (s.apply t e).SameNodes s') :
    (e.swaps = false → ∀ u, s'.Stands spurious w.content (s.pc u) (w.standing u)) ∧
    ∀ m', (∀ c, s.linked c = true → s.dead c = false → s'.dead c = true →
        m'.contains (s.key c) = false) →
      ∀ u, s'.Stands spurious m' (s.pc u) ((w.standing u).note (Op.Spec spurious) m') := by
  have memory := level0.memory
  have kept := (memory.extends_write (t := t) write).same same
  have value : ∀ u a, s.linked a = true ∨ (s.pc u).owns = some a →
      (s'.node a).value = (s.node a).value := by
    intro u a reaches
    rw [same.node]
    refine value_write write ?_
    rcases reaches with isLinked | mine
    · exact (memory.known a isLinked).2
    · obtain ⟨k, private_⟩ := (level0.here u).owned mine
      exact private_.known.2
  refine ⟨fun quiet u => ?_, fun m' dies u => ?_⟩
  · refine (watched.stands u).quiet (level0.here u) memory kept (value u) fun c isLinked => ?_
    rw [same.dead]
    exact (memory.quiet (t := t) write quiet).2 c isLinked
  · exact (watched.stands u).note (level0.here u) memory kept (value u) dies

/-- A node that has died was in the map before, and its key is not in the map now. -/
theorem died {m' : OrderedMap Key Value} (memory : s.Memory) (write : s.Write e)
    (same : (s.apply t e).SameNodes s') (models : s'.Models m') (memory' : s'.Memory) {c : Addr}
    (isLinked : s.linked c = true) (alive : s.dead c = false) (isDead : s'.dead c = true) :
    m'.contains (s.key c) = false := by
  rw [models.contains memory', same.holds]
  rw [same.dead] at isDead
  cases swaps : e.swaps with
  | false =>
      rw [(memory.quiet (t := t) write swaps).2 c isLinked, alive] at isDead
      cases isDead
  | true =>
      cases write with
      | link prev n k mine before behind stored =>
          rw [dead_link (show s.dead prev = false from behind.alive), alive] at isDead
          cases isDead
      | mark cur i isLinked' =>
          obtain ⟨rfl, clean⟩ := of_decide_eq_true swaps
          have curAlive : s.dead cur = false := (Ptr.eq_clear_iff _).1 clean
          rw [dead_mark, alive, Bool.false_or, decide_eq_true_eq] at isDead
          rw [memory.holds_mark isLinked' curAlive, isDead]
          simp
      | _ => cases swaps

/-- One step of a thread, watched. -/
theorem WatchedAs.access {w : Watched T (OrderedMap Key Value) (Op Key Value) (Result Key Value)}
    {sys : Hazard.Sys T Ptr (Addr × Nat)} (watched : s.WatchedAs spurious w) (level0 : s.Level0)
    (access : s.Access t (s.pc t) e nx) (fair : s.givesUp (.step t) = false ∨ spurious)
    (level0' : (({ s with sys := sys }.apply t e).after t nx).Level0) :
    ∃ es w', Steps (Watched.Step (Op.Spec spurious)) w es w' ∧
      observed es = (({ s with sys := sys }.apply t e).after t nx).shows (.step t) ∧
      (({ s with sys := sys }.apply t e).after t nx).WatchedAs spurious w' := by
  have memory := level0.memory
  have here := level0.here t
  have write := here.write access
  have same := sameNodes_after (s := s) (t := t) sys e nx
  obtain ⟨quietly, noting⟩ := watched.others level0 write same
  have pcSelf : (({ s with sys := sys }.apply t e).after t nx).pc t = nx.pc := after_pc_self
  have pcOther : ∀ u, u ≠ t → (({ s with sys := sys }.apply t e).after t nx).pc u = s.pc u := by
    intro u other
    rw [after_pc_other other, apply_pc]
  generalize after : ({ s with sys := sys }.apply t e).after t nx = q at *
  have hidden : nx.pc.isIdle = false → q.shows (.step t) = [] := by
    intro busy
    simp [shows, pcSelf, busy]
  have shown : ∀ r, nx = .ret r →
      q.shows (.step t) = if r.isPoint then [.ret t r] else [] := by
    rintro r rfl
    have result : q.result t = r := by rw [← after, after_result_self]
    simp [shows, pcSelf, result, PC.isIdle]
  -- the others stand where they stood, and `t` stands at its next point
  have moved : ∀ standing, e.swaps = false → q.Stands spurious w.content nx.pc standing →
      q.WatchedAs spurious ⟨w.content, Function.update w.standing t standing⟩ := by
    intro standing quiet stands
    refine ⟨(watched.models.quiet (t := t) memory write quiet).congr same, fun u => ?_⟩
    by_cases isT : u = t
    · subst isT
      simpa only [pcSelf, Function.update_self] using stands
    · simpa only [pcOther u isT, Function.update_of_ne isT] using quietly quiet u
  have stayed : e.swaps = false → q.Stands spurious w.content nx.pc (w.standing t) →
      q.WatchedAs spurious w := by
    intro quiet stands
    have := moved (w.standing t) quiet stands
    rwa [Function.update_eq_self] at this
  have stands := watched.stands t
  have closes : ∀ right : Result Key Value → Prop, e.swaps = false → Closes right nx →
      (∀ pc : PC Key Value, Closing right pc → q.Stands spurious w.content pc (w.standing t)) →
      (∀ r, right r → Watched.Step (Op.Spec spurious) w (.ret t r)
        ⟨w.content, Function.update w.standing t .idle⟩) →
      ∃ es w', Steps (Watched.Step (Op.Spec spurious)) w es w' ∧
        observed es = q.shows (.step t) ∧ q.WatchedAs spurious w' := by
    rintro right quiet (closing | ⟨r, rfl, point, isRight⟩) onward returns
    · exact ⟨[], w, .nil w, (hidden (not_idle_closing closing)).symm,
        stayed quiet (onward _ closing)⟩
    · refine ⟨[.ret t r], _, .cons (returns r isRight) (.nil _), ?_, moved .idle quiet trivial⟩
      rw [shown r rfl, if_pos point]
      rfl
  cases standing : w.standing t with
  | idle =>
      rw [standing] at stands
      obtain ⟨quiet, ⟨pc, rfl, busy, outside⟩ | ⟨r, rfl, point⟩⟩ := Outside.access stands access
      · refine ⟨[], w, .nil w, (hidden busy).symm, stayed quiet ?_⟩
        rw [standing]
        exact outside
      · refine ⟨[], w, .nil w, ?_, stayed quiet ?_⟩
        · rw [shown r rfl, point]
          rfl
        · rw [standing]
          trivial
  | done r =>
      rw [standing] at stands closes
      have now : Closing (· = r) (s.pc t) := stands
      obtain ⟨quiet, closing⟩ := now.access here access memory level0.tall
      refine closes _ quiet closing (fun _ => id) ?_
      rintro r' rfl
      exact .ret w t _ (.inl standing)
  | «open» op right =>
      rw [standing] at stands closes
      obtain ⟨current, searching | closing⟩ := stands
      · have gives : ∀ f prev cur nexti, s.pc t = .findUnlink f 0 prev cur nexti →
            (s.node prev).next 0 = .node cur → f.site = .exists_ ∨ f.site = .find ∨ f.site = .erase →
            spurious := by
          intro f prev cur nexti atUnlink points search
          refine fair.resolve_left fun goesOn => ?_
          have stop : s.givesUp (.step t) = true :=
            stops_spec.2 ⟨f, prev, cur, nexti, atUnlink, points, search⟩
          rw [stop] at goesOn
          cases goesOn
        rcases searching.access here access memory level0.tall watched.models current gives with
          ⟨quiet, onward | closing⟩ | ⟨swaps, r, m', allowed, models, closing⟩
        · refine ⟨[], w, .nil w, (hidden (not_idle_searching onward)).symm, stayed quiet ?_⟩
          rw [standing]
          refine ⟨current, .inl (onward.extend (memory.write (t := t) write).1 same.extends
            (fun _ => id) (here.access access memory level0.tall) (fun a _ => by rw [same.node]) ?_)⟩
          intro c _ _ alive isDead
          rw [same.dead, alive] at isDead
          cases isDead
        · exact closes right quiet closing (fun _ closing => ⟨current, .inr closing⟩)
            fun r isRight => .ret w t r (.inr ⟨op, right, standing, isRight⟩)
        · have models' := models.congr same
          refine ⟨[.effect t r], _, .cons (.effect w t op right r m' standing allowed) (.nil _),
            (hidden (not_idle_closing closing)).symm, models', fun u => ?_⟩
          by_cases isT : u = t
          · subst isT
            simp only [pcSelf, Function.update_self]
            exact closing
          · simp only [pcOther u isT, Function.update_of_ne isT]
            exact noting m' (fun c isLinked alive isDead =>
              died memory write same models' level0'.memory isLinked alive isDead) u
      · obtain ⟨quiet, closing⟩ := closing.access here access memory level0.tall
        exact closes right quiet closing (fun _ closing => ⟨current, .inr closing⟩)
          fun r isRight => .ret w t r (.inr ⟨op, right, standing, isRight⟩)

theorem WatchedAs.congr {w : Watched T (OrderedMap Key Value) (Op Key Value) (Result Key Value)}
    (watched : s.WatchedAs spurious w) (level0 : s.Level0) (same : s.SameNodes s')
    {standing : T → Standing (Op Key Value) (Result Key Value)}
    (moved : ∀ u, s'.pc u = s.pc u ∧ standing u = w.standing u ∨
      s'.Stands spurious w.content (s'.pc u) (standing u)) :
    s'.WatchedAs spurious ⟨w.content, standing⟩ := by
  refine ⟨watched.models.congr same, fun u => ?_⟩
  rcases moved u with ⟨pc, stays⟩ | stands
  · show s'.Stands spurious w.content (s'.pc u) (standing u)
    rw [pc, stays]
    exact (watched.stands u).quiet (level0.here u) level0.memory same.extends
      (fun a _ => by rw [same.node]) fun c _ => by rw [same.dead]
  · exact stands

/-- Every action, watched. -/
theorem WatchedAs.next {w : Watched T (OrderedMap Key Value) (Op Key Value) (Result Key Value)}
    (watched : s.WatchedAs spurious w) (level0 : s.Level0) {a : Action T Key Value}
    (fair : s.givesUp a = false ∨ spurious) (taken : s.next a = some s') :
    ∃ es w', Steps (Watched.Step (Op.Spec spurious)) w es w' ∧
      observed es = s'.shows a ∧ s'.WatchedAs spurious w' := by
  have level0' := level0.next taken
  -- a thread goes from outside to outside
  have entered : ∀ t (q : State T Key Value) pc, (s.pc t).isIdle = true → Outside pc →
      q.pc = (s.goto t pc).pc → s.SameNodes q → q.WatchedAs spurious w := by
    intro t q pc idle outside atPc same
    refine watched.congr level0 same fun u => ?_
    by_cases isT : u = t
    · subst isT
      refine .inr ?_
      rw [(watched.stands u).idle idle, atPc]
      simpa [State.goto, Stands] using outside
    · exact .inl ⟨by rw [atPc]; simp [State.goto, isT], rfl⟩
  cases a with
  | exit t =>
      simp only [State.next] at taken
      split at taken
      · rename_i enabled
        cases taken
        exact ⟨[], w, .nil w, rfl, entered t _ .exiting enabled.1 trivial rfl ⟨rfl, rfl, rfl⟩⟩
      · cases taken
  | call t op =>
      obtain ⟨idle, atPc, same⟩ : (s.pc t).isIdle = true ∧
          s'.pc = (s.goto t (s.begin t op)).pc ∧ s.SameNodes s' := by
        simp only [State.next] at taken
        split at taken
        · rename_i enabled
          split at taken <;> cases taken <;> exact ⟨enabled.1, rfl, rfl, rfl, rfl⟩
        · cases taken
      have outside := (watched.stands t).idle idle
      by_cases point : op.isPoint = true
      · refine ⟨[.call t op], _, .cons (.call w t op outside) (.nil _), ?_,
          watched.congr level0 same fun u => ?_⟩
        · simp only [shows, point, if_true]
          rfl
        · by_cases isT : u = t
          · subst isT
            refine .inr ?_
            have here : s'.pc u = s.begin u op := by rw [atPc]; simp [State.goto]
            rw [here, Function.update_self]
            refine ⟨fun _ => id, .inl ?_⟩
            cases op with
            | exists_ key | find key | erase key => exact finds_enter rfl
            | insert key value level => exact ⟨level, rfl⟩
            | firstKey | extract what => cases point
          · exact .inl ⟨by rw [atPc]; simp [State.goto, isT], Function.update_of_ne isT ..⟩
      · refine ⟨[], w, .nil w, ?_, entered t s' _ idle ?_ atPc same⟩
        · simp only [shows, point]
          rfl
        · cases op with
          | firstKey | extract what => simp only [begin, enter]; split <;> trivial
          | _ => exact absurd rfl point
  | step t =>
      rcases step_map level0.synced taken with ⟨sys, calls, rfl⟩ | ⟨sys, e, nx, access, rfl⟩
      · have same : s.SameNodes { s with sys := sys } := ⟨rfl, rfl, rfl⟩
        refine ⟨[], w, .nil w, ?_,
          watched.congr level0 same fun u => .inl ⟨rfl, rfl⟩⟩
        have busy : (s.pc t).isIdle = false := by
          cases atPc : s.pc t <;> first | rfl | exact absurd (by rw [atPc]; rfl) calls
        simp [shows, busy, observed]
      · exact watched.access level0 access fair level0'

theorem WatchedAs.run {w : Watched T (OrderedMap Key Value) (Op Key Value) (Result Key Value)}
    {as : List (Action T Key Value)} (watched : s.WatchedAs spurious w) (level0 : s.Level0)
    (fair : Theory.Along State.next (fun s a => s.givesUp a = false ∨ spurious) s as)
    (ran : Theory.run State.next s as = some s') :
    ∃ es w', Steps (Watched.Step (Op.Spec spurious)) w es w' ∧ observed es = s.history as := by
  induction as generalizing s w with
  | nil => exact ⟨[], w, .nil w, rfl⟩
  | cons a rest ih =>
      obtain ⟨mid, taken, ran⟩ := Theory.run_cons_eq_some.1 ran
      obtain ⟨first, w₁, steps, shown, watched₁⟩ := watched.next level0 fair.1 taken
      obtain ⟨second, w₂, steps', shown'⟩ :=
        ih watched₁ (level0.next taken) (fair.2 mid taken) ran
      refine ⟨first ++ second, w₂, steps.append steps', ?_⟩
      rw [observed, List.filter_append, ← observed, ← observed, shown, shown', history, taken]

theorem watchedAs_init : (init : State T Key Value).WatchedAs spurious
    ⟨OrderedMap.empty, fun _ => .idle⟩ := by
  refine ⟨fun x => ⟨fun member => ?_, ?_⟩, fun t => trivial⟩
  · exact absurd member List.not_mem_nil
  · rintro ⟨a, isLinked, -⟩
    cases isLinked

/-- **The map is linearizable**: whatever calls of `insert`, `erase`, `find` and `exists` any
threads make, and however they interleave with each other and with the other calls, the history
of these calls is one of the ordered map that takes each of them in one moment. If no search
gives up its place (`spurious` is false) this is the map of a single thread; in general it is the
one in which a search may miss its key. -/
theorem linearizable (spurious : Prop) {as : List (Action T Key Value)}
    (ran : Theory.run State.next (init : State T Key Value) as = some s)
    (fair : Theory.Along State.next
      (fun s a => s.givesUp a = false ∨ spurious) (init : State T Key Value) as) :
    Linearizable (Op.Spec spurious) OrderedMap.empty ((init : State T Key Value).history as) := by
  obtain ⟨es, w, steps, same⟩ := watchedAs_init.run level0_init fair ran
  rw [← same]
  exact linearizable_of_watched steps

/-- Thread 1 erases 1 while thread 0 inserts 1 and 2 and asks for 2. -/
def eraseBeside : List (Action (Fin 2) Nat Nat) :=
  halfErased ++ Action.call 0 (.exists_ 2) ::
    (List.replicate 19 (Action.step 1) ++ List.replicate 15 (Action.step 0))

/-- No search gives up here. -/
theorem linearizable_beside : ∃ s : State (Fin 2) Nat Nat,
    Theory.run State.next State.init eraseBeside = some s ∧
    (s.result 0, s.result 1) = (.flag true, .flag true) ∧
    Linearizable (Op.Spec False) OrderedMap.empty
      ((init : State (Fin 2) Nat Nat).history eraseBeside) := by
  have played : (Theory.run State.next State.init eraseBeside).map
      (fun s : State (Fin 2) Nat Nat => (s.result 0, s.result 1)) =
        some (.flag true, .flag true) := by decide +kernel
  have fair : Theory.Along State.next
      (fun (s : State (Fin 2) Nat Nat) a => s.givesUp a = false ∨ False) State.init eraseBeside := by
    decide +kernel
  obtain ⟨s, ran, results⟩ := Option.map_eq_some_iff.1 played
  exact ⟨s, ran, results, linearizable False ran fair⟩

end State

end Ccmetrics.SkipList
