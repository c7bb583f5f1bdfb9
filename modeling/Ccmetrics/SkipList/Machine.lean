/-
# SkipList.Machine -- `ConcurrentSkipListMap`, one atomic step at a time

The map is a linked list of nodes in key order (level 0) with index lists above it. A node is
erased by setting the low bit of its `next_[0]`, after which `find` unlinks it. Every member
function is split at its atomic accesses, at its reads of the plain fields of a node, and at
the accesses of the hazard pointers it calls (`Hazard.Sys`).

* `Ptr` is `Node*` with its low bit. Nodes are numbered in the order of their allocation and
  never reused; the first one is `head_`.
* Dereferencing a tagged or a null pointer ends in `fault`. Assertions are off.
* `insert` compares and clamps the plain field `height_` in one step; the level drawn by
  `randomLevel` is part of the call. Any level below `kMaxHeight` may be drawn
  (`allowed_randomLevel`).
* `linked`, `call` and `log` are not in the source and are never read. `linked` says of a node
  that it has been published. `log` has one entry for each call of `insert` and `erase`: how
  often it has made its linking or its level-0 marking exchange, and what it returned.
-/
import Mathlib.Order.Lattice
import Ccmetrics.Theory.Run
import Ccmetrics.Hazard.Pointers

namespace Ccmetrics.SkipList

set_option autoImplicit false
set_option linter.unusedSectionVars false

abbrev Addr := Nat

/-- A `Node*` with its mark. -/
inductive Ptr where
  | null
  | markedNull
  | node (a : Addr)
  | marked (a : Addr)
  deriving DecidableEq

namespace Ptr

instance : Inhabited Ptr := ⟨null⟩

def mark : Ptr → Ptr
  | null => markedNull
  | node a => marked a
  | p => p

def clear : Ptr → Ptr
  | markedNull => null
  | marked a => node a
  | p => p

def marked0 : Ptr → Bool
  | markedNull | marked _ => true
  | _ => false

/-- Levels above 0 treat `0x1` differently. -/
def markedi : Ptr → Bool
  | marked _ => true
  | _ => false

/-- `marked(ptr, level)`. -/
def isMarked (p : Ptr) (level : Nat) : Bool := if level = 0 then p.marked0 else p.markedi

/-- The node behind the mark, if there is one. -/
def target : Ptr → Option Addr
  | node a | marked a => some a
  | _ => none

end Ptr

def kMaxHeight : Nat := 12

structure Node (Key Value : Type) where
  key : Key
  value : Value
  height : Nat
  linkCount : Nat
  next : Nat → Ptr

/-- `mkNode`: level 0 ends here, and marked nulls above it. -/
def mkNode {Key Value : Type} (height : Nat) (key : Key) (value : Value) : Node Key Value where
  key := key
  value := value
  height := height
  linkCount := 0
  next i := if i = 0 then .null else .markedNull

/-- Subtraction from the `uint8_t` link count. -/
def countSub (count k : Nat) : Nat := (count + 256 - k) % 256

def head : Addr := 0

/-- Who called `find(key)`, with the locals alive across the call. -/
inductive Site (Value : Type) where
  | exists_
  | find
  | erase
  | eraseAgain (cur : Addr) (marked0 : Bool)
  | insert (value : Value) (level : Nat)
  | insertAgain (n : Addr) (level : Nat)
  deriving DecidableEq

structure Find (Key Value : Type) where
  key : Key
  site : Site Value
  deriving DecidableEq

/-- The locals of `insert` while it builds the index. -/
structure Index (Key : Type) where
  key : Key
  level : Nat
  n : Addr
  overage : Nat
  deriving DecidableEq

/-- What `extractor` collects. -/
inductive Extract where
  | values
  | entries
  deriving DecidableEq

inductive Item (Key Value : Type) where
  | value (v : Value)
  | entry (k : Key) (v : Value)
  deriving DecidableEq

/-- The function given to `extractor`. -/
def Extract.item {Key Value : Type} (n : Node Key Value) : Extract → Item Key Value
  | .values => .value n.value
  | .entries => .entry n.key n.value

inductive Result (Key Value : Type) where
  | flag (b : Bool)
  | value (v : Option Value)
  | key (k : Key)
  | items (l : List (Item Key Value))
  | exit
  deriving DecidableEq

/-- What follows the last `clearHazard` of a call. -/
inductive Leave (Key Value : Type) where
  | ret (r : Result Key Value)
  | free (n : Addr)
  deriving DecidableEq

/-- What waits for `*smr_.hp`. -/
inductive Start (Key Value : Type) where
  | find (f : Find Key Value)
  | first
  | items (what : Extract)
  deriving DecidableEq

/-- Where a thread stands. -/
inductive PC (Key Value : Type) where
  | idle
  | acquire (start : Start Key Value)
  -- find(key)
  | findHead (f : Find Key Value)
  | findHeight (f : Find Key Value)
  | findCur (f : Find Key Value) (i : Nat) (prev : Addr)
  | findNext (f : Find Key Value) (i : Nat) (prev cur : Addr)
  | findPrev (f : Find Key Value) (i : Nat) (prev cur : Addr) (next : Ptr)
  | findDead (f : Find Key Value) (i : Nat) (prev cur : Addr) (next : Ptr)
  | findKey (f : Find Key Value) (i : Nat) (prev cur : Addr) (next : Ptr)
  | findSetPrev (f : Find Key Value) (i : Nat) (prev : Addr) (next : Ptr)
  | findSetCur (f : Find Key Value) (i : Nat) (prev : Addr) (cur : Ptr)
  | findNexti (f : Find Key Value) (i : Nat) (prev cur : Addr)
  | findUnlink (f : Find Key Value) (i : Nat) (prev cur : Addr) (nexti : Ptr)
  | findDrop (f : Find Key Value) (i : Nat) (prev cur : Addr)
  | findClear (f : Find Key Value) (i : Nat) (prev cur : Addr)
  | findRetire (f : Find Key Value) (i : Nat) (prev cur : Addr)
  | findMatch (f : Find Key Value) (prev : Addr) (cur : Ptr)
  -- find(key, value)
  | findValue (cur : Addr)
  -- erase
  | eraseHeight (key : Key) (cur : Addr)
  | eraseLoad (key : Key) (cur : Addr) (i : Nat) (marked0 : Bool)
  | eraseMark (key : Key) (cur : Addr) (i : Nat) (nexti : Ptr) (marked0 : Bool)
  -- insert
  | insertLevel (key : Key) (value : Value) (level : Nat)
  | insertHazard (key : Key) (level : Nat) (n prev : Addr) (cur : Ptr)
  | insertCount (key : Key) (level : Nat) (n prev : Addr) (cur : Ptr)
  | insertStore (key : Key) (level : Nat) (n prev : Addr) (cur : Ptr)
  | insertLink (key : Key) (level : Nat) (n prev : Addr) (cur : Ptr)
  | insertOverage (key : Key) (level : Nat) (n : Addr)
  | indexCur (x : Index Key) (i : Nat) (prev : Addr)
  | indexKey (x : Index Key) (i : Nat) (prev cur : Addr)
  | indexNext (x : Index Key) (i : Nat) (prev cur : Addr)
  | indexPrev (x : Index Key) (i : Nat) (prev cur : Addr) (next : Ptr)
  | indexSetPrev (x : Index Key) (i : Nat) (prev : Addr) (next : Ptr)
  | indexSetCur (x : Index Key) (i : Nat) (prev : Addr) (cur : Ptr)
  | indexStore (x : Index Key) (i : Nat) (prev : Addr) (cur : Ptr)
  | indexLink (x : Index Key) (i : Nat) (prev : Addr) (cur : Ptr)
  | indexDead (x : Index Key) (i : Nat) (prev : Addr)
  | insertDrop (n : Addr) (overage : Nat)
  | insertRetire (n : Addr)
  -- firstKey
  | firstCur
  | firstKey (cur : Addr)
  -- extractor
  | itemsCur (what : Extract) (ret : List (Item Key Value))
  | itemsRead (what : Extract) (ret : List (Item Key Value)) (prev cur : Addr)
  | itemsNext (what : Extract) (ret : List (Item Key Value)) (prev cur : Addr)
  | itemsAgain (what : Extract) (ret : List (Item Key Value)) (prev : Addr)
  | itemsSetPrev (what : Extract) (ret : List (Item Key Value)) (prev next : Ptr)
  | itemsSetCur (what : Extract) (ret : List (Item Key Value)) (prev cur : Ptr)
  -- the last calls of clearHazard
  | clear (k last : Nat) (leave : Leave Key Value)
  | free (n : Addr)
  -- the thread exits and gives its record back
  | exiting
  | fault
  deriving DecidableEq

section Calls

variable {Key Value : Type}

/-- The call into the hazard pointers that a thread makes at a point. -/
def PC.call : PC Key Value → Option (Hazard.Call Ptr (Addr × Nat))
  | .acquire _ => some .allocate
  | .findHead _ => some (.setHazard 2 (.node head))
  | .findCur _ i prev => some (.loadAndSetHazard (prev, i) 1)
  | .findNext _ i _ cur => some (.loadAndSetHazardOrFail (cur, i) 0)
  | .findSetPrev _ _ prev _ => some (.setHazard 2 (.node prev))
  | .findSetCur _ _ _ cur => some (.setHazard 1 cur.clear)
  | .findClear _ _ _ _ => some (.clearHazard 1)
  | .findRetire _ _ _ cur => some (.retireNode (.node cur))
  | .insertHazard _ _ n _ _ => some (.setHazard 3 (.node n))
  | .indexCur _ i prev => some (.loadAndSetHazard (prev, i) 1)
  | .indexNext _ i _ cur => some (.loadAndSetHazard (cur, i) 0)
  | .indexSetPrev _ _ prev _ => some (.setHazard 2 (.node prev))
  | .indexSetCur _ _ _ cur => some (.setHazard 1 cur)
  | .insertRetire n => some (.retireNode (.node n))
  | .firstCur => some (.loadAndSetHazard (head, 0) 1)
  | .itemsCur _ _ => some (.loadAndSetHazard (head, 0) 1)
  | .itemsNext _ _ _ cur => some (.loadAndSetHazard (cur, 0) 0)
  | .itemsAgain _ _ prev => some (.loadAndSetHazard (prev, 0) 1)
  | .itemsSetPrev _ _ prev _ => some (.setHazard 2 prev)
  | .itemsSetCur _ _ _ cur => some (.setHazard 1 cur)
  | .clear k _ _ => some (.clearHazard k)
  | .exiting => some .retire
  | _ => none

end Calls

/-- One call of `insert` or `erase`. -/
structure Update (Key : Type) where
  inserts : Bool
  key : Key
  swaps : Nat
  returned : Option Bool
  deriving DecidableEq

structure State (T Key Value : Type) where
  sys : Hazard.Sys T Ptr (Addr × Nat)
  node : Addr → Node Key Value
  fresh : Addr
  height : Nat
  freed : List Addr
  pc : T → PC Key Value
  result : T → Result Key Value
  linked : Addr → Bool
  call : T → Option Nat
  log : List (Update Key)

/-- What one step does to the nodes. -/
inductive Effect (Key Value : Type) where
  | none
  | height (h : Nat)
  | create (height : Nat) (key : Key) (value : Value)
  | count (n : Addr)
  | store (n : Addr) (i : Nat) (p : Ptr)
  | link (prev n : Addr)
  | index (prev : Addr) (i : Nat) (n : Addr)
  | mark (cur : Addr) (i : Nat) (nexti : Ptr)
  | unlink (prev : Addr) (i : Nat) (p : Ptr)
  | drop (n : Addr) (k : Nat)
  | free (n : Addr)
  deriving DecidableEq

inductive Next (Key Value : Type) where
  | goto (pc : PC Key Value)
  | ret (r : Result Key Value)

/-- A member function of the map. The level of `insert` is what `randomLevel` draws. -/
inductive Op (Key Value : Type) where
  | exists_ (key : Key)
  | find (key : Key)
  | erase (key : Key)
  | insert (key : Key) (value : Value) (level : Nat)
  | firstKey
  | extract (what : Extract)
  deriving DecidableEq

inductive Action (T Key Value : Type) where
  | call (t : T) (op : Op Key Value)
  | exit (t : T)
  | step (t : T)
  deriving DecidableEq

section Control

variable {Key Value : Type} [Inhabited Key]

/-- The log entry of a call. -/
def Op.update : Op Key Value → Option (Update Key)
  | .insert key _ _ => some ⟨true, key, 0, none⟩
  | .erase key => some ⟨false, key, 0, none⟩
  | _ => none

/-- The loop of `randomLevel`. -/
def randomLevelLoop (r : BitVec 64) (level : Nat) : Nat :=
  if level < kMaxHeight - 1 ∧ r.sshiftRight 1 &&& 1 ≠ 0 then
    randomLevelLoop (r.sshiftRight 1) (level + 1)
  else level
termination_by kMaxHeight - level

/-- `randomLevel`, for the number it has drawn. -/
def randomLevel (r : BitVec 64) : Nat := randomLevelLoop r 0

theorem randomLevelLoop_lt {r : BitVec 64} {level : Nat} (below : level < kMaxHeight) :
    randomLevelLoop r level < kMaxHeight := by
  fun_induction randomLevelLoop r level with
  | case1 r level continues ih => exact ih (by omega)
  | case2 r level stops => exact below

def Op.allowed : Op Key Value → Bool
  | .insert _ _ level => decide (level < kMaxHeight)
  | _ => true

/-- Whatever number is drawn for an `insert`, its level is allowed. -/
theorem allowed_randomLevel (key : Key) (value : Value) (r : BitVec 64) :
    (Op.insert key value (randomLevel r)).allowed = true :=
  decide_eq_true (randomLevelLoop_lt (by decide))

def PC.isIdle : PC Key Value → Bool
  | .idle => true
  | _ => false

/-- The loop over the levels of `find`: level `i` is done. -/
def findDown (f : Find Key Value) (i : Nat) (prev : Addr) (cur : Ptr) : PC Key Value :=
  if i = 0 then .findMatch f prev cur else .findCur f (i - 1) prev

/-- The top of the inner loop of `find`. -/
def findLoop (f : Find Key Value) (i : Nat) (prev : Addr) : Ptr → PC Key Value
  | .node cur => .findNext f i prev cur
  | .marked _ => .fault
  | cur => findDown f i prev cur

/-- The loop over the levels of the index in `insert`. -/
def indexLevel (x : Index Key) (prev : Addr) : Nat → PC Key Value
  | 0 => if 0 < x.overage then .insertDrop x.n x.overage else .clear 0 3 (.ret (.flag true))
  | i => .indexCur x i prev

/-- `exit:` of `insert`. -/
def indexExit (x : Index Key) : PC Key Value := indexLevel x head 0

/-- The end of the inner loop of `insert`. -/
def indexHere (x : Index Key) (i : Nat) (prev : Addr) (cur : Ptr) : PC Key Value :=
  if i ≤ x.level then .indexStore x i prev cur else .indexDead x i prev

/-- The test of the inner loop of `insert`. -/
def indexWhile (x : Index Key) (i : Nat) (prev : Addr) : Ptr → PC Key Value
  | .null => indexHere x i prev .null
  | .node cur => .indexKey x i prev cur
  | _ => .fault

/-- The top of the loop of `extractor`. -/
def itemsLoop (what : Extract) (ret : List (Item Key Value)) (prev : Ptr) :
    Ptr → PC Key Value
  | .null => .clear 0 2 (.ret (.items ret))
  | .node cur =>
      match prev with
      | .node prev => .itemsRead what ret prev cur
      | _ => .fault
  | _ => .fault

/-- After the inner loop of `extractor`: `prev = cur`, `cur = next`. -/
def itemsNextOf (what : Extract) (ret : List (Item Key Value)) (prev : Addr) (cur next : Ptr) :
    PC Key Value :=
  if next.marked0 then .itemsAgain what ret prev else .itemsSetPrev what ret cur next

def Leave.next : Leave Key Value → Next Key Value
  | .ret r => .ret r
  | .free n => .goto (.free n)

def Start.pc : Start Key Value → PC Key Value
  | .find f => .findHead f
  | .first => .firstCur
  | .items what => .itemsCur what []

/-- Where a thread goes on when its call into the hazard pointers has returned. -/
def resume : PC Key Value → Hazard.Ret Ptr → Next Key Value
  | .acquire start, .record _ => .goto start.pc
  | .findHead f, .unit => .goto (.findHeight f)
  | .findCur f i prev, .value cur =>
      if cur.isMarked i then .goto (.findHead f) else .goto (findLoop f i prev cur)
  | .findNext f _ _ _, .fail => .goto (.findHead f)
  | .findNext f i prev cur, .value next => .goto (.findPrev f i prev cur next)
  | .findSetPrev f i prev next, .unit => .goto (.findSetCur f i prev next)
  | .findSetCur f i prev cur, .unit => .goto (findLoop f i prev cur)
  | .findClear f i prev cur, .unit => .goto (.findRetire f i prev cur)
  | .findRetire f i prev _, .unit => .goto (findDown f i prev .null)
  | .insertHazard key level n prev cur, .unit => .goto (.insertCount key level n prev cur)
  | .indexCur x i prev, .value cur =>
      if cur.marked0 then .goto (indexExit x) else .goto (indexWhile x i prev cur)
  | .indexNext x i prev cur, .value next =>
      if next.markedi then .goto (indexExit x) else .goto (.indexPrev x i prev cur next)
  | .indexSetPrev x i prev next, .unit => .goto (.indexSetCur x i prev next)
  | .indexSetCur x i prev cur, .unit => .goto (indexWhile x i prev cur)
  | .insertRetire _, .unit => .goto (.clear 0 3 (.ret (.flag true)))
  | .firstCur, .value cur =>
      match cur with
      | .null => .goto (.clear 1 1 (.ret (.key default)))
      | .node cur => .goto (.firstKey cur)
      | _ => .goto .firstCur
  | .itemsCur what ret, .value cur => .goto (itemsLoop what ret (.node head) cur)
  | .itemsNext what ret prev cur, .value next =>
      .goto (itemsNextOf what ret prev (.node cur) next)
  | .itemsAgain what ret prev, .value cur =>
      match cur with
      | .null => .goto (itemsNextOf what ret prev .null .null)
      | .node cur => .goto (.itemsNext what ret prev cur)
      | _ => .goto (.itemsCur what ret)
  | .itemsSetPrev what ret prev next, .unit => .goto (.itemsSetCur what ret prev next)
  | .itemsSetCur what ret prev cur, .unit => .goto (itemsLoop what ret prev cur)
  | .clear k last leave, .unit =>
      if k = last then leave.next else .goto (.clear (k + 1) last leave)
  | .exiting, .released => .ret .exit
  | _, _ => .goto .fault

end Control

namespace State

variable {T Key Value : Type} [DecidableEq T] [LinearOrder Key] [Inhabited Key] [Inhabited Value]

/-- `*smr_.hp`: the thread's record, allocated at its first use. -/
def enter (s : State T Key Value) (t : T) (start : Start Key Value) : PC Key Value :=
  if (s.sys.own t).isSome then start.pc else .acquire start

/-- `find(key)` returns `{prev, cur, next, match}` to its caller. -/
def found (s : State T Key Value) (f : Find Key Value) (prev : Addr) (cur : Ptr) (hit : Bool) :
    Effect Key Value × Next Key Value :=
  match f.site with
  | .exists_ => (.none, .goto (.clear 0 2 (.ret (.flag hit))))
  | .find =>
      match hit, cur with
      | true, .node cur => (.none, .goto (.findValue cur))
      | _, _ => (.none, .goto (.clear 0 2 (.ret (.value none))))
  | .erase =>
      match hit, cur with
      | true, .node cur => (.none, .goto (.eraseHeight f.key cur))
      | _, _ => (.none, .ret (.flag false))
  | .eraseAgain _ marked0 => (.none, .goto (.clear 0 2 (.ret (.flag marked0))))
  | .insert value level =>
      if hit then (.none, .ret (.flag false))
      else (.create (level + 1) f.key value, .goto (.insertHazard f.key level s.fresh prev cur))
  | .insertAgain n level =>
      if hit then (.none, .goto (.clear 0 3 (.free n)))
      else (.none, .goto (.insertStore f.key level n prev cur))

/-- The next level of the marking loop of `erase`, or the second `find`. -/
def eraseDown (s : State T Key Value) (t : T) (key : Key) (cur : Addr) (i : Nat)
    (marked0 : Bool) : PC Key Value :=
  if i = 0 then s.enter t (.find ⟨key, .eraseAgain cur marked0⟩)
  else .eraseLoad key cur (i - 1) marked0

/-- The next access of a thread that is not inside the hazard pointers. -/
def plan (s : State T Key Value) (t : T) :
    PC Key Value → Option (Effect Key Value × Next Key Value)
  | .findHeight f => some (.none, .goto (.findCur f s.height head))
  | .findPrev f i prev cur next =>
      if (s.node prev).next i ≠ .node cur then some (.none, .goto (.findHead f))
      else if next.isMarked i then some (.none, .goto (.findNexti f i prev cur))
      else some (.none, .goto (.findDead f i prev cur next))
  | .findDead f i prev cur next =>
      if ((s.node cur).next 0).marked0 then some (.none, .goto (.findNexti f i prev cur))
      else some (.none, .goto (.findKey f i prev cur next))
  | .findKey f i prev cur next =>
      if f.key ≤ (s.node cur).key then some (.none, .goto (findDown f i prev (.node cur)))
      else some (.none, .goto (.findSetPrev f i cur next))
  | .findNexti f i prev cur =>
      some (.none, .goto (.findUnlink f i prev cur ((s.node cur).next i)))
  | .findUnlink f i prev cur nexti =>
      if (s.node prev).next i = .node cur then
        some (.unlink prev i nexti.clear, .goto (.findDrop f i prev cur))
      else some (.none, .goto (.findHead f))
  | .findDrop f i prev cur =>
      if countSub (s.node cur).linkCount 1 = 0 then
        some (.drop cur 1, .goto (.findClear f i prev cur))
      else some (.drop cur 1, .goto (findDown f i prev .null))
  | .findMatch f prev cur =>
      match cur with
      | .null => some (s.found f prev .null false)
      | .node c => some (s.found f prev (.node c) (decide ((s.node c).key = f.key)))
      | _ => some (.none, .goto .fault)
  | .findValue cur =>
      some (.none, .goto (.clear 0 2 (.ret (.value (some (s.node cur).value)))))
  | .eraseHeight key cur =>
      match (s.node cur).height with
      | 0 => some (.none, .goto (s.eraseDown t key cur 0 false))
      | i + 1 => some (.none, .goto (.eraseLoad key cur i false))
  | .eraseLoad key cur i marked0 =>
      some (.none, .goto (.eraseMark key cur i ((s.node cur).next i) marked0))
  | .eraseMark key cur i nexti marked0 =>
      if (s.node cur).next i = nexti then
        let marked0 := if i = 0 ∧ nexti = nexti.clear then true else marked0
        some (.mark cur i nexti, .goto (s.eraseDown t key cur i marked0))
      else some (.none, .goto (.eraseLoad key cur i marked0))
  | .insertLevel key value level =>
      -- clamp growth to +1
      if s.height < level then
        some (.height (s.height + 1),
          .goto (s.enter t (.find ⟨key, .insert value (s.height + 1)⟩)))
      else some (.none, .goto (s.enter t (.find ⟨key, .insert value level⟩)))
  | .insertCount key level n prev cur =>
      some (.count n, .goto (.insertStore key level n prev cur))
  | .insertStore key level n prev cur =>
      some (.store n 0 cur, .goto (.insertLink key level n prev cur))
  | .insertLink key level n prev cur =>
      if (s.node prev).next 0 = cur then
        some (.link prev n, .goto (.insertOverage key level n))
      else some (.none, .goto (s.enter t (.find ⟨key, .insertAgain n level⟩)))
  | .insertOverage key level n =>
      let x : Index Key := ⟨key, level, n, (s.node n).height - 1⟩
      some (.none, .goto (indexLevel x head (max level s.height)))
  | .indexKey x i prev cur =>
      if (s.node cur).key < x.key then some (.none, .goto (.indexNext x i prev cur))
      else some (.none, .goto (indexHere x i prev (.node cur)))
  | .indexPrev x i prev cur next =>
      if (s.node prev).next i ≠ .node cur then some (.none, .goto (indexExit x))
      else some (.none, .goto (.indexSetPrev x i cur next))
  | .indexStore x i prev cur => some (.store x.n i cur, .goto (.indexLink x i prev cur))
  | .indexLink x i prev cur =>
      if (s.node prev).next i = cur then
        some (.index prev i x.n, .goto (.indexDead { x with overage := x.overage - 1 } i prev))
      else some (.none, .goto (indexExit x))
  | .indexDead x i prev =>
      if ((s.node x.n).next 0).marked0 then some (.none, .goto (indexExit x))
      else some (.none, .goto (indexLevel x prev (i - 1)))
  | .insertDrop n overage =>
      if countSub (s.node n).linkCount overage = 0 then
        some (.drop n overage, .goto (.insertRetire n))
      else some (.drop n overage, .goto (.clear 0 3 (.ret (.flag true))))
  | .firstKey cur => some (.none, .goto (.clear 1 1 (.ret (.key (s.node cur).key))))
  | .itemsRead what ret prev cur =>
      some (.none, .goto (.itemsNext what (ret ++ [what.item (s.node cur)]) prev cur))
  | .free n => some (.free n, .ret (.flag false))
  | _ => none

/-- Rewrite one node. -/
def modify (s : State T Key Value) (a : Addr) (f : Node Key Value → Node Key Value) :
    State T Key Value :=
  { s with node := fun x => if x = a then f (s.node x) else s.node x }

/-- Store a pointer in `next_[i]` of a node. -/
def setNext (s : State T Key Value) (a : Addr) (i : Nat) (p : Ptr) : State T Key Value :=
  s.modify a fun n => { n with next := fun j => if j = i then p else n.next j }

/-- The running call of `insert` or `erase` has made its exchange. -/
def swapped (s : State T Key Value) (t : T) : State T Key Value :=
  match s.call t with
  | some i => { s with log := s.log.modify i fun e => { e with swaps := e.swaps + 1 } }
  | none => s

def apply (s : State T Key Value) (t : T) : Effect Key Value → State T Key Value
  | .none => s
  | .height h => { s with height := h }
  | .create height key value =>
      { s with
        node := fun x => if x = s.fresh then mkNode height key value else s.node x
        fresh := s.fresh + 1 }
  | .count n => s.modify n fun n => { n with linkCount := n.height }
  | .store n i p => s.setNext n i p
  | .link prev n =>
      { (s.setNext prev 0 (.node n)).swapped t with
        linked := fun x => if x = n then true else s.linked x }
  | .index prev i n => s.setNext prev i (.node n)
  | .mark cur i nexti =>
      let s' := s.setNext cur i nexti.mark
      if i = 0 ∧ nexti = nexti.clear then s'.swapped t else s'
  | .unlink prev i p => s.setNext prev i p
  | .drop n k => s.modify n fun n => { n with linkCount := countSub n.linkCount k }
  | .free n => { s with freed := n :: s.freed }

/-- Go to a point, and into the hazard pointers if a call is made there. -/
def goto (s : State T Key Value) (t : T) (pc : PC Key Value) : State T Key Value :=
  { s with
    pc := fun u => if u = t then pc else s.pc u
    sys := match pc.call with
      | some c => s.sys.call t c
      | none => s.sys }

/-- Leave the map; the log notes what `insert` and `erase` return. -/
def ret (s : State T Key Value) (t : T) (r : Result Key Value) : State T Key Value :=
  { s.goto t .idle with
    result := fun u => if u = t then r else s.result u
    call := fun u => if u = t then none else s.call u
    log := match s.call t, r with
      | some i, .flag b => s.log.modify i fun e => { e with returned := some b }
      | _, _ => s.log }

def after (s : State T Key Value) (t : T) : Next Key Value → State T Key Value
  | .goto pc => s.goto t pc
  | .ret r => s.ret t r

/-- The first point of a call. -/
def begin (s : State T Key Value) (t : T) : Op Key Value → PC Key Value
  | .exists_ key => s.enter t (.find ⟨key, .exists_⟩)
  | .find key => s.enter t (.find ⟨key, .find⟩)
  | .erase key => s.enter t (.find ⟨key, .erase⟩)
  | .insert key value level => .insertLevel key value level
  | .firstKey => s.enter t .first
  | .extract what => s.enter t (.items what)

/-- `ConcurrentSkipListMap()`. -/
def init : State T Key Value where
  sys := .init
  node _ := mkNode kMaxHeight default default
  fresh := 1
  height := 0
  freed := []
  pc _ := .idle
  result _ := .exit
  linked _ := false
  call _ := none
  log := []

/-- The pointer in a cell `next_[i]`. -/
def cell (s : State T Key Value) (c : Addr × Nat) : Ptr := (s.node c.1).next c.2

/-- One access of thread `t`: inside the hazard pointers, or of its own. -/
def step (s : State T Key Value) (t : T) : Option (State T Key Value) :=
  match s.sys.step 4 s.cell t with
  | some (sys, none) => some { s with sys := sys }
  | some (sys, some r) => some ({ s with sys := sys }.after t (resume (s.pc t) r))
  | none =>
      match s.plan t (s.pc t) with
      | some (e, nx) => some ((s.apply t e).after t nx)
      | none => none

/-- What happens when an action is taken; `none` if it cannot be taken. -/
def next (s : State T Key Value) : Action T Key Value → Option (State T Key Value)
  | .call t op =>
      if (s.pc t).isIdle = true ∧ op.allowed = true then
        match op.update with
        | some e =>
            some { s.goto t (s.begin t op) with
              call := fun u => if u = t then some s.log.length else s.call u
              log := s.log ++ [e] }
        | none => some (s.goto t (s.begin t op))
      else none
  | .exit t =>
      if (s.pc t).isIdle = true ∧ (s.sys.own t).isSome = true then some (s.goto t .exiting) else none
  | .step t => s.step t

end State

end Ccmetrics.SkipList
