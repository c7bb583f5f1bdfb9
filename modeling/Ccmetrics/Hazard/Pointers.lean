/-
# Hazard.Pointers -- `hazard_pointers.h`, one atomic step at a time

`HazardPointers<T, K>` keeps a lock-free list of records. A record has `K` slots in which
its owner announces the pointers it is about to dereference, a flag `active_`, and the list
of nodes its owner has retired but not yet deleted.

The member functions are split at their atomic accesses. `PC` names the points between two
accesses, with the local variables alive there; `plan` says, for each point, what the next
access does to shared memory (`Effect`) and where control goes. A read or a write of a
field that no other thread can touch at that moment is folded into the neighbouring access.

* `P` is `T*`; its `default` is `nullptr`. `C` names the atomic cells that
  `loadAndSetHazard` may be pointed at, read through `rd : C → P`.
* `this` is the record a member function was called on.
* `hp_count_` is an `int32_t`, and `hpCount` counts on without end: what is proved is about
  fewer than `2^31` records.
* Two pieces of bookkeeping are not in the source and are never read by `plan`: `retired`
  logs the arguments of `retireNode`, and `held` says of a slot that what it holds is
  covered: it was written there before that node was retired, or copied up from a covered
  slot with a smaller index that still held it.
-/
import Mathlib.Data.List.Basic

namespace Ccmetrics.Hazard

set_option autoImplicit false

/-- One `HazardPointer<T, K>`. -/
structure HazardPointer (P : Type) where
  pointers : Nat → P
  next : Option Nat
  active : Bool
  retireList : List P

/-- The record list `HazardPointers<T, K>`. Records are numbered in the order of their
allocation; `fresh` is the next number. `deleted` logs what `scan` has deleted. -/
structure HazardPointers (P : Type) where
  head : Option Nat
  hpCount : Nat
  record : Nat → HazardPointer P
  fresh : Nat
  deleted : List P

/-- Where a thread stands inside a member function. -/
inductive PC (P C : Type) where
  | idle
  -- HazardPointers::allocate
  | allocHead
  | allocActive (hp : Nat)
  | allocLock (hp : Nat)
  | allocCount
  | allocNew
  | allocNext (hp : Nat)
  | allocPush (hp : Nat) (oldhead : Option Nat)
  -- HazardPointers::retire
  | retireSlot (this i : Nat)
  -- setHazard, clearHazard
  | setSlot (this k : Nat) (value : P)
  -- loadAndSetHazard, and loadAndSetHazardOrFail when `once`
  | load (this : Nat) (once : Bool) (c : C) (k : Nat)
  | loadSet (this : Nat) (once : Bool) (c : C) (k : Nat) (cur : P)
  | loadCheck (this : Nat) (once : Bool) (c : C) (k : Nat) (cur : P)
  | loadClear (this k : Nat)
  -- retireNode
  | push (this : Nat) (node : P)
  | should (this : Nat)
  -- scan; `helping` is the record helpScan is draining, if it was called from there
  | scanHead (this : Nat) (helping : Option Nat)
  | scanSlot (this : Nat) (helping : Option Nat) (hp i : Nat) (live : List P)
  | sweep (this : Nat) (helping : Option Nat) (live : List P) (i : Nat)
  -- helpScan
  | helpHead (this : Nat)
  | helpLock (this hp : Nat)
  | helpDrain (this hp : Nat)
  | helpShould (this hp : Nat)
  | helpUnlock (this hp : Nat)
  deriving DecidableEq

/-- What a member function hands back. -/
inductive Ret (P : Type) where
  | unit
  | record (hp : Nat)
  | released
  | value (p : P)
  | fail
  deriving DecidableEq

/-- What one access does to shared memory. -/
inductive Effect (P : Type) where
  | none
  | lock (hp : Nat)
  | unlock (hp : Nat)
  | count
  | create
  | setNext (hp : Nat) (next : Option Nat)
  | setHead (hp : Nat)
  | slot (hp k : Nat) (value : P)
  | push (hp : Nat) (node : P)
  | move (hp this : Nat)
  | delete (this i : Nat)

/-- Where control goes after an access. -/
inductive Next (P C : Type) where
  | goto (pc : PC P C)
  | ret (r : Ret P)

section Plan

variable {P C : Type} [DecidableEq P] [Inhabited P]

/-- `HazardPointer(owner)`, with `active_` already stored. -/
def HazardPointer.new : HazardPointer P where
  pointers _ := default
  next := .none
  active := true
  retireList := []

/-- `HazardPointer::shouldScan`: `retire_list_.size() >= hp_count_ * K * (1 + 0.25)`. -/
def shouldScan (K : Nat) (h : HazardPointers P) (this : Nat) : Bool :=
  decide (5 * (h.hpCount * K) ≤ 4 * (h.record this).retireList.length)

/-- The walk of `allocate`: try the next record, or make a new one. -/
def walkAlloc : Option Nat → Next P C
  | some hp => .goto (.allocActive hp)
  | .none => .goto .allocCount

/-- Phase 1 of `scan`: the next record, or on to phase 2. -/
def walkScan (this : Nat) (helping : Option Nat) (live : List P) : Option Nat → PC P C
  | some hp => .scanSlot this helping hp 0 live
  | .none => .sweep this helping live 0

/-- `scan` returns: into `retireNode`, which goes on to `helpScan`, or into `helpScan`. -/
def afterScan (this : Nat) : Option Nat → PC P C
  | some hp => .helpDrain this hp
  | .none => .helpHead this

/-- The walk of `helpScan`. -/
def walkHelp (this : Nat) : Option Nat → Next P C
  | some hp => .goto (.helpLock this hp)
  | .none => .ret .unit

/-- `std::swap(*iter, retire_list_.back()); retire_list_.pop_back()`. -/
def swapPop (l : List P) (i : Nat) : List P :=
  (l.set i (l.getLastD default)).dropLast

/-- The next access of a thread, and where control goes after it. -/
def plan (K : Nat) (rd : C → P) (h : HazardPointers P) :
    PC P C → Option (Effect P × Next P C)
  | .idle => none
  | .allocHead => some (.none, walkAlloc h.head)
  | .allocActive hp =>
      if (h.record hp).active then some (.none, walkAlloc (h.record hp).next)
      else some (.none, .goto (.allocLock hp))
  | .allocLock hp =>
      if (h.record hp).active then some (.none, walkAlloc (h.record hp).next)
      else some (.lock hp, .ret (.record hp))
  | .allocCount => some (.count, .goto .allocNew)
  | .allocNew => some (.create, .goto (.allocNext h.fresh))
  | .allocNext hp => some (.setNext hp h.head, .goto (.allocPush hp h.head))
  | .allocPush hp oldhead =>
      if h.head = oldhead then some (.setHead hp, .ret (.record hp))
      else some (.none, .goto (.allocNext hp))
  | .retireSlot this i =>
      if i < K then some (.slot this i default, .goto (.retireSlot this (i + 1)))
      else some (.unlock this, .ret .released)
  | .setSlot this k value => some (.slot this k value, .ret .unit)
  | .load this once c k => some (.none, .goto (.loadSet this once c k (rd c)))
  | .loadSet this once c k cur =>
      some (.slot this k cur, .goto (.loadCheck this once c k cur))
  | .loadCheck this once c k cur =>
      if cur = rd c then some (.none, .ret (.value cur))
      else if once then some (.none, .goto (.loadClear this k))
      else some (.none, .goto (.load this once c k))
  | .loadClear this k => some (.slot this k default, .ret .fail)
  | .push this node => some (.push this node, .goto (.should this))
  | .should this =>
      if shouldScan K h this then some (.none, .goto (.scanHead this none))
      else some (.none, .ret .unit)
  | .scanHead this helping => some (.none, .goto (walkScan this helping [] h.head))
  | .scanSlot this helping hp i live =>
      if i < K then
        let node := (h.record hp).pointers i
        let live := if node = default then live else node :: live
        some (.none, .goto (.scanSlot this helping hp (i + 1) live))
      else some (.none, .goto (walkScan this helping live (h.record hp).next))
  | .sweep this helping live i =>
      match (h.record this).retireList[i]? with
      | none => some (.none, .goto (afterScan this helping))
      | some node =>
          if node ∈ live then some (.none, .goto (.sweep this helping live (i + 1)))
          else if i + 1 = (h.record this).retireList.length then
            some (.delete this i, .goto (afterScan this helping))
          else some (.delete this i, .goto (.sweep this helping live i))
  | .helpHead this => some (.none, walkHelp this h.head)
  | .helpLock this hp =>
      if hp = this then some (.none, walkHelp this (h.record hp).next)
      else if (h.record hp).active then some (.none, walkHelp this (h.record hp).next)
      else some (.lock hp, .goto (.helpDrain this hp))
  | .helpDrain this hp =>
      if (h.record hp).retireList = [] then some (.none, .goto (.helpUnlock this hp))
      else some (.move hp this, .goto (.helpShould this hp))
  | .helpShould this hp =>
      if shouldScan K h this then some (.none, .goto (.scanHead this (some hp)))
      else some (.none, .goto (.helpDrain this hp))
  | .helpUnlock this hp => some (.unlock hp, walkHelp this (h.record hp).next)

/-- Rewrite one record. -/
def HazardPointers.modify (h : HazardPointers P) (hp : Nat)
    (f : HazardPointer P → HazardPointer P) : HazardPointers P :=
  { h with record := fun r => if r = hp then f (h.record r) else h.record r }

def HazardPointers.apply (h : HazardPointers P) : Effect P → HazardPointers P
  | .none => h
  | .lock hp => h.modify hp fun r => { r with active := true }
  | .unlock hp => h.modify hp fun r => { r with active := false }
  | .count => { h with hpCount := h.hpCount + 1 }
  | .create => { h.modify h.fresh fun _ => .new with fresh := h.fresh + 1 }
  | .setNext hp next => h.modify hp fun r => { r with next := next }
  | .setHead hp => { h with head := some hp }
  | .slot hp k value =>
      h.modify hp fun r => { r with pointers := fun i => if i = k then value else r.pointers i }
  | .push hp node => h.modify hp fun r => { r with retireList := r.retireList ++ [node] }
  | .move hp this =>
      let node := (h.record hp).retireList.getLastD default
      (h.modify hp fun r => { r with retireList := r.retireList.dropLast }).modify this
        fun r => { r with retireList := r.retireList ++ [node] }
  | .delete this i =>
      { h.modify this fun r => { r with retireList := swapPop r.retireList i } with
        deleted := h.deleted ++ [(h.record this).retireList.getD i default] }

end Plan

/-- The record list together with where every thread stands in its member functions. -/
structure Sys (T P C : Type) where
  pool : HazardPointers P
  own : T → Option Nat
  pc : T → PC P C
  retired : List P
  held : Nat → Nat → Bool

/-- A call of a member function. -/
inductive Call (P C : Type) where
  | allocate
  | retire
  | setHazard (k : Nat) (value : P)
  | loadAndSetHazard (c : C) (k : Nat)
  | loadAndSetHazardOrFail (c : C) (k : Nat)
  | retireNode (node : P)
  deriving DecidableEq

namespace Call

variable {P C : Type}

/-- `clearHazard(k)` stores the null pointer. -/
def clearHazard [Inhabited P] (k : Nat) : Call P C := .setHazard k default

/-- The first access of a call on the record `this`. -/
def entry (this : Nat) : Call P C → PC P C
  | .allocate => .allocHead
  | .retire => .retireSlot this 0
  | .setHazard k value => .setSlot this k value
  | .loadAndSetHazard c k => .load this false c k
  | .loadAndSetHazardOrFail c k => .load this true c k
  | .retireNode node => .push this node

end Call

namespace Sys

variable {T P C : Type} [DecidableEq T] [DecidableEq P] [Inhabited P]

/-- No records and no threads inside a member function. -/
def init : Sys T P C where
  pool := { head := none, hpCount := 0, record := fun _ => .new, fresh := 0, deleted := [] }
  own _ := none
  pc _ := .idle
  retired := []
  held _ _ := true

def slot (s : Sys T P C) (hp k : Nat) : P := (s.pool.record hp).pointers k

/-- Whether writing `value` to slot `k` leaves that slot covered. -/
def covers (s : Sys T P C) (hp k : Nat) (value : P) : Bool :=
  decide (value ∉ s.retired) || (s.held hp k && decide (s.slot hp k = value)) ||
    (List.range k).any fun i => s.held hp i && decide (s.slot hp i = value)

def apply (s : Sys T P C) (e : Effect P) : Sys T P C :=
  { s with
    pool := s.pool.apply e
    held := match e with
      | .slot hp k value => fun r i => if r = hp ∧ i = k then s.covers hp k value else s.held r i
      | _ => s.held }

def goto (s : Sys T P C) (t : T) (pc : PC P C) : Sys T P C :=
  { s with pc := fun u => if u = t then pc else s.pc u }

/-- A returning call leaves the thread outside; `allocate` and `retire` change its record. -/
def finish (s : Sys T P C) (t : T) (r : Ret P) : Sys T P C :=
  { s.goto t .idle with
    own := match r with
      | .record hp => fun u => if u = t then some hp else s.own u
      | .released => fun u => if u = t then none else s.own u
      | _ => s.own }

/-- One access of thread `t`, with what its call returns if that was the last one. -/
def step (K : Nat) (rd : C → P) (s : Sys T P C) (t : T) : Option (Sys T P C × Option (Ret P)) :=
  match plan K rd s.pool (s.pc t) with
  | none => none
  | some (e, .goto pc) => some ((s.apply e).goto t pc, none)
  | some (e, .ret r) => some ((s.apply e).finish t r, some r)

/-- Thread `t` enters a member function of its own record. -/
def call (s : Sys T P C) (t : T) (c : Call P C) : Sys T P C :=
  { s.goto t (c.entry ((s.own t).getD 0)) with
    retired := match c with
      | .retireNode node => node :: s.retired
      | _ => s.retired }

end Sys

/-! ## The graph of `plan`

`Access` lists what the next access of a thread can be, one rule for each branch of `plan`.
Every invariant below is a case analysis over these rules. -/

section Access

variable {P C : Type} [DecidableEq P] [Inhabited P]

inductive Access (K : Nat) (rd : C → P) (h : HazardPointers P) :
    PC P C → Effect P → Next P C → Prop
  | allocHead : Access K rd h .allocHead .none (walkAlloc h.head)
  | allocBusy (hp) : (h.record hp).active = true →
      Access K rd h (.allocActive hp) .none (walkAlloc (h.record hp).next)
  | allocFree (hp) : (h.record hp).active = false →
      Access K rd h (.allocActive hp) .none (.goto (.allocLock hp))
  | allocLost (hp) : (h.record hp).active = true →
      Access K rd h (.allocLock hp) .none (walkAlloc (h.record hp).next)
  | allocWon (hp) : (h.record hp).active = false →
      Access K rd h (.allocLock hp) (.lock hp) (.ret (.record hp))
  | allocCount : Access K rd h .allocCount .count (.goto .allocNew)
  | allocNew : Access K rd h .allocNew .create (.goto (.allocNext h.fresh))
  | allocNext (hp) :
      Access K rd h (.allocNext hp) (.setNext hp h.head) (.goto (.allocPush hp h.head))
  | allocPushed (hp) : Access K rd h (.allocPush hp h.head) (.setHead hp) (.ret (.record hp))
  | allocAgain (hp oldhead) : h.head ≠ oldhead →
      Access K rd h (.allocPush hp oldhead) .none (.goto (.allocNext hp))
  | retireClear (this i) : i < K →
      Access K rd h (.retireSlot this i) (.slot this i default) (.goto (.retireSlot this (i + 1)))
  | retireDone (this i) : ¬ i < K →
      Access K rd h (.retireSlot this i) (.unlock this) (.ret .released)
  | setSlot (this k value) :
      Access K rd h (.setSlot this k value) (.slot this k value) (.ret .unit)
  | load (this once c k) :
      Access K rd h (.load this once c k) .none (.goto (.loadSet this once c k (rd c)))
  | loadSet (this once c k cur) :
      Access K rd h (.loadSet this once c k cur) (.slot this k cur)
        (.goto (.loadCheck this once c k cur))
  | loadSame (this once c k) :
      Access K rd h (.loadCheck this once c k (rd c)) .none (.ret (.value (rd c)))
  | loadGone (this c k cur) : cur ≠ rd c →
      Access K rd h (.loadCheck this true c k cur) .none (.goto (.loadClear this k))
  | loadAgain (this c k cur) : cur ≠ rd c →
      Access K rd h (.loadCheck this false c k cur) .none (.goto (.load this false c k))
  | loadClear (this k) : Access K rd h (.loadClear this k) (.slot this k default) (.ret .fail)
  | push (this node) :
      Access K rd h (.push this node) (.push this node) (.goto (.should this))
  | full (this) : shouldScan K h this = true →
      Access K rd h (.should this) .none (.goto (.scanHead this none))
  | notFull (this) : shouldScan K h this = false →
      Access K rd h (.should this) .none (.ret .unit)
  | scanHead (this helping) :
      Access K rd h (.scanHead this helping) .none (.goto (walkScan this helping [] h.head))
  | scanNull (this helping hp i live) : i < K → (h.record hp).pointers i = default →
      Access K rd h (.scanSlot this helping hp i live) .none
        (.goto (.scanSlot this helping hp (i + 1) live))
  | scanLive (this helping hp i live) : i < K → (h.record hp).pointers i ≠ default →
      Access K rd h (.scanSlot this helping hp i live) .none
        (.goto (.scanSlot this helping hp (i + 1) ((h.record hp).pointers i :: live)))
  | scanNext (this helping hp i live) : ¬ i < K →
      Access K rd h (.scanSlot this helping hp i live) .none
        (.goto (walkScan this helping live (h.record hp).next))
  | sweepEnd (this helping live i) : (h.record this).retireList[i]? = none →
      Access K rd h (.sweep this helping live i) .none (.goto (afterScan this helping))
  | sweepLive (this helping live i node) :
      (h.record this).retireList[i]? = some node → node ∈ live →
      Access K rd h (.sweep this helping live i) .none (.goto (.sweep this helping live (i + 1)))
  | sweepLast (this helping live i node) :
      (h.record this).retireList[i]? = some node → node ∉ live →
      i + 1 = (h.record this).retireList.length →
      Access K rd h (.sweep this helping live i) (.delete this i) (.goto (afterScan this helping))
  | sweepDead (this helping live i node) :
      (h.record this).retireList[i]? = some node → node ∉ live →
      i + 1 ≠ (h.record this).retireList.length →
      Access K rd h (.sweep this helping live i) (.delete this i)
        (.goto (.sweep this helping live i))
  | helpHead (this) : Access K rd h (.helpHead this) .none (walkHelp this h.head)
  | helpSkip (this hp) : hp = this ∨ (h.record hp).active = true →
      Access K rd h (.helpLock this hp) .none (walkHelp this (h.record hp).next)
  | helpWon (this hp) : hp ≠ this → (h.record hp).active = false →
      Access K rd h (.helpLock this hp) (.lock hp) (.goto (.helpDrain this hp))
  | helpEmpty (this hp) : (h.record hp).retireList = [] →
      Access K rd h (.helpDrain this hp) .none (.goto (.helpUnlock this hp))
  | helpMove (this hp) : (h.record hp).retireList ≠ [] →
      Access K rd h (.helpDrain this hp) (.move hp this) (.goto (.helpShould this hp))
  | helpScan (this hp) : shouldScan K h this = true →
      Access K rd h (.helpShould this hp) .none (.goto (.scanHead this (some hp)))
  | helpOn (this hp) : shouldScan K h this = false →
      Access K rd h (.helpShould this hp) .none (.goto (.helpDrain this hp))
  | helpUnlock (this hp) :
      Access K rd h (.helpUnlock this hp) (.unlock hp) (walkHelp this (h.record hp).next)

theorem access_of_plan {K : Nat} {rd : C → P} {h : HazardPointers P} {pc : PC P C}
    {e : Effect P} {nx : Next P C} (planned : plan K rd h pc = some (e, nx)) :
    Access K rd h pc e nx := by
  cases pc <;> simp only [plan] at planned <;> repeat' split at planned
  all_goals
    first
      | contradiction
      | (simp only [Option.some.injEq, Prod.mk.injEq] at planned
         obtain ⟨rfl, rfl⟩ := planned
         try simp only [Bool.not_eq_true] at *
         subst_vars
         constructor <;> first | assumption | simp_all)

end Access

namespace Sys

variable {T P C : Type} [DecidableEq T] [DecidableEq P] [Inhabited P]

/-- The state after an access of thread `t` with effect `e`. -/
def after (s : Sys T P C) (t : T) (e : Effect P) : Next P C → Sys T P C
  | .goto pc => (s.apply e).goto t pc
  | .ret r => (s.apply e).finish t r

/-- Every access of a thread is one of the rules of `Access`. -/
theorem step_access {K : Nat} {rd : C → P} {s s' : Sys T P C} {t : T} {r : Option (Ret P)}
    (stepped : s.step K rd t = some (s', r)) :
    ∃ e nx, Access K rd s.pool (s.pc t) e nx ∧ s' = s.after t e nx ∧
      ∀ q, r = some q ↔ nx = .ret q := by
  simp only [step] at stepped
  split at stepped
  · simp at stepped
  · rename_i e pc planned
    simp only [Option.some.injEq, Prod.mk.injEq] at stepped
    obtain ⟨rfl, rfl⟩ := stepped
    exact ⟨e, _, access_of_plan planned, rfl, by simp⟩
  · rename_i e q planned
    simp only [Option.some.injEq, Prod.mk.injEq] at stepped
    obtain ⟨rfl, rfl⟩ := stepped
    exact ⟨e, _, access_of_plan planned, rfl, by simp⟩

end Sys

end Ccmetrics.Hazard
