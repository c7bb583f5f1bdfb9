/-
# Striped.Machine -- `Striped64`, one atomic step at a time

A `Striped64` is a 64-bit value spread over a base and the cells of a storage. A storage
never changes its cells; the table grows by swapping in a larger storage that has all the
cells of the old one and as many new ones.

`add`, `addSlow`, `value` and `reset` are split at their atomic accesses and at every call
of `size()`, `get()` and `expand()`. All objects share one hazard slot per thread. A retired
storage that is in no thread's slot may be deleted at any moment (`Action.reclaim`); deleted
memory is not reused, so a late access still sees its old contents.

* Storages and cells are numbered in the order of their allocation.
* `int64_t` is `BitVec 64`: addition wraps. `size_t` hash codes are `BitVec 64` as well.
* `log` is not in the source: one entry for each call of `add`, with the number of
  compare-and-swaps that have put its delta somewhere and whether it has returned.
-/
import Mathlib.Data.BitVec
import Mathlib.Data.Fintype.Basic
import Mathlib.Data.List.GetD
import Ccmetrics.Theory.Run

namespace Ccmetrics.Striped

set_option autoImplicit false
set_option linter.unusedSectionVars false

abbrev Word := BitVec 64

/-- `Striped64_Storage`. -/
structure Storage where
  size : Nat
  data : List Nat
  owner : Bool
  cleanCreated : Bool
  length_data : data.length = size
  size_pos : 0 < size

namespace Storage

/-- `Striped64_Storage()` on a slab of two cells that starts at `slab`. -/
def new (slab : Nat) : Storage where
  size := 2
  data := [slab, slab + 1]
  owner := true
  cleanCreated := true
  length_data := rfl
  size_pos := by decide

/-- `Striped64_Storage::expand(other)`: twice the size, with the cells of `other` first. -/
def expand (other : Storage) (slab : Nat) : Storage where
  size := other.size <<< 1
  data := other.data ++ List.range' slab ((other.size <<< 1) - other.size)
  owner := true
  cleanCreated := true
  length_data := by
    rw [List.length_append, List.length_range', other.length_data, Nat.shiftLeft_eq]
    omega
  size_pos := by
    have := other.size_pos
    rw [Nat.shiftLeft_eq]
    omega

/-- The loop of `Striped64(k)`: replace the storage by a larger one until it has `k` cells.
Nobody else sees the storages it goes through. -/
def growTo (s : Storage) (k slab : Nat) : Storage :=
  if s.size < k then (s.expand slab).growTo k (slab + ((s.size <<< 1) - s.size)) else s
termination_by k - s.size
decreasing_by
  have := s.size_pos
  simp only [expand, Nat.shiftLeft_eq]
  omega

theorem growTo_owner (s : Storage) (k slab : Nat) (owner : s.owner = true) :
    (s.growTo k slab).owner = true := by
  induction s, slab using growTo.induct k with
  | case1 s slab small ih =>
      rw [growTo, if_pos small]
      exact ih rfl
  | case2 s slab large =>
      rw [growTo, if_neg large]
      exact owner

/-- `Striped64_Storage::get`: the cell at an index. -/
def get (s : Storage) (idx : Nat) : Nat := s.data.getD idx 0

/-- `Striped64_Storage::disavow`. -/
def disavow (s : Storage) : Storage := { s with owner := false }

/-- `Striped64_Storage::disavow_all`. -/
def disavowAll (s : Storage) : Storage := { s with owner := false, cleanCreated := false }

/-- `hash_code & (cur->size() - 1)`. -/
def index (s : Storage) (hashCode : Word) : Nat := hashCode.toNat &&& (s.size - 1)

theorem index_lt (s : Storage) (hashCode : Word) : s.index hashCode < s.size := by
  have below : s.index hashCode ≤ s.size - 1 := Nat.and_le_right
  have := s.size_pos
  omega

theorem get_mem {s : Storage} {idx : Nat} (inside : idx < s.size) : s.get idx ∈ s.data := by
  rw [← s.length_data] at inside
  rw [get, List.getD_eq_getElem _ _ inside]
  exact List.getElem_mem inside

end Storage

def stripeLimit : Nat := 8

/-- The xorshift of `addSlow`. -/
def remix (hashCode : Word) : Word :=
  let a := hashCode ^^^ (hashCode <<< 13)
  let b := a ^^^ (a >>> 17)
  b ^^^ (b <<< 5)

/-- The locals of `addSlow` that live through its loop. -/
structure Slow (O : Type) where
  this : O
  value : Word
  contended : Bool
  load : Bool
  deriving DecidableEq

/-- Who called `loadAndSetHazard(stripes_, 0)`. -/
inductive Site (O : Type) where
  | add (this : O) (value : Word)
  | slow (f : Slow O)
  | reset (this : O)
  deriving DecidableEq

def Site.this {O : Type} : Site O → O
  | .add this _ | .reset this => this
  | .slow f => f.this

/-- Where a thread stands in a member function. -/
inductive PC (O : Type) where
  | idle
  -- add
  | addStripes (this : O) (value : Word)
  | addBase (this : O) (value : Word)
  | addBaseCas (this : O) (value expected : Word)
  | addSize (this : O) (value : Word) (cur : Nat)
  | addGet (this : O) (value : Word) (cur idx : Nat)
  | addCas (this : O) (value : Word) (cur slot : Nat) (expected : Word)
  -- addSlow
  | slowNew (f : Slow O)
  | slowPublish (f : Slow O) (cur : Nat)
  | slowSize (f : Slow O) (cur : Nat)
  | slowGet (f : Slow O) (cur idx : Nat)
  | slowCas (f : Slow O) (cur idx : Nat) (expected : Word)
  | slowGrow (f : Slow O) (cur : Nat)
  | slowExpand (f : Slow O) (cur : Nat)
  | slowSwap (f : Slow O) (cur next : Nat)
  | slowRetire (f : Slow O) (cur : Nat)
  | slowClear (f : Slow O)
  -- loadAndSetHazard
  | load (site : Site O)
  | loadSet (site : Site O) (cur : Option Nat)
  | loadCheck (site : Site O) (cur : Option Nat)
  | addClear (this : O)
  -- value
  | valueBase (this : O)
  | valueLoad (this : O) (ret : Word)
  | valueSet (this : O) (ret : Word) (cur : Nat)
  | valueCheck (this : O) (ret : Word) (cur : Nat)
  | valueSize (this : O) (ret : Word) (cur : Nat)
  | valueGet (this : O) (ret : Word) (cur len i : Nat)
  | valueClear (this : O) (ret : Word)
  -- reset
  | resetBase (this : O)
  | resetSize (this : O) (cur : Nat)
  | resetGet (this : O) (cur len i : Nat)
  | resetClear (this : O)
  -- a null storage is dereferenced
  | fault
  deriving DecidableEq

namespace PC

variable {O : Type}

/-- The object whose member function is running. -/
def this : PC O → Option O
  | .idle | .fault => none
  | .addStripes this _ | .addBase this _ | .addBaseCas this _ _ | .addSize this _ _
  | .addGet this _ _ _ | .addCas this _ _ _ _ | .addClear this => some this
  | .slowNew f | .slowPublish f _ | .slowSize f _ | .slowGet f _ _ | .slowCas f _ _ _
  | .slowGrow f _ | .slowExpand f _ | .slowSwap f _ _ | .slowRetire f _ | .slowClear f =>
      some f.this
  | .load site | .loadSet site _ | .loadCheck site _ => some site.this
  | .valueBase this | .valueLoad this _ | .valueSet this _ _ | .valueCheck this _ _
  | .valueSize this _ _ | .valueGet this _ _ _ _ | .valueClear this _ => some this
  | .resetBase this | .resetSize this _ | .resetGet this _ _ _ | .resetClear this => some this

/-- The object that the running call may change. -/
def writes : PC O → Option O
  | .valueBase _ | .valueLoad _ _ | .valueSet _ _ _ | .valueCheck _ _ _ | .valueSize _ _ _
  | .valueGet _ _ _ _ _ | .valueClear _ _ => none
  | pc => pc.this

/-- The object on which the thread is inside `add`. -/
def adding : PC O → Option O
  | .addStripes this _ | .addBase this _ | .addBaseCas this _ _ | .addSize this _ _
  | .addGet this _ _ _ | .addCas this _ _ _ _ | .addClear this => some this
  | .slowNew f | .slowPublish f _ | .slowSize f _ | .slowGet f _ _ | .slowCas f _ _ _
  | .slowGrow f _ | .slowExpand f _ | .slowSwap f _ _ | .slowRetire f _ | .slowClear f =>
      some f.this
  | .load (.add this _) | .loadSet (.add this _) _ | .loadCheck (.add this _) _ => some this
  | .load (.slow f) | .loadSet (.slow f) _ | .loadCheck (.slow f) _ => some f.this
  | _ => none

/-- The storage on which the next step calls `size()`, `get()` or `expand()`. -/
def uses : PC O → Option Nat
  | .addSize _ _ cur | .addGet _ _ cur _ | .slowSize _ cur | .slowGet _ cur _
  | .slowCas _ cur _ _ | .slowGrow _ cur | .slowExpand _ cur | .valueSize _ _ cur
  | .valueGet _ _ cur _ _ | .resetSize _ cur | .resetGet _ cur _ _ => some cur
  | _ => none

end PC

/-- One call of `add`. -/
structure Add (O : Type) where
  this : O
  delta : Word
  swaps : Nat
  returned : Bool
  deriving DecidableEq

/-- All objects, the memory they use, and where every thread stands. -/
structure State (T O : Type) where
  live : O → Bool
  base : O → Word
  stripes : O → Option Nat
  storage : Nat → Storage
  freshStorage : Nat
  cell : Nat → Word
  freshCell : Nat
  hashCode : T → Word
  slot : T → Option Nat
  retired : List Nat
  deleted : List Nat
  pc : T → PC O
  result : T → Word
  call : T → Nat
  log : List (Add O)

/-- What one step does to memory. -/
inductive Effect (O : Type) where
  | none
  | addBase (this : O) (update : Word)
  | addCell (cell : Nat) (update : Word)
  | zeroBase (this : O)
  | zeroCell (cell : Nat)
  | slot (value : Option Nat)
  | remix
  | create
  | expand (cur : Nat)
  | delete (storage : Nat) (disavow : Bool)
  | stripes (this : O) (storage : Nat)
  | retire (storage : Nat)

/-- Where control goes. -/
inductive Next (O : Type) where
  | goto (pc : PC O)
  | ret (value : Word)

/-- A constructor, a call of a member function, a step of a thread, or a deletion. -/
inductive Action (T O : Type) where
  | make (this : O) (k : Option Nat)
  | add (t : T) (this : O) (value : Word)
  | value (t : T) (this : O)
  | reset (t : T) (this : O)
  | step (t : T)
  | reclaim (storage : Nat)
  deriving DecidableEq

namespace State

variable {T O : Type} [DecidableEq T] [DecidableEq O]

/-- The top of the loop of `addSlow`. -/
def slowTop (f : Slow O) : Option Nat → PC O
  | none => .slowNew f
  | some cur => if f.load then .load (.slow f) else .slowSize f cur

/-- `loadAndSetHazard` returns `cur` to its caller. -/
def loaded : Site O → Option Nat → Next O
  | .add this value, some cur => .goto (.addSize this value cur)
  | .slow f, some cur => .goto (.slowSize f cur)
  | .reset this, some cur => .goto (.resetSize this cur)
  | .reset _, none => .ret 0
  | _, none => .goto .fault

/-- The loop of `value` over the cells. -/
def valueLoop (this : O) (ret : Word) (cur len i : Nat) : PC O :=
  if i < len then .valueGet this ret cur len i else .valueClear this ret

/-- The loop of `reset` over the cells. -/
def resetLoop (this : O) (cur len i : Nat) : PC O :=
  if i < len then .resetGet this cur len i else .resetClear this

/-- The next step of thread `t`. -/
def plan (s : State T O) (t : T) : PC O → Option (Effect O × Next O)
  | .idle | .fault => none
  | .addStripes this value =>
      match s.stripes this with
      | none => some (.none, .goto (.addBase this value))
      | some _ => some (.none, .goto (.load (.add this value)))
  | .addBase this value => some (.none, .goto (.addBaseCas this value (s.base this)))
  | .addBaseCas this value expected =>
      if s.base this = expected then some (.addBase this (expected + value), .ret 0)
      else some (.none, .goto (slowTop ⟨this, value, false, true⟩ none))
  | .addSize this value cur =>
      some (.none, .goto (.addGet this value cur ((s.storage cur).index (s.hashCode t))))
  | .addGet this value cur idx =>
      let slot := (s.storage cur).get idx
      some (.none, .goto (.addCas this value cur slot (s.cell slot)))
  | .addCas this value cur slot expected =>
      if s.cell slot = expected then
        some (.addCell slot (expected + value), .goto (.addClear this))
      else some (.none, .goto (slowTop ⟨this, value, false, true⟩ (some cur)))
  | .addClear _ => some (.slot none, .ret 0)
  | .slowNew f => some (.create, .goto (.slowPublish f s.freshStorage))
  | .slowPublish f cur =>
      if s.stripes f.this = none then
        some (.stripes f.this cur, .goto (.slowSize { f with load := false } cur))
      else some (.delete cur false, .goto (slowTop f (some cur)))
  | .slowSize f cur =>
      some (.none, .goto (.slowGet f cur ((s.storage cur).index (s.hashCode t))))
  | .slowGet f cur idx =>
      some (.none, .goto (.slowCas f cur idx (s.cell ((s.storage cur).get idx))))
  | .slowCas f cur idx expected =>
      let slot := (s.storage cur).get idx
      if s.cell slot = expected then
        some (.addCell slot (expected + f.value), .goto (.slowClear f))
      else if f.contended then some (.none, .goto (.slowGrow f cur))
      else some (.remix, .goto (slowTop { f with contended := true } (some cur)))
  | .slowGrow f cur =>
      if (s.storage cur).size < stripeLimit then some (.none, .goto (.slowExpand f cur))
      else some (.remix, .goto (slowTop f (some cur)))
  | .slowExpand f cur => some (.expand cur, .goto (.slowSwap f cur s.freshStorage))
  | .slowSwap f cur next =>
      if s.stripes f.this = some cur then
        some (.stripes f.this next, .goto (.slowRetire f cur))
      else
        -- the failed exchange loads what `stripes_` holds into `cur`
        some (.delete next true, .goto (slowTop f (s.stripes f.this)))
  | .slowRetire f cur => some (.retire cur, .goto (slowTop f (some cur)))
  | .slowClear _ => some (.slot none, .ret 0)
  | .load site => some (.none, .goto (.loadSet site (s.stripes site.this)))
  | .loadSet site cur => some (.slot cur, .goto (.loadCheck site cur))
  | .loadCheck site cur =>
      if cur = s.stripes site.this then some (.none, loaded site cur)
      else some (.none, .goto (.load site))
  | .valueBase this => some (.none, .goto (.valueLoad this (s.base this)))
  | .valueLoad this ret =>
      match s.stripes this with
      | none => some (.none, .ret ret)
      | some cur => some (.none, .goto (.valueSet this ret cur))
  | .valueSet this ret cur => some (.slot (some cur), .goto (.valueCheck this ret cur))
  | .valueCheck this ret cur =>
      if s.stripes this = some cur then some (.none, .goto (.valueSize this ret cur))
      else some (.none, .goto (.valueLoad this ret))
  | .valueSize this ret cur =>
      some (.none, .goto (valueLoop this ret cur (s.storage cur).size 0))
  | .valueGet this ret cur len i =>
      let ret := ret + s.cell ((s.storage cur).get i)
      some (.none, .goto (valueLoop this ret cur len (i + 1)))
  | .valueClear _ ret => some (.slot none, .ret ret)
  | .resetBase this => some (.zeroBase this, .goto (.load (.reset this)))
  | .resetSize this cur => some (.none, .goto (resetLoop this cur (s.storage cur).size 0))
  | .resetGet this cur len i =>
      some (.zeroCell ((s.storage cur).get i), .goto (resetLoop this cur len (i + 1)))
  | .resetClear _ => some (.slot none, .ret 0)

/-- Allocate a storage and its slab of new, zero cells. -/
def allocate (s : State T O) (storage : Storage) (slab : Nat) : State T O :=
  { s with
    storage := fun a => if a = s.freshStorage then storage else s.storage a
    freshStorage := s.freshStorage + 1
    cell := fun c => if s.freshCell ≤ c then 0 else s.cell c
    freshCell := s.freshCell + slab }

def apply (s : State T O) (t : T) : Effect O → State T O
  | .none => s
  | .addBase this update =>
      { s with
        base := fun o => if o = this then update else s.base o
        log := s.log.modify (s.call t) fun e => { e with swaps := e.swaps + 1 } }
  | .addCell cell update =>
      { s with
        cell := fun c => if c = cell then update else s.cell c
        log := s.log.modify (s.call t) fun e => { e with swaps := e.swaps + 1 } }
  | .zeroBase this => { s with base := fun o => if o = this then 0 else s.base o }
  | .zeroCell cell => { s with cell := fun c => if c = cell then 0 else s.cell c }
  | .slot value => { s with slot := fun u => if u = t then value else s.slot u }
  | .remix => { s with hashCode := fun u => if u = t then remix (s.hashCode u) else s.hashCode u }
  | .create =>
      -- `cur = new Striped64_Storage(); hp.setHazard(0, cur)`
      { s.allocate (.new s.freshCell) 2 with
        slot := fun u => if u = t then some s.freshStorage else s.slot u }
  | .expand cur =>
      let other := s.storage cur
      s.allocate (other.expand s.freshCell) ((other.size <<< 1) - other.size)
  | .delete storage disavow =>
      { s with
        storage := fun a =>
          if a = storage ∧ disavow = true then (s.storage a).disavow else s.storage a
        deleted := storage :: s.deleted }
  | .stripes this storage =>
      { s with stripes := fun o => if o = this then some storage else s.stripes o }
  | .retire storage =>
      { s with
        storage := fun a => if a = storage then (s.storage a).disavowAll else s.storage a
        retired := storage :: s.retired }

def goto (s : State T O) (t : T) (pc : PC O) : State T O :=
  { s with pc := fun u => if u = t then pc else s.pc u }

/-- Thread `t` leaves its member function; the log notes a returning `add`. -/
def ret (s : State T O) (t : T) (value : Word) : State T O :=
  { s.goto t .idle with
    result := fun u => if u = t then value else s.result u
    log := if (s.pc t).adding.isSome then
        s.log.modify (s.call t) fun e => { e with returned := true }
      else s.log }

def after (s : State T O) (t : T) (e : Effect O) : Next O → State T O
  | .goto pc => (s.apply t e).goto t pc
  | .ret value => (s.apply t e).ret t value

/-- `Striped64()`, or `Striped64(k)`. -/
def make (s : State T O) (this : O) (k : Option Nat) : State T O :=
  match k with
  | none => { s with live := fun o => if o = this then true else s.live o }
  | some k =>
      let storage := (Storage.new s.freshCell).growTo k (s.freshCell + 2)
      { s.allocate storage storage.size with
        live := fun o => if o = this then true else s.live o
        stripes := fun o => if o = this then some s.freshStorage else s.stripes o }

/-- No object has been constructed and every thread is idle. `hashCode` is what
`ThreadLocalRandom` gives the threads. -/
def init (hashCode : T → Word) : State T O where
  live _ := false
  base _ := 0
  stripes _ := none
  storage _ := .new 0
  freshStorage := 0
  cell _ := 0
  freshCell := 0
  hashCode := hashCode
  slot _ := none
  retired := []
  deleted := []
  pc _ := .idle
  result _ := 0
  call _ := 0
  log := []

/-- What happens when an action is taken; `none` if it cannot be taken. -/
def next [Fintype T] (s : State T O) : Action T O → Option (State T O)
  | .make this k => if s.live this = true then none else some (s.make this k)
  | .add t this value =>
      if s.pc t = .idle ∧ s.live this = true then
        some { s.goto t (.addStripes this value) with
          call := fun u => if u = t then s.log.length else s.call u
          log := s.log ++ [⟨this, value, 0, false⟩] }
      else none
  | .value t this =>
      if s.pc t = .idle ∧ s.live this = true then some (s.goto t (.valueBase this)) else none
  | .reset t this =>
      if s.pc t = .idle ∧ s.live this = true then some (s.goto t (.resetBase this)) else none
  | .step t =>
      match s.plan t (s.pc t) with
      | none => none
      | some (e, nx) => some (s.after t e nx)
  | .reclaim storage =>
      if storage ∈ s.retired ∧ storage ∉ s.deleted ∧ ∀ t, s.slot t ≠ some storage then
        some { s with deleted := storage :: s.deleted }
      else none

/-! ## The graph of `plan`

One rule for each branch; the invariants are case analyses over these rules. -/

inductive Access (s : State T O) (t : T) : PC O → Effect O → Next O → Prop
  | addEmpty (this value) : s.stripes this = none →
      Access s t (.addStripes this value) .none (.goto (.addBase this value))
  | addStriped (this value cur) : s.stripes this = some cur →
      Access s t (.addStripes this value) .none (.goto (.load (.add this value)))
  | addBase (this value) :
      Access s t (.addBase this value) .none (.goto (.addBaseCas this value (s.base this)))
  | addBaseWon (this value) :
      Access s t (.addBaseCas this value (s.base this)) (.addBase this (s.base this + value))
        (.ret 0)
  | addBaseLost (this value expected) :
      Access s t (.addBaseCas this value expected) .none
        (.goto (.slowNew ⟨this, value, false, true⟩))
  | addSize (this value cur) :
      Access s t (.addSize this value cur) .none
        (.goto (.addGet this value cur ((s.storage cur).index (s.hashCode t))))
  | addGet (this value cur idx) :
      Access s t (.addGet this value cur idx) .none
        (.goto (.addCas this value cur ((s.storage cur).get idx)
          (s.cell ((s.storage cur).get idx))))
  | addWon (this value cur slot) :
      Access s t (.addCas this value cur slot (s.cell slot))
        (.addCell slot (s.cell slot + value)) (.goto (.addClear this))
  | addLost (this value cur slot expected) :
      Access s t (.addCas this value cur slot expected) .none
        (.goto (.load (.slow ⟨this, value, false, true⟩)))
  | addClear (this) : Access s t (.addClear this) (.slot none) (.ret 0)
  | slowNew (f) : Access s t (.slowNew f) .create (.goto (.slowPublish f s.freshStorage))
  | slowPublished (f cur) : s.stripes f.this = none →
      Access s t (.slowPublish f cur) (.stripes f.this cur)
        (.goto (.slowSize { f with load := false } cur))
  | slowLate (f cur) : s.stripes f.this ≠ none →
      Access s t (.slowPublish f cur) (.delete cur false) (.goto (slowTop f (some cur)))
  | slowSize (f cur) :
      Access s t (.slowSize f cur) .none
        (.goto (.slowGet f cur ((s.storage cur).index (s.hashCode t))))
  | slowGet (f cur idx) :
      Access s t (.slowGet f cur idx) .none
        (.goto (.slowCas f cur idx (s.cell ((s.storage cur).get idx))))
  | slowWon (f cur idx) :
      Access s t (.slowCas f cur idx (s.cell ((s.storage cur).get idx)))
        (.addCell ((s.storage cur).get idx) (s.cell ((s.storage cur).get idx) + f.value))
        (.goto (.slowClear f))
  | slowContended (f cur idx expected) : f.contended = true →
      Access s t (.slowCas f cur idx expected) .none (.goto (.slowGrow f cur))
  | slowRehash (f cur idx expected) :
      Access s t (.slowCas f cur idx expected) .remix
        (.goto (slowTop { f with contended := true } (some cur)))
  | slowSmall (f cur) : (s.storage cur).size < stripeLimit →
      Access s t (.slowGrow f cur) .none (.goto (.slowExpand f cur))
  | slowFull (f cur) :
      Access s t (.slowGrow f cur) .remix (.goto (slowTop f (some cur)))
  | slowExpand (f cur) :
      Access s t (.slowExpand f cur) (.expand cur) (.goto (.slowSwap f cur s.freshStorage))
  | slowGrown (f cur next) : s.stripes f.this = some cur →
      Access s t (.slowSwap f cur next) (.stripes f.this next) (.goto (.slowRetire f cur))
  | slowRaced (f cur next) : s.stripes f.this ≠ some cur →
      Access s t (.slowSwap f cur next) (.delete next true)
        (.goto (slowTop f (s.stripes f.this)))
  | slowRetire (f cur) :
      Access s t (.slowRetire f cur) (.retire cur) (.goto (slowTop f (some cur)))
  | slowClear (f) : Access s t (.slowClear f) (.slot none) (.ret 0)
  | load (site) : Access s t (.load site) .none (.goto (.loadSet site (s.stripes site.this)))
  | loadSet (site cur) :
      Access s t (.loadSet site cur) (.slot cur) (.goto (.loadCheck site cur))
  | loadSame (site) :
      Access s t (.loadCheck site (s.stripes site.this)) .none (loaded site (s.stripes site.this))
  | loadAgain (site cur) : Access s t (.loadCheck site cur) .none (.goto (.load site))
  | valueBase (this) :
      Access s t (.valueBase this) .none (.goto (.valueLoad this (s.base this)))
  | valueEmpty (this ret) : s.stripes this = none →
      Access s t (.valueLoad this ret) .none (.ret ret)
  | valueLoad (this ret cur) : s.stripes this = some cur →
      Access s t (.valueLoad this ret) .none (.goto (.valueSet this ret cur))
  | valueSet (this ret cur) :
      Access s t (.valueSet this ret cur) (.slot (some cur)) (.goto (.valueCheck this ret cur))
  | valueSame (this ret cur) : s.stripes this = some cur →
      Access s t (.valueCheck this ret cur) .none (.goto (.valueSize this ret cur))
  | valueAgain (this ret cur) : s.stripes this ≠ some cur →
      Access s t (.valueCheck this ret cur) .none (.goto (.valueLoad this ret))
  | valueSize (this ret cur) :
      Access s t (.valueSize this ret cur) .none
        (.goto (valueLoop this ret cur (s.storage cur).size 0))
  | valueGet (this ret cur len i) :
      Access s t (.valueGet this ret cur len i) .none
        (.goto (valueLoop this (ret + s.cell ((s.storage cur).get i)) cur len (i + 1)))
  | valueClear (this ret) : Access s t (.valueClear this ret) (.slot none) (.ret ret)
  | resetBase (this) :
      Access s t (.resetBase this) (.zeroBase this) (.goto (.load (.reset this)))
  | resetSize (this cur) :
      Access s t (.resetSize this cur) .none
        (.goto (resetLoop this cur (s.storage cur).size 0))
  | resetGet (this cur len i) :
      Access s t (.resetGet this cur len i) (.zeroCell ((s.storage cur).get i))
        (.goto (resetLoop this cur len (i + 1)))
  | resetClear (this) : Access s t (.resetClear this) (.slot none) (.ret 0)

variable {s s' : State T O} {t u : T} {e : Effect O} {nx : Next O} {o : O}

theorem access_of_plan {pc : PC O} (planned : s.plan t pc = some (e, nx)) :
    Access s t pc e nx := by
  cases pc <;> simp only [plan] at planned <;> repeat' split at planned
  all_goals
    first
      | contradiction
      | (simp only [Option.some.injEq, Prod.mk.injEq] at planned
         obtain ⟨rfl, rfl⟩ := planned
         subst_vars
         constructor <;> assumption)

theorem next_step [Fintype T] (taken : s.next (.step t) = some s') :
    ∃ e nx, Access s t (s.pc t) e nx ∧ s' = s.after t e nx := by
  simp only [next] at taken
  split at taken
  · cases taken
  · rename_i e nx planned
    cases taken
    exact ⟨e, nx, access_of_plan planned, rfl⟩

end State

end Ccmetrics.Striped
