/-
# ThreadLocal.Storage -- `ThreadLocalPointer` over per-thread element arrays

Every `ThreadLocalPointer` holds an id from `SharedStorage::create`; every thread has one
`ThreadLocalStorage`, an array with an element for each id it has used and the links of the
ring of registered threads. This is the build for systems with `__thread` and `pthread`; each
call is one step, as it runs under the mutex or touches only the calling thread's array.

* Ids are `uint32_t`, so `++next_id_` wraps. Element `idx` is at `elements_[idx - 1]`: an access
  with `idx = 0` is outside the array. `get` and `reset` through such an id are refused here;
  `destroy` goes on, and `outside` notes it.
* Assertions are off: `set` replaces an element without destroying it.
* The static destruction of `SharedStorage` is left out.
* `live`, `moved`, `exited`, `added` and `outside` are not in the source. The number of
  `addThread` calls, `added`, bounds the walk around the ring.
-/
import Mathlib.Algebra.Group.Nat.Defs
import Mathlib.Data.List.Basic
import Ccmetrics.Theory.Run
import Ccmetrics.Theory.Ring

namespace Ccmetrics.ThreadLocal

set_option autoImplicit false
set_option linter.unusedSectionVars false

/-- A deleter, or `deletePtr<T>` where none is given. -/
inductive Deleter (D : Type) where
  | deletePtr
  | given (d : D)
  deriving DecidableEq

/-- `ThreadLocalStorage::Element`; a null pointer or function is `none`. -/
structure Element (V D : Type) where
  ptr : Option V
  deleter : Option (Deleter D)
  deriving DecidableEq

/-- What `memset` leaves. -/
def Element.zero {V D : Type} : Element V D := ⟨none, none⟩

/-- The calls of deleters that have been made. -/
abbrev Released (V D : Type) := List (Option (Deleter D) × V)

/-- `Element::destroy`. -/
def Element.destroy {V D : Type} (e : Element V D) : Element V D × Released V D :=
  match e.ptr with
  | none => (e, [])
  | some v => (.zero, [(e.deleter, v)])

structure ThreadLocalStorage (V D : Type) where
  elements : List (Element V D)
  deriving DecidableEq

namespace ThreadLocalStorage

variable {V D : Type}

def capacity (x : ThreadLocalStorage V D) : Nat := x.elements.length

/-- `1 + size * 1.5`, truncated. -/
def newSize (size : Nat) : Nat := 1 + size * 3 / 2

def resize (x : ThreadLocalStorage V D) (size : Nat) : ThreadLocalStorage V D :=
  ⟨x.elements ++ List.replicate (newSize size - x.capacity) .zero⟩

def grow (x : ThreadLocalStorage V D) (idx : Nat) : ThreadLocalStorage V D :=
  if x.capacity < idx then x.resize idx else x

/-- The pointer at `elements_[idx - 1]`. -/
def value (x : ThreadLocalStorage V D) (idx : Nat) : Option V :=
  (x.elements[idx - 1]?).bind (·.ptr)

def set (x : ThreadLocalStorage V D) (idx : Nat) (ptr : Option V) (deleter : Option D) :
    ThreadLocalStorage V D :=
  let e : Element V D := ⟨ptr, some ((deleter.map .given).getD .deletePtr)⟩
  ⟨(x.grow idx).elements.set (idx - 1) e⟩

/-- The array after `get`, and what it returns. -/
def get (x : ThreadLocalStorage V D) (idx : Nat) : ThreadLocalStorage V D × Option V :=
  (x.grow idx, (x.grow idx).value idx)

/-- `getIfPresent(idx)->destroy()` for an index in range. -/
def destroyAt (x : ThreadLocalStorage V D) (idx : Nat) : ThreadLocalStorage V D × Released V D :=
  match x.elements[idx - 1]? with
  | some e => (⟨x.elements.set (idx - 1) e.destroy.1⟩, e.destroy.2)
  | none => (x, [])

def destroyAll (x : ThreadLocalStorage V D) : ThreadLocalStorage V D × Released V D :=
  (⟨[]⟩, (x.elements.map (·.destroy.2)).flatten)

end ThreadLocalStorage

structure State (T P V D : Type) where
  freeList : List Nat
  nextId : Nat
  tls : T → ThreadLocalStorage V D
  ring : Theory.Ring T
  id : P → Nat
  result : T → Option V
  released : Released V D
  live : List P
  moved : P → Bool
  exited : T → Bool
  added : Nat
  outside : Bool

inductive Action (T P V D : Type) where
  | construct (p : P)
  | move (o p : P)
  | destruct (p : P)
  | get (t : T) (p : P)
  | reset (t : T) (p : P) (ptr : Option V) (deleter : Option D)
  | exit (t : T)
  deriving DecidableEq

namespace State

variable {T P V D : Type} [DecidableEq T] [DecidableEq P]

def init : State T P V D where
  freeList := []
  nextId := 0
  tls _ := ⟨[]⟩
  ring := .empty
  id _ := 0
  result _ := none
  released := []
  live := []
  moved _ := false
  exited _ := false
  added := 0
  outside := false

/-! ## `SharedStorage` -/

/-- `create`: the id, and the allocator afterwards. -/
def create (s : State T P V D) : Nat × State T P V D :=
  match s.freeList.getLast? with
  | none =>
      let id := (s.nextId + 1) % 2 ^ 32
      (id, { s with nextId := id })
  | some id => (id, { s with freeList := s.freeList.dropLast })

def setTls (s : State T P V D) (t : T) (x : ThreadLocalStorage V D) : State T P V D :=
  { s with tls := fun u => if u = t then x else s.tls u }

/-- `tls_handle_.get()` and the registration at a thread's first access. -/
def handle (s : State T P V D) (t : T) : State T P V D :=
  let s := if (s.tls t).capacity = 0 then s.setTls t ((s.tls t).get 1).1 else s
  if s.ring.onList t then s else { s with ring := s.ring.add t, added := s.added + 1 }

/-- The body of the loop of `destroy`, at one thread. -/
def destroyAt (s : State T P V D) (id : Nat) (t : T) : State T P V D :=
  if (s.tls t).capacity < id then s
  else if id = 0 then { s with outside := true }
  else
    let (x, released) := (s.tls t).destroyAt id
    { s.setTls t x with released := s.released ++ released }

/-- The loop of `destroy` over the registered threads. -/
def destroyEach (s : State T P V D) (id : Nat) (ts : List T) : State T P V D :=
  ts.foldl (fun s t => s.destroyAt id t) s

def destroy (s : State T P V D) (id : Nat) : Option (State T P V D) :=
  match s.ring.walk s.added (s.ring.next none) with
  | some ts =>
      let s := s.destroyEach id ts
      some { s with freeList := s.freeList ++ [id] }
  | none => none

/-- `threadExitCleanup`, which runs for threads that have used their storage. -/
def threadExitCleanup (s : State T P V D) (t : T) : State T P V D :=
  if (s.tls t).capacity = 0 then s
  else
    let (x, released) := (s.tls t).destroyAll
    { s.setTls t x with ring := s.ring.remove t, released := s.released ++ released }

/-! ## `ThreadLocalPointer` -/

/-- A new object, with an id. -/
def object (s : State T P V D) (p : P) (id : Nat) : State T P V D :=
  { s with
    id := fun q => if q = p then id else s.id q
    moved := fun q => if q = p then false else s.moved q
    live := p :: s.live }

/-- The move constructor: `p` takes over the id of `o`. -/
def moveFrom (s : State T P V D) (o p : P) : State T P V D :=
  { s.object p (s.id o) with
    id := fun q => if q = o then 0 else (s.object p (s.id o)).id q
    moved := fun q => if q = o then true else (s.object p (s.id o)).moved q }

def next (s : State T P V D) : Action T P V D → Option (State T P V D)
  | .construct p => if p ∈ s.live then none else some (s.create.2.object p s.create.1)
  | .move o p => if o ∈ s.live ∧ p ∉ s.live then some (s.moveFrom o p) else none
  | .destruct p =>
      if p ∈ s.live then
        (s.destroy (s.id p)).map fun s => { s with live := s.live.erase p }
      else none
  | .get t p =>
      if p ∈ s.live ∧ s.exited t = false ∧ s.id p ≠ 0 then
        let s := s.handle t
        let (x, v) := (s.tls t).get (s.id p)
        some { s.setTls t x with result := fun u => if u = t then v else s.result u }
      else none
  | .reset t p ptr deleter =>
      if p ∈ s.live ∧ s.exited t = false ∧ s.id p ≠ 0 then
        let s := s.handle t
        some (s.setTls t ((s.tls t).set (s.id p) ptr deleter))
      else none
  | .exit t =>
      if s.exited t = false then
        let s := s.threadExitCleanup t
        some { s with exited := fun u => if u = t then true else s.exited u }
      else none

end State

end Ccmetrics.ThreadLocal
