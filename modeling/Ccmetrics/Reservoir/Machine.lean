/-
# Reservoir.Machine -- any number of threads and reservoirs

Threads construct, update, snapshot and destroy reservoirs that share `smr`, and exit. A step is one
access of `data_`, `next_scale_`, `rescale_snap_mutex_` or the count, one operation of a map, or one
access inside the hazard pointers. `entries` and `values` take one step for each entry: they ask for
the first entry behind the last one, and the map may change in between.

* `exp delta` is `std::exp(kAlpha * delta)` for a time in nanoseconds, over any field.
* `Data` objects are numbered from 1; `nullptr` is 0, and so is `data_` of a reservoir that is not
  there. The destructor takes `data_` with its call, since nobody else uses the reservoir any more.
* `owner`, `constructed`, `won` and `recorded` are not in the source: for which reservoir a `Data` was
  made, when a reservoir was constructed (which is once), how many exchanges of its `next_scale_`
  have been won, and the calls of `update`. `result` has the keys beside the values of the last
  `snapshot`.
-/
import Mathlib.Algebra.Field.Defs
import Mathlib.Data.Fintype.Basic
import Ccmetrics.Hazard.Emptied
import Ccmetrics.Hazard.Slots
import Ccmetrics.Reservoir.Concurrent

namespace Ccmetrics.Reservoir

set_option autoImplicit false
set_option linter.unusedSectionVars false

open Theory (OrderedMap)

/-- A call of `update`: when, with which random number, and the value. -/
structure Sample (K V : Type) where
  now : Nat
  random : K
  value : V
  deriving DecidableEq

namespace Reservoirs

/-- What needs `*smr.hp`: an update, or the destruction of a reservoir with this `Data`. -/
inductive Request (O K V : Type) where
  | update (o : O) (a : Sample K V)
  | destroy (data : Nat)
  deriving DecidableEq

/-- Where an entry was offered to a map. -/
inductive Site (O K V : Type) where
  | update (o : O)
  | rescale (o : O) (a : Sample K V) (data nextdata : Nat) (snap : List (K × V))
  deriving DecidableEq

/-- Where a thread stands. -/
inductive Point (O K V : Type) where
  | idle
  -- `*smr.hp`
  | acquire (c : Request O K V)
  -- `update`, `loadAndRescaleIfNeeded`
  | schedule (o : O) (a : Sample K V)
  | load (o : O) (a : Sample K V)
  | ready (o : O) (a : Sample K V) (data : Nat)
  | offer (counted values : Nat) (pc : PC K V) (site : Site O K V)
  | clear (o : O)
  -- `rescale`
  | compete (o : O) (a : Sample K V) (next : Nat)
  | lock (o : O) (a : Sample K V)
  | hazard (o : O) (a : Sample K V) (nextdata : Nat)
  | read (o : O) (a : Sample K V) (nextdata : Nat)
  | store (o : O) (a : Sample K V) (data nextdata : Nat)
  | entries (o : O) (a : Sample K V) (data nextdata : Nat) (snap : List (K × V))
  | retire (o : O) (a : Sample K V) (data nextdata : Nat) (snap : List (K × V))
  | reinsert (o : O) (a : Sample K V) (data nextdata : Nat) (snap : List (K × V))
  -- `snapshot`
  | enter (o : O)
  | look (o : O)
  | values (o : O) (data : Nat) (taken : List (K × V))
  -- `~ExponentialReservoir`
  | close (data : Nat)
  | destroy (data : Nat)
  -- the exit of the thread
  | exit
  deriving DecidableEq

variable {T O K V : Type}

/-- Where a thread goes on when its offer is through. -/
def Site.point : Site O K V → Point O K V
  | .update o => .clear o
  | .rescale o a data nextdata snap => .reinsert o a data nextdata snap

/-- Where a thread goes on with its record. -/
def Request.point : Request O K V → Point O K V
  | .update o a => .schedule o a
  | .destroy data => .close data

namespace Point

/-- The call into the hazard pointers that the thread is inside. -/
def call : Point O K V → Option (Hazard.Call Nat O)
  | .acquire _ => some .allocate
  | .load o _ => some (.loadAndSetHazard o 0)
  | .clear _ => some (.clearHazard 0)
  | .hazard _ _ nextdata => some (.setHazard 0 nextdata)
  | .retire _ _ data _ _ | .destroy data => some (.retireNode data)
  | .exit => some .retire
  | _ => none

/-- Where the thread goes on when that call has returned. -/
def resume : Point O K V → Hazard.Ret Nat → Point O K V
  | .acquire c, .record _ => c.point
  | .load o a, .value data => .ready o a data
  | .hazard o a nextdata, .unit => .read o a nextdata
  | .retire o a data nextdata snap, .unit => .reinsert o a data nextdata snap
  | .clear _, .unit | .destroy _, .unit | .exit, .released => .idle
  | point, _ => point

/-- The reservoir that the thread is inside a member function of. -/
def this : Point O K V → Option O
  | .acquire (.update o _) | .schedule o _ | .load o _ | .ready o _ _ | .clear o | .compete o _ _
  | .lock o _ | .hazard o _ _ | .read o _ _ | .store o _ _ _ | .entries o _ _ _ _
  | .retire o _ _ _ _ | .reinsert o _ _ _ _ | .enter o | .look o | .values o _ _
  | .offer _ _ _ (.update o) | .offer _ _ _ (.rescale o _ _ _ _) => some o
  | _ => none

/-- The reservoir whose `rescale_snap_mutex_` the thread has locked. -/
def locks : Point O K V → Option O
  | .hazard o _ _ | .read o _ _ | .store o _ _ _ | .entries o _ _ _ _ | .retire o _ _ _ _
  | .reinsert o _ _ _ _ | .look o | .values o _ _ | .offer _ _ _ (.rescale o _ _ _ _) => some o
  | _ => none

/-- The `Data` that only this thread knows: the new one before it is published, the old one before
it is retired. -/
def ward : Point O K V → Nat
  | .acquire (.destroy data) | .close data => data
  | .hazard _ _ nextdata | .read _ _ nextdata | .store _ _ _ nextdata => nextdata
  | .entries _ _ data _ _ => data
  | _ => 0

/-- The `Data` that only this thread knew when it came to the point: its call retires it now. -/
def takes : Point O K V → Nat
  | .retire _ _ data _ _ | .destroy data => data
  | point => point.ward

/-- The `Data` that the next step reads or writes. The one that is left out is `data->count` in the
loop of `rescale`, after `data` has been retired. -/
def touches : Point O K V → Nat
  | .ready _ _ data | .entries _ _ data _ _ | .values _ data _ => data
  | .offer counted _ (.count _ _) (.update _) => counted
  | .offer _ _ (.count _ _) (.rescale _ _ _ _ _) => 0
  | .offer _ data _ _ => data
  | _ => 0

/-- The thread has its hazard pointer. -/
def holding : Point O K V → Bool
  | .idle | .acquire _ | .enter _ | .look _ | .values _ _ _ | .exit => false
  | _ => true

end Point

/-- A thread constructs or destroys a reservoir, calls `update` or `snapshot`, exits, or takes a
step. -/
inductive Event (T O K V : Type) where
  | construct (t : T) (o : O) (created scheduled : Nat)
  | update (t : T) (o : O) (a : Sample K V)
  | snapshot (t : T) (o : O)
  | destroy (t : T) (o : O)
  | exit (t : T)
  | step (t : T)

end Reservoirs

/-- The reservoirs, the `Data` objects by address, and the hazard pointers. -/
structure Reservoirs (T O K V : Type) [LinearOrder K] where
  sys : Hazard.Sys T Nat O
  heap : Nat → Data K V
  fresh : Nat
  data : O → Nat
  nextScale : O → Nat
  mutex : O → Option T
  clock : Nat
  point : T → Reservoirs.Point O K V
  owner : Nat → Option O
  constructed : O → Option Nat
  won : O → Nat
  recorded : List (O × Sample K V)
  result : T → Option (Nat × List (K × V))

namespace Reservoirs

/-- The first entry behind the ones that have been taken. -/
def following {K V : Type} [LinearOrder K] (m : OrderedMap K V) (taken : List (K × V)) :
    Option (K × V) :=
  m.entries.find? fun e => taken.all fun x => decide (x.1 < e.1)

variable {T O K V : Type} [DecidableEq T] [DecidableEq O] [Field K] [LinearOrder K] [Inhabited K]

def init : Reservoirs T O K V where
  sys := .init
  heap _ := ⟨.empty, 0, 0⟩
  fresh := 1
  data _ := 0
  nextScale _ := 0
  mutex _ := none
  clock := 0
  point _ := .idle
  owner _ := none
  constructed _ := none
  won _ := 0
  recorded := []
  result _ := none

/-- Thread `t` goes on at a point, entering the call that is made there. -/
def goto (s : Reservoirs T O K V) (t : T) (point : Point O K V) : Reservoirs T O K V :=
  { s with
    point := fun u => if u = t then point else s.point u
    sys := match point.call with
      | some c => s.sys.call t c
      | none => s.sys }

/-- `new Data(now)` for a reservoir. -/
def alloc (s : Reservoirs T O K V) (o : O) (now : Nat) : Reservoirs T O K V :=
  { s with
    heap := fun p => if p = s.fresh then ⟨.empty, 0, now⟩ else s.heap p
    owner := fun p => if p = s.fresh then some o else s.owner p
    fresh := s.fresh + 1 }

def setData (s : Reservoirs T O K V) (o : O) (data : Nat) : Reservoirs T O K V :=
  { s with data := fun x => if x = o then data else s.data x }

def setMutex (s : Reservoirs T O K V) (o : O) (holder : Option T) : Reservoirs T O K V :=
  { s with mutex := fun x => if x = o then holder else s.mutex x }

/-- The exchange of `next_scale_` succeeds. -/
def reschedule (s : Reservoirs T O K V) (o : O) : Reservoirs T O K V :=
  { s with
    nextScale := fun x => if x = o then s.nextScale o + hour else s.nextScale x
    won := fun x => if x = o then s.won o + 1 else s.won x }

/-- An operation on a count and on a map, which need not be those of one `Data`. -/
def write (s : Reservoirs T O K V) (counted values : Nat) (d : Data K V) : Reservoirs T O K V :=
  { s with
    heap := fun p =>
      let x := s.heap p
      let x := if p = counted then { x with count := d.count } else x
      if p = values then { x with map := d.map } else x }

/-- The time from the landmark of a `Data` to `now`, which may have been read before that `Data` was
made. -/
def delta (s : Reservoirs T O K V) (data now : Nat) : Int := (now : Int) - (s.heap data).landmark

/-- A step outside the hazard pointers; `none` while the mutex is locked. -/
def act (exp : Int → K) (s : Reservoirs T O K V) (t : T) : Option (Reservoirs T O K V) :=
  match s.point t with
  | .schedule o a =>
      some (s.goto t (if s.nextScale o < a.now then .compete o a (s.nextScale o) else .load o a))
  | .compete o a next =>
      if s.nextScale o = next then some ((s.reschedule o).goto t (.lock o a))
      else some (s.goto t (.load o a))
  | .lock o a =>
      if s.mutex o = none then
        some (((s.setMutex o (some t)).alloc o a.now).goto t (.hazard o a s.fresh))
      else none
  | .read o a nextdata => some (s.goto t (.store o a (s.data o) nextdata))
  | .store o a data nextdata => some ((s.setData o nextdata).goto t (.entries o a data nextdata []))
  | .entries o a data nextdata snap =>
      match following (s.heap data).map snap with
      | some e => some (s.goto t (.entries o a data nextdata (snap ++ [e])))
      | none =>
          let factor := exp (-s.delta data a.now)
          let scaled := snap.map fun e => (e.1 * factor, e.2)
          some (s.goto t (.retire o a data nextdata scaled.reverse))
  | .reinsert o a data nextdata (e :: rest) =>
      some (s.goto t (.offer data nextdata (.count e.1 e.2) (.rescale o a data nextdata rest)))
  | .reinsert o a _ nextdata [] => some ((s.setMutex o none).goto t (.ready o a nextdata))
  | .ready o a data =>
      let priority := exp (s.delta data a.now) / (1 - a.random)
      some (s.goto t (.offer data data (.count priority a.value) (.update o)))
  | .offer counted values pc site =>
      let d : Data K V := { s.heap values with count := (s.heap counted).count }
      (Shared.plan d pc).map fun r =>
        (s.write counted values r.1).goto t
          (match r.2 with
            | .idle => site.point
            | pc => .offer counted values pc site)
  | .close data => some (s.goto t (.destroy data))
  | .enter o => if s.mutex o = none then some ((s.setMutex o (some t)).goto t (.look o)) else none
  | .look o => some (s.goto t (.values o (s.data o) []))
  | .values o data taken =>
      match following (s.heap data).map taken with
      | some e => some (s.goto t (.values o data (taken ++ [e])))
      | none =>
          some ({ s.setMutex o none with
            result := fun u => if u = t then some (data, taken) else s.result u }.goto t .idle)
  | _ => none

def step (exp : Int → K) (s : Reservoirs T O K V) (t : T) : Option (Reservoirs T O K V) :=
  match (s.point t).call with
  | none => s.act exp t
  | some _ =>
      (s.sys.step 1 s.data t).map fun next =>
        { s with
          sys := next.1
          point := fun u =>
            if u = t then
              match next.2 with
              | some q => (s.point t).resume q
              | none => s.point t
            else s.point u }

/-- Thread `t` makes a request, looking for its hazard pointer first. -/
def request (s : Reservoirs T O K V) (t : T) (c : Request O K V) : Reservoirs T O K V :=
  s.goto t (if (s.sys.own t).isSome then c.point else .acquire c)

variable [Fintype T]

/-- What happens when an event is taken; `none` if it cannot be taken. Nobody is inside a member
function of a reservoir that is destroyed. -/
def next (exp : Int → K) (s : Reservoirs T O K V) : Event T O K V → Option (Reservoirs T O K V)
  | .construct t o created scheduled =>
      match s.point t with
      | .idle =>
          if s.constructed o = none ∧ s.clock ≤ created ∧ created ≤ scheduled then
            some { (s.alloc o created).setData o s.fresh with
              nextScale := fun x => if x = o then scheduled + hour else s.nextScale x
              constructed := fun x => if x = o then some scheduled else s.constructed x
              clock := scheduled }
          else none
      | _ => none
  | .update t o a =>
      match s.point t with
      | .idle =>
          if s.data o ≠ 0 ∧ s.clock ≤ a.now then
            some ({ s with clock := a.now, recorded := (o, a) :: s.recorded }.request t (.update o a))
          else none
      | _ => none
  | .snapshot t o =>
      match s.point t with
      | .idle => if s.data o ≠ 0 then some (s.goto t (.enter o)) else none
      | _ => none
  | .destroy t o =>
      match s.point t with
      | .idle =>
          if s.data o ≠ 0 ∧ ∀ u, (s.point u).this ≠ some o then
            some ((s.setData o 0).request t (.destroy (s.data o)))
          else none
      | _ => none
  | .exit t =>
      match s.point t with
      | .idle => if (s.sys.own t).isSome then some (s.goto t .exit) else none
      | _ => none
  | .step t => s.step exp t

section Events

variable {exp : Int → K} {s s' : Reservoirs T O K V} {t : T} {o : O}

theorem next_construct {created scheduled : Nat}
    (taken : s.next exp (.construct t o created scheduled) = some s') :
    s.point t = .idle ∧ (s.constructed o = none ∧ s.clock ≤ created ∧ created ≤ scheduled) ∧
      s' = { (s.alloc o created).setData o s.fresh with
        nextScale := fun x => if x = o then scheduled + hour else s.nextScale x
        constructed := fun x => if x = o then some scheduled else s.constructed x
        clock := scheduled } := by
  simp only [next] at taken
  split at taken
  case h_2 => cases taken
  split at taken <;> cases taken
  exact ⟨‹_›, ‹_›, rfl⟩

theorem next_update {a : Sample K V} (taken : s.next exp (.update t o a) = some s') :
    s.point t = .idle ∧ (s.data o ≠ 0 ∧ s.clock ≤ a.now) ∧
      s' = { s with clock := a.now, recorded := (o, a) :: s.recorded }.request t (.update o a) := by
  simp only [next] at taken
  split at taken
  case h_2 => cases taken
  split at taken <;> cases taken
  exact ⟨‹_›, ‹_›, rfl⟩

theorem next_snapshot (taken : s.next exp (.snapshot t o) = some s') :
    s.point t = .idle ∧ s.data o ≠ 0 ∧ s' = s.goto t (.enter o) := by
  simp only [next] at taken
  split at taken
  case h_2 => cases taken
  split at taken <;> cases taken
  exact ⟨‹_›, ‹_›, rfl⟩

theorem next_destroy (taken : s.next exp (.destroy t o) = some s') :
    s.point t = .idle ∧ (s.data o ≠ 0 ∧ ∀ u, (s.point u).this ≠ some o) ∧
      s' = (s.setData o 0).request t (.destroy (s.data o)) := by
  simp only [next] at taken
  split at taken
  case h_2 => cases taken
  split at taken <;> cases taken
  exact ⟨‹_›, ‹_›, rfl⟩

theorem next_exit (taken : s.next exp (.exit t) = some s') :
    s.point t = .idle ∧ (s.sys.own t).isSome ∧ s' = s.goto t .exit := by
  simp only [next] at taken
  split at taken
  case h_2 => cases taken
  split at taken <;> cases taken
  exact ⟨‹_›, ‹_›, rfl⟩

end Events

end Reservoirs

end Ccmetrics.Reservoir
