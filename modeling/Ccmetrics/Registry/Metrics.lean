/-
# Registry.Metrics -- `MetricRegistryImpl`

Counters, timers and meters have a map each, and `counter`, `timer` and `meter` return the object of
a name, which they create when the name is new. A call holds the mutex of its map from beginning to
end, so a history is the list of the calls of all threads in the order in which they got through.

The three maps together are one table that numbers the pairs of a kind and a name in the order in
which they are first asked for (`Numbers`, `Sound`).

`lawful_iff`: calls of one kind return the same object if and only if they are for the same name, a
listing has exactly the objects returned so far, and the destructor deletes every object once --
that last point if and only if no meter has been created. The destructor goes through `counters_` and
`timers_`; `meter_forgotten` is a history that leaves an object behind.
-/
import Ccmetrics.Theory.Numbering
import Ccmetrics.Theory.OrderedMap
import Mathlib.Data.List.AList
import Mathlib.Data.String.Basic

namespace Ccmetrics.Registry

set_option autoImplicit false

/-- An object is known by the number of objects created before it. -/
abbrev Addr := Nat

/-- `std::unordered_map`. Nothing here depends on the order it is gone through in. A `std::string` is
a `String` that has a character for each byte. -/
structure MetricMap (T : Type) where
  metrics : AList fun _ : String => T

namespace MetricMap

variable {T : Type}

def empty : MetricMap T := ⟨∅⟩

def deleteMetrics (mm : MetricMap T) : List T := mm.metrics.entries.map fun it => it.2

def toMap (mm : MetricMap T) : Theory.OrderedMap String T :=
  mm.metrics.foldl (fun ret name metric => ret.insert name metric) .empty

/-- The body of `counter`, `timer` and `meter`: the map, the number of objects created, and the
object returned. -/
def findOrNew (mm : MetricMap Addr) (fresh : Addr) (name : String) : MetricMap Addr × Addr × Addr :=
  match mm.metrics.lookup name with
  | some exist => (mm, fresh, exist)
  | none => (⟨mm.metrics.insert name fresh⟩, fresh + 1, fresh)

end MetricMap

structure MetricRegistryImpl where
  counters_ : MetricMap Addr
  timers_ : MetricMap Addr
  meters_ : MetricMap Addr
  -- how many objects have been created
  fresh : Addr

namespace MetricRegistryImpl

def init : MetricRegistryImpl := ⟨.empty, .empty, .empty, 0⟩

/-- `~MetricRegistryImpl()`: what is deleted. -/
def destroy (r : MetricRegistryImpl) : List Addr :=
  r.counters_.deleteMetrics ++ r.timers_.deleteMetrics

def counter (r : MetricRegistryImpl) (name : String) : MetricRegistryImpl × Addr :=
  let (counters_, fresh, ret) := r.counters_.findOrNew r.fresh name
  ({ r with counters_ := counters_, fresh := fresh }, ret)

def timer (r : MetricRegistryImpl) (name : String) : MetricRegistryImpl × Addr :=
  let (timers_, fresh, ret) := r.timers_.findOrNew r.fresh name
  ({ r with timers_ := timers_, fresh := fresh }, ret)

def meter (r : MetricRegistryImpl) (name : String) : MetricRegistryImpl × Addr :=
  let (meters_, fresh, ret) := r.meters_.findOrNew r.fresh name
  ({ r with meters_ := meters_, fresh := fresh }, ret)

def counters (r : MetricRegistryImpl) : Theory.OrderedMap String Addr := r.counters_.toMap

def timers (r : MetricRegistryImpl) : Theory.OrderedMap String Addr := r.timers_.toMap

def meters (r : MetricRegistryImpl) : Theory.OrderedMap String Addr := r.meters_.toMap

end MetricRegistryImpl

inductive Kind where
  | counter
  | timer
  | meter
  deriving DecidableEq

namespace MetricRegistryImpl

def get (r : MetricRegistryImpl) : Kind → String → MetricRegistryImpl × Addr
  | .counter => r.counter
  | .timer => r.timer
  | .meter => r.meter

def list (r : MetricRegistryImpl) : Kind → Theory.OrderedMap String Addr
  | .counter => r.counters
  | .timer => r.timers
  | .meter => r.meters

def maps (r : MetricRegistryImpl) : Kind → MetricMap Addr
  | .counter => r.counters_
  | .timer => r.timers_
  | .meter => r.meters_

end MetricRegistryImpl

inductive Call where
  | get (kind : Kind) (name : String)
  | list (kind : Kind)
  deriving DecidableEq

/-- A call and what it returned. -/
inductive Event where
  | get (kind : Kind) (name : String) (ret : Addr)
  | list (kind : Kind) (ret : Theory.OrderedMap String Addr)

def Event.call : Event → Call
  | .get kind name _ => .get kind name
  | .list kind _ => .list kind

structure History where
  registry : MetricRegistryImpl
  events : List Event

def History.call (h : History) : Call → History
  | .get kind name =>
      let (registry, ret) := h.registry.get kind name
      ⟨registry, h.events ++ [.get kind name ret]⟩
  | .list kind => ⟨h.registry, h.events ++ [.list kind (h.registry.list kind)]⟩

/-- The history of a new registry. -/
def play (cs : List Call) : History := cs.foldl History.call ⟨.init, []⟩

/-- What the users of a registry rely on. -/
structure History.Lawful (h : History) : Prop where
  identity : ∀ kind name name' a a', .get kind name a ∈ h.events → .get kind name' a' ∈ h.events →
    (a = a' ↔ name = name')
  listings : ∀ before after kind m, h.events = before ++ .list kind m :: after →
    ∀ name a, m.find? name = some a ↔ .get kind name a ∈ before
  lifetime : ∀ kind name a, .get kind name a ∈ h.events → h.registry.destroy.count a = 1

/-! ## One map -/

namespace MetricMap

variable {T : Type} {mm : MetricMap T} {name : String} {a : T}

theorem mem_deleteMetrics : a ∈ mm.deleteMetrics ↔ ∃ name, mm.metrics.lookup name = some a := by
  simp only [deleteMetrics, List.mem_map]
  constructor
  · rintro ⟨entry, member, rfl⟩
    exact ⟨entry.1, AList.mem_lookup_iff.2 member⟩
  · rintro ⟨name, bound⟩
    exact ⟨⟨name, a⟩, AList.mem_lookup_iff.1 bound, rfl⟩

/-- Objects that have one name only are deleted once. -/
theorem nodup_deleteMetrics (single : ∀ name name' a, mm.metrics.lookup name = some a →
    mm.metrics.lookup name' = some a → name = name') : mm.deleteMetrics.Nodup := by
  refine List.Nodup.map_on ?_ mm.metrics.nodupKeys.nodup
  rintro ⟨name, a⟩ member ⟨name', a'⟩ member' same
  obtain rfl : a = a' := same
  rw [single name name' a (AList.mem_lookup_iff.2 member) (AList.mem_lookup_iff.2 member')]

/-- Copying entries with new names one by one. -/
theorem find?_foldl_insert {l : List (Sigma fun _ : String => T)} (nodup : l.NodupKeys)
    {ret : Theory.OrderedMap String T} (isNew : ∀ entry ∈ l, entry.1 ∉ ret.keys) :
    (l.foldl (fun ret entry => ret.insert entry.1 entry.2) ret).find? name = some a ↔
      ret.find? name = some a ∨ ⟨name, a⟩ ∈ l := by
  induction l generalizing ret with
  | nil => simp
  | cons entry rest ih =>
      obtain ⟨outside, nodup⟩ := List.nodupKeys_cons.1 nodup
      have entryNew := isNew entry (List.mem_cons_self ..)
      have restNew : ∀ e ∈ rest, e.1 ∉ (ret.insert entry.1 entry.2).keys := by
        intro e inRest
        rw [Theory.OrderedMap.keys_insert, Finset.mem_insert]
        rintro (same | old)
        · exact outside (same ▸ List.mem_keys_of_mem inRest)
        · exact isNew e (List.mem_cons_of_mem _ inRest) old
      have added : (ret.insert entry.1 entry.2).find? name = some a ↔
          ret.find? name = some a ∨ (⟨name, a⟩ : Sigma fun _ : String => T) = entry := by
        obtain ⟨key, value⟩ := entry
        rw [Theory.OrderedMap.find?_insert]
        by_cases same : name = key
        · subst same
          have absent : ret.find? name ≠ some a := fun old =>
            entryNew (Theory.OrderedMap.mem_keys.2
              ⟨(name, a), Theory.OrderedMap.find?_eq_some.1 old, rfl⟩)
          rw [if_pos ⟨rfl, entryNew⟩]
          simp [absent, eq_comm]
        · rw [if_neg fun both => same both.1]
          simp [same]
      rw [List.foldl_cons, ih nodup restNew, added, List.mem_cons, or_assoc]

theorem find?_toMap : mm.toMap.find? name = some a ↔ mm.metrics.lookup name = some a := by
  have noKeys : ∀ entry ∈ mm.metrics.entries,
      entry.1 ∉ (Theory.OrderedMap.empty : Theory.OrderedMap String T).keys := by
    intro entry _
    simp [Theory.OrderedMap.empty, Theory.OrderedMap.keys]
  rw [toMap, AList.foldl, find?_foldl_insert mm.metrics.nodupKeys noKeys]
  simp only [Theory.OrderedMap.find?, Theory.OrderedMap.empty, List.find?_nil, Option.map_none,
    reduceCtorEq, false_or]
  exact AList.mem_lookup_iff.symm

end MetricMap

/-! ## The three maps are one table -/

namespace MetricRegistryImpl

variable {r : MetricRegistryImpl} {kind kind' : Kind} {name name' : String} {a : Addr}

theorem get_known (known : (r.maps kind).metrics.lookup name = some a) : r.get kind name = (r, a) := by
  cases kind <;> simp only [maps] at known <;>
    simp only [get, counter, timer, meter, MetricMap.findOrNew, known]

/-- A new name changes the map of its kind. -/
theorem get_new (isNew : (r.maps kind).metrics.lookup name = none) :
    (r.get kind name).2 = r.fresh ∧ (r.get kind name).1.fresh = r.fresh + 1 ∧
    ((r.get kind name).1.maps kind).metrics = (r.maps kind).metrics.insert name r.fresh ∧
    ∀ kind', kind' ≠ kind → (r.get kind name).1.maps kind' = r.maps kind' := by
  cases kind <;> simp only [maps] at isNew <;>
    simp only [get, counter, timer, meter, MetricMap.findOrNew, isNew, maps, true_and] <;>
    (intro kind' other; cases kind' <;> first | rfl | exact absurd rfl other)

theorem find?_list : (r.list kind).find? name = some a ↔ (r.maps kind).metrics.lookup name = some a := by
  cases kind <;> exact MetricMap.find?_toMap

/-- The maps hold the table `t`. -/
structure Numbers (r : MetricRegistryImpl) (t : Theory.Numbering (Kind × String)) : Prop where
  lookup : ∀ kind name, (r.maps kind).metrics.lookup name = t.number? (kind, name)
  fresh : r.fresh = t.fresh

theorem numbers_init : init.Numbers .empty := by
  refine ⟨fun kind name => ?_, rfl⟩
  cases kind <;> exact AList.lookup_empty name

theorem Numbers.get {t : Theory.Numbering (Kind × String)} (numbers : r.Numbers t) (kind : Kind)
    (name : String) : (r.get kind name).1.Numbers (t.demand (kind, name)).1 ∧
      (r.get kind name).2 = (t.demand (kind, name)).2 := by
  cases bound : (r.maps kind).metrics.lookup name with
  | some a =>
      rw [get_known bound, Theory.Numbering.demand_known ((numbers.lookup kind name).symm.trans bound)]
      exact ⟨numbers, rfl⟩
  | none =>
      have isNew : t.number? (kind, name) = none := (numbers.lookup kind name).symm.trans bound
      obtain ⟨ret, fresh, inserted, others⟩ := get_new bound
      rw [Theory.Numbering.demand_new isNew]
      refine ⟨⟨fun kind' name' => ?_, fresh.trans (congrArg (· + 1) numbers.fresh)⟩,
        ret.trans numbers.fresh⟩
      simp only [Theory.Numbering.add, Prod.mk.injEq]
      by_cases sameKind : kind' = kind
      · rw [sameKind, inserted]
        by_cases same : name' = name
        · rw [same, AList.lookup_insert, if_pos ⟨rfl, rfl⟩, numbers.fresh]
        · rw [AList.lookup_insert_ne same, if_neg fun both => same both.2, numbers.lookup]
      · rw [others kind' sameKind, if_neg fun both => sameKind both.1, numbers.lookup]

/-- The destructor deletes the counters and the timers. -/
theorem mem_destroy :
    a ∈ r.destroy ↔ ∃ kind name, kind ≠ .meter ∧ (r.maps kind).metrics.lookup name = some a := by
  rw [destroy, List.mem_append, MetricMap.mem_deleteMetrics, MetricMap.mem_deleteMetrics]
  constructor
  · rintro (⟨name, bound⟩ | ⟨name, bound⟩)
    · exact ⟨.counter, name, by decide, bound⟩
    · exact ⟨.timer, name, by decide, bound⟩
  · rintro ⟨kind, name, notMeter, bound⟩
    cases kind with
    | counter => exact .inl ⟨name, bound⟩
    | timer => exact .inr ⟨name, bound⟩
    | meter => exact absurd rfl notMeter

/-- It deletes nothing twice. -/
theorem Numbers.nodup_destroy {t : Theory.Numbering (Kind × String)} (numbers : r.Numbers t) :
    r.destroy.Nodup := by
  have single : ∀ kind kind' name name' a, (r.maps kind).metrics.lookup name = some a →
      (r.maps kind').metrics.lookup name' = some a → (kind, name) = (kind', name') := by
    intro kind kind' name name' a bound bound'
    exact t.injective ((numbers.lookup ..).symm.trans bound) ((numbers.lookup ..).symm.trans bound')
  have once : ∀ kind, (r.maps kind).deleteMetrics.Nodup := fun kind =>
    MetricMap.nodup_deleteMetrics fun name name' a bound bound' =>
      (Prod.mk.inj (single kind kind name name' a bound bound')).2
  refine List.nodup_append'.2 ⟨once .counter, once .timer, fun a inCounters inTimers => ?_⟩
  obtain ⟨name, bound⟩ := MetricMap.mem_deleteMetrics.1 inCounters
  obtain ⟨name', bound'⟩ := MetricMap.mem_deleteMetrics.1 inTimers
  cases single .counter .timer name name' a bound bound'

end MetricRegistryImpl

/-! ## Histories -/

variable {h : History} {t : Theory.Numbering (Kind × String)}

/-- The table holds the objects that have been returned. -/
structure History.Sound (h : History) (t : Theory.Numbering (Kind × String)) : Prop where
  numbers : h.registry.Numbers t
  recorded : ∀ kind name a, t.number? (kind, name) = some a ↔ .get kind name a ∈ h.events
  listings : ∀ before after kind m, h.events = before ++ .list kind m :: after →
    ∀ name a, m.find? name = some a ↔ .get kind name a ∈ before

theorem sound_init : History.Sound ⟨.init, []⟩ .empty where
  numbers := MetricRegistryImpl.numbers_init
  recorded _ _ _ := by simp [Theory.Numbering.empty]
  listings before after _ _ cut := by simp at cut

/-- An event at the end leaves the listings before it. -/
theorem History.Sound.listings_snoc {e : Event} (sound : h.Sound t)
    (last : ∀ kind m, e = .list kind m →
      ∀ name a, m.find? name = some a ↔ .get kind name a ∈ h.events)
    (before after : List Event) (kind : Kind) (m : Theory.OrderedMap String Addr)
    (cut : h.events ++ [e] = before ++ .list kind m :: after) (name : String) (a : Addr) :
    m.find? name = some a ↔ .get kind name a ∈ before := by
  rcases List.eq_nil_or_concat after with rfl | ⟨after, e', rfl⟩
  · obtain ⟨same, isLast⟩ := List.append_inj' cut rfl
    rw [← same]
    exact last kind m (List.cons.inj isLast).1 name a
  · have cut : h.events ++ [e] = (before ++ .list kind m :: after) ++ [e'] := by simpa using cut
    exact sound.listings before after kind m (List.append_inj' cut rfl).1 name a

theorem History.Sound.call (sound : h.Sound t) (c : Call) : ∃ t, (h.call c).Sound t := by
  cases c with
  | get kind name =>
      obtain ⟨numbers, ret⟩ := sound.numbers.get kind name
      refine ⟨(t.demand (kind, name)).1, numbers, fun kind' name' a => ?_,
        sound.listings_snoc fun kind m same => nomatch same⟩
      rw [Theory.Numbering.number?_demand_eq_some, sound.recorded, ← ret]
      simp only [History.call, List.mem_append, List.mem_singleton, Event.get.injEq, Prod.mk.injEq,
        and_assoc]
  | list kind =>
      refine ⟨t, sound.numbers, fun kind' name a => ?_, sound.listings_snoc fun kind m same => ?_⟩
      · rw [sound.recorded]
        simp [History.call]
      · cases same
        intro name a
        rw [MetricRegistryImpl.find?_list, sound.numbers.lookup, sound.recorded]

theorem sound_play (cs : List Call) : ∃ t, (play cs).Sound t := by
  refine List.foldlRecOn (motive := fun h => ∃ t, h.Sound t) cs History.call ⟨.empty, sound_init⟩ ?_
  rintro h ⟨t, sound⟩ c -
  exact sound.call c

/-- The events are the calls that were made. -/
theorem calls_play (cs : List Call) : (play cs).events.map Event.call = cs := by
  suffices all : ∀ h : History,
      (cs.foldl History.call h).events.map Event.call = h.events.map Event.call ++ cs from all _
  induction cs with
  | nil => simp
  | cons c rest ih =>
      intro h
      rw [List.foldl_cons, ih]
      cases c <;> simp [History.call, Event.call]

/-- A listing has the names that have been asked for. -/
theorem names_play {cs : List Call} {kind : Kind} {name : String} :
    name ∈ ((play cs).registry.list kind).entries.map (·.1) ↔ .get kind name ∈ cs := by
  obtain ⟨t, sound⟩ := sound_play cs
  have bound : ∀ a, (name, a) ∈ ((play cs).registry.list kind).entries ↔
      .get kind name a ∈ (play cs).events := by
    intro a
    rw [← Theory.OrderedMap.find?_eq_some, MetricRegistryImpl.find?_list, sound.numbers.lookup,
      sound.recorded]
  constructor
  · intro listed
    obtain ⟨⟨_, a⟩, member, rfl⟩ := List.mem_map.1 listed
    rw [← calls_play cs]
    exact List.mem_map.2 ⟨_, (bound a).1 member, rfl⟩
  · intro called
    rw [← calls_play cs] at called
    obtain ⟨e, returned, same⟩ := List.mem_map.1 called
    cases e with
    | list => cases same
    | get kind' name' a =>
        cases same
        exact List.mem_map.2 ⟨_, (bound a).2 returned, rfl⟩

/-- An object is deleted if it is a counter or a timer. -/
theorem History.Sound.deleted (sound : h.Sound t) {kind : Kind} {name : String} {a : Addr}
    (returned : .get kind name a ∈ h.events) : h.registry.destroy.count a = 1 ↔ kind ≠ .meter := by
  have known := (sound.recorded kind name a).2 returned
  constructor
  · intro once isMeter
    have inside : a ∈ h.registry.destroy := List.count_pos_iff.1 (by omega)
    obtain ⟨kind', name', notMeter, bound⟩ := MetricRegistryImpl.mem_destroy.1 inside
    have same := t.injective known ((sound.numbers.lookup ..).symm.trans bound)
    cases same
    exact notMeter isMeter
  · intro notMeter
    exact List.count_eq_one_of_mem sound.numbers.nodup_destroy
      (MetricRegistryImpl.mem_destroy.2 ⟨kind, name, notMeter, (sound.numbers.lookup ..).trans known⟩)

/-- **The registry keeps its promises** to the users of counters and timers. It breaks one as soon
as there is a meter. -/
theorem lawful_iff (cs : List Call) : (play cs).Lawful ↔ ∀ name, .get .meter name ∉ cs := by
  obtain ⟨t, sound⟩ := sound_play cs
  have calls := calls_play cs
  constructor
  · intro lawful name called
    rw [← calls] at called
    obtain ⟨e, returned, same⟩ := List.mem_map.1 called
    cases e with
    | list kind m => cases same
    | get kind name' a =>
        cases same
        exact (sound.deleted returned).1 (lawful.lifetime _ _ _ returned) rfl
  · intro noMeter
    refine ⟨fun kind name name' a a' returned returned' => ?_, sound.listings,
      fun kind name a returned => (sound.deleted returned).2 ?_⟩
    · have numbered := Theory.Numbering.same_iff ((sound.recorded ..).2 returned)
        ((sound.recorded ..).2 returned')
      rw [numbered, Prod.mk.injEq]
      exact and_iff_right rfl
    · rintro rfl
      exact noMeter name (calls ▸ List.mem_map.2 ⟨_, returned, rfl⟩)

/-- The only object is a meter, and nothing is deleted. -/
theorem meter_forgotten : Event.get .meter "requests" 0 ∈ (play [.get .meter "requests"]).events ∧
    (play [.get .meter "requests"]).registry.destroy = [] ∧
    ¬ (play [.get .meter "requests"]).Lawful := by
  have returned : Event.get .meter "requests" 0 ∈ (play [.get .meter "requests"]).events :=
    List.mem_singleton.2 rfl
  have nothing : (play [.get .meter "requests"]).registry.destroy = [] := rfl
  refine ⟨returned, nothing, fun lawful => ?_⟩
  have once := lawful.lifetime _ _ _ returned
  rw [nothing] at once
  cases once

end Ccmetrics.Registry
