/-
# Reservoir.Update -- `ExponentialReservoir`, one update after another

A single thread calls `update` at non-decreasing times. The map is the ordered map that the skip
list is for such a thread. What `update` computes in floating point enters as a priority from any
linear order, and the factor `exp(-kAlpha * delta)` as a function `scale` of the elapsed time.

`rescale` fills a fresh `Data` from the old one, but counts the entries on the old `count`. The
new `count` stays 0, so it is not the size of the new map, and the next `kSize` updates are all
inserted (`update_overfull`). The bound holds along every run in which no rescaling carries an
entry over (`size_le_kSize`).
-/
import Mathlib.Algebra.Order.Field.Rat
import Ccmetrics.Theory.Run
import Ccmetrics.Theory.OrderedMap

namespace Ccmetrics.Reservoir

set_option autoImplicit false
set_option linter.unusedSectionVars false

open Theory (OrderedMap)

def kSize : Nat := 1028

/-- `std::chrono::hours(1)`, in nanoseconds. -/
def hour : Nat := 3600000000000

structure Data (K V : Type) [LinearOrder K] where
  map : OrderedMap K V
  count : Nat
  landmark : Nat

section Offer

variable {K V : Type} [LinearOrder K] [Inhabited K]

/-- `while (!values.erase(first)) first = values.firstKey();`, at most `fuel` times around. -/
def evict (m : OrderedMap K V) : Nat → K → Option (OrderedMap K V)
  | 0, first => if m.contains first then some (m.erase first) else none
  | fuel + 1, first =>
      if m.contains first then some (m.erase first) else evict m fuel m.firstKey

/-- Offer an entry to the map, with the count that `fetch_add` returned. The loop ends within one
round for every entry of the map; for an empty map it would not end. -/
def offer (count : Nat) (values : OrderedMap K V) (priority : K) (value : V) :
    Option (OrderedMap K V) :=
  if count < kSize then some (values.insert priority value)
  else
    let first := values.firstKey
    if first < priority ∧ values.contains priority = false then
      let values := values.insert priority value
      evict values values.size first
    else some values

/-- The loop erases one entry. -/
theorem evict_spec {m : OrderedMap K V} (some_ : m.keys.Nonempty) {fuel : Nat} (enough : 1 ≤ fuel)
    (first : K) : ∃ k ∈ m.keys, evict m fuel first = some (m.erase k) := by
  obtain ⟨fuel, rfl⟩ : ∃ n, fuel = n + 1 := ⟨fuel - 1, by omega⟩
  rw [evict]
  split
  · rename_i present
    exact ⟨first, OrderedMap.contains_iff.1 present, rfl⟩
  · have least := OrderedMap.firstKey_mem some_
    refine ⟨m.firstKey, least, ?_⟩
    cases fuel <;> rw [evict, if_pos (OrderedMap.contains_iff.2 least)]

/-- An offer returns. Below `kSize` it may add an entry; from there on the size stays. -/
theorem offer_spec (count : Nat) (values : OrderedMap K V) (priority : K) (value : V) :
    ∃ values', offer count values priority value = some values' ∧
      (count < kSize → values' = values.insert priority value) ∧
      (kSize ≤ count → values'.size = values.size) := by
  simp only [offer]
  split
  · rename_i below
    exact ⟨_, rfl, fun _ => rfl, fun full => absurd below (by omega)⟩
  · rename_i full
    split
    · rename_i adds
      have isNew : priority ∉ values.keys := by
        simpa [← OrderedMap.contains_iff] using adds.2
      have grown : (values.insert priority value).size = values.size + 1 :=
        OrderedMap.size_insert isNew
      have some_ : (values.insert priority value).keys.Nonempty := by
        rw [OrderedMap.keys_insert]
        exact Finset.insert_nonempty ..
      obtain ⟨k, member, evicted⟩ := evict_spec some_ (grown ▸ Nat.le_add_left ..) values.firstKey
      refine ⟨_, evicted, fun below => absurd below full, fun _ => ?_⟩
      have := OrderedMap.size_erase member
      omega
    · exact ⟨_, rfl, fun below => absurd below full, fun _ => rfl⟩

end Offer

structure State (K V : Type) [LinearOrder K] where
  data : Data K V
  nextScale : Nat
  clock : Nat

/-- A call of `update`: when, with which priority, and the value. -/
structure Action (K V : Type) where
  now : Nat
  priority : K
  value : V

namespace State

variable {K V : Type} [LinearOrder K] [Inhabited K]

/-- `ExponentialReservoir()`; the clock is read twice. -/
def init (created scheduled : Nat) : State K V where
  data := ⟨.empty, 0, created⟩
  nextScale := scheduled + hour
  clock := scheduled

/-- The reinsertion loop of `rescale`, which counts on the old `count`. -/
def reinsert : List (K × V) → Nat → OrderedMap K V → Option (OrderedMap K V)
  | [], _, values => some values
  | e :: rest, count, values =>
      match offer count values e.1 e.2 with
      | some values => reinsert rest (count + 1) values
      | none => none

def rescale (scale : Nat → K → K) (s : State K V) (now : Nat) : Option (State K V) :=
  let snap := s.data.map.entries.map fun e => (scale (now - s.data.landmark) e.1, e.2)
  (reinsert snap.reverse s.data.count .empty).map fun values =>
    { s with data := ⟨values, 0, now⟩, nextScale := s.nextScale + hour }

def loadAndRescaleIfNeeded (scale : Nat → K → K) (s : State K V) (now : Nat) :
    Option (State K V) :=
  if s.nextScale < now then s.rescale scale now else some s

def update (scale : Nat → K → K) (s : State K V) (now : Nat) (priority : K) (value : V) :
    Option (State K V) :=
  match s.loadAndRescaleIfNeeded scale now with
  | some s =>
      (offer s.data.count s.data.map priority value).map fun values =>
        { s with data := { s.data with map := values, count := s.data.count + 1 } }
  | none => none

/-- The time of an update is not before that of the last one. -/
def next (scale : Nat → K → K) (s : State K V) (a : Action K V) : Option (State K V) :=
  if s.clock ≤ a.now then
    (s.update scale a.now a.priority a.value).map fun s => { s with clock := a.now }
  else none

variable {scale : Nat → K → K} {s s' : State K V} {a : Action K V}

/-! ## The bound -/

/-- With a full count nothing is carried over: every entry is inserted and evicted again. -/
theorem reinsert_full {count : Nat} (full : kSize ≤ count) (snap : List (K × V))
    (values : OrderedMap K V) :
    ∃ values', reinsert snap count values = some values' ∧ values'.size = values.size := by
  induction snap generalizing count values with
  | nil => exact ⟨values, rfl, rfl⟩
  | cons e rest ih =>
      obtain ⟨mid, offered, -, kept⟩ := offer_spec count values e.1 e.2
      have fuller : kSize ≤ count + 1 := by omega
      obtain ⟨last, done, same⟩ := ih fuller mid
      exact ⟨last, by simp only [reinsert, offered, done], same.trans (kept full)⟩

theorem reinsert_returns (snap : List (K × V)) (count : Nat) (values : OrderedMap K V) :
    ∃ values', reinsert snap count values = some values' := by
  induction snap generalizing count values with
  | nil => exact ⟨values, rfl⟩
  | cons e rest ih =>
      obtain ⟨mid, offered, -, -⟩ := offer_spec count values e.1 e.2
      obtain ⟨last, done⟩ := ih (count + 1) mid
      exact ⟨last, by simp only [reinsert, offered, done]⟩

/-- Every update returns. -/
theorem update_returns (scale : Nat → K → K) (s : State K V) (now : Nat) (priority : K)
    (value : V) : ∃ s', s.update scale now priority value = some s' := by
  have loaded : ∃ mid, s.loadAndRescaleIfNeeded scale now = some mid := by
    simp only [loadAndRescaleIfNeeded]
    split
    · obtain ⟨values, done⟩ := reinsert_returns
        (s.data.map.entries.map fun e => (scale (now - s.data.landmark) e.1, e.2)).reverse
        s.data.count .empty
      exact ⟨_, by rw [rescale, done]; rfl⟩
    · exact ⟨s, rfl⟩
  obtain ⟨mid, loaded⟩ := loaded
  obtain ⟨values, offered, -, -⟩ := offer_spec mid.data.count mid.data.map priority value
  exact ⟨_, by simp only [update, loaded, offered]; rfl⟩

theorem next_returns (scale : Nat → K → K) (later : s.clock ≤ a.now) :
    ∃ s', s.next scale a = some s' := by
  obtain ⟨s', updated⟩ := update_returns scale s a.now a.priority a.value
  exact ⟨{ s' with clock := a.now }, by rw [next, if_pos later, updated]; rfl⟩

/-- So does every run of updates at non-decreasing times. -/
theorem run_returns (scale : Nat → K → K) {as : List (Action K V)}
    (ascending : as.Pairwise fun a b => a.now ≤ b.now) (later : ∀ a ∈ as, s.clock ≤ a.now) :
    ∃ s', Theory.run (next scale) s as = some s' := by
  induction as generalizing s with
  | nil => exact ⟨s, rfl⟩
  | cons a rest ih =>
      obtain ⟨after, ascending⟩ := List.pairwise_cons.1 ascending
      obtain ⟨mid, taken⟩ := next_returns scale (later a (List.mem_cons_self ..))
      have clock : mid.clock = a.now := by
        simp only [next] at taken
        split at taken
        · obtain ⟨_, -, rfl⟩ := Option.map_eq_some_iff.1 taken
          rfl
        · cases taken
      obtain ⟨s', ran⟩ := ih ascending fun b inRest => clock ▸ after b inRest
      exact ⟨s', Theory.run_cons_eq_some.2 ⟨mid, taken, ran⟩⟩

/-- The map is never larger than its count, nor than `kSize`. -/
structure Bounded (s : State K V) : Prop where
  counted : s.data.map.size ≤ s.data.count
  size : s.data.map.size ≤ kSize

/-- The update does not rescale, or there is nothing to carry over. -/
def CarriesNothing (s : State K V) (a : Action K V) : Prop :=
  s.nextScale < a.now → s.data.map.entries = [] ∨ kSize ≤ s.data.count

theorem Bounded.load (bounded : s.Bounded) (carries : s.CarriesNothing a)
    (loaded : s.loadAndRescaleIfNeeded scale a.now = some s') : s'.Bounded := by
  simp only [loadAndRescaleIfNeeded] at loaded
  split at loaded
  · rename_i late
    obtain ⟨values, done, rfl⟩ := Option.map_eq_some_iff.1 loaded
    have none_ : values.size = 0 := by
      rcases carries late with empty | full
      · rw [empty] at done
        cases done
        rfl
      · obtain ⟨values', done', same⟩ := reinsert_full full
          (s.data.map.entries.map fun e => (scale (a.now - s.data.landmark) e.1, e.2)).reverse
          (.empty : OrderedMap K V)
        cases Option.some.inj (done.symm.trans done')
        exact same
    exact ⟨by simp only [none_]; omega, by simp only [none_]; omega⟩
  · cases loaded
    exact bounded

theorem Bounded.offer (bounded : s.Bounded) {priority : K} {value : V}
    {values : OrderedMap K V}
    (offered : Reservoir.offer s.data.count s.data.map priority value = some values) :
    { s with data := { s.data with map := values, count := s.data.count + 1 } }.Bounded := by
  obtain ⟨values', offered', below, full⟩ :=
    offer_spec s.data.count s.data.map priority value
  cases Option.some.inj (offered.symm.trans offered')
  have counted := bounded.counted
  have size := bounded.size
  by_cases room : s.data.count < kSize
  · have grown := OrderedMap.size_insert_le s.data.map priority value
    rw [← below room] at grown
    exact ⟨by simp only; omega, by simp only; omega⟩
  · have same := full (by omega)
    exact ⟨by simp only; omega, by simp only; omega⟩

theorem Bounded.next (bounded : s.Bounded) (carries : s.CarriesNothing a)
    (taken : s.next scale a = some s') : s'.Bounded := by
  simp only [State.next] at taken
  split at taken
  · obtain ⟨done, updated, rfl⟩ := Option.map_eq_some_iff.1 taken
    simp only [update] at updated
    split at updated
    · rename_i mid loaded
      obtain ⟨values, offered, rfl⟩ := Option.map_eq_some_iff.1 updated
      have kept := (bounded.load carries loaded).offer offered
      exact ⟨kept.counted, kept.size⟩
    · cases updated
  · cases taken

/-- **The reservoir stays within its size.** Along every run of updates at non-decreasing times
in which each rescaling finds an empty map or a count that has reached `kSize`, the map never has
more than `kSize` entries; and every update returns. -/
theorem size_le_kSize {created scheduled : Nat} {as : List (Action K V)}
    (carries : Theory.Along (State.next scale) CarriesNothing (init created scheduled) as)
    (ran : Theory.run (State.next scale) (init created scheduled) as = some s) :
    s.data.map.size ≤ kSize ∧
      ∀ a, s.clock ≤ a.now → ∃ s', s.next scale a = some s' := by
  have start : (init created scheduled : State K V).Bounded :=
    ⟨Nat.zero_le _, Nat.zero_le _⟩
  have bounded : s.Bounded :=
    Theory.run_along (fun _ _ _ before met taken => before.next met taken) start carries ran
  exact ⟨bounded.size, fun _ later => next_returns scale later⟩

instance decidableCarriesNothing (s : State K V) (a : Action K V) : Decidable (s.CarriesNothing a) :=
  inferInstanceAs (Decidable (_ → s.data.map.entries = [] ∨ _))

/-- Rescaling by one half. -/
def halve (_ : Nat) (x : ℚ) : ℚ := x / 2

/-- The first update comes late and rescales an empty map. -/
theorem size_le_kSize_late : ∃ s : State ℚ Nat,
    Theory.run (State.next halve) (init 0 0) [⟨hour + 1, 1, 7⟩, ⟨hour + 2, 2, 8⟩] = some s ∧
    s.nextScale = 2 * hour ∧ s.data.map.size ≤ kSize := by
  have ran : (Theory.run (State.next halve) (init 0 0)
      [⟨hour + 1, 1, 7⟩, ⟨hour + 2, 2, 8⟩]).map (fun s : State ℚ Nat => s.nextScale) =
        some (2 * hour) := by decide +kernel
  obtain ⟨s, ran, scheduled⟩ := Option.map_eq_some_iff.1 ran
  exact ⟨s, ran, scheduled, (size_le_kSize (by decide +kernel) ran).1⟩

/-- Offers of ever larger priorities, all at one time. -/
def offers (now : Nat) (c : ℚ) (n : Nat) : List (Action ℚ Nat) :=
  (List.range n).map fun i : Nat => ⟨now, c + (i : ℚ), 0⟩

/-- While the count has room every one of them is inserted. -/
theorem run_offers {s : State ℚ Nat} {c : ℚ} (now n : Nat) (early : now ≤ s.nextScale)
    (later : s.clock ≤ now) (room : s.data.count + n ≤ kSize)
    (below : ∀ k ∈ s.data.map.keys, k < c) :
    ∃ s', Theory.run (State.next halve) s (offers now c n) = some s' ∧
      s'.data.map.size = s.data.map.size + n ∧ s'.data.count = s.data.count + n ∧
      s'.nextScale = s.nextScale ∧ s'.clock ≤ now ∧ ∀ k ∈ s'.data.map.keys, k < c + n := by
  induction n with
  | zero => exact ⟨s, rfl, rfl, rfl, rfl, later, by simpa using below⟩
  | succ n ih =>
      obtain ⟨mid, ran, size, count, scheduled, later', below'⟩ := ih (by omega)
      have isNew : c + n ∉ mid.data.map.keys := fun member => lt_irrefl _ (below' _ member)
      have offered : offer mid.data.count mid.data.map (c + n) 0 =
          some (mid.data.map.insert (c + n) 0) := by
        rw [offer, if_pos (by omega)]
      have notLate : ¬ mid.nextScale < now := by omega
      have taken : mid.next halve ⟨now, c + n, 0⟩ = some
          { mid with
            data := ⟨mid.data.map.insert (c + n) 0, mid.data.count + 1, mid.data.landmark⟩
            clock := now } := by
        simp only [State.next, if_pos later', update, loadAndRescaleIfNeeded, if_neg notLate,
          offered, Option.map_some]
      refine ⟨{ mid with
          data := ⟨mid.data.map.insert (c + n) 0, mid.data.count + 1, mid.data.landmark⟩
          clock := now }, ?_, ?_, ?_, scheduled, le_rfl, ?_⟩
      · rw [offers, List.range_succ, List.map_append]
        exact Theory.run_snoc ran taken
      · simp only [OrderedMap.size_insert isNew, size, Nat.add_assoc]
      · simp only [count, Nat.add_assoc]
      · intro k member
        rw [OrderedMap.keys_insert, Finset.mem_insert] at member
        have step : c + (n : ℚ) < c + ((n + 1 : Nat) : ℚ) := by simp
        rcases member with rfl | before
        · exact step
        · exact (below' k before).trans step

/-- One update, a rescaling that carries it over, and `kSize` updates after it. -/
def overfull : List (Action ℚ Nat) :=
  [⟨0, 1, 0⟩, ⟨hour + 1, 2, 0⟩] ++ offers (hour + 1) 3 1027

theorem update_overfull : (∀ delta, StrictMono (halve delta)) ∧ (∀ a ∈ overfull, 0 < a.priority) ∧
    ∃ s : State ℚ Nat,
      Theory.run (State.next halve) (init 0 0) overfull = some s ∧ s.data.map.size = 1029 := by
  refine ⟨fun _ x y below => ?_, ?_, ?_⟩
  · exact div_lt_div_of_pos_right below (by decide)
  · intro a member
    simp only [overfull, offers, List.mem_append, List.mem_map] at member
    rcases member with first | ⟨i, -, rfl⟩
    · revert first
      revert a
      decide
    · exact lt_of_lt_of_le (by decide : (0 : ℚ) < 3) (le_add_of_nonneg_right (Nat.cast_nonneg _))
  · have ran : (Theory.run (State.next halve) (init 0 0) [⟨0, 1, 0⟩, ⟨hour + 1, 2, 0⟩]).map
        (fun s : State ℚ Nat =>
          (s.data.map.entries, s.data.count, s.nextScale, s.clock)) =
          some ([(1 / 2, 0), (2, 0)], 1, 2 * hour, hour + 1) := by decide +kernel
    obtain ⟨mid, ran, seen⟩ := Option.map_eq_some_iff.1 ran
    simp only [Prod.mk.injEq] at seen
    obtain ⟨entries, count, scheduled, clock⟩ := seen
    have below : ∀ k ∈ mid.data.map.keys, k < 3 := by
      have all : ∀ e ∈ mid.data.map.entries, e.1 < 3 := by rw [entries]; decide +kernel
      intro k member
      obtain ⟨e, inEntries, rfl⟩ := OrderedMap.mem_keys.1 member
      exact all e inEntries
    obtain ⟨last, ran', size, -⟩ := run_offers (hour + 1) 1027
      (by rw [scheduled]; decide) (by rw [clock]) (by rw [count]; decide) below
    refine ⟨last, Theory.run_append_eq_some.2 ⟨mid, ran, ran'⟩, ?_⟩
    rw [size, OrderedMap.size, entries]
    rfl

end State

end Ccmetrics.Reservoir
