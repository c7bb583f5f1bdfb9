/-
# Reservoir.Rescale -- what a rescaling keeps

`rescale` puts the entries of the old map into the new one in descending order of their
priorities. As long as the counter has room every one of them goes to the front (`reinsert_room`).
But the counter is that of the old `Data`, so there is room for `kSize - count` of them only, and
the others are dropped or evicted at once (`reinsert_size`). A rescaling keeps everything if and
only if the old count left room for everything (`rescale_keeps_iff`); a full reservoir is emptied.
-/
import Mathlib.Analysis.Complex.Exponential
import Ccmetrics.Reservoir.Update

namespace Ccmetrics.Reservoir

set_option autoImplicit false
set_option linter.unusedSectionVars false

open Theory (OrderedMap)

namespace State

section Order

variable {K V : Type} [LinearOrder K] [Inhabited K]

/-- An entry that comes before all others is put at the front. -/
theorem insert_front {m : OrderedMap K V} {k : K} (v : V) (below : ∀ e ∈ m.entries, k < e.1) :
    (m.insert k v).entries = (k, v) :: m.entries := by
  simp only [OrderedMap.insert]
  cases split : m.entries with
  | nil => rfl
  | cons d rest =>
      have first : k < d.1 := below d (by rw [split]; exact List.mem_cons_self ..)
      simp only [OrderedMap.insertEntry, first, if_true]

theorem reinsert_room {snap : List (K × V)} {count : Nat} {values : OrderedMap K V}
    (room : count + snap.length ≤ kSize) (descending : snap.Pairwise fun a b => b.1 < a.1)
    (below : ∀ a ∈ snap, ∀ e ∈ values.entries, a.1 < e.1) :
    ∃ values', reinsert snap count values = some values' ∧
      values'.entries = snap.reverse ++ values.entries := by
  induction snap generalizing count values with
  | nil => exact ⟨values, rfl, rfl⟩
  | cons e rest ih =>
      obtain ⟨lower, descending⟩ := List.pairwise_cons.1 descending
      have inRoom : count < kSize := by simp only [List.length_cons] at room; omega
      have front : (values.insert e.1 e.2).entries = (e.1, e.2) :: values.entries :=
        insert_front e.2 (below e (List.mem_cons_self ..))
      have offered : offer count values e.1 e.2 = some (values.insert e.1 e.2) := if_pos inRoom
      obtain ⟨values', done, entries⟩ : ∃ values',
          reinsert rest (count + 1) (values.insert e.1 e.2) = some values' ∧
            values'.entries = rest.reverse ++ (values.insert e.1 e.2).entries := ih
        (by simp only [List.length_cons] at room; omega) descending (by
          intro a inRest b member
          rw [front] at member
          rcases List.mem_cons.1 member with rfl | old
          · exact lower a inRest
          · exact below a (List.mem_cons_of_mem _ inRest) b old)
      refine ⟨values', by simp only [reinsert, offered, done], ?_⟩
      rw [entries, front, List.reverse_cons, List.append_assoc]
      rfl

/-- The counter leaves room for `kSize - count` entries. -/
theorem reinsert_size {snap : List (K × V)} {count : Nat} {values values' : OrderedMap K V}
    (done : reinsert snap count values = some values') :
    values'.size ≤ values.size + (kSize - count) := by
  induction snap generalizing count values with
  | nil =>
      cases done
      omega
  | cons e rest ih =>
      obtain ⟨mid, offered, below, full⟩ := offer_spec count values e.1 e.2
      simp only [reinsert, offered] at done
      have after := ih done
      by_cases room : count < kSize
      · have grown := OrderedMap.size_insert_le values e.1 e.2
        rw [← below room] at grown
        omega
      · have same := full (by omega)
        omega

end Order

section Scaled

variable {K V : Type} [Field K] [LinearOrder K] [IsStrictOrderedRing K] [Inhabited K]

/-- Every priority is multiplied by one factor. -/
def scaleBy (factor : Nat → K) (delta : Nat) (x : K) : K := x * factor delta

/-- The entries of the old map with their priorities rescaled. -/
def rescaled (factor : Nat → K) (s : State K V) (now : Nat) : List (K × V) :=
  s.data.map.entries.map fun e => (e.1 * factor (now - s.data.landmark), e.2)

/-- **A rescaling keeps the sample** if and only if there was nothing in it, or the old count
leaves room for all of it. -/
theorem rescale_keeps_iff {factor : Nat → K} (positive : ∀ delta, 0 < factor delta)
    {s : State K V} {now : Nat} (late : s.nextScale < now) :
    ∃ s', s.loadAndRescaleIfNeeded (scaleBy factor) now = some s' ∧
      (s'.data.map.entries = s.rescaled factor now ↔
        s.data.map.entries = [] ∨ s.data.count + s.data.map.size ≤ kSize) := by
  obtain ⟨values, done⟩ := reinsert_returns (s.rescaled factor now).reverse s.data.count .empty
  have rescales : s.loadAndRescaleIfNeeded (scaleBy factor) now =
      some { s with data := ⟨values, 0, now⟩, nextScale := s.nextScale + hour } := by
    have same : (s.data.map.entries.map fun e =>
        (scaleBy factor (now - s.data.landmark) e.1, e.2)) = s.rescaled factor now := rfl
    rw [loadAndRescaleIfNeeded, if_pos late, rescale, same, done]
    rfl
  have length : (s.rescaled factor now).length = s.data.map.size := List.length_map ..
  refine ⟨_, rescales, ?_⟩
  constructor
  · intro kept
    simp only at kept
    have size := reinsert_size done
    rw [OrderedMap.size, kept, length] at size
    have none_ : (OrderedMap.empty : OrderedMap K V).size = 0 := rfl
    rw [none_] at size
    by_cases room : s.data.count + s.data.map.size ≤ kSize
    · exact .inr room
    · refine .inl (List.length_eq_zero_iff.1 ?_)
      rw [OrderedMap.size] at size room
      omega
  · rintro (nothing | room)
    · have none_ : s.rescaled factor now = [] := by rw [rescaled, nothing, List.map_nil]
      rw [none_] at done ⊢
      cases done
      rfl
    · have ascending : (s.rescaled factor now).Pairwise fun a b => a.1 < b.1 :=
        List.pairwise_map.2 (s.data.map.sorted.imp fun below =>
          mul_lt_mul_of_pos_right below (positive _))
      have empty : ∀ a ∈ (s.rescaled factor now).reverse,
          ∀ b ∈ (.empty : OrderedMap K V).entries, a.1 < b.1 := fun _ _ b member =>
          absurd member List.not_mem_nil
      obtain ⟨values', done', entries⟩ := reinsert_room
        (by rw [List.length_reverse, length]; exact room) (List.pairwise_reverse.2 ascending) empty
      cases Option.some.inj (done.symm.trans done')
      rw [entries, List.reverse_reverse]
      exact List.append_nil _

end Scaled

/-! ## The factor of the source -/

noncomputable section Decay

def kAlpha : ℝ := 15 / 1000

/-- `std::exp(-kAlpha * delta)`, with the time in nanoseconds. -/
def decay (delta : Nat) : ℝ := Real.exp (-kAlpha * (delta / 10 ^ 9))

theorem decay_pos (delta : Nat) : 0 < decay delta := Real.exp_pos _

/-- Three updates within the first hour. -/
def three : State ℝ Nat where
  data := ⟨⟨[(1, 7), (2, 8), (3, 9)], by norm_num⟩, 3, 0⟩
  nextScale := hour
  clock := 0

theorem rescale_keeps_three : ∃ s' : State ℝ Nat,
    three.loadAndRescaleIfNeeded (scaleBy decay) (hour + 1) = some s' ∧
    s'.data.map.entries =
      [(1 * decay (hour + 1), 7), (2 * decay (hour + 1), 8), (3 * decay (hour + 1), 9)] := by
  have late : three.nextScale < hour + 1 := Nat.lt_succ_self hour
  obtain ⟨s', loaded, keeps⟩ := rescale_keeps_iff decay_pos late
  have room : three.data.count + three.data.map.size ≤ kSize := by decide
  exact ⟨s', loaded, keeps.2 (.inr room)⟩

/-- One offer over and over: the map has one entry, and the count goes up. -/
theorem run_repeated (n : Nat) (few : n ≤ kSize) : ∃ s : State ℝ Nat,
    Theory.run (State.next (scaleBy decay)) (init 0 0) (List.replicate n ⟨0, 1, 7⟩) = some s ∧
      s.data.map.entries = (if n = 0 then [] else [(1, 7)]) ∧ s.data.count = n ∧
        s.nextScale = hour ∧ s.clock = 0 := by
  induction n with
  | zero => exact ⟨init 0 0, rfl, rfl, rfl, Nat.zero_add hour, rfl⟩
  | succ n ih =>
      obtain ⟨s, ran, entries, count, scheduled, clock⟩ := ih (by omega)
      have onTime : ¬ s.nextScale < 0 := Nat.not_lt_zero _
      have offered : offer s.data.count s.data.map 1 7 = some (s.data.map.insert 1 7) :=
        if_pos (by omega)
      have taken : s.next (scaleBy decay) ⟨0, 1, 7⟩ = some
          { s with
            data := { s.data with map := s.data.map.insert 1 7, count := s.data.count + 1 }
            clock := 0 } := by
        simp only [State.next, clock, le_refl, if_true, update, loadAndRescaleIfNeeded,
          if_neg onTime, offered, Option.map_some]
      refine ⟨{ s with
          data := { s.data with map := s.data.map.insert 1 7, count := s.data.count + 1 }
          clock := 0 }, ?_, ?_, ?_, scheduled, rfl⟩
      · rw [List.replicate_succ']
        exact Theory.run_snoc ran taken
      · by_cases first : n = 0 <;>
          simp [OrderedMap.insert, entries, first, OrderedMap.insertEntry]
      · simp only [count]

/-- After `kSize` updates that drew the same priority the count is full. Rescaling drops the one
entry there is. -/
theorem rescale_empties : ∃ s s' : State ℝ Nat,
    Theory.run (State.next (scaleBy decay)) (init 0 0) (List.replicate 1028 ⟨0, 1, 7⟩) = some s ∧
      s.data.map.entries = [(1, 7)] ∧
      s.loadAndRescaleIfNeeded (scaleBy decay) (hour + 1) = some s' ∧
      s'.data.map.entries = [] := by
  obtain ⟨s, ran, entries, count, scheduled, -⟩ := run_repeated 1028 le_rfl
  have late : s.nextScale < hour + 1 := by omega
  have full : kSize ≤ s.data.count := by rw [count]; decide
  obtain ⟨values, done, size⟩ := reinsert_full full
    (s.data.map.entries.map fun e =>
      (scaleBy decay (hour + 1 - s.data.landmark) e.1, e.2)).reverse (.empty : OrderedMap ℝ Nat)
  refine ⟨s, { s with data := ⟨values, 0, hour + 1⟩, nextScale := s.nextScale + hour }, ran,
    entries, ?_, List.length_eq_zero_iff.1 size⟩
  rw [loadAndRescaleIfNeeded, if_pos late, rescale, done]
  rfl

end Decay

end State

end Ccmetrics.Reservoir
