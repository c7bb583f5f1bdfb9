/-
# Reservoir.Sampling -- which offers an empty reservoir keeps

Between two rescalings a reservoir that started empty keeps the largest priorities it has been
offered, each with the value that came first (`Sampled`). How many it keeps is settled by the
first `kSize` offers: `count` counts offers and a repeated priority is not inserted again, so there
may be fewer than `kSize`. From then on an entry is inserted only above the least one, which is
evicted for it at the first try (`evict_first`).
-/
import Mathlib.Order.Interval.Finset.Nat
import Ccmetrics.Theory.Largest
import Ccmetrics.Reservoir.Update

namespace Ccmetrics.Reservoir

set_option autoImplicit false
set_option linter.unusedSectionVars false

open Theory (OrderedMap Largest)

namespace State

variable {K V : Type} [LinearOrder K] [Inhabited K]
variable {scale : Nat → K → K} {s s' : State K V} {a : Action K V} {as : List (Action K V)}

/-- The priorities that have been offered. -/
def offered (as : List (Action K V)) : Finset K := (as.map (·.priority)).toFinset

/-- The value of the first offer with a priority. -/
def firstValue (as : List (Action K V)) (k : K) : Option V :=
  (as.find? fun a => a.priority = k).map (·.value)

/-- The map after the offers `as`, which it has been filled with from empty. -/
structure Sampled (as : List (Action K V)) (s : State K V) : Prop where
  count : s.data.count = as.length
  largest : Largest (offered (as.take kSize)).card (offered as) s.data.map.keys
  values : ∀ k ∈ s.data.map.keys, s.data.map.find? k = firstValue as k

theorem offered_concat (as : List (Action K V)) (a : Action K V) :
    offered (as ++ [a]) = insert a.priority (offered as) := by
  ext x
  simp [offered]

theorem firstValue_concat (as : List (Action K V)) (a : Action K V) (k : K) :
    firstValue (as ++ [a]) k = if k ∈ offered as then firstValue as k
      else if a.priority = k then some a.value else none := by
  simp only [firstValue, List.find?_append]
  split
  · rename_i member
    obtain ⟨b, inList, rfl⟩ : ∃ b ∈ as, b.priority = k := by simpa [offered] using member
    have found : (as.find? fun c => decide (c.priority = b.priority)).isSome := by
      rw [List.find?_isSome]
      exact ⟨b, inList, by simp⟩
    rw [Option.or_of_isSome found]
  · rename_i absent
    have none_ : as.find? (fun c => decide (c.priority = k)) = none := by
      rw [List.find?_eq_none]
      intro b inList
      simp only [decide_eq_true_eq]
      rintro rfl
      exact absent (by simpa [offered] using ⟨b, inList, rfl⟩)
    rw [none_, Option.none_or]
    by_cases same : a.priority = k <;> simp [same]

theorem Sampled.all (sampled : Sampled as s) (few : as.length ≤ kSize) :
    s.data.map.keys = offered as := by
  refine Finset.eq_of_subset_of_card_le sampled.largest.subset ?_
  rw [sampled.largest.card, List.take_of_length_le few]

/-- Once the count is full there is a least entry. -/
theorem Sampled.nonempty (sampled : Sampled as s) (full : kSize ≤ s.data.count) :
    s.data.map.keys.Nonempty := by
  have some_ : 0 < (as.take kSize).length := by
    have size : 0 < kSize := by decide
    rw [sampled.count] at full
    rw [List.length_take]
    omega
  obtain ⟨b, inList⟩ := List.exists_mem_of_length_pos some_
  refine Finset.card_pos.1 ?_
  rw [sampled.largest.card]
  exact Finset.card_pos.2 ⟨b.priority, List.mem_toFinset.2 (List.mem_map_of_mem inList)⟩

/-- An update that does not rescale. -/
theorem next_early (early : a.now ≤ s.nextScale) (taken : s.next scale a = some s') :
    ∃ values, offer s.data.count s.data.map a.priority a.value = some values ∧
      s' = { s with
        data := { s.data with map := values, count := s.data.count + 1 }, clock := a.now } := by
  simp only [State.next] at taken
  split at taken
  · simp only [update, loadAndRescaleIfNeeded, if_neg (Nat.not_lt.2 early)] at taken
    obtain ⟨mid, updated, rfl⟩ := Option.map_eq_some_iff.1 taken
    obtain ⟨values, offered, rfl⟩ := Option.map_eq_some_iff.1 updated
    exact ⟨values, offered, rfl⟩
  · cases taken

/-- While the count has room every offer is inserted. -/
theorem Sampled.fill (sampled : Sampled as s) (room : as.length < kSize) :
    Sampled (as ++ [a]) { s with
      data := ⟨s.data.map.insert a.priority a.value, s.data.count + 1, s.data.landmark⟩ } where
  count := by simp [sampled.count]
  largest := by
    have short : (as ++ [a]).length ≤ kSize := by
      rw [List.length_append, List.length_singleton]
      omega
    have keys : (s.data.map.insert a.priority a.value).keys = offered (as ++ [a]) := by
      rw [OrderedMap.keys_insert, sampled.all room.le, offered_concat]
    rw [List.take_of_length_le short]
    exact ⟨keys.subset, by rw [keys], fun x member outside => absurd (keys ▸ member) outside⟩
  values := by
    intro k member
    have known := sampled.all room.le
    simp only at member
    rw [OrderedMap.keys_insert, known] at member
    rw [OrderedMap.find?_insert, firstValue_concat, known]
    by_cases old : k ∈ offered as
    · have other : ¬ (k = a.priority ∧ a.priority ∉ offered as) := by
        rintro ⟨rfl, absent⟩
        exact absent old
      rw [if_pos old, if_neg other]
      exact sampled.values k (known ▸ old)
    · obtain rfl : k = a.priority := (Finset.mem_insert.1 member).resolve_right old
      rw [if_pos ⟨rfl, old⟩, if_neg old, if_pos rfl]

/-- An offer that is not above the least entry, or that is there already, changes nothing. -/
theorem Sampled.refuse (sampled : Sampled as s) (full : kSize ≤ as.length)
    (refused : ¬ (s.data.map.firstKey < a.priority ∧ s.data.map.contains a.priority = false)) :
    Sampled (as ++ [a]) { s with data := { s.data with count := s.data.count + 1 } } where
  count := by simp [sampled.count]
  largest := by
    have some_ := sampled.nonempty (by rw [sampled.count]; exact full)
    refine ⟨?_, ?_, ?_⟩
    · rw [offered_concat]
      exact sampled.largest.subset.trans (Finset.subset_insert ..)
    · rw [List.take_append_of_le_length full]
      exact sampled.largest.card
    · intro x member outside y inKeys
      rw [offered_concat] at member
      rcases Finset.mem_insert.1 member with rfl | old
      · have absent : s.data.map.contains a.priority = false := by
          rw [← Bool.not_eq_true, OrderedMap.contains_iff]
          exact outside
        have below : ¬ s.data.map.firstKey < a.priority := fun above => refused ⟨above, absent⟩
        have apart : a.priority ≠ s.data.map.firstKey := by
          intro same
          exact outside (same ▸ OrderedMap.firstKey_mem some_)
        exact lt_of_lt_of_le (lt_of_le_of_ne (not_lt.1 below) apart) (OrderedMap.firstKey_le inKeys)
      · exact sampled.largest.above x old outside y inKeys
  values := by
    intro k inKeys
    rw [firstValue_concat, if_pos (sampled.largest.subset inKeys)]
    exact sampled.values k inKeys

/-- The eviction loop erases on its first try. -/
theorem evict_first {m : OrderedMap K V} (some_ : m.keys.Nonempty) (k : K) (v : V) (fuel : Nat) :
    evict (m.insert k v) fuel m.firstKey = some ((m.insert k v).erase m.firstKey) := by
  have present : (m.insert k v).contains m.firstKey = true := by
    rw [OrderedMap.contains_iff, OrderedMap.keys_insert]
    exact Finset.mem_insert_of_mem (OrderedMap.firstKey_mem some_)
  cases fuel <;> rw [evict, if_pos present]

/-- A new priority above the least entry takes its place. -/
theorem Sampled.replace (sampled : Sampled as s) (full : kSize ≤ as.length)
    (above : s.data.map.firstKey < a.priority) (absent : s.data.map.contains a.priority = false) :
    Sampled (as ++ [a]) { s with
      data := ⟨(s.data.map.insert a.priority a.value).erase s.data.map.firstKey,
        s.data.count + 1, s.data.landmark⟩ } := by
  have some_ := sampled.nonempty (by rw [sampled.count]; exact full)
  have least := OrderedMap.firstKey_mem some_
  have isNew : a.priority ∉ s.data.map.keys := by
    rw [← OrderedMap.contains_iff, absent]
    exact Bool.false_ne_true
  -- it has never been offered: it would be among the largest
  have first : a.priority ∉ offered as := fun old =>
    lt_asymm above (sampled.largest.above a.priority old isNew _ least)
  have keys : ((s.data.map.insert a.priority a.value).erase s.data.map.firstKey).keys =
      (insert a.priority s.data.map.keys).erase s.data.map.firstKey := by
    rw [OrderedMap.keys_erase, OrderedMap.keys_insert]
  refine ⟨by simp [sampled.count], ⟨?_, ?_, ?_⟩, ?_⟩
  · simp only [keys]
    rw [offered_concat]
    exact (Finset.erase_subset ..).trans (Finset.insert_subset_insert _ sampled.largest.subset)
  · simp only [keys]
    rw [Finset.card_erase_of_mem (Finset.mem_insert_of_mem least),
      Finset.card_insert_of_notMem isNew, sampled.largest.card, List.take_append_of_le_length full]
    rfl
  · intro x member outside y inKeys
    simp only [keys] at outside inKeys
    obtain ⟨notLeast, inInsert⟩ := Finset.mem_erase.1 inKeys
    have aboveLeast : s.data.map.firstKey < y := by
      rcases Finset.mem_insert.1 inInsert with rfl | old
      · exact above
      · exact lt_of_le_of_ne (OrderedMap.firstKey_le old) notLeast.symm
    by_cases isLeast : x = s.data.map.firstKey
    · rwa [isLeast]
    · have outside' : x ∉ insert a.priority s.data.map.keys := fun inside =>
        outside (Finset.mem_erase.2 ⟨isLeast, inside⟩)
      rw [Finset.mem_insert, not_or] at outside'
      rw [offered_concat] at member
      have old := (Finset.mem_insert.1 member).resolve_left outside'.1
      exact (sampled.largest.above x old outside'.2 _ least).trans aboveLeast
  · intro k inKeys
    simp only [keys] at inKeys
    obtain ⟨notLeast, inInsert⟩ := Finset.mem_erase.1 inKeys
    rw [OrderedMap.find?_erase, if_neg notLeast, OrderedMap.find?_insert, firstValue_concat]
    rcases Finset.mem_insert.1 inInsert with rfl | old
    · rw [if_pos ⟨rfl, isNew⟩, if_neg first, if_pos rfl]
    · have other : ¬ (k = a.priority ∧ a.priority ∉ s.data.map.keys) := by
        rintro ⟨rfl, -⟩
        exact isNew old
      rw [if_neg other, if_pos (sampled.largest.subset old)]
      exact sampled.values k old

theorem Sampled.next (sampled : Sampled as s) (early : a.now ≤ s.nextScale)
    (taken : s.next scale a = some s') :
    Sampled (as ++ [a]) s' ∧ s'.nextScale = s.nextScale := by
  obtain ⟨values, offered, rfl⟩ := next_early early taken
  refine ⟨?_, rfl⟩
  have length := sampled.count
  simp only [offer] at offered
  split at offered
  · cases offered
    have after := sampled.fill (a := a) (by omega)
    exact ⟨after.count, after.largest, after.values⟩
  · rename_i full
    split at offered
    · rename_i adds
      rw [evict_first (sampled.nonempty (by omega))] at offered
      cases offered
      have after := sampled.replace (by omega) adds.1 adds.2
      exact ⟨after.count, after.largest, after.values⟩
    · rename_i refused
      cases offered
      have after := sampled.refuse (by omega) refused
      exact ⟨after.count, after.largest, after.values⟩

/-- **Priority sampling.** After any offers to an empty reservoir, up to the next rescaling, the
map holds exactly the largest distinct priorities, as many as there were among the first `kSize`
offers, and each with the value of its first offer; while at most `kSize` offers have been made it
holds all of them. Whatever is offered next, the eviction loop erases on its first try and the
update returns. -/
theorem largest_priorities_kept {s₀ : State K V} (empty : s₀.data.map = .empty)
    (zero : s₀.data.count = 0) (early : ∀ a ∈ as, a.now ≤ s₀.nextScale)
    (ran : Theory.run (State.next scale) s₀ as = some s) :
    Largest (offered (as.take kSize)).card (offered as) s.data.map.keys ∧
      (as.length ≤ kSize → s.data.map.keys = offered as) ∧
      (∀ k ∈ s.data.map.keys, s.data.map.find? k = firstValue as k) ∧
      (∀ k v, kSize ≤ s.data.count → s.data.map.firstKey < k → s.data.map.contains k = false →
        evict (s.data.map.insert k v) 0 s.data.map.firstKey =
          some ((s.data.map.insert k v).erase s.data.map.firstKey)) ∧
      ∀ a, s.clock ≤ a.now → ∃ s', s.next scale a = some s' := by
  have start : Sampled [] s₀ ∧ s₀.nextScale = s₀.nextScale := by
    refine ⟨⟨zero, ?_, ?_⟩, rfl⟩
    · rw [empty]
      exact ⟨Finset.empty_subset _, rfl, fun x member => absurd member (Finset.notMem_empty x)⟩
    · rw [empty]
      exact fun k member => absurd member (Finset.notMem_empty k)
  have onTime : Theory.Along (State.next scale) (fun _ a => a.now ≤ s₀.nextScale) s₀ as :=
    Theory.along_of_forall early
  have follows : ∀ (s : State K V) a s' as, (Sampled as s ∧ s.nextScale = s₀.nextScale) →
      a.now ≤ s₀.nextScale → s.next scale a = some s' →
      Sampled (as ++ [a]) s' ∧ s'.nextScale = s₀.nextScale := by
    intro s a s' as before onTime taken
    obtain ⟨after, same⟩ := before.1.next (by rw [before.2]; exact onTime) taken
    exact ⟨after, same.trans before.2⟩
  have followed := Theory.run_follows
    (R := fun s as => Sampled as s ∧ s.nextScale = s₀.nextScale) (f := fun as a => as ++ [a])
    follows start onTime ran
  have all : as.foldl (fun as a => as ++ [a]) [] = as := by
    rw [List.foldl_append_eq_append, List.nil_append, ← List.flatMap_def]
    exact List.flatMap_singleton' as
  rw [all] at followed
  obtain ⟨sampled, -⟩ := followed
  exact ⟨sampled.largest, sampled.all, sampled.values,
    fun k v full _ _ => evict_first (sampled.nonempty full) k v 0,
    fun _ later => next_returns scale later⟩

/-- Two offers of one priority, and then ever larger ones. -/
def climbing : List (Action Nat Nat) :=
  ⟨0, 0, 7⟩ :: (List.range 1030).map fun i => ⟨0, i, 10 * i⟩

/-- The first `kSize` of these offers have 1027 priorities, and three are evicted afterwards. -/
theorem largest_priorities_kept_climbing : ∃ s : State Nat Nat,
    Theory.run (State.next fun _ k => k) (init 0 0) climbing = some s ∧
      s.data.map.keys = Finset.Ico 3 1030 := by
  have atOnce : ∀ a ∈ climbing, a.now = 0 := by simp [climbing]
  obtain ⟨s, ran⟩ := run_returns (s := init 0 0) (fun _ k => k)
    (List.pairwise_of_forall_mem_list fun a inA b inB => by rw [atOnce a inA, atOnce b inB])
    fun a inList => by rw [atOnce a inList]; rfl
  have largest := (largest_priorities_kept rfl rfl (fun a inList => by
    rw [atOnce a inList]
    exact Nat.zero_le _) ran).1
  have all : offered climbing = Finset.range 1030 := by
    ext x
    simp [offered, climbing]
  have first : offered (climbing.take kSize) = Finset.range 1027 := by
    rw [climbing, kSize, List.take_succ_cons, ← List.map_take, List.take_range]
    ext x
    simp [offered]
  rw [all, first, Finset.card_range] at largest
  refine ⟨s, ran, largest.unique ⟨fun x member => ?_, Nat.card_Ico 3 1030,
    fun x member outside y inside => ?_⟩⟩
  · rw [Finset.mem_Ico] at member
    exact Finset.mem_range.2 member.2
  · rw [Finset.mem_range] at member
    rw [Finset.mem_Ico] at outside inside
    omega

end State

end Ccmetrics.Reservoir
