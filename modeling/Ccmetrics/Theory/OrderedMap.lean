/-
# Theory.OrderedMap -- finite maps as strictly sorted lists of entries

The map a sequential client sees: `insert` keeps an entry that is already there, `erase` drops
one, `firstKey` is the least key, and the entries are in ascending order of their keys. The order
is a field of the structure, so every map is sorted.

Counting arguments go through the set of keys (`keys_insert`, `keys_erase`, `card_keys`).
-/
import Mathlib.Order.Defs.LinearOrder
import Mathlib.Data.Finset.Card
import Mathlib.Data.Finset.Dedup
import Mathlib.Data.List.Pairwise

namespace Ccmetrics.Theory

set_option autoImplicit false

structure OrderedMap (K V : Type) [LinearOrder K] where
  entries : List (K × V)
  sorted : entries.Pairwise fun a b => a.1 < b.1

namespace OrderedMap

variable {K V : Type} [LinearOrder K]

@[ext] theorem ext {m m' : OrderedMap K V} (same : m.entries = m'.entries) : m = m' := by
  cases m; cases m'; cases same; rfl

def empty : OrderedMap K V := ⟨[], .nil⟩

def size (m : OrderedMap K V) : Nat := m.entries.length

/-- Insert in order; an entry with the same key stays. -/
def insertEntry (k : K) (v : V) : List (K × V) → List (K × V)
  | [] => [(k, v)]
  | e :: rest =>
      if k < e.1 then (k, v) :: e :: rest
      else if e.1 < k then e :: insertEntry k v rest
      else e :: rest

theorem mem_insertEntry {k : K} {v : V} {l : List (K × V)} {e : K × V}
    (member : e ∈ insertEntry k v l) : e = (k, v) ∨ e ∈ l := by
  induction l with
  | nil => simpa [insertEntry] using member
  | cons d rest ih =>
      simp only [insertEntry] at member
      split at member
      · simpa using member
      · split at member
        · rcases List.mem_cons.1 member with rfl | inRest
          · simp
          · rcases ih inRest with isNew | old
            · exact .inl isNew
            · exact .inr (List.mem_cons_of_mem _ old)
        · exact .inr member

theorem sorted_insertEntry {k : K} {v : V} {l : List (K × V)}
    (sorted : l.Pairwise fun a b => a.1 < b.1) :
    (insertEntry k v l).Pairwise fun a b => a.1 < b.1 := by
  induction l with
  | nil => simp [insertEntry]
  | cons d rest ih =>
      have before := List.pairwise_cons.1 sorted
      simp only [insertEntry]
      split
      · rename_i below
        refine List.pairwise_cons.2 ⟨fun e member => ?_, sorted⟩
        rcases List.mem_cons.1 member with rfl | inRest
        · exact below
        · exact below.trans (before.1 e inRest)
      · split
        · rename_i above
          refine List.pairwise_cons.2 ⟨fun e member => ?_, ih before.2⟩
          rcases mem_insertEntry member with rfl | inRest
          · exact above
          · exact before.1 e inRest
        · exact sorted

def contains (m : OrderedMap K V) (k : K) : Bool := m.entries.any fun e => e.1 = k

def find? (m : OrderedMap K V) (k : K) : Option V :=
  (m.entries.find? fun e => e.1 = k).map (·.2)

def insert (m : OrderedMap K V) (k : K) (v : V) : OrderedMap K V :=
  ⟨insertEntry k v m.entries, sorted_insertEntry m.sorted⟩

def erase (m : OrderedMap K V) (k : K) : OrderedMap K V :=
  ⟨m.entries.filter fun e => e.1 ≠ k, m.sorted.filter _⟩

/-- The least key; `default` for the empty map. -/
def firstKey [Inhabited K] (m : OrderedMap K V) : K := (m.entries.head?.map (·.1)).getD default

/-- The set of keys. -/
def keys (m : OrderedMap K V) : Finset K := (m.entries.map (·.1)).toFinset

variable {m : OrderedMap K V} {k x : K} {v : V}

theorem mem_keys : k ∈ m.keys ↔ ∃ e ∈ m.entries, e.1 = k := by simp [keys]

theorem contains_iff : m.contains k = true ↔ k ∈ m.keys := by simp [contains, keys]

theorem card_keys (m : OrderedMap K V) : m.keys.card = m.size := by
  have distinct : (m.entries.map (·.1)).Nodup :=
    List.pairwise_map.2 (m.sorted.imp fun below => ne_of_lt below)
  rw [keys, List.toFinset_card_of_nodup distinct, size, List.length_map]

theorem keys_insertEntry {l : List (K × V)} :
    x ∈ (insertEntry k v l).map (·.1) ↔ x = k ∨ x ∈ l.map (·.1) := by
  induction l with
  | nil => simp [insertEntry]
  | cons d rest ih =>
      simp only [insertEntry]
      split
      · simp
      · split
        · rw [List.map_cons, List.mem_cons, ih, List.map_cons, List.mem_cons]
          exact or_left_comm
        · rename_i notBelow notAbove
          obtain rfl : k = d.1 := le_antisymm (not_lt.1 notAbove) (not_lt.1 notBelow)
          simp

theorem keys_insert (m : OrderedMap K V) (k : K) (v : V) :
    (m.insert k v).keys = Insert.insert k m.keys := by
  ext x
  simp only [Finset.mem_insert, keys, List.mem_toFinset, insert]
  exact keys_insertEntry

theorem keys_erase (m : OrderedMap K V) (k : K) : (m.erase k).keys = m.keys.erase k := by
  ext x
  simp only [Finset.mem_erase, mem_keys, erase, List.mem_filter, decide_eq_true_eq]
  constructor
  · rintro ⟨e, ⟨member, other⟩, rfl⟩
    exact ⟨other, e, member, rfl⟩
  · rintro ⟨other, e, member, rfl⟩
    exact ⟨e, ⟨member, other⟩, rfl⟩

theorem firstKey_mem [Inhabited K] (some_ : m.keys.Nonempty) : m.firstKey ∈ m.keys := by
  obtain ⟨x, member⟩ := some_
  obtain ⟨e, inEntries, -⟩ := mem_keys.1 member
  refine mem_keys.2 ?_
  simp only [firstKey]
  cases split : m.entries with
  | nil => simp [split] at inEntries
  | cons d rest => exact ⟨d, List.mem_cons_self .., rfl⟩

theorem firstKey_le [Inhabited K] (member : x ∈ m.keys) : m.firstKey ≤ x := by
  obtain ⟨e, inEntries, rfl⟩ := mem_keys.1 member
  have sorted := m.sorted
  simp only [firstKey]
  cases split : m.entries with
  | nil => simp [split] at inEntries
  | cons d rest =>
      rw [split] at inEntries sorted
      rcases List.mem_cons.1 inEntries with rfl | inRest
      · exact le_rfl
      · exact ((List.pairwise_cons.1 sorted).1 e inRest).le

theorem size_insert (isNew : k ∉ m.keys) : (m.insert k v).size = m.size + 1 := by
  rw [← card_keys, keys_insert, Finset.card_insert_of_notMem isNew, card_keys]

theorem size_insert_le (m : OrderedMap K V) (k : K) (v : V) : (m.insert k v).size ≤ m.size + 1 := by
  rw [← card_keys, keys_insert, ← card_keys]
  exact Finset.card_insert_le ..

theorem size_erase (member : k ∈ m.keys) : (m.erase k).size + 1 = m.size := by
  rw [← card_keys, keys_erase, Finset.card_erase_add_one member, card_keys]

/-! ## Looking up -/

theorem mem_iff_insertEntry {l : List (K × V)} (sorted : l.Pairwise fun a b => a.1 < b.1)
    {e : K × V} : e ∈ insertEntry k v l ↔ e ∈ l ∨ e = (k, v) ∧ k ∉ l.map (·.1) := by
  induction l with
  | nil => simp [insertEntry]
  | cons d rest ih =>
      obtain ⟨before, sorted⟩ := List.pairwise_cons.1 sorted
      simp only [insertEntry]
      split
      · rename_i below
        have outside : k ∉ (d :: rest).map (·.1) := by
          intro member
          obtain ⟨c, inList, rfl⟩ := List.mem_map.1 member
          rcases List.mem_cons.1 inList with rfl | inRest
          · exact lt_irrefl _ below
          · exact lt_asymm below (before c inRest)
        rw [List.mem_cons]
        constructor
        · rintro (rfl | old)
          · exact .inr ⟨rfl, outside⟩
          · exact .inl old
        · rintro (old | ⟨rfl, -⟩)
          · exact .inr old
          · exact .inl rfl
      · split
        · rename_i above
          rw [List.mem_cons, ih sorted, List.mem_cons, List.map_cons, List.mem_cons]
          have other : k ≠ d.1 := ne_of_gt above
          simp only [other, false_or, or_assoc]
        · rename_i notBelow notAbove
          obtain rfl : k = d.1 := le_antisymm (not_lt.1 notAbove) (not_lt.1 notBelow)
          simp

/-- A sorted list is known by its members. -/
theorem sorted_unique {l l' : List (K × V)} (sorted : l.Pairwise fun a b => a.1 < b.1)
    (sorted' : l'.Pairwise fun a b => a.1 < b.1) (same : ∀ e, e ∈ l ↔ e ∈ l') : l = l' := by
  have nodup : ∀ {l : List (K × V)}, (l.Pairwise fun a b => a.1 < b.1) → l.Nodup := by
    intro l sorted
    refine sorted.imp ?_
    rintro a b below rfl
    exact lt_irrefl _ below
  refine List.Perm.eq_of_pairwise ?_ sorted sorted'
    ((List.perm_ext_iff_of_nodup (nodup sorted) (nodup sorted')).2 same)
  intro a b _ _ below above
  exact absurd above (lt_asymm below)

theorem find?_eq_some : m.find? k = some v ↔ (k, v) ∈ m.entries := by
  have sorted := m.sorted
  rw [find?, Option.map_eq_some_iff]
  constructor
  · rintro ⟨e, found, rfl⟩
    have atKey : e.1 = k := by simpa using List.find?_some found
    rw [← atKey]
    exact List.mem_of_find?_eq_some found
  · intro member
    obtain ⟨l₁, l₂, split⟩ := List.append_of_mem member
    refine ⟨(k, v), ?_, rfl⟩
    rw [split] at sorted ⊢
    rw [List.find?_append, List.find?_eq_none.2, Option.none_or, List.find?_cons_of_pos (by simp)]
    intro e inFirst
    have below := (List.pairwise_append.1 sorted).2.2 e inFirst (k, v) (List.mem_cons_self ..)
    simpa using ne_of_lt below

theorem find?_insert (m : OrderedMap K V) (k : K) (v : V) (x : K) :
    (m.insert k v).find? x = if x = k ∧ k ∉ m.keys then some v else m.find? x := by
  refine Option.ext fun w => ?_
  have member : (x, w) ∈ (m.insert k v).entries ↔
      (x, w) ∈ m.entries ∨ (x, w) = (k, v) ∧ k ∉ m.entries.map (·.1) :=
    mem_iff_insertEntry m.sorted
  have keys : k ∈ m.keys ↔ k ∈ m.entries.map (·.1) := by simp [OrderedMap.keys]
  rw [find?_eq_some, member, ← keys]
  split
  · rename_i isNew
    obtain ⟨rfl, outside⟩ := isNew
    have absent : (x, w) ∉ m.entries := fun old => outside (mem_keys.2 ⟨_, old, rfl⟩)
    simp [absent, outside, eq_comm]
  · rename_i other
    rw [find?_eq_some, Prod.mk.injEq]
    constructor
    · rintro (old | ⟨⟨rfl, rfl⟩, outside⟩)
      · exact old
      · exact absurd ⟨rfl, outside⟩ other
    · exact .inl

theorem find?_erase (m : OrderedMap K V) (k x : K) :
    (m.erase k).find? x = if x = k then none else m.find? x := by
  refine Option.ext fun w => ?_
  rw [find?_eq_some, erase, List.mem_filter]
  split
  · rename_i same
    simp [same]
  · rename_i other
    rw [find?_eq_some]
    simp [other]

end OrderedMap

end Ccmetrics.Theory
