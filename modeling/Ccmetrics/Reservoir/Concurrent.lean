/-
# Reservoir.Concurrent -- many updates of one full `Data`

Any number of threads are in `update`, on one `Data` that no rescaling replaces. Each step is one
operation of the map (`firstKey`, `insert`, `erase`) or the `fetch_add` of the count.

A thread compares with, inserts beside and then evicts a first key that may be stale. What makes
this exact is a count: whatever key a thread is about to evict has at least `m` keys above it, and
a key a thread has only read has at least `m - 1`. Every insertion and every eviction keeps this,
because the evicted key has `m` above it itself; and there is one key in the map for each thread
that still has to evict, beyond the `m` it started with (`Sampling`).
-/
import Ccmetrics.Theory.Largest
import Ccmetrics.Reservoir.Update

namespace Ccmetrics.Reservoir

set_option autoImplicit false
set_option linter.unusedSectionVars false

open Theory (OrderedMap Largest above)

/-- Where a thread stands in `update`. -/
inductive PC (K V : Type) where
  | idle
  | count (priority : K) (value : V)
  | add (priority : K) (value : V)
  | first (priority : K) (value : V)
  | insert (priority : K) (value : V) (first : K)
  | erase (first : K)
  | again
  deriving DecidableEq

/-- The priority that a thread has still to insert or to reject. -/
def PC.priority {K V : Type} : PC K V → Option K
  | .count p _ | .add p _ | .first p _ | .insert p _ _ => some p
  | _ => none

/-- The thread has inserted and has not evicted yet. -/
def PC.evicting {K V : Type} : PC K V → Bool
  | .erase _ | .again => true
  | _ => false

structure Shared (T K V : Type) [LinearOrder K] where
  data : Data K V
  pc : T → PC K V

inductive Move (T K V : Type) where
  | call (t : T) (priority : K) (value : V)
  | step (t : T)
  deriving DecidableEq

namespace Shared

variable {T K V : Type} [DecidableEq T] [LinearOrder K] [Inhabited K]

/-- One step of a thread: what it leaves of the data, and where it goes on. -/
def plan (d : Data K V) : PC K V → Option (Data K V × PC K V)
  | .idle => none
  | .count p v =>
      some ({ d with count := d.count + 1 }, if d.count < kSize then .add p v else .first p v)
  | .add p v => some ({ d with map := d.map.insert p v }, .idle)
  | .first p v => some (d, if d.map.firstKey < p then .insert p v d.map.firstKey else .idle)
  | .insert p v first =>
      if d.map.contains p then some (d, .idle)
      else some ({ d with map := d.map.insert p v }, .erase first)
  | .erase first =>
      if d.map.contains first then some ({ d with map := d.map.erase first }, .idle)
      else some (d, .again)
  | .again => some (d, .erase d.map.firstKey)

def goto (s : Shared T K V) (t : T) (d : Data K V) (pc : PC K V) : Shared T K V :=
  { data := d, pc := fun u => if u = t then pc else s.pc u }

def next (s : Shared T K V) : Move T K V → Option (Shared T K V)
  | .call t p v =>
      match s.pc t with
      | .idle => some (s.goto t s.data (.count p v))
      | _ => none
  | .step t => (plan s.data (s.pc t)).map fun r => s.goto t r.1 r.2

/-- The priorities offered so far. -/
def offered (u : Finset K) : Move T K V → Finset K
  | .call _ p _ => Insert.insert p u
  | .step _ => u

variable {m : Nat} {s s' : Shared T K V} {u : Finset K} {t : T} {a : Move T K V}

/-! ## What is above the keys that threads hold -/

/-- What a thread relies on for the key it has read. -/
def Reads (m : Nat) (keys : Finset K) : PC K V → Prop
  | .add _ _ => False
  | .insert p _ first => first < p ∧ m - 1 ≤ above keys first
  | .erase first => m ≤ above keys first
  | _ => True

/-- Counts up to `m` stay. -/
def Keeps (m : Nat) (keys keys' : Finset K) : Prop :=
  ∀ x c, c ≤ m → c ≤ above keys x → c ≤ above keys' x

theorem Reads.keep {keys keys' : Finset K} (keeps : Keeps m keys keys') {pc : PC K V}
    (reads : Reads m keys pc) : Reads m keys' pc := by
  cases pc with
  | add p v => exact reads
  | insert p v first => exact ⟨reads.1, keeps _ _ (Nat.sub_le ..) reads.2⟩
  | erase first => exact keeps _ _ le_rfl reads
  | _ => trivial

theorem Keeps.refl (m : Nat) (keys : Finset K) : Keeps m keys keys := fun _ _ _ enough => enough

theorem keeps_insert (keys : Finset K) (p : K) : Keeps m keys (Insert.insert p keys) :=
  fun x _ _ enough => enough.trans (Theory.above_insert_le keys x p)

theorem keeps_erase {keys : Finset K} {first : K} (member : first ∈ keys)
    (evictable : m ≤ above keys first) : Keeps m keys (keys.erase first) :=
  fun _ _ small enough => Theory.above_erase member evictable enough small

/-- The invariant, for a map that had `m` keys and the set `u` of the keys it had and all
priorities offered since. -/
structure Sampling (m : Nat) (s : Shared T K V) (u : Finset K) : Prop where
  full : kSize ≤ s.data.count
  reads : ∀ t, Reads m s.data.map.keys (s.pc t)
  evictors : ∃ es : List T, es.Nodup ∧ (∀ t, t ∈ es ↔ (s.pc t).evicting = true) ∧
    s.data.map.size = m + es.length
  known : s.data.map.keys ⊆ u
  pending : ∀ t p, (s.pc t).priority = some p → p ∈ u
  decided : ∀ x ∈ u, x ∈ s.data.map.keys ∨ m ≤ above s.data.map.keys x ∨
    ∃ t, (s.pc t).priority = some x

namespace Sampling

theorem size_le (sampling : s.Sampling m u) : m ≤ s.data.map.size := by
  obtain ⟨es, -, -, size⟩ := sampling.evictors
  omega

theorem size_lt (sampling : s.Sampling m u) (evicting : (s.pc t).evicting = true) :
    m < s.data.map.size := by
  obtain ⟨es, -, members, size⟩ := sampling.evictors
  have := List.length_pos_of_mem ((members t).2 evicting)
  omega

theorem nonempty (sampling : s.Sampling m u) (positive : 1 ≤ m) : s.data.map.keys.Nonempty := by
  rw [← Finset.card_pos, OrderedMap.card_keys]
  have := sampling.size_le
  omega

/-- There is one more key in the map for each thread that has to evict. -/
theorem goto_evictors (sampling : s.Sampling m u) {d : Data K V} {pc : PC K V}
    (size : d.map.size + (if (s.pc t).evicting then 1 else 0) =
      s.data.map.size + if pc.evicting then 1 else 0) :
    ∃ es : List T, es.Nodup ∧ (∀ v, v ∈ es ↔ ((s.goto t d pc).pc v).evicting = true) ∧
      d.map.size = m + es.length := by
  obtain ⟨es, nodup, members, count⟩ := sampling.evictors
  have others : ∀ v, v ≠ t → (s.goto t d pc).pc v = s.pc v := fun v other => by
    simp [goto, other]
  have mine : (s.goto t d pc).pc t = pc := by simp [goto]
  cases before : (s.pc t).evicting <;> cases after : pc.evicting <;> rw [before, after] at size
  · refine ⟨es, nodup, fun v => ?_, by simp at size; omega⟩
    by_cases isMe : v = t
    · rw [isMe, mine, after, members, before]
    · rw [others v isMe, members]
  · have notIn : t ∉ es := fun member => by simp [(members t).1 member] at before
    refine ⟨t :: es, List.nodup_cons.2 ⟨notIn, nodup⟩, fun v => ?_, ?_⟩
    · by_cases isMe : v = t
      · simp [isMe, mine, after]
      · rw [others v isMe, ← members, List.mem_cons, or_iff_right isMe]
    · simp at size ⊢
      omega
  · have isIn : t ∈ es := (members t).2 before
    refine ⟨es.erase t, nodup.erase t, fun v => ?_, ?_⟩
    · by_cases isMe : v = t
      · rw [isMe, mine, after, nodup.mem_erase_iff]
        simp
      · rw [others v isMe, ← members, nodup.mem_erase_iff, and_iff_right isMe]
    · have := List.length_erase_of_mem isIn
      have := List.length_pos_of_mem isIn
      simp at size
      omega
  · refine ⟨es, nodup, fun v => ?_, by simp at size; omega⟩
    by_cases isMe : v = t
    · rw [isMe, mine, after, members, before]
    · rw [others v isMe, members]

/-- One thread moves; what it leaves of the keys keeps the counts. -/
theorem goto (sampling : s.Sampling m u) {d : Data K V} {pc : PC K V} (full : kSize ≤ d.count)
    (keeps : Keeps m s.data.map.keys d.map.keys) (reads : Reads m d.map.keys pc)
    (size : d.map.size + (if (s.pc t).evicting then 1 else 0) =
      s.data.map.size + if pc.evicting then 1 else 0)
    (known : d.map.keys ⊆ u) (pending : ∀ p, pc.priority = some p → p ∈ u)
    (kept : ∀ x ∈ s.data.map.keys, x ∈ d.map.keys ∨ m ≤ above d.map.keys x)
    (mine : ∀ x, (s.pc t).priority = some x →
      x ∈ d.map.keys ∨ m ≤ above d.map.keys x ∨ pc.priority = some x) :
    (s.goto t d pc).Sampling m u := by
  have others : ∀ v, v ≠ t → (s.goto t d pc).pc v = s.pc v := fun v other => by
    simp [Shared.goto, other]
  have moved : (s.goto t d pc).pc t = pc := by simp [Shared.goto]
  refine ⟨full, fun v => ?_, sampling.goto_evictors size, known, fun v p holds => ?_,
    fun x inUnion => ?_⟩
  · by_cases isMe : v = t
    · rw [isMe, moved]
      exact reads
    · rw [others v isMe]
      exact (sampling.reads v).keep keeps
  · by_cases isMe : v = t
    · rw [isMe, moved] at holds
      exact pending p holds
    · rw [others v isMe] at holds
      exact sampling.pending v p holds
  · rcases sampling.decided x inUnion with present | enough | ⟨v, holds⟩
    · exact (kept x present).imp_right .inl
    · exact .inr (.inl (keeps x m le_rfl enough))
    · by_cases isMe : v = t
      · rw [isMe] at holds
        exact (mine x holds).imp_right (.imp_right fun still => ⟨t, by rw [moved]; exact still⟩)
      · exact .inr (.inr ⟨v, by rw [others v isMe]; exact holds⟩)

theorem call (sampling : s.Sampling m u) (idle : s.pc t = .idle) (p : K) (v : V) :
    (s.goto t s.data (.count p v)).Sampling m (Insert.insert p u) := by
  have others : ∀ w, w ≠ t → (s.goto t s.data (.count p v)).pc w = s.pc w := fun w other => by
    simp [Shared.goto, other]
  have moved : (s.goto t s.data (.count p v)).pc t = .count p v := by simp [Shared.goto]
  refine ⟨sampling.full, fun w => ?_, sampling.goto_evictors (by simp [idle, PC.evicting]),
    sampling.known.trans (Finset.subset_insert ..), fun w q holds => ?_, fun x inUnion => ?_⟩
  · by_cases isMe : w = t
    · rw [isMe, moved]
      trivial
    · rw [others w isMe]
      exact sampling.reads w
  · by_cases isMe : w = t
    · rw [isMe, moved] at holds
      cases holds
      exact Finset.mem_insert_self ..
    · rw [others w isMe] at holds
      exact Finset.mem_insert_of_mem (sampling.pending w q holds)
  · rcases Finset.mem_insert.1 inUnion with rfl | before
    · exact .inr (.inr ⟨t, by rw [moved]; rfl⟩)
    · refine (sampling.decided x before).imp_right (.imp_right fun ⟨w, holds⟩ => ⟨w, ?_⟩)
      have other : w ≠ t := fun isMe => by rw [isMe, idle] at holds; cases holds
      rw [others w other]
      exact holds

theorem step (sampling : s.Sampling m u) (positive : 1 ≤ m) {d : Data K V} {pc : PC K V}
    (planned : plan s.data (s.pc t) = some (d, pc)) : (s.goto t d pc).Sampling m u := by
  have some_ := sampling.nonempty positive
  have least := OrderedMap.firstKey_mem some_
  have lowest : ∀ y ∈ s.data.map.keys, s.data.map.firstKey ≤ y :=
    fun y member => OrderedMap.firstKey_le member
  have aboveFirst := Theory.above_least least lowest
  rw [OrderedMap.card_keys] at aboveFirst
  have large := sampling.size_le
  have present : ∀ x ∈ s.data.map.keys, x ∈ s.data.map.keys ∨ m ≤ above s.data.map.keys x :=
    fun x member => .inl member
  have reads := sampling.reads t
  have offered := sampling.pending t
  cases here : s.pc t with
  | idle => rw [here] at planned; cases planned
  | count p v =>
      rw [here] at planned offered
      simp only [plan, if_neg (Nat.not_lt.2 sampling.full)] at planned
      cases planned
      refine sampling.goto (sampling.full.trans (Nat.le_succ _)) (.refl m _) trivial ?_
        sampling.known offered present fun x holds => .inr (.inr ?_)
      · simp [here, PC.evicting]
      · rwa [here] at holds
  | add p v => rw [here] at reads; exact reads.elim
  | first p v =>
      rw [here] at planned offered
      simp only [plan] at planned
      by_cases below : s.data.map.firstKey < p
      · rw [if_pos below] at planned
        cases planned
        refine sampling.goto sampling.full (.refl m _) ⟨below, by omega⟩ ?_ sampling.known offered
          present fun x holds => .inr (.inr ?_)
        · simp [here, PC.evicting]
        · rwa [here] at holds
      · rw [if_neg below] at planned
        cases planned
        refine sampling.goto sampling.full (.refl m _) trivial ?_ sampling.known (by simp [PC.priority])
          present fun x holds => ?_
        · simp [here, PC.evicting]
        · rw [here] at holds
          cases holds
          -- rejected: it is the first key itself, or every key is above it
          rcases eq_or_lt_of_le (not_lt.1 below) with same | under
          · exact .inl (same ▸ least)
          · refine .inr (.inl ?_)
            rw [Theory.above_of_lt fun y member => under.trans_le (lowest y member),
              OrderedMap.card_keys]
            exact large
  | insert p v first =>
      rw [here] at planned reads offered
      obtain ⟨below, enough⟩ := reads
      have inUnion : p ∈ u := offered p rfl
      simp only [plan] at planned
      by_cases there : s.data.map.contains p = true
      · rw [if_pos there] at planned
        cases planned
        refine sampling.goto sampling.full (.refl m _) trivial ?_ sampling.known (by simp [PC.priority])
          present fun x holds => ?_
        · simp [here, PC.evicting]
        · rw [here] at holds
          cases holds
          exact .inl (OrderedMap.contains_iff.1 there)
      · rw [if_neg there] at planned
        cases planned
        have isNew : p ∉ s.data.map.keys := fun member => there (OrderedMap.contains_iff.2 member)
        have keys := OrderedMap.keys_insert s.data.map p v
        refine sampling.goto sampling.full ?_ ?_ ?_ ?_ (by simp [PC.priority]) ?_ fun x holds => ?_
        · rw [keys]
          exact keeps_insert _ p
        · simp only [Reads, keys, Theory.above_insert isNew below]
          omega
        · simp [here, PC.evicting, OrderedMap.size_insert isNew]
        · rw [keys]
          exact Finset.insert_subset inUnion sampling.known
        · intro x member
          rw [keys]
          exact .inl (Finset.mem_insert_of_mem member)
        · rw [here] at holds
          cases holds
          rw [keys]
          exact .inl (Finset.mem_insert_self ..)
  | erase first =>
      rw [here] at planned reads
      simp only [plan] at planned
      by_cases there : s.data.map.contains first = true
      · rw [if_pos there] at planned
        cases planned
        have member := OrderedMap.contains_iff.1 there
        have keys := OrderedMap.keys_erase s.data.map first
        have keeps : Keeps m s.data.map.keys (s.data.map.keys.erase first) :=
          keeps_erase member reads
        refine sampling.goto sampling.full (by rw [keys]; exact keeps) trivial ?_ ?_
          (by simp [PC.priority]) ?_ (by simp [here, PC.priority])
        · have := OrderedMap.size_erase member
          simpa [here, PC.evicting] using this
        · rw [keys]
          exact (Finset.erase_subset ..).trans sampling.known
        · intro x before
          rw [keys]
          by_cases isFirst : x = first
          · exact .inr (keeps x m le_rfl (isFirst ▸ reads))
          · exact .inl (Finset.mem_erase.2 ⟨isFirst, before⟩)
      · rw [if_neg there] at planned
        cases planned
        exact sampling.goto sampling.full (.refl m _) trivial (by simp [here, PC.evicting])
          sampling.known (by simp [PC.priority]) present (by simp [here, PC.priority])
  | again =>
      rw [here] at planned
      have evicts : (s.pc t).evicting = true := by rw [here]; rfl
      have larger := sampling.size_lt evicts
      cases planned
      exact sampling.goto sampling.full (.refl m _) (by simp only [Reads]; omega)
        (by simp [here, PC.evicting]) sampling.known (by simp [PC.priority]) present
        (by simp [here, PC.priority])

theorem next (sampling : s.Sampling m u) (positive : 1 ≤ m) (taken : s.next a = some s') :
    s'.Sampling m (offered u a) := by
  cases a with
  | call t p v =>
      simp only [Shared.next] at taken
      split at taken
      · cases taken
        exact sampling.call ‹_› p v
      · cases taken
  | step t =>
      obtain ⟨⟨d, pc⟩, planned, rfl⟩ := Option.map_eq_some_iff.1 taken
      exact sampling.step positive planned

end Sampling

/-- **Concurrent priority sampling is exact.** From a `Data` with no update in progress, a count
of at least `kSize` and `m ≥ 1` entries, after any number of interleaved updates the map is not
empty, so no thread ever asks an empty map for its first key; and whenever no update is in
progress its keys are exactly the `m` largest of the keys it had and all priorities offered. -/
theorem largest_kept {s₀ : Shared T K V} {as : List (Move T K V)}
    (quiet : ∀ t, s₀.pc t = .idle) (full : kSize ≤ s₀.data.count) (some_ : 1 ≤ s₀.data.map.size)
    (ran : Theory.run Shared.next s₀ as = some s) :
    s.data.map.keys.Nonempty ∧
      ((∀ t, s.pc t = .idle) →
        Largest s₀.data.map.size (as.foldl offered s₀.data.map.keys) s.data.map.keys) := by
  have start : s₀.Sampling s₀.data.map.size s₀.data.map.keys := by
    refine ⟨full, fun t => ?_, ⟨[], List.nodup_nil, fun t => ?_, rfl⟩, Finset.Subset.refl _,
      fun t p holds => ?_, fun x member => .inl member⟩
    · rw [quiet]
      trivial
    · simp [quiet, PC.evicting]
    · rw [quiet] at holds
      cases holds
  have sampling : s.Sampling s₀.data.map.size (as.foldl offered s₀.data.map.keys) :=
    Theory.run_follows (fun _ _ _ _ before _ taken => before.next some_ taken) start
      (Theory.along_of_forall fun _ _ => trivial : Theory.Along _ (fun _ _ => True) _ _) ran
  refine ⟨sampling.nonempty some_, fun done => Theory.largest_of_above sampling.known ?_ ?_⟩
  · obtain ⟨es, -, members, size⟩ := sampling.evictors
    have none_ : es = [] := List.eq_nil_iff_forall_not_mem.2 fun t member => by
      simpa [done, PC.evicting] using (members t).1 member
    rw [OrderedMap.card_keys, size, none_, List.length_nil, Nat.add_zero]
  · intro x inUnion missing
    rcases sampling.decided x inUnion with present | enough | ⟨t, holds⟩
    · exact absurd present missing
    · exact enough
    · rw [done] at holds
      cases holds

def fullData : Shared (Fin 2) Nat Nat where
  data := ⟨⟨[(5, 0), (10, 0)], by decide⟩, kSize, 0⟩
  pc _ := .idle

/-- A thread inserts beside a first key that another thread has evicted meanwhile. -/
def staleFirst : List (Move (Fin 2) Nat Nat) :=
  [.call 0 7 0, .step 0, .step 0, .call 1 20 0, .step 1, .step 1, .step 1, .step 1,
    .step 0, .step 0, .step 0, .step 0]

theorem largest_kept_stale : ∃ s : Shared (Fin 2) Nat Nat,
    Theory.run Shared.next fullData staleFirst = some s ∧ s.data.map.entries = [(10, 0), (20, 0)] ∧
    Largest 2 {20, 7, 5, 10} s.data.map.keys := by
  have ran : (Theory.run Shared.next fullData staleFirst).map
      (fun s : Shared (Fin 2) Nat Nat => (s.data.map.entries, s.pc 0, s.pc 1)) =
        some ([(10, 0), (20, 0)], .idle, .idle) := by decide +kernel
  obtain ⟨s, ran, seen⟩ := Option.map_eq_some_iff.1 ran
  simp only [Prod.mk.injEq] at seen
  have done : ∀ t, s.pc t = .idle := by
    intro t
    match t with
    | 0 => exact seen.2.1
    | 1 => exact seen.2.2
  exact ⟨s, ran, seen.1, (largest_kept (fun _ => rfl) le_rfl (by decide) ran).2 done⟩

end Shared

end Ccmetrics.Reservoir
