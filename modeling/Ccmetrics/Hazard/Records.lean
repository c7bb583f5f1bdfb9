/-
# Hazard.Records -- the list of records, and who holds which

`Sys.Step` is the system that only uses the records: any thread allocates and retires records,
sets, loads and clears hazards and retires nodes, with each node retired once and whatever is
in the cells that are loaded.

* `records_exclusive`: a record has one holder at most, `allocate` returns a record without a
  holder, and a record it has returned is on the list exactly once from then on.
-/
import Mathlib.Data.List.Perm.Subperm
import Ccmetrics.Theory.Run
import Ccmetrics.Theory.Chain
import Ccmetrics.Hazard.Conserve

namespace Ccmetrics.Hazard

set_option autoImplicit false
set_option linter.unusedSectionVars false

namespace HazardPointers

variable {P : Type}

/-- The records from `head_` on. -/
def records (h : HazardPointers P) : List Nat :=
  match h.head with
  | none => []
  | some r => r :: Theory.Chain.follow (fun r => (h.record r).next) h.fresh r

theorem records_head (h : HazardPointers P) : h.records.head? = h.head := by
  simp only [records]
  split <;> simp_all

/-- The list is a chain of allocated records without repetition. -/
structure Row (h : HazardPointers P) : Prop where
  chained : Theory.Chain.Linked (fun r => (h.record r).next) h.records
  nodup : h.records.Nodup
  bounded : ∀ r ∈ h.records, r < h.fresh

/-- A whole chain of allocated records from `head_` is the list. -/
theorem records_eq {h : HazardPointers P} {l : List Nat} (first : l.head? = h.head)
    (chained : Theory.Chain.Linked (fun r => (h.record r).next) l) (nodup : l.Nodup)
    (bounded : ∀ r ∈ l, r < h.fresh) : h.records = l := by
  cases l with
  | nil => simp only [records, ← first, List.head?_nil]
  | cons a rest =>
      simp only [records, ← first, List.head?_cons]
      have short : rest.length ≤ h.fresh := by
        have all : (a :: rest) ⊆ List.range h.fresh :=
          fun r member => List.mem_range.2 (bounded r member)
        have := (List.subperm_of_subset nodup all).length_le
        rw [List.length_range, List.length_cons] at this
        omega
      rw [Theory.Chain.follow_eq chained short]

theorem row_of_chain {h : HazardPointers P} {l : List Nat} (first : l.head? = h.head)
    (chained : Theory.Chain.Linked (fun r => (h.record r).next) l) (nodup : l.Nodup)
    (bounded : ∀ r ∈ l, r < h.fresh) : h.Row := by
  have whole := records_eq first chained nodup bounded
  constructor
  case chained => rw [whole]; exact chained
  case nodup => rw [whole]; exact nodup
  case bounded => rw [whole]; exact bounded

/-- An access that leaves `head_` and the links of the list alone leaves the list alone. -/
theorem Row.same {h h' : HazardPointers P} (row : h.Row) (head : h'.head = h.head)
    (next : ∀ r ∈ h.records, (h'.record r).next = (h.record r).next) (grows : h.fresh ≤ h'.fresh) :
    h'.records = h.records ∧ h'.Row := by
  have first := h.records_head.trans head.symm
  have chained := Theory.Chain.linked_congr row.chained next
  have bounded : ∀ r ∈ h.records, r < h'.fresh :=
    fun r member => Nat.lt_of_lt_of_le (row.bounded r member) grows
  exact ⟨records_eq first chained row.nodup bounded, row_of_chain first chained row.nodup bounded⟩

theorem Row.length_le {h : HazardPointers P} (row : h.Row) : h.records.length ≤ h.fresh := by
  have all : h.records ⊆ List.range h.fresh := fun r member => List.mem_range.2 (row.bounded r member)
  simpa using (List.subperm_of_subset row.nodup all).length_le

theorem Row.listed_iff {h : HazardPointers P} (row : h.Row) (r : Nat) :
    h.Listed r ↔ r ∈ h.records := by
  have first := h.records_head
  have chained := row.chained
  cases records : h.records with
  | nil =>
      rw [records] at first
      simp only [HazardPointers.Listed, ← first, List.head?_nil]
      simp
  | cons a rest =>
      rw [records] at first chained
      simp only [HazardPointers.Listed, ← first, List.head?_cons, Option.some.injEq,
        exists_eq_left']
      exact Theory.Chain.linked_reach chained

end HazardPointers

namespace Sys

variable {T P C : Type} [DecidableEq T] [DecidableEq P] [Inhabited P]
variable {K : Nat} {rd cells : C → P} {s s' : Sys T P C} {t u : T}
variable {e : Effect P} {nx : Next P C}

/-- `hp_count_` counts every record that has been or is about to be allocated: `allocate` adds
to it first and allocates afterwards. -/
def Counted (s : Sys T P C) : Prop :=
  ∃ waiting : List T, waiting.Nodup ∧ (∀ t, s.pc t = .allocNew ↔ t ∈ waiting) ∧
    s.pool.hpCount = s.pool.fresh + waiting.length

theorem access_allocNew (access : Access K rd s.pool (s.pc t) e nx) :
    (nx.pc = .allocNew ↔ e = .count) ∧ (s.pc t = .allocNew ↔ e = .create) := by
  generalize s.pc t = pc at access
  cases access
  case allocHead | allocBusy | allocLost => simp only [walkAlloc]; split <;> simp
  case helpHead | helpSkip | helpUnlock => simp only [walkHelp]; split <;> simp
  case scanHead | scanNext => simp only [walkScan, Next.pc_goto]; split <;> simp
  case sweepEnd | sweepLast => simp only [afterScan, Next.pc_goto]; split <;> simp
  all_goals simp

theorem apply_hpCount (h : HazardPointers P) (e : Effect P) :
    (h.apply e).hpCount = (match e with | .count => h.hpCount + 1 | _ => h.hpCount) := by
  cases e <;> rfl

/-- Who waits to allocate a record after an access. -/
theorem Counted.after (counted : s.Counted) (access : Access K rd s.pool (s.pc t) e nx) :
    (s.after t e nx).Counted := by
  obtain ⟨waiting, nodup, waits, count⟩ := counted
  obtain ⟨enters, leaves⟩ := access_allocNew access
  rw [Counted, after_pool, apply_hpCount, HazardPointers.apply_fresh]
  have pcs : ∀ u, (s.after t e nx).pc u = .allocNew ↔
      if u = t then e = .count else u ∈ waiting := by
    intro u
    by_cases same : u = t
    · subst same
      rw [after_pc_self, if_pos rfl]
      exact enters
    · rw [after_pc_other same, if_neg same]
      exact waits u
  cases e with
  | count =>
      have outside : t ∉ waiting := by
        rw [← waits t, leaves]
        simp
      refine ⟨t :: waiting, List.nodup_cons.2 ⟨outside, nodup⟩, fun u => ?_, ?_⟩
      · rw [pcs u]
        by_cases same : u = t <;> simp [same]
      · simp only [List.length_cons]
        omega
  | create =>
      have inside : t ∈ waiting := (waits t).1 (leaves.2 rfl)
      refine ⟨waiting.erase t, nodup.erase t, fun u => ?_, ?_⟩
      · rw [pcs u, nodup.mem_erase_iff]
        by_cases same : u = t <;> simp [same]
      · simp only [List.length_erase_of_mem inside]
        have := List.length_pos_of_mem inside
        omega
  | _ =>
      have outside : t ∉ waiting := by
        rw [← waits t, leaves]
        simp
      refine ⟨waiting, nodup, fun u => ?_, count⟩
      rw [pcs u]
      by_cases same : u = t
      · subst same; simp [outside]
      · simp [same]

/-- The list only changes by a push, which puts a new record in front. -/
theorem row_after (row : s.pool.Row) (owned : s.Owned) (listing : s.Listing)
    (access : Access K rd s.pool (s.pc t) e nx) : (s.pool.apply e).Row := by
  have kept : ∀ r ∈ s.pool.records, ((s.pool.apply e).record r).next = (s.pool.record r).next :=
    fun r member => listing.next_after access ((row.listed_iff r).2 member)
  have grows := HazardPointers.fresh_le_apply (h := s.pool) e
  cases e with
  | setHead hp =>
      obtain ⟨pc, -⟩ := access_setHead access
      have building : (s.pc t).building = some hp := by rw [pc]; rfl
      have outside : hp ∉ s.pool.records := by
        rw [← row.listed_iff hp]
        exact listing.building t hp building
      have next : (s.pool.record hp).next = s.pool.records.head? :=
        (listing.pushing t hp _ pc).trans s.pool.records_head.symm
      refine HazardPointers.row_of_chain (l := hp :: s.pool.records) rfl ⟨next, row.chained⟩
        (List.nodup_cons.2 ⟨outside, row.nodup⟩) fun r member => ?_
      rcases List.mem_cons.1 member with rfl | old
      · exact owned.bounded t r (.inr (.inl building))
      · exact row.bounded r old
  | _ => exact (row.same (HazardPointers.apply_head _) kept grows).2

/-! ## Slots of records without an owner -/

end Sys

/-- Whether a thread is inside `allocate`. -/
def PC.allocating {P C : Type} : PC P C → Bool
  | .allocHead | .allocActive _ | .allocLock _ | .allocCount | .allocNew | .allocNext _
  | .allocPush _ _ => true
  | _ => false

section Accesses

variable {P C : Type} [DecidableEq P] [Inhabited P]
variable {K : Nat} {rd : C → P} {h : HazardPointers P} {pc : PC P C}
variable {e : Effect P} {nx : Next P C}

theorem access_allocating (own : Option Nat) (access : Access K rd h pc e nx) (inside : nx.pc.allocating = true) :
    pc.allocating = true ∧ nx.own own = own := by
  cases access
  case helpHead | helpSkip | helpUnlock =>
      simp only [walkHelp] at inside
      split at inside <;> cases inside
  case scanHead | scanNext =>
      simp only [walkScan, Next.pc_goto] at inside
      split at inside <;> cases inside
  case sweepEnd | sweepLast =>
      simp only [afterScan, Next.pc_goto] at inside
      split at inside <;> cases inside
  case allocHead | allocBusy | allocLost => exact ⟨rfl, walkAlloc_own _ _⟩
  all_goals first | exact ⟨rfl, rfl⟩ | cases inside

/-- A thread's own record changes when `allocate` or `retire` returns. -/
theorem access_own_cases (own : Option Nat) (access : Access K rd h pc e nx) :
    nx.own own = own ∨ pc.allocating = true ∨
      ∃ this i, pc = .retireSlot this i ∧ ¬ i < K ∧ e = .unlock this := by
  cases access
  case retireDone this i done => exact .inr (.inr ⟨this, i, rfl, done, rfl⟩)
  case allocHead | allocBusy | allocLost => exact .inr (.inl rfl)
  case helpHead | helpSkip | helpUnlock => exact .inl (walkHelp_own ..)
  all_goals first | exact .inl rfl | exact .inr (.inl rfl)

/-- `allocate` returns a record that it found inactive, or the one it has built. -/
theorem access_record {hp : Nat} (access : Access K rd h pc e (.ret (.record hp))) :
    (h.record hp).active = false ∨ pc.building = some hp := by
  generalize returned : (.ret (.record hp) : Next P C) = nx at access
  cases access
  case allocWon free => cases returned; exact .inl free
  case allocPushed => cases returned; exact .inr rfl
  case allocHead | allocBusy | allocLost =>
      simp only [walkAlloc] at returned; split at returned <;> cases returned
  case helpHead | helpSkip | helpUnlock =>
      simp only [walkHelp] at returned; split at returned <;> cases returned
  all_goals cases returned

/-- `retire` clears the slots in ascending order. -/
theorem access_retireSlot {this i : Nat} (access : Access K rd h pc e nx)
    (next : nx.pc = .retireSlot this i) :
    ∃ j, i = j + 1 ∧ pc = .retireSlot this j ∧ e = .slot this j default := by
  cases access
  case retireClear this' j inside => cases next; exact ⟨_, rfl, rfl, rfl⟩
  case allocHead | allocBusy | allocLost =>
      simp only [walkAlloc] at next; split at next <;> cases next
  case helpHead | helpSkip | helpUnlock =>
      simp only [walkHelp] at next; split at next <;> cases next
  case scanHead | scanNext =>
      simp only [walkScan, Next.pc_goto] at next; split at next <;> cases next
  case sweepEnd | sweepLast =>
      simp only [afterScan, Next.pc_goto] at next; split at next <;> cases next
  all_goals cases next

end Accesses

namespace Sys

variable {T P C : Type} [DecidableEq T] [DecidableEq P] [Inhabited P]
variable {K : Nat} {rd cells : C → P} {s s' : Sys T P C} {t u : T}
variable {e : Effect P} {nx : Next P C}

/-- Only the slots of owned records are set: `retire` clears them before it lets go. -/
structure Vacant (K : Nat) (s : Sys T P C) : Prop where
  range : ∀ t, (s.pc t).InRange K
  slots : ∀ r k, s.slot r k ≠ default → k < K
  allocating : ∀ t, (s.pc t).allocating = true → s.own t = none
  retiring : ∀ t this i, s.pc t = .retireSlot this i → ∀ k < i, s.slot this k = default
  owned : ∀ r k, s.slot r k ≠ default → ∃ t, s.own t = some r
  stocked : ∀ r, (s.pool.record r).retireList ≠ [] → s.pool.Listed r

/-- A slot that is set after an access was set before it, or by it. -/
theorem slot_after {r k : Nat} (written : (s.after t e nx).slot r k ≠ default) :
    s.slot r k ≠ default ∧ (∀ v, e ≠ .slot r k v) ∨ ∃ v, e = .slot r k v := by
  simp only [slot, after_pool, HazardPointers.apply_pointers] at written
  cases e with
  | slot hp i v =>
      by_cases at_ : r = hp ∧ k = i
      · obtain ⟨rfl, rfl⟩ := at_
        exact .inr ⟨v, rfl⟩
      · simp only [at_, if_false] at written
        refine .inl ⟨written, fun v same => at_ ?_⟩
        cases same
        exact ⟨rfl, rfl⟩
  | create =>
      by_cases new : r = s.pool.fresh
      · simp [new] at written
      · simp only [new, if_false] at written
        exact .inl ⟨written, by simp⟩
  | _ => exact .inl ⟨written, by simp⟩

theorem Vacant.after (vacant : s.Vacant K) (owned : s.Owned) (listing : s.Listing)
    (access : Access K rd s.pool (s.pc t) e nx) : (s.after t e nx).Vacant K := by
  constructor
  case range =>
      intro u
      by_cases same : u = t
      · subst same
        rw [after_pc_self]
        exact access_inRange access (vacant.range u)
      · rw [after_pc_other same]
        exact vacant.range u
  case slots =>
      intro r k written
      rcases slot_after written with ⟨before, -⟩ | ⟨v, rfl⟩
      · exact vacant.slots r k before
      · exact access_slot_range access (vacant.range t)
  case allocating =>
      intro u inside
      by_cases same : u = t
      · subst same
        rw [after_pc_self] at inside
        obtain ⟨before, kept⟩ := access_allocating (s.own u) access inside
        rw [after_own_self, kept]
        exact vacant.allocating u before
      · rw [after_pc_other same] at inside
        rw [after_own_other same]
        exact vacant.allocating u inside
  case retiring =>
      intro u this i pc k below
      by_contra written
      by_cases same : u = t
      · subst same
        rw [after_pc_self] at pc
        obtain ⟨j, rfl, before, rfl⟩ := access_retireSlot access pc
        by_cases last : k = j
        · subst last
          simp [slot, HazardPointers.apply_pointers] at written
        · rcases slot_after written with ⟨old, -⟩ | ⟨v, cleared⟩
          · exact old (vacant.retiring u this j before k (by omega))
          · cases cleared
            exact last rfl
      · rw [after_pc_other same] at pc
        have mine : s.own u = some this := owned.this u this (by rw [pc]; rfl)
        rcases slot_after written with ⟨old, -⟩ | ⟨v, rfl⟩
        · exact old (vacant.retiring u this i pc k below)
        · exact same (owned.exclusive u t this (.inl mine)
            (.inl (owned.this t this (access_slot access))))
  case owned =>
      intro r k written
      rcases slot_after written with ⟨before, other⟩ | ⟨v, rfl⟩
      · obtain ⟨u, mine⟩ := vacant.owned r k before
        refine ⟨u, ?_⟩
        by_cases same : u = t
        · subst same
          rw [after_own_self]
          rcases access_own_cases (s.own u) access with kept | inside | ⟨this, i, pc, done, -⟩
          · rw [kept, mine]
          · rw [vacant.allocating u inside] at mine
            cases mine
          · obtain rfl : this = r := by
              rw [owned.this u this (by rw [pc]; rfl)] at mine
              exact Option.some.inj mine
            have inside := vacant.slots this k before
            exact absurd (vacant.retiring u this i pc k (by omega)) before
        · rw [after_own_other same]
          exact mine
      · refine ⟨t, ?_⟩
        have mine := owned.this t r (access_slot access)
        rcases access_own_cases (s.own t) access with kept | inside | ⟨_, _, _, _, unlocked⟩
        · rw [after_own_self, kept, mine]
        · rw [vacant.allocating t inside] at mine
          cases mine
        · cases unlocked
  case stocked =>
      intro r stocked
      rw [after_pool] at stocked ⊢
      rw [listing.listed_after access]
      refine .inl ?_
      obtain ⟨p, member⟩ := List.exists_mem_of_ne_nil _ stocked
      rcases HazardPointers.mem_apply_retireList access member with old | pushed | ⟨hp, moved, -⟩
      · exact vacant.stocked r (List.ne_nil_of_mem old)
      · exact listing.own t r (owned.grower access (.inr ⟨p, pushed⟩))
      · exact listing.own t r (owned.grower access (.inl ⟨hp, moved⟩))

theorem Vacant.call (vacant : s.Vacant K) (idle : s.pc t = .idle) {c : Call P C}
    (callable : s.Callable K t c) : (s.call t c).Vacant K := by
  refine ⟨?_, vacant.slots, ?_, ?_, vacant.owned, vacant.stocked⟩
  · intro u
    by_cases same : u = t
    · subst same
      rw [call_pc_self]
      cases c <;> first | trivial | exact callable.2
    · rw [call_pc_other c same]
      exact vacant.range u
  · intro u inside
    by_cases same : u = t
    · subst same
      rw [call_pc_self] at inside
      cases c with
      | allocate => exact callable
      | _ => cases inside
    · rw [call_pc_other c same] at inside
      exact vacant.allocating u inside
  · intro u this i pc k below
    by_cases same : u = t
    · subst same
      rw [call_pc_self] at pc
      cases c with
      | retire => cases pc; exact absurd below (Nat.not_lt_zero k)
      | _ => cases pc
    · rw [call_pc_other c same] at pc
      exact vacant.retiring u this i pc k below

theorem vacant_init : (init : Sys T P C).Vacant K := by
  constructor <;> simp [init, PC.InRange, PC.allocating, slot, HazardPointer.new]

/-! ## The system -/

/-- One step of any thread: a call of a member function, or an access of the running one. The
cells that `loadAndSetHazard` reads hold anything at any time. -/
inductive Step (K : Nat) : Sys T P C → Sys T P C → Prop
  | call (s : Sys T P C) (t : T) (c : Call P C) : s.pc t = .idle → s.Callable K t c →
      (∀ p, c = .retireNode p → p ∉ s.retired) → Step K s (s.call t c)
  | access (s : Sys T P C) (t : T) (rd : C → P) (s' : Sys T P C) (r : Option (Ret P)) :
      s.step K rd t = some (s', r) → Step K s s'

def Reachable (K : Nat) : Sys T P C → Prop :=
  Relation.ReflTransGen (Step K) init

structure Orderly (K : Nat) (s : Sys T P C) : Prop where
  owned : s.Owned
  listing : s.Listing
  row : s.pool.Row
  counted : s.Counted
  conserved : s.Conserved
  vacant : s.Vacant K

theorem Counted.call (counted : s.Counted) (idle : s.pc t = .idle) (c : Call P C) :
    (s.call t c).Counted := by
  obtain ⟨waiting, nodup, waits, count⟩ := counted
  refine ⟨waiting, nodup, fun u => ?_, count⟩
  rw [← waits u]
  by_cases same : u = t
  · subst same
    rw [call_pc_self, idle]
    cases c <;> simp [Call.entry]
  · rw [call_pc_other c same]

theorem Orderly.step (orderly : s.Orderly K) (step : Step K s s') : s'.Orderly K := by
  obtain ⟨owned, listing, row, counted, conserved, vacant⟩ := orderly
  cases step with
  | call t c idle callable new =>
      exact ⟨owned.call idle callable, listing.call c, row, counted.call idle c,
        conserved.call idle new, vacant.call idle callable⟩
  | access t rd _ r stepped =>
      obtain ⟨e, nx, access, rfl, -⟩ := step_access stepped
      refine ⟨owned.after listing access, listing.after owned access, ?_, counted.after access,
        conserved.after owned access, vacant.after owned listing access⟩
      rw [after_pool]
      exact row_after row owned listing access

theorem orderly_init : (init : Sys T P C).Orderly K where
  owned := owned_init
  listing := listing_init
  row := ⟨trivial, List.nodup_nil, by simp [init, HazardPointers.records]⟩
  counted := ⟨[], List.nodup_nil, by simp [init], rfl⟩
  conserved := conserved_init
  vacant := vacant_init

theorem orderly_of_reachable (reachable : Reachable K s) : s.Orderly K := by
  induction reachable with
  | refl => exact orderly_init
  | tail _ last ih => exact ih.step last

theorem Orderly.steps (orderly : s.Orderly K) (run : Relation.ReflTransGen (Step K) s s') :
    s'.Orderly K := by
  induction run with
  | refl => exact orderly
  | tail _ last ih => exact ih.step last

/-- Records never leave the list. -/
theorem Orderly.records_steps (orderly : s.Orderly K)
    (run : Relation.ReflTransGen (Step K) s s') {r : Nat} (member : r ∈ s.pool.records) :
    r ∈ s'.pool.records := by
  induction run with
  | refl => exact member
  | @tail mid last first step ih =>
      have before := orderly.steps first
      have after := before.step step
      rw [← after.row.listed_iff]
      have listed := (before.row.listed_iff r).2 ih
      cases step with
      | call => exact listed
      | access t rd _ q stepped =>
          obtain ⟨e, nx, access, rfl, -⟩ := step_access stepped
          rw [after_pool, before.listing.listed_after access]
          exact .inl listed

/-- What `allocate` hands out had no holder but the thread that was building it. -/
theorem Orderly.returned (orderly : s.Orderly K) {hp : Nat}
    (returned : s.step K rd t = some (s', some (.record hp))) :
    (∀ u, s.Holds u hp → u = t) ∧ s'.own t = some hp ∧ s'.Orderly K := by
  have after := orderly.step (.access s t rd s' _ returned)
  obtain ⟨e, nx, access, rfl, last⟩ := step_access returned
  obtain rfl := (last _).1 rfl
  refine ⟨fun u held => ?_, by rw [after_own_self]; rfl, after⟩
  rcases access_record access with free | building
  · rw [orderly.owned.active u hp held] at free
    cases free
  · exact orderly.owned.exclusive u t hp held (.inr (.inl building))

theorem Orderly.one_place (orderly : s.Orderly K) {p : P} (given : p ∈ s.retired) :
    (∃ t this, s.pc t = .push this p) ∨
    (∃ r, (s.pool.record r).retireList.count p = 1 ∧
      (∀ r', r' ≠ r → p ∉ (s.pool.record r').retireList) ∧ p ∉ s.pool.deleted) ∨
    (s.pool.deleted.count p = 1 ∧ ∀ r, p ∉ (s.pool.record r).retireList) := by
  obtain ⟨intact, -, -, kept, -, -, -⟩ := orderly.conserved
  rcases kept p given with pending | ⟨r, listed⟩ | gone
  · exact .inl pending
  · refine .inr (.inl ⟨r, List.count_eq_one_of_mem (intact.lists r) listed, ?_, ?_⟩)
    · exact fun r' other member => other (intact.apart r' r p member listed)
    · exact fun gone => intact.gone p gone r listed
  · exact .inr (.inr ⟨List.count_eq_one_of_mem intact.deleted gone, intact.gone p gone⟩)

/-- **Records are held by one party.** In every reachable state a record is held by at most one
thread: the one that allocated it, the one that is building it, or the one helper that has
locked it; `allocate` only returns a record that no other thread holds. The list is a finite
chain without repetition, no record that `allocate` has ever returned leaves it, and
`hp_count_` is at least its length. -/
theorem records_exclusive (reachable : Reachable K s) :
    (∀ t u r, s.Holds t r → s.Holds u r → t = u) ∧
    (∀ rd t s' hp, s.step K rd t = some (s', some (.record hp)) →
      (∀ u, u ≠ t → ¬ s.Holds u hp) ∧
      ∀ later, Relation.ReflTransGen (Step K) s' later → later.pool.records.count hp = 1) ∧
    s.pool.records.head? = s.pool.head ∧
    Theory.Chain.Linked (fun r => (s.pool.record r).next) s.pool.records ∧
    s.pool.records.Nodup ∧
    s.pool.records.length ≤ s.pool.hpCount := by
  have orderly := orderly_of_reachable reachable
  refine ⟨orderly.owned.exclusive, ?_, s.pool.records_head, orderly.row.chained,
    orderly.row.nodup, ?_⟩
  · intro rd t s' hp returned
    obtain ⟨alone, mine, after⟩ := orderly.returned returned
    refine ⟨fun u other held => other (alone u held), fun later run => ?_⟩
    have member := (after.row.listed_iff hp).1 (after.listing.own t hp mine)
    exact List.count_eq_one_of_mem (after.steps run).row.nodup (after.records_steps run member)
  · obtain ⟨waiting, -, -, count⟩ := orderly.counted
    have short := orderly.row.length_le
    omega

instance (t : T) : (c : Call P C) → Decidable (s.Callable K t c)
  | .allocate => inferInstanceAs (Decidable (s.own t = none))
  | .setHazard k _ | .loadAndSetHazard _ k | .loadAndSetHazardOrFail _ k =>
      inferInstanceAs (Decidable ((s.own t).isSome ∧ k < K))
  | .retire | .retireNode _ => inferInstanceAs (Decidable ((s.own t).isSome = true))

/-- One step as a function, for replaying a schedule: `some c` enters the call `c`. -/
def next [DecidableEq C] (K : Nat) (rd : C → P) (s : Sys T P C) : T × Option (Call P C) →
    Option (Sys T P C)
  | (t, some c) =>
      if s.pc t = .idle ∧ s.Callable K t c ∧ ∀ p ∈ s.retired, c ≠ .retireNode p then some (s.call t c)
      else none
  | (t, none) => (s.step K rd t).map (·.1)

theorem reachable_run [DecidableEq C] {as : List (T × Option (Call P C))}
    (ran : Theory.run (next K rd) s as = some s') (reachable : Reachable K s) :
    Reachable K s' := by
  refine Theory.run_induction (P := Reachable K) (fun s a s' before taken => ?_) reachable ran
  obtain ⟨t, _ | c⟩ := a
  · obtain ⟨⟨mid, r⟩, stepped, rfl⟩ := Option.map_eq_some_iff.1 taken
    exact before.tail (.access s t rd mid r stepped)
  · simp only [next] at taken
    split at taken
    · rename_i guard
      cases taken
      refine before.tail (.call s t c guard.1 guard.2.1 fun p isCall retired => ?_)
      exact guard.2.2 p retired isCall
    · cases taken

/-- Two threads allocate, the first one retires its record, and the second one retires nodes
until it helps. -/
def helped : List (Bool × Option (Call Nat Unit)) :=
  (true, some Call.allocate) :: List.replicate 5 (true, none) ++
  (false, some Call.allocate) :: List.replicate 6 (false, none) ++
  (true, some Call.retire) :: List.replicate 2 (true, none) ++
  (false, some (Call.retireNode 5)) :: List.replicate 2 (false, none) ++
  (false, some (Call.retireNode 6)) :: List.replicate 2 (false, none) ++
  (false, some (Call.retireNode 7)) :: List.replicate 13 (false, none)

/-- The second thread has locked the first one's record to drain it and is its only holder. -/
theorem records_exclusive_draining : ∃ s : Sys Bool Nat Unit,
    (s.Holds false 0 ∧ ∀ t, s.Holds t 0 → t = false) ∧ s.pool.records = [1, 0] := by
  have replay : (Theory.run (next 1 fun _ => 0) (init : Sys Bool Nat Unit) helped).map
      (fun s => ((s.pc false).draining, s.pool.records)) = some (some 0, [1, 0]) := by
    decide +kernel
  obtain ⟨s, ran, seen⟩ := Option.map_eq_some_iff.1 replay
  obtain ⟨draining, listed⟩ := Prod.mk.inj seen
  have mine : s.Holds false 0 := .inr (.inr draining)
  exact ⟨s, ⟨mine, fun t held => (records_exclusive (reachable_run ran .refl)).1 t false 0 held mine⟩,
    listed⟩

end Sys

end Ccmetrics.Hazard
