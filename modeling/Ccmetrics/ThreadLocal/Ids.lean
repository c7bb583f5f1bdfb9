/-
# ThreadLocal.Ids -- who holds which id

The ids that live pointer objects hold and the ids on the free list are together exactly
`1 .. next_id_`, each once (`Allocated`). Every step keeps this as long as nothing is done with
the id 0 of a pointer object that has been moved from, and `++next_id_` does not wrap (`Regular`).

`~ThreadLocalPointer` returns the id of a moved-from object like any other, so the free list then
holds 0, and the next pointer object is given it (`moved_id_reused`).
-/
import Mathlib.Data.List.Perm.Basic
import Mathlib.Data.List.Range
import Ccmetrics.ThreadLocal.Storage

namespace Ccmetrics.ThreadLocal

set_option autoImplicit false
set_option linter.unusedSectionVars false

namespace State

variable {T P V D : Type} [DecidableEq T] [DecidableEq P]
variable {s s' : State T P V D} {t : T} {p q : P} {a : Action T P V D}

/-- The live objects that have not been moved from. -/
def holders (s : State T P V D) : List P := s.live.filter fun p => !s.moved p

/-- All ids that are held or free. -/
def ids (s : State T P V D) : List Nat := s.holders.map s.id ++ s.freeList

structure Allocated (s : State T P V D) : Prop where
  live : s.live.Nodup
  ids : s.ids.Perm (List.range' 1 s.nextId)
  small : s.nextId < 2 ^ 32
  blank : ∀ p ∈ s.live, s.moved p = true → s.id p = 0
  inside : s.outside = false

/-- The step uses no id of a moved-from object, and leaves an id to hand out. -/
def Regular (s : State T P V D) : Action T P V D → Prop
  | .construct _ => s.holders.length + 1 < 2 ^ 32
  | .move o _ => s.moved o = false
  | .destruct p => s.moved p = false
  | _ => True

instance decidableRegular (s : State T P V D) : (a : Action T P V D) → Decidable (s.Regular a)
  | .construct _ => inferInstanceAs (Decidable (_ < _))
  | .move _ _ | .destruct _ => inferInstanceAs (Decidable (_ = _))
  | .get _ _ | .reset _ _ _ _ | .exit _ => isTrue trivial

theorem allocated_init : (init : State T P V D).Allocated where
  live := List.nodup_nil
  ids := by simp [ids, holders, init]
  small := by simp [init]
  blank := by simp [init]
  inside := rfl

theorem mem_holders : p ∈ s.holders ↔ p ∈ s.live ∧ s.moved p = false := by
  simp [holders]

namespace Allocated

theorem holders_nodup (allocated : s.Allocated) : s.holders.Nodup := allocated.live.filter _

theorem range (allocated : s.Allocated) {i : Nat} (member : i ∈ s.ids) :
    1 ≤ i ∧ i ≤ s.nextId := by
  have := allocated.ids.mem_iff.1 member
  rw [List.mem_range'_1] at this
  omega

theorem nodup (allocated : s.Allocated) : s.ids.Nodup :=
  allocated.ids.nodup_iff.2 (List.nodup_range' ..)

theorem count (allocated : s.Allocated) :
    s.holders.length + s.freeList.length = s.nextId := by
  have := allocated.ids.length_eq
  simpa [State.ids] using this

/-- What a step does to the ids, up to order. -/
theorem of_perm (allocated : s.Allocated) (live : s'.live.Nodup) (ids : s'.ids.Perm s.ids)
    (nextId : s'.nextId = s.nextId) (blank : ∀ p ∈ s'.live, s'.moved p = true → s'.id p = 0)
    (inside : s'.outside = s.outside) : s'.Allocated where
  live := live
  ids := nextId ▸ ids.trans allocated.ids
  small := nextId ▸ allocated.small
  blank := blank
  inside := inside.trans allocated.inside

end Allocated

/-! ## What a step does to the ids -/

theorem object_holders (i : Nat) (isNew : p ∉ s.live) :
    (s.object p i).holders = p :: s.holders := by
  simp only [holders, object, List.filter_cons, if_true, Bool.not_false]
  congr 1
  refine List.filter_congr fun q member => ?_
  have other : q ≠ p := fun same => isNew (same ▸ member)
  simp [other]

theorem object_ids (i : Nat) (isNew : p ∉ s.live) : (s.object p i).ids = i :: s.ids := by
  have same : s.holders.map (s.object p i).id = s.holders.map s.id := by
    refine List.map_congr_left fun q member => ?_
    have other : q ≠ p := fun same => isNew (same ▸ (mem_holders.1 member).1)
    simp [object, other]
  simp only [ids, object_holders i isNew, List.map_cons, same, List.cons_append]
  simp [object]

theorem object_blank (allocated : s.Allocated) (i : Nat) :
    ∀ q ∈ (s.object p i).live, (s.object p i).moved q = true → (s.object p i).id q = 0 := by
  intro q member wasMoved
  simp only [object] at member wasMoved ⊢
  by_cases same : q = p
  · simp [same] at wasMoved
  · simp only [same, if_false] at wasMoved ⊢
    exact allocated.blank q (by simpa [same] using member) wasMoved

/-- The id comes from the free list, or is the next one. -/
theorem create_cases (s : State T P V D) :
    (∃ rest i, s.freeList = rest ++ [i] ∧ s.create = (i, { s with freeList := rest })) ∨
    s.freeList = [] ∧ s.create =
      ((s.nextId + 1) % 2 ^ 32, { s with nextId := (s.nextId + 1) % 2 ^ 32 }) := by
  obtain none_ | ⟨rest, i, split⟩ := List.eq_nil_or_concat s.freeList
  · exact .inr ⟨none_, by simp [create, none_]⟩
  · rw [List.concat_eq_append] at split
    exact .inl ⟨rest, i, split, by simp [create, split]⟩

theorem Allocated.construct (allocated : s.Allocated) (isNew : p ∉ s.live)
    (room : s.holders.length + 1 < 2 ^ 32) : (s.create.2.object p s.create.1).Allocated := by
  rcases create_cases s with ⟨rest, i, split, created⟩ | ⟨none_, created⟩
  · rw [created]
    have blank := object_blank (p := p) allocated i
    refine allocated.of_perm (List.nodup_cons.2 ⟨isNew, allocated.live⟩) ?_ rfl blank rfl
    refine (List.Perm.of_eq (object_ids (s := { s with freeList := rest }) i isNew)).trans ?_
    rw [State.ids, State.ids, split, ← List.append_assoc]
    exact (List.perm_append_singleton i _).symm
  · have all := allocated.count
    rw [none_, List.length_nil, Nat.add_zero] at all
    have noWrap : (s.nextId + 1) % 2 ^ 32 = s.nextId + 1 := Nat.mod_eq_of_lt (by omega)
    rw [created, noWrap]
    refine ⟨List.nodup_cons.2 ⟨isNew, allocated.live⟩, ?_, by simp only [object]; omega,
      object_blank allocated _, allocated.inside⟩
    refine (List.Perm.of_eq
      (object_ids (s := { s with nextId := s.nextId + 1 }) (s.nextId + 1) isNew)).trans ?_
    have next : List.range' 1 (s.nextId + 1) = List.range' 1 s.nextId ++ [s.nextId + 1] := by
      rw [List.range'_1_concat, Nat.add_comm 1]
    simp only [object]
    rw [next]
    exact (allocated.ids.cons _).trans (List.perm_append_singleton (s.nextId + 1) _).symm

theorem Allocated.move {o : P} (allocated : s.Allocated) (source : o ∈ s.live) (isNew : p ∉ s.live)
    (holds : s.moved o = false) : (s.moveFrom o p).Allocated := by
  have apart : p ≠ o := fun same => isNew (same ▸ source)
  refine allocated.of_perm (List.nodup_cons.2 ⟨isNew, allocated.live⟩) ?_ rfl ?_ rfl
  · have holders' : (s.moveFrom o p).holders = p :: s.holders.erase o := by
      rw [allocated.holders_nodup.erase_eq_filter]
      simp only [holders, moveFrom, object, List.filter_cons, List.filter_filter]
      simp only [apart, if_false, if_true, Bool.not_false]
      congr 1
      refine List.filter_congr fun q member => ?_
      have other : q ≠ p := fun same => isNew (same ▸ member)
      by_cases same : q = o <;> simp [same, other]
    have same : (s.holders.erase o).map (s.moveFrom o p).id = (s.holders.erase o).map s.id := by
      refine List.map_congr_left fun q member => ?_
      rw [allocated.holders_nodup.mem_erase_iff, mem_holders] at member
      have other : q ≠ p := fun same => isNew (same ▸ member.2.1)
      simp [moveFrom, object, member.1, other]
    have taken : (s.moveFrom o p).id p = s.id o := by simp [moveFrom, object, apart]
    have member : o ∈ s.holders := mem_holders.2 ⟨source, holds⟩
    rw [State.ids, State.ids, holders', List.map_cons, same, taken]
    exact ((List.perm_cons_erase member).map s.id).symm.append_right _
  · intro q member wasMoved
    by_cases same : q = o
    · simp [moveFrom, same]
    · simp only [moveFrom, same, if_false] at wasMoved ⊢
      exact object_blank allocated (s.id o) q member wasMoved

/-! ### The loop of `destroy` -/

/-- A step that leaves the allocator and the pointer objects alone. -/
structure SameObjects (s s' : State T P V D) : Prop where
  freeList : s'.freeList = s.freeList
  nextId : s'.nextId = s.nextId
  id : s'.id = s.id
  live : s'.live = s.live
  moved : s'.moved = s.moved
  exited : s'.exited = s.exited

theorem SameObjects.refl (s : State T P V D) : s.SameObjects s := ⟨rfl, rfl, rfl, rfl, rfl, rfl⟩

theorem SameObjects.trans {s₁ s₂ s₃ : State T P V D} (first : s₁.SameObjects s₂)
    (second : s₂.SameObjects s₃) : s₁.SameObjects s₃ where
  freeList := second.freeList.trans first.freeList
  nextId := second.nextId.trans first.nextId
  id := second.id.trans first.id
  live := second.live.trans first.live
  moved := second.moved.trans first.moved
  exited := second.exited.trans first.exited

theorem SameObjects.ids (same : s.SameObjects s') : s'.ids = s.ids := by
  simp only [State.ids, holders, same.live, same.moved, same.id, same.freeList]

theorem destroyAt_same (i : Nat) (t : T) : s.SameObjects (s.destroyAt i t) := by
  simp only [destroyAt]
  split
  · exact .refl s
  · split <;> exact ⟨rfl, rfl, rfl, rfl, rfl, rfl⟩

theorem destroyAt_outside {i : Nat} (valid : i ≠ 0) (t : T) :
    (s.destroyAt i t).outside = s.outside := by
  simp only [destroyAt, valid, if_false]
  split <;> rfl

theorem destroyAt_ring (i : Nat) (t : T) :
    (s.destroyAt i t).ring = s.ring ∧ (s.destroyAt i t).added = s.added := by
  simp only [destroyAt]
  split
  · exact ⟨rfl, rfl⟩
  · split <;> exact ⟨rfl, rfl⟩

theorem destroyEach_same (i : Nat) (ts : List T) : s.SameObjects (s.destroyEach i ts) := by
  induction ts generalizing s with
  | nil => exact .refl s
  | cons t rest ih => exact (destroyAt_same i t).trans ih

theorem destroyEach_outside {i : Nat} (valid : i ≠ 0) (ts : List T) :
    (s.destroyEach i ts).outside = s.outside := by
  induction ts generalizing s with
  | nil => rfl
  | cons t rest ih => exact ih.trans (destroyAt_outside valid t)

theorem destroyEach_ring (i : Nat) (ts : List T) :
    (s.destroyEach i ts).ring = s.ring ∧ (s.destroyEach i ts).added = s.added := by
  induction ts generalizing s with
  | nil => exact ⟨rfl, rfl⟩
  | cons t rest ih =>
      exact ⟨ih.1.trans (destroyAt_ring i t).1, ih.2.trans (destroyAt_ring i t).2⟩

theorem destroy_eq {i : Nat} (taken : s.destroy i = some s') :
    ∃ ts, s.ring.walk s.added (s.ring.next none) = some ts ∧
      s' = { s.destroyEach i ts with freeList := s.freeList ++ [i] } := by
  simp only [destroy] at taken
  split at taken
  · rename_i ts walked
    cases taken
    exact ⟨ts, walked, by simp only [(destroyEach_same i ts).freeList]⟩
  · cases taken

theorem Allocated.destruct (allocated : s.Allocated) (source : p ∈ s.live)
    (holds : s.moved p = false) (taken : s.destroy (s.id p) = some s') :
    { s' with live := s'.live.erase p }.Allocated := by
  obtain ⟨ts, -, rfl⟩ := destroy_eq taken
  have same := destroyEach_same (s := s) (s.id p) ts
  have member : p ∈ s.holders := mem_holders.2 ⟨source, holds⟩
  have valid : s.id p ≠ 0 := by
    have := allocated.range (List.mem_append_left _ (List.mem_map_of_mem member))
    omega
  refine allocated.of_perm ?_ ?_ same.nextId ?_ (destroyEach_outside valid ts)
  · simp only [same.live]
    exact allocated.live.erase p
  · have holders' : (s.live.erase p).filter (fun q => !s.moved q) = s.holders.erase p := by
      rw [allocated.live.erase_eq_filter, allocated.holders_nodup.erase_eq_filter, holders,
        List.filter_filter, List.filter_filter]
      exact List.filter_congr fun q _ => Bool.and_comm ..
    simp only [State.ids, holders, same.live, same.moved, same.id]
    rw [holders', ← List.append_assoc]
    refine (List.perm_append_singleton (s.id p) _).trans ?_
    exact ((List.perm_cons_erase member).map s.id).symm.append_right _
  · intro q inRest wasMoved
    simp only [same.live, same.moved, same.id] at inRest wasMoved ⊢
    exact allocated.blank q (List.mem_of_mem_erase inRest) wasMoved

theorem handle_same (t : T) :
    s.SameObjects (s.handle t) ∧ (s.handle t).outside = s.outside := by
  simp only [handle]
  constructor
  · split <;> split <;> exact ⟨rfl, rfl, rfl, rfl, rfl, rfl⟩
  · split <;> split <;> rfl

theorem threadExitCleanup_same (t : T) :
    s.SameObjects (s.threadExitCleanup t) ∧ (s.threadExitCleanup t).outside = s.outside := by
  simp only [threadExitCleanup]
  split
  · exact ⟨.refl s, rfl⟩
  · exact ⟨⟨rfl, rfl, rfl, rfl, rfl, rfl⟩, rfl⟩

/-- Accesses and thread exits do not touch the allocator. -/
theorem Allocated.of_ids (allocated : s.Allocated) (freeList : s'.freeList = s.freeList)
    (nextId : s'.nextId = s.nextId) (id : s'.id = s.id) (live : s'.live = s.live)
    (moved : s'.moved = s.moved) (outside : s'.outside = s.outside) : s'.Allocated := by
  refine allocated.of_perm (live ▸ allocated.live) (List.Perm.of_eq ?_) nextId ?_ outside
  · simp only [State.ids, holders, live, moved, id, freeList]
  · simpa only [live, moved, id] using allocated.blank

theorem Allocated.next (allocated : s.Allocated) (regular : s.Regular a)
    (taken : s.next a = some s') : s'.Allocated := by
  cases a with
  | construct p =>
      simp only [State.next] at taken
      split at taken
      · cases taken
      · cases taken
        exact allocated.construct ‹_› regular
  | move o p =>
      simp only [State.next] at taken
      split at taken
      · rename_i alive
        cases taken
        exact allocated.move alive.1 alive.2 regular
      · cases taken
  | destruct p =>
      simp only [State.next] at taken
      split at taken
      · obtain ⟨mid, destroyed, rfl⟩ := Option.map_eq_some_iff.1 taken
        exact allocated.destruct ‹_› regular destroyed
      · cases taken
  | get t p | reset t p ptr deleter =>
      simp only [State.next] at taken
      split at taken
      · cases taken
        obtain ⟨same, outside⟩ := handle_same (s := s) t
        exact allocated.of_ids same.freeList same.nextId same.id same.live same.moved outside
      · cases taken
  | exit t =>
      simp only [State.next] at taken
      split at taken
      · cases taken
        obtain ⟨same, outside⟩ := threadExitCleanup_same (s := s) t
        exact allocated.of_ids same.freeList same.nextId same.id same.live same.moved outside
      · cases taken

theorem allocated_run {as : List (Action T P V D)}
    (regular : Theory.Along State.next Regular (init : State T P V D) as)
    (ran : Theory.run State.next init as = some s) : s.Allocated :=
  Theory.run_along (fun _ _ _ before met taken => before.next met taken) allocated_init regular ran

/-- What the ids of a state must be. -/
def ValidIds (s : State T P V D) : Prop :=
  (∀ p ∈ s.live, s.moved p = false → 1 ≤ s.id p) ∧
  (∀ p ∈ s.live, s.moved p = false → ∀ q ∈ s.live, s.moved q = false →
    s.id p = s.id q → p = q) ∧
  s.freeList.Nodup ∧
  (∀ p ∈ s.live, s.id p ∉ s.freeList) ∧
  (∀ i ∈ s.freeList, 1 ≤ i ∧ i ≤ s.nextId) ∧
  s.outside = false

theorem Allocated.validIds (allocated : s.Allocated) : s.ValidIds := by
  have held : ∀ p ∈ s.live, s.moved p = false → s.id p ∈ s.holders.map s.id :=
    fun p alive holds => List.mem_map_of_mem (mem_holders.2 ⟨alive, holds⟩)
  have distinct := List.nodup_append.1 allocated.nodup
  have freeRange : ∀ i ∈ s.freeList, 1 ≤ i ∧ i ≤ s.nextId :=
    fun i free => allocated.range (List.mem_append_right _ free)
  refine ⟨?_, ?_, distinct.2.1, ?_, freeRange, allocated.inside⟩
  · intro p alive holds
    exact (allocated.range (List.mem_append_left _ (held p alive holds))).1
  · intro p alive holds q alive' holds' same
    exact List.inj_on_of_nodup_map distinct.1 (mem_holders.2 ⟨alive, holds⟩)
      (mem_holders.2 ⟨alive', holds'⟩) same
  · intro p alive free
    cases wasMoved : s.moved p with
    | false => exact distinct.2.2 _ (held p alive wasMoved) _ free rfl
    | true =>
        have := (freeRange _ free).1
        rw [allocated.blank p alive wasMoved] at this
        omega

/-- **Ids stay valid and unique.** In every run that never destroys a moved-from pointer object or
moves from it again, and constructs none while `2 ^ 32 - 1` others hold an id, every state has
positive and distinct ids for the live objects that have not been moved from, a free list of
distinct ids in `[1, next_id_]` that no live object holds, and `destroy` has never indexed outside
an element array. -/
theorem ids_valid {as : List (Action T P V D)}
    (regular : Theory.Along State.next Regular (init : State T P V D) as)
    (ran : Theory.run State.next init as = some s) : s.ValidIds :=
  (allocated_run regular ran).validIds

theorem ids_valid_moved : ∃ s : State (Fin 1) Nat Nat Nat,
    Theory.run State.next State.init
      [.construct 0, .construct 1, .destruct 0, .move 1 2, .construct 3] = some s ∧
    s.live.map s.id = [1, 2, 0] ∧ s.ValidIds := by
  have ran : (Theory.run State.next State.init
      [.construct 0, .construct 1, .destruct 0, .move 1 2, .construct 3]).map
      (fun s : State (Fin 1) Nat Nat Nat => s.live.map s.id) = some [1, 2, 0] := by decide +kernel
  obtain ⟨s, ran, held⟩ := Option.map_eq_some_iff.1 ran
  exact ⟨s, ran, held, ids_valid (by decide +kernel) ran⟩

/-- A moved-from object is destroyed, and its id 0 is handed out again. -/
theorem moved_id_reused : ∃ s : State (Fin 1) Nat Nat Nat,
    Theory.run State.next State.init
      [.construct 0, .move 0 1, .destruct 0, .construct 2] = some s ∧
    s.live = [2, 1] ∧ s.moved 2 = false ∧ s.id 2 = 0 ∧ ¬ s.ValidIds := by
  have ran : (Theory.run State.next State.init
      [.construct 0, .move 0 1, .destruct 0, .construct 2]).map
      (fun s : State (Fin 1) Nat Nat Nat => (s.live, s.moved 2, s.id 2)) =
        some ([2, 1], false, 0) := by decide +kernel
  obtain ⟨s, ran, seen⟩ := Option.map_eq_some_iff.1 ran
  simp only [Prod.mk.injEq] at seen
  obtain ⟨alive, holds, zero⟩ := seen
  refine ⟨s, ran, alive, holds, zero, fun valid => ?_⟩
  have := valid.1 2 (by simp [alive]) holds
  omega

end State

end Ccmetrics.ThreadLocal
