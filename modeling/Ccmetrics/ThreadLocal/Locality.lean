/-
# ThreadLocal.Locality -- one value for each thread and pointer object

`remember` is the specification: a map from threads and pointer objects to values, where a
construction makes the object null for every thread and a `reset` sets one entry. `Holds` ties a
state to it. Values live in arrays that are indexed by id and grow at different times, so it also
says that an id nobody holds is null in every array, and that the ring lists exactly the threads
that have an array, since `destroy` clears only those.
-/
import Ccmetrics.ThreadLocal.Ids

namespace Ccmetrics.ThreadLocal

set_option autoImplicit false
set_option linter.unusedSectionVars false

/-! ## One array -/

namespace ThreadLocalStorage

variable {V D : Type} {x : ThreadLocalStorage V D} {i j : Nat}

theorem value_of_capacity (none_ : x.capacity = 0) : x.value i = none := by
  have : x.elements = [] := List.length_eq_zero_iff.1 none_
  simp [value, this]

/-- Growing an array changes no value. -/
theorem value_resize (size : Nat) : (x.resize size).value i = x.value i := by
  simp only [value, resize]
  by_cases inside : i - 1 < x.elements.length
  · rw [List.getElem?_append_left inside]
  · rw [List.getElem?_append_right (by omega), List.getElem?_eq_none (l := x.elements) (by omega),
      List.getElem?_replicate]
    split <;> rfl

theorem value_grow (idx : Nat) : (x.grow idx).value i = x.value i := by
  simp only [grow]
  split
  · exact value_resize idx
  · rfl

theorem le_capacity_grow (idx : Nat) : idx ≤ (x.grow idx).capacity := by
  simp only [grow]
  split
  · simp only [resize, capacity, newSize, List.length_append, List.length_replicate]
    omega
  · omega

theorem capacity_grow_ne (idx : Nat) (some_ : x.capacity ≠ 0) : (x.grow idx).capacity ≠ 0 := by
  simp only [grow]
  split
  · simp only [resize, capacity, List.length_append] at *
    omega
  · exact some_

theorem capacity_set (ptr : Option V) (deleter : Option D) :
    (x.set i ptr deleter).capacity = (x.grow i).capacity := by
  simp [set, capacity]

theorem value_set (ptr : Option V) (deleter : Option D) (hi : 1 ≤ i) (hj : 1 ≤ j) :
    (x.set i ptr deleter).value j = if j = i then ptr else x.value j := by
  have room := le_capacity_grow (x := x) i
  rw [← value_grow (x := x) (i := j) i]
  simp only [set, value, List.getElem?_set]
  by_cases same : j = i
  · subst same
    have inside : j - 1 < (x.grow j).elements.length := by simp only [capacity] at room; omega
    simp [inside]
  · have apart : i - 1 ≠ j - 1 := by omega
    simp [same, apart]

theorem capacity_destroyAt : (x.destroyAt i).1.capacity = x.capacity := by
  simp only [destroyAt]
  split <;> simp [capacity]

theorem value_destroyAt (hi : 1 ≤ i) (hj : 1 ≤ j) :
    (x.destroyAt i).1.value j = if j = i then none else x.value j := by
  simp only [destroyAt]
  cases present : x.elements[i - 1]? with
  | none =>
      by_cases same : j = i
      · simp [same, value, present]
      · simp [same]
  | some e =>
      by_cases same : j = i
      · subst same
        have cleared : e.destroy.1.ptr = none := by
          simp only [Element.destroy]
          split
          · assumption
          · rfl
        have inside := (List.getElem?_eq_some_iff.1 present).1
        simp [value, inside, cleared]
      · have apart : i - 1 ≠ j - 1 := by omega
        simp [value, same, apart]

end ThreadLocalStorage

namespace State

variable {T P V D : Type} [DecidableEq T] [DecidableEq P]
variable {s s' : State T P V D} {t u : T} {p q : P} {a : Action T P V D}

/-! ## The registered threads -/

/-- The ring lists exactly the threads that have an array. -/
def Registered (s : State T P V D) : Prop :=
  ∃ l, s.ring.Spells l ∧ l.length ≤ s.added ∧ ∀ t, t ∈ l ↔ (s.tls t).capacity ≠ 0

theorem Registered.handle (registered : s.Registered) (t : T) :
    (s.handle t).Registered ∧ ((s.handle t).tls t).capacity ≠ 0 := by
  obtain ⟨l, spells, few, members⟩ := registered
  have on := spells.onList_iff t
  by_cases first : (s.tls t).capacity = 0
  · have notOn : t ∉ l := fun member => (members t).1 member first
    have off : s.ring.onList t = false := by simpa [notOn] using on
    have grown : ((s.tls t).get 1).1.capacity ≠ 0 := by
      have := ThreadLocalStorage.le_capacity_grow (x := s.tls t) 1
      simp only [ThreadLocalStorage.get]
      omega
    have entered : s.handle t =
        { s.setTls t ((s.tls t).get 1).1 with ring := s.ring.add t, added := s.added + 1 } := by
      simp [State.handle, first, setTls, off]
    rw [entered]
    refine ⟨⟨l ++ [t], Theory.Ring.spells_add spells notOn, by simpa using few, fun u => ?_⟩,
      by simpa [setTls] using grown⟩
    by_cases same : u = t
    · simp [same, setTls, grown]
    · simp [same, setTls, members u]
  · have entered : s.handle t = s := by
      have isOn := on.2 ((members t).2 first)
      simp [State.handle, first, isOn]
    rw [entered]
    exact ⟨⟨l, spells, few, members⟩, first⟩

theorem handle_value (t u : T) (i : Nat) : ((s.handle t).tls u).value i = (s.tls u).value i := by
  have entered : ((s.handle t).tls u) =
      if (s.tls t).capacity = 0 ∧ u = t then ((s.tls t).grow 1) else s.tls u := by
    by_cases first : (s.tls t).capacity = 0 <;> by_cases same : u = t <;>
      simp [handle, first, same, setTls, ThreadLocalStorage.get, apply_ite State.tls]
  rw [entered]
  split
  · rename_i here
    rw [ThreadLocalStorage.value_grow, here.2]
  · rfl

/-- Replacing an array by one of the same thread, not empty. -/
theorem Registered.setTls (registered : s.Registered) {x : ThreadLocalStorage V D}
    (before : (s.tls t).capacity ≠ 0) (after : x.capacity ≠ 0) : (s.setTls t x).Registered := by
  obtain ⟨l, spells, few, members⟩ := registered
  refine ⟨l, spells, few, fun u => ?_⟩
  by_cases same : u = t
  · simp [same, State.setTls, after, (members t).2 before]
  · simp [same, State.setTls, members u]

theorem destroyEach_capacity (i : Nat) (ts : List T) (u : T) :
    ((s.destroyEach i ts).tls u).capacity = (s.tls u).capacity := by
  induction ts generalizing s with
  | nil => rfl
  | cons t rest ih =>
      refine (ih (s := s.destroyAt i t)).trans ?_
      simp only [destroyAt]
      split
      · rfl
      · split
        · rfl
        · by_cases same : u = t <;> simp [State.setTls, same, ThreadLocalStorage.capacity_destroyAt]

theorem Registered.destroyEach (registered : s.Registered) (i : Nat) (ts : List T) :
    (s.destroyEach i ts).Registered := by
  obtain ⟨l, spells, few, members⟩ := registered
  obtain ⟨ring, added⟩ := destroyEach_ring (s := s) i ts
  exact ⟨l, ring ▸ spells, added ▸ few, fun u => by rw [members u, destroyEach_capacity]⟩

theorem Registered.exit (registered : s.Registered) (t : T) :
    (s.threadExitCleanup t).Registered ∧ ((s.threadExitCleanup t).tls t).capacity = 0 := by
  obtain ⟨l, spells, few, members⟩ := registered
  by_cases unused : (s.tls t).capacity = 0
  · simp only [threadExitCleanup, unused, if_true]
    exact ⟨⟨l, spells, few, members⟩, trivial⟩
  · have member := (members t).2 unused
    simp only [threadExitCleanup, unused, if_false]
    refine ⟨⟨l.erase t, Theory.Ring.spells_remove spells member, ?_, fun u => ?_⟩, ?_⟩
    · exact (List.length_erase_le ..).trans few
    · rw [spells.nodup.mem_erase_iff, members u]
      by_cases same : u = t <;>
        simp [same, State.setTls, ThreadLocalStorage.destroyAll, ThreadLocalStorage.capacity]
    · simp [State.setTls, ThreadLocalStorage.destroyAll, ThreadLocalStorage.capacity]

/-- The loop of `destroy` meets every thread with an array. -/
theorem Registered.walk (registered : s.Registered) :
    ∃ ts, s.ring.walk s.added (s.ring.next none) = some ts ∧
      ∀ t, t ∈ ts ↔ (s.tls t).capacity ≠ 0 := by
  obtain ⟨l, spells, few, members⟩ := registered
  exact ⟨l, Theory.Ring.walk_spells spells few, members⟩

theorem destroyAt_value {i j : Nat} (hi : 1 ≤ i) (hj : 1 ≤ j) (t u : T) :
    ((s.destroyAt i t).tls u).value j =
      if j = i ∧ u = t then none else (s.tls u).value j := by
  have notZero : i ≠ 0 := by omega
  simp only [destroyAt, notZero, if_false]
  by_cases same : u = t
  · subst same
    split
    · rename_i short
      by_cases here : j = i
      · subst here
        have : (s.tls u).elements[j - 1]? = none :=
          List.getElem?_eq_none (by simp only [ThreadLocalStorage.capacity] at short; omega)
        simp [ThreadLocalStorage.value, this]
      · simp [here]
    · simp [setTls, ThreadLocalStorage.value_destroyAt hi hj]
  · split <;> simp [setTls, same]

theorem destroyEach_value {i j : Nat} (hi : 1 ≤ i) (hj : 1 ≤ j) (ts : List T) (u : T) :
    ((s.destroyEach i ts).tls u).value j =
      if j = i ∧ u ∈ ts then none else (s.tls u).value j := by
  induction ts generalizing s with
  | nil => simp [destroyEach]
  | cons t rest ih =>
      have unfold_ : s.destroyEach i (t :: rest) = (s.destroyAt i t).destroyEach i rest := rfl
      rw [unfold_, ih, destroyAt_value hi hj]
      by_cases here : j = i <;> by_cases same : u = t <;> by_cases inRest : u ∈ rest <;>
        simp [here, same, inRest]

/-! ## The specification -/

/-- What a history leaves for every thread and pointer object: a construction makes the object
null for every thread, and a `reset` sets the entry of one thread. -/
def remember (m : T → P → Option V) : Action T P V D → T → P → Option V
  | .construct p => fun t q => if q = p then none else m t q
  | .reset t p ptr _ => fun u q => if u = t ∧ q = p then ptr else m u q
  | _ => m

/-- The argument of the last `reset` by the thread on the object since it was constructed. -/
def latest (as : List (Action T P V D)) : T → P → Option V :=
  as.foldl remember fun _ _ => none

/-- No moves, and never `2 ^ 32` pointer objects alive. -/
def Plain (s : State T P V D) : Action T P V D → Prop
  | .construct _ => s.live.length + 1 < 2 ^ 32
  | .move _ _ => False
  | _ => True

instance decidablePlain (s : State T P V D) : (a : Action T P V D) → Decidable (s.Plain a)
  | .construct _ => inferInstanceAs (Decidable (_ < _))
  | .move _ _ => isFalse fun never => never
  | .destruct _ | .get _ _ | .reset _ _ _ _ | .exit _ => isTrue trivial

structure Holds (s : State T P V D) (m : T → P → Option V) : Prop where
  allocated : s.Allocated
  unmoved : ∀ p ∈ s.live, s.moved p = false
  registered : s.Registered
  gone : ∀ t, s.exited t = true → (s.tls t).capacity = 0
  free : ∀ t i, 1 ≤ i → i ∈ s.freeList ∨ s.nextId < i → (s.tls t).value i = none
  agrees : ∀ t p, s.exited t = false → p ∈ s.live → (s.tls t).value (s.id p) = m t p

variable {m : T → P → Option V}

theorem holds_init : (init : State T P V D).Holds fun _ _ => none where
  allocated := allocated_init
  unmoved := by simp [init]
  registered := ⟨[], Theory.Ring.spells_empty, Nat.zero_le _, by
    simp [init, ThreadLocalStorage.capacity]⟩
  gone := by simp [init]
  free := by simp [init, ThreadLocalStorage.value]
  agrees := by simp [init]

namespace Holds

theorem holders_eq (holds : s.Holds m) : s.holders = s.live :=
  List.filter_eq_self.2 fun p alive => by simp [holds.unmoved p alive]

theorem regular (holds : s.Holds m) (plain : s.Plain a) (taken : s.next a = some s') :
    s.Regular a := by
  cases a with
  | construct p =>
      have room : s.live.length + 1 < 2 ^ 32 := plain
      rwa [Regular, holds.holders_eq]
  | move o p => exact plain.elim
  | destruct p =>
      simp only [State.next] at taken
      split at taken
      · exact holds.unmoved p ‹_›
      · cases taken
  | _ => trivial

theorem id_valid (holds : s.Holds m) (alive : p ∈ s.live) :
    1 ≤ s.id p ∧ s.id p ≤ s.nextId ∧ s.id p ∉ s.freeList := by
  have valid := holds.allocated.validIds
  have member := mem_holders.2 ⟨alive, holds.unmoved p alive⟩
  have range := holds.allocated.range (List.mem_append_left _ (List.mem_map_of_mem member))
  exact ⟨range.1, range.2, valid.2.2.2.1 p alive⟩

theorem id_inj (holds : s.Holds m) (alive : p ∈ s.live) (alive' : q ∈ s.live)
    (same : s.id p = s.id q) : p = q :=
  holds.allocated.validIds.2.1 p alive (holds.unmoved p alive) q alive' (holds.unmoved q alive') same

/-- The id of a new object is null for every thread. -/
theorem create_null (holds : s.Holds m) (room : s.live.length + 1 < 2 ^ 32) (t : T) :
    1 ≤ s.create.1 ∧ (s.tls t).value s.create.1 = none := by
  rcases create_cases s with ⟨rest, i, split, created⟩ | ⟨none_, created⟩
  · have member : i ∈ s.freeList := by simp [split]
    have range := holds.allocated.range (List.mem_append_right _ member)
    rw [created]
    exact ⟨range.1, holds.free t i range.1 (.inl member)⟩
  · have all := holds.allocated.count
    rw [none_, holds.holders_eq, List.length_nil, Nat.add_zero] at all
    have noWrap : (s.nextId + 1) % 2 ^ 32 = s.nextId + 1 := Nat.mod_eq_of_lt (by omega)
    rw [created, noWrap]
    exact ⟨Nat.le_add_left .., holds.free t _ (Nat.le_add_left ..) (.inr (Nat.lt_succ_self _))⟩

theorem construct (holds : s.Holds m) (isNew : p ∉ s.live) (room : s.live.length + 1 < 2 ^ 32) :
    (s.create.2.object p s.create.1).Holds (remember m (.construct p : Action T P V D)) := by
  have null := holds.create_null room
  have allocated := holds.allocated.construct isNew (holds.holders_eq ▸ room)
  have parts : s.create.2.tls = s.tls ∧ s.create.2.ring = s.ring ∧ s.create.2.added = s.added ∧
      s.create.2.exited = s.exited ∧ s.create.2.live = s.live ∧ s.create.2.moved = s.moved ∧
      s.create.2.id = s.id := by
    rcases create_cases s with ⟨rest, i, -, created⟩ | ⟨-, created⟩ <;> rw [created] <;> simp
  obtain ⟨tls, ring, added, exited, live, moved, id⟩ := parts
  refine ⟨allocated, ?_, ?_, ?_, ?_, ?_⟩
  · intro q alive
    by_cases same : q = p
    · simp [object, same]
    · simp only [object, live, moved, same, if_false] at alive ⊢
      exact holds.unmoved q (by simpa [same] using alive)
  · simpa only [Registered, object, tls, ring, added] using holds.registered
  · simpa only [object, tls, exited] using holds.gone
  · intro t i hi unheld
    simp only [object, tls]
    rcases create_cases s with ⟨rest, j, split, created⟩ | ⟨none_, created⟩
    · rw [created] at unheld
      refine holds.free t i hi (unheld.imp_left fun member => ?_)
      rw [split]
      exact List.mem_append_left _ member
    · have all := holds.allocated.count
      rw [none_, holds.holders_eq, List.length_nil, Nat.add_zero] at all
      have noWrap : (s.nextId + 1) % 2 ^ 32 = s.nextId + 1 := Nat.mod_eq_of_lt (by omega)
      rw [created, noWrap] at unheld
      simp only [object, none_] at unheld
      refine holds.free t i hi (.inr ?_)
      have := unheld.resolve_left (by simp)
      omega
  · intro t q running alive
    simp only [object, tls, exited, live, id, remember] at running alive ⊢
    by_cases same : q = p
    · simp [same, (null t).2]
    · simp only [same, if_false]
      exact holds.agrees t q running (by simpa [same] using alive)

theorem destruct (holds : s.Holds m) (alive : p ∈ s.live) :
    ∃ s', s.destroy (s.id p) = some s' ∧ { s' with live := s'.live.erase p }.Holds m := by
  obtain ⟨ts, walked, members⟩ := holds.registered.walk
  obtain ⟨positive, below, -⟩ := holds.id_valid alive
  have destroyed : s.destroy (s.id p) =
      some { s.destroyEach (s.id p) ts with freeList := s.freeList ++ [s.id p] } := by
    simp only [destroy, walked, (destroyEach_same (s.id p) ts).freeList]
  have allocated := holds.allocated.destruct alive (holds.unmoved p alive) destroyed
  have same := destroyEach_same (s := s) (s.id p) ts
  -- a thread the loop does not meet has no array
  have cleared : ∀ t j, 1 ≤ j → ((s.destroyEach (s.id p) ts).tls t).value j =
      if j = s.id p then none else (s.tls t).value j := by
    intro t j hj
    rw [destroyEach_value positive hj]
    by_cases met : t ∈ ts
    · simp [met]
    · have none_ : (s.tls t).capacity = 0 := by
        by_contra some_
        exact met ((members t).2 some_)
      simp [met, ThreadLocalStorage.value_of_capacity none_]
  refine ⟨_, destroyed, allocated, ?_, ?_, ?_, ?_, ?_⟩
  · intro q inRest
    simp only [same.live, same.moved] at inRest ⊢
    exact holds.unmoved q (List.mem_of_mem_erase inRest)
  · exact holds.registered.destroyEach (s.id p) ts
  · intro t exited
    simp only [same.exited] at exited
    exact (destroyEach_capacity (s.id p) ts t).trans (holds.gone t exited)
  · intro t i hi unheld
    simp only [same.nextId] at unheld
    rw [cleared t i hi]
    split
    · rfl
    · rename_i other
      refine holds.free t i hi (unheld.imp_left fun member => ?_)
      rcases List.mem_append.1 member with member | isId
      · exact member
      · exact absurd (List.mem_singleton.1 isId) other
  · intro t q running inRest
    simp only [same.exited, same.live, same.id] at running inRest ⊢
    rw [holds.allocated.live.mem_erase_iff] at inRest
    rw [cleared t _ (holds.id_valid inRest.2).1,
      if_neg fun same => inRest.1 (holds.id_inj inRest.2 alive same)]
    exact holds.agrees t q running inRest.2

/-- Only the arrays and the ring change. -/
theorem of_tls (holds : s.Holds m) (same : s.SameObjects s') (outside : s'.outside = s.outside)
    (registered : s'.Registered) (gone : ∀ u, s.exited u = true → (s'.tls u).capacity = 0)
    (free : ∀ u i, 1 ≤ i → i ∈ s.freeList ∨ s.nextId < i → (s'.tls u).value i = none)
    {m' : T → P → Option V}
    (agrees : ∀ u q, s.exited u = false → q ∈ s.live → (s'.tls u).value (s.id q) = m' u q) :
    s'.Holds m' where
  allocated :=
    holds.allocated.of_ids same.freeList same.nextId same.id same.live same.moved outside
  unmoved := by simpa only [same.live, same.moved] using holds.unmoved
  registered := registered
  gone := by simpa only [same.exited] using gone
  free := by simpa only [same.freeList, same.nextId] using free
  agrees := by simpa only [same.exited, same.live, same.id] using agrees

theorem handle (holds : s.Holds m) (running : s.exited t = false) : (s.handle t).Holds m := by
  obtain ⟨same, outside⟩ := handle_same (s := s) t
  refine holds.of_tls same outside (holds.registered.handle t).1 ?_ ?_ ?_
  · intro u exited
    have other : u ≠ t := fun same => by simp [same, running] at exited
    have kept : (s.handle t).tls u = s.tls u := by
      by_cases first : (s.tls t).capacity = 0 <;>
        simp [State.handle, first, other, setTls, apply_ite State.tls]
    rw [kept]
    exact holds.gone u exited
  · intro u i hi unheld
    rw [handle_value]
    exact holds.free u i hi unheld
  · intro u q isRunning alive
    rw [handle_value]
    exact holds.agrees u q isRunning alive

/-- A running thread writes to its own array. -/
theorem setTls (holds : s.Holds m) {x : ThreadLocalStorage V D} (running : s.exited t = false)
    (before : (s.tls t).capacity ≠ 0) (after : x.capacity ≠ 0)
    (free : ∀ i, 1 ≤ i → i ∈ s.freeList ∨ s.nextId < i → x.value i = none)
    {m' : T → P → Option V} (others : ∀ u q, u ≠ t → m' u q = m u q)
    (mine : ∀ q ∈ s.live, x.value (s.id q) = m' t q) : (s.setTls t x).Holds m' := by
  have same : s.SameObjects (s.setTls t x) := ⟨rfl, rfl, rfl, rfl, rfl, rfl⟩
  refine holds.of_tls same rfl (holds.registered.setTls before after) ?_ ?_ ?_
  · intro u exited
    have other : u ≠ t := fun same => by simp [same, running] at exited
    simpa [State.setTls, other] using holds.gone u exited
  · intro u i hi unheld
    by_cases isMe : u = t
    · simpa [State.setTls, isMe] using free i hi unheld
    · simpa [State.setTls, isMe] using holds.free u i hi unheld
  · intro u q isRunning alive
    by_cases isMe : u = t
    · simpa [State.setTls, isMe] using mine q alive
    · simpa [State.setTls, isMe, others u q isMe] using holds.agrees u q isRunning alive

theorem get (holds : s.Holds m) (running : s.exited t = false) (i : Nat) :
    ((s.handle t).setTls t (((s.handle t).tls t).get i).1).Holds m := by
  have entered := holds.handle running
  obtain ⟨same, -⟩ := handle_same (s := s) t
  have some_ := (holds.registered.handle t).2
  refine entered.setTls (same.exited ▸ running) some_
    (ThreadLocalStorage.capacity_grow_ne i some_) ?_ (fun _ _ _ => rfl) ?_
  · intro j hj unheld
    exact (ThreadLocalStorage.value_grow i).trans (entered.free t j hj unheld)
  · intro q alive
    exact (ThreadLocalStorage.value_grow i).trans
      (entered.agrees t q (same.exited ▸ running) alive)

theorem reset (holds : s.Holds m) (running : s.exited t = false) (alive : p ∈ s.live)
    (ptr : Option V) (deleter : Option D) :
    ((s.handle t).setTls t (((s.handle t).tls t).set (s.id p) ptr deleter)).Holds
      (remember m (.reset t p ptr deleter)) := by
  have entered := holds.handle running
  obtain ⟨same, -⟩ := handle_same (s := s) t
  have some_ := (holds.registered.handle t).2
  obtain ⟨positive, below, notFree⟩ := holds.id_valid alive
  refine entered.setTls (same.exited ▸ running) some_ ?_ ?_ ?_ ?_
  · rw [ThreadLocalStorage.capacity_set]
    exact ThreadLocalStorage.capacity_grow_ne _ some_
  · intro i hi unheld
    have other : i ≠ s.id p := by
      rintro rfl
      rw [same.freeList, same.nextId] at unheld
      rcases unheld with free | beyond
      · exact notFree free
      · omega
    rw [ThreadLocalStorage.value_set ptr deleter positive hi, if_neg other]
    exact entered.free t i hi unheld
  · intro u q other
    simp [remember, other]
  · intro q alive'
    rw [same.id, ThreadLocalStorage.value_set ptr deleter positive
      (holds.id_valid (same.live ▸ alive')).1]
    by_cases here : q = p
    · simp [here, remember]
    · have apart : s.id q ≠ s.id p := fun same' => here (holds.id_inj (same.live ▸ alive') alive same')
      have value := entered.agrees t q (same.exited ▸ running) alive'
      rw [same.id] at value
      simp [apart, here, remember, value]

theorem exit (holds : s.Holds m) (t : T) :
    { s.threadExitCleanup t with exited := fun u => if u = t then true else s.exited u }.Holds m := by
  obtain ⟨same, outside⟩ := threadExitCleanup_same (s := s) t
  obtain ⟨registered, emptied⟩ := holds.registered.exit t
  have others : ∀ u, u ≠ t → (s.threadExitCleanup t).tls u = s.tls u := by
    intro u other
    simp only [threadExitCleanup]
    split
    · rfl
    · simp [State.setTls, other]
  refine ⟨holds.allocated.of_ids same.freeList same.nextId same.id same.live same.moved outside,
    by simpa only [same.live, same.moved] using holds.unmoved, registered, ?_, ?_, ?_⟩
  · intro u exited
    by_cases isMe : u = t
    · exact isMe ▸ emptied
    · simp only [others u isMe]
      exact holds.gone u (by simpa [isMe] using exited)
  · intro u i hi unheld
    simp only [same.freeList, same.nextId] at unheld
    by_cases isMe : u = t
    · subst isMe
      exact ThreadLocalStorage.value_of_capacity emptied
    · simp only [others u isMe]
      exact holds.free u i hi unheld
  · intro u q running alive
    have isOther : u ≠ t := fun isMe => by simp [isMe] at running
    simp only [same.live, same.id, others u isOther] at alive ⊢
    exact holds.agrees u q (by simpa [isOther] using running) alive

theorem next (holds : s.Holds m) (plain : s.Plain a) (taken : s.next a = some s') :
    s'.Holds (remember m a) := by
  cases a with
  | construct p =>
      simp only [State.next] at taken
      split at taken
      · cases taken
      · cases taken
        exact holds.construct ‹_› plain
  | move o p => exact plain.elim
  | destruct p =>
      simp only [State.next] at taken
      split at taken
      · rename_i alive
        obtain ⟨mid, destroyed, kept⟩ := holds.destruct alive
        rw [destroyed] at taken
        cases taken
        exact kept
      · cases taken
  | get t p =>
      simp only [State.next] at taken
      split at taken
      · rename_i enabled
        cases taken
        have kept := holds.get enabled.2.1 ((s.handle t).id p)
        exact ⟨⟨kept.allocated.live, kept.allocated.ids, kept.allocated.small,
          kept.allocated.blank, kept.allocated.inside⟩, kept.unmoved, kept.registered, kept.gone,
          kept.free, kept.agrees⟩
      · cases taken
  | reset t p ptr deleter =>
      simp only [State.next] at taken
      split at taken
      · rename_i enabled
        cases taken
        rw [(handle_same t).1.id]
        exact holds.reset enabled.2.1 enabled.1 ptr deleter
      · cases taken
  | exit t =>
      simp only [State.next] at taken
      split at taken
      · cases taken
        rw [(threadExitCleanup_same t).1.exited]
        exact holds.exit t
      · cases taken

end Holds

theorem holds_run {as : List (Action T P V D)}
    (plain : Theory.Along State.next Plain (init : State T P V D) as)
    (ran : Theory.run State.next init as = some s) : s.Holds (latest as) :=
  Theory.run_follows (fun _ _ _ _ before met taken => before.next met taken) holds_init plain ran

/-- What `get` returns and leaves. -/
theorem get_value (alive : p ∈ s.live) (running : s.exited t = false) (valid : s.id p ≠ 0) :
    ∃ s', s.next (.get t p) = some s' ∧ s'.result t = (s.tls t).value (s.id p) ∧
      ∀ u i, (s'.tls u).value i = (s.tls u).value i := by
  obtain ⟨same, -⟩ := handle_same (s := s) t
  refine ⟨_, by simp only [State.next]; rw [if_pos ⟨alive, running, valid⟩], ?_, ?_⟩
  · simp only [if_true, ThreadLocalStorage.get, ThreadLocalStorage.value_grow, handle_value, same.id]
  · intro u i
    by_cases isMe : u = t
    · simp [isMe, State.setTls, ThreadLocalStorage.get, ThreadLocalStorage.value_grow, handle_value]
    · simp [isMe, State.setTls, handle_value]

theorem Holds.get_returns (holds : s.Holds m) (alive : p ∈ s.live) (running : s.exited t = false) :
    ∃ s', s.next (.get t p) = some s' ∧ s'.result t = m t p ∧
      ∀ u i, (s'.tls u).value i = (s.tls u).value i := by
  have valid : s.id p ≠ 0 := by
    have := (holds.id_valid alive).1
    omega
  obtain ⟨s', taken, value, kept⟩ := get_value alive running valid
  exact ⟨s', taken, value.trans (holds.agrees t p running alive), kept⟩

/-- **Thread-local storage is a map from threads and pointer objects to values.** After every
history without moves in which fewer than `2 ^ 32` pointer objects are alive at any time, `get`
by a running thread on a live object returns the argument of that thread's last `reset` on it
since its construction, or null; it changes no stored value of any thread, whether or not it
grows the array; a new object, whatever id it is given, is null for every thread; and every
pointer object can be destroyed. -/
theorem get_latest {as : List (Action T P V D)}
    (plain : Theory.Along State.next Plain (init : State T P V D) as)
    (ran : Theory.run State.next init as = some s) :
    (∀ t p, p ∈ s.live → s.exited t = false →
      ∃ s', s.next (.get t p) = some s' ∧ s'.result t = latest as t p ∧
        ∀ u i, (s'.tls u).value i = (s.tls u).value i) ∧
    (∀ p s', s.Plain (.construct p) → s.next (.construct p) = some s' →
      ∀ t, s.exited t = false →
        ∃ s'', s'.next (.get t p) = some s'' ∧ s''.result t = none) ∧
    ∀ p, p ∈ s.live → ∃ s', s.next (.destruct p) = some s' := by
  have holds := holds_run plain ran
  refine ⟨fun t p alive running => holds.get_returns alive running, ?_, ?_⟩
  · intro p s' room taken t running
    have holds' := holds.next room taken
    simp only [State.next] at taken
    split at taken
    · cases taken
    · cases taken
      have alive : p ∈ (s.create.2.object p s.create.1).live := List.mem_cons_self ..
      have running' : (s.create.2.object p s.create.1).exited t = false := by
        rcases create_cases s with ⟨rest, i, -, created⟩ | ⟨-, created⟩ <;> rw [created] <;>
          exact running
      obtain ⟨s'', taken, value, -⟩ := holds'.get_returns alive running'
      exact ⟨s'', taken, by simp [value, remember]⟩
  · intro p alive
    obtain ⟨mid, destroyed, -⟩ := holds.destruct alive
    exact ⟨{ mid with live := mid.live.erase p }, by simp [State.next, alive, destroyed]⟩

/-- An id is reused, and two threads store values for objects of their own. -/
def reuse : List (Action (Fin 2) Nat Nat Nat) :=
  [.construct 0, .reset 0 0 (some 7) none, .destruct 0, .construct 1, .construct 2,
    .reset 1 2 (some 9) none]

theorem get_latest_reuse : ∃ s : State (Fin 2) Nat Nat Nat,
    Theory.run State.next State.init reuse = some s ∧ s.id 1 = 1 ∧
    (∃ s', s.next (.get 0 1) = some s' ∧ s'.result 0 = none) ∧
    ∃ s', s.next (.get 1 2) = some s' ∧ s'.result 1 = some 9 := by
  have ran : (Theory.run State.next State.init reuse).map
      (fun s : State (Fin 2) Nat Nat Nat => (s.id 1, s.live, s.exited 0, s.exited 1)) =
        some (1, [2, 1], false, false) := by decide +kernel
  obtain ⟨s, ran, seen⟩ := Option.map_eq_some_iff.1 ran
  simp only [Prod.mk.injEq] at seen
  obtain ⟨id, alive, running₀, running₁⟩ := seen
  have result := (get_latest (by decide +kernel) ran).1
  obtain ⟨s₁, taken₁, value₁, -⟩ := result 0 1 (by simp [alive]) running₀
  obtain ⟨s₂, taken₂, value₂, -⟩ := result 1 2 (by simp [alive]) running₁
  exact ⟨s, ran, id, ⟨s₁, taken₁, value₁.trans (by decide)⟩,
    ⟨s₂, taken₂, value₂.trans (by decide)⟩⟩

/-- Many constructions in a row, with nothing on the free list. -/
theorem construct_many {s : State T Nat V D} {k : Nat} (n : Nat) (free : s.freeList = [])
    (small : s.nextId < 2 ^ 32) (below : ∀ q ∈ s.live, q < k) :
    ∃ s', Theory.run State.next s ((List.range n).map fun i => .construct (k + i)) = some s' ∧
      s'.freeList = [] ∧ s'.nextId = (s.nextId + n) % 2 ^ 32 ∧ s'.tls = s.tls ∧
      s'.exited = s.exited ∧ ∀ q ∈ s'.live, q < k + n := by
  induction n with
  | zero => exact ⟨s, rfl, free, (Nat.mod_eq_of_lt small).symm, rfl, rfl, below⟩
  | succ n ih =>
      obtain ⟨mid, ran, free', counted, tls, exited, below'⟩ := ih
      have created : mid.create = ((mid.nextId + 1) % 2 ^ 32,
          { mid with nextId := (mid.nextId + 1) % 2 ^ 32 }) := by simp [create, free']
      have isNew : k + n ∉ mid.live := fun alive => absurd (below' _ alive) (by omega)
      refine ⟨mid.create.2.object (k + n) mid.create.1, ?_, ?_, ?_, ?_, ?_, ?_⟩
      · rw [List.range_succ, List.map_append]
        exact Theory.run_snoc ran (by simp [State.next, isNew])
      all_goals rw [created]
      · exact free'
      · simp only [object, counted]
        omega
      · exact tls
      · exact exited
      · intro q alive
        rcases List.mem_cons.1 alive with rfl | before
        · omega
        · have := below' q before
          omega

/-- One object with a value, and `n` constructions more. -/
def constructions (n : Nat) : List (Action (Fin 1) Nat Nat Nat) :=
  [Action.construct 0, .reset 0 0 (some 7) none] ++
    ((List.range (n - 1)).map fun i => Action.construct (1 + i)) ++ [Action.construct n]

theorem constructions_wrap {n : Nat} (wraps : n % 2 ^ 32 = 0) (positive : 0 < n) :
    ∃ s s' : State (Fin 1) Nat Nat Nat,
    (∀ o p, .move o p ∉ constructions n) ∧
    Theory.run State.next State.init (constructions n) = some s ∧
    n ∈ s.live ∧ s.exited 0 = false ∧ s.next (.get 0 n) = some s' ∧
    s'.result 0 = some 7 ∧ latest (constructions n) (0 : Fin 1) n = none := by
  have ran : (Theory.run State.next State.init
      [.construct 0, .reset 0 0 (some 7) none]).map
      (fun s : State (Fin 1) Nat Nat Nat =>
        (s.freeList, s.nextId, s.live, s.exited 0, (s.tls 0).value 1)) =
        some ([], 1, [0], false, some 7) := by decide +kernel
  obtain ⟨s₀, ran, seen⟩ := Option.map_eq_some_iff.1 ran
  simp only [Prod.mk.injEq] at seen
  obtain ⟨free, counted, alive, running, value⟩ := seen
  obtain ⟨s₁, ran₁, free₁, counted₁, tls₁, exited₁, below₁⟩ :=
    construct_many (k := 1) (n - 1) free (by omega) (by simp [alive])
  have isNew : n ∉ s₁.live := fun alive => absurd (below₁ _ alive) (by omega)
  have zero : s₁.nextId = 0 := by
    rw [counted₁, counted, Nat.add_sub_cancel' positive, wraps]
  have created : s₁.create = (1, { s₁ with nextId := 1 }) := by
    simp [create, free₁, zero]
  have taken : s₁.next (.construct n) = some (s₁.create.2.object n s₁.create.1) := by
    simp only [State.next]
    rw [if_neg isNew]
  have running' : (s₁.create.2.object n s₁.create.1).exited 0 = false := by
    rw [created]
    simpa [object, exited₁] using running
  obtain ⟨s', got, result, -⟩ := get_value (s := s₁.create.2.object n s₁.create.1)
    (p := n) (List.mem_cons_self ..) running' (by simp [object, created])
  refine ⟨_, s', ?_, ?_, List.mem_cons_self .., running', got, ?_, ?_⟩
  · intro o p member
    simp [constructions] at member
  · exact Theory.run_snoc (Theory.run_append_eq_some.2 ⟨s₀, ran, ran₁⟩) taken
  · rw [result, created]
    simpa [object, tls₁] using value
  · simp [constructions, latest, List.foldl_append, remember]

/-- The `2 ^ 32`th construction after the first is given the id of the first again. -/
theorem get_wraps : ∃ s s' : State (Fin 1) Nat Nat Nat,
    (∀ o p, .move o p ∉ constructions (2 ^ 32)) ∧
    Theory.run State.next State.init (constructions (2 ^ 32)) = some s ∧
    2 ^ 32 ∈ s.live ∧ s.exited 0 = false ∧ s.next (.get 0 (2 ^ 32)) = some s' ∧
    s'.result 0 = some 7 ∧ latest (constructions (2 ^ 32)) (0 : Fin 1) (2 ^ 32) = none :=
  constructions_wrap (Nat.mod_self _) (Nat.two_pow_pos _)

end State

end Ccmetrics.ThreadLocal
