/-
# ThreadLocal.Released -- when the deleter of a stored pointer is called

A stored pointer is followed from its `reset` on. While it is `Held` it is in the element of its
thread for its object and nowhere else. Three actions end this (`Action.ends`): the destruction of
the object and the exit of the thread call its deleter, and a second `reset` by the thread on the
object overwrites the element, after which nobody knows the pointer any more (`Held.step`).

* `released_once_iff`: every pointer is released exactly once, at its end, if and only if no
  pointer is replaced.
-/
import Ccmetrics.ThreadLocal.Locality

namespace Ccmetrics.ThreadLocal

set_option autoImplicit false
set_option linter.unusedSectionVars false

variable {T P V D : Type} [DecidableEq T] [DecidableEq P] [DecidableEq V]

/-- The deleter that `set` stores. -/
def Deleter.of (deleter : Option D) : Option (Deleter D) :=
  some ((deleter.map .given).getD .deletePtr)

/-- The calls of deleters for one pointer. -/
def Released.for (l : Released V D) (v : V) : Released V D := l.filter fun e => decide (e.2 = v)

theorem Released.for_append (l l' : Released V D) (v : V) :
    Released.for (l ++ l') v = Released.for l v ++ Released.for l' v := List.filter_append ..

theorem Released.for_eq_nil {l : Released V D} {v : V} :
    Released.for l v = [] ↔ ∀ d, (d, v) ∉ l := by
  unfold Released.for
  rw [List.filter_eq_nil_iff]
  constructor
  · intro none_ d member
    exact none_ (d, v) member (decide_eq_true rfl)
  · rintro none_ ⟨d, w⟩ member same
    cases of_decide_eq_true same
    exact none_ d member

/-- One of several lists has the pointer, and the others do not. -/
theorem Released.for_flatten {ls : List (Released V D)} {i : Nat} {l : Released V D} {v : V}
    (at_ : ls[i]? = some l) (others : ∀ j l', ls[j]? = some l' → j ≠ i → Released.for l' v = []) :
    Released.for ls.flatten v = Released.for l v := by
  induction ls generalizing i with
  | nil => cases at_
  | cons a rest ih =>
      rw [List.flatten_cons, Released.for_append]
      cases i with
      | zero =>
          cases at_
          have none_ : Released.for rest.flatten v = [] := by
            rw [Released.for_eq_nil]
            intro d member
            obtain ⟨l', inRest, member⟩ := List.mem_flatten.1 member
            obtain ⟨j, here⟩ := List.mem_iff_getElem?.1 inRest
            exact Released.for_eq_nil.1 (others (j + 1) l' here (Nat.succ_ne_zero j)) d member
          rw [none_, List.append_nil]
      | succ i =>
          rw [others 0 a rfl (Nat.zero_ne_add_one i), List.nil_append]
          exact ih at_ fun j l' here ne =>
            others (j + 1) l' here fun same => ne (Nat.succ_injective same)

/-! ## One array -/

namespace ThreadLocalStorage

variable {x : ThreadLocalStorage V D} {i j : Nat}

/-- What destroying the element at `elements_[idx - 1]` releases. -/
def content (x : ThreadLocalStorage V D) (idx : Nat) : Released V D :=
  match x.elements[idx - 1]? with
  | some e => e.destroy.2
  | none => []

theorem content_of_capacity (none_ : x.capacity = 0) : x.content i = [] := by
  have empty : x.elements = [] := List.length_eq_zero_iff.1 none_
  simp [content, empty]

theorem content_grow (idx : Nat) : (x.grow idx).content i = x.content i := by
  unfold grow
  split
  · simp only [content, resize]
    by_cases inside : i - 1 < x.elements.length
    · rw [List.getElem?_append_left inside]
    · rw [List.getElem?_append_right (by omega), List.getElem?_eq_none (l := x.elements) (by omega),
        List.getElem?_replicate]
      by_cases new : i - 1 - x.elements.length < newSize idx - x.capacity
      · rw [if_pos new]
        rfl
      · rw [if_neg new]
  · rfl

theorem content_set (ptr : Option V) (deleter : Option D) (hi : 1 ≤ i) (hj : 1 ≤ j) :
    (x.set i ptr deleter).content j =
      if j = i then (ptr.map fun v => (Deleter.of deleter, v)).toList else x.content j := by
  have room := le_capacity_grow (x := x) i
  rw [← content_grow (x := x) (i := j) i]
  simp only [set, content, List.getElem?_set]
  by_cases same : j = i
  · subst same
    have inside : j - 1 < (x.grow j).elements.length := by
      unfold capacity at room
      omega
    cases ptr <;> simp [inside, Element.destroy, Deleter.of]
  · have apart : i - 1 ≠ j - 1 := by omega
    simp only [same, apart, if_false]

theorem destroyAt_released : (x.destroyAt i).2 = x.content i := by
  unfold destroyAt content
  cases x.elements[i - 1]? <;> rfl

theorem content_destroyAt (hi : 1 ≤ i) (hj : 1 ≤ j) :
    (x.destroyAt i).1.content j = if j = i then [] else x.content j := by
  simp only [destroyAt, content]
  cases present : x.elements[i - 1]? with
  | none =>
      by_cases same : j = i
      · simp [same, present]
      · simp [same]
  | some e =>
      by_cases same : j = i
      · subst same
        have cleared : e.destroy.1.destroy.2 = [] := by
          cases ptr : e.ptr <;> simp [Element.destroy, ptr, Element.zero]
        have inside := (List.getElem?_eq_some_iff.1 present).1
        simp [inside, cleared]
      · have apart : i - 1 ≠ j - 1 := by omega
        simp [same, apart]

/-- What `destroyAll` releases, index by index. -/
theorem destroyAll_released {l : Released V D} (here : (x.elements.map (·.destroy.2))[i]? = some l) :
    x.content (i + 1) = l := by
  rw [List.getElem?_map] at here
  obtain ⟨e, present, rfl⟩ := Option.map_eq_some_iff.1 here
  simp only [content, Nat.add_sub_cancel, present]

/-- What is in no element is not released by `destroyAll`. -/
theorem destroyAll_for {v : V} (none_ : ∀ j d, (d, v) ∉ x.content (j + 1)) :
    Released.for (x.elements.map (·.destroy.2)).flatten v = [] := by
  refine Released.for_eq_nil.2 fun d member => ?_
  obtain ⟨l, inMap, member⟩ := List.mem_flatten.1 member
  obtain ⟨j, atJ⟩ := List.mem_iff_getElem?.1 inMap
  rw [← destroyAll_released atJ] at member
  exact none_ j d member

theorem content_getElem {e : Option (Deleter D) × V} (member : e ∈ x.content i) :
    (x.elements.map (·.destroy.2))[i - 1]? = some (x.content i) := by
  unfold content at member ⊢
  rw [List.getElem?_map]
  cases present : x.elements[i - 1]? with
  | none => rw [present] at member; cases member
  | some e => rfl

end ThreadLocalStorage

namespace State

variable {s s' : State T P V D} {t u : T} {p q : P} {a : Action T P V D} {v : V}
variable {m : T → P → Option V}

/-! ## What a step does to the contents of the arrays -/

theorem destroyAt_content {i j : Nat} (hi : 1 ≤ i) (hj : 1 ≤ j) (t u : T) :
    ((s.destroyAt i t).tls u).content j =
      if j = i ∧ u = t then [] else (s.tls u).content j := by
  have notZero : i ≠ 0 := by omega
  simp only [destroyAt, notZero, if_false]
  by_cases same : u = t
  · subst same
    split
    · rename_i short
      by_cases here : j = i
      · subst here
        have none_ : (s.tls u).elements[j - 1]? = none := by
          refine List.getElem?_eq_none ?_
          unfold ThreadLocalStorage.capacity at short
          omega
        simp [ThreadLocalStorage.content, none_]
      · simp [here]
    · simp [setTls, ThreadLocalStorage.content_destroyAt hi hj]
  · split <;> simp [setTls, same]

theorem destroyAt_released {i : Nat} (hi : 1 ≤ i) (t : T) :
    (s.destroyAt i t).released = s.released ++ (s.tls t).content i := by
  have notZero : i ≠ 0 := by omega
  simp only [destroyAt, notZero, if_false]
  split
  · rename_i short
    have none_ : (s.tls t).elements[i - 1]? = none := by
      refine List.getElem?_eq_none ?_
      unfold ThreadLocalStorage.capacity at short
      omega
    simp [ThreadLocalStorage.content, none_]
  · rw [ThreadLocalStorage.destroyAt_released]

theorem destroyEach_content {i j : Nat} (hi : 1 ≤ i) (hj : 1 ≤ j) (ts : List T) (u : T) :
    ((s.destroyEach i ts).tls u).content j =
      if j = i ∧ u ∈ ts then [] else (s.tls u).content j := by
  induction ts generalizing s with
  | nil => simp [destroyEach]
  | cons t rest ih =>
      show (((s.destroyAt i t).destroyEach i rest).tls u).content j = _
      rw [ih, destroyAt_content hi hj]
      by_cases here : j = i <;> by_cases same : u = t <;> by_cases inRest : u ∈ rest <;>
        simp [here, same, inRest]

theorem destroyEach_released {i : Nat} (hi : 1 ≤ i) {ts : List T} (nodup : ts.Nodup) :
    (s.destroyEach i ts).released =
      s.released ++ (ts.map fun u => (s.tls u).content i).flatten := by
  induction ts generalizing s with
  | nil => simp [destroyEach]
  | cons t rest ih =>
      obtain ⟨outside, nodup⟩ := List.nodup_cons.1 nodup
      show ((s.destroyAt i t).destroyEach i rest).released = _
      have same : (rest.map fun u => ((s.destroyAt i t).tls u).content i) =
          rest.map fun u => (s.tls u).content i := by
        refine List.map_congr_left fun u inRest => ?_
        have other : u ≠ t := fun same => outside (same ▸ inRest)
        rw [destroyAt_content hi hi, if_neg fun both => other both.2]
      rw [ih nodup, same, destroyAt_released hi, List.append_assoc, List.map_cons, List.flatten_cons]

theorem handle_content (t u : T) (i : Nat) :
    ((s.handle t).tls u).content i = (s.tls u).content i := by
  have entered : ((s.handle t).tls u) =
      if (s.tls t).capacity = 0 ∧ u = t then ((s.tls t).grow 1) else s.tls u := by
    by_cases first : (s.tls t).capacity = 0 <;> by_cases same : u = t <;>
      simp [handle, first, same, setTls, ThreadLocalStorage.get, apply_ite State.tls]
  rw [entered]
  split
  · rename_i here
    rw [ThreadLocalStorage.content_grow, here.2]
  · rfl

theorem handle_released (t : T) : (s.handle t).released = s.released := by
  simp only [handle]
  split <;> split <;> rfl

/-- What one step of a history leaves in the arrays, and what it releases. -/
def Contents (s s' : State T P V D) : Action T P V D → Prop
  | .destruct p => p ∈ s.live ∧
      (∀ u i, 1 ≤ i → (s'.tls u).content i = if i = s.id p then [] else (s.tls u).content i) ∧
      ∃ ts : List T, ts.Nodup ∧ (∀ u, (s.tls u).capacity ≠ 0 → u ∈ ts) ∧
        s'.released = s.released ++ (ts.map fun u => (s.tls u).content (s.id p)).flatten
  | .exit t =>
      (∀ u i, (s'.tls u).content i = if u = t then [] else (s.tls u).content i) ∧
      s'.released = s.released ++ ((s.tls t).elements.map (·.destroy.2)).flatten
  | .reset t p ptr d => p ∈ s.live ∧ s.exited t = false ∧
      (∀ u i, 1 ≤ i → (s'.tls u).content i =
        if u = t ∧ i = s.id p then (ptr.map fun v => (Deleter.of d, v)).toList
        else (s.tls u).content i) ∧ s'.released = s.released
  | _ => (∀ u i, (s'.tls u).content i = (s.tls u).content i) ∧ s'.released = s.released

theorem Holds.contents (holds : s.Holds m) (plain : s.Plain a) (taken : s.next a = some s') :
    s.Contents s' a := by
  cases a with
  | move o p => exact plain.elim
  | construct p =>
      simp only [State.next] at taken
      split at taken
      · cases taken
      · cases taken
        show (∀ u i, (s.create.2.tls u).content i = (s.tls u).content i) ∧
          s.create.2.released = s.released
        rcases create_cases s with ⟨rest, i, -, created⟩ | ⟨-, created⟩ <;> rw [created] <;>
          exact ⟨fun _ _ => rfl, rfl⟩
  | destruct p =>
      simp only [State.next] at taken
      split at taken
      · rename_i alive
        obtain ⟨mid, destroyed, rfl⟩ := Option.map_eq_some_iff.1 taken
        obtain ⟨l, spells, few, members⟩ := holds.registered
        have walked := Theory.Ring.walk_spells spells few
        obtain ⟨ts, walked', rfl⟩ := destroy_eq destroyed
        cases walked.symm.trans walked'
        have positive := (holds.id_valid alive).1
        refine ⟨alive, fun u i hi => ?_, l, spells.nodup, fun u some_ => (members u).2 some_,
          destroyEach_released positive spells.nodup⟩
        show ((s.destroyEach (s.id p) l).tls u).content i = _
        rw [destroyEach_content positive hi]
        by_cases met : u ∈ l
        · simp [met]
        · have none_ : (s.tls u).capacity = 0 := by
            by_contra some_
            exact met ((members u).2 some_)
          simp [met, ThreadLocalStorage.content_of_capacity none_]
      · cases taken
  | get t p =>
      simp only [State.next] at taken
      split at taken
      · cases taken
        refine ⟨fun u i => ?_, handle_released t⟩
        by_cases isMe : u = t
        · subst isMe
          simp [State.setTls, ThreadLocalStorage.get, ThreadLocalStorage.content_grow, handle_content]
        · simp [State.setTls, isMe, handle_content]
      · cases taken
  | reset t p ptr d =>
      simp only [State.next] at taken
      split at taken
      · rename_i enabled
        cases taken
        have positive := (holds.id_valid enabled.1).1
        refine ⟨enabled.1, enabled.2.1, fun u i hi => ?_, handle_released t⟩
        rw [(handle_same t).1.id]
        by_cases isMe : u = t
        · subst isMe
          simp [State.setTls, ThreadLocalStorage.content_set ptr d positive hi, handle_content]
        · simp [State.setTls, isMe, handle_content]
      · cases taken
  | exit t =>
      simp only [State.next] at taken
      split at taken
      · cases taken
        by_cases unused : (s.tls t).capacity = 0
        · have empty : (s.tls t).elements = [] := List.length_eq_zero_iff.1 unused
          refine ⟨fun u i => ?_, ?_⟩
          · by_cases isMe : u = t
            · subst isMe
              simp [threadExitCleanup, unused, ThreadLocalStorage.content_of_capacity unused]
            · simp [threadExitCleanup, unused, isMe]
          · simp [threadExitCleanup, unused, empty]
        · refine ⟨fun u i => ?_, ?_⟩
          · by_cases isMe : u = t
            · subst isMe
              simp [threadExitCleanup, unused, State.setTls, ThreadLocalStorage.destroyAll,
                ThreadLocalStorage.content]
            · simp [threadExitCleanup, unused, State.setTls, isMe]
          · simp [threadExitCleanup, unused, ThreadLocalStorage.destroyAll]
      · cases taken

end State

/-! ## Following one pointer -/

/-- The pointer that an action stores. -/
def Action.gives : Action T P V D → Option V
  | .reset _ _ ptr _ => ptr
  | _ => none

/-- Whether an action ends the time of what thread `t` has stored for `p`. -/
def Action.ends (t : T) (p : P) : Action T P V D → Bool
  | .destruct q => decide (q = p)
  | .exit u => decide (u = t)
  | .reset u q _ _ => decide (u = t ∧ q = p)
  | _ => false

def Action.resets : Action T P V D → Bool
  | .reset _ _ _ _ => true
  | _ => false

namespace State

variable {s s' : State T P V D} {t u : T} {p q : P} {a : Action T P V D} {v : V} {d : Option D}
variable {m : T → P → Option V}

/-- No array has the pointer. -/
def Nowhere (s : State T P V D) (v : V) : Prop :=
  ∀ u i, 1 ≤ i → ∀ d, (d, v) ∉ (s.tls u).content i

/-- The pointer is in the element of thread `t` for `p`, and only there. -/
structure Held (s : State T P V D) (t : T) (p : P) (d : Option D) (v : V) : Prop where
  alive : p ∈ s.live
  running : s.exited t = false
  here : (s.tls t).content (s.id p) = [(Deleter.of d, v)]
  only : ∀ u i, 1 ≤ i → ∀ d', (d', v) ∈ (s.tls u).content i → u = t ∧ i = s.id p
  unreleased : s.released.for v = []

/-- What no array has under an index is not released when the index is given up. -/
theorem destroyEach_for {ts : List T} {i : Nat} (none_ : ∀ u d, (d, v) ∉ (s.tls u).content i) :
    Released.for (ts.map fun u => (s.tls u).content i).flatten v = [] := by
  refine Released.for_eq_nil.2 fun d member => ?_
  obtain ⟨l, inMap, member⟩ := List.mem_flatten.1 member
  obtain ⟨u, -, rfl⟩ := List.mem_map.1 inMap
  exact none_ u d member

theorem Nowhere.next (nowhere : s.Nowhere v) (holds : s.Holds m) (plain : s.Plain a)
    (taken : s.next a = some s') (other : a.gives ≠ some v) :
    s'.Nowhere v ∧ s'.released.for v = s.released.for v := by
  have contents := holds.contents plain taken
  have silent : ∀ u i, 1 ≤ i → ((s.tls u).content i).for v = [] := fun u i hi =>
    Released.for_eq_nil.2 (nowhere u i hi)
  cases a with
  | move o q => exact plain.elim
  | construct q | get u q =>
      obtain ⟨content, released⟩ := contents
      refine ⟨fun u i hi d => ?_, by rw [released]⟩
      rw [content]
      exact nowhere u i hi d
  | destruct q =>
      obtain ⟨alive, content, ts, -, -, released⟩ := contents
      have positive := (holds.id_valid alive).1
      refine ⟨fun u i hi d => ?_, ?_⟩
      · rw [content u i hi]
        split
        · exact List.not_mem_nil
        · exact nowhere u i hi d
      · rw [released, Released.for_append, destroyEach_for fun u => nowhere u (s.id q) positive,
          List.append_nil]
  | reset u q ptr d =>
      obtain ⟨-, -, content, released⟩ := contents
      refine ⟨fun w i hi d' => ?_, by rw [released]⟩
      rw [content w i hi]
      split
      · cases ptr with
        | none => exact List.not_mem_nil
        | some v' =>
            intro member
            cases List.mem_singleton.1 member
            exact other rfl
      · exact nowhere w i hi d'
  | exit u =>
      obtain ⟨content, released⟩ := contents
      refine ⟨fun w i hi d => ?_, ?_⟩
      · rw [content]
        split
        · exact List.not_mem_nil
        · exact nowhere w i hi d
      · have none_ : ∀ j d, (d, v) ∉ (s.tls u).content (j + 1) :=
          fun j => nowhere u (j + 1) (Nat.le_add_left 1 j)
        rw [released, Released.for_append, ThreadLocalStorage.destroyAll_for none_, List.append_nil]

/-- A `reset` stores its pointer. -/
theorem Nowhere.reset (nowhere : s.Nowhere v) (unreleased : s.released.for v = [])
    (holds : s.Holds m) (taken : s.next (.reset t p (some v) d) = some s') : s'.Held t p d v := by
  obtain ⟨alive, running, content, released⟩ :=
    holds.contents (a := .reset t p (some v) d) trivial taken
  have kept : s'.live = s.live ∧ s'.id = s.id ∧ s'.exited = s.exited := by
    simp only [State.next, alive, running, true_and] at taken
    split at taken
    · cases taken
      obtain ⟨same, -⟩ := handle_same (s := s) t
      exact ⟨same.live, same.id, same.exited⟩
    · cases taken
  obtain ⟨live, id, exited⟩ := kept
  have positive := (holds.id_valid alive).1
  refine ⟨live ▸ alive, exited ▸ running, ?_, fun u i hi d' member => ?_, released ▸ unreleased⟩
  · rw [id, content t _ positive, if_pos ⟨rfl, rfl⟩]
    rfl
  · rw [content u i hi] at member
    rw [id]
    split at member
    · assumption
    · exact absurd member (nowhere u i hi d')

/-- An object keeps its id while it lives. -/
theorem next_kept (plain : s.Plain a) (taken : s.next a = some s') (alive : p ∈ s.live)
    (running : s.exited t = false) (other : a.ends t p = false) :
    p ∈ s'.live ∧ s'.id p = s.id p ∧ s'.exited t = false := by
  cases a with
  | move o q => exact plain.elim
  | construct q =>
      simp only [State.next] at taken
      split at taken
      · cases taken
      · rename_i isNew
        cases taken
        have apart : p ≠ q := fun same => isNew (same ▸ alive)
        rcases create_cases s with ⟨rest, i, -, created⟩ | ⟨-, created⟩ <;> rw [created] <;>
          exact ⟨List.mem_cons_of_mem _ alive, if_neg apart, running⟩
  | destruct q =>
      simp only [State.next] at taken
      split at taken
      · obtain ⟨mid, destroyed, rfl⟩ := Option.map_eq_some_iff.1 taken
        obtain ⟨ts, -, rfl⟩ := destroy_eq destroyed
        have same := destroyEach_same (s := s) (s.id q) ts
        have apart : p ≠ q := fun same => of_decide_eq_false other same.symm
        refine ⟨?_, congrFun same.id p, (congrFun same.exited t).trans running⟩
        show p ∈ (s.destroyEach (s.id q) ts).live.erase q
        rw [same.live]
        exact (List.mem_erase_of_ne apart).2 alive
      · cases taken
  | get u q | reset u q ptr d =>
      simp only [State.next] at taken
      split at taken
      · cases taken
        obtain ⟨same, -⟩ := handle_same (s := s) u
        exact ⟨by rw [← same.live] at alive; exact alive, congrFun same.id p,
          (congrFun same.exited t).trans running⟩
      · cases taken
  | exit u =>
      simp only [State.next] at taken
      split at taken
      · cases taken
        obtain ⟨same, -⟩ := threadExitCleanup_same (s := s) u
        have apart : t ≠ u := fun same => of_decide_eq_false other same.symm
        exact ⟨by rw [← same.live] at alive; exact alive, congrFun same.id p,
          (if_neg apart).trans ((congrFun same.exited t).trans running)⟩
      · cases taken

namespace Held

variable {d' : Option D}

/-- Elements other than its own do not have the pointer. -/
theorem elsewhere (held : s.Held t p d v) {i : Nat} (hi : 1 ≤ i) (other : ¬ (u = t ∧ i = s.id p)) :
    ((s.tls u).content i).for v = [] :=
  Released.for_eq_nil.2 fun d' member => other (held.only u i hi d' member)

theorem for_here : Released.for [(Deleter.of d, v)] v = [(Deleter.of d, v)] := by
  unfold Released.for
  rw [List.filter_singleton, decide_eq_true (rfl : v = v)]
  rfl

/-- The destruction of the object finds the element, whatever thread it belongs to. -/
theorem destruct (held : s.Held t p d v) (holds : s.Holds m) {ts : List T} (nodup : ts.Nodup)
    (members : ∀ u, (s.tls u).capacity ≠ 0 → u ∈ ts) :
    Released.for (ts.map fun u => (s.tls u).content (s.id p)).flatten v =
      [(Deleter.of d, v)] := by
  have positive := (holds.id_valid held.alive).1
  have some_ : (s.tls t).capacity ≠ 0 := by
    intro none_
    have here := held.here
    rw [ThreadLocalStorage.content_of_capacity none_] at here
    cases here
  obtain ⟨i, atI⟩ := List.mem_iff_getElem?.1 (members t some_)
  have mapped : (ts.map fun u => (s.tls u).content (s.id p))[i]? = some [(Deleter.of d, v)] := by
    rw [List.getElem?_map, atI, Option.map_some, held.here]
  rw [Released.for_flatten mapped, for_here]
  intro j l atJ ne
  rw [List.getElem?_map] at atJ
  obtain ⟨u, atU, rfl⟩ := Option.map_eq_some_iff.1 atJ
  refine held.elsewhere positive ?_
  rintro ⟨rfl, -⟩
  exact ne ((List.getElem?_inj (List.getElem?_eq_some_iff.1 atU).1 nodup).1 (atU.trans atI.symm))

/-- The exit of the thread finds the element, whatever object it belongs to. -/
theorem exit (held : s.Held t p d v) (holds : s.Holds m) :
    Released.for ((s.tls t).elements.map (·.destroy.2)).flatten v = [(Deleter.of d, v)] := by
  have positive := (holds.id_valid held.alive).1
  have member : (Deleter.of d, v) ∈ (s.tls t).content (s.id p) := by
    rw [held.here]
    exact List.mem_singleton_self _
  have mapped := ThreadLocalStorage.content_getElem member
  rw [held.here] at mapped
  rw [Released.for_flatten mapped, for_here]
  intro j l atJ ne
  rw [← ThreadLocalStorage.destroyAll_released atJ]
  refine held.elsewhere (Nat.le_add_left 1 j) ?_
  rintro ⟨-, same⟩
  exact ne (by omega)

theorem next (held : s.Held t p d v) (holds : s.Holds m) (plain : s.Plain a)
    (taken : s.next a = some s') (new : a.gives ≠ some v) (other : a.ends t p = false) :
    s'.Held t p d v := by
  have contents := holds.contents plain taken
  obtain ⟨alive, id, running⟩ := next_kept plain taken held.alive held.running other
  have positive := (holds.id_valid held.alive).1
  have kept : (∀ u i, 1 ≤ i → (s'.tls u).content i = (s.tls u).content i ∨
      ¬ (u = t ∧ i = s.id p) ∧ ((s'.tls u).content i).for v = []) → s'.released.for v = [] →
      s'.Held t p d v := by
    intro content unreleased
    refine ⟨alive, running, ?_, fun u i hi d' member => ?_, unreleased⟩
    · rw [id]
      rcases content t (s.id p) positive with same | ⟨moved, -⟩
      · rw [same, held.here]
      · exact absurd ⟨rfl, rfl⟩ moved
    · rw [id]
      rcases content u i hi with same | ⟨-, gone⟩
      · rw [same] at member
        exact held.only u i hi d' member
      · exact absurd member (Released.for_eq_nil.1 gone d')
  cases a with
  | move o q => exact plain.elim
  | construct q | get u q =>
      obtain ⟨content, released⟩ := contents
      exact kept (fun u i _ => .inl (content u i)) (released ▸ held.unreleased)
  | destruct q =>
      obtain ⟨alive', content, ts, -, -, released⟩ := contents
      have apart : s.id p ≠ s.id q := by
        intro same
        exact of_decide_eq_false other (holds.id_inj held.alive alive' same).symm
      refine kept (fun u i hi => ?_) ?_
      · rw [content u i hi]
        by_cases isQ : i = s.id q
        · refine .inr ⟨fun mine => apart (mine.2.symm.trans isQ), ?_⟩
          rw [if_pos isQ]
          rfl
        · exact .inl (if_neg isQ)
      · rw [released, Released.for_append, held.unreleased, List.nil_append]
        have valid := (holds.id_valid alive').1
        exact destroyEach_for fun u d' member =>
          apart (held.only u (s.id q) valid d' member).2.symm
  | reset u q ptr d' =>
      obtain ⟨alive', -, content, released⟩ := contents
      refine kept (fun w i hi => ?_) (released ▸ held.unreleased)
      rw [content w i hi]
      by_cases isQ : w = u ∧ i = s.id q
      · refine .inr ⟨?_, ?_⟩
        · rintro ⟨isT, isP⟩
          refine of_decide_eq_false other ⟨isQ.1.symm.trans isT, ?_⟩
          exact holds.id_inj alive' held.alive (isQ.2.symm.trans isP)
        · rw [if_pos isQ]
          refine Released.for_eq_nil.2 fun d'' member => ?_
          cases ptr with
          | none => cases member
          | some v' =>
              cases List.mem_singleton.1 member
              exact new rfl
      · exact .inl (if_neg isQ)
  | exit u =>
      obtain ⟨content, released⟩ := contents
      have apart : t ≠ u := fun same => of_decide_eq_false other same.symm
      refine kept (fun w i hi => ?_) ?_
      · rw [content]
        by_cases isU : w = u
        · refine .inr ⟨fun mine => apart (mine.1.symm.trans isU), ?_⟩
          rw [if_pos isU]
          rfl
        · exact .inl (if_neg isU)
      · rw [released, Released.for_append, held.unreleased, List.nil_append]
        exact ThreadLocalStorage.destroyAll_for fun j d' member =>
          apart (held.only u (j + 1) (Nat.le_add_left 1 j) d' member).1.symm

/-- **The end of a stored pointer**: its deleter is called, unless it is replaced. -/
theorem ended (held : s.Held t p d v) (holds : s.Holds m) (plain : s.Plain a)
    (taken : s.next a = some s') (new : a.gives ≠ some v) (ends : a.ends t p = true) :
    s'.Nowhere v ∧
      s'.released.for v = if a.resets then [] else [(Deleter.of d, v)] := by
  have contents := holds.contents plain taken
  cases a with
  | move o q => exact plain.elim
  | construct q | get u q => cases ends
  | destruct q =>
      obtain rfl : q = p := of_decide_eq_true ends
      obtain ⟨-, content, ts, nodup, members, released⟩ := contents
      refine ⟨fun u i hi d' member => ?_, ?_⟩
      · rw [content u i hi] at member
        split at member
        · cases member
        · rename_i apart
          exact apart (held.only u i hi d' member).2
      · rw [released, Released.for_append, held.unreleased, List.nil_append,
          held.destruct holds nodup members]
        rfl
  | exit u =>
      obtain rfl : u = t := of_decide_eq_true ends
      obtain ⟨content, released⟩ := contents
      refine ⟨fun w i hi d' member => ?_, ?_⟩
      · rw [content] at member
        split at member
        · cases member
        · rename_i apart
          exact apart (held.only w i hi d' member).1
      · rw [released, Released.for_append, held.unreleased, List.nil_append, held.exit holds]
        rfl
  | reset u q ptr d' =>
      obtain ⟨rfl, rfl⟩ : u = t ∧ q = p := of_decide_eq_true ends
      obtain ⟨-, -, content, released⟩ := contents
      refine ⟨fun w i hi d'' member => ?_, ?_⟩
      · rw [content w i hi] at member
        split at member
        · cases ptr with
          | none => cases member
          | some v' =>
              cases List.mem_singleton.1 member
              exact new rfl
        · rename_i apart
          exact apart (held.only w i hi d'' member)
      · rw [released, held.unreleased]
        rfl

end Held

/-! ## Whole histories -/

variable {as rest : List (Action T P V D)}

theorem Nowhere.run (nowhere : s.Nowhere v) (holds : s.Holds m)
    (plain : Theory.Along State.next Plain s as) (ran : Theory.run State.next s as = some s')
    (other : ∀ a ∈ as, a.gives ≠ some v) :
    s'.Nowhere v ∧ s'.released.for v = s.released.for v := by
  induction as generalizing s m with
  | nil =>
      cases ran
      exact ⟨nowhere, rfl⟩
  | cons a rest ih =>
      obtain ⟨mid, taken, onRan⟩ := Theory.run_cons_eq_some.1 ran
      obtain ⟨nowhere, same⟩ := nowhere.next holds plain.1 taken (other a (List.mem_cons_self ..))
      obtain ⟨nowhere', same'⟩ := ih nowhere (holds.next plain.1 taken) (plain.2 mid taken) onRan
        fun b inRest => other b (List.mem_cons_of_mem _ inRest)
      exact ⟨nowhere', same'.trans same⟩

/-- What becomes of a stored pointer is decided by the first action that ends its time. -/
theorem Held.run (held : s.Held t p d v) (holds : s.Holds m)
    (plain : Theory.Along State.next Plain s as) (ran : Theory.run State.next s as = some s')
    (other : ∀ a ∈ as, a.gives ≠ some v) :
    s'.released.for v =
      match as.find? (·.ends t p) with
      | none => []
      | some b => if b.resets then [] else [(Deleter.of d, v)] := by
  induction as generalizing s m with
  | nil =>
      cases ran
      exact held.unreleased
  | cons a rest ih =>
      obtain ⟨mid, taken, onRan⟩ := Theory.run_cons_eq_some.1 ran
      have new := other a (List.mem_cons_self ..)
      have others : ∀ b ∈ rest, b.gives ≠ some v :=
        fun b inRest => other b (List.mem_cons_of_mem _ inRest)
      have holds' := holds.next plain.1 taken
      cases ends : a.ends t p with
      | true =>
          obtain ⟨nowhere, released⟩ := held.ended holds plain.1 taken new ends
          rw [List.find?_cons_of_pos ends, (nowhere.run holds' (plain.2 mid taken) onRan others).2]
          exact released
      | false =>
          rw [List.find?_cons_of_neg (by rw [ends]; exact Bool.false_ne_true)]
          exact ih (held.next holds plain.1 taken new ends) holds' (plain.2 mid taken) onRan others

/-- Every pointer given to `reset` has been released by its own deleter, once, if an action has
ended its time, and not at all otherwise. -/
def ReleasedOnce (s : State T P V D) (as : List (Action T P V D)) : Prop :=
  ∀ t p v d rest, (.reset t p (some v) d :: rest) <:+ as →
    s.released.for v = if rest.any (·.ends t p) then [(Deleter.of d, v)] else []

/-- After a thread has reset an object, it does not reset it again before the object is destroyed
or the thread exits. -/
def Unreplaced (as : List (Action T P V D)) : Prop :=
  ∀ t p v d rest, (.reset t p (some v) d :: rest) <:+ as →
    ∀ b, rest.find? (·.ends t p) = some b → b.resets = false

/-- The fate of one pointer of a history. -/
theorem released_for (plain : Theory.Along State.next Plain (init : State T P V D) as)
    (ran : Theory.run State.next init as = some s) (distinct : (as.filterMap Action.gives).Nodup)
    (given : (.reset t p (some v) d :: rest) <:+ as) :
    s.released.for v =
      match rest.find? (·.ends t p) with
      | none => []
      | some b => if b.resets then [] else [(Deleter.of d, v)] := by
  obtain ⟨before, rfl⟩ := given
  obtain ⟨mid, ran, onRan⟩ := Theory.run_append_eq_some.1 ran
  obtain ⟨plainBefore, plain⟩ := Theory.along_append plain ran
  obtain ⟨mid', taken, onRan⟩ := Theory.run_cons_eq_some.1 onRan
  have holds := holds_run plainBefore ran
  have gives : (Action.reset t p (some v) d : Action T P V D).gives = some v := rfl
  rw [List.filterMap_append, List.filterMap_cons_some gives] at distinct
  obtain ⟨-, distinctAfter, apart⟩ := List.nodup_append.1 distinct
  have first : ∀ a ∈ before, a.gives ≠ some v := by
    intro a inBefore same
    exact apart v (List.mem_filterMap.2 ⟨a, inBefore, same⟩) v (List.mem_cons_self ..) rfl
  have later : ∀ a ∈ rest, a.gives ≠ some v := by
    intro a inRest same
    exact (List.nodup_cons.1 distinctAfter).1 (List.mem_filterMap.2 ⟨a, inRest, same⟩)
  have start : (init : State T P V D).Nowhere v := fun _ _ _ _ member => (nomatch member)
  obtain ⟨nowhere, unreleased⟩ := start.run holds_init plainBefore ran first
  exact (nowhere.reset unreleased holds taken).run (holds.next plain.1 taken)
    (plain.2 mid' taken) onRan later

/-- **Every stored pointer is released exactly once**, by the deleter that was given for it, at
the destruction of its object or the exit of its thread, whichever comes first, if and only if no
thread replaces a pointer that it has stored; one that is replaced is never released. -/
theorem released_once_iff (plain : Theory.Along State.next Plain (init : State T P V D) as)
    (ran : Theory.run State.next init as = some s) (distinct : (as.filterMap Action.gives).Nodup) :
    s.ReleasedOnce as ↔ Unreplaced as := by
  constructor
  · intro once t p v d rest given b found
    have fate := released_for plain ran distinct given
    have ended : rest.any (·.ends t p) = true := by
      rw [List.any_eq_true]
      exact ⟨b, List.mem_of_find?_eq_some found, List.find?_some found⟩
    rw [once t p v d rest given, if_pos ended, found] at fate
    cases resets : b.resets with
    | false => rfl
    | true =>
        simp only [resets, if_true] at fate
        cases fate
  · intro unreplaced t p v d rest given
    rw [released_for plain ran distinct given]
    cases found : rest.find? (·.ends t p) with
    | none =>
        have none_ : rest.any (·.ends t p) = false := by
          rw [List.any_eq_false]
          exact fun a inRest => List.find?_eq_none.1 found a inRest
        rw [none_]
        rfl
    | some b =>
        have ended : rest.any (·.ends t p) = true := by
          rw [List.any_eq_true]
          exact ⟨b, List.mem_of_find?_eq_some found, List.find?_some found⟩
        rw [ended, if_pos rfl]
        simp only [unreplaced t p v d rest given b found]
        rfl

/-- Two threads store a pointer each; one exits, and then the object is destroyed. -/
def exitThenDestruct : List (Action (Fin 2) Nat Nat Nat) :=
  [.construct 0, .reset 0 0 (some 7) (some 3), .reset 1 0 (some 8) none, .exit 0, .destruct 0]

theorem unreplaced_exitThenDestruct : Unreplaced exitThenDestruct := by
  intro t p v d rest given b found
  simp only [exitThenDestruct, List.suffix_cons_iff, List.suffix_nil, List.cons.injEq, reduceCtorEq,
    Action.reset.injEq, false_and, or_false, false_or, Option.some.injEq] at given
  rcases given with ⟨⟨rfl, rfl, rfl, rfl⟩, rfl⟩ | ⟨⟨rfl, rfl, rfl, rfl⟩, rfl⟩ <;> cases found <;> rfl

theorem released_once_exitThenDestruct : ∃ s : State (Fin 2) Nat Nat Nat,
    Theory.run State.next State.init exitThenDestruct = some s ∧
    s.released = [(some (.given 3), 7), (some .deletePtr, 8)] ∧ s.ReleasedOnce exitThenDestruct := by
  have ran : (Theory.run State.next State.init exitThenDestruct).map
      (fun s : State (Fin 2) Nat Nat Nat => s.released) =
        some [(some (.given 3), 7), (some .deletePtr, 8)] := by decide +kernel
  obtain ⟨s, ran, released⟩ := Option.map_eq_some_iff.1 ran
  exact ⟨s, ran, released, (released_once_iff (by decide +kernel) ran (by decide)).2
    unreplaced_exitThenDestruct⟩

/-- A pointer that is replaced is not released by the destruction of the object either. -/
theorem replaced_never_released : ∃ s : State (Fin 1) Nat Nat Nat,
    Theory.run State.next State.init [.construct 0, .reset 0 0 (some 7) (some 3),
      .reset 0 0 (some 8) none, .destruct 0, .exit 0] = some s ∧
    s.released = [(some .deletePtr, 8)] ∧
    ¬ s.ReleasedOnce [.construct 0, .reset 0 0 (some 7) (some 3), .reset 0 0 (some 8) none,
      .destruct 0, .exit 0] := by
  have ran : (Theory.run State.next State.init [.construct 0, .reset 0 0 (some 7) (some 3),
      .reset 0 0 (some 8) none, .destruct 0, .exit 0]).map
      (fun s : State (Fin 1) Nat Nat Nat => s.released) = some [(some .deletePtr, 8)] := by
    decide +kernel
  obtain ⟨s, ran, released⟩ := Option.map_eq_some_iff.1 ran
  refine ⟨s, ran, released, fun once => ?_⟩
  have fate := once 0 0 7 (some 3) [.reset 0 0 (some 8) none, .destruct 0, .exit 0]
    ⟨[.construct 0], rfl⟩
  rw [released] at fate
  exact absurd fate (by decide)

end State

end Ccmetrics.ThreadLocal
