/-
# ThreadLocal.Lazy -- `ThreadLocal<T, NewFunctor>`

A `ThreadLocal` is a `ThreadLocalPointer` that is filled at a thread's first access with what
`new_functor_` returns. Between `ptr_.get()` and `ptr_.reset(ret, deleter_)` the functor runs, and
it may access other `ThreadLocal`s itself: the functor of `thread_hash_code_` asks
`ThreadLocalRandom::current()`. So a thread has a stack of functors that are running (`making`).

Objects are numbered in the order in which they are made, over all threads and functors.

* `made_once`: a thread gets the same object at every access, nobody else ever gets it, and it is
  deleted exactly once, when its `ThreadLocal` is destroyed or its thread exits.

A functor does not access the `ThreadLocal` that it is filling, and a `ThreadLocal` is not destroyed
while a thread is filling it. Moves are left out; `deleter_` is null where none is given.
-/
import Mathlib.Data.Fintype.Basic
import Ccmetrics.ThreadLocal.Released

namespace Ccmetrics.ThreadLocal

set_option autoImplicit false
set_option linter.unusedSectionVars false

variable {T P D : Type} [DecidableEq T] [DecidableEq P]

/-- All `ThreadLocal`s of a program. `made` is not in the source: for whom each object was made, and
the `deleter_` it was given. -/
structure Lazies (T P D : Type) where
  storage : State T P Nat D
  deleter : P → Option D
  making : T → List P
  made : List (T × P × Option D)
  result : T → Option Nat

namespace Lazies

/-- A constructor or destructor, an access by a thread, the return of the functor that a thread runs,
the exit of a thread. -/
inductive Action (T P D : Type) where
  | construct (p : P) (deleter : Option D)
  | destruct (p : P)
  | get (t : T) (p : P)
  | finish (t : T)
  | exit (t : T)
  deriving DecidableEq

def new : Lazies T P D where
  storage := .init
  deleter _ := none
  making _ := []
  made := []
  result _ := none

variable [Fintype T]

/-- What happens when an action is taken; `none` if it cannot be taken. -/
def next (s : Lazies T P D) : Action T P D → Option (Lazies T P D)
  | .construct p deleter =>
      (s.storage.next (.construct p)).map fun storage =>
        { s with storage := storage, deleter := fun q => if q = p then deleter else s.deleter q }
  | .destruct p =>
      if ∀ t, p ∉ s.making t then
        (s.storage.next (.destruct p)).map fun storage => { s with storage := storage }
      else none
  | .get t p =>
      if p ∈ s.making t then none
      else
        (s.storage.next (.get t p)).map fun storage =>
          match storage.result t with
          | some v =>
              { s with storage := storage, result := fun u => if u = t then some v else s.result u }
          | none =>
              -- `new_functor_()` is called
              { s with
                storage := storage
                making := fun u => if u = t then p :: s.making t else s.making u }
  | .finish t =>
      match s.making t with
      | [] => none
      | p :: outer =>
          let v := s.made.length
          (s.storage.next (.reset t p (some v) (s.deleter p))).map fun storage =>
            { s with
              storage := storage
              making := fun u => if u = t then outer else s.making u
              made := s.made ++ [(t, p, s.deleter p)]
              result := fun u => if u = t then some v else s.result u }
  | .exit t =>
      if s.making t = [] then
        (s.storage.next (.exit t)).map fun storage => { s with storage := storage }
      else none

/-- Never `2 ^ 32` objects alive. -/
def Room (s : Lazies T P D) : Action T P D → Prop
  | .construct _ _ => s.storage.live.length + 1 < 2 ^ 32
  | _ => True

instance (s : Lazies T P D) : (a : Action T P D) → Decidable (s.Room a)
  | .construct _ _ => inferInstanceAs (Decidable (_ < _))
  | .destruct _ | .get _ _ | .finish _ | .exit _ => isTrue trivial

/-- An access by thread `t` to `p` returns the object `v` at once. -/
def Gets (s : Lazies T P D) (t : T) (p : P) (v : Nat) : Prop :=
  (s.next (.get t p)).map (fun s' => (s'.result t, s'.making t)) = some (some v, s.making t)

instance (s : Lazies T P D) (t : T) (p : P) (v : Nat) : Decidable (s.Gets t p v) :=
  inferInstanceAs (Decidable (_ = _))

/-- The actions after which thread `t` no longer has its object of `p`. -/
def Action.ends (t : T) (p : P) : Action T P D → Bool
  | .destruct q => decide (q = p)
  | .exit u => decide (u = t)
  | _ => false

end Lazies

/-! ## Values and contents -/

namespace ThreadLocalStorage

variable {V : Type} {x : ThreadLocalStorage V D} {i : Nat}

theorem value_of_content {d : Option (Deleter D)} {v : V} (here : x.content i = [(d, v)]) :
    x.value i = some v := by
  simp only [value, content] at here ⊢
  cases present : x.elements[i - 1]? with
  | none =>
      rw [present] at here
      cases here
  | some e =>
      rw [present] at here
      cases ptr : e.ptr with
      | none => simp [Element.destroy, ptr] at here
      | some w =>
          simp only [Element.destroy, ptr, List.cons.injEq, Prod.mk.injEq] at here
          simp [ptr, here.1.2]

/-- A value is in the content. -/
theorem mem_content_of_value {v : V} (some_ : x.value i = some v) : ∃ d, (d, v) ∈ x.content i := by
  simp only [value, content] at some_ ⊢
  cases present : x.elements[i - 1]? with
  | none =>
      rw [present] at some_
      cases some_
  | some e =>
      rw [present] at some_
      have ptr : e.ptr = some v := some_
      exact ⟨e.deleter, by simp [Element.destroy, ptr]⟩

end ThreadLocalStorage

namespace Lazies

variable [Fintype T] {s s' : Lazies T P D} {a : Action T P D} {t u : T} {p q : P} {v w : Nat}
  {d : Option D} {m : T → P → Option Nat}

/-- `v` was made, and its thread can get it, or it has been deleted. -/
def Settled (storage : State T P Nat D) (t : T) (p : P) (d : Option D) (v : Nat) : Prop :=
  storage.Held t p d v ∨ storage.Nowhere v ∧ storage.released.for v = [(Deleter.of d, v)]

structure Sound (s : Lazies T P D) (m : T → P → Option Nat) : Prop where
  holds : s.storage.Holds m
  made : ∀ v t p d, s.made[v]? = some (t, p, d) → Settled s.storage t p d v
  fresh : ∀ v, s.made.length ≤ v → s.storage.Nowhere v ∧ s.storage.released.for v = []
  filling : ∀ t p, p ∈ s.making t →
    p ∈ s.storage.live ∧ s.storage.exited t = false ∧ m t p = none
  nodup : ∀ t, (s.making t).Nodup

theorem sound_new : (new : Lazies T P D).Sound fun _ _ => none where
  holds := State.holds_init
  made v t p d found := by simp [new] at found
  fresh v _ := ⟨fun _ _ _ _ member => (by simp [new, State.init, ThreadLocalStorage.content] at member),
    rfl⟩
  filling t p member := by simp [new] at member
  nodup t := List.nodup_nil

/-- An action of the storage that stores nothing. -/
theorem Settled.next {storage storage' : State T P Nat D} {b : ThreadLocal.Action T P Nat D}
    (settled : Settled storage t p d v) (holds : storage.Holds m) (plain : storage.Plain b)
    (taken : storage.next b = some storage') (new : b.gives ≠ some v)
    (other : b.resets = true → b.ends t p = false ∨ ¬ storage.Held t p d v) :
    Settled storage' t p d v := by
  rcases settled with held | ⟨nowhere, released⟩
  · cases ends : b.ends t p with
    | false => exact .inl (held.next holds plain taken new ends)
    | true =>
        obtain ⟨nowhere, released⟩ := held.ended holds plain taken new ends
        refine .inr ⟨nowhere, ?_⟩
        cases resets : b.resets with
        | false => rw [released, resets]; rfl
        | true =>
            rcases other resets with off | not
            · rw [off] at ends
              cases ends
            · exact absurd held not
  · obtain ⟨nowhere', same⟩ := nowhere.next holds plain taken new
    exact .inr ⟨nowhere', same.trans released⟩

/-- What a storage action that neither ends the time of `(t, p)` nor builds `p` leaves of it. -/
theorem remember_kept {storage storage' : State T P Nat D} {b : ThreadLocal.Action T P Nat D}
    (taken : storage.next b = some storage') (alive : p ∈ storage.live)
    (other : b.ends t p = false) : State.remember m b t p = m t p := by
  cases b with
  | construct q =>
      have isNew : q ∉ storage.live := by
        intro old
        simp [State.next, old] at taken
      have apart : p ≠ q := fun same => isNew (same ▸ alive)
      simp [State.remember, apart]
  | reset u q ptr d =>
      have apart : ¬ (t = u ∧ p = q) := by
        rintro ⟨rfl, rfl⟩
        exact of_decide_eq_false other ⟨rfl, rfl⟩
      simp [State.remember, apart]
  | move o q | destruct q | get u q | exit u => rfl

namespace Sound

variable {storage' : State T P Nat D} {b : ThreadLocal.Action T P Nat D}

/-- What a thread is still filling stays to be filled. -/
theorem filling_kept (sound : s.Sound m) (plain : s.storage.Plain b)
    (taken : s.storage.next b = some storage') (member : p ∈ s.making t)
    (other : b.ends t p = false) :
    p ∈ storage'.live ∧ storage'.exited t = false ∧ State.remember m b t p = none := by
  obtain ⟨alive, running, none_⟩ := sound.filling t p member
  obtain ⟨alive', -, running'⟩ := State.next_kept plain taken alive running other
  exact ⟨alive', running', (remember_kept taken alive other).trans none_⟩

/-- An action of the storage other than `reset` keeps the books on the objects. -/
theorem quiet (sound : s.Sound m) (plain : s.storage.Plain b)
    (taken : s.storage.next b = some storage') (resets : b.resets = false) :
    (∀ v t p d, s.made[v]? = some (t, p, d) → Settled storage' t p d v) ∧
      ∀ v, s.made.length ≤ v → storage'.Nowhere v ∧ storage'.released.for v = [] := by
  have gives : ∀ v, b.gives ≠ some v := by
    intro v
    cases b with
    | reset u q ptr d => cases resets
    | construct q | move o q | destruct q | get u q | exit u =>
        intro same
        cases same
  refine ⟨fun v t p d found => ?_, fun v unmade => ?_⟩
  · refine (sound.made v t p d found).next sound.holds plain taken (gives v) ?_
    intro isReset
    rw [resets] at isReset
    cases isReset
  · obtain ⟨nowhere, unreleased⟩ := sound.fresh v unmade
    obtain ⟨nowhere', same⟩ := nowhere.next sound.holds plain taken (gives v)
    exact ⟨nowhere', same.trans unreleased⟩

/-- What is held is what the thread's next access to the object returns. -/
theorem value_of_held (sound : s.Sound m) (held : s.storage.Held t p d v) : m t p = some v :=
  (sound.holds.agrees t p held.running held.alive).symm.trans
    (ThreadLocalStorage.value_of_content held.here)

theorem unfilled_of_held (sound : s.Sound m) (held : s.storage.Held t p d v) :
    p ∉ s.making t := by
  intro member
  have none_ := (sound.filling t p member).2.2
  rw [sound.value_of_held held] at none_
  cases none_

/-- The return of a functor. -/
theorem finish (sound : s.Sound m) {outer : List P} (making : s.making t = p :: outer)
    (taken : s.storage.next (.reset t p (some s.made.length) (s.deleter p)) = some storage') :
    (∀ v u q d, (s.made ++ [(t, p, s.deleter p)])[v]? = some (u, q, d) → Settled storage' u q d v) ∧
      (∀ v, (s.made ++ [(t, p, s.deleter p)]).length ≤ v →
        storage'.Nowhere v ∧ storage'.released.for v = []) ∧
      storage'.Held t p (s.deleter p) s.made.length := by
  have mine : p ∈ s.making t := making ▸ List.mem_cons_self ..
  obtain ⟨nowhere, unreleased⟩ := sound.fresh s.made.length le_rfl
  have held := nowhere.reset unreleased sound.holds taken
  have plain : s.storage.Plain (.reset t p (some s.made.length) (s.deleter p)) := trivial
  refine ⟨fun v u q d found => ?_, fun v unmade => ?_, held⟩
  · rcases Nat.lt_trichotomy v s.made.length with old | rfl | beyond
    · rw [List.getElem?_append_left old] at found
      refine (sound.made v u q d found).next sound.holds plain taken ?_ fun _ => ?_
      · intro same
        cases same
        exact Nat.lt_irrefl _ old
      · cases ends : (ThreadLocal.Action.reset t p (some s.made.length) (s.deleter p)).ends u q with
        | false => exact .inl rfl
        | true =>
            obtain ⟨rfl, rfl⟩ : t = u ∧ p = q := of_decide_eq_true ends
            exact .inr fun held => sound.unfilled_of_held held mine
    · rw [List.getElem?_append_right le_rfl, Nat.sub_self] at found
      cases found
      exact .inl held
    · rw [List.getElem?_eq_none (by simp; omega)] at found
      cases found
  · have room : s.made.length < v := by
      rw [List.length_append, List.length_singleton] at unmade
      omega
    obtain ⟨nowhere, unreleased⟩ := sound.fresh v (Nat.le_of_lt room)
    obtain ⟨nowhere', same⟩ := nowhere.next sound.holds plain taken fun same => by
      cases same
      exact Nat.lt_irrefl _ room
    exact ⟨nowhere', same.trans unreleased⟩

theorem next (sound : s.Sound m) (room : s.Room a) (taken : s.next a = some s') :
    ∃ m', s'.Sound m' := by
  cases a with
  | construct p deleter =>
      obtain ⟨storage', stored, rfl⟩ := Option.map_eq_some_iff.1 taken
      have plain : s.storage.Plain (.construct p) := room
      obtain ⟨made, fresh⟩ := sound.quiet plain stored rfl
      exact ⟨_, sound.holds.next plain stored, made, fresh,
        fun t q member => sound.filling_kept plain stored member rfl, sound.nodup⟩
  | destruct p =>
      simp only [Lazies.next] at taken
      split at taken
      case isFalse => cases taken
      rename_i unfilled
      obtain ⟨storage', stored, rfl⟩ := Option.map_eq_some_iff.1 taken
      have plain : s.storage.Plain (.destruct p) := trivial
      obtain ⟨made, fresh⟩ := sound.quiet plain stored rfl
      refine ⟨_, sound.holds.next plain stored, made, fresh, fun t q member => ?_, sound.nodup⟩
      refine sound.filling_kept plain stored member (decide_eq_false ?_)
      rintro rfl
      exact unfilled t member
  | get t p =>
      simp only [Lazies.next] at taken
      split at taken
      · cases taken
      rename_i unfilled
      obtain ⟨storage', stored, rfl⟩ := Option.map_eq_some_iff.1 taken
      have plain : s.storage.Plain (.get t p) := trivial
      obtain ⟨made, fresh⟩ := sound.quiet plain stored rfl
      have holds := sound.holds.next plain stored
      have filling := fun u q member =>
        sound.filling_kept (t := u) (p := q) plain stored member rfl
      cases result : storage'.result t with
      | some v => exact ⟨_, holds, made, fresh, filling, sound.nodup⟩
      | none =>
          -- the functor is called: nothing is stored for `p` yet
          have first : p ∈ storage'.live ∧ storage'.exited t = false ∧ m t p = none := by
            have enabled : p ∈ s.storage.live ∧ s.storage.exited t = false := by
              by_contra off
              simp only [State.next] at stored
              rw [if_neg fun on => off ⟨on.1, on.2.1⟩] at stored
              cases stored
            obtain ⟨alive, running⟩ := enabled
            obtain ⟨storage'', stored', value, -⟩ := sound.holds.get_returns alive running
            cases stored.symm.trans stored'
            obtain ⟨alive', -, running'⟩ := State.next_kept plain stored alive running rfl
            exact ⟨alive', running', value.symm.trans result⟩
          refine ⟨_, holds, made, fresh, fun u q member => ?_, fun u => ?_⟩
          · change q ∈ if u = t then p :: s.making t else s.making u at member
            by_cases isMe : u = t
            · subst isMe
              rw [if_pos rfl] at member
              rcases List.mem_cons.1 member with rfl | before
              · exact first
              · exact filling u q before
            · rw [if_neg isMe] at member
              exact filling u q member
          · show (if u = t then p :: s.making t else s.making u).Nodup
            split
            · exact List.nodup_cons.2 ⟨unfilled, sound.nodup t⟩
            · exact sound.nodup u
  | finish t =>
      cases making : s.making t with
      | nil => simp [Lazies.next, making] at taken
      | cons p outer =>
          simp only [Lazies.next, making] at taken
          obtain ⟨storage', stored, rfl⟩ := Option.map_eq_some_iff.1 taken
          obtain ⟨made, fresh, -⟩ := sound.finish making stored
          have plain : s.storage.Plain (.reset t p (some s.made.length) (s.deleter p)) := trivial
          have nodup := sound.nodup t
          rw [making] at nodup
          obtain ⟨outside, nodup⟩ := List.nodup_cons.1 nodup
          refine ⟨_, sound.holds.next plain stored, made, fresh, fun u q member => ?_, fun u => ?_⟩
          · change q ∈ if u = t then outer else s.making u at member
            by_cases isMe : u = t
            · subst isMe
              rw [if_pos rfl] at member
              refine sound.filling_kept plain stored (making ▸ List.mem_cons_of_mem _ member)
                (decide_eq_false ?_)
              rintro ⟨-, rfl⟩
              exact outside member
            · rw [if_neg isMe] at member
              exact sound.filling_kept plain stored member
                (decide_eq_false fun same => isMe same.1.symm)
          · show (if u = t then outer else s.making u).Nodup
            split
            · exact nodup
            · exact sound.nodup u
  | exit t =>
      simp only [Lazies.next] at taken
      split at taken
      case isFalse => cases taken
      rename_i idle
      obtain ⟨storage', stored, rfl⟩ := Option.map_eq_some_iff.1 taken
      have plain : s.storage.Plain (.exit t) := trivial
      obtain ⟨made, fresh⟩ := sound.quiet plain stored rfl
      refine ⟨_, sound.holds.next plain stored, made, fresh, fun u q member => ?_, sound.nodup⟩
      refine sound.filling_kept plain stored member (decide_eq_false ?_)
      rintro rfl
      rw [idle] at member
      cases member

end Sound

theorem sound_run {as : List (Action T P D)} (room : Theory.Along next Room (new : Lazies T P D) as)
    (ran : Theory.run next new as = some s) : ∃ m, s.Sound m := by
  refine Theory.run_along (P := fun s => ∃ m, s.Sound m) ?_ ⟨_, sound_new⟩ room ran
  rintro s a s' ⟨m, sound⟩ room taken
  exact sound.next room taken

/-- Every action is one of the storage, which stores nothing but the object that was just made. -/
theorem next_stored (taken : s.next a = some s') : ∃ b, s.storage.next b = some s'.storage ∧
    (s.Room a → s.storage.Plain b) ∧ (∀ v, b.gives = some v → v = s.made.length) ∧
    (∀ t p, a.ends t p = false → b.ends t p = false ∨ p ∈ s.making t) ∧
    ∀ t p, a.ends t p = true → b.ends t p = true ∧ b.resets = false := by
  cases a with
  | construct p deleter =>
      obtain ⟨storage', stored, rfl⟩ := Option.map_eq_some_iff.1 taken
      refine ⟨.construct p, stored, id, ?_, fun _ _ _ => .inl rfl, ?_⟩
      · intro v gives
        cases gives
      · intro t q ends
        cases ends
  | destruct p =>
      simp only [Lazies.next] at taken
      split at taken
      case isFalse => cases taken
      obtain ⟨storage', stored, rfl⟩ := Option.map_eq_some_iff.1 taken
      refine ⟨.destruct p, stored, fun _ => trivial, ?_, fun _ _ kept => .inl kept,
        fun _ _ ends => ⟨ends, rfl⟩⟩
      intro v gives
      cases gives
  | get t p =>
      simp only [Lazies.next] at taken
      split at taken
      · cases taken
      obtain ⟨storage', stored, rfl⟩ := Option.map_eq_some_iff.1 taken
      refine ⟨.get t p, ?_, fun _ => trivial, ?_, fun _ _ _ => .inl rfl, ?_⟩
      · cases storage'.result t <;> exact stored
      · intro v gives
        cases gives
      · intro u q ends
        cases ends
  | finish t =>
      cases making : s.making t with
      | nil => simp [Lazies.next, making] at taken
      | cons p outer =>
          simp only [Lazies.next, making] at taken
          obtain ⟨storage', stored, rfl⟩ := Option.map_eq_some_iff.1 taken
          refine ⟨.reset t p (some s.made.length) (s.deleter p), stored, fun _ => trivial, ?_, ?_, ?_⟩
          · intro v gives
            exact (Option.some.inj gives).symm
          · intro u q _
            by_cases mine : t = u ∧ p = q
            · obtain ⟨rfl, rfl⟩ := mine
              exact .inr (making ▸ List.mem_cons_self ..)
            · exact .inl (decide_eq_false mine)
          · intro u q ends
            cases ends
  | exit t =>
      simp only [Lazies.next] at taken
      split at taken
      case isFalse => cases taken
      obtain ⟨storage', stored, rfl⟩ := Option.map_eq_some_iff.1 taken
      refine ⟨.exit t, stored, fun _ => trivial, ?_, fun _ _ kept => .inl kept,
        fun _ _ ends => ⟨ends, rfl⟩⟩
      intro v gives
      cases gives

namespace Sound

theorem gets_iff (sound : s.Sound m) : s.Gets t p v ↔
    p ∈ s.storage.live ∧ s.storage.exited t = false ∧ p ∉ s.making t ∧ m t p = some v := by
  unfold Gets
  simp only [Lazies.next]
  by_cases filling : p ∈ s.making t
  · simp [filling]
  rw [if_neg filling]
  by_cases enabled : p ∈ s.storage.live ∧ s.storage.exited t = false
  · obtain ⟨alive, running⟩ := enabled
    obtain ⟨storage', stored, value, -⟩ := sound.holds.get_returns alive running
    rw [stored]
    cases result : storage'.result t with
    | none => simp [result, ← value]
    | some w => simp [result, ← value, alive, running, filling]
  · have refused : s.storage.next (.get t p) = none := by
      simp only [State.next]
      exact if_neg fun on => enabled ⟨on.1, on.2.1⟩
    rw [refused]
    constructor
    · intro same
      cases same
    · exact fun on => absurd ⟨on.1, on.2.1⟩ enabled

theorem gets_of_held (sound : s.Sound m) (held : s.storage.Held t p d v) : s.Gets t p v :=
  sound.gets_iff.2
    ⟨held.alive, held.running, sound.unfilled_of_held held, sound.value_of_held held⟩

/-- What a thread gets was made for it, and is held for it. -/
theorem held_of_gets (sound : s.Sound m) (gets : s.Gets t p v) :
    ∃ d, s.made[v]? = some (t, p, d) ∧ s.storage.Held t p d v := by
  obtain ⟨alive, running, -, value⟩ := sound.gets_iff.1 gets
  rw [← sound.holds.agrees t p running alive] at value
  obtain ⟨d', member⟩ := ThreadLocalStorage.mem_content_of_value value
  have positive := (sound.holds.id_valid alive).1
  have old : v < s.made.length := by
    by_contra new
    exact (sound.fresh v (Nat.le_of_not_lt new)).1 t _ positive d' member
  obtain ⟨⟨u, q, d⟩, found⟩ : ∃ e, s.made[v]? = some e := ⟨_, List.getElem?_eq_getElem old⟩
  rcases sound.made v u q d found with held | ⟨nowhere, -⟩
  · obtain ⟨rfl, same⟩ := held.only t _ positive d' member
    obtain rfl := sound.holds.id_inj alive held.alive same
    exact ⟨d, found, held⟩
  · exact absurd member (nowhere t _ positive d')

theorem unstored (sound : s.Sound m) {b : ThreadLocal.Action T P Nat D} (gets : s.Gets t p v)
    (gives : ∀ w, b.gives = some w → w = s.made.length) : b.gives ≠ some v := by
  intro same
  obtain ⟨d, found, -⟩ := sound.held_of_gets gets
  have old := (List.getElem?_eq_some_iff.1 found).1
  rw [gives v same] at old
  exact Nat.lt_irrefl _ old

/-- A thread keeps what it gets. -/
theorem gets_next (sound : s.Sound m) (room : s.Room a) (taken : s.next a = some s')
    (gets : s.Gets t p v) (other : a.ends t p = false) : s'.Gets t p v := by
  obtain ⟨d, -, held⟩ := sound.held_of_gets gets
  obtain ⟨b, stored, plain, gives, kept, -⟩ := next_stored taken
  obtain ⟨m', sound'⟩ := sound.next room taken
  refine sound'.gets_of_held (held.next sound.holds (plain room) stored ?_ ?_)
  · exact sound.unstored gets gives
  · rcases kept t p other with kept | filling
    · exact kept
    · exact absurd filling (sound.unfilled_of_held held)

theorem gets_run {bs : List (Action T P D)} (sound : s.Sound m) (room : Theory.Along Lazies.next Room s bs)
    (ran : Theory.run Lazies.next s bs = some s') (gets : s.Gets t p v)
    (kept : ∀ b ∈ bs, b.ends t p = false) : s'.Gets t p v := by
  induction bs generalizing s m with
  | nil =>
      cases ran
      exact gets
  | cons b bs ih =>
      obtain ⟨mid, taken, ran⟩ := Theory.run_cons_eq_some.1 ran
      obtain ⟨m', sound'⟩ := sound.next room.1 taken
      have gets' := sound.gets_next room.1 taken gets (kept b (List.mem_cons_self ..))
      exact ih sound' (room.2 mid taken) ran gets' fun c inRest =>
        kept c (List.mem_cons_of_mem _ inRest)

/-- The end of an object: its deleter is called. -/
theorem gets_ended (sound : s.Sound m) (room : s.Room a) (taken : s.next a = some s')
    (gets : s.Gets t p v) (ends : a.ends t p = true) :
    ∃ d, s.made[v]? = some (t, p, d) ∧ s'.storage.released.for v = [(Deleter.of d, v)] := by
  obtain ⟨d, found, held⟩ := sound.held_of_gets gets
  obtain ⟨b, stored, plain, gives, -, ended⟩ := next_stored taken
  obtain ⟨ends', resets⟩ := ended t p ends
  have released := (held.ended sound.holds (plain room) stored (sound.unstored gets gives) ends').2
  rw [resets] at released
  exact ⟨d, found, released⟩

/-- The functor's object is what the thread gets from then on. -/
theorem finishes (sound : s.Sound m) {outer : List P} (making : s.making t = p :: outer) :
    ∃ s', s.next (.finish t) = some s' ∧ s'.result t = some s.made.length ∧
      s'.Gets t p s.made.length := by
  have mine : p ∈ s.making t := making ▸ List.mem_cons_self ..
  obtain ⟨alive, running, -⟩ := sound.filling t p mine
  have valid : s.storage.id p ≠ 0 := Nat.ne_of_gt (sound.holds.id_valid alive).1
  obtain ⟨storage', stored⟩ : ∃ storage',
      s.storage.next (.reset t p (some s.made.length) (s.deleter p)) = some storage' :=
    ⟨_, if_pos ⟨alive, running, valid⟩⟩
  have taken : ∃ s', s.next (.finish t) = some s' ∧ s'.storage = storage' ∧
      s'.result t = some s.made.length := by
    simp only [Lazies.next, making, stored]
    exact ⟨_, rfl, rfl, if_pos rfl⟩
  obtain ⟨s', taken, rfl, result⟩ := taken
  obtain ⟨m', sound'⟩ := sound.next (a := .finish t) trivial taken
  exact ⟨s', taken, result, sound'.gets_of_held (sound.finish making stored).2.2⟩

end Sound

/-- **Thread-local objects are made once.** In every run, over all threads and with functors that
access other `ThreadLocal`s: what a thread gets was made for it and for that `ThreadLocal`; every
object that was made can be got by its thread and has not been deleted, or nobody can get it and it
has been deleted once, by its deleter; a functor that returns provides what its thread gets; the
thread gets it until the `ThreadLocal` is destroyed or the thread exits; and then it is deleted. -/
theorem made_once {as : List (Action T P D)} (room : Theory.Along next Room (new : Lazies T P D) as)
    (ran : Theory.run next new as = some s) :
    (∀ t p v, s.Gets t p v → ∃ d, s.made[v]? = some (t, p, d)) ∧
    (∀ v t p d, s.made[v]? = some (t, p, d) →
      s.Gets t p v ∧ s.storage.released.for v = [] ∨
      (∀ u q, ¬ s.Gets u q v) ∧ s.storage.released.for v = [(Deleter.of d, v)]) ∧
    (∀ t p outer, s.making t = p :: outer → ∃ s', s.next (.finish t) = some s' ∧
      s'.result t = some s.made.length ∧ s'.Gets t p s.made.length) ∧
    (∀ bs s' t p v, Theory.Along next Room s bs → Theory.run next s bs = some s' →
      s.Gets t p v → (∀ b ∈ bs, b.ends t p = false) → s'.Gets t p v) ∧
    ∀ a s' t p v, s.Room a → s.next a = some s' → s.Gets t p v → a.ends t p = true →
      ∃ d, s.made[v]? = some (t, p, d) ∧ s'.storage.released.for v = [(Deleter.of d, v)] := by
  obtain ⟨m, sound⟩ := sound_run room ran
  refine ⟨fun t p v gets => ?_, fun v t p d found => ?_,
    fun t p outer making => sound.finishes making,
    fun bs s' t p v room ran gets kept => sound.gets_run room ran gets kept,
    fun a s' t p v room taken gets ends => sound.gets_ended room taken gets ends⟩
  · obtain ⟨d, found, -⟩ := sound.held_of_gets gets
    exact ⟨d, found⟩
  · rcases sound.made v t p d found with held | ⟨nowhere, released⟩
    · exact .inl ⟨sound.gets_of_held held, held.unreleased⟩
    · refine .inr ⟨fun u q gets => ?_, released⟩
      obtain ⟨d', found', held⟩ := sound.held_of_gets gets
      have unreleased := held.unreleased
      rw [released] at unreleased
      cases unreleased

/-- The functor of `0` accesses `1`; another thread accesses `1`. -/
def nested : List (Action (Fin 2) Nat Nat) :=
  [.construct 0 (some 5), .construct 1 none, .get 0 0, .get 0 1, .get 1 1, .finish 0, .finish 1,
    .finish 0]

theorem made_once_nested : ∃ s s' : Lazies (Fin 2) Nat Nat,
    Theory.run next new nested = some s ∧ s.made = [(0, 1, none), (1, 1, none), (0, 0, some 5)] ∧
    s.Gets 0 0 2 ∧ s.Gets 1 1 1 ∧ s.next (.exit 1) = some s' ∧ s'.Gets 0 0 2 ∧
    s'.storage.released.for 1 = [(Deleter.of none, 1)] := by
  have ran : (Theory.run next new nested).map (fun s : Lazies (Fin 2) Nat Nat =>
      (decide (s.Gets 0 0 2), decide (s.Gets 1 1 1), (s.next (.exit 1)).isSome)) =
        some (true, true, true) := by decide +kernel
  have made : (Theory.run next new nested).map (fun s : Lazies (Fin 2) Nat Nat => s.made) =
      some [(0, 1, none), (1, 1, none), (0, 0, some 5)] := by decide +kernel
  obtain ⟨s, ran, seen⟩ := Option.map_eq_some_iff.1 ran
  rw [ran, Option.map_some, Option.some.injEq] at made
  simp only [Prod.mk.injEq, decide_eq_true_eq] at seen
  obtain ⟨mine, other, exits⟩ := seen
  obtain ⟨s', exited⟩ := Option.isSome_iff_exists.1 exits
  obtain ⟨-, -, -, kept, ended⟩ := made_once (by decide +kernel) ran
  have mine' := kept [.exit 1] s' 0 0 2 ⟨trivial, fun _ _ => trivial⟩
    (Theory.run_cons_eq_some.2 ⟨s', exited, rfl⟩) mine (by decide)
  obtain ⟨d, found, released⟩ := ended (.exit 1) s' 1 1 1 trivial exited other rfl
  rw [made] at found
  cases found
  exact ⟨s, s', ran, made, mine, other, exited, mine', released⟩

end Lazies

end Ccmetrics.ThreadLocal
