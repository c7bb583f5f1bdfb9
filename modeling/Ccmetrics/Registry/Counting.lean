/-
# Registry.Counting -- what the counters of a registry count

A registry, the `Striped64` of every `Counter` it has made, and any number of threads that ask it for
counters and use the pointers they get. Calls of the registry are atomic, since they hold a mutex;
`inc`, `dec`, `update` and `value` run one atomic step at a time, between the steps of all others.

A thread may keep a pointer, ask for it again or hand it to another thread: `counts_by_name` says
that all updates under one name add up in one place. `asked` is not in the source: the updates so
far, each with the name under which its pointer was obtained.
-/
import Ccmetrics.Registry.Metrics
import Ccmetrics.Striped.Added

namespace Ccmetrics.Registry

set_option autoImplicit false
set_option linter.unusedSectionVars false

open Striped (Word)

variable {T : Type} [DecidableEq T]

/-- The registry, and `value_` of the `CounterImpl` of every counter. -/
structure Counters (T : Type) where
  history : History
  values : Striped.State T Addr
  asked : List (String × Word)

namespace Counters

/-- What can happen: a call of the registry, a call of a counter through a pointer that the registry
has returned for `name`, a step of a thread, the deletion of a retired storage. -/
inductive Action (T : Type) where
  | call (c : Call)
  | update (t : T) (name : String) (counter : Addr) (delta : Word)
  | value (t : T) (counter : Addr)
  | step (t : T)
  | reclaim (storage : Nat)
  deriving DecidableEq

/-- `CounterImpl::inc`. -/
def Action.inc (t : T) (name : String) (counter : Addr) : Action T := .update t name counter 1

/-- `CounterImpl::dec`. -/
def Action.dec (t : T) (name : String) (counter : Addr) : Action T := .update t name counter (-1)

def new (hashCode : T → Word) : Counters T := ⟨⟨.init, []⟩, .init hashCode, []⟩

/-- What happens when an action is taken; `none` if it cannot be taken. -/
def next [Fintype T] (s : Counters T) : Action T → Option (Counters T)
  | .call (.get .counter name) =>
      match s.history.registry.counters_.metrics.lookup name with
      | some _ => some { s with history := s.history.call (.get .counter name) }
      | none =>
          -- `new Counter()`
          (s.values.next (.make s.history.registry.fresh none)).map fun values =>
            { s with history := s.history.call (.get .counter name), values := values }
  | .call c => some { s with history := s.history.call c }
  | .update t name counter delta =>
      if s.history.registry.counters_.metrics.lookup name = some counter then
        (s.values.next (.add t counter delta)).map fun values =>
          { s with values := values, asked := s.asked ++ [(name, delta)] }
      else none
  | .value t counter =>
      (s.values.next (.value t counter)).map fun values => { s with values := values }
  | .step t => (s.values.next (.step t)).map fun values => { s with values := values }
  | .reclaim storage =>
      (s.values.next (.reclaim storage)).map fun values => { s with values := values }

/-- The sum of the updates made under a name. -/
def sum (asked : List (String × Word)) (name : String) : Word :=
  ((asked.filter fun x => decide (x.1 = name)).map Prod.snd).sum

variable {s s' : Counters T} {t u : T} {name : String} {counter : Addr}
  {table : Theory.Numbering (Kind × String)}

theorem sum_append (asked : List (String × Word)) (x : String × Word) :
    sum (asked ++ [x]) name = sum asked name + if x.1 = name then x.2 else 0 := by
  by_cases same : x.1 = name <;> simp [sum, same]

/-! ## What holds in every run -/

structure Sound (s : Counters T) : Prop where
  history : ∃ table, s.history.Sound table
  books : ∀ c, s.values.Books c
  live : ∀ c, s.values.live c = true ↔ ∃ name, .get .counter name c ∈ s.history.events
  unborn : ∀ c, s.values.live c ≠ true → Striped.added s.values.log c = 0
  sums : ∀ name c, .get .counter name c ∈ s.history.events →
    Striped.added s.values.log c = sum s.asked name
  named : ∀ x ∈ s.asked, ∃ c, .get .counter x.1 c ∈ s.history.events

theorem sound_new (hashCode : T → Word) : (new hashCode).Sound where
  history := ⟨.empty, sound_init⟩
  books c := Striped.State.books_init hashCode c
  live c := by simp [new, Striped.State.init]
  unborn c _ := by simp [new, Striped.State.init, Striped.added]
  sums name c member := by simp [new] at member
  named x member := by simp [new] at member

/-- The registry knows the pointers that it has returned. -/
theorem Sound.known (sound : s.Sound) :
    s.history.registry.counters_.metrics.lookup name = some counter ↔
      .get .counter name counter ∈ s.history.events := by
  obtain ⟨table, history⟩ := sound.history
  rw [← history.recorded]
  exact iff_of_eq (congrArg (· = some counter) (history.numbers.lookup .counter name))

/-- One pointer for one name. -/
theorem Sound.identity (sound : s.Sound) {name' : String} {counter' : Addr}
    (got : .get .counter name counter ∈ s.history.events)
    (got' : .get .counter name' counter' ∈ s.history.events) :
    counter = counter' ↔ name = name' := by
  obtain ⟨table, history⟩ := sound.history
  have same := Theory.Numbering.same_iff ((history.recorded ..).2 got) ((history.recorded ..).2 got')
  rw [same, Prod.mk.injEq]
  exact and_iff_right rfl

/-- A step inside a counter. -/
theorem Sound.inner [Fintype T] (sound : s.Sound) {a : Striped.Action T Addr}
    {values : Striped.State T Addr} (taken : s.values.next a = some values)
    (quiet : (∀ this k, a ≠ .make this k) ∧ (∀ t this v, a ≠ .add t this v) ∧
      ∀ t this, a ≠ .reset t this) : ({ s with values := values } : Counters T).Sound := by
  have live := Striped.State.live_same taken quiet.1
  have added : ∀ c, Striped.added values.log c = Striped.added s.values.log c := by
    intro c
    rw [Striped.State.added_next taken]
    cases a with
    | add t this v => exact absurd rfl (quiet.2.1 t this v)
    | _ => simp
  refine ⟨sound.history, fun c => (sound.books c).next (fun t => quiet.2.2 t c) taken,
    fun c => ?_, fun c dead => ?_, fun name c got => ?_, sound.named⟩
  · rw [live]
    exact sound.live c
  · rw [added]
    exact sound.unborn c (live ▸ dead)
  · rw [added]
    exact sound.sums name c got

/-- A call of the registry that makes no counter. -/
theorem Sound.ask (sound : s.Sound) (c : Call)
    (same : ∀ name counter, .get .counter name counter ∈ (s.history.call c).events ↔
      .get .counter name counter ∈ s.history.events) :
    ({ s with history := s.history.call c } : Counters T).Sound := by
  obtain ⟨table, history⟩ := sound.history
  refine ⟨history.call c, sound.books, fun a => ?_, sound.unborn, fun name a got => ?_,
    fun x asked => ?_⟩
  · rw [sound.live]
    exact exists_congr fun name => (same name a).symm
  · exact sound.sums name a ((same name a).1 got)
  · obtain ⟨a, got⟩ := sound.named x asked
    exact ⟨a, (same _ _).2 got⟩

/-- `new Counter()`. -/
theorem Sound.make [Fintype T] (sound : s.Sound) {values : Striped.State T Addr}
    (isNew : s.history.registry.counters_.metrics.lookup name = none)
    (taken : s.values.next (.make s.history.registry.fresh none) = some values) :
    ({ s with history := s.history.call (.get .counter name), values := values } :
      Counters T).Sound := by
  obtain ⟨table, history⟩ := sound.history
  obtain ⟨notLive, live⟩ := Striped.State.live_make taken
  have unknown : (s.history.registry.maps .counter).metrics.lookup name = none := isNew
  obtain ⟨ret, -, -, -⟩ := MetricRegistryImpl.get_new unknown
  have events : ∀ name' c, .get .counter name' c ∈ (s.history.call (.get .counter name)).events ↔
      .get .counter name' c ∈ s.history.events ∨ name' = name ∧ c = s.history.registry.fresh := by
    intro name' c
    simp [History.call, ret]
  have added : ∀ c, Striped.added values.log c = Striped.added s.values.log c := by
    intro c
    rw [Striped.State.added_next taken]
    simp
  have unasked : sum s.asked name = 0 := by
    have none_ : (s.asked.filter fun x => decide (x.1 = name)) = [] := by
      refine List.filter_eq_nil_iff.2 fun x asked same => ?_
      obtain ⟨c, got⟩ := sound.named x asked
      rw [of_decide_eq_true same, ← sound.known, isNew] at got
      cases got
    rw [sum, none_]
    rfl
  refine ⟨history.call (.get .counter name), fun c => (sound.books c).next (by simp) taken,
    fun c => ?_, fun c dead => ?_, fun name' c got => ?_, fun x asked => ?_⟩
  · simp only [live, events]
    split
    · rename_i same
      exact ⟨fun _ => ⟨name, .inr ⟨rfl, same⟩⟩, fun _ => rfl⟩
    · rename_i other
      rw [sound.live]
      exact exists_congr fun name' => by simp [other]
  · rw [added]
    refine sound.unborn c fun alive => dead ?_
    rw [live]
    split
    · rfl
    · exact alive
  · rw [added]
    rcases (events name' c).1 got with old | ⟨rfl, rfl⟩
    · exact sound.sums name' c old
    · rw [unasked]
      exact sound.unborn _ notLive
  · obtain ⟨c, got⟩ := sound.named x asked
    exact ⟨c, (events _ _).2 (.inl got)⟩

/-- `Counter::update`. -/
theorem Sound.update [Fintype T] (sound : s.Sound) {delta : Word} {values : Striped.State T Addr}
    (known : s.history.registry.counters_.metrics.lookup name = some counter)
    (taken : s.values.next (.add t counter delta) = some values) :
    ({ s with values := values, asked := s.asked ++ [(name, delta)] } : Counters T).Sound := by
  have live := Striped.State.live_same taken (by simp)
  have got := sound.known.1 known
  have added : ∀ c, Striped.added values.log c =
      Striped.added s.values.log c + if counter = c then delta else 0 :=
    fun c => Striped.State.added_next taken
  refine ⟨sound.history, fun c => (sound.books c).next (by simp) taken, fun c => ?_,
    fun c dead => ?_, fun name' c got' => ?_, fun x asked => ?_⟩
  · rw [live]
    exact sound.live c
  · have other : counter ≠ c := by
      rintro rfl
      exact dead (live ▸ (sound.live counter).2 ⟨name, got⟩)
    rw [added, if_neg other, add_zero]
    exact sound.unborn c (live ▸ dead)
  · rw [added, sum_append, sound.sums name' c got']
    congr 1
    exact if_congr (sound.identity got got') rfl rfl
  · rcases List.mem_append.1 asked with old | new
    · exact sound.named x old
    · cases List.mem_singleton.1 new
      exact ⟨counter, got⟩

theorem Sound.next [Fintype T] (sound : s.Sound) {a : Action T} (taken : s.next a = some s') :
    s'.Sound := by
  cases a with
  | call c =>
      cases c with
      | list kind =>
          cases taken
          exact sound.ask _ fun name counter => by simp [History.call]
      | get kind name =>
          cases kind with
          | timer | meter =>
              cases taken
              exact sound.ask _ fun name' counter => by simp [History.call]
          | counter =>
              simp only [Counters.next] at taken
              split at taken
              · rename_i counter known
                cases taken
                refine sound.ask _ fun name' counter' => ?_
                have named : (s.history.registry.maps .counter).metrics.lookup name = some counter :=
                  known
                have ret := congrArg Prod.snd (MetricRegistryImpl.get_known named)
                have got := sound.known.1 known
                simp only [History.call, ret, List.mem_append, List.mem_singleton]
                constructor
                · rintro (old | same)
                  · exact old
                  · rw [same]
                    exact got
                · exact .inl
              · rename_i isNew
                obtain ⟨values, made, rfl⟩ := Option.map_eq_some_iff.1 taken
                exact sound.make isNew made
  | update t name counter delta =>
      simp only [Counters.next] at taken
      split at taken
      · rename_i known
        obtain ⟨values, added, rfl⟩ := Option.map_eq_some_iff.1 taken
        exact sound.update known added
      · cases taken
  | value | step | reclaim =>
      obtain ⟨values, inner, rfl⟩ := Option.map_eq_some_iff.1 taken
      exact sound.inner inner ⟨by simp, by simp, by simp⟩

theorem sound_run [Fintype T] {hashCode : T → Word} {as : List (Action T)}
    (ran : Theory.run Counters.next (new hashCode) as = some s) : s.Sound :=
  Theory.run_induction (P := Sound) (fun _ _ _ sound taken => sound.next taken)
    (sound_new hashCode) ran

/-- An action during a call of `value` on `counter` by thread `t`: anything but an update of this
counter, or another call by `t` itself. -/
def Beside (t : T) (counter : Addr) : Action T → Prop
  | .update u _ other _ => u ≠ t ∧ other ≠ counter
  | .value u _ => u ≠ t
  | _ => True

/-- The call of `value` goes on. -/
theorem reading_next [Fintype T] {r : Striped.State T Addr} {n : Nat}
    (reading : Striped.State.Reading r t counter n s.values) {a : Action T}
    (beside : Beside t counter a) (taken : s.next a = some s') :
    Striped.State.Reading r t counter (n + if a = .step t then 1 else 0) s'.values := by
  cases a with
  | call c =>
      cases c with
      | list kind =>
          cases taken
          exact reading
      | get kind name =>
          cases kind with
          | timer | meter =>
              cases taken
              exact reading
          | counter =>
              simp only [Counters.next] at taken
              split at taken
              · cases taken
                exact reading
              · obtain ⟨values, made, rfl⟩ := Option.map_eq_some_iff.1 taken
                simpa using reading.next (a := .make _ none) trivial made
  | update u name other delta =>
      simp only [Counters.next] at taken
      split at taken
      · obtain ⟨values, added, rfl⟩ := Option.map_eq_some_iff.1 taken
        simpa using reading.next (a := .add u other delta) beside added
      · cases taken
  | value u other =>
      obtain ⟨values, inner, rfl⟩ := Option.map_eq_some_iff.1 taken
      simpa using reading.next (a := .value u other) beside inner
  | step u =>
      obtain ⟨values, inner, rfl⟩ := Option.map_eq_some_iff.1 taken
      simpa using reading.next (a := .step u) trivial inner
  | reclaim storage =>
      obtain ⟨values, inner, rfl⟩ := Option.map_eq_some_iff.1 taken
      simpa using reading.next (a := .reclaim storage) trivial inner

theorem reading_run [Fintype T] {r : Striped.State T Addr} {n : Nat} {as : List (Action T)}
    (reading : Striped.State.Reading r t counter n s.values)
    (beside : ∀ a ∈ as, Beside t counter a) (ran : Theory.run Counters.next s as = some s') :
    Striped.State.Reading r t counter (n + as.count (.step t)) s'.values := by
  induction as generalizing s n with
  | nil =>
      simp only [Theory.run_nil, Option.some.injEq] at ran
      exact ran ▸ reading
  | cons a rest ih =>
      obtain ⟨mid, taken, ran⟩ := Theory.run_cons_eq_some.1 ran
      have later := ih (reading_next reading (beside a (List.mem_cons_self ..)) taken)
        (fun b inRest => beside b (List.mem_cons_of_mem _ inRest)) ran
      have count : (a :: rest).count (.step t) =
          (if a = .step t then 1 else 0) + rest.count (.step t) := by
        rw [List.count_cons, Nat.add_comm]
        simp
      rw [count, ← Nat.add_assoc]
      exact later

/-- **Counters count by name.** Take any run of a new registry and any number of threads, and a
counter that some call of `counter(name)` has returned. When no update of it is in progress, a call
of `value` that meets none returns the sum, modulo 2^64, of all updates made so far through any
pointer that was obtained under this name, by any thread -- and of no others. It does return: it is
never stuck, and takes at most six steps and one for each cell. -/
theorem counts_by_name [Fintype T] {hashCode : T → Word} {as bs : List (Action T)}
    (ran : Theory.run next (new hashCode) as = some s)
    (got : .get .counter name counter ∈ s.history.events)
    (quiet : ∀ u, (s.values.pc u).adding ≠ some counter)
    (onward : Theory.run next s (.value t counter :: bs) = some s')
    (beside : ∀ b ∈ bs, Beside t counter b) :
    (s'.values.pc t = .idle → s'.values.result t = sum s.asked name) ∧
    (s'.values.pc t ≠ .idle → (s'.next (.step t)).isSome) ∧
    bs.count (.step t) ≤ 6 + (s.values.cells counter).length := by
  have sound := sound_run ran
  obtain ⟨mid, taken, onward⟩ := Theory.run_cons_eq_some.1 onward
  obtain ⟨values, called, rfl⟩ := Option.map_eq_some_iff.1 taken
  have books := sound.books counter
  have reading := reading_run (s := { s with values := values })
    (books.reading quiet called) beside onward
  refine ⟨fun idle => ?_, fun running => ?_, ?_⟩
  · have here := reading.here
    rw [idle] at here
    rw [here.1, books.total_added quiet, sound.sums name counter got]
  · obtain ⟨later, stepped⟩ := Option.isSome_iff_exists.1
      (Striped.State.readsAt_progress reading.here running)
    simp [Counters.next, stepped]
  · have bound := Striped.State.readsAt_bound reading.here
    omega

/-- Two threads count under `"hits"`, each with a pointer of its own, and get in each other's way;
then one of them counts under `"misses"`. -/
def twoThreads : List (Action (Fin 2)) :=
  Action.call (.get .counter "hits") :: .call (.get .counter "misses") :: .update 0 "hits" 0 5 ::
    .call (.get .counter "hits") :: .inc 1 "hits" 0 :: List.replicate 2 (.step 0) ++
      List.replicate 3 (Action.step 1) ++ List.replicate 7 (Action.step 0) ++
        Action.dec 1 "misses" 1 :: List.replicate 3 (.step 1)

theorem counts_by_name_beside : ∃ s s' : Counters (Fin 2),
    Theory.run next (new fun _ => 0) twoThreads = some s ∧
    Theory.run next s (.value 0 0 :: List.replicate 8 (.step 0)) = some s' ∧
    s'.values.result 0 = 6 := by
  have played : ((Theory.run next (new fun _ => 0 : Counters (Fin 2)) twoThreads).bind fun s =>
      (Theory.run next s (.value 0 0 :: List.replicate 8 (.step 0))).map fun s' =>
        (s.history.registry.counters_.metrics.lookup "hits",
          decide (∀ u, s.values.pc u = .idle), sum s.asked "hits", s'.values.pc 0)) =
            some (some 0, true, 6, .idle) := by
    decide +kernel
  obtain ⟨s, ran, later⟩ := Option.bind_eq_some_iff.1 played
  obtain ⟨s', onward, left⟩ := Option.map_eq_some_iff.1 later
  simp only [Prod.mk.injEq, decide_eq_true_eq] at left
  obtain ⟨known, idle, sums, done⟩ := left
  have quiet : ∀ u, (s.values.pc u).adding ≠ some 0 := fun u => by
    rw [idle u]
    simp [Striped.PC.adding]
  have counts := (counts_by_name ran ((sound_run ran).known.1 known) quiet onward
    (by simp [Beside])).1 done
  exact ⟨s, s', ran, onward, counts.trans sums⟩

end Counters

end Ccmetrics.Registry
