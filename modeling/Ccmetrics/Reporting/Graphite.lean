/-
# Reporting.Graphite -- the connection of the graphite reporter

The reporter keeps one `state_` and one `stream_`, and its callbacks do not say which stream they
are for. Connects and writes hand a callback to the event loop, which delivers it at any later
time: `connects` and `writes` hold the streams of the callbacks that are still to come, and
every run is an order of timer expirations and deliveries. The assertions are compiled out, so
a callback that finds another state than the one it asserts goes on.

* `deliverable`: a callback that is pending can be delivered in every state of every run.
* `Sound`: a write whose stream has not failed yet is on the open stream.
* `consistent_iff`: the assertions hold along a run if and only if no stream has two writes that
  fail. The second failure finds the reporter disconnected, or closes a stream that is not its own.
-/
import Mathlib.Data.List.Nodup
import Ccmetrics.Theory.Run

namespace Ccmetrics.Reporting

set_option autoImplicit false

inductive State where
  | disconnected
  | connecting
  | connected
  deriving DecidableEq, Repr

/-- The reporter with the callbacks the event loop still owes it. A stream is its number in the
order of creation. -/
structure GraphiteReporter where
  state : State
  stream : Option Nat
  streams : Nat
  connects : List Nat
  writes : List Nat
  closed : List Nat
  deriving DecidableEq, Repr

inductive Action where
  | report
  | connectComplete (stream : Nat)
  | connectError (stream : Nat)
  | writeComplete (stream : Nat)
  | writeError (stream : Nat)
  deriving DecidableEq, Repr

namespace GraphiteReporter

def init : GraphiteReporter := ⟨.disconnected, none, 0, [], [], []⟩

def connect (r : GraphiteReporter) : GraphiteReporter :=
  { r with
    state := .connecting
    stream := some r.streams
    streams := r.streams + 1
    connects := r.streams :: r.connects }

/-- `none` is the write through a null `stream_`. -/
def report (r : GraphiteReporter) : Option GraphiteReporter :=
  match r.state with
  | .disconnected => some r.connect
  | .connecting => some r
  | .connected => r.stream.map fun current => { r with writes := current :: r.writes }

namespace ConnectCallback

def complete (r : GraphiteReporter) : Option GraphiteReporter :=
  { r with state := .connected }.report

def error (r : GraphiteReporter) : GraphiteReporter := { r with state := .disconnected }

end ConnectCallback

namespace WriteCallback

def complete (r : GraphiteReporter) : GraphiteReporter := r

/-- `stream_` is whatever stream the reporter has now. -/
def error (r : GraphiteReporter) : Option GraphiteReporter :=
  r.stream.map fun current =>
    { r with state := .disconnected, closed := current :: r.closed }

end WriteCallback

/-- The event loop runs the timer, or delivers one of the callbacks it owes. -/
def next (r : GraphiteReporter) : Action → Option GraphiteReporter
  | .report => r.report
  | .connectComplete k =>
      if k ∈ r.connects then
        ConnectCallback.complete { r with connects := r.connects.erase k }
      else none
  | .connectError k =>
      if k ∈ r.connects then
        some (ConnectCallback.error { r with connects := r.connects.erase k })
      else none
  | .writeComplete k =>
      if k ∈ r.writes then
        some (WriteCallback.complete { r with writes := r.writes.erase k })
      else none
  | .writeError k =>
      if k ∈ r.writes then
        WriteCallback.error { r with writes := r.writes.erase k }
      else none

/-- What the source asserts, and what a callback takes for granted: `connect()` is entered in
state `DISCONNECTED` with no connect outstanding, connect callbacks find `CONNECTING`, and a write
that fails finds `CONNECTED` with its own stream. -/
def Consistent (r : GraphiteReporter) : Action → Prop
  | .report => r.state = .disconnected → r.connects = []
  | .connectComplete _ => r.state = .connecting
  | .connectError _ => r.state = .connecting
  | .writeComplete _ => True
  | .writeError k => r.state = .connected ∧ r.stream = some k

instance (r : GraphiteReporter) (a : Action) : Decidable (r.Consistent a) := by
  cases a <;> unfold Consistent <;> infer_instance

/-! ## Every pending callback can be delivered -/

/-- The callbacks the event loop still owes. -/
def Pending (r : GraphiteReporter) : Action → Prop
  | .report => True
  | .connectComplete k => k ∈ r.connects
  | .connectError k => k ∈ r.connects
  | .writeComplete k => k ∈ r.writes
  | .writeError k => k ∈ r.writes

/-- Whoever needs the stream comes after the first `connect()`. -/
def Streamed (r : GraphiteReporter) : Prop :=
  r.stream = none → r.state = .disconnected ∧ r.connects = [] ∧ r.writes = []

theorem report_streamed {r r' : GraphiteReporter} (streamed : r.Streamed)
    (taken : r.report = some r') : r'.Streamed := by
  unfold report at taken
  split at taken
  case h_1 => cases taken; intro none_; exact absurd none_ (Option.some_ne_none _)
  case h_2 => exact Option.some.inj taken ▸ streamed
  case h_3 connected =>
      obtain ⟨current, open_, rfl⟩ := Option.map_eq_some_iff.1 taken
      intro none_
      exact absurd (open_.symm.trans none_) (Option.some_ne_none _)

theorem next_streamed {r r' : GraphiteReporter} {a : Action} (streamed : r.Streamed)
    (taken : r.next a = some r') : r'.Streamed := by
  cases a with
  | report => exact report_streamed streamed taken
  | connectComplete k =>
      simp only [next, Option.ite_none_right_eq_some] at taken
      obtain ⟨pending, taken⟩ := taken
      refine report_streamed (fun none_ => ?_) taken
      rw [(streamed none_).2.1] at pending
      exact absurd pending List.not_mem_nil
  | connectError k =>
      simp only [next, Option.ite_none_right_eq_some, Option.some.injEq] at taken
      obtain ⟨pending, rfl⟩ := taken
      intro none_
      rw [(streamed none_).2.1] at pending
      exact absurd pending List.not_mem_nil
  | writeComplete k =>
      simp only [next, Option.ite_none_right_eq_some, Option.some.injEq] at taken
      obtain ⟨pending, rfl⟩ := taken
      intro none_
      rw [(streamed none_).2.2] at pending
      exact absurd pending List.not_mem_nil
  | writeError k =>
      simp only [next, Option.ite_none_right_eq_some] at taken
      obtain ⟨pending, taken⟩ := taken
      obtain ⟨current, open_, rfl⟩ := Option.map_eq_some_iff.1 taken
      intro none_
      exact absurd (open_.symm.trans none_) (Option.some_ne_none _)

theorem report_some {r : GraphiteReporter} (present : r.state = .connected → r.stream ≠ none) :
    ∃ r', r.report = some r' := by
  unfold report
  split
  case h_1 => exact ⟨_, rfl⟩
  case h_2 => exact ⟨_, rfl⟩
  case h_3 connected =>
      obtain ⟨current, open_⟩ := Option.ne_none_iff_exists'.1 (present connected)
      exact ⟨_, by rw [open_]; rfl⟩

/-- **Deliveries never get stuck**: after every run the timer and each pending callback run to
their end, so no order of deliveries is left out. -/
theorem deliverable {as : List Action} {r : GraphiteReporter} {a : Action}
    (ran : Theory.run next init as = some r) :
    (∃ r', r.next a = some r') ↔ r.Pending a := by
  have streamed : r.Streamed :=
    Theory.run_induction (fun _ _ _ => next_streamed) (fun _ => ⟨rfl, rfl, rfl⟩) ran
  have present : (r.state ≠ .disconnected ∨ r.connects ≠ [] ∨ r.writes ≠ []) →
      r.stream ≠ none := by
    intro needed none_
    obtain ⟨state, connects, writes⟩ := streamed none_
    rcases needed with needed | needed | needed <;> exact needed (by assumption)
  cases a with
  | report =>
      refine ⟨fun _ => trivial, fun _ => report_some fun connected => present (.inl ?_)⟩
      rw [connected]
      exact State.noConfusion
  | connectComplete k =>
      simp only [next, Pending, Option.ite_none_right_eq_some, exists_and_left]
      exact ⟨And.left, fun pending => ⟨pending, report_some fun _ =>
        present (.inr (.inl (List.ne_nil_of_mem pending)))⟩⟩
  | connectError k =>
      simp only [next, Pending, Option.ite_none_right_eq_some, exists_and_left]
      exact ⟨And.left, fun pending => ⟨pending, _, rfl⟩⟩
  | writeComplete k =>
      simp only [next, Pending, Option.ite_none_right_eq_some, exists_and_left]
      exact ⟨And.left, fun pending => ⟨pending, _, rfl⟩⟩
  | writeError k =>
      simp only [next, Pending, Option.ite_none_right_eq_some, exists_and_left]
      refine ⟨And.left, fun pending => ⟨pending, ?_⟩⟩
      obtain ⟨current, open_⟩ :=
        Option.ne_none_iff_exists'.1 (present (.inr (.inr (List.ne_nil_of_mem pending))))
      exact ⟨_, Option.map_eq_some_iff.2 ⟨current, open_, rfl⟩⟩

/-! ## One failure for each stream -/

/-- The streams of the writes that failed, in the order of the deliveries. -/
def failures : List Action → List Nat :=
  List.filterMap fun
    | .writeError k => some k
    | _ => none

/-- What the state says about the connect callbacks and the stream. -/
def Linked (r : GraphiteReporter) (failed : List Nat) : Prop :=
  match r.state with
  | .disconnected => r.connects = []
  | .connecting => ∃ k, r.connects = [k] ∧ r.stream = some k ∧ k ∉ failed
  | .connected => r.connects = [] ∧ ∃ k, r.stream = some k ∧ k ∉ failed

/-- The reporter after `failed` have failed, once each. -/
structure Sound (r : GraphiteReporter) (failed : List Nat) : Prop where
  linked : r.Linked failed
  issued : ∀ k ∈ r.writes, k ∉ failed → r.state = .connected ∧ r.stream = some k
  created : ∀ k ∈ failed, k < r.streams
  numbered : ∀ k ∈ r.writes, k < r.streams
  opened : ∀ k, r.stream = some k → k < r.streams

theorem sound_init : init.Sound [] :=
  ⟨rfl, fun _ member => (nomatch member), fun _ member => (nomatch member),
    fun _ member => (nomatch member), fun _ none_ => (nomatch none_)⟩

namespace Sound

variable {r r' : GraphiteReporter} {failed : List Nat}

theorem connecting (sound : r.Sound failed) (state : r.state = .connecting) :
    ∃ k, r.connects = [k] ∧ r.stream = some k ∧ k ∉ failed := by
  have linked := sound.linked
  unfold Linked at linked
  rw [state] at linked
  exact linked

theorem connected (sound : r.Sound failed) (state : r.state = .connected) :
    r.connects = [] ∧ ∃ k, r.stream = some k ∧ k ∉ failed := by
  have linked := sound.linked
  unfold Linked at linked
  rw [state] at linked
  exact linked

theorem disconnected (sound : r.Sound failed) (state : r.state = .disconnected) :
    r.connects = [] := by
  have linked := sound.linked
  unfold Linked at linked
  rw [state] at linked
  exact linked

/-- A connect callback is owed in state `CONNECTING` only. -/
theorem awaiting {k : Nat} (sound : r.Sound failed) (pending : k ∈ r.connects) :
    r.state = .connecting := by
  cases state : r.state with
  | disconnected =>
      rw [sound.disconnected state] at pending
      exact absurd pending List.not_mem_nil
  | connecting => rfl
  | connected =>
      rw [(sound.connected state).1] at pending
      exact absurd pending List.not_mem_nil

/-- Outside `CONNECTED` every write that is still out belongs to a stream that failed. -/
theorem stale {k : Nat} (sound : r.Sound failed) (state : r.state ≠ .connected)
    (pending : k ∈ r.writes) : k ∈ failed := by
  by_contra unfailed
  exact state (sound.issued k pending unfailed).1

theorem connect (sound : r.Sound failed) (state : r.state = .disconnected) :
    r.connect.Sound failed where
  linked := by
    have unfailed : r.streams ∉ failed := fun member => by
      have := sound.created _ member
      omega
    show ∃ k, r.streams :: r.connects = [k] ∧ some r.streams = some k ∧ k ∉ failed
    exact ⟨r.streams, by rw [sound.disconnected state], rfl, unfailed⟩
  issued k pending unfailed :=
    absurd (sound.stale (by rw [state]; exact State.noConfusion) pending) unfailed
  created k member := Nat.lt_succ_of_lt (sound.created k member)
  numbered k pending := Nat.lt_succ_of_lt (sound.numbered k pending)
  opened k current := Option.some.inj current ▸ Nat.lt_succ_self _

/-- A report in state `CONNECTED` writes to the open stream. -/
theorem write {current : Nat} (sound : r.Sound failed) (state : r.state = .connected)
    (open_ : r.stream = some current) :
    { r with writes := current :: r.writes }.Sound failed where
  linked := sound.linked
  issued k pending unfailed := by
    rcases List.mem_cons.1 pending with rfl | pending
    · exact ⟨state, open_⟩
    · exact sound.issued k pending unfailed
  created := sound.created
  numbered k pending := by
    rcases List.mem_cons.1 pending with rfl | pending
    · exact sound.opened k open_
    · exact sound.numbered k pending
  opened := sound.opened

theorem report (sound : r.Sound failed) (taken : r.report = some r') : r'.Sound failed := by
  unfold GraphiteReporter.report at taken
  split at taken
  case h_1 state => exact Option.some.inj taken ▸ sound.connect state
  case h_2 => exact Option.some.inj taken ▸ sound
  case h_3 state =>
      obtain ⟨current, open_, rfl⟩ := Option.map_eq_some_iff.1 taken
      exact sound.write state open_

theorem connectComplete {k : Nat} (sound : r.Sound failed) (pending : k ∈ r.connects) :
    { r with state := .connected, connects := r.connects.erase k }.Sound failed := by
  have state := sound.awaiting pending
  obtain ⟨current, connects, open_, unfailed⟩ := sound.connecting state
  rw [connects] at pending
  obtain rfl := List.mem_singleton.1 pending
  refine ⟨?_, fun j out live => ?_, sound.created, sound.numbered, sound.opened⟩
  · show r.connects.erase k = [] ∧ ∃ j, r.stream = some j ∧ j ∉ failed
    exact ⟨by rw [connects, List.erase_cons_head], k, open_, unfailed⟩
  · exact absurd (sound.stale (by rw [state]; exact State.noConfusion) out) live

theorem connectError {k : Nat} (sound : r.Sound failed) (pending : k ∈ r.connects) :
    { r with state := .disconnected, connects := r.connects.erase k }.Sound failed := by
  have state := sound.awaiting pending
  obtain ⟨current, connects, -, -⟩ := sound.connecting state
  rw [connects] at pending
  obtain rfl := List.mem_singleton.1 pending
  refine ⟨?_, fun j out live => ?_, sound.created, sound.numbered, sound.opened⟩
  · show r.connects.erase k = []
    rw [connects, List.erase_cons_head]
  · exact absurd (sound.stale (by rw [state]; exact State.noConfusion) out) live

theorem writeComplete (k : Nat) (sound : r.Sound failed) :
    { r with writes := r.writes.erase k }.Sound failed :=
  ⟨sound.linked, fun j out => sound.issued j (List.mem_of_mem_erase out), sound.created,
    fun j out => sound.numbered j (List.mem_of_mem_erase out), sound.opened⟩

/-- The first failure of a stream. -/
theorem writeError {k : Nat} (current : Nat) (sound : r.Sound failed) (pending : k ∈ r.writes)
    (first : k ∉ failed) :
    { r with
      state := .disconnected
      writes := r.writes.erase k
      closed := current :: r.closed }.Sound (k :: failed) := by
  obtain ⟨state, own⟩ := sound.issued k pending first
  refine ⟨(sound.connected state).1, fun j out live => ?_, fun j member => ?_,
    fun j out => sound.numbered j (List.mem_of_mem_erase out), sound.opened⟩
  · -- Whoever else is out and has not failed is on the stream that just did.
    have unfailed : j ∉ failed := fun member => live (List.mem_cons_of_mem _ member)
    have same := (sound.issued j (List.mem_of_mem_erase out) unfailed).2
    cases Option.some.inj (own.symm.trans same)
    exact absurd (List.mem_cons_self ..) live
  · rcases List.mem_cons.1 member with rfl | old
    · exact sound.numbered j pending
    · exact sound.created j old

/-- A second failure of a stream finds the reporter elsewhere. -/
theorem repeated {k : Nat} (sound : r.Sound failed) (again : k ∈ failed) :
    ¬ r.Consistent (.writeError k) := by
  rintro ⟨state, own⟩
  obtain ⟨-, current, open_, unfailed⟩ := sound.connected state
  cases Option.some.inj (own.symm.trans open_)
  exact unfailed again

/-- One delivery, unless it is the second failure of a stream. -/
theorem step {a : Action} (sound : r.Sound failed) (taken : r.next a = some r')
    (first : ∀ k, a = .writeError k → k ∉ failed) :
    r.Consistent a ∧ r'.Sound (failures [a] ++ failed) := by
  cases a with
  | report => exact ⟨sound.disconnected, sound.report taken⟩
  | connectComplete k =>
      simp only [next, Option.ite_none_right_eq_some] at taken
      obtain ⟨pending, taken⟩ := taken
      exact ⟨sound.awaiting pending, (sound.connectComplete pending).report taken⟩
  | connectError k =>
      simp only [next, Option.ite_none_right_eq_some, Option.some.injEq] at taken
      obtain ⟨pending, rfl⟩ := taken
      exact ⟨sound.awaiting pending, sound.connectError pending⟩
  | writeComplete k =>
      simp only [next, Option.ite_none_right_eq_some, Option.some.injEq] at taken
      obtain ⟨pending, rfl⟩ := taken
      exact ⟨trivial, sound.writeComplete k⟩
  | writeError k =>
      simp only [next, Option.ite_none_right_eq_some] at taken
      obtain ⟨pending, taken⟩ := taken
      obtain ⟨current, open_, rfl⟩ := Option.map_eq_some_iff.1 taken
      have unfailed := first k rfl
      exact ⟨sound.issued k pending unfailed, sound.writeError _ pending unfailed⟩

end Sound

/-- The failures of a run after `failed`: none of them for a second time. -/
theorem along_iff {as : List Action} {r r' : GraphiteReporter} {failed : List Nat}
    (sound : r.Sound failed) (ran : Theory.run next r as = some r') :
    Theory.Along next Consistent r as ↔
      (failures as).Nodup ∧ ∀ k ∈ failures as, k ∉ failed := by
  induction as generalizing r failed with
  | nil => exact ⟨fun _ => ⟨List.nodup_nil, fun _ member => (nomatch member)⟩, fun _ => trivial⟩
  | cons a rest ih =>
      obtain ⟨mid, taken, ran⟩ := Theory.run_cons_eq_some.1 ran
      have only : Theory.Along next Consistent r (a :: rest) ↔
          r.Consistent a ∧ Theory.Along next Consistent mid rest := by
        simp [Theory.Along, taken]
      rw [only]
      by_cases second : ∃ k ∈ failed, a = .writeError k
      · obtain ⟨k, again, rfl⟩ := second
        constructor
        · intro met
          exact absurd met.1 (sound.repeated again)
        · intro once
          exact absurd again (once.2 k (List.mem_cons_self ..))
      · obtain ⟨consistent, after⟩ :=
          sound.step taken fun k is again => second ⟨k, again, is⟩
        rw [ih after ran]
        cases a with
        | writeError k =>
            have unfailed : k ∉ failed := fun again => second ⟨k, again, rfl⟩
            have head : failures (.writeError k :: rest) = k :: failures rest := rfl
            rw [head, List.nodup_cons]
            constructor
            · rintro ⟨-, once, apart⟩
              refine ⟨⟨fun member => apart k member (List.mem_cons_self ..), once⟩, ?_⟩
              intro j member
              rcases List.mem_cons.1 member with rfl | member
              · exact unfailed
              · exact fun old => apart j member (List.mem_cons_of_mem _ old)
            · rintro ⟨⟨fresh, once⟩, apart⟩
              refine ⟨consistent, once, fun j member => ?_⟩
              rintro (_ | ⟨_, old⟩)
              · exact fresh member
              · exact apart j (List.mem_cons_of_mem _ member) old
        | report => exact ⟨And.right, fun once => ⟨consistent, once⟩⟩
        | connectComplete k => exact ⟨And.right, fun once => ⟨consistent, once⟩⟩
        | connectError k => exact ⟨And.right, fun once => ⟨consistent, once⟩⟩
        | writeComplete k => exact ⟨And.right, fun once => ⟨consistent, once⟩⟩

/-- **The assertions hold along a run** if and only if at most one write of each stream fails. -/
theorem consistent_iff {as : List Action} {r : GraphiteReporter}
    (ran : Theory.run next init as = some r) :
    Theory.Along next Consistent init as ↔ (failures as).Nodup := by
  rw [along_iff sound_init ran]
  exact ⟨And.left, fun once => ⟨once, fun _ _ => List.not_mem_nil⟩⟩

/-- A write fails, and the reporter connects again. -/
theorem consistent_reconnects :
    Theory.Along next Consistent init
      [.report, .connectComplete 0, .writeError 0, .report, .connectComplete 1] :=
  (consistent_iff (r := ⟨.connected, some 1, 2, [], [1], [0]⟩) (by decide)).2 (by decide)

/-- Two reports are out on stream 0 and both fail. The second failure is delivered after the
reporter has connected again, and closes stream 1. -/
theorem writeError_closes_other :
    ∃ r r' : GraphiteReporter,
      Theory.run next init [.report, .connectComplete 0, .report, .writeError 0, .report,
        .connectComplete 1] = some r ∧
      r.next (.writeError 0) = some r' ∧ ¬ r.Consistent (.writeError 0) ∧
      r.closed = [0] ∧ r'.closed = [1, 0] :=
  ⟨⟨.connected, some 1, 2, [], [1, 0], [0]⟩, ⟨.disconnected, some 1, 2, [], [1], [1, 0]⟩,
    by decide, by decide, by decide, rfl, rfl⟩

end GraphiteReporter

end Ccmetrics.Reporting
