/-
# Meter.Rate -- `RateEWMA`

The exponentially weighted moving average of a rate, for one thread. Its buffer is the `Striped64`
of `Striped.Machine` with a single thread and a single object, whose member functions are run to
their ends. Doubles are read as rational numbers, and times are in microseconds.

`tick` takes what is in the buffer. `tickIfNecessary` makes one call of `tick` for every whole
interval since `last_tick_`, and then puts `last_tick_` to the present: the part of an interval
that is left over is forgotten. So the number of ticks is not the number of intervals that have
passed, unless all that was forgotten, with what has passed since, is less than one interval
(`ticks_iff`).

* The compare-and-swaps of `last_tick_` and of `rate_` succeed for a single thread.
* `clock` and `counts` are not in the source: the time of the last call, and what each tick took.
-/
import Mathlib.Algebra.Order.Field.Rat
import Mathlib.Data.BitVec
import Ccmetrics.Theory.Alone
import Ccmetrics.Theory.Run
import Ccmetrics.Theory.Smoothing
import Ccmetrics.Striped.Conservation

namespace Ccmetrics.Meter

set_option autoImplicit false

open Striped (Word)

/-- Seconds. -/
def kInterval : Nat := 5

/-- `kInterval * 1E6`, in microseconds. -/
def interval : Nat := kInterval * 1000000

/-- A `Striped64` that belongs to one thread. -/
abbrev Buffer := Striped.State Unit Unit

namespace Buffer

/-- `Striped64()`. -/
def new : Buffer := (Striped.State.init fun _ => 0).make () none

/-- Call a member function and run it to its end. -/
def call (b : Buffer) (a : Striped.Action Unit Unit) : Option Buffer :=
  (b.next a).bind
    (Theory.runUntil (fun b : Buffer => b.next (.step ())) (fun b => decide (b.pc () = .idle)) 4)

end Buffer

structure RateEWMA where
  alpha : ℚ
  buffer : Buffer
  rate : ℚ
  init : Bool
  lastTick : Nat
  clock : Nat
  counts : List Int

inductive Action where
  | update (now : Nat) (val : Word)
  | rate (now : Nat)
  | tick
  deriving DecidableEq

namespace RateEWMA

def new (alpha : ℚ) (now : Nat) : RateEWMA where
  alpha := alpha
  buffer := .new
  rate := 0
  init := false
  lastTick := now
  clock := now
  counts := []

def tick (s : RateEWMA) : Option RateEWMA := do
  let read ← s.buffer.call (.value () ())
  let uncounted := (read.result ()).toInt
  let buffer ← read.call (.reset () ())
  let instant : ℚ := uncounted / kInterval
  let rate := if s.init then s.rate + s.alpha * (instant - s.rate) else instant
  some { s with buffer := buffer, rate := rate, init := true, counts := s.counts ++ [uncounted] }

/-- The loop of `tickIfNecessary`. -/
def ticks (s : RateEWMA) : Nat → Option RateEWMA
  | 0 => some s
  | n + 1 => s.tick.bind fun s => s.ticks n

def tickIfNecessary (s : RateEWMA) (now : Nat) : Option RateEWMA :=
  let delta := now - s.lastTick
  if delta < interval then some s
  else { s with lastTick := now }.ticks (delta / interval)

def update (s : RateEWMA) (now : Nat) (val : Word) : Option RateEWMA := do
  let buffer ← s.buffer.call (.add () () val)
  { s with buffer := buffer }.tickIfNecessary now

/-- The steady clock does not go back. -/
def next (s : RateEWMA) : Action → Option RateEWMA
  | .update now val =>
      if s.clock ≤ now then { s with clock := now }.update now val else none
  | .rate now => if s.clock ≤ now then { s with clock := now }.tickIfNecessary now else none
  | .tick => s.tick

end RateEWMA

/-! ## The buffer -/

namespace Buffer

/-- Between the calls of its only thread the whole value is in the base. -/
structure Holds (b : Buffer) (x : Word) : Prop where
  idle : b.pc () = .idle
  live : b.live () = true
  flat : b.stripes () = none
  base : b.base () = x

theorem holds_new : new.Holds 0 := ⟨rfl, rfl, rfl, rfl⟩

variable {b : Buffer} {x : Word}

/-- The other fields matter to no call. -/
theorem Holds.eq (holds : b.Holds x) : b = { b with
    pc := fun _ => .idle, live := fun _ => true, stripes := fun _ => none, base := fun _ => x } := by
  obtain ⟨idle, live, flat, base⟩ := holds
  obtain ⟨_, _, _⟩ := b
  congr
  · exact funext fun _ => live
  · exact funext fun _ => base
  · exact funext fun _ => flat
  · exact funext fun _ => idle

/-- The compare-and-swap of `add` finds the value that `add` has read. -/
theorem next_addBaseCas {v : Word} (at_ : b.pc () = .addBaseCas () v x) (base : b.base () = x) :
    b.next (.step ()) = some (b.after () (.addBase () (x + v)) (.ret 0)) := by
  simp only [Striped.State.next, at_, Striped.State.plan, base, if_true]

theorem Holds.add (holds : b.Holds x) (v : Word) :
    ∃ b', b.call (.add () () v) = some b' ∧ b'.Holds (x + v) := by
  let atCas : Buffer := { b with
    live := fun _ => true, stripes := fun _ => none, base := fun _ => x,
    pc := fun _ => .addBaseCas () v x, call := fun _ => b.log.length,
    log := b.log ++ [⟨(), v, 0, false⟩] }
  have read : b.call (.add () () v) =
      Theory.runUntil (fun b => b.next (.step ())) (fun b => decide (b.pc () = .idle)) 2 atCas := by
    simp only [atCas]
    rw [holds.eq]
    rfl
  have swapped : atCas.next (.step ()) = some (atCas.after () (.addBase () (x + v)) (.ret 0)) :=
    next_addBaseCas rfl rfl
  rw [read, Theory.runUntil_next rfl swapped, Theory.runUntil_done rfl]
  exact ⟨_, rfl, rfl, rfl, rfl, rfl⟩

theorem Holds.value (holds : b.Holds x) :
    ∃ b', b.call (.value () ()) = some b' ∧ b'.Holds x ∧ b'.result () = x := by
  rw [holds.eq]
  exact ⟨_, rfl, ⟨rfl, rfl, rfl, rfl⟩, rfl⟩

theorem Holds.reset (holds : b.Holds x) :
    ∃ b', b.call (.reset () ()) = some b' ∧ b'.Holds 0 := by
  rw [holds.eq]
  exact ⟨_, rfl, rfl, rfl, rfl, rfl⟩

theorem Holds.total (holds : b.Holds x) : b.total () = x := by
  rw [Striped.State.total, Striped.State.cells, holds.flat, holds.base]
  exact add_zero x

end Buffer

namespace RateEWMA

variable {s s' : RateEWMA} {x : Word}

/-- The samples of a rate. -/
def instants (counts : List Int) : List ℚ := counts.map fun c : Int => (c : ℚ) / kInterval

/-- The first tick sets the rate, and the others average. -/
def Averaged (s : RateEWMA) : Prop :=
  match s.counts with
  | [] => s.init = false
  | c :: cs => s.init = true ∧
      s.rate = (instants cs).foldl (Theory.smooth s.alpha) ((c : ℚ) / kInterval)

/-- What `n` ticks in a row do. -/
structure Ticked (s s' : RateEWMA) (x : Word) (n : Nat) : Prop where
  alpha : s'.alpha = s.alpha
  lastTick : s'.lastTick = s.lastTick
  clock : s'.clock = s.clock
  averaged : s.Averaged → s'.Averaged
  buffer : s'.buffer.Holds (if n = 0 then x else 0)
  counts : s'.counts = s.counts ++ (x.toInt :: List.replicate (n - 1) 0).take n

theorem tick_spec (holds : s.buffer.Holds x) : ∃ s', s.tick = some s' ∧ s.Ticked s' x 1 := by
  obtain ⟨read, called, holds', result⟩ := holds.value
  obtain ⟨buffer, called', drained⟩ := holds'.reset
  have ticked : s.tick = some
      { s with
        buffer := buffer
        rate := if s.init then s.rate + s.alpha * ((x.toInt : ℚ) / kInterval - s.rate)
          else (x.toInt : ℚ) / kInterval
        init := true
        counts := s.counts ++ [x.toInt] } := by
    simp only [tick, called, called', Option.bind_eq_bind, Option.bind_some, result]
  refine ⟨_, ticked, rfl, rfl, rfl, fun averaged => ?_, drained, rfl⟩
  simp only [Averaged] at averaged ⊢
  cases counts : s.counts with
  | nil =>
      rw [counts] at averaged
      simp [averaged, instants]
  | cons c cs =>
      rw [counts] at averaged
      simp [averaged.1, averaged.2, instants, Theory.smooth]

theorem ticks_spec (n : Nat) (holds : s.buffer.Holds x) :
    ∃ s', s.ticks n = some s' ∧ s.Ticked s' x n := by
  induction n generalizing s x with
  | zero => exact ⟨s, rfl, ⟨rfl, rfl, rfl, id, holds, by simp⟩⟩
  | succ n ih =>
      obtain ⟨mid, ticked, first⟩ := tick_spec holds
      obtain ⟨last, looped, rest⟩ := ih first.buffer
      refine ⟨last, by rw [ticks, ticked]; exact looped, ?_⟩
      refine ⟨rest.alpha.trans first.alpha, rest.lastTick.trans first.lastTick,
        rest.clock.trans first.clock, fun averaged => rest.averaged (first.averaged averaged), ?_, ?_⟩
      · have drained := rest.buffer
        simpa using drained
      · rw [rest.counts, first.counts]
        cases n with
        | zero => simp
        | succ n => simp [List.replicate_succ]

theorem Ticked.length {n : Nat} (ticked : s.Ticked s' x n) :
    s'.counts.length = s.counts.length + n := by
  rw [ticked.counts, List.length_append, List.length_take, List.length_cons, List.length_replicate]
  omega

/-- A call ticks once for every whole interval since the last tick. -/
theorem tickIfNecessary_spec (holds : s.buffer.Holds x) (now : Nat) :
    ∃ s', s.tickIfNecessary now = some s' ∧
      { s with lastTick := if now - s.lastTick < interval then s.lastTick else now }.Ticked s' x
        ((now - s.lastTick) / interval) := by
  simp only [tickIfNecessary]
  split
  · rename_i early
    rw [Nat.div_eq_of_lt early]
    exact ⟨s, rfl, rfl, rfl, rfl, id, holds, by simp⟩
  · exact ticks_spec _ holds

end RateEWMA

/-- When a call is made. -/
def Action.time : Action → Option Nat
  | .update now _ | .rate now => some now
  | .tick => none

/-- What a call adds to the buffer. -/
def Action.val : Action → Word
  | .update _ val => val
  | _ => 0

/-- The value of an update. -/
def Action.delta : Action → Option Int
  | .update _ val => some val.toInt
  | _ => none

namespace RateEWMA

variable {s s' : RateEWMA} {x : Word} {a : Action} {now : Nat}

/-- An update puts its value into the buffer; after that every call does the same. -/
theorem next_call (holds : s.buffer.Holds x) (isCall : a.time = some now)
    (later : s.clock ≤ now) : ∃ buffer : Buffer, buffer.Holds (x + a.val) ∧
      s.next a = { s with clock := now, buffer := buffer }.tickIfNecessary now := by
  cases a with
  | update now' val =>
      obtain rfl := Option.some.inj isCall
      obtain ⟨buffer, called, holds'⟩ := holds.add val
      refine ⟨buffer, holds', ?_⟩
      simp only [next, later, if_true, update, called, Option.bind_eq_bind, Option.bind_some]
  | rate now' =>
      obtain rfl := Option.some.inj isCall
      refine ⟨s.buffer, by simpa [Action.val] using holds, ?_⟩
      simp only [next, later, if_true]
  | tick => cases isCall

theorem next_later (isCall : a.time = some now) (taken : s.next a = some s') : s.clock ≤ now := by
  cases a with
  | update now' val | rate now' =>
      obtain rfl := Option.some.inj isCall
      simp only [next] at taken
      split at taken
      · assumption
      · cases taken
  | tick => cases isCall

/-! ## How often it ticks -/

/-- When the last of the calls so far has ticked, and what parts of intervals have been forgotten:
a call ticks if it comes at least one interval after the last one that did. -/
def forget (m : Nat × Nat) (now : Nat) : Nat × Nat :=
  if now - m.1 < interval then m else (now, m.2 + (now - m.1) % interval)

/-- The ticks and the forgotten time make up the time to the last tick. -/
structure Paced (created : Nat) (s : RateEWMA) (m : Nat × Nat) : Prop where
  holds : ∃ x, s.buffer.Holds x
  last : s.lastTick = m.1
  past : m.1 ≤ s.clock
  elapsed : created + interval * s.counts.length + m.2 = m.1

theorem Paced.call {created now : Nat} {m : Nat × Nat} {buffer : Buffer} (paced : Paced created s m)
    (later : s.clock ≤ now) (holds : buffer.Holds x)
    (called : { s with clock := now, buffer := buffer }.tickIfNecessary now = some s') :
    Paced created s' (forget m now) ∧ s'.clock = now := by
  obtain ⟨-, last, past, elapsed⟩ := paced
  obtain ⟨s₁, called₁, ticked⟩ :=
    tickIfNecessary_spec (s := { s with clock := now, buffer := buffer }) holds now
  cases Option.some.inj (called.symm.trans called₁)
  have length : s'.counts.length = s.counts.length + (now - m.1) / interval := by
    rw [ticked.length, last]
  have lastTick := ticked.lastTick
  have clock : s'.clock = now := ticked.clock
  have split := Nat.div_add_mod (now - m.1) interval
  refine ⟨⟨⟨_, ticked.buffer⟩, ?_, ?_, ?_⟩, clock⟩
  · rw [lastTick, forget]
    simp only [last]
    split <;> rfl
  · rw [clock, forget]
    split
    · omega
    · exact le_rfl
  · rw [length, Nat.mul_add, forget]
    split
    · rename_i early
      rw [Nat.div_eq_of_lt early]
      omega
    · simp only
      omega

theorem Paced.next {created : Nat} {m : Nat × Nat} (paced : Paced created s m)
    (isCall : a.time = some now) (taken : s.next a = some s') :
    Paced created s' (forget m now) ∧ s'.clock = now := by
  obtain ⟨x, holds⟩ := paced.holds
  have later := next_later isCall taken
  obtain ⟨buffer, holds', same⟩ := next_call holds isCall later
  rw [same] at taken
  exact paced.call later holds' taken

/-- The times of the calls. -/
def times (as : List Action) : List Nat := as.filterMap Action.time

theorem Paced.run {created : Nat} {m : Nat × Nat} {as : List Action} (paced : Paced created s m)
    (calls : ∀ a ∈ as, a ≠ .tick) (ran : Theory.run RateEWMA.next s as = some s') :
    Paced created s' ((times as).foldl forget m) := by
  induction as generalizing s m with
  | nil =>
      cases ran
      exact paced
  | cons a rest ih =>
      obtain ⟨mid, taken, ran⟩ := Theory.run_cons_eq_some.1 ran
      obtain ⟨now, isCall⟩ : ∃ now, a.time = some now := by
        cases a with
        | tick => exact absurd rfl (calls .tick (List.mem_cons_self ..))
        | update now val | rate now => exact ⟨now, rfl⟩
      have before := (paced.next isCall taken).1
      rw [times, List.filterMap_cons_some isCall, List.foldl_cons]
      exact ih before (fun b inRest => calls b (List.mem_cons_of_mem _ inRest)) ran

/-- **The number of ticks is the number of intervals that have passed** if and only if what the
ticking calls have forgotten, with the time since the last of them, is less than one interval. -/
theorem ticks_iff {alpha : ℚ} {created : Nat} {as : List Action} (calls : ∀ a ∈ as, a ≠ .tick)
    (ran : Theory.run next (new alpha created) as = some s) :
    s.counts.length = (s.clock - created) / interval ↔
      let m := (times as).foldl forget (created, 0)
      m.2 + (s.clock - m.1) < interval := by
  have start : Paced created (new alpha created) (created, 0) :=
    ⟨⟨0, Buffer.holds_new⟩, rfl, le_rfl, by simp [new]⟩
  have paced := start.run calls ran
  generalize (times as).foldl forget (created, 0) = m at paced
  obtain ⟨-, -, past, elapsed⟩ := paced
  have positive : 0 < interval := by decide
  have passed : s.clock - created =
      (m.2 + (s.clock - m.1)) + interval * s.counts.length := by omega
  rw [passed, Nat.add_mul_div_left _ _ positive]
  simp only
  rw [← Nat.div_eq_zero_iff_lt positive]
  omega

theorem ticks_iff_regular : ∃ s, Theory.run next (new 1 0) [.rate 5000000, .rate 14000000] = some s ∧
    s.counts.length = (s.clock - 0) / interval := by
  have ran : (Theory.run next (new 1 0) [.rate 5000000, .rate 14000000]).map
      (fun s => s.clock) = some 14000000 := by decide +kernel
  obtain ⟨s, ran, clock⟩ := Option.map_eq_some_iff.1 ran
  refine ⟨s, ran, (ticks_iff (by decide) ran).2 ?_⟩
  rw [clock]
  decide +kernel

/-- A call after six seconds ticks once and forgets one second; ten seconds after the creation
there has still been one tick. -/
theorem tick_forgets : ∃ s, Theory.run next (new 1 0) [.rate 6000000, .rate 10000000] = some s ∧
    s.counts.length = 1 ∧ (s.clock - 0) / interval = 2 := by
  have ran : (Theory.run next (new 1 0) [.rate 6000000, .rate 10000000]).map
      (fun s => (s.counts.length, s.clock)) = some (1, 10000000) := by decide +kernel
  obtain ⟨s, ran, seen⟩ := Option.map_eq_some_iff.1 ran
  simp only [Prod.mk.injEq] at seen
  exact ⟨s, ran, seen.1, by rw [seen.2]; decide⟩

/-! ## What the rate is -/

/-- What is in the buffer. -/
def buffered (s : RateEWMA) : Int := (s.buffer.total ()).toInt

/-- The buffer does not overflow. -/
def Ranged (s : RateEWMA) (a : Action) : Prop :=
  -2 ^ 63 ≤ s.buffered + a.val.toInt ∧ s.buffered + a.val.toInt < 2 ^ 63

instance (s : RateEWMA) (a : Action) : Decidable (s.Ranged a) :=
  inferInstanceAs (Decidable (_ ∧ _))

/-- The values of all updates. -/
def updates (as : List Action) : List Int := as.filterMap Action.delta

/-- The ticks have cut the updates into segments; what came after the last of them adds up to
`rest`. -/
def Cut (updates counts : List Int) (rest : Int) : Prop :=
  ∃ (segments : List (List Int)) (last : List Int),
    updates = segments.flatten ++ last ∧ counts = segments.map List.sum ∧ rest = last.sum

theorem Cut.update {us counts : List Int} {rest : Int} (cut : Cut us counts rest) (v : Int) :
    Cut (us ++ [v]) counts (rest + v) := by
  obtain ⟨segments, last, rfl, rfl, rfl⟩ := cut
  exact ⟨segments, last ++ [v], by simp, rfl, by simp⟩

/-- The first of `n` ticks takes what is there, and the others take nothing. -/
theorem Cut.ticks {us counts : List Int} {rest : Int} (cut : Cut us counts rest) (n : Nat) :
    Cut us (counts ++ (rest :: List.replicate (n - 1) 0).take n) (if n = 0 then rest else 0) := by
  obtain ⟨segments, last, rfl, rfl, rfl⟩ := cut
  cases n with
  | zero => exact ⟨segments, last, rfl, by simp, rfl⟩
  | succ n =>
      refine ⟨segments ++ last :: List.replicate n [], [], by simp, ?_, by simp⟩
      simp [List.map_replicate]

structure Lawful (alpha : ℚ) (s : RateEWMA) (us : List Int) : Prop where
  alpha : s.alpha = alpha
  averaged : s.Averaged
  buffer : ∃ x, s.buffer.Holds x ∧ Cut us s.counts x.toInt

variable {alpha : ℚ} {us : List Int}

theorem Lawful.ticks {n : Nat} (same : s.alpha = alpha) (averaged : s.Averaged)
    (cut : Cut us s.counts x.toInt) (ticked : s.Ticked s' x n) : Lawful alpha s' us := by
  refine ⟨ticked.alpha.trans same, ticked.averaged averaged, _, ticked.buffer, ?_⟩
  rw [ticked.counts]
  have after := cut.ticks n
  split
  · rename_i isZero
    subst isZero
    simpa using after
  · rename_i positive
    simpa [positive] using after

/-- While the buffer does not overflow, adding is exact. -/
theorem toInt_add_val (ranged : s.Ranged a) (holds : s.buffer.Holds x) :
    (x + a.val).toInt = x.toInt + a.val.toInt := by
  obtain ⟨above, below⟩ := ranged
  rw [buffered, holds.total] at above below
  rw [BitVec.toInt_add]
  exact Int.bmod_eq_of_le (by omega) (by omega)

theorem Lawful.next (lawful : Lawful alpha s us) (ranged : s.Ranged a)
    (taken : s.next a = some s') : Lawful alpha s' (us ++ a.delta.toList) := by
  obtain ⟨same, averaged, x, holds, cut⟩ := lawful
  cases isCall : a.time with
  | none =>
      cases a with
      | update now val | rate now => cases isCall
      | tick =>
          obtain ⟨s₁, ticked₁, ticked⟩ := tick_spec holds
          cases Option.some.inj (taken.symm.trans ticked₁)
          simpa [Action.delta] using Lawful.ticks same averaged cut ticked
  | some now =>
      obtain ⟨buffer, holds', called⟩ := next_call holds isCall (next_later isCall taken)
      obtain ⟨s₁, called₁, ticked⟩ :=
        tickIfNecessary_spec (s := { s with clock := now, buffer := buffer }) holds' now
      rw [called] at taken
      cases Option.some.inj (taken.symm.trans called₁)
      have cut' : Cut (us ++ a.delta.toList) s.counts (x + a.val).toInt := by
        rw [toInt_add_val ranged holds]
        cases a with
        | update now' val => exact cut.update val.toInt
        | rate now' => simpa [Action.val, Action.delta] using cut
        | tick => cases isCall
      refine Lawful.ticks ?_ ?_ ?_ ticked
      · exact same
      · exact averaged
      · exact cut'

theorem lawful_run {created : Nat} {as : List Action}
    (ranged : Theory.Along RateEWMA.next Ranged (new alpha created) as)
    (ran : Theory.run RateEWMA.next (new alpha created) as = some s) :
    Lawful alpha s (updates as) := by
  have start : Lawful alpha (new alpha created) [] :=
    ⟨rfl, rfl, 0, Buffer.holds_new, [], [], rfl, rfl, rfl⟩
  have followed := Theory.run_follows (R := fun s us => Lawful alpha s us)
    (f := fun us a => us ++ a.delta.toList)
    (fun _ _ _ _ lawful met taken => lawful.next met taken) start ranged ran
  have all : ∀ us : List Int,
      as.foldl (fun us a => us ++ a.delta.toList) us = us ++ updates as := by
    clear followed ranged ran start
    induction as with
    | nil => simp [updates]
    | cons a rest ih =>
        intro us
        rw [List.foldl_cons, ih]
        cases delta : a.delta <;> simp [updates, delta]
  rwa [all, List.nil_append] at followed

/-- **The value law of the rate.** Every update is in the count of one tick or still in the buffer,
and the rate is the exponentially weighted average of the counts; so it lies between the least and
the largest rate of a tick. Every call that does not turn the clock back returns. -/
theorem rate_law {created : Nat} {as : List Action} (nonneg : 0 ≤ alpha) (le_one : alpha ≤ 1)
    (ranged : Theory.Along RateEWMA.next Ranged (new alpha created) as)
    (ran : Theory.run RateEWMA.next (new alpha created) as = some s) :
    Cut (updates as) s.counts s.buffered ∧ s.counts.sum + s.buffered = (updates as).sum ∧
    (∀ c cs, s.counts = c :: cs →
      s.rate = (1 - alpha) ^ cs.length * ((c : ℚ) / kInterval) +
        (∑ i ∈ Finset.range cs.length, alpha * (1 - alpha) ^ (cs.length - (i + 1)) *
          (((cs.getD i 0 : Int) : ℚ) / kInterval)) ∧
      (∀ lo : ℚ, (∀ d ∈ s.counts, lo ≤ (d : ℚ) / kInterval) → lo ≤ s.rate) ∧
      ∀ hi : ℚ, (∀ d ∈ s.counts, (d : ℚ) / kInterval ≤ hi) → s.rate ≤ hi) ∧
    ∀ a, (∀ now, a.time = some now → s.clock ≤ now) → ∃ s', s.next a = some s' := by
  obtain ⟨same, averaged, x, holds, cut⟩ := lawful_run ranged ran
  have value : s.buffered = x.toInt := by rw [buffered, holds.total]
  rw [← value] at cut
  refine ⟨cut, ?_, ?_, ?_⟩
  · obtain ⟨segments, last, all, counts, rest⟩ := cut
    rw [all, counts, rest, List.sum_append, List.sum_flatten]
  · intro c cs counts
    rw [Averaged, counts] at averaged
    have rate := averaged.2
    rw [same] at rate
    refine ⟨?_, ?_, ?_⟩
    · rw [rate, Theory.foldl_smooth, instants, List.length_map]
      refine congrArg _ (Finset.sum_congr rfl fun i inside => ?_)
      have below : i < cs.length := Finset.mem_range.1 inside
      simp [List.getD, below]
    · intro lo bounded
      rw [counts] at bounded
      rw [rate]
      refine Theory.le_foldl_smooth nonneg le_one (bounded c (List.mem_cons_self ..)) ?_
      intro y member
      obtain ⟨d, inCounts, rfl⟩ := List.mem_map.1 member
      exact bounded d (List.mem_cons_of_mem _ inCounts)
    · intro hi bounded
      rw [counts] at bounded
      rw [rate]
      refine Theory.foldl_smooth_le nonneg le_one (bounded c (List.mem_cons_self ..)) ?_
      intro y member
      obtain ⟨d, inCounts, rfl⟩ := List.mem_map.1 member
      exact bounded d (List.mem_cons_of_mem _ inCounts)
  · intro a later
    cases isCall : a.time with
    | none =>
        cases a with
        | update now val | rate now => cases isCall
        | tick =>
            obtain ⟨s', ticked, -⟩ := tick_spec holds
            exact ⟨s', ticked⟩
    | some now =>
        obtain ⟨buffer, holds', called⟩ := next_call holds isCall (later now isCall)
        obtain ⟨s', called', -⟩ :=
          tickIfNecessary_spec (s := { s with clock := now, buffer := buffer }) holds' now
        exact ⟨s', called.trans called'⟩

theorem rate_law_two : ∃ s,
    Theory.run next (new (1 / 2) 0) [.update 0 5, .tick, .update 1 3, .tick] = some s ∧
      s.counts.sum + s.buffered = 8 ∧ s.rate ≤ 1 := by
  have ran : (Theory.run next (new (1 / 2) 0) [.update 0 5, .tick, .update 1 3, .tick]).map
      (fun s => s.counts) = some [5, 3] := by decide +kernel
  obtain ⟨s, ran, counts⟩ := Option.map_eq_some_iff.1 ran
  obtain ⟨-, sums, law, -⟩ := rate_law (by decide +kernel) (by decide +kernel)
    (by decide +kernel) ran
  obtain ⟨-, -, below⟩ := law 5 [3] counts
  refine ⟨s, ran, sums.trans (by decide +kernel), below 1 ?_⟩
  rw [counts]
  decide +kernel

end RateEWMA

end Ccmetrics.Meter
