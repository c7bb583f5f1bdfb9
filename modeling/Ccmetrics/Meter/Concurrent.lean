/-
# Meter.Concurrent -- `RateEWMA` and `MeterImpl` with any number of threads

The averages of `Meter.Rate`, one atomic step at a time. Their buffers are the objects of one
`Striped.State`, so that `buffer_.add`, `buffer_.value()` and `buffer_.reset()` are called and run
step by step as well, between the steps of all other threads. `mark` of a meter updates its three
averages one after the other, each with its own reading of the clock.

`tickIfNecessary` lets one thread through: the one whose compare-and-swap moves `last_tick_` on. So
in every interleaving there are never more ticks than intervals have passed, every tick that has
been claimed is counted by the thread that claimed it, and a rate, once there is one, lies between
the rates of single ticks (`rate_between`).

Doubles are read as rational numbers, times are in microseconds. `ticks` and `counts` are not in
the source: how many calls of `tick` have been claimed, and what each of them has taken.
-/
import Mathlib.Algebra.BigOperators.Group.Finset.Piecewise
import Mathlib.Algebra.Order.BigOperators.Group.Finset
import Ccmetrics.Meter.Rate
import Ccmetrics.Striped.Added
import Ccmetrics.Striped.Drain

namespace Ccmetrics.Meter

set_option autoImplicit false
set_option linter.unusedSectionVars false

open Striped (Word)

variable {T R : Type} [DecidableEq T] [DecidableEq R]

/-- Who called `tickIfNecessary`: an `update`, for a `mark` that has still to update the averages
`later`, or `rate`. -/
inductive Caller (R : Type) where
  | update (val : Word) (later : List R)
  | rate
  deriving DecidableEq

/-- Where a thread stands in a member function of an average. -/
inductive PC (R : Type) where
  | idle
  -- update
  | add (this : R) (val : Word) (later : List R)
  | adding (this : R) (caller : Caller R)
  -- tickIfNecessary
  | now (this : R) (caller : Caller R)
  | load (this : R) (caller : Caller R) (now : Nat)
  | swap (this : R) (caller : Caller R) (now prev : Nat)
  -- tick, with `left` more to come
  | tick (this : R) (caller : Caller R) (left : Nat)
  | value (this : R) (caller : Caller R) (left : Nat)
  | reset (this : R) (caller : Caller R) (left : Nat) (instant : ℚ)
  | init (this : R) (caller : Caller R) (left : Nat) (instant : ℚ)
  | rate (this : R) (caller : Caller R) (left : Nat) (instant : ℚ)
  | swapRate (this : R) (caller : Caller R) (left : Nat) (instant expected : ℚ)
  | storeRate (this : R) (caller : Caller R) (left : Nat) (instant : ℚ)
  | storeInit (this : R) (caller : Caller R) (left : Nat)
  -- rate
  | result (this : R)
  deriving DecidableEq

/-- The averages that are still to be updated. -/
def Caller.rest : Caller R → List R
  | .update _ later => later
  | .rate => []

/-- The averages that the running call works on. -/
def PC.averages : PC R → List R
  | .idle => []
  | .add this _ later => this :: later
  | .adding this caller | .now this caller | .load this caller _ | .swap this caller _ _
  | .tick this caller _ | .value this caller _ | .reset this caller _ _ | .init this caller _ _
  | .rate this caller _ _ | .swapRate this caller _ _ _ | .storeRate this caller _ _
  | .storeInit this caller _ => this :: caller.rest
  | .result this => [this]

/-- `tickIfNecessary` returns. -/
def PC.back (this : R) : Caller R → PC R
  | .update _ [] => .idle
  | .update val (next :: later) => .add next val later
  | .rate => .result this

/-- All averages, and where every thread stands. -/
structure Averages (T R : Type) where
  buffers : Striped.State T R
  alpha : R → ℚ
  rate : R → ℚ
  init : R → Bool
  created : R → Nat
  lastTick : R → Nat
  clock : Nat
  ticks : R → Nat
  counts : R → List Int
  pc : T → PC R
  result : T → ℚ

namespace Averages

/-- What can happen: a constructor, a call of `update` or `mark`, a call of `rate`, a step of a
thread, a `compare_exchange_weak` that fails for no reason, the passing of time, the deletion of a
retired storage. -/
inductive Action (T R : Type) where
  | make (this : R) (alpha : ℚ)
  | update (t : T) (this : R) (later : List R) (val : Word)
  | rate (t : T) (this : R)
  | step (t : T)
  | spurious (t : T)
  | wait (duration : Nat)
  | reclaim (storage : Nat)
  deriving DecidableEq

/-- `MeterImpl`: its three averages. -/
structure MeterImpl (R : Type) where
  oneMinuteRate : R
  fiveMinuteRate : R
  fifteenMinuteRate : R

/-- `MeterImpl::mark(n)`. -/
def MeterImpl.mark (m : MeterImpl R) (t : T) (n : Word) : Action T R :=
  .update t m.oneMinuteRate [m.fiveMinuteRate, m.fifteenMinuteRate] n

def new (hashCode : T → Word) : Averages T R where
  buffers := .init hashCode
  alpha _ := 0
  rate _ := 0
  init _ := false
  created _ := 0
  lastTick _ := 0
  clock := 0
  ticks _ := 0
  counts _ := []
  pc _ := .idle
  result _ := 0

def goto (s : Averages T R) (t : T) (pc : PC R) : Averages T R :=
  { s with pc := Function.update s.pc t pc }

variable [Fintype T]

/-- An action of the buffers, after which thread `t` stands at `pc`. -/
def inner (s : Averages T R) (a : Striped.Action T R) (t : T) (pc : PC R) :
    Option (Averages T R) :=
  (s.buffers.next a).map fun buffers => { s with buffers := buffers }.goto t pc

/-- The next step of thread `t`. -/
def step (s : Averages T R) (t : T) : PC R → Option (Averages T R)
  | .idle => none
  | .add this val later => s.inner (.add t this val) t (.adding this (.update val later))
  | .adding this caller =>
      if s.buffers.pc t = .idle then some (s.goto t (.now this caller))
      else s.inner (.step t) t (.adding this caller)
  | .now this caller => some (s.goto t (.load this caller s.clock))
  | .load this caller now =>
      let prev := s.lastTick this
      if now - prev < interval then some (s.goto t (.back this caller))
      else some (s.goto t (.swap this caller now prev))
  | .swap this caller now prev =>
      if s.lastTick this = prev then
        let iters := (now - prev) / interval
        some ({ s with
          lastTick := Function.update s.lastTick this now
          ticks := Function.update s.ticks this (s.ticks this + iters) }.goto t
            (.tick this caller iters))
      else some (s.goto t (.back this caller))
  | .tick this caller 0 => some (s.goto t (.back this caller))
  | .tick this caller (left + 1) => s.inner (.value t this) t (.value this caller left)
  | .value this caller left =>
      if s.buffers.pc t = .idle then
        let uncounted := (s.buffers.result t).toInt
        { s with counts := Function.update s.counts this (s.counts this ++ [uncounted]) }.inner
          (.reset t this) t (.reset this caller left (uncounted / kInterval))
      else s.inner (.step t) t (.value this caller left)
  | .reset this caller left instant =>
      if s.buffers.pc t = .idle then some (s.goto t (.init this caller left instant))
      else s.inner (.step t) t (.reset this caller left instant)
  | .init this caller left instant =>
      if s.init this = true then some (s.goto t (.rate this caller left instant))
      else some (s.goto t (.storeRate this caller left instant))
  | .rate this caller left instant =>
      some (s.goto t (.swapRate this caller left instant (s.rate this)))
  | .swapRate this caller left instant expected =>
      if s.rate this = expected then
        some ({ s with
          rate := Function.update s.rate this
            (Theory.smooth (s.alpha this) expected instant) }.goto t (.tick this caller left))
      else some (s.goto t (.swapRate this caller left instant (s.rate this)))
  | .storeRate this caller left instant =>
      some ({ s with rate := Function.update s.rate this instant }.goto t
        (.storeInit this caller left))
  | .storeInit this caller left =>
      some ({ s with init := Function.update s.init this true }.goto t (.tick this caller left))
  | .result this =>
      some ({ s with result := Function.update s.result t (s.rate this) }.goto t .idle)

/-- What happens when an action is taken; `none` if it cannot be taken. -/
def next (s : Averages T R) : Action T R → Option (Averages T R)
  | .make this alpha =>
      (s.buffers.next (.make this none)).map fun buffers =>
        { s with
          buffers := buffers
          alpha := Function.update s.alpha this alpha
          created := Function.update s.created this s.clock
          lastTick := Function.update s.lastTick this s.clock }
  | .update t this later val =>
      if s.pc t = .idle ∧ ∀ r ∈ this :: later, s.buffers.live r = true then
        some (s.goto t (.add this val later))
      else none
  | .rate t this =>
      if s.pc t = .idle ∧ s.buffers.live this = true then some (s.goto t (.now this .rate))
      else none
  | .step t => s.step t (s.pc t)
  | .spurious t =>
      match s.pc t with
      | .swapRate this caller left instant _ =>
          some (s.goto t (.swapRate this caller left instant (s.rate this)))
      | _ => none
  | .wait duration => some { s with clock := s.clock + duration }
  | .reclaim storage =>
      (s.buffers.next (.reclaim storage)).map fun buffers => { s with buffers := buffers }

/-! ## The graph of `step` -/

inductive Rule (s : Averages T R) (t : T) : PC R → Averages T R → Prop
  | add (this val later buffers) : s.buffers.next (.add t this val) = some buffers →
      Rule s t (.add this val later)
        ({ s with buffers := buffers }.goto t (.adding this (.update val later)))
  | adding (this caller buffers) : s.buffers.next (.step t) = some buffers →
      s.buffers.pc t ≠ .idle →
      Rule s t (.adding this caller) ({ s with buffers := buffers }.goto t (.adding this caller))
  | added (this caller) : s.buffers.pc t = .idle →
      Rule s t (.adding this caller) (s.goto t (.now this caller))
  | now (this caller) : Rule s t (.now this caller) (s.goto t (.load this caller s.clock))
  | early (this caller now) : Rule s t (.load this caller now) (s.goto t (.back this caller))
  | late (this caller now) : interval ≤ now - s.lastTick this →
      Rule s t (.load this caller now) (s.goto t (.swap this caller now (s.lastTick this)))
  | swapped (this caller now) :
      Rule s t (.swap this caller now (s.lastTick this))
        ({ s with
          lastTick := Function.update s.lastTick this now
          ticks := Function.update s.ticks this
            (s.ticks this + (now - s.lastTick this) / interval) }.goto t
          (.tick this caller ((now - s.lastTick this) / interval)))
  | beaten (this caller now prev) :
      Rule s t (.swap this caller now prev) (s.goto t (.back this caller))
  | ticked (this caller) : Rule s t (.tick this caller 0) (s.goto t (.back this caller))
  | tick (this caller left buffers) : s.buffers.next (.value t this) = some buffers →
      Rule s t (.tick this caller (left + 1))
        ({ s with buffers := buffers }.goto t (.value this caller left))
  | value (this caller left buffers) : s.buffers.next (.step t) = some buffers →
      s.buffers.pc t ≠ .idle →
      Rule s t (.value this caller left)
        ({ s with buffers := buffers }.goto t (.value this caller left))
  | valued (this caller left buffers) : s.buffers.next (.reset t this) = some buffers →
      s.buffers.pc t = .idle →
      Rule s t (.value this caller left)
        ({ s with
          counts := Function.update s.counts this
            (s.counts this ++ [(s.buffers.result t).toInt])
          buffers := buffers }.goto t
          (.reset this caller left (((s.buffers.result t).toInt : ℚ) / kInterval)))
  | reset (this caller left instant buffers) : s.buffers.next (.step t) = some buffers →
      s.buffers.pc t ≠ .idle →
      Rule s t (.reset this caller left instant)
        ({ s with buffers := buffers }.goto t (.reset this caller left instant))
  | drained (this caller left instant) : s.buffers.pc t = .idle →
      Rule s t (.reset this caller left instant) (s.goto t (.init this caller left instant))
  | later (this caller left instant) : s.init this = true →
      Rule s t (.init this caller left instant) (s.goto t (.rate this caller left instant))
  | first (this caller left instant) :
      Rule s t (.init this caller left instant) (s.goto t (.storeRate this caller left instant))
  | rate (this caller left instant) :
      Rule s t (.rate this caller left instant)
        (s.goto t (.swapRate this caller left instant (s.rate this)))
  | smoothed (this caller left instant) :
      Rule s t (.swapRate this caller left instant (s.rate this))
        ({ s with
          rate := Function.update s.rate this
            (Theory.smooth (s.alpha this) (s.rate this) instant) }.goto t (.tick this caller left))
  | again (this caller left instant expected) :
      Rule s t (.swapRate this caller left instant expected)
        (s.goto t (.swapRate this caller left instant (s.rate this)))
  | storeRate (this caller left instant) :
      Rule s t (.storeRate this caller left instant)
        ({ s with rate := Function.update s.rate this instant }.goto t
          (.storeInit this caller left))
  | storeInit (this caller left) :
      Rule s t (.storeInit this caller left)
        ({ s with init := Function.update s.init this true }.goto t (.tick this caller left))
  | result (this) :
      Rule s t (.result this)
        ({ s with result := Function.update s.result t (s.rate this) }.goto t .idle)

variable {s s' : Averages T R} {t u : T} {r : R}

theorem inner_eq_some {a : Striped.Action T R} {pc : PC R} (taken : s.inner a t pc = some s') :
    ∃ buffers, s.buffers.next a = some buffers ∧ s' = { s with buffers := buffers }.goto t pc := by
  obtain ⟨buffers, ran, rfl⟩ := Option.map_eq_some_iff.1 taken
  exact ⟨buffers, ran, rfl⟩

theorem rule_of_step {pc : PC R} (taken : s.step t pc = some s') : s.Rule t pc s' := by
  cases pc with
  | idle => cases taken
  | add this val later =>
      obtain ⟨buffers, ran, rfl⟩ := inner_eq_some taken
      exact .add this val later buffers ran
  | adding this caller =>
      simp only [step] at taken
      split at taken
      · cases taken
        exact .added this caller ‹_›
      · obtain ⟨buffers, ran, rfl⟩ := inner_eq_some taken
        exact .adding this caller buffers ran ‹_›
  | now this caller =>
      cases taken
      exact .now this caller
  | load this caller now =>
      simp only [step] at taken
      split at taken
      · cases taken
        exact .early this caller now
      · cases taken
        exact .late this caller now (Nat.le_of_not_lt ‹_›)
  | swap this caller now prev =>
      simp only [step] at taken
      split at taken
      · rename_i same
        subst same
        cases taken
        exact .swapped this caller now
      · cases taken
        exact .beaten this caller now prev
  | tick this caller left =>
      cases left with
      | zero =>
          cases taken
          exact .ticked this caller
      | succ left =>
          obtain ⟨buffers, ran, rfl⟩ := inner_eq_some taken
          exact .tick this caller left buffers ran
  | value this caller left =>
      simp only [step] at taken
      split at taken
      · obtain ⟨buffers, ran, rfl⟩ := inner_eq_some taken
        exact .valued this caller left buffers ran ‹_›
      · obtain ⟨buffers, ran, rfl⟩ := inner_eq_some taken
        exact .value this caller left buffers ran ‹_›
  | reset this caller left instant =>
      simp only [step] at taken
      split at taken
      · cases taken
        exact .drained this caller left instant ‹_›
      · obtain ⟨buffers, ran, rfl⟩ := inner_eq_some taken
        exact .reset this caller left instant buffers ran ‹_›
  | init this caller left instant =>
      simp only [step] at taken
      split at taken
      · cases taken
        exact .later this caller left instant ‹_›
      · cases taken
        exact .first this caller left instant
  | rate this caller left instant =>
      cases taken
      exact .rate this caller left instant
  | swapRate this caller left instant expected =>
      simp only [step] at taken
      split at taken
      · rename_i same
        subst same
        cases taken
        exact .smoothed this caller left instant
      · cases taken
        exact .again this caller left instant expected
  | storeRate this caller left instant =>
      cases taken
      exact .storeRate this caller left instant
  | storeInit this caller left =>
      cases taken
      exact .storeInit this caller left
  | result this =>
      cases taken
      exact .result this

@[simp] theorem goto_pc_self (pc : PC R) : (s.goto t pc).pc t = pc := Function.update_self ..

theorem goto_pc_other {pc : PC R} (other : u ≠ t) : (s.goto t pc).pc u = s.pc u :=
  Function.update_of_ne other ..

/-! ## Ticks and intervals -/

/-- The ticks of `r` that a thread has claimed and not counted yet. -/
def owes (r : R) : PC R → Nat
  | .tick this _ left | .reset this _ left _ | .init this _ left _ | .rate this _ left _
  | .swapRate this _ left _ _ | .storeRate this _ left _ | .storeInit this _ left =>
      if this = r then left else 0
  | .value this _ left => if this = r then left + 1 else 0
  | _ => 0

theorem owes_back (this : R) (caller : Caller R) : owes r (.back this caller) = 0 := by
  cases caller with
  | update val later => cases later <;> rfl
  | rate => rfl

/-- The ticks fit into the time that has passed. -/
structure Paced (s : Averages T R) (r : R) : Prop where
  ticks : s.ticks r * interval + s.created r ≤ s.lastTick r
  clock : s.lastTick r ≤ s.clock
  now : ∀ t caller now, s.pc t = .load r caller now → now ≤ s.clock
  prev : ∀ t caller now prev, s.pc t = .swap r caller now prev →
    now ≤ s.clock ∧ prev + interval ≤ now
  counted : (s.counts r).length + ∑ t, owes r (s.pc t) = s.ticks r

/-- Moving one thread changes the sum over all threads there. -/
theorem sum_goto (pc : PC R) :
    (∑ u, owes r ((s.goto t pc).pc u)) + owes r (s.pc t) = (∑ u, owes r (s.pc u)) + owes r pc := by
  have moved := Theory.sum_moved (f := fun u => owes r (s.pc u))
    (g := fun u => owes r ((s.goto t pc).pc u)) (t := t) fun u other => by rw [goto_pc_other other]
  rwa [goto_pc_self] at moved

/-- A step of a thread that claims no ticks. -/
theorem Paced.moved (paced : s.Paced r) (ticks : s'.ticks r = s.ticks r)
    (created : s'.created r = s.created r) (lastTick : s'.lastTick r = s.lastTick r)
    (clock : s'.clock = s.clock) {pc : PC R} (pcs : s'.pc = (s.goto t pc).pc)
    (now : ∀ caller now, pc = .load r caller now → now ≤ s.clock)
    (prev : ∀ caller now prev, pc = .swap r caller now prev →
      now ≤ s.clock ∧ prev + interval ≤ now)
    (owed : (s'.counts r).length + owes r pc = (s.counts r).length + owes r (s.pc t)) :
    s'.Paced r where
  ticks := by
    rw [ticks, created, lastTick]
    exact paced.ticks
  clock := by
    rw [lastTick, clock]
    exact paced.clock
  now u caller n atPc := by
    rw [clock]
    rw [pcs] at atPc
    by_cases same : u = t
    · rw [same, goto_pc_self] at atPc
      exact now caller n atPc
    · rw [goto_pc_other same] at atPc
      exact paced.now u caller n atPc
  prev u caller n p atPc := by
    rw [clock]
    rw [pcs] at atPc
    by_cases same : u = t
    · rw [same, goto_pc_self] at atPc
      exact prev caller n p atPc
    · rw [goto_pc_other same] at atPc
      exact paced.prev u caller n p atPc
  counted := by
    have moved := sum_goto (r := r) (s := s) (t := t) pc
    have before := paced.counted
    rw [ticks, pcs]
    omega

theorem Paced.back (paced : s.Paced r) (this : R) (caller : Caller R)
    (nothing : owes r (s.pc t) = 0) : (s.goto t (.back this caller)).Paced r := by
  have quiet : ∀ c n, PC.back this caller ≠ .load r c n := by
    intro c n
    cases caller with
    | update val later => cases later <;> simp [PC.back]
    | rate => simp [PC.back]
  have quiet' : ∀ c n p, PC.back this caller ≠ .swap r c n p := by
    intro c n p
    cases caller with
    | update val later => cases later <;> simp [PC.back]
    | rate => simp [PC.back]
  refine paced.moved rfl rfl rfl rfl rfl (fun c n same => absurd same (quiet c n))
    (fun c n p same => absurd same (quiet' c n p)) ?_
  rw [owes_back, nothing]
  rfl

/-- The thread that moves `last_tick_` on claims the ticks for the intervals that it has moved
over. -/
theorem Paced.swapped (paced : s.Paced r) {caller : Caller R} {now : Nat}
    (due : now ≤ s.clock ∧ s.lastTick r + interval ≤ now) (nothing : owes r (s.pc t) = 0) :
    ({ s with
      lastTick := Function.update s.lastTick r now
      ticks := Function.update s.ticks r (s.ticks r + (now - s.lastTick r) / interval) }.goto t
        (.tick r caller ((now - s.lastTick r) / interval))).Paced r where
  ticks := by
    have before := paced.ticks
    have covered : (now - s.lastTick r) / interval * interval ≤ now - s.lastTick r :=
      Nat.div_mul_le_self ..
    simp only [goto, Function.update_self, Nat.add_mul]
    omega
  clock := by
    simp only [goto, Function.update_self]
    exact due.1
  now u caller n atPc := by
    by_cases same : u = t
    · rw [same, goto_pc_self] at atPc
      cases atPc
    · rw [goto_pc_other same] at atPc
      exact paced.now u caller n atPc
  prev u caller n p atPc := by
    by_cases same : u = t
    · rw [same, goto_pc_self] at atPc
      cases atPc
    · rw [goto_pc_other same] at atPc
      exact paced.prev u caller n p atPc
  counted := by
    have moved := sum_goto (r := r) (s := s) (t := t)
      (.tick r caller ((now - s.lastTick r) / interval))
    have before := paced.counted
    have owed : owes r (.tick r caller ((now - s.lastTick r) / interval)) =
        (now - s.lastTick r) / interval := if_pos rfl
    rw [nothing, owed] at moved
    simp only [goto, Function.update_self] at moved ⊢
    omega

theorem Paced.step (paced : s.Paced r) (rule : s.Rule t (s.pc t) s') : s'.Paced r := by
  have now := paced.now t
  have prev := paced.prev t
  have back := paced.back (t := t)
  have moved := @Paced.moved _ _ _ _ _ s s' t r paced
  obtain ⟨pc, atPc⟩ : ∃ pc, s.pc t = pc := ⟨_, rfl⟩
  rw [atPc] at rule now prev back moved
  cases rule
  case now this caller =>
      exact moved rfl rfl rfl rfl rfl (by rintro c n ⟨⟩; exact Nat.le_refl _) (by simp) rfl
  case late this caller now due =>
      have positive : 0 < interval := by decide
      refine moved rfl rfl rfl rfl rfl (by simp) ?_ rfl
      rintro c n p ⟨⟩
      exact ⟨now caller _ rfl, by omega⟩
  case early | beaten => exact back _ _ rfl
  case ticked => exact back _ _ (by simp [owes])
  case swapped this caller n =>
      by_cases same : this = r
      · subst same
        exact paced.swapped (prev caller n _ rfl) (by rw [atPc]; rfl)
      · have other := Ne.symm same
        exact moved (Function.update_of_ne other ..) rfl (Function.update_of_ne other ..) rfl rfl
          (by simp) (by simp) (by simp [owes, goto, same])
  case valued this caller left buffers ran idle =>
      refine moved rfl rfl rfl rfl rfl (by simp) (by simp) ?_
      by_cases same : this = r
      · subst same
        simp [owes, goto]
        omega
      · simp [owes, goto, same, Function.update_of_ne (Ne.symm same)]
  case tick this caller left buffers ran =>
      exact moved rfl rfl rfl rfl rfl (by simp) (by simp) rfl
  all_goals exact moved rfl rfl rfl rfl rfl (by simp) (by simp) rfl

/-! ## Rates -/

/-- `q` lies between the rates of the ticks that took `counts`. -/
def Between (counts : List Int) (q : ℚ) : Prop :=
  ∀ lo hi : ℚ, (∀ c ∈ counts, lo ≤ (c : ℚ) / kInterval ∧ (c : ℚ) / kInterval ≤ hi) → lo ≤ q ∧ q ≤ hi

theorem Between.more {counts : List Int} {q : ℚ} (between : Between counts q) (c : Int) :
    Between (counts ++ [c]) q := fun lo hi bounded =>
  between lo hi fun d member => bounded d (List.mem_append_left _ member)

theorem between_last (counts : List Int) (c : Int) :
    Between (counts ++ [c]) ((c : ℚ) / kInterval) := fun _ _ bounded =>
  bounded c (List.mem_append_right _ (List.mem_singleton_self c))

theorem Between.smooth {counts : List Int} {alpha q x : ℚ} (fraction : 0 ≤ alpha ∧ alpha ≤ 1)
    (rate : Between counts q) (instant : Between counts x) :
    Between counts (Theory.smooth alpha q x) := by
  intro lo hi bounded
  obtain ⟨above, below⟩ := rate lo hi bounded
  obtain ⟨above', below'⟩ := instant lo hi bounded
  constructor
  · have least := Theory.smooth_mono fraction.1 fraction.2 above above'
    rwa [Theory.smooth_self] at least
  · have most := Theory.smooth_mono fraction.1 fraction.2 below below'
    rwa [Theory.smooth_self] at most

/-- The rate of one tick that a thread is about to put into the rate of `r`. -/
def instant (r : R) : PC R → Option ℚ
  | .reset this _ _ x | .init this _ _ x | .rate this _ _ x | .swapRate this _ _ x _
  | .storeRate this _ _ x => if this = r then some x else none
  | _ => none

/-- A thread that has found `init_` set, or is about to set it. -/
def smoothing (r : R) : PC R → Bool
  | .rate this _ _ _ | .swapRate this _ _ _ _ => this = r
  | _ => false

def storing (r : R) : PC R → Bool
  | .storeInit this _ _ => this = r
  | _ => false

theorem back_quiet (this : R) (caller : Caller R) : instant r (.back this caller) = none ∧
    smoothing r (.back this caller) = false ∧ storing r (.back this caller) = false := by
  cases caller with
  | update val later => cases later <;> exact ⟨rfl, rfl, rfl⟩
  | rate => exact ⟨rfl, rfl, rfl⟩

structure Rates (s : Averages T R) (r : R) : Prop where
  alpha : 0 ≤ s.alpha r ∧ s.alpha r ≤ 1
  rate : s.rate r = 0 ∨ Between (s.counts r) (s.rate r)
  init : s.init r = true → Between (s.counts r) (s.rate r)
  instants : ∀ t x, instant r (s.pc t) = some x → Between (s.counts r) x
  smoothing : ∀ t, smoothing r (s.pc t) = true → s.init r = true
  storing : ∀ t, storing r (s.pc t) = true → Between (s.counts r) (s.rate r)

/-- A step that leaves the rate and `init_` alone. -/
theorem Rates.moved (rates : s.Rates r) (alpha : s'.alpha = s.alpha) (rate : s'.rate r = s.rate r)
    (init : s'.init r = s.init r)
    (counts : s'.counts r = s.counts r ∨ ∃ c, s'.counts r = s.counts r ++ [c]) {pc : PC R}
    (pcs : s'.pc = (s.goto t pc).pc)
    (instants : ∀ x, instant r pc = some x → Between (s'.counts r) x)
    (smooths : Averages.smoothing r pc = true → s.init r = true)
    (stores : Averages.storing r pc = true → Between (s.counts r) (s.rate r)) : s'.Rates r := by
  have more : ∀ q, Between (s.counts r) q → Between (s'.counts r) q := by
    intro q between
    rcases counts with same | ⟨c, same⟩
    · rwa [same]
    · rw [same]
      exact between.more c
  constructor
  case alpha => rw [alpha]; exact rates.alpha
  case rate => rw [rate]; exact rates.rate.imp_right (more _)
  case init =>
      intro isSet
      rw [rate]
      exact more _ (rates.init (init ▸ isSet))
  case instants =>
      intro u x isInstant
      rw [pcs] at isInstant
      by_cases same : u = t
      · rw [same, goto_pc_self] at isInstant
        exact instants x isInstant
      · rw [goto_pc_other same] at isInstant
        exact more x (rates.instants u x isInstant)
  case smoothing =>
      intro u found
      rw [pcs] at found
      rw [init]
      by_cases same : u = t
      · rw [same, goto_pc_self] at found
        exact smooths found
      · rw [goto_pc_other same] at found
        exact rates.smoothing u found
  case storing =>
      intro u found
      rw [pcs] at found
      rw [rate]
      by_cases same : u = t
      · rw [same, goto_pc_self] at found
        exact more _ (stores found)
      · rw [goto_pc_other same] at found
        exact more _ (rates.storing u found)

/-- A step that gives `r` a rate between those of its ticks. -/
theorem Rates.store (rates : s.Rates r) (alpha : s'.alpha = s.alpha)
    (counts : s'.counts r = s.counts r) (rate : Between (s.counts r) (s'.rate r))
    (init : s.init r = true → s'.init r = true) {pc : PC R} (pcs : s'.pc = (s.goto t pc).pc)
    (instants : instant r pc = none) (smooths : Averages.smoothing r pc = false) : s'.Rates r := by
  constructor
  case alpha => rw [alpha]; exact rates.alpha
  case rate => rw [counts]; exact .inr rate
  case init => rw [counts]; exact fun _ => rate
  case instants =>
      intro u x isInstant
      rw [pcs] at isInstant
      rw [counts]
      by_cases same : u = t
      · rw [same, goto_pc_self, instants] at isInstant
        cases isInstant
      · rw [goto_pc_other same] at isInstant
        exact rates.instants u x isInstant
  case smoothing =>
      intro u found
      rw [pcs] at found
      by_cases same : u = t
      · rw [same, goto_pc_self, smooths] at found
        cases found
      · rw [goto_pc_other same] at found
        exact init (rates.smoothing u found)
  case storing => rw [counts]; exact fun _ _ => rate

theorem Rates.step (rates : s.Rates r) (rule : s.Rule t (s.pc t) s') : s'.Rates r := by
  have instants := rates.instants t
  have smooths := rates.smoothing t
  have stores := rates.storing t
  have moved := @Rates.moved _ _ _ _ _ s s' t r rates
  have store := @Rates.store _ _ _ _ _ s s' t r rates
  generalize s.pc t = pc at rule instants smooths stores moved store
  cases rule
  case early this caller now | beaten this caller now prev | ticked this caller =>
      obtain ⟨noInstant, noSmoothing, noStoring⟩ := back_quiet (r := r) this caller
      refine moved rfl rfl rfl (.inl rfl) rfl (fun x some_ => ?_) (fun some_ => ?_) fun some_ => ?_
      · rw [noInstant] at some_; cases some_
      · rw [noSmoothing] at some_; cases some_
      · rw [noStoring] at some_; cases some_
  case valued this caller left buffers ran idle =>
      by_cases same : this = r
      · subst same
        refine moved rfl rfl rfl (.inr ⟨(s.buffers.result t).toInt, Function.update_self ..⟩) rfl
          (fun x some_ => ?_) (by simp [Averages.smoothing]) (by simp [Averages.storing])
        simp only [instant, if_true, Option.some.injEq] at some_
        simp only [goto, Function.update_self, ← some_]
        exact between_last _ _
      · exact moved rfl rfl rfl (.inl (Function.update_of_ne (Ne.symm same) ..)) rfl
          (by simp [instant, same]) (by simp [Averages.smoothing]) (by simp [Averages.storing])
  case smoothed this caller left x =>
      by_cases same : this = r
      · subst same
        refine store rfl rfl ?_ id rfl rfl rfl
        simp only [goto, Function.update_self]
        exact (rates.init (smooths (decide_eq_true rfl))).smooth rates.alpha
          (instants x (if_pos rfl))
      · exact moved rfl (Function.update_of_ne (Ne.symm same) ..) rfl (.inl rfl) rfl
          (by simp [instant]) (by simp [Averages.smoothing]) (by simp [Averages.storing])
  case storeRate this caller left x =>
      by_cases same : this = r
      · subst same
        refine store rfl rfl ?_ id rfl rfl rfl
        simp only [goto, Function.update_self]
        exact instants x (if_pos rfl)
      · exact moved rfl (Function.update_of_ne (Ne.symm same) ..) rfl (.inl rfl) rfl
          (by simp [instant]) (by simp [Averages.smoothing]) (by simp [Averages.storing, same])
  case storeInit this caller left =>
      by_cases same : this = r
      · subst same
        exact store rfl rfl (stores (decide_eq_true rfl)) (fun _ => Function.update_self ..) rfl rfl
          rfl
      · exact moved rfl rfl (Function.update_of_ne (Ne.symm same) ..) (.inl rfl) rfl
          (by simp [instant]) (by simp [Averages.smoothing]) (by simp [Averages.storing])
  case later this caller left x isSet =>
      refine moved rfl rfl rfl (.inl rfl) rfl instants (fun mine => ?_) (by simp [Averages.storing])
      exact of_decide_eq_true mine ▸ isSet
  all_goals exact moved rfl rfl rfl (.inl rfl) rfl instants smooths stores

/-! ## Which averages there are -/

/-- Threads work on averages that have been constructed, and the others have not begun. -/
structure Alive (s : Averages T R) : Prop where
  named : ∀ t, ∀ r ∈ (s.pc t).averages, s.buffers.live r = true
  unborn : ∀ r, s.buffers.live r ≠ true →
    s.ticks r = 0 ∧ s.counts r = [] ∧ s.rate r = 0 ∧ s.init r = false

theorem averages_back (this : R) (caller : Caller R) {r : R}
    (member : r ∈ (PC.back this caller).averages) : r ∈ this :: caller.rest := by
  cases caller with
  | update val later =>
      cases later with
      | nil => cases member
      | cons next later => exact List.mem_cons_of_mem _ member
  | rate =>
      cases List.mem_singleton.1 member
      exact List.mem_cons_self ..

/-- The step of a thread works on the averages of its call. -/
theorem Rule.averages {pc : PC R} (rule : s.Rule t pc s') :
    (∀ u, u ≠ t → s'.pc u = s.pc u) ∧ (∀ r ∈ (s'.pc t).averages, r ∈ pc.averages) ∧
    s'.buffers.live = s.buffers.live ∧
    ∀ r, r ∉ pc.averages → s'.ticks r = s.ticks r ∧ s'.counts r = s.counts r ∧
      s'.rate r = s.rate r ∧ s'.init r = s.init r := by
  have others : ∀ (q : Averages T R) (pc' : PC R), q.pc = s.pc →
      ∀ u, u ≠ t → (q.goto t pc').pc u = s.pc u := fun q pc' same u other =>
    (goto_pc_other other).trans (congrFun same u)
  have elsewhere : ∀ {α : Type} (f : R → α) (this : R) (l : List R) (x : α) (r : R), r ∉ this :: l →
      Function.update f this x r = f r := fun f this l x r outside =>
    Function.update_of_ne (by rintro rfl; exact outside (List.mem_cons_self ..)) ..
  cases rule
  case early this caller now | beaten this caller now prev | ticked this caller =>
      refine ⟨others s _ rfl, fun r member => ?_, rfl, fun r _ => ⟨rfl, rfl, rfl, rfl⟩⟩
      rw [goto_pc_self] at member
      exact averages_back this caller member
  case add this val later buffers ran | tick this caller left buffers ran =>
      refine ⟨others _ _ rfl, fun r member => ?_, Striped.State.live_same ran (by simp),
        fun r _ => ⟨rfl, rfl, rfl, rfl⟩⟩
      rw [goto_pc_self] at member
      exact member
  case adding this caller buffers ran busy | value this caller left buffers ran busy
      | reset this caller left x buffers ran busy =>
      refine ⟨others _ _ rfl, fun r member => ?_, Striped.State.live_same ran (by simp),
        fun r _ => ⟨rfl, rfl, rfl, rfl⟩⟩
      rw [goto_pc_self] at member
      exact member
  case valued this caller left buffers ran idle =>
      refine ⟨others _ _ rfl, fun r member => ?_, Striped.State.live_same ran (by simp),
        fun r outside => ⟨rfl, elsewhere _ _ _ _ r outside, rfl, rfl⟩⟩
      rw [goto_pc_self] at member
      exact member
  case swapped this caller now =>
      refine ⟨others _ _ rfl, fun r member => ?_, rfl,
        fun r outside => ⟨elsewhere _ _ _ _ r outside, rfl, rfl, rfl⟩⟩
      rw [goto_pc_self] at member
      exact member
  case smoothed this caller left x | storeRate this caller left x =>
      refine ⟨others _ _ rfl, fun r member => ?_, rfl,
        fun r outside => ⟨rfl, rfl, elsewhere _ _ _ _ r outside, rfl⟩⟩
      rw [goto_pc_self] at member
      exact member
  case storeInit this caller left =>
      refine ⟨others _ _ rfl, fun r member => ?_, rfl,
        fun r outside => ⟨rfl, rfl, rfl, elsewhere _ _ _ _ r outside⟩⟩
      rw [goto_pc_self] at member
      exact member
  all_goals
    refine ⟨others _ _ rfl, fun r member => ?_, rfl, fun r _ => ⟨rfl, rfl, rfl, rfl⟩⟩
    rw [goto_pc_self] at member
    first | exact member | cases member

theorem Alive.step (alive : s.Alive) (rule : s.Rule t (s.pc t) s') : s'.Alive := by
  obtain ⟨others, same, lives, untouched⟩ := rule.averages
  refine ⟨fun u r member => ?_, fun r dead => ?_⟩
  · by_cases self : u = t
    · subst self
      rw [lives]
      exact alive.named u r (same r member)
    · rw [others u self] at member
      rw [lives]
      exact alive.named u r member
  · have dead' : s.buffers.live r ≠ true := lives ▸ dead
    obtain ⟨ticks, counts, rate, init⟩ := untouched r fun member => dead' (alive.named t r member)
    rw [ticks, counts, rate, init]
    exact alive.unborn r dead'

/-! ## Every run -/

/-- What holds of every average. -/
structure Sound (s : Averages T R) : Prop where
  alive : s.Alive
  paced : ∀ r, s.buffers.live r = true → s.Paced r
  rates : ∀ r, s.Rates r

/-- Smoothing factors are between 0 and 1. -/
def Fraction : Action T R → Prop
  | .make _ alpha => 0 ≤ alpha ∧ alpha ≤ 1
  | _ => True

theorem sound_new (hashCode : T → Word) : (new hashCode : Averages T R).Sound where
  alive :=
    { named := fun t r member => absurd member List.not_mem_nil
      unborn := fun _ _ => ⟨rfl, rfl, rfl, rfl⟩ }
  paced r live := by simp [new, Striped.State.init] at live
  rates r := by
    refine ⟨by simp [new], .inl rfl, by simp [new], ?_, ?_, ?_⟩ <;>
      simp [new, instant, Averages.smoothing, Averages.storing]

/-- The constructor of `RateEWMA`. -/
theorem Sound.make (sound : s.Sound) {this : R} {alpha : ℚ} (fraction : 0 ≤ alpha ∧ alpha ≤ 1)
    (taken : s.next (.make this alpha) = some s') : s'.Sound := by
  obtain ⟨buffers, ran, rfl⟩ := Option.map_eq_some_iff.1 taken
  obtain ⟨notLive, lives⟩ := Striped.State.live_make ran
  have stays : ∀ r, s.buffers.live r = true → buffers.live r = true := by
    intro r live
    rw [lives]
    split
    · rfl
    · exact live
  have unnamed : ∀ t, this ∉ (s.pc t).averages := fun t member =>
    notLive (sound.alive.named t this member)
  refine ⟨⟨fun t r member => stays r (sound.alive.named t r member), fun r dead =>
    sound.alive.unborn r fun live => dead (stays r live)⟩, fun r live => ?_, fun r => ?_⟩
  · by_cases same : r = this
    · subst same
      obtain ⟨ticks, counts, -, -⟩ := sound.alive.unborn r notLive
      have quiet : ∀ t, owes r (s.pc t) = 0 := by
        intro t
        have outside := unnamed t
        cases atPc : s.pc t <;> rw [atPc] at outside <;>
          first | rfl | exact if_neg (by rintro rfl; exact outside (List.mem_cons_self ..))
      refine ⟨?_, ?_, fun t c n atPc => ?_, fun t c n p atPc => ?_, ?_⟩
      · simp [ticks]
      · simp
      · exact absurd (by rw [show s.pc t = _ from atPc]; exact List.mem_cons_self ..) (unnamed t)
      · exact absurd (by rw [show s.pc t = _ from atPc]; exact List.mem_cons_self ..) (unnamed t)
      · simp [counts, quiet, ticks]
    · rw [lives, if_neg same] at live
      have paced := sound.paced r live
      refine ⟨?_, ?_, paced.now, paced.prev, paced.counted⟩
      · simpa [Function.update_of_ne same] using paced.ticks
      · simpa [Function.update_of_ne same] using paced.clock
  · have rates := sound.rates r
    refine ⟨?_, rates.rate, rates.init, rates.instants, rates.smoothing, rates.storing⟩
    by_cases same : r = this
    · subst same
      simpa using fraction
    · simpa [Function.update_of_ne same] using rates.alpha

/-- A thread moves without touching any average. -/
theorem Sound.enter (sound : s.Sound) {pc : PC R}
    (live : ∀ r ∈ pc.averages, s.buffers.live r = true)
    (now : ∀ r caller now, pc = .load r caller now → now ≤ s.clock)
    (prev : ∀ r caller now prev, pc = .swap r caller now prev →
      now ≤ s.clock ∧ prev + interval ≤ now)
    (owed : ∀ r, owes r pc = owes r (s.pc t))
    (instants : ∀ r x, instant r pc = some x → Between (s.counts r) x)
    (smooths : ∀ r, Averages.smoothing r pc = true → s.init r = true)
    (stores : ∀ r, Averages.storing r pc = true → Between (s.counts r) (s.rate r)) :
    (s.goto t pc).Sound where
  alive := by
    refine ⟨fun u r member => ?_, sound.alive.unborn⟩
    by_cases same : u = t
    · rw [same, goto_pc_self] at member
      exact live r member
    · rw [goto_pc_other same] at member
      exact sound.alive.named u r member
  paced r born := (sound.paced r born).moved rfl rfl rfl rfl rfl (now r) (prev r)
    (by rw [owed]; rfl)
  rates r := (sound.rates r).moved rfl rfl rfl (.inl rfl) rfl (instants r) (smooths r) (stores r)

theorem Sound.next (sound : s.Sound) {a : Action T R} (fraction : Fraction a)
    (taken : s.next a = some s') : s'.Sound := by
  cases a with
  | make this alpha => exact sound.make fraction taken
  | update t this later val =>
      simp only [Averages.next] at taken
      split at taken
      · rename_i enabled
        cases taken
        exact sound.enter enabled.2 (by simp) (by simp) (fun r => by rw [enabled.1]; rfl)
          (by simp [instant]) (by simp [Averages.smoothing]) (by simp [Averages.storing])
      · cases taken
  | rate t this =>
      simp only [Averages.next] at taken
      split at taken
      · rename_i enabled
        cases taken
        refine sound.enter (fun r member => ?_) (by simp) (by simp)
          (fun r => by rw [enabled.1]; rfl) (by simp [instant]) (by simp [Averages.smoothing])
          (by simp [Averages.storing])
        cases List.mem_singleton.1 member
        exact enabled.2
      · cases taken
  | step t =>
      have rule := rule_of_step taken
      obtain ⟨-, -, lives, -⟩ := rule.averages
      exact ⟨sound.alive.step rule, fun r live => (sound.paced r (lives ▸ live)).step rule,
        fun r => (sound.rates r).step rule⟩
  | spurious t =>
      simp only [Averages.next] at taken
      split at taken
      · rename_i this caller left x expected atPc
        cases taken
        have named := sound.alive.named t
        have instants := fun r => (sound.rates r).instants t
        have smooths := fun r => (sound.rates r).smoothing t
        rw [atPc] at named instants smooths
        exact sound.enter named (by simp) (by simp) (fun r => by rw [atPc]; rfl) instants smooths
          (by simp [Averages.storing])
      · cases taken
  | wait duration =>
      cases taken
      refine ⟨⟨sound.alive.named, sound.alive.unborn⟩, fun r live => ?_, fun r => ?_⟩
      · obtain ⟨ticks, clock, now, prev, counted⟩ := sound.paced r live
        refine ⟨ticks, Nat.le_trans clock (Nat.le_add_right ..), fun t c n atPc =>
          Nat.le_trans (now t c n atPc) (Nat.le_add_right ..), fun t c n p atPc => ?_, counted⟩
        obtain ⟨known, due⟩ := prev t c n p atPc
        exact ⟨Nat.le_trans known (Nat.le_add_right ..), due⟩
      · obtain ⟨alpha, rate, init, instants, smooths, stores⟩ := sound.rates r
        exact ⟨alpha, rate, init, instants, smooths, stores⟩
  | reclaim storage =>
      obtain ⟨buffers, ran, rfl⟩ := Option.map_eq_some_iff.1 taken
      have lives := Striped.State.live_same ran (by simp)
      refine ⟨⟨fun t r member => ?_, fun r dead => ?_⟩, fun r live => ?_, fun r => ?_⟩
      · show buffers.live r = true
        rw [lives]
        exact sound.alive.named t r member
      · exact sound.alive.unborn r (lives ▸ dead)
      · obtain ⟨ticks, clock, now, prev, counted⟩ := sound.paced r (lives ▸ live)
        exact ⟨ticks, clock, now, prev, counted⟩
      · obtain ⟨alpha, rate, init, instants, smooths, stores⟩ := sound.rates r
        exact ⟨alpha, rate, init, instants, smooths, stores⟩

/-- **What every interleaving keeps of an average.** Take any run from a fresh system: any number
of averages with smoothing factors between 0 and 1, calls of `update`, `mark` and `rate` by any
threads, and the steps of all of them in any order. Of every average

* the ticks that have been claimed fit into the time between its construction and `last_tick_`,
  which is not in the future;
* every tick that has been claimed has been counted or will be, by the thread that claimed it;
* once `init_` is set, the rate lies between the least and the largest rate of a single tick. -/
theorem rate_between {hashCode : T → Word} {as : List (Action T R)}
    (ran : Theory.run next (new hashCode) as = some s) (fractions : ∀ a ∈ as, Fraction a)
    (live : s.buffers.live r = true) :
    s.ticks r ≤ (s.lastTick r - s.created r) / interval ∧ s.lastTick r ≤ s.clock ∧
    (s.counts r).length + ∑ t, owes r (s.pc t) = s.ticks r ∧
    (s.init r = true → Between (s.counts r) (s.rate r)) := by
  have met : Theory.Along next (fun _ a => Fraction a) (new hashCode) as :=
    Theory.along_of_forall fractions
  have sound : s.Sound := Theory.run_along (P := Sound)
    (fun s a s' sound fraction taken => sound.next fraction taken) (sound_new hashCode) met ran
  obtain ⟨ticks, clock, -, -, counted⟩ := sound.paced r live
  refine ⟨?_, clock, counted, (sound.rates r).init⟩
  have positive : 0 < interval := by decide
  exact (Nat.le_div_iff_mul_le positive).2 (by omega)

/-- Thread 0 records 5. Ten seconds later threads 0 and 1 both find that ticks are due; thread 0
makes the two of them. -/
def rateBeside : List (Action (Fin 2) Unit) :=
  Action.make () (1 / 2) :: .update 0 () [] 5 :: List.replicate 7 (.step 0) ++
    Action.wait 10000000 :: .rate 0 () :: .rate 1 () :: List.replicate 2 (.step 0) ++
      List.replicate 2 (Action.step 1) ++ Action.step 0 :: List.replicate 2 (.step 1) ++
        List.replicate 26 (Action.step 0)

theorem rate_between_beside : ∃ s : Averages (Fin 2) Unit,
    Theory.run next (new fun _ => 0) rateBeside = some s ∧
    (s.ticks (), s.counts ()) = (2, [5, 0]) ∧ 2 ≤ (s.lastTick () - s.created ()) / interval ∧
    Between [5, 0] (s.rate ()) := by
  have played : (Theory.run next (new fun _ => 0 : Averages (Fin 2) Unit) rateBeside).map
      (fun s => (s.ticks (), s.counts (), s.init (), s.buffers.live ())) =
        some (2, [5, 0], true, true) := by
    decide +kernel
  have fractions : ∀ a ∈ rateBeside, Fraction a := by
    intro a member
    simp only [rateBeside, List.cons_append, List.mem_cons, List.mem_append,
      List.mem_replicate] at member
    rcases member with rfl | member
    · norm_num [Fraction]
    · cases a with
      | make this alpha => simp at member
      | _ => trivial
  obtain ⟨s, ran, left⟩ := Option.map_eq_some_iff.1 played
  simp only [Prod.mk.injEq] at left
  obtain ⟨ticks, counts, init, live⟩ := left
  obtain ⟨fit, -, -, between⟩ := rate_between ran fractions live
  rw [ticks] at fit
  rw [counts] at between
  exact ⟨s, ran, by rw [ticks, counts], fit, between init⟩

end Averages

end Ccmetrics.Meter
