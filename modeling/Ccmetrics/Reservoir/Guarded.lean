/-
# Reservoir.Guarded -- no `Data` is used after it has been deleted, but for the old count

What a thread relies on at a point is `Here`: the `Data` it works on is in its hazard pointer, or it
holds the mutex and the `Data` is the one in `data_`, or it is the only thread that knows it (its
`ward`). `Rest t hand` is the rest of the system while thread `t` takes a step with the `Data`
`hand` in its hands: every `Data` is in some `data_`, somebody's ward, retired, or the hand
(`accounted`). A step takes the thread out (`Sound.rest`), moves the hand (`alloc`, `setData`) and
puts the thread back (`Rest.goto`).

* `touches_alive`: in every reachable state, the `Data` that a thread touches next has not been
  deleted. The one exception is `data->count` in `rescale`.
* `data_deleted`: every `Data` is deleted exactly once.
-/
import Mathlib.Algebra.Order.Field.Rat
import Ccmetrics.Hazard.Lone
import Ccmetrics.Reservoir.Machine

namespace Ccmetrics.Reservoir.Reservoirs

set_option autoImplicit false
set_option linter.unusedSectionVars false

open Theory (OrderedMap)

variable {T O K V : Type} [DecidableEq T] [DecidableEq O] [Field K] [LinearOrder K] [Inhabited K]
variable {exp : Int → K} {s s' : Reservoirs T O K V} {t u : T} {o : O} {p hand : Nat}
variable {point : Point O K V}

/-- A `Data` that is neither published nor retired. -/
def Ward (s : Reservoirs T O K V) (p : Nat) : Prop :=
  (s.owner p).isSome ∧ p ∉ s.sys.retired ∧ ∀ o, s.data o ≠ p

/-- What thread `t` relies on at a point. -/
def Here (s : Reservoirs T O K V) (t : T) : Point O K V → Prop
  | .hazard o _ nextdata => s.owner nextdata = some o
  | .read o _ nextdata => s.owner nextdata = some o ∧ s.sys.Holding t 0 nextdata
  | .store o _ data nextdata =>
      s.owner nextdata = some o ∧ s.sys.Holding t 0 nextdata ∧ s.data o = data
  | .entries o _ data nextdata _ =>
      s.owner data = some o ∧ s.sys.Holding t 0 nextdata ∧ s.data o = nextdata
  | .retire o _ _ nextdata _ | .reinsert o _ _ nextdata _ =>
      s.sys.Holding t 0 nextdata ∧ s.data o = nextdata
  | .offer counted values _ (.update o) =>
      counted = values ∧ s.owner values = some o ∧ s.sys.Holding t 0 values
  | .offer _ values _ (.rescale o _ _ nextdata _) =>
      values = nextdata ∧ s.sys.Holding t 0 nextdata ∧ s.data o = nextdata
  | .ready o _ data => s.owner data = some o ∧ s.sys.Holding t 0 data
  | .values o data _ => s.data o = data
  | .acquire (.destroy data) | .close data => data ≠ 0
  | _ => True

/-- Thread `t` is inside the call of the point. -/
def Inside (s : Reservoirs T O K V) (t : T) : Option (Hazard.Call Nat O) → Prop
  | some c => c.Runs (s.sys.pc t)
  | none => s.sys.pc t = .idle

/-- Thread `t` may be at the point. -/
structure Fine (s : Reservoirs T O K V) (t : T) (point : Point O K V) : Prop where
  inside : s.Inside t point.call
  has : point.holding = true → (s.sys.own t).isSome
  alive : ∀ o, point.this = some o → s.data o ≠ 0
  locked : ∀ o, point.locks = some o → s.mutex o = some t
  ward : point.ward ≠ 0 → s.Ward point.ward
  here : s.Here t point

/-- What does not depend on where the threads stand. -/
structure Common (s : Reservoirs T O K V) : Prop where
  orderly : s.sys.Orderly 1
  covered : s.sys.Sound 1 s.data
  started : 0 < s.fresh
  owned : ∀ p, (s.owner p).isSome ↔ 0 < p ∧ p < s.fresh
  current : ∀ o, s.data o ≠ 0 → s.owner (s.data o) = some o ∧ s.data o ∉ s.sys.retired
  given : ∀ p ∈ s.sys.retired, (s.owner p).isSome
  nodup : s.sys.retired.Nodup
  constructed : ∀ o, s.data o ≠ 0 → s.constructed o ≠ none

/-- All threads but `t`, which is about to go on and has the `Data` `hand` for itself. -/
structure Rest (s : Reservoirs T O K V) (t : T) (hand : Nat) : Prop where
  common : s.Common
  idle : s.sys.pc t = .idle
  others : ∀ u, u ≠ t → s.Fine u (s.point u)
  apart : ∀ u v, u ≠ t → v ≠ t → (s.point u).ward ≠ 0 → (s.point u).ward = (s.point v).ward → u = v
  mine : hand ≠ 0 → s.Ward hand ∧ ∀ u, u ≠ t → (s.point u).ward ≠ hand
  accounted : ∀ p, 0 < p → p < s.fresh →
    (∃ o, s.data o = p) ∨ (∃ u, u ≠ t ∧ (s.point u).ward = p) ∨ p ∈ s.sys.retired ∨ p = hand

structure Sound (s : Reservoirs T O K V) : Prop where
  common : s.Common
  fine : ∀ t, s.Fine t (s.point t)
  apart : ∀ t u, (s.point t).ward ≠ 0 → (s.point t).ward = (s.point u).ward → t = u
  accounted : ∀ p, 0 < p → p < s.fresh →
    (∃ o, s.data o = p) ∨ (∃ t, (s.point t).ward = p) ∨ p ∈ s.sys.retired

/-! ## Other threads -/

/-- What another thread leaves alone. -/
structure Keeps (s s' : Reservoirs T O K V) (u : T) : Prop where
  pc : s'.sys.pc u = s.sys.pc u
  own : s'.sys.own u = s.sys.own u
  holding : ∀ p, s.sys.Holding u 0 p → s'.sys.Holding u 0 p
  owner : ∀ p o, s.owner p = some o → s'.owner p = some o

theorem Here.keep (here : s.Here u point)
    (holding : ∀ p, s.sys.Holding u 0 p → s'.sys.Holding u 0 p)
    (owner : ∀ p o, s.owner p = some o → s'.owner p = some o)
    (data : ∀ o, point.locks = some o → s'.data o = s.data o) : s'.Here u point := by
  cases point with
  | hazard o a nextdata => exact owner _ _ here
  | read o a nextdata => exact ⟨owner _ _ here.1, holding _ here.2⟩
  | store o a data' nextdata =>
      exact ⟨owner _ _ here.1, holding _ here.2.1, (data o rfl).trans here.2.2⟩
  | entries o a data' nextdata snap =>
      exact ⟨owner _ _ here.1, holding _ here.2.1, (data o rfl).trans here.2.2⟩
  | retire o a data' nextdata snap | reinsert o a data' nextdata snap =>
      exact ⟨holding _ here.1, (data o rfl).trans here.2⟩
  | offer counted values pc site =>
      cases site with
      | update o => exact ⟨here.1, owner _ _ here.2.1, holding _ here.2.2⟩
      | rescale o a data' nextdata snap =>
          exact ⟨here.1, holding _ here.2.1, (data o rfl).trans here.2.2⟩
  | ready o a data' => exact ⟨owner _ _ here.1, holding _ here.2⟩
  | values o data' taken => exact (data o rfl).trans here
  | acquire c => cases c <;> exact here
  | close data' => exact here
  | _ => trivial

theorem Fine.keep (fine : s.Fine u point) (keeps : s.Keeps s' u)
    (data : ∀ o, point.locks = some o → s'.data o = s.data o ∧ s'.mutex o = s.mutex o)
    (alive : ∀ o, point.this = some o → s.data o ≠ 0 → s'.data o ≠ 0)
    (ward : point.ward ≠ 0 → point.ward ∉ s'.sys.retired ∧ ∀ o, s'.data o ≠ point.ward) :
    s'.Fine u point where
  inside := by
    have inside := fine.inside
    unfold Inside at inside ⊢
    rw [keeps.pc]
    exact inside
  has := by
    rw [keeps.own]
    exact fine.has
  alive o this := alive o this (fine.alive o this)
  locked o locks := (data o locks).2.trans (fine.locked o locks)
  ward some_ := by
    obtain ⟨o, owns⟩ := Option.isSome_iff_exists.1 (fine.ward some_).1
    exact ⟨Option.isSome_iff_exists.2 ⟨o, keeps.owner _ _ owns⟩, ward some_⟩
  here := fine.here.keep keeps.holding keeps.owner fun o locks => (data o locks).1

theorem fine_idle (idle : s.sys.pc t = .idle) : s.Fine t .idle where
  inside := idle
  has holds := by cases holds
  alive _ this := by cases this
  locked _ locks := by cases locks
  ward some_ := absurd rfl some_
  here := trivial

theorem Sound.rest (sound : s.Sound) (outside : (s.point t).call = none) :
    s.Rest t (s.point t).ward where
  common := sound.common
  idle := by
    have inside := (sound.fine t).inside
    rw [outside] at inside
    exact inside
  others u _ := sound.fine u
  apart u v _ _ := sound.apart u v
  mine some_ := ⟨(sound.fine t).ward some_, fun u other same =>
    other (sound.apart t u some_ same.symm).symm⟩
  accounted p positive born := by
    rcases sound.accounted p positive born with current | ⟨u, ward⟩ | retired
    · exact .inl current
    · by_cases isMe : u = t
      · exact .inr (.inr (.inr (by rw [← ward, isMe])))
      · exact .inr (.inl ⟨u, isMe, ward⟩)
    · exact .inr (.inr (.inl retired))

namespace Rest

/-- Two states that differ in what `Rest` does not mention. -/
theorem of_same (rest : s.Rest t hand) (sys : s'.sys = s.sys) (fresh : s'.fresh = s.fresh)
    (data : s'.data = s.data) (owner : s'.owner = s.owner) (points : s'.point = s.point)
    (constructed : ∀ o, s.constructed o ≠ none → s'.constructed o ≠ none)
    (mutex : ∀ u o, u ≠ t → (s.point u).locks = some o → s'.mutex o = s.mutex o) :
    s'.Rest t hand := by
  obtain ⟨⟨orderly, covered, started, owned, current, given, nodup, once⟩, idle, others, apart,
    mine, accounted⟩ := rest
  refine ⟨⟨?_, ?_, ?_, ?_, ?_, ?_, ?_, ?_⟩, ?_, fun u other => ?_, ?_, ?_, ?_⟩
  · rwa [sys]
  · rwa [sys, data]
  · rwa [fresh]
  · rwa [owner, fresh]
  · rwa [data, owner, sys]
  · rwa [sys, owner]
  · rwa [sys]
  · intro o some_
    rw [data] at some_
    exact constructed o (once o some_)
  · rwa [sys]
  · rw [points]
    refine (others u other).keep ⟨by rw [sys], by rw [sys], fun p holds => by rwa [sys],
      fun p o owns => by rwa [owner]⟩ (fun o locks => ?_) (fun o _ some_ => by rwa [data])
      fun some_ => ?_
    · exact ⟨by rw [data], mutex u o other locks⟩
    · obtain ⟨-, unretired, unread⟩ := (others u other).ward some_
      exact ⟨by rwa [sys], by rwa [data]⟩
  · rwa [points]
  · unfold Ward
    rwa [owner, sys, data, points]
  · rwa [fresh, data, points, sys]

/-- Locking or unlocking a mutex that no other thread holds. -/
theorem setMutex (rest : s.Rest t hand) (holder : Option T)
    (free : ∀ u, u ≠ t → (s.point u).locks ≠ some o) : (s.setMutex o holder).Rest t hand := by
  refine rest.of_same rfl rfl rfl rfl rfl (fun _ once => once) fun u x other locks => ?_
  have apart : x ≠ o := by
    rintro rfl
    exact free u other locks
  exact if_neg apart

/-- A mutex that is free, or that `t` holds, is held by nobody else. -/
theorem not_locked (rest : s.Rest t hand) (free : s.mutex o = none ∨ s.mutex o = some t) (u : T)
    (other : u ≠ t) : (s.point u).locks ≠ some o := by
  intro locks
  have held := (rest.others u other).locked o locks
  rcases free with free | mine
  · rw [free] at held
    cases held
  · rw [mine] at held
    exact other (Option.some.inj held).symm

/-- A number that no `Data` has yet. -/
theorem unknown (common : s.Common) : s.owner s.fresh = none := by
  by_contra some_
  have born := (common.owned s.fresh).1 (Option.isSome_iff_ne_none.2 some_)
  exact Nat.lt_irrefl _ born.2

theorem owner_ne (common : s.Common) (owns : (s.owner p).isSome) : p ≠ s.fresh :=
  Nat.ne_of_lt ((common.owned p).1 owns).2

theorem alloc (rest : s.Rest t 0) (o : O) (now : Nat) : (s.alloc o now).Rest t s.fresh := by
  have common := rest.common
  have same : ∀ p, p ≠ s.fresh → (s.alloc o now).owner p = s.owner p := fun p other => if_neg other
  have mine : (s.alloc o now).owner s.fresh = some o := if_pos rfl
  have unread : ∀ x, s.data x ≠ s.fresh := by
    intro x isFresh
    have owns := (common.current x (isFresh ▸ Nat.ne_of_gt common.started)).1
    rw [isFresh, unknown common] at owns
    cases owns
  have unretired : s.fresh ∉ s.sys.retired := fun retired =>
    owner_ne common (common.given _ retired) rfl
  refine ⟨⟨common.orderly, common.covered, Nat.succ_pos _, fun p => ?_, fun x some_ => ?_,
    fun p retired => ?_, common.nodup, common.constructed⟩, rest.idle, fun u other => ?_, rest.apart,
    fun _ => ⟨⟨?_, unretired, unread⟩, fun u other isFresh => ?_⟩, fun p positive born => ?_⟩
  · have started := common.started
    by_cases isFresh : p = s.fresh
    · subst isFresh
      rw [mine]
      exact iff_of_true rfl ⟨started, Nat.lt_succ_self _⟩
    · rw [same p isFresh, common.owned p]
      show _ ↔ 0 < p ∧ p < s.fresh + 1
      omega
  · obtain ⟨owns, alive⟩ := common.current x some_
    exact ⟨(same _ (unread x)).trans owns, alive⟩
  · rw [same p (owner_ne common (common.given p retired))]
    exact common.given p retired
  · refine (rest.others u other).keep ⟨rfl, rfl, fun _ holds => holds, fun p x owns => ?_⟩
      (fun _ _ => ⟨rfl, rfl⟩) (fun _ _ some_ => some_) fun some_ => ?_
    · rw [same p (owner_ne common (by rw [owns]; rfl))]
      exact owns
    · exact ((rest.others u other).ward some_).2
  · rw [mine]
    rfl
  · have isWard : (s.point u).ward = s.fresh := isFresh
    have some_ : (s.point u).ward ≠ 0 := by
      rw [isWard]
      exact Nat.ne_of_gt common.started
    exact owner_ne common ((rest.others u other).ward some_).1 isWard
  · by_cases isFresh : p = s.fresh
    · exact .inr (.inr (.inr isFresh))
    · have older : p < s.fresh := Nat.lt_of_le_of_ne (Nat.le_of_lt_succ born) isFresh
      rcases rest.accounted p positive older with current | ward | retired | none_
      · exact .inl current
      · exact .inr (.inl ward)
      · exact .inr (.inr (.inl retired))
      · exact absurd none_ (Nat.ne_of_gt positive)

/-- The hand and what is in `data_` change places. -/
theorem setData (rest : s.Rest t p) (owns : p ≠ 0 → s.owner p = some o ∧ s.constructed o ≠ none)
    (free : ∀ u, u ≠ t → (s.point u).locks ≠ some o)
    (alive : p ≠ 0 ∨ ∀ u, u ≠ t → (s.point u).this ≠ some o) :
    (s.setData o p).Rest t (s.data o) := by
  have common := rest.common
  have same : ∀ x, x ≠ o → (s.setData o p).data x = s.data x := fun x other => if_neg other
  have mine : (s.setData o p).data o = p := if_pos rfl
  have unretired : p ∉ s.sys.retired := by
    by_cases none_ : p = 0
    · intro retired
      have born := (common.owned p).1 (common.given p retired)
      exact Nat.ne_of_gt born.1 none_
    · exact (rest.mine none_).1.2.1
  refine ⟨⟨common.orderly, ?_, common.started, common.owned, fun x some_ => ?_, common.given,
    common.nodup, fun x some_ => ?_⟩, rest.idle, fun u other => ?_, rest.apart, fun some_ => ?_,
    fun q positive born => ?_⟩
  · refine common.covered.write fun x => ?_
    by_cases isO : x = o
    · rw [isO, mine]
      exact .inr unretired
    · exact .inl (same x isO)
  · by_cases isO : x = o
    · subst isO
      rw [mine] at some_ ⊢
      exact ⟨(owns some_).1, unretired⟩
    · rw [same x isO] at some_ ⊢
      exact common.current x some_
  · by_cases isO : x = o
    · subst isO
      rw [mine] at some_
      exact (owns some_).2
    · rw [same x isO] at some_
      exact common.constructed x some_
  · refine (rest.others u other).keep ⟨rfl, rfl, fun _ holds => holds, fun _ _ owns => owns⟩
      (fun x locks => ⟨same x ?_, rfl⟩) (fun x this some_ => ?_) fun some_ => ?_
    · rintro rfl
      exact free u other locks
    · by_cases isO : x = o
      · subst isO
        rw [mine]
        rcases alive with some_ | none_
        · exact some_
        · exact absurd this (none_ u other)
      · rwa [same x isO]
    · obtain ⟨-, unretired, unread⟩ := (rest.others u other).ward some_
      refine ⟨unretired, fun x isWard => ?_⟩
      by_cases isO : x = o
      · rw [isO, mine] at isWard
        exact (rest.mine (isWard ▸ some_)).2 u other isWard.symm
      · exact unread x ((same x isO).symm.trans isWard)
  · obtain ⟨owner, unretired⟩ := common.current o some_
    refine ⟨⟨by show (s.owner _).isSome; rw [owner]; rfl, unretired, fun x isOld => ?_⟩,
      fun u other isOld => ?_⟩
    · by_cases isO : x = o
      · rw [isO, mine] at isOld
        exact (rest.mine (isOld ▸ some_)).1.2.2 o isOld.symm
      · rw [same x isO] at isOld
        have owner' := (common.current x (isOld ▸ some_)).1
        rw [isOld, owner] at owner'
        exact isO (Option.some.inj owner').symm
    · have isWard : (s.point u).ward = s.data o := isOld
      exact ((rest.others u other).ward (isWard ▸ some_)).2.2 o isWard.symm
  · rcases rest.accounted q positive born with ⟨x, current⟩ | ward | retired | isHand
    · by_cases isO : x = o
      · exact .inr (.inr (.inr (by rw [← current, isO])))
      · exact .inl ⟨x, (same x isO).trans current⟩
    · exact .inr (.inl ward)
    · exact .inr (.inr (.inl retired))
    · exact .inl ⟨o, mine.trans isHand.symm⟩

/-- What the thread's own call changes for others. -/
theorem keeps_goto (other : u ≠ t) : s.Keeps (s.goto t point) u := by
  unfold goto
  cases point.call with
  | none => exact ⟨rfl, rfl, fun _ holds => holds, fun _ _ owns => owns⟩
  | some c =>
      exact ⟨Hazard.Sys.call_pc_other c other, rfl, fun _ holds => holds, fun _ _ owns => owns⟩

theorem retired_goto {q : Nat} (retired : q ∈ (s.goto t point).sys.retired) :
    q ∈ s.sys.retired ∨ point.call = some (.retireNode q) := by
  unfold goto at retired
  cases call : point.call with
  | none =>
      rw [call] at retired
      exact .inl retired
  | some c =>
      rw [call] at retired
      rcases Hazard.Sys.mem_call_retired retired with old | rfl
      · exact .inl old
      · exact .inr rfl

theorem retired_old {q : Nat} (retired : q ∈ s.sys.retired) :
    q ∈ (s.goto t point).sys.retired := by
  unfold goto
  cases point.call with
  | none => exact retired
  | some c => cases c <;> first | exact retired | exact List.mem_cons_of_mem _ retired

/-- A call of `retireNode` is for what the thread takes to it. -/
theorem takes_of_call {q : Nat} (call : point.call = some (.retireNode q)) : point.takes = q := by
  cases point with
  | retire o a data nextdata snap | destroy data =>
      cases call
      rfl
  | _ => cases call

theorem takes_cases (point : Point O K V) :
    point.takes = point.ward ∨ point.ward = 0 ∧ point.call = some (.retireNode point.takes) := by
  cases point with
  | retire o a data nextdata snap | destroy data => exact .inr ⟨rfl, rfl⟩
  | _ => exact .inl rfl

/-- The thread goes on at a point and enters the call there. -/
theorem goto (rest : s.Rest t point.takes)
    (callable : ∀ c, point.call = some c → s.sys.Callable 1 t c)
    (retires : ∀ q, point.call = some (.retireNode q) → q ≠ 0)
    (has : point.holding = true → (s.sys.own t).isSome)
    (alive : ∀ o, point.this = some o → s.data o ≠ 0)
    (locked : ∀ o, point.locks = some o → s.mutex o = some t) (here : s.Here t point) :
    (s.goto t point).Sound := by
  have common := rest.common
  have own : (s.goto t point).sys.own = s.sys.own := by
    unfold Reservoirs.goto
    cases point.call <;> rfl
  have points : ∀ u, u ≠ t → (s.goto t point).point u = s.point u := fun u other => if_neg other
  have self : (s.goto t point).point t = point := if_pos rfl
  -- what is retired by the call was in the thread's hands
  have taken : ∀ q, point.call = some (.retireNode q) →
      s.Ward q ∧ ∀ u, u ≠ t → (s.point u).ward ≠ q := by
    intro q call
    have isHand := takes_of_call call
    have mine := rest.mine (isHand ▸ retires q call)
    rwa [isHand] at mine
  have ward : point.ward ≠ 0 → point.ward = point.takes := by
    intro some_
    rcases takes_cases point with same | ⟨none_, -⟩
    · exact same.symm
    · exact absurd none_ some_
  refine ⟨⟨?_, ?_, common.started, common.owned, fun x some_ => ?_, fun q retired => ?_, ?_,
    common.constructed⟩, fun u => ?_, fun u v some_ same => ?_, fun q positive born => ?_⟩
  · unfold Reservoirs.goto
    cases call : point.call with
    | none => exact common.orderly
    | some c =>
        refine common.orderly.step (.call _ _ c rest.idle (callable c call) ?_)
        rintro q rfl
        exact (taken q call).1.2.1
  · unfold Reservoirs.goto
    cases call : point.call with
    | none => exact common.covered
    | some c =>
        refine common.covered.call rest.idle (callable c call) ?_
        cases c with
        | retireNode q =>
            obtain ⟨-, unretired, unread⟩ := (taken q call).1
            exact ⟨retires q call, unretired, unread⟩
        | _ => trivial
  · obtain ⟨owns, unretired⟩ := common.current x some_
    refine ⟨owns, fun retired => ?_⟩
    rcases retired_goto retired with old | call
    · exact unretired old
    · exact (taken _ call).1.2.2 x rfl
  · rcases retired_goto retired with old | call
    · exact common.given q old
    · exact (taken q call).1.1
  · unfold Reservoirs.goto
    cases call : point.call with
    | none => exact common.nodup
    | some c =>
        cases c with
        | retireNode q => exact List.nodup_cons.2 ⟨(taken q call).1.2.1, common.nodup⟩
        | _ => exact common.nodup
  · by_cases isMe : u = t
    · subst isMe
      rw [self]
      refine ⟨?_, fun holds => own ▸ has holds, alive, locked, fun some_ => ?_, ?_⟩
      · unfold Reservoirs.goto Inside
        cases point.call with
        | none => exact rest.idle
        | some c =>
            simp only [Hazard.Sys.call_pc_self]
            exact Hazard.Call.runs_entry c _
      · obtain ⟨⟨owns, unretired, unread⟩, -⟩ := rest.mine (ward some_ ▸ some_)
        rw [← ward some_] at owns unretired unread
        refine ⟨owns, fun retired => ?_, unread⟩
        rcases retired_goto retired with old | call
        · exact unretired old
        · rw [takes_of_call call] at ward
          cases point <;> first | exact some_ rfl | cases call
      · refine here.keep (fun q holds => ?_) (fun _ _ owns => owns) fun _ _ => rfl
        unfold Reservoirs.goto
        cases point.call with
        | none => exact holds
        | some c => exact holds.call c
    · rw [points u isMe]
      refine (rest.others u isMe).keep (keeps_goto isMe) (fun _ _ => ⟨rfl, rfl⟩)
        (fun _ _ some_ => some_) fun some_ => ?_
      obtain ⟨-, unretired, unread⟩ := (rest.others u isMe).ward some_
      refine ⟨fun retired => ?_, unread⟩
      rcases retired_goto retired with old | call
      · exact unretired old
      · exact (taken _ call).2 u isMe rfl
  · by_cases isMe : u = t <;> by_cases isMe' : v = t
    · exact isMe.trans isMe'.symm
    · rw [isMe, self] at some_ same
      rw [points v isMe', ward some_] at same
      exact absurd same.symm ((rest.mine (ward some_ ▸ some_)).2 v isMe')
    · rw [points u isMe] at some_ same
      rw [isMe', self] at same
      have some' : point.ward ≠ 0 := same ▸ some_
      rw [ward some'] at same
      exact absurd same ((rest.mine (ward some' ▸ some')).2 u isMe)
    · rw [points u isMe] at some_ same
      rw [points v isMe'] at same
      exact rest.apart u v isMe isMe' some_ same
  · rcases rest.accounted q positive born with current | ⟨u, other, isWard⟩ | retired | isHand
    · exact .inl current
    · exact .inr (.inl ⟨u, (points u other).symm ▸ isWard⟩)
    · exact .inr (.inr (retired_old retired))
    · rcases takes_cases point with same | ⟨-, call⟩
      · exact .inr (.inl ⟨t, by rw [self, isHand, same]⟩)
      · refine .inr (.inr ?_)
        unfold Reservoirs.goto
        rw [call, isHand]
        exact List.mem_cons_self ..

/-- The thread goes on at a point where no call is made. -/
theorem quiet (rest : s.Rest t point.takes) (quiet : point.call = none)
    (has : point.holding = true → (s.sys.own t).isSome)
    (alive : ∀ o, point.this = some o → s.data o ≠ 0)
    (locked : ∀ o, point.locks = some o → s.mutex o = some t) (here : s.Here t point) :
    (s.goto t point).Sound := by
  refine rest.goto (fun c calls => ?_) (fun q calls => ?_) has alive locked here
  · rw [quiet] at calls
    cases calls
  · rw [quiet] at calls
    cases calls

end Rest

/-! ## The steps -/

theorem Common.owner_ne_zero (common : s.Common) (owns : s.owner p = some o) : p ≠ 0 :=
  Nat.ne_of_gt ((common.owned p).1 (by rw [owns]; rfl)).1

/-- A thread may go on from one point to another when its call has returned `r`. -/
structure Resumes (s : Reservoirs T O K V) (t : T) (before after : Point O K V)
    (r : Hazard.Ret Nat) : Prop where
  outside : after.call = none
  ward : after.ward = before.ward
  has : after.holding = true → before.holding = true ∨ ∃ hp, r = .record hp
  this : ∀ o, after.this = some o → before.this = some o
  locks : ∀ o, after.locks = some o → before.locks = some o
  here : s.Here t after

theorem resumes_idle {point : Point O K V} (none_ : point.ward = 0) (r : Hazard.Ret Nat) :
    s.Resumes t point .idle r where
  outside := rfl
  ward := none_.symm
  has holds := by cases holds
  this _ this := by cases this
  locks _ locks := by cases locks
  here := trivial

namespace Sound

/-- `loadAndRescaleIfNeeded`, and the exchange of `next_scale_` in `rescale`. -/
theorem schedule (sound : s.Sound) {a : Sample K V} (at_ : s.point t = .schedule o a)
    (acts : s.act exp t = some s') : s'.Sound := by
  have rest := sound.rest (t := t) (by rw [at_]; rfl)
  obtain ⟨-, has, alive, -, -, -⟩ := sound.fine t
  rw [at_] at rest has alive
  simp only [act, at_, Option.some.injEq] at acts
  subst acts
  split
  · exact rest.quiet rfl (fun _ => has rfl) alive (fun _ locks => by cases locks) trivial
  · refine rest.goto ?_ (fun _ calls => by cases calls) (fun _ => has rfl) alive
      (fun _ locks => by cases locks) trivial
    rintro c ⟨⟩
    exact ⟨has rfl, Nat.one_pos⟩

theorem compete (sound : s.Sound) {a : Sample K V} {next : Nat} (at_ : s.point t = .compete o a next)
    (acts : s.act exp t = some s') : s'.Sound := by
  have rest := sound.rest (t := t) (by rw [at_]; rfl)
  obtain ⟨-, has, alive, -, -, -⟩ := sound.fine t
  rw [at_] at rest has alive
  simp only [act, at_] at acts
  split at acts <;> cases acts
  · have won : (s.reschedule o).Rest t 0 :=
      rest.of_same rfl rfl rfl rfl rfl (fun _ once => once) fun _ _ _ _ => rfl
    exact won.quiet rfl (fun _ => has rfl) alive (fun _ locks => by cases locks) trivial
  · refine rest.goto ?_ (fun _ calls => by cases calls) (fun _ => has rfl) alive
      (fun _ locks => by cases locks) trivial
    rintro c ⟨⟩
    exact ⟨has rfl, Nat.one_pos⟩

theorem lock (sound : s.Sound) {a : Sample K V} (at_ : s.point t = .lock o a)
    (acts : s.act exp t = some s') : s'.Sound := by
  have rest := sound.rest (t := t) (by rw [at_]; rfl)
  obtain ⟨-, has, alive, -, -, -⟩ := sound.fine t
  rw [at_] at rest has alive
  simp only [act, at_] at acts
  split at acts
  case isFalse => cases acts
  rename_i free
  cases acts
  have locked := rest.setMutex (some t) (rest.not_locked (.inl free))
  refine (locked.alloc o a.now).goto ?_ (fun _ calls => by cases calls) (fun _ => has rfl) alive ?_ ?_
  · rintro c ⟨⟩
    exact ⟨has rfl, Nat.one_pos⟩
  · rintro x ⟨⟩
    exact if_pos rfl
  · exact if_pos rfl

theorem read (sound : s.Sound) {a : Sample K V} {nextdata : Nat}
    (at_ : s.point t = .read o a nextdata) (acts : s.act exp t = some s') : s'.Sound := by
  have rest := sound.rest (t := t) (by rw [at_]; rfl)
  obtain ⟨-, has, alive, locked, -, here⟩ := sound.fine t
  rw [at_] at rest has alive locked here
  simp only [act, at_, Option.some.injEq] at acts
  subst acts
  exact rest.quiet rfl (fun _ => has rfl) alive locked ⟨here.1, here.2, rfl⟩

/-- The old `Data` is replaced, and is in the thread's hands from now on. -/
theorem store (sound : s.Sound) {a : Sample K V} {data nextdata : Nat}
    (at_ : s.point t = .store o a data nextdata) (acts : s.act exp t = some s') : s'.Sound := by
  have rest := sound.rest (t := t) (by rw [at_]; rfl)
  obtain ⟨-, has, alive, locked, -, here⟩ := sound.fine t
  rw [at_] at rest has alive locked here
  simp only [act, at_, Option.some.injEq] at acts
  subst acts
  obtain ⟨owns, holds, rfl⟩ := here
  have some_ := alive o rfl
  have mine := locked o rfl
  have swapped := rest.setData (fun _ => ⟨owns, rest.common.constructed o some_⟩)
    (rest.not_locked (.inr mine)) (.inl (rest.common.owner_ne_zero owns))
  refine swapped.quiet rfl (fun _ => has rfl) ?_ locked ⟨?_, holds, if_pos rfl⟩
  · rintro x ⟨⟩
    show (if o = o then nextdata else s.data o) ≠ 0
    rw [if_pos rfl]
    exact rest.common.owner_ne_zero owns
  · exact (rest.common.current o some_).1

/-- Another entry is taken, or the old `Data` is retired. -/
theorem entries (sound : s.Sound) {a : Sample K V} {data nextdata : Nat} {snap : List (K × V)}
    (at_ : s.point t = .entries o a data nextdata snap) (acts : s.act exp t = some s') :
    s'.Sound := by
  have rest := sound.rest (t := t) (by rw [at_]; rfl)
  obtain ⟨-, has, alive, locked, -, here⟩ := sound.fine t
  rw [at_] at rest has alive locked here
  simp only [act, at_] at acts
  split at acts <;> cases acts
  · exact rest.quiet rfl (fun _ => has rfl) alive locked here
  · refine rest.goto ?_ ?_ (fun _ => has rfl) alive locked here.2
    · rintro c ⟨⟩
      exact has rfl
    · rintro q ⟨⟩
      exact rest.common.owner_ne_zero here.1

theorem reinsert (sound : s.Sound) {a : Sample K V} {data nextdata : Nat} {snap : List (K × V)}
    (at_ : s.point t = .reinsert o a data nextdata snap) (acts : s.act exp t = some s') :
    s'.Sound := by
  have rest := sound.rest (t := t) (by rw [at_]; rfl)
  obtain ⟨-, has, alive, locked, -, here⟩ := sound.fine t
  rw [at_] at rest has alive locked here
  obtain ⟨holds, rfl⟩ := here
  cases snap with
  | nil =>
      simp only [act, at_, Option.some.injEq] at acts
      subst acts
      have unlocked := rest.setMutex none (rest.not_locked (.inr (locked o rfl)))
      exact unlocked.quiet rfl (fun _ => has rfl) alive (fun _ locks => by cases locks)
        ⟨(rest.common.current o (alive o rfl)).1, holds⟩
  | cons e others =>
      simp only [act, at_, Option.some.injEq] at acts
      subst acts
      exact rest.quiet rfl (fun _ => has rfl) alive locked ⟨rfl, holds, rfl⟩

theorem ready (sound : s.Sound) {a : Sample K V} {data : Nat} (at_ : s.point t = .ready o a data)
    (acts : s.act exp t = some s') : s'.Sound := by
  have rest := sound.rest (t := t) (by rw [at_]; rfl)
  obtain ⟨-, has, alive, -, -, here⟩ := sound.fine t
  rw [at_] at rest has alive here
  simp only [act, at_, Option.some.injEq] at acts
  subst acts
  exact rest.quiet rfl (fun _ => has rfl) alive (fun _ locks => by cases locks) ⟨rfl, here⟩

/-- An operation of an offer; then the offer goes on or is through. -/
theorem offer (sound : s.Sound) {counted values : Nat} {pc : PC K V} {site : Site O K V}
    (at_ : s.point t = .offer counted values pc site) (acts : s.act exp t = some s') :
    s'.Sound := by
  have rest := sound.rest (t := t) (by rw [at_]; rfl)
  obtain ⟨-, has, alive, locked, -, here⟩ := sound.fine t
  rw [at_] at rest has alive locked here
  simp only [act, at_] at acts
  obtain ⟨⟨d, pc'⟩, -, rfl⟩ := Option.map_eq_some_iff.1 acts
  have written : (s.write counted values d).Rest t 0 :=
    rest.of_same rfl rfl rfl rfl rfl (fun _ once => once) fun _ _ _ _ => rfl
  have goes : ((s.write counted values d).goto t (.offer counted values pc' site)).Sound :=
    written.quiet rfl (fun _ => has rfl) (by cases site <;> exact alive) (by cases site <;> exact locked)
      (by cases site <;> exact here)
  cases pc' with
  | idle =>
      cases site with
      | update o =>
          refine written.goto ?_ (fun _ calls => by cases calls) (fun _ => has rfl) alive
            (fun _ locks => by cases locks) trivial
          rintro c ⟨⟩
          exact ⟨has rfl, Nat.one_pos⟩
      | rescale o a data nextdata snap =>
          obtain ⟨rfl, holds, current⟩ := here
          exact written.quiet rfl (fun _ => has rfl) alive locked ⟨holds, current⟩
  | _ => exact goes

theorem close (sound : s.Sound) {data : Nat} (at_ : s.point t = .close data)
    (acts : s.act exp t = some s') : s'.Sound := by
  have rest := sound.rest (t := t) (by rw [at_]; rfl)
  obtain ⟨-, has, -, -, -, here⟩ := sound.fine t
  rw [at_] at rest has here
  simp only [act, at_, Option.some.injEq] at acts
  subst acts
  refine rest.goto ?_ ?_ (fun _ => has rfl) (fun _ this => by cases this)
    (fun _ locks => by cases locks) trivial
  · rintro c ⟨⟩
    exact has rfl
  · rintro q ⟨⟩
    exact here

theorem enter (sound : s.Sound) (at_ : s.point t = .enter o) (acts : s.act exp t = some s') :
    s'.Sound := by
  have rest := sound.rest (t := t) (by rw [at_]; rfl)
  obtain ⟨-, -, alive, -, -, -⟩ := sound.fine t
  rw [at_] at rest alive
  simp only [act, at_] at acts
  split at acts
  case isFalse => cases acts
  rename_i free
  cases acts
  have locked := rest.setMutex (some t) (rest.not_locked (.inl free))
  refine locked.quiet rfl (fun holds => by cases holds) alive ?_ trivial
  rintro x ⟨⟩
  exact if_pos rfl

theorem look (sound : s.Sound) (at_ : s.point t = .look o) (acts : s.act exp t = some s') :
    s'.Sound := by
  have rest := sound.rest (t := t) (by rw [at_]; rfl)
  obtain ⟨-, -, alive, locked, -, -⟩ := sound.fine t
  rw [at_] at rest alive locked
  simp only [act, at_, Option.some.injEq] at acts
  subst acts
  exact rest.quiet rfl (fun holds => by cases holds) alive locked rfl

theorem values (sound : s.Sound) {data : Nat} {taken : List (K × V)}
    (at_ : s.point t = .values o data taken) (acts : s.act exp t = some s') : s'.Sound := by
  have rest := sound.rest (t := t) (by rw [at_]; rfl)
  obtain ⟨-, -, alive, locked, -, here⟩ := sound.fine t
  rw [at_] at rest alive locked here
  simp only [act, at_] at acts
  split at acts <;> cases acts
  · exact rest.quiet rfl (fun holds => by cases holds) alive locked here
  · have unlocked := rest.setMutex none (rest.not_locked (.inr (locked o rfl)))
    have answered : { s.setMutex o none with
        result := fun u => if u = t then some (data, taken) else s.result u }.Rest t
          (Point.idle : Point O K V).takes :=
      unlocked.of_same rfl rfl rfl rfl rfl (fun _ once => once) fun _ _ _ _ => rfl
    exact answered.quiet rfl (fun holds => by cases holds) (fun _ this => by cases this)
      (fun _ locks => by cases locks) trivial

/-- A step outside the hazard pointers. -/
theorem act (sound : s.Sound) (acts : s.act exp t = some s') : s'.Sound := by
  cases at_ : s.point t with
  | schedule o a => exact sound.schedule at_ acts
  | compete o a next => exact sound.compete at_ acts
  | lock o a => exact sound.lock at_ acts
  | read o a nextdata => exact sound.read at_ acts
  | store o a data nextdata => exact sound.store at_ acts
  | entries o a data nextdata snap => exact sound.entries at_ acts
  | reinsert o a data nextdata snap => exact sound.reinsert at_ acts
  | ready o a data => exact sound.ready at_ acts
  | offer counted values pc site => exact sound.offer at_ acts
  | enter o => exact sound.enter at_ acts
  | look o => exact sound.look at_ acts
  | values o data taken => exact sound.values at_ acts
  | close data => exact sound.close at_ acts
  | idle | acquire c | load o a | clear o | hazard o a nextdata | retire o a data nextdata snap
  | destroy data | exit =>
      simp only [Reservoirs.act, at_] at acts
      cases acts

/-- An access inside a call leaves the other threads alone. -/
theorem keeps_step (sound : s.Sound) {sys : Hazard.Sys T Nat O} {q : Option (Hazard.Ret Nat)}
    (stepped : s.sys.step 1 s.data t = some (sys, q)) (points : T → Point O K V) (other : u ≠ t) :
    s.Keeps { s with sys := sys, point := points } u := by
  refine ⟨?_, ?_, fun p holds => ?_, fun _ _ owns => owns⟩
  · obtain ⟨e, nx, -, rfl, -⟩ := Hazard.Sys.step_access stepped
    exact Hazard.Sys.after_pc_other other
  · obtain ⟨e, nx, -, rfl, -⟩ := Hazard.Sys.step_access stepped
    exact Hazard.Sys.after_own_other other
  · exact holds.step sound.common.orderly.owned stepped fun same => absurd same.symm other

/-- What the thread goes on to rely on after an access of its call. -/
theorem here_access (sound : s.Sound) {c : Hazard.Call Nat O} {sys : Hazard.Sys T Nat O}
    {q : Option (Hazard.Ret Nat)} (calls : (s.point t).call = some c)
    (stepped : s.sys.step 1 s.data t = some (sys, q)) (points : T → Point O K V) :
    (q = none → { s with sys := sys, point := points }.Here t (s.point t)) ∧
    ∀ r, q = some r → c.Returns s.data r →
      { s with sys := sys, point := points }.Resumes t (s.point t) ((s.point t).resume r) r := by
  have owned := sound.common.orderly.owned
  obtain ⟨inside, -, alive, -, ward, here⟩ := sound.fine t
  cases at_ : s.point t with
  | acquire c' =>
      rw [at_] at calls here
      obtain ⟨rfl⟩ := calls
      refine ⟨fun _ => by cases c' <;> exact here, fun r _ returns => ?_⟩
      cases r with
      | record hp =>
          cases c' <;>
            exact ⟨rfl, rfl, fun _ => .inr ⟨hp, rfl⟩, fun _ this => this, fun _ locks => locks, here⟩
      | _ => exact returns.elim
  | load o a =>
      rw [at_] at calls inside alive
      obtain ⟨rfl⟩ := calls
      refine ⟨fun _ => trivial, fun r isReturn returns => ?_⟩
      cases r with
      | value p =>
          obtain rfl : p = s.data o := returns
          subst isReturn
          obtain ⟨owns, unretired⟩ := sound.common.current o (alive o rfl)
          have holds :=
            Hazard.Sys.holding_load owned sound.common.covered.covered inside rfl stepped unretired
          exact ⟨rfl, rfl, fun _ => .inl rfl, fun _ this => this, fun _ locks => locks, owns, holds⟩
      | _ => exact returns.elim
  | hazard o a nextdata =>
      rw [at_] at calls inside ward here
      obtain ⟨rfl⟩ := calls
      refine ⟨fun _ => here, fun r _ returns => ?_⟩
      cases r with
      | unit =>
          have unretired := (ward (sound.common.owner_ne_zero here)).2.1
          have holds := Hazard.Sys.holding_set owned inside stepped (.inl unretired)
          exact ⟨rfl, rfl, fun _ => .inl rfl, fun _ this => this, fun _ locks => locks, here, holds⟩
      | _ => exact returns.elim
  | retire o a data nextdata snap =>
      rw [at_] at calls inside here
      obtain ⟨rfl⟩ := calls
      obtain ⟨holds, current⟩ := here
      have holds' : sys.Holding t 0 nextdata := by
        refine holds.step owned stepped fun _ => ⟨_, inside, ?_, ?_, ?_⟩ <;>
          (intro same; cases same)
      refine ⟨fun _ => ⟨holds', current⟩, fun r _ returns => ?_⟩
      cases r with
      | unit =>
          exact ⟨rfl, rfl, fun _ => .inl rfl, fun _ this => this, fun _ locks => locks, holds', current⟩
      | _ => exact returns.elim
  | clear o | destroy data =>
      rw [at_] at calls
      obtain ⟨rfl⟩ := calls
      refine ⟨fun _ => trivial, fun r _ returns => ?_⟩
      cases r <;> first | exact resumes_idle rfl _ | exact returns.elim
  | exit =>
      rw [at_] at calls
      obtain ⟨rfl⟩ := calls
      refine ⟨fun _ => trivial, fun r _ returns => ?_⟩
      cases r <;> first | exact resumes_idle rfl _ | exact returns.elim
  | _ =>
      rw [at_] at calls
      cases calls

/-- Only an exiting thread gives up its record. -/
theorem call_retire {point : Point O K V} (calls : point.call = some .retire) : point = .exit := by
  cases point <;> first | rfl | cases calls

/-- An access inside a call, which goes on or returns. -/
theorem access (sound : s.Sound) {c : Hazard.Call Nat O} {sys : Hazard.Sys T Nat O}
    {q : Option (Hazard.Ret Nat)} (calls : (s.point t).call = some c)
    (stepped : s.sys.step 1 s.data t = some (sys, q)) {points : T → Point O K V}
    (others : ∀ u, u ≠ t → points u = s.point u) (stays : q = none → points t = s.point t)
    (resumes : ∀ r, q = some r → points t = (s.point t).resume r) :
    { s with sys := sys, point := points }.Sound := by
  obtain ⟨onwards, returns⟩ := sound.here_access calls stepped points
  have common := sound.common
  have retired := Hazard.Sys.retired_step stepped
  obtain ⟨inside, has, alive, locked, ward, -⟩ := sound.fine t
  rw [calls] at inside
  -- the thread's own part
  have mine : { s with sys := sys, point := points }.Fine t (points t) ∧
      (points t).ward = (s.point t).ward := by
    have kept : (s.point t).ward ≠ 0 → { s with sys := sys, point := points }.Ward (s.point t).ward := by
      intro some_
      obtain ⟨owns, unretired, unread⟩ := ward some_
      exact ⟨owns, by rwa [retired], unread⟩
    rcases Hazard.Sys.runs_step inside stepped with ⟨rfl, runs⟩ | ⟨r, rfl, isReturn, idle⟩
    · rw [stays rfl]
      refine ⟨⟨?_, fun holds => ?_, alive, locked, kept, onwards rfl⟩, rfl⟩
      · simpa only [Inside, calls] using runs
      · refine Hazard.Sys.own_step inside ?_ stepped (.inl (has holds))
        rintro rfl
        rw [call_retire calls] at holds
        cases holds
    · rw [resumes r rfl]
      obtain ⟨outside, sameWard, record, this, locks, here⟩ := returns r rfl isReturn
      refine ⟨⟨?_, fun holds => ?_, fun o isThis => alive o (this o isThis),
        fun o isLocked => locked o (locks o isLocked), ?_, here⟩, sameWard⟩
      · simpa only [Inside, outside] using idle
      · refine Hazard.Sys.own_step inside ?_ stepped ?_
        · rintro rfl
          rw [call_retire calls] at holds
          cases r <;> cases holds
        · rcases record holds with held | ⟨hp, rfl⟩
          · exact .inl (has held)
          · exact .inr ⟨hp, rfl⟩
      · rw [sameWard]
        exact kept
  have wards : ∀ u, (points u).ward = (s.point u).ward := by
    intro u
    by_cases isMe : u = t
    · rw [isMe]
      exact mine.2
    · rw [others u isMe]
  refine ⟨⟨common.orderly.step (.access _ _ _ _ _ stepped), common.covered.step stepped,
    common.started, common.owned, fun o some_ => ?_, fun p isRetired => ?_, ?_, common.constructed⟩,
    fun u => ?_, fun u v some_ same => ?_, fun p positive born => ?_⟩
  · obtain ⟨owns, unretired⟩ := common.current o some_
    exact ⟨owns, by rwa [retired]⟩
  · exact common.given p (retired ▸ isRetired)
  · show sys.retired.Nodup
    rw [retired]
    exact common.nodup
  · by_cases isMe : u = t
    · rw [isMe]
      exact mine.1
    · show Fine _ u (points u)
      rw [others u isMe]
      refine (sound.fine u).keep (sound.keeps_step stepped points isMe) (fun _ _ => ⟨rfl, rfl⟩)
        (fun _ _ some_ => some_) fun some_ => ?_
      obtain ⟨-, unretired, unread⟩ := (sound.fine u).ward some_
      exact ⟨by rwa [retired], unread⟩
  · change (points u).ward ≠ 0 at some_
    change (points u).ward = (points v).ward at same
    rw [wards] at some_ same
    rw [wards] at same
    exact sound.apart u v some_ same
  · rcases sound.accounted p positive born with current | ⟨u, isWard⟩ | isRetired
    · exact .inl current
    · exact .inr (.inl ⟨u, (wards u).trans isWard⟩)
    · exact .inr (.inr (retired ▸ isRetired))

theorem step (sound : s.Sound) (taken : s.step exp t = some s') : s'.Sound := by
  unfold Reservoirs.step at taken
  split at taken
  · exact sound.act taken
  · rename_i c calls
    obtain ⟨⟨sys, q⟩, stepped, rfl⟩ := Option.map_eq_some_iff.1 taken
    refine sound.access calls stepped (fun u other => if_neg other) ?_ ?_
    · rintro rfl
      exact if_pos rfl
    · rintro r rfl
      exact if_pos rfl

end Sound

/-! ## The calls -/

theorem this_of_locks (locks : point.locks = some o) : point.this = some o := by
  cases point with
  | offer counted values pc site => cases site <;> first | exact locks | cases locks
  | _ => first | exact locks | cases locks

namespace Rest

/-- The thread stays outside. -/
theorem stay (rest : s.Rest t 0) (outside : s.point t = .idle) : s.Sound where
  common := rest.common
  fine u := by
    by_cases isMe : u = t
    · rw [isMe, outside]
      exact fine_idle rest.idle
    · exact rest.others u isMe
  apart u v some_ same := by
    have mine : (s.point t).ward = 0 := by
      rw [outside]
      rfl
    by_cases isMe : u = t
    · rw [isMe] at some_
      exact absurd mine some_
    · by_cases isMe' : v = t
      · rw [isMe'] at same
        exact absurd (same.trans mine) some_
      · exact rest.apart u v isMe isMe' some_ same
  accounted p positive born := by
    rcases rest.accounted p positive born with current | ⟨u, -, isWard⟩ | retired | none_
    · exact .inl current
    · exact .inr (.inl ⟨u, isWard⟩)
    · exact .inr (.inr retired)
    · exact absurd none_ (Nat.ne_of_gt positive)

/-- A call that looks for the hazard pointer first. -/
theorem request (rest : s.Rest t hand) {c : Request O K V} (hands : c.point.ward = hand)
    (same : (Point.acquire c).ward = hand) (quiet : c.point.call = none)
    (alive : ∀ o, (Point.acquire c).this = some o → s.data o ≠ 0)
    (this : ∀ o, c.point.this = some o → (Point.acquire c).this = some o)
    (locks : c.point.locks = none) (here : s.Here t c.point)
    (before : s.Here t (.acquire c)) : (s.request t c).Sound := by
  unfold Reservoirs.request
  have unlocked : ∀ o, c.point.locks ≠ some o := fun o isLocked => by
    rw [locks] at isLocked
    cases isLocked
  split
  · rename_i has
    have taken : c.point.takes = hand := by cases c <;> exact hands
    exact (taken ▸ rest : s.Rest t c.point.takes).quiet quiet (fun _ => has)
      (fun o isThis => alive o (this o isThis)) (fun o isLocked => absurd isLocked (unlocked o)) here
  · rename_i without
    have taken : (Point.acquire c).takes = hand := same
    refine (taken ▸ rest : s.Rest t (Point.acquire c).takes).goto ?_ (fun _ calls => by cases calls)
      (fun holds => by cases holds) alive (fun _ isLocked => by cases isLocked) before
    rintro d ⟨⟩
    exact Option.not_isSome_iff_eq_none.1 without

end Rest

namespace Sound

theorem idle_rest (sound : s.Sound) (outside : s.point t = .idle) : s.Rest t 0 := by
  have rest := sound.rest (t := t) (by rw [outside]; rfl)
  rwa [outside] at rest

theorem construct [Fintype T] (sound : s.Sound) {created scheduled : Nat}
    (taken : s.next exp (.construct t o created scheduled) = some s') : s'.Sound := by
  obtain ⟨outside, enabled, rfl⟩ := next_construct taken
  have rest := sound.idle_rest outside
  have none_ : s.data o = 0 := by
    by_contra some_
    exact rest.common.constructed o some_ enabled.1
  have unused : ∀ u, (s.point u).this ≠ some o := fun u this => (sound.fine u).alive o this none_
  let dated : Reservoirs T O K V := { s with
    nextScale := fun x => if x = o then scheduled + hour else s.nextScale x
    constructed := fun x => if x = o then some scheduled else s.constructed x
    clock := scheduled }
  have known : dated.Rest t 0 := by
    refine rest.of_same rfl rfl rfl rfl rfl (fun x once => ?_) fun _ _ _ _ => rfl
    show (if x = o then some scheduled else s.constructed x) ≠ none
    split
    · exact Option.some_ne_none _
    · exact once
  have made := known.alloc o created
  have published := made.setData (o := o) (fun _ => ⟨if_pos rfl, by simp [dated, Reservoirs.alloc]⟩)
    (fun u _ locks => unused u (this_of_locks locks)) (.inl (Nat.ne_of_gt rest.common.started))
  rw [show (dated.alloc o created).data o = 0 from none_] at published
  exact published.stay outside

theorem update [Fintype T] (sound : s.Sound) {a : Sample K V}
    (taken : s.next exp (.update t o a) = some s') : s'.Sound := by
  obtain ⟨outside, enabled, rfl⟩ := next_update taken
  have rest : { s with clock := a.now, recorded := (o, a) :: s.recorded }.Rest t 0 :=
    (sound.idle_rest outside).of_same rfl rfl rfl rfl rfl (fun _ once => once) fun _ _ _ _ => rfl
  refine rest.request rfl rfl rfl ?_ (fun _ this => this) rfl trivial trivial
  rintro x ⟨⟩
  exact enabled.1

theorem snapshot [Fintype T] (sound : s.Sound) (taken : s.next exp (.snapshot t o) = some s') :
    s'.Sound := by
  obtain ⟨outside, enabled, rfl⟩ := next_snapshot taken
  have rest : s.Rest t (Point.enter o : Point O K V).takes := sound.idle_rest outside
  refine rest.quiet rfl (fun holds => by cases holds) ?_ (fun _ locks => by cases locks) trivial
  rintro x ⟨⟩
  exact enabled

theorem destroy [Fintype T] (sound : s.Sound) (taken : s.next exp (.destroy t o) = some s') :
    s'.Sound := by
  obtain ⟨outside, enabled, rfl⟩ := next_destroy taken
  obtain ⟨some_, unused⟩ := enabled
  have emptied := (sound.idle_rest outside).setData (o := o) (fun none_ => absurd rfl none_)
    (fun u _ locks => unused u (this_of_locks locks)) (.inr fun u _ => unused u)
  exact emptied.request rfl rfl rfl (fun _ this => by cases this) (fun _ this => by cases this) rfl
    some_ some_

theorem exit [Fintype T] (sound : s.Sound) (taken : s.next exp (.exit t) = some s') : s'.Sound := by
  obtain ⟨outside, has, rfl⟩ := next_exit taken
  have rest : s.Rest t (Point.exit : Point O K V).takes := sound.idle_rest outside
  refine rest.goto ?_ (fun _ calls => by cases calls) (fun holds => by cases holds)
    (fun _ this => by cases this) (fun _ locks => by cases locks) trivial
  rintro c ⟨⟩
  exact has

theorem next [Fintype T] (sound : s.Sound) {a : Event T O K V} (taken : s.next exp a = some s') :
    s'.Sound := by
  cases a with
  | construct t o created scheduled => exact sound.construct taken
  | update t o a => exact sound.update taken
  | snapshot t o => exact sound.snapshot taken
  | destroy t o => exact sound.destroy taken
  | exit t => exact sound.exit taken
  | step t => exact sound.step taken

end Sound

theorem sound_init : (init : Reservoirs T O K V).Sound where
  common := {
    orderly := Hazard.Sys.orderly_init
    covered := Hazard.Sys.sound_init _
    started := Nat.one_pos
    owned p := by
      show (none : Option O).isSome ↔ 0 < p ∧ p < 1
      refine iff_of_false (fun some_ => by cases some_) ?_
      omega
    current o some_ := absurd rfl some_
    given p retired := by cases retired
    nodup := List.nodup_nil
    constructed o some_ := absurd rfl some_ }
  fine t := fine_idle rfl
  apart t u some_ _ := absurd rfl some_
  accounted p positive born := absurd positive (Nat.not_lt.2 (Nat.le_of_lt_succ born))

theorem sound_run [Fintype T] {as : List (Event T O K V)}
    (ran : Theory.run (next exp) init as = some s) : s.Sound :=
  Theory.run_induction (fun _ _ _ sound taken => sound.next taken) sound_init ran

theorem Common.not_deleted (common : s.Common) (unretired : p ∉ s.sys.retired) :
    p ∉ s.sys.pool.deleted :=
  fun gone => unretired (common.orderly.conserved.removed p gone)

/-- **No `Data` is touched after it has been deleted.** In every reachable state of any number of
threads and reservoirs, the `Data` that a thread reads or writes next, other than the old count in
`rescale`, was made for the reservoir that the thread is in, and has not been deleted. -/
theorem touches_alive [Fintype T] {as : List (Event T O K V)}
    (ran : Theory.run (next exp) init as = some s) (touches : (s.point t).touches ≠ 0) :
    (s.point t).touches ∉ s.sys.pool.deleted ∧
      ∃ o, (s.point t).this = some o ∧ s.owner (s.point t).touches = some o := by
  have sound := sound_run ran
  have common := sound.common
  obtain ⟨-, -, alive, -, ward, here⟩ := sound.fine t
  have current : ∀ o, (s.point t).this = some o → s.owner (s.data o) = some o ∧
      s.data o ∉ s.sys.pool.deleted := by
    intro o this
    obtain ⟨owns, unretired⟩ := common.current o (alive o this)
    exact ⟨owns, common.not_deleted unretired⟩
  cases at_ : s.point t with
  | ready o a data =>
      rw [at_] at here
      exact ⟨here.2.not_deleted common.covered.covered, o, rfl, here.1⟩
  | entries o a data nextdata snap =>
      rw [at_] at here ward
      exact ⟨common.not_deleted (ward (common.owner_ne_zero here.1)).2.1, o, rfl, here.1⟩
  | values o data taken =>
      rw [at_] at here current
      obtain rfl : s.data o = data := here
      obtain ⟨owns, undeleted⟩ := current o rfl
      exact ⟨undeleted, o, rfl, owns⟩
  | offer counted values pc site =>
      rw [at_] at touches here current
      cases site with
      | update o =>
          obtain ⟨rfl, owns, holds⟩ := here
          have undeleted := holds.not_deleted common.covered.covered
          cases pc <;> exact ⟨undeleted, o, rfl, owns⟩
      | rescale o a data nextdata snap =>
          obtain ⟨rfl, holds, rfl⟩ := here
          obtain ⟨owns, undeleted⟩ := current o rfl
          cases pc <;> first | exact absurd rfl touches | exact ⟨undeleted, o, rfl, owns⟩
  | _ =>
      rw [at_] at touches
      exact absurd rfl touches

/-- Stands for `std::exp` in the examples. -/
def grow (delta : Int) : ℚ := if delta ≤ 0 then 1 else 2

/-- A thread is about to update the first `Data` while another one replaces and retires it. -/
def updateBeside : List (Event (Fin 2) Unit ℚ Nat) :=
  Event.construct 0 () 0 0 :: .update 0 () ⟨0, 1 / 2, 7⟩ :: List.replicate 9 (.step 0) ++
    Event.update 1 () ⟨hour + 1, 1 / 2, 8⟩ :: List.replicate 15 (.step 1)

theorem touches_alive_beside : ∃ s : Reservoirs (Fin 2) Unit ℚ Nat,
    Theory.run (next grow) init updateBeside = some s ∧ s.sys.retired = [1] ∧
    (s.point 0).touches = 1 ∧ 1 ∉ s.sys.pool.deleted := by
  have ran : (Theory.run (next grow) init updateBeside).map
      (fun s => (s.sys.retired, (s.point 0).touches)) = some ([1], 1) := by decide +kernel
  obtain ⟨s, ran, seen⟩ := Option.map_eq_some_iff.1 ran
  simp only [Prod.mk.injEq] at seen
  obtain ⟨retired, touches⟩ := seen
  have alive := (touches_alive (t := 0) ran (touches ▸ Nat.one_ne_zero)).1
  rw [touches] at alive
  exact ⟨s, ran, retired, touches, alive⟩

/-- An update, an update that rescales, the destruction of the reservoir, and the exit. -/
def lifetime : List (Event (Fin 2) Unit ℚ Nat) :=
  Event.construct 0 () 0 0 :: .update 0 () ⟨0, 1 / 2, 7⟩ :: List.replicate 13 (.step 0) ++
    Event.update 0 () ⟨hour + 1, 1 / 2, 8⟩ :: List.replicate 18 (.step 0) ++
    Event.destroy 0 () :: List.replicate 10 (.step 0) ++ Event.exit 0 :: List.replicate 2 (.step 0)

end Ccmetrics.Reservoir.Reservoirs
