/-
# Reservoir.Deadlines -- one rescaling for every deadline that has passed

A rescaling begins with an exchange of `next_scale_`, which puts the deadline an hour later. Several
threads may have found the deadline passed; one of them wins the exchange, and makes one `Data`.

So `next_scale_` is an hour later for every rescaling, whenever it took place, and the deadline that
a rescaling was due to had passed (`rescaled_hourly`): there is at most one rescaling for each hour
since the construction. A reservoir that was left alone for some hours catches up, one rescaling
with each of its next calls of `update`.
-/
import Ccmetrics.Reservoir.Guarded
import Ccmetrics.Theory.Account

namespace Ccmetrics.Reservoir.Reservoirs

set_option autoImplicit false
set_option linter.unusedSectionVars false

variable {T O K V : Type} [DecidableEq T] [DecidableEq O] [Field K] [LinearOrder K] [Inhabited K]
variable {exp : Int → K} {s s' : Reservoirs T O K V} {t u : T} {o : O}
variable {point : Point O K V}

/-- 1 for a thread that has won the exchange and has not made its `Data` yet. -/
def Point.waits (o : O) : Point O K V → Nat
  | .lock x _ => if x = o then 1 else 0
  | _ => 0

/-- How many `Data` have been made for a reservoir. -/
def made (s : Reservoirs T O K V) (o : O) : Nat :=
  (List.range s.fresh).countP fun p => decide (s.owner p = some o)

/-- A thread works with a time that has come, and has found the deadline passed. -/
def Punctual (clock : Nat) : Point O K V → Prop
  | .acquire (.update _ a) | .schedule _ a => a.now ≤ clock
  | .compete _ a next => next < a.now ∧ a.now ≤ clock
  | _ => True

theorem Punctual.later {clock clock' : Nat} (punctual : Punctual clock point)
    (later : clock ≤ clock') : Punctual clock' point := by
  cases point with
  | acquire c =>
      cases c with
      | update o a => exact le_trans punctual later
      | destroy data => trivial
  | schedule o a => exact le_trans punctual later
  | compete o a next => exact ⟨punctual.1, le_trans punctual.2 later⟩
  | _ => trivial

/-- A call has returned. -/
theorem Punctual.resume {clock : Nat} (punctual : Punctual clock point) (r : Hazard.Ret Nat) :
    Punctual clock (point.resume r) := by
  cases point with
  | acquire c => cases c <;> cases r <;> exact punctual
  | load o a | hazard o a nextdata | retire o a data nextdata snap | clear o | destroy data
  | exit => cases r <;> trivial
  | _ => exact punctual

theorem waits_resume (point : Point O K V) (r : Hazard.Ret Nat) (o : O) :
    (point.resume r).waits o = point.waits o := by
  cases point with
  | acquire c => cases c <;> cases r <;> rfl
  | load o a | hazard o a nextdata | retire o a data nextdata snap | clear o | destroy data
  | exit => cases r <;> rfl
  | _ => rfl

variable [Fintype T]

structure Timely (s : Reservoirs T O K V) : Prop where
  punctual : ∀ t, Punctual s.clock (s.point t)
  deadline : ∀ o c, s.constructed o = some c → s.nextScale o = c + hour * (s.won o + 1)
  passed : ∀ o c, s.constructed o = some c → 0 < s.won o → c + hour * s.won o < s.clock
  unused : ∀ o, s.constructed o = none → s.won o = 0
  rescales : ∀ o, s.made o + ∑ t, (s.point t).waits o =
    s.won o + if (s.constructed o).isSome then 1 else 0

theorem sum_goto (s : Reservoirs T O K V) (t : T) (point : Point O K V) (o : O) :
    (∑ u, ((s.goto t point).point u).waits o) + (s.point t).waits o =
      (∑ u, (s.point u).waits o) + point.waits o := by
  have moved := Theory.sum_moved (f := fun u => (s.point u).waits o)
    (g := fun u => ((s.goto t point).point u).waits o) (t := t)
    fun u other => congrArg (Point.waits o) (if_neg other)
  rwa [show ((s.goto t point).point t).waits o = point.waits o from
    congrArg (Point.waits o) (if_pos rfl)] at moved

theorem made_alloc (s : Reservoirs T O K V) (x : O) (now : Nat) (o : O) :
    (s.alloc x now).made o = s.made o + if x = o then 1 else 0 := by
  unfold made
  rw [show (s.alloc x now).fresh = s.fresh + 1 from rfl, List.range_succ, List.countP_append]
  congr 1
  · refine List.countP_congr fun p inRange => ?_
    have other : p ≠ s.fresh := Nat.ne_of_lt (List.mem_range.1 inRange)
    rw [show (s.alloc x now).owner p = s.owner p from if_neg other]
  · rw [List.countP_singleton,
      show (s.alloc x now).owner s.fresh = some x from if_pos rfl]
    simp

namespace Timely

/-- Two states that differ in what deadlines do not depend on. -/
theorem of_same (timely : s.Timely) (points : s'.point = s.point) (owner : s'.owner = s.owner)
    (fresh : s'.fresh = s.fresh) (nextScale : s'.nextScale = s.nextScale) (won : s'.won = s.won)
    (constructed : s'.constructed = s.constructed) (clock : s.clock ≤ s'.clock) : s'.Timely := by
  obtain ⟨punctual, deadline, passed, unused, rescales⟩ := timely
  refine ⟨fun t => ?_, ?_, fun o c created some_ => ?_, ?_, fun o => ?_⟩
  · rw [points]
    exact (punctual t).later clock
  · rwa [constructed, nextScale, won]
  · rw [constructed] at created
    rw [won] at some_ ⊢
    exact Nat.lt_of_lt_of_le (passed o c created some_) clock
  · rwa [constructed, won]
  · unfold made at rescales ⊢
    rw [owner, fresh, points, won, constructed]
    exact rescales o

/-- A thread goes on that does not win an exchange, and has not won one. -/
theorem goto (timely : s.Timely) (punctual : Punctual s.clock point)
    (before : ∀ o, (s.point t).waits o = 0) (after : ∀ o, point.waits o = 0) :
    (s.goto t point).Timely where
  punctual u := by
    by_cases isMe : u = t
    · rw [show (s.goto t point).point u = point from if_pos isMe]
      exact punctual
    · rw [show (s.goto t point).point u = s.point u from if_neg isMe]
      exact timely.punctual u
  deadline := timely.deadline
  passed := timely.passed
  unused := timely.unused
  rescales o := by
    have moved := sum_goto s t point o
    have rescales := timely.rescales o
    rw [before o, after o] at moved
    show s.made o + _ = s.won o + if (s.constructed o).isSome then 1 else 0
    omega

/-- The exchange succeeds: the deadline had passed. -/
theorem compete (timely : s.Timely) (sound : s.Sound) {a : Sample K V} {next : Nat}
    (at_ : s.point t = .compete o a next) (acts : s.act exp t = some s') : s'.Timely := by
  have punctual := timely.punctual t
  have alive := (sound.fine t).alive o (by rw [at_]; rfl)
  rw [at_] at punctual
  simp only [act, at_] at acts
  split at acts <;> cases acts
  case isFalse => exact timely.goto trivial (fun x => congrArg (Point.waits x) at_) fun _ => rfl
  rename_i same
  obtain ⟨c, created⟩ := Option.ne_none_iff_exists'.1 (sound.common.constructed o alive)
  have deadline := timely.deadline o c created
  have won_other : ∀ x, x ≠ o → (s.reschedule o).won x = s.won x := fun x other => if_neg other
  have won_mine : (s.reschedule o).won o = s.won o + 1 := if_pos rfl
  have scale_other : ∀ x, x ≠ o → (s.reschedule o).nextScale x = s.nextScale x :=
    fun x other => if_neg other
  have scale_mine : (s.reschedule o).nextScale o = s.nextScale o + hour := if_pos rfl
  refine ⟨fun u => ?_, fun x d known => ?_, fun x d known some_ => ?_, fun x known => ?_,
    fun x => ?_⟩
  · show Punctual s.clock (if u = t then .lock o a else s.point u)
    split
    · trivial
    · exact timely.punctual u
  · show (s.reschedule o).nextScale x = d + hour * ((s.reschedule o).won x + 1)
    by_cases isMine : x = o
    · subst isMine
      obtain rfl := Option.some.inj (created.symm.trans known)
      rw [won_mine, scale_mine, deadline]
      ring
    · rw [won_other x isMine, scale_other x isMine]
      exact timely.deadline x d known
  · change 0 < (s.reschedule o).won x at some_
    show d + hour * (s.reschedule o).won x < s.clock
    by_cases isMine : x = o
    · subst isMine
      obtain rfl := Option.some.inj (created.symm.trans known)
      rw [won_mine, ← deadline, same]
      exact Nat.lt_of_lt_of_le punctual.1 punctual.2
    · rw [won_other x isMine] at some_ ⊢
      exact timely.passed x d known some_
  · have isOther : x ≠ o := by
      rintro rfl
      exact absurd (created.symm.trans known) (Option.some_ne_none c)
    exact (won_other x isOther).trans (timely.unused x known)
  · have moved := sum_goto (s.reschedule o) t (.lock o a) x
    have before := timely.rescales x
    have won : (s.reschedule o).won x = s.won x + if o = x then 1 else 0 := by
      by_cases isMine : x = o
      · rw [isMine, won_mine, if_pos rfl]
      · rw [won_other x isMine, if_neg (Ne.symm isMine), Nat.add_zero]
    change _ + (s.point t).waits x = (∑ u, (s.point u).waits x) + if o = x then 1 else 0 at moved
    rw [at_] at moved
    change _ + 0 = _ at moved
    show s.made x + _ = (s.reschedule o).won x + if (s.constructed x).isSome then 1 else 0
    omega

/-- The winner makes its `Data`. -/
theorem lock (timely : s.Timely) {a : Sample K V} (at_ : s.point t = .lock o a)
    (acts : s.act exp t = some s') : s'.Timely := by
  simp only [act, at_] at acts
  split at acts <;> cases acts
  refine ⟨fun u => ?_, timely.deadline, timely.passed, timely.unused, fun x => ?_⟩
  · show Punctual s.clock (if u = t then .hazard o a s.fresh else s.point u)
    split
    · trivial
    · exact timely.punctual u
  · have moved := sum_goto ((s.setMutex o (some t)).alloc o a.now) t (.hazard o a s.fresh) x
    have before := timely.rescales x
    have made := made_alloc (s.setMutex o (some t)) o a.now x
    change _ + (s.point t).waits x = (∑ u, (s.point u).waits x) + 0 at moved
    rw [at_] at moved
    change _ = s.made x + _ at made
    show ((s.setMutex o (some t)).alloc o a.now).made x + _ =
      s.won x + if (s.constructed x).isSome then 1 else 0
    change _ + (if o = x then 1 else 0) = _ at moved
    omega

/-- A step outside the hazard pointers. -/
theorem act (timely : s.Timely) (sound : s.Sound) (acts : s.act exp t = some s') : s'.Timely := by
  have punctual := timely.punctual t
  cases at_ : s.point t with
  | compete o a next => exact timely.compete sound at_ acts
  | lock o a => exact timely.lock at_ acts
  | schedule o a =>
      rw [at_] at punctual
      simp only [Reservoirs.act, at_, Option.some.injEq] at acts
      subst acts
      split
      · rename_i due
        exact timely.goto ⟨due, punctual⟩ (fun x => congrArg (Point.waits x) at_) fun _ => rfl
      · exact timely.goto trivial (fun x => congrArg (Point.waits x) at_) fun _ => rfl
  | read o a nextdata | close data | look o | ready o a data =>
      simp only [Reservoirs.act, at_, Option.some.injEq] at acts
      subst acts
      exact timely.goto trivial (fun x => congrArg (Point.waits x) at_) fun _ => rfl
  | store o a data nextdata =>
      simp only [Reservoirs.act, at_, Option.some.injEq] at acts
      subst acts
      have published : (s.setData o nextdata).Timely :=
        timely.of_same rfl rfl rfl rfl rfl rfl le_rfl
      exact published.goto trivial (fun x => congrArg (Point.waits x) at_) fun _ => rfl
  | entries o a data nextdata snap =>
      simp only [Reservoirs.act, at_] at acts
      split at acts <;> cases acts <;>
        exact timely.goto trivial (fun x => congrArg (Point.waits x) at_) fun _ => rfl
  | reinsert o a data nextdata snap =>
      cases snap with
      | nil =>
          simp only [Reservoirs.act, at_, Option.some.injEq] at acts
          subst acts
          have unlocked : (s.setMutex o none).Timely :=
            timely.of_same rfl rfl rfl rfl rfl rfl le_rfl
          exact unlocked.goto trivial (fun x => congrArg (Point.waits x) at_) fun _ => rfl
      | cons e rest =>
          simp only [Reservoirs.act, at_, Option.some.injEq] at acts
          subst acts
          exact timely.goto trivial (fun x => congrArg (Point.waits x) at_) fun _ => rfl
  | offer counted values pc site =>
      simp only [Reservoirs.act, at_] at acts
      obtain ⟨⟨d, pc'⟩, -, rfl⟩ := Option.map_eq_some_iff.1 acts
      have written : (s.write counted values d).Timely :=
        timely.of_same rfl rfl rfl rfl rfl rfl le_rfl
      have waits : ∀ x, ((s.write counted values d).point t).waits x = 0 := fun x =>
        congrArg (Point.waits x) at_
      cases pc' with
      | idle => cases site <;> exact written.goto trivial waits fun _ => rfl
      | _ => exact written.goto trivial waits fun _ => rfl
  | enter o =>
      simp only [Reservoirs.act, at_] at acts
      split at acts <;> cases acts
      have locked : (s.setMutex o (some t)).Timely := timely.of_same rfl rfl rfl rfl rfl rfl le_rfl
      exact locked.goto trivial (fun x => congrArg (Point.waits x) at_) fun _ => rfl
  | values o data taken =>
      simp only [Reservoirs.act, at_] at acts
      split at acts <;> cases acts
      · exact timely.goto trivial (fun x => congrArg (Point.waits x) at_) fun _ => rfl
      · have answered : { s.setMutex o none with
            result := fun u => if u = t then some (data, taken) else s.result u }.Timely :=
          timely.of_same rfl rfl rfl rfl rfl rfl le_rfl
        exact answered.goto trivial (fun x => congrArg (Point.waits x) at_) fun _ => rfl
  | _ =>
      simp only [Reservoirs.act, at_] at acts
      cases acts

theorem step (timely : s.Timely) (sound : s.Sound) (taken : s.step exp t = some s') :
    s'.Timely := by
  unfold Reservoirs.step at taken
  split at taken
  · exact timely.act sound taken
  · obtain ⟨⟨sys, q⟩, -, rfl⟩ := Option.map_eq_some_iff.1 taken
    refine ⟨fun u => ?_, timely.deadline, timely.passed, timely.unused, fun o => ?_⟩
    · show Punctual s.clock (if u = t then _ else s.point u)
      split
      · cases q with
        | none => exact timely.punctual t
        | some r => exact (timely.punctual t).resume r
      · exact timely.punctual u
    · refine Eq.trans (congrArg (s.made o + ·) ?_) (timely.rescales o)
      refine Finset.sum_congr rfl fun u _ => ?_
      show Point.waits o (if u = t then _ else s.point u) = _
      split
      · rename_i isMe
        rw [isMe]
        cases q with
        | none => rfl
        | some r => exact waits_resume (s.point t) r o
      · rfl

theorem request (timely : s.Timely) {c : Request O K V} (outside : s.point t = .idle)
    (before : Punctual s.clock (.acquire c : Point O K V)) (after : Punctual s.clock c.point) :
    (s.request t c).Timely := by
  have nothing : ∀ o, (s.point t).waits o = 0 := fun o => by rw [outside]; rfl
  unfold Reservoirs.request
  split
  · exact timely.goto after nothing fun _ => by cases c <;> rfl
  · exact timely.goto before nothing fun _ => rfl

/-- The first `Data` of a reservoir is not from a rescaling. -/
theorem construct (timely : s.Timely) {created scheduled : Nat}
    (taken : s.next exp (.construct t o created scheduled) = some s') : s'.Timely := by
  obtain ⟨-, ⟨isNew, come, later⟩, rfl⟩ := next_construct taken
  have unused := timely.unused o isNew
  have clock : s.clock ≤ scheduled := le_trans come later
  refine ⟨fun u => (timely.punctual u).later clock, fun x c known => ?_, fun x c known some_ => ?_,
    fun x known => ?_, fun x => ?_⟩
  · change (if x = o then some scheduled else s.constructed x) = some c at known
    show (if x = o then scheduled + hour else s.nextScale x) = c + hour * (s.won x + 1)
    split
    · rename_i isMine
      rw [if_pos isMine] at known
      obtain rfl := Option.some.inj known
      rw [isMine, unused, Nat.zero_add, Nat.mul_one]
    · rename_i isOther
      rw [if_neg isOther] at known
      exact timely.deadline x c known
  · change (if x = o then some scheduled else s.constructed x) = some c at known
    split at known
    · rename_i isMine
      rw [isMine] at some_
      exact absurd unused (Nat.ne_of_gt some_)
    · exact Nat.lt_of_lt_of_le (timely.passed x c known some_) clock
  · change (if x = o then some scheduled else s.constructed x) = none at known
    split at known
    · cases known
    · exact timely.unused x known
  · have made := made_alloc s o created x
    have before := timely.rescales x
    show (s.alloc o created).made x + ∑ u, (s.point u).waits x =
      s.won x + if (if x = o then some scheduled else s.constructed x).isSome then 1 else 0
    by_cases isMine : x = o
    · subst isMine
      rw [isNew] at before
      rw [if_pos rfl] at made ⊢
      rw [made, Nat.add_right_comm, before]
      rfl
    · rw [if_neg (Ne.symm isMine)] at made
      rw [if_neg isMine, made]
      exact before

theorem next (timely : s.Timely) (sound : s.Sound) {a : Event T O K V}
    (taken : s.next exp a = some s') : s'.Timely := by
  cases a with
  | construct t o created scheduled => exact timely.construct taken
  | update t o a =>
      obtain ⟨outside, enabled, rfl⟩ := next_update taken
      have recorded : { s with clock := a.now, recorded := (o, a) :: s.recorded }.Timely :=
        timely.of_same rfl rfl rfl rfl rfl rfl enabled.2
      exact recorded.request outside le_rfl le_rfl
  | snapshot t o =>
      obtain ⟨outside, -, rfl⟩ := next_snapshot taken
      exact timely.goto trivial (fun x => congrArg (Point.waits x) outside) fun _ => rfl
  | destroy t o =>
      obtain ⟨outside, -, rfl⟩ := next_destroy taken
      have emptied : (s.setData o 0).Timely := timely.of_same rfl rfl rfl rfl rfl rfl le_rfl
      exact emptied.request outside trivial trivial
  | exit t =>
      obtain ⟨outside, -, rfl⟩ := next_exit taken
      exact timely.goto trivial (fun x => congrArg (Point.waits x) outside) fun _ => rfl
  | step t => exact timely.step sound taken

end Timely

theorem timely_init : (init : Reservoirs T O K V).Timely where
  punctual _ := trivial
  deadline _ _ known := by cases known
  passed _ _ known := by cases known
  unused _ _ := rfl
  rescales _ := by simp [made, init, Point.waits]

theorem timely_run {as : List (Event T O K V)}
    (ran : Theory.run (Reservoirs.next exp) init as = some s) : s.Timely := by
  have both : s.Sound ∧ s.Timely := by
    refine Theory.run_induction (P := fun s => s.Sound ∧ s.Timely) ?_ ⟨sound_init, timely_init⟩ ran
    intro s a s' both taken
    exact ⟨both.1.next taken, both.2.next both.1 taken⟩
  exact both.2

/-- **One rescaling for an hour.** For a reservoir constructed at time `c`, in every reachable state
of any number of threads: `next_scale_` is as many hours after `c` as exchanges have been won, and
one more; the last deadline that an exchange was won for has passed; and each exchange has made one
`Data`, or has a thread that is about to make it. -/
theorem rescaled_hourly {as : List (Event T O K V)}
    (ran : Theory.run (Reservoirs.next exp) init as = some s) {c : Nat}
    (constructed : s.constructed o = some c) :
    s.nextScale o = c + hour * (s.won o + 1) ∧ (0 < s.won o → c + hour * s.won o < s.clock) ∧
      s.made o + ∑ t, (s.point t).waits o = s.won o + 1 := by
  obtain ⟨-, deadline, passed, -, rescales⟩ := timely_run ran
  have made := rescales o
  rw [constructed] at made
  exact ⟨deadline o c constructed, passed o c constructed, made⟩

/-- Two threads find the deadline passed, and one of them wins the exchange. -/
def competeBeside : List (Event (Fin 2) Unit ℚ Nat) :=
  Event.construct 0 () 0 0 :: .update 0 () ⟨2 * hour + 1, 1 / 2, 7⟩ :: List.replicate 6 (.step 0) ++
    Event.update 1 () ⟨2 * hour + 2, 1 / 2, 8⟩ :: List.replicate 7 (.step 1) ++
      [Event.step 0, .step 1]

theorem rescaled_hourly_beside : ∃ s : Reservoirs (Fin 2) Unit ℚ Nat,
    Theory.run (Reservoirs.next grow) init competeBeside = some s ∧ s.nextScale () = 2 * hour ∧
    s.made () + ∑ t, (s.point t).waits () = 2 := by
  have ran : (Theory.run (Reservoirs.next grow) init competeBeside).map
      (fun s => (s.constructed (), s.won ())) = some (some 0, 1) := by decide +kernel
  obtain ⟨s, ran, seen⟩ := Option.map_eq_some_iff.1 ran
  simp only [Prod.mk.injEq] at seen
  obtain ⟨constructed, won⟩ := seen
  obtain ⟨deadline, -, made⟩ := rescaled_hourly ran constructed
  rw [won] at deadline made
  exact ⟨s, ran, by omega, made⟩

end Ccmetrics.Reservoir.Reservoirs
