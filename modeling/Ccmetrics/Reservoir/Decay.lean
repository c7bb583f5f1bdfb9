/-
# Reservoir.Decay -- the priorities in a map are those of recorded samples

The priority of a sample grows with the time from the landmark of the `Data` to the sample.
`rescale` takes the entries of one `Data` over to the next one, with a later landmark, and divides
their priorities by `exp` of the time between the two landmarks.

Whatever the threads do in between, what an entry has after any number of rescalings is the priority
that its sample would have been given for the `Data` it is in now (`Weighs`). So a map never has
an entry that no `update` of its reservoir has recorded, and neither does the answer of `snapshot`
(`decays_forward`).

* Of `exp` only `exp (x + y) = exp x * exp y` is used.
-/
import Ccmetrics.Reservoir.Guarded

namespace Ccmetrics.Reservoir

set_option autoImplicit false
set_option linter.unusedSectionVars false

open Theory (OrderedMap)

/-- The entry that a thread has still to insert or to reject. -/
def PC.offered {K V : Type} : PC K V → Option (K × V)
  | .count p v | .add p v | .first p v | .insert p v _ => some (p, v)
  | _ => none

/-- An operation of an offer adds no entry but the offered one. -/
theorem Shared.plan_entries {K V : Type} [LinearOrder K] [Inhabited K] {d d' : Data K V}
    {pc pc' : PC K V} (planned : plan d pc = some (d', pc')) :
    (∀ e ∈ d'.map.entries, e ∈ d.map.entries ∨ pc.offered = some e) ∧
      ∀ e, pc'.offered = some e → pc.offered = some e := by
  have inserted : ∀ p v, ∀ e ∈ (d.map.insert p v).entries,
      e ∈ d.map.entries ∨ some (p, v) = some e := by
    intro p v e member
    rcases OrderedMap.mem_insertEntry member with isNew | old
    · exact .inr (congrArg some isNew.symm)
    · exact .inl old
  cases pc with
  | idle => cases planned
  | count p v =>
      simp only [plan, Option.some.injEq, Prod.mk.injEq] at planned
      obtain ⟨rfl, rfl⟩ := planned
      refine ⟨fun _ member => .inl member, fun e offers => ?_⟩
      split at offers <;> exact offers
  | add p v =>
      simp only [plan, Option.some.injEq, Prod.mk.injEq] at planned
      obtain ⟨rfl, rfl⟩ := planned
      exact ⟨inserted p v, fun _ offers => by cases offers⟩
  | first p v =>
      simp only [plan, Option.some.injEq, Prod.mk.injEq] at planned
      obtain ⟨rfl, rfl⟩ := planned
      refine ⟨fun _ member => .inl member, fun e offers => ?_⟩
      split at offers
      · exact offers
      · cases offers
  | insert p v first =>
      simp only [plan] at planned
      split at planned <;> cases planned
      · exact ⟨fun _ member => .inl member, fun _ offers => by cases offers⟩
      · exact ⟨inserted p v, fun _ offers => by cases offers⟩
  | erase first =>
      simp only [plan] at planned
      split at planned <;> cases planned
      · exact ⟨fun _ member => .inl (List.mem_of_mem_filter member),
          fun _ offers => by cases offers⟩
      · exact ⟨fun _ member => .inl member, fun _ offers => by cases offers⟩
  | again =>
      simp only [plan, Option.some.injEq, Prod.mk.injEq] at planned
      obtain ⟨rfl, rfl⟩ := planned
      exact ⟨fun _ member => .inl member, fun _ offers => by cases offers⟩

namespace Reservoirs

variable {T O K V : Type} [DecidableEq T] [DecidableEq O] [Field K] [LinearOrder K] [Inhabited K]
variable {exp : Int → K} {s s' : Reservoirs T O K V} {t u : T} {o : O} {p : Nat}
variable {point : Point O K V} {e : K × V}

theorem mem_of_following {m : OrderedMap K V} {taken : List (K × V)}
    (next : following m taken = some e) : e ∈ m.entries :=
  List.mem_of_find?_eq_some next

/-- The entry is a sample recorded for the reservoir, with its priority for this `Data`. -/
def Weighs (exp : Int → K) (s : Reservoirs T O K V) (o : O) (p : Nat) (e : K × V) : Prop :=
  s.owner p = some o ∧ ∃ a, (o, a) ∈ s.recorded ∧
    e = (exp (s.delta p a.now) / (1 - a.random), a.value)

/-- What a thread takes along. -/
def Carries (exp : Int → K) (s : Reservoirs T O K V) : Point O K V → Prop
  | .acquire (.update o a) | .schedule o a | .load o a | .ready o a _ | .compete o a _
  | .lock o a => (o, a) ∈ s.recorded
  | .hazard o a nextdata | .read o a nextdata | .store o a _ nextdata =>
      (o, a) ∈ s.recorded ∧ s.owner nextdata = some o ∧ (s.heap nextdata).landmark = a.now
  | .entries o a data nextdata snap =>
      (o, a) ∈ s.recorded ∧ (s.owner nextdata = some o ∧ (s.heap nextdata).landmark = a.now) ∧
        ∀ e ∈ snap, s.Weighs exp o data e
  | .retire o a _ nextdata snap | .reinsert o a _ nextdata snap =>
      (o, a) ∈ s.recorded ∧ ∀ e ∈ snap, s.Weighs exp o nextdata e
  | .offer _ values pc (.update o) => ∀ e, pc.offered = some e → s.Weighs exp o values e
  | .offer _ values pc (.rescale o a _ nextdata snap) =>
      ((o, a) ∈ s.recorded ∧ ∀ e ∈ snap, s.Weighs exp o nextdata e) ∧
        ∀ e, pc.offered = some e → s.Weighs exp o values e
  | .values o data taken => ∀ e ∈ taken, s.Weighs exp o data e
  | _ => True

/-- The entries that were taken from a `Data`. -/
def Answers (exp : Int → K) (s : Reservoirs T O K V) (data : Nat) (taken : List (K × V)) : Prop :=
  ∃ o, s.owner data = some o ∧ ∀ e ∈ taken, s.Weighs exp o data e

structure Weighed (exp : Int → K) (s : Reservoirs T O K V) : Prop where
  kept : ∀ p o, s.owner p = some o → ∀ e ∈ (s.heap p).map.entries, s.Weighs exp o p e
  carries : ∀ t, s.Carries exp (s.point t)
  results : ∀ t data taken, s.result t = some (data, taken) → s.Answers exp data taken

/-- Landmarks stay, and what has been recorded stays recorded. -/
structure Extends (s s' : Reservoirs T O K V) : Prop where
  owner : ∀ p o, s.owner p = some o → s'.owner p = some o
  landmark : ∀ p o, s.owner p = some o → (s'.heap p).landmark = (s.heap p).landmark
  recorded : ∀ x ∈ s.recorded, x ∈ s'.recorded

theorem Weighs.extend (weighs : s.Weighs exp o p e) (more : s.Extends s') :
    s'.Weighs exp o p e := by
  obtain ⟨owns, a, recorded, rfl⟩ := weighs
  refine ⟨more.owner p o owns, a, more.recorded _ recorded, ?_⟩
  unfold delta
  rw [more.landmark p o owns]

theorem Carries.extend (carries : s.Carries exp point) (more : s.Extends s') :
    s'.Carries exp point := by
  have dated : ∀ {o : O} {a : Sample K V} {p : Nat},
      s.owner p = some o ∧ (s.heap p).landmark = a.now →
        s'.owner p = some o ∧ (s'.heap p).landmark = a.now := fun before =>
    ⟨more.owner _ _ before.1, (more.landmark _ _ before.1).trans before.2⟩
  cases point with
  | acquire c =>
      cases c with
      | update o a => exact more.recorded _ carries
      | destroy data => trivial
  | schedule o a | load o a | ready o a data | compete o a next | lock o a =>
      exact more.recorded _ carries
  | hazard o a nextdata | read o a nextdata | store o a data nextdata =>
      exact ⟨more.recorded _ carries.1, dated carries.2⟩
  | entries o a data nextdata snap =>
      exact ⟨more.recorded _ carries.1, dated carries.2.1,
        fun e member => (carries.2.2 e member).extend more⟩
  | retire o a data nextdata snap | reinsert o a data nextdata snap =>
      exact ⟨more.recorded _ carries.1, fun e member => (carries.2 e member).extend more⟩
  | offer counted values pc site =>
      cases site with
      | update o => exact fun e offers => (carries e offers).extend more
      | rescale o a data nextdata snap =>
          exact ⟨⟨more.recorded _ carries.1.1, fun e member => (carries.1.2 e member).extend more⟩,
            fun e offers => (carries.2 e offers).extend more⟩
  | values o data taken => exact fun e member => (carries e member).extend more
  | _ => trivial

theorem Answers.extend {data : Nat} {taken : List (K × V)} (answers : s.Answers exp data taken)
    (more : s.Extends s') : s'.Answers exp data taken := by
  obtain ⟨o, owns, weighs⟩ := answers
  exact ⟨o, more.owner data o owns, fun e member => (weighs e member).extend more⟩

namespace Weighed

/-- Two states with the same entries, points and answers, and maybe more samples recorded in the
second one. -/
theorem of_same (weighed : s.Weighed exp) (heap : s'.heap = s.heap) (owner : s'.owner = s.owner)
    (points : s'.point = s.point) (result : s'.result = s.result)
    (recorded : ∀ x ∈ s.recorded, x ∈ s'.recorded) : s'.Weighed exp := by
  have more : s.Extends s' := ⟨fun p o owns => by rwa [owner], fun p o _ => by rw [heap], recorded⟩
  refine ⟨fun p o owns e member => ?_, fun t => ?_, fun t data taken answers => ?_⟩
  · rw [owner] at owns
    rw [heap] at member
    exact (weighed.kept p o owns e member).extend more
  · rw [points]
    exact (weighed.carries t).extend more
  · rw [result] at answers
    exact (weighed.results t data taken answers).extend more

theorem goto (weighed : s.Weighed exp) (carries : s.Carries exp point) :
    (s.goto t point).Weighed exp where
  kept := weighed.kept
  carries u := by
    have more : s.Extends (s.goto t point) :=
      ⟨fun _ _ owns => owns, fun _ _ _ => rfl, fun _ known => known⟩
    by_cases isMe : u = t
    · rw [show (s.goto t point).point u = point from if_pos isMe]
      exact carries.extend more
    · rw [show (s.goto t point).point u = s.point u from if_neg isMe]
      exact (weighed.carries u).extend more
  results := weighed.results

theorem older (common : s.Common) (p : Nat) (o : O) (owns : s.owner p = some o) : p ≠ s.fresh :=
  Rest.owner_ne common (by rw [owns]; rfl)

theorem extends_alloc (older : ∀ p o, s.owner p = some o → p ≠ s.fresh) (o : O) (now : Nat) :
    s.Extends (s.alloc o now) := by
  refine ⟨fun p x owns => ?_, fun p x owns => ?_, fun _ known => known⟩
  · exact (if_neg (older p x owns)).trans owns
  · show (if p = s.fresh then (⟨.empty, 0, now⟩ : Data K V) else s.heap p).landmark = _
    rw [if_neg (older p x owns)]

/-- A new `Data` has no entry. -/
theorem alloc (weighed : s.Weighed exp) (older : ∀ p o, s.owner p = some o → p ≠ s.fresh) (o : O)
    (now : Nat) : (s.alloc o now).Weighed exp := by
  have more := extends_alloc older o now
  refine ⟨fun p x owns e member => ?_, fun t => (weighed.carries t).extend more,
    fun t data taken answers => (weighed.results t data taken answers).extend more⟩
  by_cases isFresh : p = s.fresh
  · rw [show (s.alloc o now).heap p = ⟨.empty, 0, now⟩ from if_pos isFresh] at member
    cases member
  · rw [show (s.alloc o now).owner p = s.owner p from if_neg isFresh] at owns
    rw [show (s.alloc o now).heap p = s.heap p from if_neg isFresh] at member
    exact (weighed.kept p x owns e member).extend more

theorem landmark_write (counted values : Nat) (d : Data K V) (p : Nat) :
    ((s.write counted values d).heap p).landmark = (s.heap p).landmark := by
  simp only [Reservoirs.write]
  split <;> split <;> rfl

/-- An operation on the map `values` leaves nothing there that has no right to be there. -/
theorem write (weighed : s.Weighed exp) {counted values : Nat} {d : Data K V}
    (entries : ∀ e ∈ d.map.entries, e ∈ (s.heap values).map.entries ∨ s.Weighs exp o values e)
    (owns : s.owner values = some o) : (s.write counted values d).Weighed exp := by
  have more : s.Extends (s.write counted values d) :=
    ⟨fun _ _ owns => owns, fun p _ _ => landmark_write counted values d p, fun _ known => known⟩
  refine ⟨fun p x owner e member => ?_, fun t => (weighed.carries t).extend more,
    fun t data taken answers => (weighed.results t data taken answers).extend more⟩
  have owner' : s.owner p = some x := owner
  refine Weighs.extend ?_ more
  by_cases isValues : p = values
  · subst isValues
    obtain rfl : o = x := Option.some.inj (owns.symm.trans owner')
    have member' : e ∈ d.map.entries := by
      simpa only [Reservoirs.write, if_true] using member
    rcases entries e member' with old | weighs
    · exact weighed.kept p o owner' e old
    · exact weighs
  · have map : ((s.write counted values d).heap p).map = (s.heap p).map := by
      simp only [Reservoirs.write, if_neg isValues]
      split <;> rfl
    rw [map] at member
    exact weighed.kept p x owner' e member

/-! ## The steps -/

/-- The owner of the `Data` that a thread takes entries from. -/
theorem owner_of_values (sound : s.Sound) {data : Nat} {taken : List (K × V)}
    (at_ : s.point t = .values o data taken) : s.owner data = some o := by
  obtain ⟨-, -, alive, -, -, here⟩ := sound.fine t
  rw [at_] at alive here
  obtain rfl : s.data o = data := here
  exact (sound.common.current o (alive o rfl)).1

/-- Another entry is taken, or all of them are carried over to the new landmark. -/
theorem entries (law : ∀ x y, exp (x + y) = exp x * exp y) (weighed : s.Weighed exp)
    (sound : s.Sound) {a : Sample K V} {data nextdata : Nat} {snap : List (K × V)}
    (at_ : s.point t = .entries o a data nextdata snap) (acts : s.act exp t = some s') :
    s'.Weighed exp := by
  have carries := weighed.carries t
  have here := (sound.fine t).here
  rw [at_] at carries here
  obtain ⟨recorded, ⟨owns, dated⟩, taken⟩ := carries
  simp only [act, at_] at acts
  split at acts <;> cases acts
  · rename_i e next
    refine weighed.goto ⟨recorded, ⟨owns, dated⟩, fun x member => ?_⟩
    rcases List.mem_append.1 member with old | isNew
    · exact taken x old
    · rw [List.mem_singleton.1 isNew]
      exact weighed.kept data o here.1 e (mem_of_following next)
  · refine weighed.goto ⟨recorded, fun x member => ?_⟩
    obtain ⟨e, old, rfl⟩ := List.mem_map.1 (List.mem_reverse.1 member)
    obtain ⟨-, b, known, rfl⟩ := taken e old
    refine ⟨owns, b, known, ?_⟩
    -- from the new landmark to the sample: back to the old landmark, and on from there
    have between : s.delta nextdata b.now = s.delta data b.now + -s.delta data a.now := by
      unfold delta
      rw [dated]
      ring
    rw [between, law, mul_div_right_comm]

theorem ready (weighed : s.Weighed exp) (sound : s.Sound) {a : Sample K V} {data : Nat}
    (at_ : s.point t = .ready o a data) (acts : s.act exp t = some s') : s'.Weighed exp := by
  have carries := weighed.carries t
  have here := (sound.fine t).here
  rw [at_] at carries here
  simp only [act, at_, Option.some.injEq] at acts
  subst acts
  refine weighed.goto fun e offers => ?_
  obtain rfl := Option.some.inj offers
  exact ⟨here.1, a, carries, rfl⟩

theorem reinsert (weighed : s.Weighed exp) {a : Sample K V} {data nextdata : Nat}
    {snap : List (K × V)} (at_ : s.point t = .reinsert o a data nextdata snap)
    (acts : s.act exp t = some s') : s'.Weighed exp := by
  have carries := weighed.carries t
  rw [at_] at carries
  obtain ⟨recorded, taken⟩ := carries
  cases snap with
  | nil =>
      simp only [act, at_, Option.some.injEq] at acts
      subst acts
      have unlocked : (s.setMutex o none).Weighed exp :=
        weighed.of_same rfl rfl rfl rfl fun _ known => known
      exact unlocked.goto recorded
  | cons e rest =>
      simp only [act, at_, Option.some.injEq] at acts
      subst acts
      refine weighed.goto ⟨⟨recorded, fun x member => taken x (List.mem_cons_of_mem _ member)⟩,
        fun x offers => ?_⟩
      obtain rfl := Option.some.inj offers
      exact taken e (List.mem_cons_self ..)

/-- The owner of the `Data` that entries are offered to. -/
theorem owner_of_offer (sound : s.Sound) {counted values : Nat} {pc : PC K V} {site : Site O K V}
    (at_ : s.point t = .offer counted values pc site) :
    ∃ o, (s.point t).this = some o ∧ s.owner values = some o := by
  obtain ⟨-, -, alive, -, -, here⟩ := sound.fine t
  rw [at_] at alive here ⊢
  cases site with
  | update o => exact ⟨o, rfl, here.2.1⟩
  | rescale o a data nextdata snap =>
      obtain ⟨rfl, -, rfl⟩ := here
      exact ⟨o, rfl, (sound.common.current o (alive o rfl)).1⟩

theorem offer (weighed : s.Weighed exp) (sound : s.Sound) {counted values : Nat} {pc : PC K V}
    {site : Site O K V} (at_ : s.point t = .offer counted values pc site)
    (acts : s.act exp t = some s') : s'.Weighed exp := by
  obtain ⟨o, this, owns⟩ := owner_of_offer sound at_
  have carries := weighed.carries t
  rw [at_] at carries this
  have offered : ∀ e, pc.offered = some e → s.Weighs exp o values e := by
    cases site with
    | update x =>
        obtain rfl := Option.some.inj this
        exact carries
    | rescale x a data nextdata snap =>
        obtain rfl := Option.some.inj this
        exact carries.2
  simp only [act, at_] at acts
  obtain ⟨⟨d, pc'⟩, planned, rfl⟩ := Option.map_eq_some_iff.1 acts
  obtain ⟨entries, offers⟩ := Shared.plan_entries planned
  have written : (s.write counted values d).Weighed exp :=
    weighed.write (fun e member => (entries e member).imp_right (offered e)) owns
  refine written.goto (Carries.extend (s := s) ?_ ⟨fun _ _ owns => owns,
    fun p _ _ => landmark_write counted values d p, fun _ known => known⟩)
  have goes : s.Carries exp (.offer counted values pc' site) := by
    cases site with
    | update x => exact fun e offer => carries e (offers e offer)
    | rescale x a data nextdata snap =>
        exact ⟨carries.1, fun e offer => carries.2 e (offers e offer)⟩
  cases pc' with
  | idle =>
      cases site with
      | update x => trivial
      | rescale x a data nextdata snap => exact carries.1
  | _ => exact goes

theorem values (weighed : s.Weighed exp) (sound : s.Sound) {data : Nat} {taken : List (K × V)}
    (at_ : s.point t = .values o data taken) (acts : s.act exp t = some s') : s'.Weighed exp := by
  have owns := owner_of_values sound at_
  have carries := weighed.carries t
  rw [at_] at carries
  simp only [act, at_] at acts
  split at acts <;> cases acts
  · rename_i e next
    refine weighed.goto fun x member => ?_
    rcases List.mem_append.1 member with old | isNew
    · exact carries x old
    · rw [List.mem_singleton.1 isNew]
      exact weighed.kept data o owns e (mem_of_following next)
  · have unlocked : (s.setMutex o none).Weighed exp :=
      weighed.of_same rfl rfl rfl rfl fun _ known => known
    have answered : { s.setMutex o none with
        result := fun u => if u = t then some (data, taken) else s.result u }.Weighed exp := by
      refine ⟨unlocked.kept, unlocked.carries, fun u data' taken' answers => ?_⟩
      change (if u = t then some (data, taken) else s.result u) = some (data', taken') at answers
      split at answers
      · cases answers
        exact ⟨o, owns, carries⟩
      · exact unlocked.results u data' taken' answers
    exact answered.goto trivial

theorem lock (weighed : s.Weighed exp) (sound : s.Sound) {a : Sample K V}
    (at_ : s.point t = .lock o a) (acts : s.act exp t = some s') : s'.Weighed exp := by
  have carries := weighed.carries t
  rw [at_] at carries
  simp only [act, at_] at acts
  split at acts <;> cases acts
  have locked : (s.setMutex o (some t)).Weighed exp :=
    weighed.of_same rfl rfl rfl rfl fun _ known => known
  refine (locked.alloc (fun p x => older sound.common p x) o a.now).goto ⟨carries, if_pos rfl, ?_⟩
  show (if s.fresh = s.fresh then (⟨.empty, 0, a.now⟩ : Data K V) else _).landmark = a.now
  rw [if_pos rfl]

/-- A step outside the hazard pointers. -/
theorem act (law : ∀ x y, exp (x + y) = exp x * exp y) (weighed : s.Weighed exp) (sound : s.Sound)
    (acts : s.act exp t = some s') : s'.Weighed exp := by
  have carries := weighed.carries t
  cases at_ : s.point t with
  | schedule o a =>
      rw [at_] at carries
      simp only [Reservoirs.act, at_, Option.some.injEq] at acts
      subst acts
      split <;> exact weighed.goto carries
  | compete o a next =>
      rw [at_] at carries
      simp only [Reservoirs.act, at_] at acts
      split at acts <;> cases acts
      · have won : (s.reschedule o).Weighed exp :=
          weighed.of_same rfl rfl rfl rfl fun _ known => known
        exact won.goto carries
      · exact weighed.goto carries
  | lock o a => exact weighed.lock sound at_ acts
  | read o a nextdata =>
      rw [at_] at carries
      simp only [Reservoirs.act, at_, Option.some.injEq] at acts
      subst acts
      exact weighed.goto carries
  | store o a data nextdata =>
      rw [at_] at carries
      simp only [Reservoirs.act, at_, Option.some.injEq] at acts
      subst acts
      have published : (s.setData o nextdata).Weighed exp :=
        weighed.of_same rfl rfl rfl rfl fun _ known => known
      exact published.goto ⟨carries.1, carries.2, fun _ member => by cases member⟩
  | entries o a data nextdata snap => exact weighed.entries law sound at_ acts
  | reinsert o a data nextdata snap => exact weighed.reinsert at_ acts
  | ready o a data => exact weighed.ready sound at_ acts
  | offer counted values pc site => exact weighed.offer sound at_ acts
  | close data =>
      simp only [Reservoirs.act, at_, Option.some.injEq] at acts
      subst acts
      exact weighed.goto trivial
  | enter o =>
      simp only [Reservoirs.act, at_] at acts
      split at acts <;> cases acts
      have locked : (s.setMutex o (some t)).Weighed exp :=
        weighed.of_same rfl rfl rfl rfl fun _ known => known
      exact locked.goto trivial
  | look o =>
      simp only [Reservoirs.act, at_, Option.some.injEq] at acts
      subst acts
      exact weighed.goto fun _ member => by cases member
  | values o data taken => exact weighed.values sound at_ acts
  | _ =>
      simp only [Reservoirs.act, at_] at acts
      cases acts

/-- A call has returned. -/
theorem carries_resume (carries : s.Carries exp point) (r : Hazard.Ret Nat) :
    s.Carries exp (point.resume r) := by
  cases point with
  | acquire c =>
      cases r with
      | record hp =>
          cases c with
          | update o a => exact carries
          | destroy data => trivial
      | _ => exact carries
  | load o a | hazard o a nextdata | retire o a data nextdata snap =>
      cases r <;> exact carries
  | clear o | destroy data | exit => cases r <;> trivial
  | _ => exact carries

theorem step (law : ∀ x y, exp (x + y) = exp x * exp y) (weighed : s.Weighed exp) (sound : s.Sound)
    (taken : s.step exp t = some s') : s'.Weighed exp := by
  unfold Reservoirs.step at taken
  split at taken
  · exact weighed.act law sound taken
  · obtain ⟨⟨sys, q⟩, -, rfl⟩ := Option.map_eq_some_iff.1 taken
    refine ⟨weighed.kept, fun u => ?_, weighed.results⟩
    refine Carries.extend (s := s) ?_ ⟨fun _ _ owns => owns, fun _ _ _ => rfl, fun _ known => known⟩
    show s.Carries exp (if u = t then _ else s.point u)
    split
    · cases q with
      | none => exact weighed.carries t
      | some r => exact carries_resume (weighed.carries t) r
    · exact weighed.carries u

theorem request (weighed : s.Weighed exp) {c : Request O K V} (carries : s.Carries exp c.point)
    (before : s.Carries exp (.acquire c)) : (s.request t c).Weighed exp := by
  unfold Reservoirs.request
  split
  · exact weighed.goto carries
  · exact weighed.goto before

theorem next [Fintype T] (law : ∀ x y, exp (x + y) = exp x * exp y) (weighed : s.Weighed exp)
    (sound : s.Sound) {a : Event T O K V} (taken : s.next exp a = some s') : s'.Weighed exp := by
  cases a with
  | construct t o created scheduled =>
      obtain ⟨-, -, rfl⟩ := next_construct taken
      have made := weighed.alloc (older sound.common) o created
      exact made.of_same rfl rfl rfl rfl fun _ known => known
  | update t o a =>
      obtain ⟨-, -, rfl⟩ := next_update taken
      have recorded : { s with clock := a.now, recorded := (o, a) :: s.recorded }.Weighed exp :=
        weighed.of_same rfl rfl rfl rfl fun _ known => List.mem_cons_of_mem _ known
      exact recorded.request (List.mem_cons_self ..) (List.mem_cons_self ..)
  | snapshot t o =>
      obtain ⟨-, -, rfl⟩ := next_snapshot taken
      exact weighed.goto trivial
  | destroy t o =>
      obtain ⟨-, -, rfl⟩ := next_destroy taken
      have emptied : (s.setData o 0).Weighed exp :=
        weighed.of_same rfl rfl rfl rfl fun _ known => known
      exact emptied.request trivial trivial
  | exit t =>
      obtain ⟨-, -, rfl⟩ := next_exit taken
      exact weighed.goto trivial
  | step t => exact weighed.step law sound taken

end Weighed

theorem weighed_init : (init : Reservoirs T O K V).Weighed exp where
  kept _ _ owns := by cases owns
  carries _ := trivial
  results _ _ _ answers := by cases answers

theorem weighed_run [Fintype T] (law : ∀ x y, exp (x + y) = exp x * exp y)
    {as : List (Event T O K V)} (ran : Theory.run (Reservoirs.next exp) init as = some s) :
    s.Weighed exp := by
  have both : s.Sound ∧ s.Weighed exp := by
    refine Theory.run_induction (P := fun s => s.Sound ∧ s.Weighed exp) ?_
      ⟨sound_init, weighed_init⟩ ran
    intro s a s' both taken
    exact ⟨both.1.next taken, both.2.next law both.1 taken⟩
  exact both.2

/-- **Forward decay.** In every reachable state of any number of threads and reservoirs, whatever
was rescaled in between, each entry of a `Data` is a sample that was recorded for the reservoir of
that `Data`: its value, beside the priority that the sample has from the landmark of the `Data`.
The same holds of what `snapshot` has returned, for the `Data` it was taken from. -/
theorem decays_forward [Fintype T] (law : ∀ x y, exp (x + y) = exp x * exp y)
    {as : List (Event T O K V)} (ran : Theory.run (Reservoirs.next exp) init as = some s) :
    (∀ p o, s.owner p = some o → ∀ e ∈ (s.heap p).map.entries, ∃ a, (o, a) ∈ s.recorded ∧
      e = (exp ((a.now : Int) - (s.heap p).landmark) / (1 - a.random), a.value)) ∧
    ∀ t data taken, s.result t = some (data, taken) → ∃ o, s.owner data = some o ∧
      ∀ e ∈ taken, ∃ a, (o, a) ∈ s.recorded ∧
        e = (exp ((a.now : Int) - (s.heap data).landmark) / (1 - a.random), a.value) := by
  obtain ⟨kept, -, results⟩ := weighed_run law ran
  refine ⟨fun p o owns e member => (kept p o owns e member).2, fun t data taken answers => ?_⟩
  obtain ⟨o, owns, weighs⟩ := results t data taken answers
  exact ⟨o, owns, fun e member => (weighs e member).2⟩

/-- Stands for `std::exp` in the example. -/
def double (delta : Int) : ℚ := 2 ^ delta

/-- Two updates and a snapshot. -/
def sampleTwice : List (Event (Fin 2) Unit ℚ Nat) :=
  Event.construct 0 () 0 0 :: .update 0 () ⟨1, 1 / 2, 7⟩ :: List.replicate 13 (.step 0) ++
    Event.update 0 () ⟨3, 1 / 2, 8⟩ :: List.replicate 8 (.step 0) ++
    Event.snapshot 1 () :: List.replicate 5 (.step 1)

theorem decays_forward_twice : ∃ s : Reservoirs (Fin 2) Unit ℚ Nat,
    Theory.run (next double) init sampleTwice = some s ∧ s.result 1 = some (1, [(4, 7), (16, 8)]) ∧
    ∃ a, ((), a) ∈ s.recorded ∧
      (16, 8) = (double ((a.now : Int) - (s.heap 1).landmark) / (1 - a.random), a.value) := by
  have ran : (Theory.run (next double) init sampleTwice).map (fun s => s.result 1) =
      some (some (1, [(4, 7), (16, 8)])) := by decide +kernel
  obtain ⟨s, ran, result⟩ := Option.map_eq_some_iff.1 ran
  have law : ∀ x y, double (x + y) = double x * double y := zpow_add₀ (by norm_num)
  obtain ⟨⟨⟩, -, weighs⟩ := (decays_forward law ran).2 1 1 _ result
  exact ⟨s, ran, result, weighs (16, 8) (by simp)⟩

end Reservoirs

end Ccmetrics.Reservoir
