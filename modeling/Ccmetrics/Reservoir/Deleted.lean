/-
# Reservoir.Deleted -- the `Data` objects of all reservoirs, and what `scan` deletes of them

One thread constructs reservoirs, updates and destroys them at non-decreasing times. All of them
share `smr`: the thread has one hazard pointer with one slot, and the `Data` objects that
rescalings and destructors retire go to one list. The member functions of `hazard_pointers.h` are
run access by access; `uses` logs every `Data` whose map or count `update` or `rescale` touches,
with what had been deleted by then.

`rescale` protects the new `Data`, retires the old one and then goes on counting on the old one.
With one record `scan` runs when the retire list has two nodes, so this is harmless as long as the
list was empty before (`uses_alive`), and otherwise the old `Data` is gone before the first entry
is reinserted (`uses_deleted`).
-/
import Ccmetrics.Hazard.Lone
import Ccmetrics.Reservoir.Update

namespace Ccmetrics.Reservoir

set_option autoImplicit false
set_option linter.unusedSectionVars false

open Theory (OrderedMap)

/-- `data_` and `next_scale_`. -/
structure ExponentialReservoir where
  data : Nat
  nextScale : Nat

/-- A `Data` that is read or written, and the ones that `scan` has deleted by then. -/
structure Use where
  data : Nat
  deleted : List Nat
  deriving DecidableEq

/-- A call of a member function of reservoir `r`. -/
inductive Request (K V : Type) where
  | update (r : Nat) (a : Action K V)
  | destroy (r : Nat)

/-- Where the thread stands. -/
inductive Point (K V : Type) where
  | idle
  -- `*smr.hp`
  | acquire (c : Request K V)
  | entry (c : Request K V)
  -- `loadAndRescaleIfNeeded` without rescaling
  | load (r : Nat) (a : Action K V)
  -- `rescale`
  | hazard (r : Nat) (a : Action K V) (nextdata : Nat)
  | swap (r : Nat) (a : Action K V) (nextdata : Nat)
  | retire (r : Nat) (a : Action K V) (data nextdata : Nat) (snap : List (K × V))
  | reinsert (r : Nat) (a : Action K V) (data nextdata : Nat) (snap : List (K × V))
  -- `update`
  | offer (r : Nat) (a : Action K V) (data : Nat)
  | clear
  -- `~ExponentialReservoir`
  | destroy (data : Nat)

/-- The call into the hazard pointers that the thread is inside. -/
def Point.call {K V : Type} : Point K V → Option (Hazard.Call Nat Nat)
  | .acquire _ => some .allocate
  | .load r _ => some (.loadAndSetHazard r 0)
  | .hazard _ _ nextdata => some (.setHazard 0 nextdata)
  | .retire _ _ data _ _ | .destroy data => some (.retireNode data)
  | .clear => some (.clearHazard 0)
  | _ => none

/-- Where the thread goes on when that call has returned. -/
def Point.resume {K V : Type} : Point K V → Hazard.Ret Nat → Point K V
  | .acquire c, .record _ => .entry c
  | .load r a, .value data => .offer r a data
  | .hazard r a nextdata, .unit => .swap r a nextdata
  | .retire r a data nextdata snap, .unit => .reinsert r a data nextdata snap
  | .clear, .unit | .destroy _, .unit => .idle
  | point, _ => point

/-- The thread has its hazard pointer. -/
def Point.holding {K V : Type} : Point K V → Bool
  | .idle | .acquire _ => false
  | _ => true

/-- The reservoirs, the `Data` objects by address (`nullptr` is 0), and the hazard pointers. -/
structure Process (K V : Type) [LinearOrder K] where
  sys : Hazard.Sys Unit Nat Nat
  heap : Nat → Data K V
  fresh : Nat
  reservoir : Nat → Option ExponentialReservoir
  clock : Nat
  point : Point K V
  uses : List Use

/-- A reservoir is constructed, a member function is called, or the thread takes a step. -/
inductive Event (K V : Type) where
  | construct (r created scheduled : Nat)
  | call (c : Request K V)
  | step

namespace Process

variable {K V : Type} [LinearOrder K] [Inhabited K]

def init : Process K V where
  sys := .init
  heap _ := ⟨.empty, 0, 0⟩
  fresh := 1
  reservoir _ := none
  clock := 0
  point := .idle
  uses := []

/-- What `data_` of each reservoir holds. -/
def cells (s : Process K V) (r : Nat) : Nat := ((s.reservoir r).map (·.data)).getD 0

/-- Go on at a point, entering the call that is made there. -/
def goto (s : Process K V) (point : Point K V) : Process K V :=
  { s with
    point := point
    sys := match point.call with
      | some c => s.sys.call () c
      | none => s.sys }

def use (s : Process K V) (data : Nat) : Process K V :=
  { s with uses := ⟨data, s.sys.pool.deleted⟩ :: s.uses }

def write (s : Process K V) (data : Nat) (d : Data K V) : Process K V :=
  { s with heap := fun p => if p = data then d else s.heap p }

/-- `new Data(now)`. -/
def alloc (s : Process K V) (now : Nat) : Process K V :=
  { s.write s.fresh ⟨.empty, 0, now⟩ with fresh := s.fresh + 1 }

def set (s : Process K V) (r : Nat) (x : Option ExponentialReservoir) : Process K V :=
  { s with reservoir := fun q => if q = r then x else s.reservoir q }

/-- A step outside the hazard pointers. -/
def act (scale : Nat → K → K) (s : Process K V) : Option (Process K V) :=
  match s.point with
  | .entry (.update r a) =>
      (s.reservoir r).map fun x =>
        if x.nextScale < a.now then
          ((s.set r (some { x with nextScale := x.nextScale + hour })).alloc a.now).goto
            (.hazard r a s.fresh)
        else s.goto (.load r a)
  | .entry (.destroy r) =>
      (s.reservoir r).map fun x => (s.set r none).goto (.destroy x.data)
  | .swap r a nextdata =>
      (s.reservoir r).map fun x =>
        let old := s.heap x.data
        let snap := old.map.entries.map fun e => (scale (a.now - old.landmark) e.1, e.2)
        ((s.use x.data).set r (some { x with data := nextdata })).goto
          (.retire r a x.data nextdata snap.reverse)
  | .reinsert r a _ nextdata [] => some (s.goto (.offer r a nextdata))
  | .reinsert r a data nextdata (e :: rest) =>
      let old := s.heap data
      let new := s.heap nextdata
      (Reservoir.offer old.count new.map e.1 e.2).map fun values =>
        ((((s.use data).use nextdata).write data { old with count := old.count + 1 }).write
          nextdata { new with map := values }).goto (.reinsert r a data nextdata rest)
  | .offer _ a data =>
      let d := s.heap data
      (Reservoir.offer d.count d.map a.priority a.value).map fun values =>
        ((s.use data).write data { d with map := values, count := d.count + 1 }).goto .clear
  | _ => none

def step (scale : Nat → K → K) (s : Process K V) : Option (Process K V) :=
  match s.point.call with
  | none => s.act scale
  | some _ =>
      (s.sys.step 1 s.cells ()).map fun next =>
        { s with
          sys := next.1
          point := match next.2 with
            | some q => s.point.resume q
            | none => s.point }

/-- The clock at a call, and the reservoir it is for. -/
def Admits (s : Process K V) : Request K V → Prop
  | .update r a => (s.reservoir r).isSome ∧ s.clock ≤ a.now
  | .destroy r => (s.reservoir r).isSome = true

instance decidableAdmits (s : Process K V) : (c : Request K V) → Decidable (s.Admits c)
  | .update r a => inferInstanceAs (Decidable ((s.reservoir r).isSome ∧ s.clock ≤ a.now))
  | .destroy r => inferInstanceAs (Decidable ((s.reservoir r).isSome = true))

def time (s : Process K V) : Request K V → Nat
  | .update _ a => a.now
  | .destroy _ => s.clock

def next (scale : Nat → K → K) (s : Process K V) : Event K V → Option (Process K V)
  | .construct r created scheduled =>
      match s.point with
      | .idle =>
          if s.reservoir r = none ∧ s.clock ≤ created ∧ created ≤ scheduled then
            some { (s.set r (some ⟨s.fresh, scheduled + hour⟩)).alloc created with
              clock := scheduled }
          else none
      | _ => none
  | .call c =>
      match s.point with
      | .idle =>
          if s.Admits c then
            some { s.goto (if (s.sys.own ()).isSome then .entry c else .acquire c) with
              clock := s.time c }
          else none
      | _ => none
  | .step => s.step scale

variable {scale : Nat → K → K} {s s' : Process K V}

/-! ## What the thread relies on -/

/-- Every `Data` retired so far has been deleted: the thread's retire list is empty. -/
def AllDeleted (s : Process K V) : Prop := ∀ p ∈ s.sys.retired, p ∈ s.sys.pool.deleted

/-- A rescaling that carries entries over finds the retire list empty. -/
def CarriesAlone (s : Process K V) : Request K V → Prop
  | .update r a => ∀ x ∈ s.reservoir r, x.nextScale < a.now →
      (s.heap x.data).map.entries ≠ [] → s.AllDeleted
  | .destroy _ => True

/-- A `Data` that only its constructor knows. -/
def Unpublished (s : Process K V) (data : Nat) : Prop :=
  data < s.fresh ∧ data ∉ s.sys.retired ∧ ∀ r, ∀ x ∈ s.reservoir r, x.data ≠ data

def Holds (s : Process K V) (r data : Nat) : Prop := ∃ x ∈ s.reservoir r, x.data = data

def Here (s : Process K V) : Point K V → Prop
  | .idle | .clear | .destroy _ => True
  | .acquire c | .entry c => s.CarriesAlone c
  | .load r _ => ∃ data, s.Holds r data
  | .hazard r _ nextdata | .swap r _ nextdata =>
      (∃ x ∈ s.reservoir r, (s.heap x.data).map.entries ≠ [] → s.AllDeleted) ∧
        s.Unpublished nextdata
  | .retire r _ data nextdata snap => s.Holds r nextdata ∧ (snap ≠ [] → s.sys.Lone () data)
  | .reinsert r _ data nextdata snap =>
      s.Holds r nextdata ∧ (snap ≠ [] → data ∉ s.sys.pool.deleted)
  | .offer r _ data => s.Holds r data

/-- The part of the invariant that does not depend on the point. -/
structure Kept (s : Process K V) : Prop where
  orderly : s.sys.Orderly 1
  born : ∀ p ∈ s.sys.retired, p < s.fresh
  current : ∀ r, ∀ x ∈ s.reservoir r, x.data < s.fresh ∧ x.data ∉ s.sys.retired
  apart : ∀ r r', ∀ x ∈ s.reservoir r, ∀ x' ∈ s.reservoir r', x.data = x'.data → r = r'
  alive : ∀ u ∈ s.uses, u.data ∉ u.deleted

/-- The hazard pointers are inside the call of the point. -/
def Inside (s : Process K V) : Option (Hazard.Call Nat Nat) → Prop
  | some c => c.Runs (s.sys.pc ())
  | none => s.sys.pc () = .idle

structure Sound (s : Process K V) : Prop where
  kept : s.Kept
  inside : s.Inside s.point.call
  holding : s.point.holding = true → (s.sys.own ()).isSome
  here : s.Here s.point

namespace Kept

variable {r data : Nat}

theorem not_deleted (kept : s.Kept) (unretired : data ∉ s.sys.retired) :
    data ∉ s.sys.pool.deleted :=
  fun gone => unretired (kept.orderly.conserved.removed data gone)

theorem holds_alive (kept : s.Kept) (holds : s.Holds r data) : data ∉ s.sys.pool.deleted := by
  obtain ⟨x, isX, rfl⟩ := holds
  exact kept.not_deleted (kept.current r x isX).2

theorem unpublished (kept : s.Kept) (now : Nat) : (s.alloc now).Unpublished s.fresh := by
  refine ⟨Nat.lt_succ_self _, fun retired => Nat.lt_irrefl _ (kept.born _ retired), ?_⟩
  intro r x isX same
  exact Nat.lt_irrefl _ (same ▸ (kept.current r x isX).1)

theorem use (kept : s.Kept) (alive : data ∉ s.sys.pool.deleted) : (s.use data).Kept := by
  obtain ⟨orderly, born, current, apart, before⟩ := kept
  refine ⟨orderly, born, current, apart, fun u member => ?_⟩
  rcases List.mem_cons.1 member with rfl | old
  · exact alive
  · exact before u old

theorem write (kept : s.Kept) (d : Data K V) : (s.write data d).Kept :=
  ⟨kept.orderly, kept.born, kept.current, kept.apart, kept.alive⟩

theorem alloc (kept : s.Kept) (now : Nat) : (s.alloc now).Kept := by
  refine ⟨kept.orderly, ?_, ?_, kept.apart, kept.alive⟩
  · exact fun p retired => Nat.lt_succ_of_lt (kept.born p retired)
  · exact fun r x isX => ⟨Nat.lt_succ_of_lt (kept.current r x isX).1, (kept.current r x isX).2⟩

theorem mem_set {x : Option ExponentialReservoir} {q : Nat} {y : ExponentialReservoir}
    (isY : y ∈ (s.set r x).reservoir q) : (q = r ∧ y ∈ x) ∨ (q ≠ r ∧ y ∈ s.reservoir q) := by
  unfold Process.set at isY
  by_cases same : q = r
  · exact .inl ⟨same, by simpa [same] using isY⟩
  · exact .inr ⟨same, by simpa [same] using isY⟩

theorem set (kept : s.Kept) {x : Option ExponentialReservoir}
    (current : ∀ y ∈ x, y.data < s.fresh ∧ y.data ∉ s.sys.retired)
    (apart : ∀ y ∈ x, ∀ q, q ≠ r → ∀ z ∈ s.reservoir q, z.data ≠ y.data) :
    (s.set r x).Kept := by
  refine ⟨kept.orderly, kept.born, ?_, ?_, kept.alive⟩
  · intro q y isY
    rcases mem_set isY with ⟨-, isNew⟩ | ⟨-, old⟩
    · exact current y isNew
    · exact kept.current q y old
  · intro q q' y isY y' isY' same
    rcases mem_set isY with ⟨rfl, isNew⟩ | ⟨other, old⟩ <;>
      rcases mem_set isY' with ⟨rfl, isNew'⟩ | ⟨other', old'⟩
    · rfl
    · exact absurd same.symm (apart y isNew q' other' y' old')
    · exact absurd same (apart y' isNew' q other y old)
    · exact kept.apart q q' y old y' old' same

theorem retired_goto {point : Point K V} {p : Nat} (retired : p ∈ (s.goto point).sys.retired) :
    p ∈ s.sys.retired ∨ point.call = some (.retireNode p) := by
  unfold goto at retired
  cases call : point.call with
  | none =>
      rw [call] at retired
      exact .inl retired
  | some c =>
      rw [call] at retired
      rcases Hazard.Sys.mem_call_retired retired with old | rfl
      · exact .inl old
      · exact .inr rfl

/-- The thread goes on at a point and enters the call there. -/
theorem goto (kept : s.Kept) (idle : s.sys.pc () = .idle) {point : Point K V}
    (callable : ∀ c, point.call = some c → s.sys.Callable 1 () c)
    (fresh : ∀ p, point.call = some (.retireNode p) → s.Unpublished p)
    (holding : point.holding = true → (s.sys.own ()).isSome)
    (here : (s.goto point).Here point) : (s.goto point).Sound := by
  have own : (s.goto point).sys.own () = s.sys.own () := by
    unfold Process.goto
    cases point.call <;> rfl
  refine ⟨⟨?_, ?_, ?_, kept.apart, kept.alive⟩, ?_, fun holds => own ▸ holding holds, here⟩
  · unfold Process.goto
    cases call : point.call with
    | none => exact kept.orderly
    | some c =>
        refine kept.orderly.step (.call _ _ c idle (callable c call) ?_)
        rintro p rfl
        exact (fresh p call).2.1
  · intro p retired
    rcases retired_goto retired with old | isCall
    · exact kept.born p old
    · exact (fresh p isCall).1
  · intro r x isX
    refine ⟨(kept.current r x isX).1, fun retired => ?_⟩
    rcases retired_goto retired with old | isCall
    · exact (kept.current r x isX).2 old
    · exact (fresh _ isCall).2.2 r x isX rfl
  · unfold Process.goto Inside
    cases point.call with
    | none => exact idle
    | some c =>
        simp only [Hazard.Sys.call_pc_self]
        exact Hazard.Call.runs_entry c _

end Kept

/-! ## The steps -/

namespace Sound

/-- The thread rescales, or loads `data_`. -/
theorem entry_update (sound : s.Sound) {r : Nat} {a : Action K V}
    (at_ : s.point = .entry (.update r a)) (acts : s.act scale = some s') : s'.Sound := by
  obtain ⟨kept, inside, holding, here⟩ := sound
  rw [at_] at inside holding here
  have has := holding rfl
  simp only [act, at_] at acts
  obtain ⟨x, isX, rfl⟩ := Option.map_eq_some_iff.1 acts
  have carries := here x isX
  split
  · rename_i late
    have scheduled : (s.set r (some { x with nextScale := x.nextScale + hour })).Kept := by
      refine kept.set ?_ ?_ <;> rintro y ⟨rfl⟩
      · exact kept.current r x isX
      · exact fun q other z isZ same => other (kept.apart q r z isZ x isX same)
    refine (scheduled.alloc a.now).goto inside ?_ (fun p retires => nomatch retires)
      (fun _ => has) ?_
    · rintro c ⟨rfl⟩
      exact ⟨has, Nat.one_pos⟩
    · obtain ⟨born, unretired, unread⟩ := scheduled.unpublished a.now
      refine ⟨⟨_, if_pos rfl, fun carried => ?_⟩, born, unretired, unread⟩
      have old : x.data ≠ s.fresh := Nat.ne_of_lt (kept.current r x isX).1
      have same : (((s.set r (some { x with nextScale := x.nextScale + hour })).alloc a.now).heap
          x.data) = s.heap x.data := if_neg old
      exact carries late (same ▸ carried)
  · refine kept.goto inside ?_ (fun p retires => nomatch retires) (fun _ => has)
      ⟨x.data, x, isX, rfl⟩
    rintro c ⟨rfl⟩
    exact ⟨has, Nat.one_pos⟩

theorem entry_destroy (sound : s.Sound) {r : Nat}
    (at_ : s.point = .entry (.destroy r)) (acts : s.act scale = some s') : s'.Sound := by
  obtain ⟨kept, inside, holding, -⟩ := sound
  rw [at_] at inside holding
  have has := holding rfl
  simp only [act, at_] at acts
  obtain ⟨x, isX, rfl⟩ := Option.map_eq_some_iff.1 acts
  have gone : (s.set r none).Kept := by
    refine kept.set ?_ ?_ <;> rintro y ⟨⟩
  refine gone.goto inside ?_ ?_ (fun _ => has) trivial
  · rintro c ⟨rfl⟩
    exact has
  · rintro p ⟨rfl⟩
    refine ⟨(kept.current r x isX).1, (kept.current r x isX).2, fun q z isZ same => ?_⟩
    rcases Kept.mem_set isZ with ⟨-, ⟨⟩⟩ | ⟨other, isZ⟩
    exact other (kept.apart q r z isZ x isX same)

/-- The old `Data` is replaced, read and retired. -/
theorem swap (sound : s.Sound) {r nextdata : Nat} {a : Action K V}
    (at_ : s.point = .swap r a nextdata) (acts : s.act scale = some s') : s'.Sound := by
  obtain ⟨kept, inside, holding, here⟩ := sound
  rw [at_] at inside holding here
  have has := holding rfl
  obtain ⟨⟨x, isX, carries⟩, born, unretired, unread⟩ := here
  simp only [act, at_] at acts
  obtain ⟨x', isX', rfl⟩ := Option.map_eq_some_iff.1 acts
  obtain rfl := Option.some.inj (isX'.symm.trans isX)
  have current := kept.current r x' isX
  have alive := kept.not_deleted current.2
  have swapped : ((s.use x'.data).set r (some { x' with data := nextdata })).Kept := by
    refine (kept.use alive).set ?_ ?_ <;> rintro y ⟨rfl⟩
    · exact ⟨born, unretired⟩
    · exact fun q _ z isZ => unread q z isZ
  refine swapped.goto inside ?_ ?_ (fun _ => has) ⟨⟨_, if_pos rfl, rfl⟩, fun carried => ?_⟩
  · rintro c ⟨rfl⟩
    exact has
  · rintro p ⟨rfl⟩
    refine ⟨current.1, current.2, fun q z isZ same => ?_⟩
    rcases Kept.mem_set isZ with ⟨-, ⟨rfl⟩⟩ | ⟨other, isZ⟩
    · exact unread r x' isX same.symm
    · exact other (kept.apart q r z isZ x' isX same)
  · have some_ : (s.heap x'.data).map.entries ≠ [] := by
      rintro empty
      rw [empty] at carried
      exact carried rfl
    refine ⟨alive, fun q retired => ?_, _, .inl (Hazard.Sys.call_pc_self _)⟩
    rcases List.mem_cons.1 retired with rfl | old
    · exact .inl rfl
    · exact .inr (carries some_ q old)

/-- An entry of the old `Data` is offered to the new one. -/
theorem reinsert (sound : s.Sound) {r data nextdata : Nat} {a : Action K V} {snap : List (K × V)}
    (at_ : s.point = .reinsert r a data nextdata snap) (acts : s.act scale = some s') :
    s'.Sound := by
  obtain ⟨kept, inside, holding, here⟩ := sound
  rw [at_] at inside holding here
  have has := holding rfl
  obtain ⟨holds, alive⟩ := here
  cases snap with
  | nil =>
      simp only [act, at_] at acts
      cases acts
      exact kept.goto inside (fun c calls => nomatch calls) (fun p retires => nomatch retires)
        (fun _ => has) holds
  | cons e rest =>
      simp only [act, at_] at acts
      obtain ⟨values, -, rfl⟩ := Option.map_eq_some_iff.1 acts
      have alive := alive (List.cons_ne_nil e rest)
      have used := (kept.use alive).use (kept.holds_alive holds)
      exact ((used.write _).write _).goto inside (fun c calls => nomatch calls)
        (fun p retires => nomatch retires) (fun _ => has) ⟨holds, fun _ => alive⟩

theorem offer (sound : s.Sound) {r data : Nat} {a : Action K V}
    (at_ : s.point = .offer r a data) (acts : s.act scale = some s') : s'.Sound := by
  obtain ⟨kept, inside, holding, here⟩ := sound
  rw [at_] at inside holding here
  have has := holding rfl
  simp only [act, at_] at acts
  obtain ⟨values, -, rfl⟩ := Option.map_eq_some_iff.1 acts
  refine ((kept.use (kept.holds_alive here)).write _).goto inside ?_
    (fun p retires => nomatch retires) (fun _ => has) trivial
  rintro c ⟨rfl⟩
  exact ⟨has, Nat.one_pos⟩

/-- What an access inside a call leaves of what the thread relies on, and of what it returns to. -/
theorem here_access (sound : s.Sound) {c : Hazard.Call Nat Nat} {sys : Hazard.Sys Unit Nat Nat}
    {q : Option (Hazard.Ret Nat)} (calls : s.point.call = some c)
    (stepped : s.sys.step 1 s.cells () = some (sys, q)) :
    (q = none → { s with sys := sys }.Here s.point) ∧
    ∀ r, q = some r → c.Returns s.cells r →
      (s.point.resume r).call = none ∧ { s with sys := sys }.Here (s.point.resume r) := by
  obtain ⟨kept, -, -, here⟩ := sound
  have retired := Hazard.Sys.retired_step stepped
  have grows : s.AllDeleted → { s with sys := sys }.AllDeleted := by
    intro all p isRetired
    exact Hazard.Sys.deleted_step stepped (all p (retired ▸ isRetired))
  cases at_ : s.point with
  | acquire c' =>
      rw [at_] at calls here
      obtain ⟨rfl⟩ := calls
      have here : { s with sys := sys }.CarriesAlone c' := by
        cases c' with
        | update r a => exact fun x isX late carried => grows (here x isX late carried)
        | destroy r => trivial
      refine ⟨fun _ => here, fun r _ returns => ?_⟩
      cases r <;> first | exact ⟨rfl, here⟩ | exact returns.elim
  | load r a =>
      rw [at_] at calls here
      obtain ⟨rfl⟩ := calls
      refine ⟨fun _ => here, fun q _ returns => ?_⟩
      cases q with
      | value p =>
          obtain ⟨_, x, isX, rfl⟩ := here
          obtain rfl : p = s.cells r := returns
          refine ⟨rfl, x, isX, ?_⟩
          unfold cells
          rw [Option.mem_def.1 isX]
          rfl
      | _ => exact returns.elim
  | hazard r a nextdata =>
      rw [at_] at calls here
      obtain ⟨rfl⟩ := calls
      obtain ⟨⟨x, isX, carries⟩, born, unretired, unread⟩ := here
      have here : (∃ x ∈ s.reservoir r, (s.heap x.data).map.entries ≠ [] →
          { s with sys := sys }.AllDeleted) ∧ { s with sys := sys }.Unpublished nextdata :=
        ⟨⟨x, isX, fun carried => grows (carries carried)⟩, born, retired ▸ unretired, unread⟩
      refine ⟨fun _ => here, fun q _ returns => ?_⟩
      cases q <;> first | exact ⟨rfl, here⟩ | exact returns.elim
  | retire r a data nextdata snap =>
      rw [at_] at calls here
      obtain ⟨rfl⟩ := calls
      obtain ⟨holds, lone⟩ := here
      have after := fun carried => (lone carried).step kept.orderly Nat.one_pos stepped
      refine ⟨fun going => ⟨holds, fun carried => (after carried).2 going⟩, fun q _ returns => ?_⟩
      cases q with
      | unit => exact ⟨rfl, holds, fun carried => (after carried).1⟩
      | _ => exact returns.elim
  | clear | destroy data =>
      rw [at_] at calls
      obtain ⟨rfl⟩ := calls
      refine ⟨fun _ => trivial, fun q _ returns => ?_⟩
      cases q <;> first | exact ⟨rfl, trivial⟩ | exact returns.elim
  | _ =>
      rw [at_] at calls
      cases calls

/-- The calls that the thread makes do not give up its record. -/
theorem call_ne_retire {point : Point K V} : point.call ≠ some .retire := by
  cases point <;> exact fun same => nomatch same

/-- When a call returns the thread has its record. -/
theorem has_record {point : Point K V} {c : Hazard.Call Nat Nat} {rd : Nat → Nat}
    {q : Hazard.Ret Nat} (calls : point.call = some c) (returns : c.Returns rd q)
    (notHolding : point.holding = false) : ∃ hp, q = .record hp := by
  cases point with
  | acquire c' =>
      obtain ⟨rfl⟩ := calls
      cases q with
      | record hp => exact ⟨hp, rfl⟩
      | _ => exact returns.elim
  | idle => cases calls
  | _ => cases notHolding

theorem access (sound : s.Sound) {c : Hazard.Call Nat Nat} {sys : Hazard.Sys Unit Nat Nat}
    {q : Option (Hazard.Ret Nat)} (calls : s.point.call = some c)
    (stepped : s.sys.step 1 s.cells () = some (sys, q)) {point : Point K V}
    (stays : q = none → point = s.point) (resumes : ∀ r, q = some r → point = s.point.resume r) :
    { s with sys := sys, point := point }.Sound := by
  obtain ⟨onwards, returns⟩ := sound.here_access calls stepped
  obtain ⟨kept, inside, holding, -⟩ := sound
  have retired := Hazard.Sys.retired_step stepped
  have kept' : ∀ point, { s with sys := sys, point := point }.Kept := fun point =>
    ⟨kept.orderly.step (.access _ _ _ _ _ stepped), fun p isRetired => kept.born p (retired ▸ isRetired),
      fun r x isX => ⟨(kept.current r x isX).1, retired ▸ (kept.current r x isX).2⟩, kept.apart,
      kept.alive⟩
  rw [calls] at inside
  have notRetire : c ≠ .retire := by
    rintro rfl
    exact call_ne_retire calls
  have own := fun has => Hazard.Sys.own_step inside notRetire stepped has
  rcases Hazard.Sys.runs_step inside stepped with ⟨rfl, runs⟩ | ⟨r, rfl, isReturn, idle⟩
  · obtain rfl := stays rfl
    refine ⟨kept' _, ?_, fun holds => own (.inl (holding holds)), onwards rfl⟩
    simpa only [Inside, calls] using runs
  · obtain rfl := resumes r rfl
    obtain ⟨outside, here⟩ := returns r rfl isReturn
    refine ⟨kept' _, ?_, fun _ => own ?_, here⟩
    · simpa only [Inside, outside] using idle
    · cases held : s.point.holding with
      | true => exact .inl (holding held)
      | false =>
          obtain ⟨hp, rfl⟩ := has_record calls isReturn held
          exact .inr ⟨hp, rfl⟩

theorem step (sound : s.Sound) (taken : s.step scale = some s') : s'.Sound := by
  unfold Process.step at taken
  split at taken
  · rename_i outside
    have acts := taken
    unfold act at taken
    split at taken
    · exact sound.entry_update ‹_› acts
    · exact sound.entry_destroy ‹_› acts
    · exact sound.swap ‹_› acts
    · exact sound.reinsert ‹_› acts
    · exact sound.reinsert ‹_› acts
    · exact sound.offer ‹_› acts
    · cases taken
  · rename_i c calls
    obtain ⟨⟨sys, q⟩, stepped, rfl⟩ := Option.map_eq_some_iff.1 taken
    refine sound.access calls stepped ?_ ?_
    · rintro rfl
      rfl
    · rintro r rfl
      rfl

theorem construct (sound : s.Sound) {r created scheduled : Nat}
    (taken : s.next scale (.construct r created scheduled) = some s') : s'.Sound := by
  unfold Process.next at taken
  cases at_ : s.point with
  | idle =>
      simp only [at_] at taken
      split at taken
      · cases taken
        have kept := sound.kept
        have inside := sound.inside
        rw [at_] at inside
        obtain ⟨born, unretired, unread⟩ := kept.unpublished created
        obtain ⟨orderly, known, current, apart, alive⟩ :
            ((s.alloc created).set r (some ⟨s.fresh, scheduled + hour⟩)).Kept := by
          refine (kept.alloc created).set ?_ ?_ <;> rintro y ⟨rfl⟩
          · exact ⟨born, unretired⟩
          · exact fun q _ z isZ => unread q z isZ
        refine ⟨⟨orderly, known, current, apart, alive⟩, ?_, ?_, ?_⟩ <;>
          show _ <;> simp only [Process.alloc, Process.set, Process.write, at_]
        · exact inside
        · exact fun holds => nomatch holds
        · trivial
      · cases taken
  | _ =>
      simp only [at_] at taken
      cases taken

/-- A member function is called, and looks for the hazard pointer first. -/
theorem call (sound : s.Sound) {c : Request K V} (carries : s.CarriesAlone c)
    (taken : s.next scale (.call c) = some s') : s'.Sound := by
  unfold Process.next at taken
  cases at_ : s.point with
  | idle =>
      simp only [at_] at taken
      split at taken
      · cases taken
        have idle : s.sys.pc () = .idle := by
          have inside := sound.inside
          rw [at_] at inside
          exact inside
        have moved : (s.goto (if (s.sys.own ()).isSome then .entry c else .acquire c)).Sound := by
          split
          · rename_i has
            exact sound.kept.goto idle (fun _ calls => nomatch calls)
              (fun _ retires => nomatch retires) (fun _ => has) carries
          · rename_i without
            refine sound.kept.goto idle ?_ (fun _ retires => nomatch retires)
              (fun holds => nomatch holds) carries
            rintro _ ⟨rfl⟩
            exact Option.not_isSome_iff_eq_none.1 without
        obtain ⟨⟨orderly, born, current, apart, alive⟩, inside, holding, here⟩ := moved
        refine ⟨⟨orderly, born, current, apart, alive⟩, inside, holding, ?_⟩
        split at here <;> split <;> exact here
      · cases taken
  | _ =>
      simp only [at_] at taken
      cases taken

end Sound

theorem sound_init : (init : Process K V).Sound := by
  refine ⟨⟨Hazard.Sys.orderly_init, ?_, ?_, ?_, ?_⟩, rfl, (fun holds => nomatch holds), trivial⟩
  · exact fun p retired => nomatch retired
  · exact fun r x isX => nomatch isX
  · exact fun r r' x isX => nomatch isX
  · exact fun u member => nomatch member

/-- The condition on the calls of a run. -/
def Spares (s : Process K V) : Event K V → Prop
  | .call c => s.CarriesAlone c
  | _ => True

theorem Sound.next (sound : s.Sound) {a : Event K V} (spares : s.Spares a)
    (taken : s.next scale a = some s') : s'.Sound := by
  cases a with
  | construct r created scheduled => exact sound.construct taken
  | call c => exact sound.call spares taken
  | step => exact sound.step taken

/-- **No `Data` is used after it has been deleted, if no rescaling that carries entries over
starts with a node on the retire list.** The runs construct, update and destroy any number of
reservoirs; `uses` has every `Data` that `update` or `rescale` has touched. -/
theorem uses_alive {as : List (Event K V)}
    (met : Theory.Along (Process.next scale) Spares init as)
    (ran : Theory.run (Process.next scale) init as = some s) : ∀ u ∈ s.uses, u.data ∉ u.deleted := by
  have sound : s.Sound :=
    Theory.run_along (fun _ _ _ before spares taken => before.next spares taken) sound_init met ran
  exact sound.kept.alive

instance decidableAllDeleted (s : Process K V) : Decidable s.AllDeleted :=
  inferInstanceAs (Decidable (∀ p ∈ s.sys.retired, p ∈ s.sys.pool.deleted))

instance decidableCarriesAlone (s : Process K V) : (c : Request K V) → Decidable (s.CarriesAlone c)
  | .update r a => inferInstanceAs (Decidable (∀ x ∈ s.reservoir r, x.nextScale < a.now →
      ¬ (s.heap x.data).map.entries = [] → s.AllDeleted))
  | .destroy _ => isTrue trivial

instance decidableSpares (s : Process K V) : (a : Event K V) → Decidable (s.Spares a)
  | .call c => inferInstanceAs (Decidable (s.CarriesAlone c))
  | .construct _ _ _ | .step => isTrue trivial

/-- An update, and an update that rescales. -/
def once : List (Event ℚ Nat) :=
  Event.construct 0 0 0 :: .call (.update 0 ⟨0, 1, 7⟩) :: List.replicate 11 .step ++
  Event.call (.update 0 ⟨hour + 1, 2, 8⟩) :: List.replicate 9 .step

/-- The first rescaling of a run is harmless. -/
theorem uses_alive_once : ∃ s : Process ℚ Nat,
    Theory.run (Process.next State.halve) init once = some s ∧
    s.uses.map (·.data) = [2, 2, 1, 1, 1] ∧ ∀ u ∈ s.uses, u.data ∉ u.deleted := by
  have ran : (Theory.run (Process.next State.halve) init once).map (fun s => s.uses.map (·.data)) =
      some [2, 2, 1, 1, 1] := by decide +kernel
  obtain ⟨s, ran, used⟩ := Option.map_eq_some_iff.1 ran
  exact ⟨s, ran, used, uses_alive (by decide +kernel) ran⟩

/-- `once`, and a second update that rescales. -/
def twice : List (Event ℚ Nat) :=
  once ++ Event.call (.update 0 ⟨2 * hour + 2, 3, 9⟩) :: List.replicate 13 .step

/-- The second rescaling deletes the `Data` that it goes on to count on. -/
theorem uses_deleted : ∃ s : Process ℚ Nat,
    Theory.run (Process.next State.halve) init twice = some s ∧
    ∃ u ∈ s.uses, u.data ∈ u.deleted := by
  have ran : (Theory.run (Process.next State.halve) init twice).map
      (fun s => decide (∃ u ∈ s.uses, u.data ∈ u.deleted)) = some true := by decide +kernel
  obtain ⟨s, ran, used⟩ := Option.map_eq_some_iff.1 ran
  exact ⟨s, ran, of_decide_eq_true used⟩

end Process

end Ccmetrics.Reservoir
