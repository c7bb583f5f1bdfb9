/-
# Striped.Reset -- what a `reset` takes away

`reset` stores zero into the base and then into one cell after the other, while other threads go
on adding: it has no moment of its own, and what is added behind it stays. What can be said of it
is what each of its stores overwrites (`wipes`). `wiped` adds this up along a run, for all calls of
`reset` there are, and the books balance again: what is there and what has been wiped make up what
has been added (`reset_conserves`).

A `Place` is a base or a cell. `access_changes` says what one step does to the places of an object:
it leaves them and may append new ones that are zero, it adds the delta of a call to one of them,
or it stores zero into one of them.
-/
import Ccmetrics.Striped.Reads

namespace Ccmetrics.Striped

set_option autoImplicit false
set_option linter.unusedSectionVars false

variable {T O : Type} [DecidableEq T] [DecidableEq O]

/-- Where a part of an object's value can be. -/
inductive Place (O : Type) where
  | base (o : O)
  | cell (c : Nat)
  deriving DecidableEq

/-- Changing a function at one member of a list changes the sum over the list there. -/
theorem sum_update {α M : Type} [DecidableEq α] [AddCommMonoid M] {l : List α} (nodup : l.Nodup)
    {a : α} (member : a ∈ l) (f : α → M) (y : M) :
    (l.map fun x => if x = a then y else f x).sum + f a = (l.map f).sum + y := by
  induction l with
  | nil => cases member
  | cons b rest ih =>
      obtain ⟨fresh, nodup⟩ := List.nodup_cons.1 nodup
      simp only [List.map_cons, List.sum_cons]
      rcases List.mem_cons.1 member with rfl | inRest
      · have unchanged : (rest.map fun x => if x = a then y else f x) = rest.map f :=
          List.map_congr_left fun x inRest => if_neg (by rintro rfl; exact fresh inRest)
        rw [unchanged, if_pos rfl]
        abel
      · have other : b ≠ a := by rintro rfl; exact fresh inRest
        rw [add_assoc, ih nodup inRest, if_neg other, add_assoc]

namespace State

variable {s s' : State T O} {t u : T} {e : Effect O} {nx : Next O} {o : O} {p : Place O}

/-- What is at a place. -/
def word (s : State T O) : Place O → Word
  | .base o => s.base o
  | .cell c => s.cell c

/-- The places of an object. -/
def places (s : State T O) (o : O) : List (Place O) := .base o :: (s.cells o).map .cell

theorem weigh_places {M : Type} [AddCommMonoid M] (w : Word → M) :
    s.weigh w o = ((s.places o).map fun p => w (s.word p)).sum := by
  simp [weigh, places, word, Function.comp_def]

theorem total_places : s.total o = ((s.places o).map s.word).sum :=
  weigh_places id

theorem Layout.places_nodup (layout : s.Layout) (o : O) : (s.places o).Nodup := by
  refine List.nodup_cons.2 ⟨by simp, ?_⟩
  refine (layout.cells_nodup o).map fun c d same => ?_
  cases same
  rfl

theorem mem_places_cell {c : Nat} : .cell c ∈ s.places o ↔ c ∈ s.cells o := by
  simp [places]

theorem mem_places_base {o' : O} : .base o' ∈ s.places o ↔ o' = o := by
  simp [places]

/-! ## What a step does to the places of an object -/

/-- The place of `o` that the effect adds to, and what it adds. -/
def puts (s : State T O) (o : O) : Effect O → Option (Place O × Word)
  | .addBase this update => if this = o then some (.base o, update - s.base o) else none
  | .addCell c update => if c ∈ s.cells o then some (.cell c, update - s.cell c) else none
  | _ => none

/-- The place of `o` that the effect stores zero into. -/
def zeros (s : State T O) (o : O) : Effect O → Option (Place O)
  | .zeroBase this => if this = o then some (.base o) else none
  | .zeroCell c => if c ∈ s.cells o then some (.cell c) else none
  | _ => none

/-- The log counts the same for `o`. -/
structure SameCounts (o : O) (log log' : List (Add O)) : Prop where
  applied : applied log' o = applied log o
  swapped : swapped log' o = swapped log o
  started : started log' o = started log o

inductive Change (o : O) (s : State T O) (e : Effect O) (s' : State T O) : Prop
  | keeps : s.puts o e = none → s.zeros o e = none → s.places o <+: s'.places o →
      (∀ p ∈ s.places o, s'.word p = s.word p) →
      (∀ p ∈ s'.places o, p ∉ s.places o → s'.word p = 0) →
      SameCounts o s.log s'.log → Change o s e s'
  | puts (p : Place O) (v : Word) : s.puts o e = some (p, v) → s.zeros o e = none →
      p ∈ s.places o → s'.places o = s.places o →
      (∀ q, s'.word q = if q = p then s.word p + v else s.word q) →
      applied s'.log o = applied s.log o + v → swapped s'.log o = swapped s.log o + v.toNat →
      started s'.log o = started s.log o → Change o s e s'
  | zeros (p : Place O) : s.puts o e = none → s.zeros o e = some p →
      p ∈ s.places o → s'.places o = s.places o →
      (∀ q, s'.word q = if q = p then 0 else s.word q) →
      SameCounts o s.log s'.log → Change o s e s'

/-- Nothing of `o` is touched by a step on another object. -/
theorem Layout.untouched (layout : s.Layout) (access : Access s t (s.pc t) e nx)
    (elsewhere : (s.pc t).writes ≠ some o) : s.puts o e = none ∧ s.zeros o e = none := by
  have away : ∀ o' c, (s.pc t).writes = some o' → c ∈ s.cells o' → c ∉ s.cells o := by
    intro o' c writing inOther member
    have : o ≠ o' := by rintro rfl; exact elsewhere writing
    exact layout.apart o o' this c member inOther
  have here := layout.here t
  generalize s.pc t = pc at access elsewhere away here
  cases access
  case addBaseWon this value | resetBase this =>
      have other : this ≠ o := by rintro rfl; exact elsewhere rfl
      simp [State.puts, State.zeros, other]
  case addWon this value cur slot =>
      have outside := away this slot rfl (here.1.2.subset here.2)
      simp [State.puts, State.zeros, outside]
  case slowWon f cur idx =>
      have outside := away f.this _ rfl (here.1.2.subset (Storage.get_mem here.2))
      simp [State.puts, State.zeros, outside]
  case resetGet this cur len i =>
      have outside := away this _ rfl
        (here.1.2.subset (Storage.get_mem (Nat.lt_of_lt_of_eq here.2.1 here.2.2)))
      simp [State.puts, State.zeros, outside]
  all_goals exact ⟨rfl, rfl⟩

/-- New cells are zero, and nothing else is new. -/
theorem Layout.new_cells (layout : s.Layout) (access : Access s t (s.pc t) e nx) {c : Nat}
    (member : c ∈ (s.after t e nx).cells o) (new : c ∉ s.cells o) :
    (s.after t e nx).cell c = 0 := by
  rcases layout.mem_cells_after access member with old | ⟨drafted, a, rfl⟩
  · exact absurd old new
  · rw [after_cell_eq (by simp) (by simp) (layout.draft_bound drafted)]
    exact (layout.draft t c drafted).1

/-- A step that adds nothing and stores no zero keeps what is there. -/
theorem Layout.keeps (layout : s.Layout) (access : Access s t (s.pc t) e nx)
    (puts : s.puts o e = none) (zeros : s.zeros o e = none)
    (same : SameCounts o s.log (s.after t e nx).log) : Change o s e (s.after t e nx) := by
  have grows := (layout.extends access).cells o
  refine .keeps puts zeros (List.prefix_cons_inj _ |>.2 (grows.map _)) (fun p member => ?_)
    (fun p member new => ?_) same
  · cases p with
    | base o' =>
        cases mem_places_base.1 member
        rw [word, word, after_base]
        cases e with
        | addBase this update =>
            have other : o ≠ this := by rintro rfl; simp [State.puts] at puts
            simp [apply, other]
        | zeroBase this =>
            have other : o ≠ this := by rintro rfl; simp [State.zeros] at zeros
            simp [apply, other]
        | _ => rfl
    | cell c =>
        have inCells := mem_places_cell.1 member
        rw [word, word, after_cell]
        cases e with
        | addCell d update =>
            have other : c ≠ d := by rintro rfl; simp [State.puts, inCells] at puts
            simp [apply, other]
        | zeroCell d =>
            have other : c ≠ d := by rintro rfl; simp [State.zeros, inCells] at zeros
            simp [apply, other]
        | create | expand =>
            simp [apply, allocate, Nat.not_le.2 (layout.cells_bound inCells)]
        | _ => rfl
  · cases p with
    | base o' => exact absurd (mem_places_base.2 (mem_places_base.1 member)) new
    | cell c =>
        exact layout.new_cells access (mem_places_cell.1 member) fun old =>
          new (mem_places_cell.2 old)

/-- A step of a call on `o` that adds nothing: only a `reset` stores zeros. -/
theorem changes_idle (layout : s.Layout) (access : Access s t (s.pc t) e nx)
    (writing : (s.pc t).writes = some o) (puts : s.puts o e = none)
    (same : SameCounts o s.log (s.after t e nx).log) : Change o s e (s.after t e nx) := by
  cases e with
  | zeroBase this =>
      obtain rfl : this = o := by
        generalize s.pc t = pc at access writing
        cases access
        exact Option.some.inj writing
      refine .zeros (.base this) rfl (by simp [State.zeros]) (mem_places_base.2 rfl) ?_
        (fun q => ?_) same
      · cases nx <;> rfl
      · cases q with
        | base x => by_cases here : x = this <;> simp [word, after_base, apply, here]
        | cell d => simp [word, after_cell, apply]
  | zeroCell c =>
      have inCells : c ∈ s.cells o := by
        have here := layout.here t
        generalize s.pc t = pc at access writing here
        cases access
        cases Option.some.inj writing
        exact here.1.2.subset (Storage.get_mem (Nat.lt_of_lt_of_eq here.2.1 here.2.2))
      refine .zeros (.cell c) rfl (by simp [State.zeros, inCells]) (mem_places_cell.2 inCells) ?_
        (fun q => ?_) same
      · cases nx <;> rfl
      · cases q with
        | base x => simp [word, after_base, apply]
        | cell d => by_cases here : d = c <;> simp [word, after_cell, apply, here]
  | _ => exact layout.keeps access puts rfl same

/-- A call of `add` makes its swap: what the log counts for `o`. -/
theorem swap_counts {o' : O} {v : Word} {f : Add O → Add O}
    (found : s.log[s.call t]? = some ⟨o', v, 0, false⟩)
    (same : (f ⟨o', v, 0, false⟩).this = o' ∧ (f ⟨o', v, 0, false⟩).delta = v ∧
      (f ⟨o', v, 0, false⟩).swaps = 1)
    (log : s'.log = s.log.modify (s.call t) f) :
    applied s'.log o = applied s.log o + (if o' = o then v else 0) ∧
    swapped s'.log o = swapped s.log o + (if o' = o then v.toNat else 0) ∧
    started s'.log o = started s.log o := by
  obtain ⟨all, some_⟩ := swaps_in (o := o) found same log
  refine ⟨?_, some_, all⟩
  have modified := applied_modify found f o
  simp only [Add.share, same.1, same.2.1, same.2.2, Nat.lt_irrefl, and_false, if_false, add_zero,
    Nat.zero_lt_one, and_true] at modified
  rw [log, modified]

/-- What one step does to the places of an object. -/
theorem access_changes (layout : s.Layout) (accounted : s.Accounted)
    (access : Access s t (s.pc t) e nx) (o : O) : Change o s e (s.after t e nx) := by
  rcases access_progress access (layout.here t) with
    idles | ⟨o', settled, rfl, rfl⟩ | ⟨o', v, pending, rfl, rfl⟩ |
      ⟨o', v, c, pc', pending, rfl, rfl, settled, inCells⟩
  · have same : SameCounts o s.log (s.after t e nx).log := by
      rw [idles.log]
      exact ⟨rfl, rfl, rfl⟩
    have puts : s.puts o e = none := by
      cases e with
      | addBase this update => exact absurd rfl (idles.base this update)
      | addCell c update => exact absurd rfl (idles.cell c update)
      | _ => rfl
    by_cases writing : (s.pc t).writes = some o
    · exact changes_idle layout access writing puts same
    · exact layout.keeps access puts (layout.untouched access writing).2 same
  · -- the returning call has been counted when it made its swap
    have adding : (s.pc t).adding = some o' := PC.adding_iff.2 (.inr settled)
    obtain ⟨v, found⟩ := accounted.settled t o' settled
    have log : (s.after t (.slot none) (.ret 0)).log =
        s.log.modify (s.call t) fun e => { e with returned := true } := by
      simp [State.after, ret, apply, adding]
    obtain ⟨all, some_⟩ := returns_in (o := o) found log
    have modified := applied_modify found (fun e => { e with returned := true }) o
    simp only [Add.share, add_left_inj] at modified
    exact layout.keeps access rfl rfl ⟨by rw [log, modified], some_, all⟩
  · have adding : (s.pc t).adding = some o' := PC.adding_iff.2 (.inl ⟨v, pending⟩)
    have found := accounted.pending t o' v pending
    have log : (s.after t (.addBase o' (s.base o' + v)) (.ret 0)).log =
        s.log.modify (s.call t) fun e => { e with swaps := e.swaps + 1, returned := true } := by
      simp [State.after, ret, apply, adding, List.modify_modify_eq, Function.comp_def]
    obtain ⟨sum, some_, all⟩ := swap_counts (o := o) found ⟨rfl, rfl, rfl⟩ log
    by_cases same : o' = o
    · subst same
      rw [if_pos rfl] at sum some_
      refine .puts (.base o') v (by simp [State.puts]) rfl (mem_places_base.2 rfl) rfl
        (fun q => ?_) sum some_ all
      cases q with
      | base x => by_cases here : x = o' <;> simp [word, after_base, apply, here]
      | cell d => simp [word, after_cell, apply]
    · rw [if_neg same, add_zero] at sum some_
      have elsewhere : (s.pc t).writes ≠ some o := by
        rw [PC.writes_of_adding adding]
        simpa using same
      obtain ⟨puts, zeros⟩ := layout.untouched access elsewhere
      exact layout.keeps access puts zeros ⟨sum, some_, all⟩
  · have adding : (s.pc t).adding = some o' := PC.adding_iff.2 (.inl ⟨v, pending⟩)
    have found := accounted.pending t o' v pending
    have log : (s.after t (.addCell c (s.cell c + v)) (.goto pc')).log =
        s.log.modify (s.call t) fun e => { e with swaps := e.swaps + 1 } := rfl
    obtain ⟨sum, some_, all⟩ := swap_counts (o := o) found ⟨rfl, rfl, rfl⟩ log
    by_cases same : o' = o
    · subst same
      rw [if_pos rfl] at sum some_
      refine .puts (.cell c) v (by simp [State.puts, inCells]) rfl (mem_places_cell.2 inCells) rfl
        (fun q => ?_) sum some_ all
      cases q with
      | base x => simp [word, after_base, apply]
      | cell d => by_cases here : d = c <;> simp [word, after_cell, apply, here]
    · rw [if_neg same, add_zero] at sum some_
      have elsewhere : (s.pc t).writes ≠ some o := by
        rw [PC.writes_of_adding adding]
        simpa using same
      obtain ⟨puts, zeros⟩ := layout.untouched access elsewhere
      exact layout.keeps access puts zeros ⟨sum, some_, all⟩

/-- A constructor leaves the words of `o` alone, and gives it none but zeros. -/
theorem places_make (layout : s.Layout) {this : O} (notLive : s.live this ≠ true)
    (k : Option Nat) : (∀ p ∈ s.places o, (s.make this k).word p = s.word p) ∧
      ∀ p ∈ (s.make this k).places o, p ∉ s.places o → (s.make this k).word p = 0 := by
  cases k with
  | none => exact ⟨fun _ _ => rfl, fun p member new => absurd member new⟩
  | some k =>
      refine ⟨fun p member => ?_, fun p member new => ?_⟩
      · cases p with
        | base o' => rfl
        | cell d =>
            have old := layout.cells_bound (mem_places_cell.1 member)
            simp [word, make, allocate, Nat.not_le.2 old]
      · cases p with
        | base o' => exact absurd (mem_places_base.2 (mem_places_base.1 member)) new
        | cell d =>
            have inCells := mem_places_cell.1 member
            by_cases above : s.freshCell ≤ d
            · simp [word, make, allocate, above]
            · refine absurd (mem_places_cell.2 ?_) new
              by_cases same : o = this
              · subst same
                have data := growTo_data (Storage.new s.freshCell) k s.freshCell
                  (s.freshCell + 2) (by simp [Storage.new, List.range']) rfl
                simp only [cells, make, if_true, allocate, data,
                  List.mem_range'_1] at inCells
                exact absurd inCells.1 above
              · rwa [layout.cells_after (by simp [make, same]) fun a old => by
                  simp [make, allocate, Nat.ne_of_lt old]] at inCells

/-! ## The balance -/

/-- The word of `o` that an action overwrites with zero. -/
def wipes (s : State T O) (o : O) : Action T O → Word
  | .step t =>
      match s.plan t (s.pc t) with
      | some (e, _) => ((s.zeros o e).map s.word).getD 0
      | none => 0
  | _ => 0

/-- All words of `o` that a run overwrites with zero. -/
def wiped [Fintype T] (o : O) : State T O → List (Action T O) → Word
  | _, [] => 0
  | s, a :: rest =>
      s.wipes o a + match s.next a with
        | some s' => wiped o s' rest
        | none => 0

/-- One step keeps the books balanced: what it wipes is missing afterwards. -/
theorem Change.balance (change : Change o s e s') (nodup : (s.places o).Nodup)
    (nodup' : (s'.places o).Nodup) :
    s'.total o + ((s.zeros o e).map s.word).getD 0 + applied s.log o =
      s.total o + applied s'.log o := by
  rw [total_places, total_places]
  cases change with
  | keeps _ zeros grows kept new counts =>
      obtain ⟨rest, split⟩ := grows
      rw [← split] at nodup' new
      have old : ((s.places o).map s'.word).sum = ((s.places o).map s.word).sum := by
        rw [List.map_congr_left kept]
      have zero : (rest.map s'.word).sum = 0 := by
        refine List.sum_eq_zero fun x inMap => ?_
        obtain ⟨p, inRest, rfl⟩ := List.mem_map.1 inMap
        exact new p (List.mem_append_right _ inRest) fun member =>
          List.disjoint_of_nodup_append nodup' member inRest
      rw [← split, List.map_append, List.sum_append, old, zero, zeros, counts.applied]
      simp
  | puts p v _ zeros member same word sum =>
      have put := sum_update nodup member s.word (s.word p + v)
      have written : (s.places o).map s'.word =
          (s.places o).map fun q => if q = p then s.word p + v else s.word q :=
        List.map_congr_left fun q _ => word q
      have total : ((s.places o).map s'.word).sum = ((s.places o).map s.word).sum + v := by
        rw [written]
        refine add_right_cancel (put.trans ?_)
        abel
      rw [same, total, sum, zeros]
      simp only [Option.map_none, Option.getD_none]
      abel
  | zeros p _ zeros member same word counts =>
      have put := sum_update nodup member s.word 0
      have written : (s.places o).map s'.word =
          (s.places o).map fun q => if q = p then 0 else s.word q :=
        List.map_congr_left fun q _ => word q
      rw [same, zeros, written, counts.applied]
      simp only [Option.map_some, Option.getD_some]
      rw [put, add_zero]

theorem Accounted.next [Fintype T] (layout : s.Layout) (accounted : s.Accounted) {a : Action T O}
    (taken : s.next a = some s') : s'.Accounted := by
  cases a with
  | make this k =>
      simp only [State.next] at taken
      split at taken
      · cases taken
      · cases taken
        cases k <;> exact ⟨accounted.pending, accounted.settled, accounted.own, accounted.finished⟩
  | add t this value =>
      simp only [State.next] at taken
      split at taken
      · rename_i enabled
        cases taken
        exact accounted.enter enabled.1 this value
      · cases taken
  | value t this | reset t this =>
      simp only [State.next] at taken
      split at taken
      · rename_i enabled
        cases taken
        exact accounted.goto enabled.1 rfl
      · cases taken
  | step t =>
      obtain ⟨e, nx, access, rfl⟩ := next_step taken
      exact accounted.after layout access
  | reclaim storage =>
      simp only [State.next] at taken
      split at taken
      · cases taken
        exact ⟨accounted.pending, accounted.settled, accounted.own, accounted.finished⟩
      · cases taken

/-- One action keeps the books balanced. -/
theorem balance_next [Fintype T] (layout : s.Layout) (accounted : s.Accounted) {a : Action T O}
    (taken : s.next a = some s') (o : O) :
    s'.total o + s.wipes o a + applied s.log o = s.total o + applied s'.log o := by
  have layout' := layout.next taken
  cases a with
  | make this k =>
      simp only [State.next] at taken
      split at taken
      · cases taken
      · rename_i notLive
        cases taken
        have sum : (s.make this k).total o = s.total o := layout.weigh_make (w := id) rfl notLive k
        have log : (s.make this k).log = s.log := by cases k <;> rfl
        simp only [sum, log, wipes, add_zero]
  | add t this value =>
      simp only [State.next] at taken
      split at taken
      · cases taken
        rw [applied_append]
        simp only [Add.share, Nat.lt_irrefl, and_false, if_false, wipes, add_zero]
        rfl
      · cases taken
  | value t this | reset t this | reclaim storage =>
      simp only [State.next] at taken
      split at taken
      · cases taken
        simp only [wipes, add_zero]
        rfl
      · cases taken
  | step t =>
      have planned := taken
      simp only [State.next] at planned
      split at planned
      · cases planned
      · rename_i e nx plan
        cases planned
        have change := access_changes layout accounted (access_of_plan plan) o
        have balance := change.balance (layout.places_nodup o) (layout'.places_nodup o)
        rw [wipes, plan]
        exact balance

/-- **What `reset` wipes is all that is missing.** Take any run from a fresh system, with any calls
of `add`, `value` and `reset` on an object, from any threads and in any order of their steps. What
the object holds, and the words that the stores of `reset` have overwritten, make up, modulo 2^64,
the deltas of exactly those calls of `add` that have made their swap; and each call of `add` makes
one swap at most, and has made it when it returns. -/
theorem reset_conserves [Fintype T] {hashCode : T → Word} {as : List (Action T O)}
    (ran : Theory.run next (init hashCode) as = some s) (o : O) :
    s.total o + (init hashCode : State T O).wiped o as = applied s.log o ∧
    ∀ e ∈ s.log, e.swaps ≤ 1 ∧ (e.returned = true → e.swaps = 1) := by
  have onward : ∀ (as : List (Action T O)) (r : State T O), r.Layout → r.Accounted →
      Theory.run next r as = some s →
      s.total o + r.wiped o as + applied r.log o = r.total o + applied s.log o ∧ s.Accounted := by
    intro as
    induction as with
    | nil =>
        intro r _ accounted ran
        cases ran
        exact ⟨by rw [wiped, add_zero], accounted⟩
    | cons a rest ih =>
        intro r layout accounted ran
        obtain ⟨mid, taken, ran⟩ := Theory.run_cons_eq_some.1 ran
        obtain ⟨later, final⟩ := ih mid (layout.next taken) (accounted.next layout taken) ran
        refine ⟨?_, final⟩
        have now := balance_next layout accounted taken o
        have both := congrArg₂ (· + ·) now later
        simp only [wiped, taken]
        refine add_right_cancel (b := mid.total o + applied mid.log o) ?_
        refine Eq.trans ?_ (both.trans ?_) <;> abel
  obtain ⟨balance, accounted⟩ := onward as (init hashCode) (layout_init hashCode)
    (by constructor <;> simp [init, PC.pending, PC.settled, PC.adding]) ran
  refine ⟨?_, fun e member => ?_⟩
  · have empty : (init hashCode : State T O).total o = 0 := by simp [total, State.cells, init]
    rw [empty, zero_add] at balance
    simpa [init, applied] using balance
  · rcases accounted.entry member with ⟨one, -⟩ | ⟨-, most, running⟩
    · exact ⟨Nat.le_of_eq one, fun _ => one⟩
    · exact ⟨most, fun returned => by rw [running] at returned; cases returned⟩

/-- Thread 0 resets a `Striped64(2)`. Thread 1 has added 5 to one cell before, and adds 7 to it
after that cell has been wiped. -/
def resetBeside : List (Action (Fin 2) Unit) :=
  Action.make () (some 2) :: .add 1 () 5 :: List.replicate 8 (.step 1) ++
    Action.reset 0 () :: List.replicate 6 (.step 0) ++
      Action.add 1 () 7 :: List.replicate 8 (.step 1) ++
      List.replicate 2 (Action.step 0)

theorem reset_conserves_beside :
    ∃ s : State (Fin 2) Unit, Theory.run next (init fun _ => 0) resetBeside = some s ∧
      (s.pc 0 = .idle ∧ s.pc 1 = .idle) ∧ s.total () = 7 ∧
      s.total () + (init fun _ => 0 : State (Fin 2) Unit).wiped () resetBeside = 12 := by
  have played : (Theory.run next (init fun _ => 0 : State (Fin 2) Unit) resetBeside).map
      (fun s => (s.pc 0, s.pc 1, s.total (), applied s.log ())) = some (.idle, .idle, 7, 12) := by
    decide +kernel
  obtain ⟨s, ran, left⟩ := Option.map_eq_some_iff.1 played
  simp only [Prod.mk.injEq] at left
  obtain ⟨first, second, total, sum⟩ := left
  exact ⟨s, ran, ⟨first, second⟩, total, sum ▸ (reset_conserves ran ()).1⟩

end State

end Ccmetrics.Striped
