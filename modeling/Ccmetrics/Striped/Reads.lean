/-
# Striped.Reads -- what `value` can return while others add

With non-negative deltas that stay below 2^63 no addition wraps, so the base and every cell only
grow, and their sum as a number is exactly what has been swapped in (`content_eq`). A storage never
loses a cell, so a reader that takes the base first and then every cell of some later storage gets
at least the content at its start, and at most the content at its end.

`Watched` runs the machine and notes, for every finished call of `value` on one object, what had
been added when it started and when it returned, and which calls had returned before it started.
-/
import Mathlib.Algebra.Order.BigOperators.Group.List
import Mathlib.Algebra.Order.Group.Nat
import Ccmetrics.Striped.Conservation
import Ccmetrics.Striped.Slabs

namespace Ccmetrics.Striped

set_option autoImplicit false
set_option linter.unusedSectionVars false

variable {T O : Type} [DecidableEq T] [DecidableEq O]

/-- What the calls of `add` on `o` that meet a condition add up to, without wrapping. -/
def sumWhere (log : List (Add O)) (o : O) (counts : Add O → Bool) : Nat :=
  (log.map fun e => if e.this = o ∧ counts e = true then e.delta.toNat else 0).sum

/-- All calls that have started. -/
def started (log : List (Add O)) (o : O) : Nat := sumWhere log o fun _ => true

/-- The calls that have made their swap. -/
def swapped (log : List (Add O)) (o : O) : Nat := sumWhere log o fun e => decide (0 < e.swaps)

/-- The calls that have returned. -/
def returned (log : List (Add O)) (o : O) : Nat := sumWhere log o fun e => e.returned

theorem sumWhere_le {log : List (Add O)} {o : O} {p q : Add O → Bool}
    (imp : ∀ e ∈ log, p e = true → q e = true) : sumWhere log o p ≤ sumWhere log o q := by
  refine List.sum_le_sum fun e member => ?_
  by_cases counts : e.this = o ∧ p e = true
  · rw [if_pos counts, if_pos ⟨counts.1, imp e member counts.2⟩]
  · rw [if_neg counts]
    exact Nat.zero_le _

theorem sumWhere_modify {log : List (Add O)} {i : Nat} {e : Add O} (found : log[i]? = some e)
    (f : Add O → Add O) (o : O) (p : Add O → Bool) :
    sumWhere (log.modify i f) o p + (if e.this = o ∧ p e = true then e.delta.toNat else 0) =
      sumWhere log o p + if (f e).this = o ∧ p (f e) = true then (f e).delta.toNat else 0 :=
  sum_modify _ found f

theorem started_modify (log : List (Add O)) (i : Nat) {f : Add O → Add O} (o : O)
    (same : ∀ e, (f e).this = e.this ∧ (f e).delta = e.delta) :
    started (log.modify i f) o = started log o := by
  cases found : log[i]? with
  | none => rw [List.modify_eq_self (List.getElem?_eq_none_iff.1 found)]
  | some e =>
      have sums := sumWhere_modify found f o fun _ => true
      rw [(same e).1, (same e).2] at sums
      simpa [started] using sums

theorem swapped_le_started (log : List (Add O)) (o : O) : swapped log o ≤ started log o :=
  sumWhere_le fun _ _ _ => rfl

/-- The object on which the thread is inside `value`. -/
def PC.reading : PC O → Option O
  | .valueBase this | .valueLoad this _ | .valueSet this _ _ | .valueCheck this _ _
  | .valueSize this _ _ | .valueGet this _ _ _ _ | .valueClear this _ => some this
  | _ => none

namespace State

variable {s s' : State T O} {t u : T} {e : Effect O} {nx : Next O} {o : O}

/-- The base plus the cells of the current storage, without wrapping. -/
def content (s : State T O) (o : O) : Nat := s.weigh BitVec.toNat o

/-- Nothing of the object is lost or gets smaller. -/
structure Grows (o : O) (s s' : State T O) : Prop where
  base : (s.base o).toNat ≤ (s'.base o).toNat
  cells : s.cells o <+: s'.cells o
  cell : ∀ c ∈ s.cells o, (s.cell c).toNat ≤ (s'.cell c).toNat

theorem Grows.refl (o : O) (s : State T O) : Grows o s s :=
  ⟨le_rfl, List.prefix_rfl, fun _ _ => le_rfl⟩

theorem Grows.trans {s'' : State T O} (first : Grows o s s') (second : Grows o s' s'') :
    Grows o s s'' where
  base := first.base.trans second.base
  cells := first.cells.trans second.cells
  cell c member := (first.cell c member).trans (second.cell c (first.cells.subset member))

theorem Grows.content (grows : Grows o s s') : s.content o ≤ s'.content o := by
  obtain ⟨rest, split⟩ := grows.cells
  simp only [State.content, weigh, ← split, List.map_append, List.sum_append]
  have each : ((s.cells o).map fun c => (s.cell c).toNat).sum ≤
      ((s.cells o).map fun c => (s'.cell c).toNat).sum :=
    List.sum_le_sum fun c member => grows.cell c member
  have := grows.base
  omega

theorem cell_le_content {c : Nat} (member : c ∈ s.cells o) : (s.cell c).toNat ≤ s.content o := by
  have := List.single_le_sum (fun x _ => Nat.zero_le x) _
    (List.mem_map_of_mem (f := fun c => (s.cell c).toNat) member)
  simp only [content, weigh]
  omega

theorem base_le_content : (s.base o).toNat ≤ s.content o := Nat.le_add_right ..

/-- What holds of an object that is never reset and has few enough adds. -/
structure Tally (s : State T O) (o : O) : Prop where
  books : s.Books o
  exact : s.content o = swapped s.log o
  small : started s.log o < 2 ^ 63

theorem Tally.content_lt (tally : s.Tally o) : s.content o < 2 ^ 63 := by
  have := swapped_le_started s.log o
  have := tally.exact
  have := tally.small
  omega

/-- A call of `add` makes its swap. -/
theorem swaps_in {o' : O} {v : Word} {f : Add O → Add O}
    (found : s.log[s.call t]? = some ⟨o', v, 0, false⟩)
    (same : (f ⟨o', v, 0, false⟩).this = o' ∧ (f ⟨o', v, 0, false⟩).delta = v ∧
      (f ⟨o', v, 0, false⟩).swaps = 1)
    (log : s'.log = s.log.modify (s.call t) f) :
    started s'.log o = started s.log o ∧
      swapped s'.log o = swapped s.log o + if o' = o then v.toNat else 0 := by
  rw [log]
  have all := sumWhere_modify found f o fun _ => true
  have some_ := sumWhere_modify found f o fun e => decide (0 < e.swaps)
  simp only [same.1, same.2.1, same.2.2] at all some_
  exact ⟨by simpa [started] using all, by simpa [swapped] using some_⟩

/-- A call of `add` that has made its swap returns. -/
theorem returns_in {o' : O} {v : Word} (found : s.log[s.call t]? = some ⟨o', v, 1, false⟩)
    (log : s'.log = s.log.modify (s.call t) fun e => { e with returned := true }) :
    started s'.log o = started s.log o ∧ swapped s'.log o = swapped s.log o := by
  rw [log]
  have all := sumWhere_modify found (fun e => { e with returned := true }) o fun _ => true
  have some_ := sumWhere_modify found (fun e => { e with returned := true }) o
    fun e => decide (0 < e.swaps)
  exact ⟨by simpa [started] using all, by simpa [swapped] using some_⟩

/-- An addition that stays below 2^63 does not wrap. -/
theorem toNat_add_of_small {x v : Word} {n : Nat} (below : x.toNat ≤ n) (small : n + v.toNat < 2 ^ 63) :
    (x + v).toNat = x.toNat + v.toNat :=
  BitVec.toNat_add_of_lt (by omega)

/-- A step that swaps nothing in leaves the base and the cells as they are. -/
theorem Idles.keeps (books : s.Books o) (access : Access s t (s.pc t) e nx)
    (idles : Idles (s.pc t) e nx) :
    (s.after t e nx).content o = s.content o ∧ Grows o s (s.after t e nx) := by
  have layout := books.layout
  have prefix_ := (layout.extends access).cells o
  by_cases writing : (s.pc t).writes = some o
  · obtain ⟨zeroBase, zeroCell⟩ := access_zero access (books.adds t) writing
    have base : (s.after t e nx).base o = s.base o := by rw [after_base_eq idles.base zeroBase]
    have cell : ∀ c < s.freshCell, (s.after t e nx).cell c = s.cell c :=
      fun c old => after_cell_eq idles.cell zeroCell old
    refine ⟨layout.weigh_after rfl access base cell, ⟨by rw [base], prefix_, fun c member => ?_⟩⟩
    rw [cell c (layout.cells_bound member)]
  · obtain ⟨base, -, cells, cell⟩ := layout.frame access writing
    exact ⟨weigh_congr _ base cells cell, ⟨by rw [base], prefix_, fun c member => by rw [cell c member]⟩⟩

/-- A step on another object. -/
theorem Layout.elsewhere (layout : s.Layout) (access : Access s t (s.pc t) e nx)
    (elsewhere : (s.pc t).writes ≠ some o) :
    (s.after t e nx).content o = s.content o ∧ Grows o s (s.after t e nx) := by
  obtain ⟨base, -, cells, cell⟩ := layout.frame access elsewhere
  exact ⟨weigh_congr _ base cells cell,
    ⟨by rw [base], by rw [cells], fun c member => by rw [cell c member]⟩⟩

theorem addBase_grows {v : Word} (small : s.content o + v.toNat < 2 ^ 63) :
    (s.after t (.addBase o (s.base o + v)) (.ret 0)).content o = s.content o + v.toNat ∧
      Grows o s (s.after t (.addBase o (s.base o + v)) (.ret 0)) := by
  have sum : (s.base o + v).toNat = (s.base o).toNat + v.toNat :=
    toNat_add_of_small base_le_content small
  have cells : (s.after t (.addBase o (s.base o + v)) (.ret 0)).cells o = s.cells o := rfl
  refine ⟨?_, ?_, by rw [cells], fun c member => ?_⟩
  · simp only [content, weigh, cells, after_base, after_cell, apply, if_true, sum]
    omega
  · simp only [after_base, apply, if_true, sum]
    omega
  · rfl

theorem Tally.addCell {v : Word} {c : Nat} {pc : PC O} (tally : s.Tally o)
    (member : c ∈ s.cells o) (small : s.content o + v.toNat < 2 ^ 63) :
    (s.after t (.addCell c (s.cell c + v)) (.goto pc)).content o = s.content o + v.toNat ∧
      Grows o s (s.after t (.addCell c (s.cell c + v)) (.goto pc)) := by
  have sum : (s.cell c + v).toNat = (s.cell c).toNat + v.toNat :=
    toNat_add_of_small (cell_le_content member) small
  have cells : (s.after t (.addCell c (s.cell c + v)) (.goto pc)).cells o = s.cells o := rfl
  refine ⟨?_, le_rfl, by rw [cells], fun x inCells => ?_⟩
  · have set := sum_set (tally.books.layout.cells_nodup o) member (fun c => (s.cell c).toNat)
      ((s.cell c).toNat + v.toNat)
    have written : ((s.cells o).map fun x => BitVec.toNat (if x = c then s.cell c + v else s.cell x)) =
        (s.cells o).map fun x => if x = c then (s.cell c).toNat + v.toNat else (s.cell x).toNat := by
      refine List.map_congr_left fun x _ => ?_
      split
      · exact sum
      · rfl
    simp only [content, weigh, cells, after_base, after_cell, apply, written]
    omega
  · simp only [after_cell, apply]
    split
    · rename_i same
      rw [same, sum]
      omega
    · exact le_rfl

/-- A swap on this object adds its delta; one on another object adds nothing here. -/
theorem Tally.swap {o' : O} {v : Word} (tally : s.Tally o) (access : Access s t (s.pc t) e nx)
    (adding : (s.pc t).adding = some o')
    (log : started (s.after t e nx).log o = started s.log o ∧
      swapped (s.after t e nx).log o = swapped s.log o + if o' = o then v.toNat else 0)
    (here : o' = o → s.content o + v.toNat < 2 ^ 63 →
      (s.after t e nx).content o = s.content o + v.toNat ∧ Grows o s (s.after t e nx)) :
    (s.after t e nx).Tally o ∧ Grows o s (s.after t e nx) := by
  have books := tally.books.after access
  have exact_ := tally.exact
  have small := tally.small
  obtain ⟨all, some_⟩ := log
  by_cases same : o' = o
  · have below := swapped_le_started (s.after t e nx).log o
    rw [if_pos same] at some_
    obtain ⟨content, grows⟩ := here same (by omega)
    exact ⟨⟨books, by omega, by omega⟩, grows⟩
  · rw [if_neg same] at some_
    have elsewhere : (s.pc t).writes ≠ some o := by
      rw [PC.writes_of_adding adding]
      simpa using same
    obtain ⟨content, grows⟩ := tally.books.layout.elsewhere access elsewhere
    exact ⟨⟨books, by omega, by omega⟩, grows⟩

theorem Tally.after (tally : s.Tally o) (access : Access s t (s.pc t) e nx) :
    (s.after t e nx).Tally o ∧ Grows o s (s.after t e nx) := by
  have books := tally.books.after access
  have accounted := tally.books.accounted
  rcases access_progress access (tally.books.layout.here t) with
    idles | ⟨o', settled, rfl, rfl⟩ | ⟨o', v, pending, rfl, rfl⟩ |
      ⟨o', v, c, pc', pending, rfl, rfl, -, inCells⟩
  · obtain ⟨same, grows⟩ := idles.keeps tally.books access
    exact ⟨⟨books, by rw [same, idles.log, tally.exact], by rw [idles.log]; exact tally.small⟩, grows⟩
  · -- the returning call has its delta in the books already
    have adding : (s.pc t).adding = some o' := PC.adding_iff.2 (.inr settled)
    obtain ⟨v, found⟩ := accounted.settled t o' settled
    have log : (s.after t (.slot none) (.ret 0)).log =
        s.log.modify (s.call t) fun e => { e with returned := true } := by
      simp [State.after, ret, apply, adding]
    obtain ⟨all, some_⟩ := returns_in (o := o) found log
    exact ⟨⟨books, tally.exact.trans some_.symm, all ▸ tally.small⟩,
      ⟨le_rfl, List.prefix_rfl, fun _ _ => le_rfl⟩⟩
  · have adding : (s.pc t).adding = some o' := PC.adding_iff.2 (.inl ⟨v, pending⟩)
    have found := accounted.pending t o' v pending
    have log : (s.after t (.addBase o' (s.base o' + v)) (.ret 0)).log =
        s.log.modify (s.call t) fun e => { e with swaps := e.swaps + 1, returned := true } := by
      simp [State.after, ret, apply, adding, List.modify_modify_eq, Function.comp_def]
    exact tally.swap access adding (swaps_in found ⟨rfl, rfl, rfl⟩ log) fun same small => by
      subst same
      exact addBase_grows small
  · have adding : (s.pc t).adding = some o' := PC.adding_iff.2 (.inl ⟨v, pending⟩)
    have found := accounted.pending t o' v pending
    have log : (s.after t (.addCell c (s.cell c + v)) (.goto pc')).log =
        s.log.modify (s.call t) fun e => { e with swaps := e.swaps + 1 } := rfl
    exact tally.swap access adding (swaps_in found ⟨rfl, rfl, rfl⟩ log) fun same small => by
      subst same
      exact tally.addCell inCells small

/-- Non-negative deltas with a total below 2^63, and no `reset`. -/
def Modest (o : O) (s : State T O) : Action T O → Prop
  | .add _ this value => this = o → started s.log o + value.toNat < 2 ^ 63
  | .reset _ this => this ≠ o
  | _ => True

theorem sumWhere_append (log : List (Add O)) (e : Add O) (o : O) (p : Add O → Bool) :
    sumWhere (log ++ [e]) o p =
      sumWhere log o p + if e.this = o ∧ p e = true then e.delta.toNat else 0 := by
  simp [sumWhere]

theorem grows_make (layout : s.Layout) {this : O} (notLive : s.live this ≠ true)
    (k : Option Nat) : Grows o s (s.make this k) := by
  have cells := (layout.extends_make notLive k).cells o
  cases k with
  | none => exact ⟨le_rfl, cells, fun _ _ => le_rfl⟩
  | some k =>
      refine ⟨le_rfl, cells, fun c member => ?_⟩
      have old := layout.cells_bound member
      simp [State.make, allocate, Nat.not_le.2 old]

theorem Tally.next [Fintype T] (tally : s.Tally o) {a : Action T O} (modest : Modest o s a)
    (taken : s.next a = some s') : s'.Tally o ∧ Grows o s s' := by
  have kept : ∀ u, a ≠ .reset u o := by
    rintro u rfl
    exact modest rfl
  have books := tally.books.next kept taken
  have still : s'.content o = s.content o → s'.log = s.log → s'.Tally o := fun content log =>
    ⟨books, by rw [content, log, tally.exact], by rw [log]; exact tally.small⟩
  cases a with
  | make this k =>
      simp only [State.next] at taken
      split at taken
      · cases taken
      · rename_i notLive
        cases taken
        refine ⟨still (tally.books.layout.weigh_make rfl notLive k) ?_,
          grows_make tally.books.layout notLive k⟩
        cases k <;> rfl
  | add t this value =>
      simp only [State.next] at taken
      split at taken
      · cases taken
        refine ⟨⟨books, ?_, ?_⟩, ⟨le_rfl, List.prefix_rfl, fun _ _ => le_rfl⟩⟩
        · have same : swapped (s.log ++ [⟨this, value, 0, false⟩]) o = swapped s.log o := by
            simp [swapped, sumWhere_append]
          exact tally.exact.trans same.symm
        · have sum : started (s.log ++ [⟨this, value, 0, false⟩]) o =
              started s.log o + if this = o then value.toNat else 0 := by
            simp [started, sumWhere_append]
          show started (s.log ++ [⟨this, value, 0, false⟩]) o < 2 ^ 63
          rw [sum]
          split
          · exact modest ‹_›
          · exact tally.small
      · cases taken
  | value t this =>
      simp only [State.next] at taken
      split at taken
      · cases taken
        exact ⟨still rfl rfl, ⟨le_rfl, List.prefix_rfl, fun _ _ => le_rfl⟩⟩
      · cases taken
  | reset t this =>
      simp only [State.next] at taken
      split at taken
      · cases taken
        exact ⟨still rfl rfl, ⟨le_rfl, List.prefix_rfl, fun _ _ => le_rfl⟩⟩
      · cases taken
  | step t =>
      obtain ⟨e, nx, access, rfl⟩ := next_step taken
      exact tally.after access
  | reclaim storage =>
      simp only [State.next] at taken
      split at taken
      · cases taken
        exact ⟨still rfl rfl, ⟨le_rfl, List.prefix_rfl, fun _ _ => le_rfl⟩⟩
      · cases taken

/-- What the calls of `add` on `o` in a list of actions are to add. -/
def asked (o : O) (as : List (Action T O)) : Int :=
  (as.map fun
    | .add _ this value => if this = o then value.toInt else 0
    | _ => 0).sum

theorem after_started : started (s.after t e nx).log o = started s.log o := by
  have applied_ : started (s.apply t e).log o = started s.log o := by
    cases e with
    | addBase | addCell => exact started_modify _ _ _ fun _ => ⟨rfl, rfl⟩
    | _ => rfl
  cases nx with
  | goto pc => exact applied_
  | ret value =>
      simp only [State.after, ret]
      split
      · rw [started_modify]
        · exact applied_
        · intro e
          exact ⟨rfl, rfl⟩
      · exact applied_

theorem started_next [Fintype T] {a : Action T O} (taken : s.next a = some s')
    (nonneg : ∀ t v, a = .add t o v → 0 ≤ v.toInt) :
    (started s'.log o : Int) = started s.log o + asked o [a] := by
  cases a with
  | make this k =>
      simp only [State.next] at taken
      split at taken
      · cases taken
      · cases taken
        cases k <;> simp [asked, State.make, allocate]
  | add t this value =>
      simp only [State.next] at taken
      split at taken
      · cases taken
        simp only [asked, started, sumWhere_append, List.map_cons, List.map_nil, List.sum_cons,
          List.sum_nil, and_true, add_zero, Nat.cast_add]
        split
        · rename_i here
          have signed : value.toInt = value.toNat :=
            BitVec.toInt_eq_toNat_of_lt (BitVec.toInt_pos_iff.1 (nonneg t value (by rw [here])))
          rw [signed]
        · simp
      · cases taken
  | value | reset | reclaim =>
      simp only [State.next] at taken
      split at taken
      · cases taken
        simp [asked, State.goto]
      · cases taken
  | step t =>
      obtain ⟨e, nx, -, rfl⟩ := next_step taken
      simp [asked, after_started]

theorem asked_nonneg {as : List (Action T O)} (nonneg : ∀ t v, .add t o v ∈ as → 0 ≤ v.toInt) :
    0 ≤ asked o as := by
  refine List.sum_nonneg fun x member => ?_
  obtain ⟨a, inside, rfl⟩ := List.mem_map.1 member
  cases a with
  | add t this value =>
      simp only
      split
      · rename_i here
        exact nonneg t value (here ▸ inside)
      · exact le_rfl
  | _ => exact le_rfl

/-- A call that has returned has made its swap. -/
theorem Tally.returned_le (tally : s.Tally o) : returned s.log o ≤ s.content o := by
  rw [tally.exact]
  refine sumWhere_le fun e member back => ?_
  rcases tally.books.accounted.entry member with ⟨one, -⟩ | ⟨-, -, running⟩
  · simp [one]
  · rw [running] at back
    cases back

/-! ## A call of `value` -/

/-- What a call of `value` on `o` that started in `r` has read so far. -/
def SumsUp (r s : State T O) (o : O) : PC O → Prop
  | .valueLoad _ ret | .valueSet _ ret _ | .valueCheck _ ret _ =>
      (r.base o).toNat ≤ ret.toNat ∧ ret.toNat ≤ (s.base o).toNat
  | .valueSize _ ret cur =>
      (r.base o).toNat ≤ ret.toNat ∧ ret.toNat ≤ (s.base o).toNat ∧
        r.cells o <+: (s.storage cur).data
  | .valueGet _ ret cur _ i =>
      (r.base o).toNat + (((r.cells o).take i).map fun c => (r.cell c).toNat).sum ≤ ret.toNat ∧
        ret.toNat ≤ (s.base o).toNat +
          ((((s.storage cur).data).take i).map fun c => (s.cell c).toNat).sum ∧
        r.cells o <+: (s.storage cur).data
  | .valueClear _ ret => r.content o ≤ ret.toNat ∧ ret.toNat ≤ s.content o
  | _ => True

theorem sum_take_le {l : List Nat} {f g : Nat → Nat} (each : ∀ c ∈ l, f c ≤ g c) (i : Nat) :
    ((l.take i).map f).sum ≤ ((l.take i).map g).sum :=
  List.sum_le_sum fun c member => each c (List.mem_of_mem_take member)

/-- The other threads only add to what the call may still read. -/
theorem SumsUp.grows {r : State T O} {pc : PC O} (sums : SumsUp r s o pc)
    (reading : pc.reading = some o) (here : s.Local pc) (grows : Grows o s s')
    (data : ∀ a < s.freshStorage, (s'.storage a).data = (s.storage a).data) :
    SumsUp r s' o pc := by
  have base := grows.base
  cases pc <;> first | exact trivial | skip
  case valueLoad | valueSet | valueCheck => exact ⟨sums.1, sums.2.trans base⟩
  case valueSize this ret cur =>
      cases reading
      refine ⟨sums.1, sums.2.1.trans base, ?_⟩
      rw [data cur here.1]
      exact sums.2.2
  case valueGet this ret cur len i =>
      cases reading
      have within := here.1
      simp only [SumsUp, data cur within.1]
      refine ⟨sums.1, ?_, sums.2.2⟩
      have more := sum_take_le (fun c member => grows.cell c (within.2.subset member)) i
      have upper := sums.2.1
      omega
  case valueClear => exact ⟨sums.1, sums.2.trans grows.content⟩

theorem sumsUp_valueLoop {r : State T O} {ret : Word} {cur i : Nat}
    (lower : (r.base o).toNat + (((r.cells o).take i).map fun c => (r.cell c).toNat).sum ≤ ret.toNat)
    (upper : ret.toNat ≤ (s.base o).toNat +
      ((((s.storage cur).data).take i).map fun c => (s.cell c).toNat).sum)
    (known : r.cells o <+: (s.storage cur).data) (within : s.Within o cur) :
    SumsUp r s o (valueLoop o ret cur (s.storage cur).size i) := by
  simp only [valueLoop]
  split
  · exact ⟨lower, upper, known⟩
  · rename_i done
    rw [← Storage.length_data] at done
    rw [List.take_of_length_le (by have := known.length_le; omega)] at lower
    rw [List.take_of_length_le (by omega)] at upper
    obtain ⟨rest, split⟩ := within.2
    refine ⟨lower, upper.trans ?_⟩
    simp only [content, weigh, ← split, List.map_append, List.sum_append]
    omega

theorem sum_take_succ {l : List Nat} {i : Nat} (inside : i < l.length) (f : Nat → Nat) :
    ((l.take (i + 1)).map f).sum = ((l.take i).map f).sum + f (l.getD i 0) := by
  rw [List.take_succ_eq_append_getElem inside, List.map_append, List.sum_append]
  simp [List.getElem?_eq_getElem inside]

/-- The prefix that was there at the start has grown by no more than the cell that is read. -/
theorem sum_take_succ_le {l m : List Nat} (known : l <+: m) {i : Nat} {f g : Nat → Nat}
    (each : ∀ c ∈ l, f c ≤ g c) :
    ((l.take (i + 1)).map f).sum ≤ ((l.take i).map f).sum + g (m.getD i 0) := by
  by_cases inside : i < l.length
  · rw [sum_take_succ inside]
    have here : m.getD i 0 = l.getD i 0 := by
      obtain ⟨rest, rfl⟩ := known
      simp [List.getElem?_append_left inside]
    have member : l.getD i 0 ∈ l := by
      rw [List.getD_eq_getElem _ _ inside]
      exact List.getElem_mem inside
    have := each _ member
    rw [here]
    omega
  · rw [List.take_of_length_le (by omega), List.take_of_length_le (by omega)]
    omega

/-- The reading thread's own step. -/
theorem SumsUp.after {r : State T O} (sums : SumsUp r s o (s.pc t))
    (reading : (s.pc t).reading = some o) (tally : s.Tally o) (grows : Grows o r s)
    (access : Access s t (s.pc t) e nx) :
    (∃ pc, nx = .goto pc ∧ pc.reading = some o ∧ s.Local pc ∧ SumsUp r s o pc) ∨
      ∃ ret, nx = .ret ret ∧ r.content o ≤ ret.toNat ∧ ret.toNat ≤ s.content o := by
  have here := tally.books.layout.here t
  have small := tally.content_lt
  generalize s.pc t = pc at access sums reading here
  cases access <;> first | (cases reading; done) | (cases reading)
  case valueBase => exact .inl ⟨_, rfl, rfl, trivial, grows.base, le_rfl⟩
  case valueEmpty ret empty =>
      have none_ : s.cells o = [] := by simp [State.cells, empty]
      have start : r.cells o = [] := List.prefix_nil.1 (none_ ▸ grows.cells)
      refine .inr ⟨_, rfl, ?_⟩
      simpa [content, weigh, none_, start, SumsUp] using sums
  case valueLoad => exact .inl ⟨_, rfl, rfl, trivial, sums⟩
  case valueSet => exact .inl ⟨_, rfl, rfl, trivial, sums⟩
  case valueSame ret cur current =>
      have data : (s.storage cur).data = s.cells o := by simp [State.cells, current]
      exact .inl ⟨_, rfl, rfl, tally.books.layout.within current, sums.1, sums.2, data ▸ grows.cells⟩
  case valueAgain => exact .inl ⟨_, rfl, rfl, trivial, sums⟩
  case valueSize ret cur =>
      refine .inl ⟨_, rfl, ?_, local_valueLoop here, ?_⟩
      · simp only [valueLoop]
        split <;> rfl
      · exact sumsUp_valueLoop (by simpa using sums.1) (by simpa using sums.2.1) sums.2.2 here
  case valueGet ret cur len i =>
      obtain ⟨within, inside, rfl⟩ := here
      obtain ⟨lower, upper, known⟩ := sums
      refine .inl ⟨_, rfl, ?_, local_valueLoop within, ?_⟩
      · simp only [valueLoop]
        split <;> rfl
      · rw [← Storage.length_data] at inside
        have more := sum_take_succ inside fun c => (s.cell c).toNat
        have read := sum_take_succ_le known (i := i) grows.cell
        -- what has been read is part of the content, so this addition does not wrap
        have whole : (s.base o).toNat + (((s.storage cur).data.take (i + 1)).map
            fun c => (s.cell c).toNat).sum ≤ s.content o := by
          have part := ((List.take_prefix (i + 1) _).trans within.2)
          obtain ⟨rest, split⟩ := part
          simp only [content, weigh, ← split, List.map_append, List.sum_append]
          omega
        have sum : (ret + s.cell ((s.storage cur).get i)).toNat =
            ret.toNat + (s.cell ((s.storage cur).get i)).toNat :=
          BitVec.toNat_add_of_lt (by simp only [Storage.get]; omega)
        refine sumsUp_valueLoop ?_ ?_ known within <;> rw [sum] <;> simp only [Storage.get] <;> omega
  case valueClear => exact .inr ⟨_, rfl, sums⟩

/-! ## The call returns

A call of `value` looks for the storage again only if the table has grown in between, and it grows
only while it has fewer than `stripeLimit` cells. -/

/-- The table of `o` stays, is created, or is doubled. -/
def Table (o : O) (s s' : State T O) : Prop :=
  s'.stripes o = s.stripes o ∨ (s.stripes o = none ∧ (s'.cells o).length = 2) ∨
    ∃ cur, s.stripes o = some cur ∧ (s.storage cur).size < stripeLimit ∧
      (s'.cells o).length = 2 * (s.storage cur).size

theorem AllSized.table (sized : s.AllSized) (access : Access s t (s.pc t) e nx) :
    Table o s (s.after t e nx) := by
  by_cases published : ∃ a, e = .stripes o a
  · obtain ⟨a, rfl⟩ := published
    have now : ((s.after t (.stripes o a) nx).cells o).length = (s.storage a).size := by
      simp [State.cells, apply, Storage.length_data]
    have size := sized t
    rcases access_stripes access with ⟨f, rfl, pc, empty, -⟩ | ⟨f, cur, rfl, pc, same, -⟩
    · rw [pc] at size
      exact .inr (.inl ⟨empty, now.trans size⟩)
    · rw [pc] at size
      refine .inr (.inr ⟨cur, same, size.2, ?_⟩)
      rw [now, size.1, Nat.shiftLeft_eq]
      omega
  · left
    rw [after_stripes, apply_stripes]
    cases e with
    | stripes this a =>
        have other : o ≠ this := by
          rintro rfl
          exact published ⟨a, rfl⟩
        simp [other]
    | _ => rfl

/-- The storage is the current one, or the table has grown since it was. -/
def Seen (s : State T O) (o : O) (cur : Nat) : Prop :=
  cur < s.freshStorage ∧ (s.stripes o = some cur ∨
    (s.storage cur).size < stripeLimit ∧ (s.storage cur).size < (s.cells o).length)

/-- Where a call of `value` on `o` can be after `n` steps of its own. -/
def PacedAt (s : State T O) (o : O) (n : Nat) : PC O → Prop
  | .valueBase this => this = o ∧ n = 0
  | .valueLoad this _ => this = o ∧ n ≤ 1 + 3 * min (s.cells o).length stripeLimit
  | .valueSet this _ cur =>
      this = o ∧ n ≤ 2 + 3 * min (s.storage cur).size stripeLimit ∧ s.Seen o cur
  | .valueCheck this _ cur =>
      this = o ∧ n ≤ 3 + 3 * min (s.storage cur).size stripeLimit ∧ s.Seen o cur
  | .valueSize this _ _ => this = o ∧ n ≤ 28
  | .valueGet this _ _ _ i => this = o ∧ n ≤ 29 + i
  | .valueClear this _ => this = o ∧ n ≤ 29 + (s.cells o).length
  | .idle => n ≤ 30 + (s.cells o).length
  | _ => False

theorem Seen.grows {cur : Nat} (seen : s.Seen o cur) (grows : Extends s s')
    (table : Table o s s') : s'.Seen o cur := by
  have size := grows.size seen.1
  have longer := (grows.cells o).length_le
  refine ⟨Nat.lt_of_lt_of_le seen.1 grows.fresh, ?_⟩
  rw [size]
  rcases seen.2 with current | behind
  · rcases table with same | ⟨empty, -⟩ | ⟨old, was, small, length⟩
    · exact .inl (same.trans current)
    · rw [empty] at current
      cases current
    · cases was.symm.trans current
      have := (s.storage cur).size_pos
      exact .inr ⟨small, by omega⟩
  · exact .inr ⟨behind.1, by omega⟩

/-- The other threads do not send the call back. -/
theorem PacedAt.grows {n : Nat} {pc : PC O} (paced : s.PacedAt o n pc) (grows : Extends s s')
    (table : Table o s s') : s'.PacedAt o n pc := by
  have longer := (grows.cells o).length_le
  cases pc <;> first | exact paced | skip
  case valueLoad => exact ⟨paced.1, by have := paced.2; omega⟩
  case valueSet | valueCheck =>
      refine ⟨paced.1, ?_, paced.2.2.grows grows table⟩
      rw [grows.size paced.2.2.1]
      exact paced.2.1
  case valueClear => exact ⟨paced.1, by have := paced.2; omega⟩
  case idle =>
      simp only [PacedAt] at paced ⊢
      omega

/-- The call's own step. -/
theorem PacedAt.after {n : Nat} (paced : s.PacedAt o n (s.pc t)) (layout : s.Layout)
    (access : Access s t (s.pc t) e nx) : s.PacedAt o (n + 1) (Next.pc nx) := by
  have here := layout.here t
  generalize s.pc t = pc at access paced here
  cases access <;> first | (cases paced; done) | skip
  case valueBase => exact ⟨paced.1, by have := paced.2; omega⟩
  case valueEmpty ret empty =>
      have count := paced.2
      show n + 1 ≤ 30 + (s.cells o).length
      simp only [stripeLimit] at count
      omega
  case valueLoad this ret cur stripes =>
      obtain ⟨rfl, count⟩ := paced
      have size : (s.cells this).length = (s.storage cur).size := by
        simp [State.cells, stripes, Storage.length_data]
      exact ⟨rfl, by omega, layout.issued this cur stripes, .inl stripes⟩
  case valueSet => exact ⟨paced.1, by have := paced.2.1; omega, paced.2.2⟩
  case valueSame this ret cur stripes =>
      have count := paced.2.1
      refine ⟨paced.1, ?_⟩
      simp only [stripeLimit] at count
      omega
  case valueAgain this ret cur moved =>
      obtain ⟨rfl, count, seen⟩ := paced
      rcases seen.2 with current | behind
      · exact absurd current moved
      · exact ⟨rfl, by omega⟩
  case valueSize this ret cur =>
      obtain ⟨rfl, count⟩ := paced
      simp only [valueLoop, Next.pc_goto]
      split
      · exact ⟨rfl, by omega⟩
      · exact ⟨rfl, by omega⟩
  case valueGet this ret cur len i =>
      obtain ⟨rfl, count⟩ := paced
      obtain ⟨within, inside, rfl⟩ := here
      have longer := within.2.length_le
      rw [Storage.length_data] at longer
      simp only [valueLoop, Next.pc_goto]
      split
      · exact ⟨rfl, by omega⟩
      · exact ⟨rfl, by omega⟩
  case valueClear =>
      have count := paced.2
      show n + 1 ≤ 30 + (s.cells o).length
      omega

/-- A call of `value` by thread `t` that started in `r` has taken `n` steps. -/
structure Paced (r : State T O) (t : T) (o : O) (n : Nat) (s : State T O) : Prop where
  layout : s.Layout
  sized : s.AllSized
  live : s.live o = true
  length : (s.cells o).length ≤ max 16 (r.cells o).length
  here : s.PacedAt o n (s.pc t)

/-- An action by which thread `t` enters a member function. -/
def Enters (t : T) : Action T O → Prop
  | .add u _ _ | .value u _ | .reset u _ => u = t
  | _ => False

theorem Paced.grows {r : State T O} {n m : Nat} (paced : Paced r t o n s) (layout : s'.Layout)
    (sized : s'.AllSized) (live : s'.live o = true) (grows : Extends s s') (table : Table o s s')
    (here : s.PacedAt o m (s'.pc t)) : Paced r t o m s' := by
  refine ⟨layout, sized, live, ?_, here.grows grows table⟩
  have before := paced.length
  rcases table with same | ⟨-, two⟩ | ⟨cur, -, small, double⟩
  · have cells : s'.cells o = s.cells o := paced.layout.cells_after same grows.data
    rw [cells]
    exact before
  · omega
  · simp only [stripeLimit] at small
    omega

theorem Paced.next [Fintype T] {r : State T O} {n : Nat} (paced : Paced r t o n s) {a : Action T O}
    (other : ¬ Enters t a) (taken : s.next a = some s') :
    Paced r t o (n + if a = .step t then 1 else 0) s' := by
  have layout := paced.layout.next taken
  have sized := paced.sized.next paced.layout taken
  have grows := paced.layout.extends_next taken
  cases a with
  | make this k =>
      simp only [State.next] at taken
      split at taken
      · cases taken
      · rename_i notLive
        cases taken
        have elsewhere : o ≠ this := by
          rintro rfl
          exact notLive paced.live
        refine paced.grows layout sized ?_ grows (.inl ?_) ?_
        · cases k <;> simp [State.make, elsewhere, paced.live]
        · cases k <;> simp [State.make, elsewhere]
        · cases k <;> exact paced.here
  | add u _ _ | value u _ | reset u _ =>
      simp only [State.next] at taken
      split at taken
      · cases taken
        refine paced.grows layout sized paced.live grows (.inl rfl) ?_
        have same : t ≠ u := fun same => other same.symm
        simpa [State.goto, same] using paced.here
      · cases taken
  | step u =>
      obtain ⟨e, nx, access, rfl⟩ := next_step taken
      have live : (s.after u e nx).live o = true := by
        rw [after_live]
        exact paced.live
      by_cases same : u = t
      · subst same
        rw [if_pos rfl]
        refine paced.grows layout sized live grows (paced.sized.table access) ?_
        rw [after_pc_self]
        exact paced.here.after paced.layout access
      · have skip : (Action.step u : Action T O) ≠ .step t := by simpa using same
        rw [if_neg skip]
        refine paced.grows layout sized live grows (paced.sized.table access) ?_
        rw [after_pc_other (Ne.symm same)]
        exact paced.here
  | reclaim storage =>
      simp only [State.next] at taken
      split at taken
      · cases taken
        exact paced.grows layout sized paced.live grows (.inl rfl) paced.here
      · cases taken

theorem Paced.run [Fintype T] {r : State T O} {n : Nat} {as : List (Action T O)}
    (paced : Paced r t o n s) (others : ∀ a ∈ as, ¬ Enters t a)
    (ran : Theory.run State.next s as = some s') : Paced r t o (n + as.count (.step t)) s' := by
  induction as generalizing s n with
  | nil =>
      simp only [Theory.run_nil, Option.some.injEq] at ran
      exact ran ▸ paced
  | cons a rest ih =>
      obtain ⟨mid, taken, ran⟩ := Theory.run_cons_eq_some.1 ran
      have paced := ih (paced.next (others a (List.mem_cons_self ..)) taken)
        (fun b inRest => others b (List.mem_cons_of_mem _ inRest)) ran
      have count : (a :: rest).count (.step t) =
          (if a = .step t then 1 else 0) + rest.count (.step t) := by
        rw [List.count_cons, Nat.add_comm]
        simp
      rw [count, ← Nat.add_assoc]
      exact paced

theorem Paced.bound {r : State T O} {n : Nat} (paced : Paced r t o n s) :
    n ≤ 46 + (r.cells o).length := by
  have here := paced.here
  have length := paced.length
  have local_ := paced.layout.here t
  cases pc : s.pc t <;> rw [pc] at here local_ <;> simp only [PacedAt, stripeLimit] at here
  case valueGet this ret cur len i =>
      obtain ⟨within, inside, rfl⟩ := local_
      obtain ⟨rfl, count⟩ := here
      have longer := within.2.length_le
      rw [Storage.length_data] at longer
      omega
  all_goals omega

theorem Paced.progress [Fintype T] {r : State T O} {n : Nat} (paced : Paced r t o n s)
    (running : s.pc t ≠ .idle) : (s.next (.step t)).isSome := by
  have here := paced.here
  have planned : (s.plan t (s.pc t)).isSome := by
    cases pc : s.pc t <;> rw [pc] at here running <;> simp only [plan] <;>
      first | rfl | exact here.elim | exact absurd rfl running | (split <;> rfl)
  obtain ⟨⟨e, nx⟩, planned⟩ := Option.isSome_iff_exists.1 planned
  simp [State.next, planned]

/-- A call of `value` returns, whatever the others do: it is never stuck, and it takes at most 46
steps and one for each cell there was when it started. -/
theorem Layout.value_returns [Fintype T] (layout : s.Layout) (sized : s.AllSized)
    {bs : List (Action T O)} (ran : Theory.run State.next s (.value t o :: bs) = some s')
    (others : ∀ a ∈ bs, ¬ Enters t a) :
    bs.count (.step t) ≤ 46 + (s.cells o).length ∧
      (s'.pc t ≠ .idle → (s'.next (.step t)).isSome) := by
  obtain ⟨mid, taken, ran⟩ := Theory.run_cons_eq_some.1 ran
  have start : Paced s t o 0 mid := by
    have layout' := layout.next taken
    have sized' := sized.next layout taken
    simp only [State.next] at taken
    split at taken
    · rename_i enabled
      cases taken
      exact ⟨layout', sized', enabled.2, Nat.le_max_right _ _, by simp [State.goto, PacedAt]⟩
    · cases taken
  have paced := start.run others ran
  exact ⟨by have := paced.bound; omega, paced.progress⟩

end State

/-! ## All calls of `value` on one object -/

/-- A finished call of `value`: what had been added by the calls of `add` that had returned when
it started and by those that had started when it returned, and how many calls of `value` had
returned when it started. -/
structure Read where
  result : Word
  returnedBefore : Nat
  startedBefore : Nat
  earlier : Nat

/-- The machine, with a note of the calls of `value` on one object in the order of their return. -/
structure Watched (T O : Type) where
  state : State T O
  returnedBefore : T → Nat
  earlier : T → Nat
  reads : List Read

namespace Watched

variable {w w' : Watched T O} {t u : T} {o : O}

def init (hashCode : T → Word) : Watched T O := ⟨.init hashCode, fun _ => 0, fun _ => 0, []⟩

/-- What an action that leads to `s'` says about the calls of `value` on `o`. -/
def note (o : O) (w : Watched T O) (s' : State T O) : Action T O → Watched T O
  | .value t this =>
      if this = o then
        { w with
          state := s'
          returnedBefore := fun u => if u = t then returned w.state.log o else w.returnedBefore u
          earlier := fun u => if u = t then w.reads.length else w.earlier u }
      else { w with state := s' }
  | .step t =>
      if (w.state.pc t).reading = some o ∧ s'.pc t = .idle then
        { w with
          state := s'
          reads := w.reads ++
            [⟨s'.result t, w.returnedBefore t, started w.state.log o, w.earlier t⟩] }
      else { w with state := s' }
  | _ => { w with state := s' }

def next [Fintype T] (o : O) (w : Watched T O) (a : Action T O) : Option (Watched T O) :=
  (w.state.next a).map fun s' => w.note o s' a

/-- The state in which the running call of thread `t` started. -/
structure Since (o : O) (w : Watched T O) (t : T) (r : State T O) : Prop where
  returned : w.returnedBefore t ≤ r.content o
  earlier : ∀ (i : Nat) (x : Read), w.reads[i]? = some x → i < w.earlier t → x.result.toNat ≤ r.content o
  known : w.earlier t ≤ w.reads.length
  grows : r.Grows o w.state
  sums : r.SumsUp w.state o (w.state.pc t)

structure Sound (o : O) (w : Watched T O) : Prop where
  tally : w.state.Tally o
  bounded : ∀ x ∈ w.reads, x.returnedBefore ≤ x.result.toNat ∧ x.result.toNat ≤ x.startedBefore ∧
    x.startedBefore < 2 ^ 63 ∧ x.result.toNat ≤ w.state.content o
  ordered : ∀ (i j : Nat) (x y : Read), w.reads[i]? = some x → w.reads[j]? = some y → i < y.earlier →
    x.result.toNat ≤ y.result.toNat
  placed : ∀ x ∈ w.reads, x.earlier ≤ w.reads.length
  running : ∀ t, (w.state.pc t).reading = some o → ∃ r, Since o w t r

/-- Nothing is noted and the thread does not move. -/
theorem Since.keep {r : State T O} {s' : State T O} (since : Since o w t r)
    (reading : (w.state.pc t).reading = some o) (here : w.state.Local (w.state.pc t))
    (grows : w.state.Grows o s') (same : s'.pc t = w.state.pc t)
    (data : ∀ a < w.state.freshStorage, (s'.storage a).data = (w.state.storage a).data) :
    Since o { w with state := s' } t r where
  returned := since.returned
  earlier := since.earlier
  known := since.known
  grows := since.grows.trans grows
  sums := by
    show r.SumsUp s' o (s'.pc t)
    rw [same]
    exact since.sums.grows reading here grows data

theorem Sound.move {s' : State T O} (sound : Sound o w) (tally : s'.Tally o)
    (grows : w.state.Grows o s')
    (data : ∀ a < w.state.freshStorage, (s'.storage a).data = (w.state.storage a).data)
    (moves : ∀ u, (s'.pc u).reading = some o → s'.pc u = w.state.pc u ∨
      ∃ r, Since o { w with state := s' } u r) :
    Sound o { w with state := s' } where
  tally := tally
  bounded x member := by
    obtain ⟨lower, upper, small, now⟩ := sound.bounded x member
    exact ⟨lower, upper, small, now.trans grows.content⟩
  ordered := sound.ordered
  placed := sound.placed
  running u reading := by
    rcases moves u reading with same | moved
    · obtain ⟨r, since⟩ := sound.running u (same ▸ reading)
      exact ⟨r, since.keep (same ▸ reading) (sound.tally.books.layout.here u) grows same data⟩
    · exact moved

theorem access_reading {s : State T O} {e : Effect O} {nx : Next O} {pc : PC O}
    (access : State.Access s t pc e nx) (reading : (State.Next.pc nx).reading = some o) :
    pc.reading = some o := by
  cases access <;> first | exact reading | cases reading | skip
  case slowLate | slowRehash | slowFull | slowRetire =>
      simp only [State.slowTop, State.Next.pc_goto] at reading
      split at reading <;> cases reading
  case slowRaced f cur next raced =>
      cases stripes : s.stripes f.this <;>
        simp only [stripes, State.slowTop, State.Next.pc_goto] at reading <;>
        first | cases reading | (split at reading <;> cases reading)
  case loadSame site =>
      cases site <;> cases stripes : s.stripes _ <;> rw [stripes] at reading <;> cases reading
  case valueSize | valueGet =>
      simp only [State.valueLoop, State.Next.pc_goto] at reading
      split at reading <;> exact reading
  case resetSize | resetGet =>
      simp only [State.resetLoop, State.Next.pc_goto] at reading
      split at reading <;> cases reading

/-- Thread `t` enters `value`: what has been swapped in stays. -/
theorem Sound.enter (sound : Sound o w) (tally : (w.state.goto t (.valueBase o)).Tally o) :
    Sound o { w with
      state := w.state.goto t (.valueBase o)
      returnedBefore := fun u => if u = t then returned w.state.log o else w.returnedBefore u
      earlier := fun u => if u = t then w.reads.length else w.earlier u } where
  tally := tally
  bounded := sound.bounded
  ordered := sound.ordered
  placed := sound.placed
  running u reading := by
    by_cases same : u = t
    · subst same
      refine ⟨w.state, ?_, fun i x found _ => ?_, ?_, ⟨le_rfl, List.prefix_rfl, fun _ _ => le_rfl⟩, ?_⟩
      · simpa using sound.tally.returned_le
      · exact (sound.bounded x (List.mem_of_getElem? found)).2.2.2
      · simp
      · simp [State.goto, State.SumsUp]
    · have stays : (w.state.goto t (.valueBase o)).pc u = w.state.pc u := by simp [State.goto, same]
      replace reading : (w.state.pc u).reading = some o := stays ▸ reading
      obtain ⟨r, since⟩ := sound.running u reading
      have grows : w.state.Grows o (w.state.goto t (.valueBase o)) :=
        ⟨le_rfl, List.prefix_rfl, fun _ _ => le_rfl⟩
      have kept := since.keep reading (sound.tally.books.layout.here u) grows stays fun _ _ => rfl
      refine ⟨r, ?_, ?_, ?_, kept.grows, kept.sums⟩
      · simpa [same] using kept.returned
      · simpa [same] using kept.earlier
      · simpa [same] using kept.known

/-- Thread `t` returns from `value`. -/
theorem Sound.leave {s' : State T O} {r : State T O} {result : Word} (sound : Sound o w)
    (since : Since o w t r) (lower : r.content o ≤ result.toNat)
    (upper : result.toNat ≤ w.state.content o) (grows : w.state.Grows o s')
    (moved : Sound o { w with state := s' }) :
    Sound o { w with
      state := s'
      reads := w.reads ++
        [⟨result, w.returnedBefore t, started w.state.log o, w.earlier t⟩] } where
  tally := moved.tally
  bounded x member := by
    rcases List.mem_append.1 member with old | new
    · exact moved.bounded x old
    · cases List.mem_singleton.1 new
      have counted := sound.tally.exact
      have started_ := swapped_le_started w.state.log o
      refine ⟨since.returned.trans lower, ?_, sound.tally.small, ?_⟩
      · show result.toNat ≤ started w.state.log o
        omega
      · exact upper.trans grows.content
  ordered i j x y foundX foundY before := by
    rcases List.mem_append.1 (List.mem_of_getElem? foundY) with old | new
    · have inside : i < w.reads.length := Nat.lt_of_lt_of_le before (sound.placed y old)
      rw [List.getElem?_append_left inside] at foundX
      obtain ⟨k, there⟩ := List.getElem?_of_mem old
      exact sound.ordered i k x y foundX there before
    · cases List.mem_singleton.1 new
      have inside : i < w.reads.length := Nat.lt_of_lt_of_le before since.known
      rw [List.getElem?_append_left inside] at foundX
      exact (since.earlier i x foundX before).trans lower
  placed x member := by
    simp only [List.length_append, List.length_singleton]
    rcases List.mem_append.1 member with old | new
    · exact (sound.placed x old).trans (Nat.le_succ _)
    · cases List.mem_singleton.1 new
      exact since.known.trans (Nat.le_succ _)
  running u reading := by
    obtain ⟨r, since⟩ := moved.running u reading
    refine ⟨r, since.returned, fun i x found before => ?_, ?_, since.grows, since.sums⟩
    · have inside : i < w.reads.length := Nat.lt_of_lt_of_le before since.known
      rw [List.getElem?_append_left inside] at found
      exact since.earlier i x found before
    · have := since.known
      simp only [List.length_append, List.length_singleton] at this ⊢
      omega

theorem Sound.step {s' : State T O} {e : Effect O} {nx : Next O} (sound : Sound o w)
    (access : State.Access w.state t (w.state.pc t) e nx) (after : s' = w.state.after t e nx)
    (tally : s'.Tally o) (grows : w.state.Grows o s')
    (data : ∀ a < w.state.freshStorage, (s'.storage a).data = (w.state.storage a).data) :
    Sound o (if (w.state.pc t).reading = some o ∧ s'.pc t = .idle then
      { w with
        state := s'
        reads := w.reads ++
          [⟨s'.result t, w.returnedBefore t, started w.state.log o, w.earlier t⟩] }
      else { w with state := s' }) := by
  have self : s'.pc t = State.Next.pc nx := after ▸ State.after_pc_self
  have others : ∀ u ≠ t, s'.pc u = w.state.pc u := fun u other => after ▸ State.after_pc_other other
  have layout := sound.tally.books.layout
  by_cases reading : (w.state.pc t).reading = some o
  · obtain ⟨r, since⟩ := sound.running t reading
    rcases since.sums.after reading sound.tally since.grows access with
      ⟨pc, rfl, still, here, sums⟩ | ⟨ret, rfl, lower, upper⟩
    · have busy : s'.pc t ≠ .idle := by
        rw [self]
        rintro rfl
        cases still
      rw [if_neg fun both => busy both.2]
      refine sound.move tally grows data fun u _ => ?_
      by_cases same : u = t
      · subst same
        refine .inr ⟨r, since.returned, since.earlier, since.known, since.grows.trans grows, ?_⟩
        show r.SumsUp s' o (s'.pc u)
        rw [self]
        exact sums.grows still here grows data
      · exact .inl (others u same)
    · have idle : s'.pc t = .idle := self
      have result : s'.result t = ret := by
        rw [after]
        simp [State.after, State.ret]
      rw [if_pos ⟨reading, idle⟩, result]
      refine sound.leave since lower upper grows (sound.move tally grows data fun u reads => ?_)
      refine .inl (others u fun same => ?_)
      rw [same, idle] at reads
      cases reads
  · rw [if_neg fun both => reading both.1]
    refine sound.move tally grows data fun u reads => .inl (others u fun same => ?_)
    rw [same, self] at reads
    exact reading (access_reading access reads)

theorem Sound.next [Fintype T] {a : Action T O} (sound : Sound o w)
    (modest : State.Modest o w.state a) (taken : w.next o a = some w') : Sound o w' := by
  obtain ⟨s', stepped, rfl⟩ := Option.map_eq_some_iff.1 taken
  obtain ⟨tally, grows⟩ := sound.tally.next modest stepped
  have data := (sound.tally.books.layout.extends_next stepped).data
  have enters : ∀ t pc, pc.reading ≠ some o → (∀ u, s'.pc u = (w.state.goto t pc).pc u) →
      Sound o { w with state := s' } := by
    intro t pc elsewhere pcs
    refine sound.move tally grows data fun u reads => ?_
    rw [pcs] at reads ⊢
    by_cases same : u = t
    · subst same
      simp only [State.goto, if_true] at reads
      exact absurd reads elsewhere
    · exact .inl (by simp [State.goto, same])
  have stays : s'.pc = w.state.pc → Sound o { w with state := s' } := fun pcs =>
    sound.move tally grows data fun u _ => .inl (by rw [pcs])
  cases a with
  | make this k =>
      simp only [State.next] at stepped
      split at stepped
      · cases stepped
      · cases stepped
        exact stays (by cases k <;> rfl)
  | add t this value =>
      simp only [State.next] at stepped
      split at stepped
      · cases stepped
        exact enters t (.addStripes this value) (by simp [PC.reading]) fun _ => rfl
      · cases stepped
  | value t this =>
      simp only [State.next] at stepped
      split at stepped
      · cases stepped
        by_cases here : this = o
        · subst here
          simp only [note, if_true]
          exact sound.enter tally
        · simp only [note, here, if_false]
          exact enters t (.valueBase this) (by simpa [PC.reading] using here) fun _ => rfl
      · cases stepped
  | reset t this =>
      simp only [State.next] at stepped
      split at stepped
      · cases stepped
        exact enters t (.resetBase this) (by simp [PC.reading]) fun _ => rfl
      · cases stepped
  | step t =>
      obtain ⟨e, nx, access, after⟩ := State.next_step stepped
      exact sound.step access after tally grows data
  | reclaim storage =>
      simp only [State.next] at stepped
      split at stepped
      · cases stepped
        exact stays rfl
      · cases stepped

theorem note_state (o : O) (w : Watched T O) (s' : State T O) (a : Action T O) :
    (w.note o s' a).state = s' := by
  cases a <;> simp only [note] <;> split <;> rfl

/-- The notes are on the side. -/
theorem run_state [Fintype T] {as : List (Action T O)} (ran : Theory.run (next o) w as = some w') :
    Theory.run State.next w.state as = some w'.state := by
  induction as generalizing w with
  | nil =>
      simp only [Theory.run_nil, Option.some.injEq] at ran
      rw [ran, Theory.run_nil]
  | cons a rest ih =>
      obtain ⟨mid, taken, ran⟩ := Theory.run_cons_eq_some.1 ran
      obtain ⟨s', stepped, noted⟩ := Option.map_eq_some_iff.1 taken
      have state : mid.state = s' := by rw [← noted, note_state]
      exact Theory.run_cons_eq_some.2 ⟨mid.state, by rw [state]; exact stepped, ih ran⟩

theorem Sound.run [Fintype T] {as : List (Action T O)} (sound : Sound o w)
    (kept : ∀ t, .reset t o ∉ as) (nonneg : ∀ t v, .add t o v ∈ as → 0 ≤ v.toInt)
    (small : started w.state.log o + State.asked o as < 2 ^ 63)
    (ran : Theory.run (Watched.next o) w as = some w') : Sound o w' := by
  induction as generalizing w with
  | nil =>
      simp only [Theory.run_nil, Option.some.injEq] at ran
      exact ran ▸ sound
  | cons a rest ih =>
      obtain ⟨mid, taken, ran⟩ := Theory.run_cons_eq_some.1 ran
      obtain ⟨s', stepped, noted⟩ := Option.map_eq_some_iff.1 taken
      have state : mid.state = s' := by rw [← noted, note_state]
      have first : ∀ t v, a = .add t o v → 0 ≤ v.toInt := by
        rintro t v rfl
        exact nonneg t v (List.mem_cons_self ..)
      have later : ∀ t v, .add t o v ∈ rest → 0 ≤ v.toInt := fun t v inside =>
        nonneg t v (List.mem_cons_of_mem _ inside)
      have count := State.started_next stepped first
      have split : State.asked o (a :: rest) = State.asked o [a] + State.asked o rest := by
        simp [State.asked]
      have tail := State.asked_nonneg later
      have modest : State.Modest o w.state a := by
        cases a with
        | add t this value =>
            rintro rfl
            have signed : value.toInt = value.toNat :=
              BitVec.toInt_eq_toNat_of_lt (BitVec.toInt_pos_iff.1 (first t value rfl))
            have here : State.asked this [(.add t this value : Action T O)] = value.toNat := by
              simp [State.asked, signed]
            omega
        | reset t this =>
            rintro rfl
            exact kept t (List.mem_cons_self ..)
        | _ => trivial
      refine ih (sound.next modest taken) (fun t inside => kept t (List.mem_cons_of_mem _ inside))
        later ?_ ran
      rw [state]
      omega

theorem sound_init (hashCode : T → Word) (o : O) : Sound o (init hashCode) where
  tally :=
    { books := State.books_init hashCode o
      exact := by simp [State.content, State.weigh, State.cells, init, State.init, swapped, sumWhere]
      small := by simp [init, State.init, started, sumWhere] }
  bounded := by simp [init]
  ordered := by simp [init]
  placed := by simp [init]
  running := by simp [init, State.init, PC.reading]

/-- **Reads are bounded and monotone.** Take any run from a fresh system in which the deltas of
the calls of `add` on an object are not negative and stay below 2^63 in total, and the object is
not reset. Then every call of `value` on it that has returned

* gave at least the sum of the deltas of the calls of `add` that had returned when it started;
* gave at most the sum of the deltas of the calls that had started when it returned;
* gave no less than any call of `value` that had returned when it started.

A call of `value` does return, whatever the other threads do: it is never stuck, and it takes at
most 46 steps and one for each cell there was when it started. -/
theorem value_bounded [Fintype T] {hashCode : T → Word} {as : List (Action T O)}
    (ran : Theory.run (next o) (init hashCode) as = some w) (kept : ∀ t, .reset t o ∉ as)
    (nonneg : ∀ t v, .add t o v ∈ as → 0 ≤ v.toInt) (small : State.asked o as < 2 ^ 63) :
    (∀ x ∈ w.reads, x.returnedBefore ≤ x.result.toInt ∧ x.result.toInt ≤ x.startedBefore) ∧
    (∀ (i j : Nat) (x y : Read), w.reads[i]? = some x → w.reads[j]? = some y → i < y.earlier →
      x.result.toInt ≤ y.result.toInt) ∧
    ∀ (t : T) (bs : List (Action T O)) (s' : State T O),
      Theory.run State.next w.state (.value t o :: bs) = some s' → (∀ a ∈ bs, ¬ State.Enters t a) →
      bs.count (.step t) ≤ 46 + (w.state.cells o).length ∧
      (s'.pc t ≠ .idle → (s'.next (.step t)).isSome) := by
  have none_ : started (init hashCode : Watched T O).state.log o = 0 := by
    simp [init, State.init, started, sumWhere]
  have sound := (sound_init hashCode o).run kept nonneg (by rw [none_]; simpa using small) ran
  have signed : ∀ x ∈ w.reads, x.result.toInt = x.result.toNat := fun x member =>
    BitVec.toInt_eq_toNat_of_lt (by have := sound.bounded x member; omega)
  have sized : w.state.AllSized := by
    have both : w.state.Layout ∧ w.state.AllSized :=
      Theory.run_induction (P := fun s => s.Layout ∧ s.AllSized)
        (fun s a s' inv taken => ⟨inv.1.next taken, inv.2.next inv.1 taken⟩)
        ⟨State.layout_init hashCode, State.allSized_init hashCode⟩ (run_state ran)
    exact both.2
  refine ⟨fun x member => ?_, fun i j x y foundX foundY before => ?_, fun t bs s' ran others =>
    sound.tally.books.layout.value_returns sized ran others⟩
  · have := sound.bounded x member
    rw [signed x member]
    omega
  · have := sound.ordered i j x y foundX foundY before
    rw [signed x (List.mem_of_getElem? foundX), signed y (List.mem_of_getElem? foundY)]
    omega

/-- Thread 2 reads the base; thread 1 starts to read, and thread 0 creates the stripes. -/
def readDuringGrowth : List (Action (Fin 3) Unit) :=
  [Action.make () none, .add 0 () 1, .step 0, .step 0, .add 1 () 2, .step 1, .step 1, .step 1,
    .value 2 (), .step 2, .step 2, .value 1 (), .step 1] ++
    List.replicate 7 (Action.step 0) ++ List.replicate 7 (Action.step 1)

theorem value_bounded_growth :
    ∃ w : Watched (Fin 3) Unit,
      Theory.run (next ()) (init fun _ => 0) readDuringGrowth = some w ∧
      (w.reads.map fun x => (x.result.toInt, x.earlier)) = [(2, 0), (3, 1)] ∧
      ∀ x ∈ w.reads, x.returnedBefore ≤ x.result.toInt := by
  have taken : (Theory.run (next ()) (init fun _ => 0) readDuringGrowth).map
      (fun w => w.reads.map fun x => (x.result.toInt, x.earlier)) = some [(2, 0), (3, 1)] := by
    decide +kernel
  obtain ⟨w, ran, reads⟩ := Option.map_eq_some_iff.1 taken
  have nonneg : ∀ (t : Fin 3) (v : Word), .add t () v ∈ readDuringGrowth → 0 ≤ v.toInt := by
    intro t v member
    have checked : ∀ a ∈ readDuringGrowth, (match a with
        | .add _ _ v => decide (0 ≤ v.toInt)
        | _ => true) = true := by decide +kernel
    exact of_decide_eq_true (checked _ member)
  refine ⟨w, ran, reads, fun x member => ?_⟩
  exact ((value_bounded ran (by decide) nonneg (by decide +kernel)).1 x member).1

end Watched

end Ccmetrics.Striped
