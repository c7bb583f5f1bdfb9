/-
# Striped.Conservation -- no update of a `Striped64` is lost or counted twice

`total` is what a reader would get who saw all of an object at once: the base plus the cells
of the current storage. `applied` adds up the deltas of the calls of `add` that have made
their successful compare-and-swap. `Balanced` says that the two agree modulo 2^64.

A step of an `add` does one of four things (`access_progress`): nothing to the books, it
adds its delta to the base and returns, it adds its delta to one cell, or it returns after
having done so. Growing the table moves no value: the new cells are zero and the old ones
are shared (`Layout`).
-/
import Mathlib.Algebra.BigOperators.Group.List.Basic
import Mathlib.Tactic.Abel
import Ccmetrics.Striped.Layout

namespace Ccmetrics.Striped

set_option autoImplicit false
set_option linter.unusedSectionVars false

variable {T O : Type} [DecidableEq T] [DecidableEq O]

/-- The sum of the deltas of those calls of `add` on `o` that have made their swap. -/
def applied (log : List (Add O)) (o : O) : Word :=
  ((log.filter fun e => decide (e.this = o ∧ 0 < e.swaps)).map Add.delta).sum

/-- The sum of the deltas of all calls of `add` on `o`. -/
def added (log : List (Add O)) (o : O) : Word :=
  ((log.filter fun e => decide (e.this = o)).map Add.delta).sum

/-- What one call has contributed to `o`. -/
def Add.share (o : O) (e : Add O) : Word := if e.this = o ∧ 0 < e.swaps then e.delta else 0

/-! ## Sums over lists -/

theorem applied_cons (e : Add O) (log : List (Add O)) (o : O) :
    applied (e :: log) o = e.share o + applied log o := by
  by_cases counts : e.this = o ∧ 0 < e.swaps <;> simp [applied, Add.share, counts]

theorem applied_append (log : List (Add O)) (e : Add O) (o : O) :
    applied (log ++ [e]) o = applied log o + e.share o := by
  by_cases counts : e.this = o ∧ 0 < e.swaps <;> simp [applied, Add.share, counts]

/-- Changing one entry of a list changes a sum over it by what that entry counts. -/
theorem sum_modify {α M : Type} [AddCommMonoid M] (g : α → M) {l : List α} {i : Nat} {e : α}
    (found : l[i]? = some e) (f : α → α) :
    ((l.modify i f).map g).sum + g e = (l.map g).sum + g (f e) := by
  induction l generalizing i with
  | nil => simp at found
  | cons head rest ih =>
      cases i with
      | zero =>
          simp only [List.getElem?_cons_zero, Option.some.injEq] at found
          subst found
          simp only [List.modify_zero_cons, List.map_cons, List.sum_cons]
          abel
      | succ i =>
          simp only [List.getElem?_cons_succ] at found
          simp only [List.modify_succ_cons, List.map_cons, List.sum_cons]
          rw [add_assoc, ih found, add_assoc]

theorem applied_eq (log : List (Add O)) (o : O) : applied log o = (log.map (Add.share o)).sum := by
  induction log with
  | nil => rfl
  | cons e rest ih => rw [applied_cons, List.map_cons, List.sum_cons, ih]

theorem applied_modify {log : List (Add O)} {i : Nat} {e : Add O} (found : log[i]? = some e)
    (f : Add O → Add O) (o : O) :
    applied (log.modify i f) o + e.share o = applied log o + (f e).share o := by
  rw [applied_eq, applied_eq]
  exact sum_modify (Add.share o) found f

theorem applied_eq_added {log : List (Add O)} {o : O}
    (swapped : ∀ e ∈ log, e.this = o → 0 < e.swaps) : applied log o = added log o := by
  have same : (log.filter fun e => decide (e.this = o ∧ 0 < e.swaps)) =
      log.filter fun e => decide (e.this = o) := by
    refine List.filter_congr fun e member => ?_
    by_cases here : e.this = o <;> simp [here, swapped e member]
  rw [applied, added, same]

/-- Writing one of pairwise different cells. -/
theorem sum_set {M : Type} [AddCommMonoid M] {l : List Nat} (nodup : l.Nodup) {c : Nat}
    (member : c ∈ l) (cell : Nat → M) (y : M) :
    (l.map fun x => if x = c then y else cell x).sum + cell c = (l.map cell).sum + y := by
  induction l with
  | nil => simp at member
  | cons a rest ih =>
      obtain ⟨fresh, nodup⟩ := List.nodup_cons.1 nodup
      simp only [List.map_cons, List.sum_cons]
      rcases List.mem_cons.1 member with rfl | inRest
      · have unchanged : (rest.map fun x => if x = c then y else cell x) = rest.map cell := by
          refine List.map_congr_left fun x inRest => ?_
          have : x ≠ c := by rintro rfl; exact fresh inRest
          simp [this]
        rw [unchanged, if_pos rfl]
        abel
      · have : a ≠ c := by rintro rfl; exact fresh inRest
        rw [add_assoc, ih nodup inRest, if_neg this, add_assoc]

theorem sum_write {l : List Nat} (nodup : l.Nodup) {c : Nat} (member : c ∈ l)
    (cell : Nat → Word) (v : Word) :
    (l.map fun x => if x = c then cell c + v else cell x).sum = (l.map cell).sum + v := by
  have set := sum_set nodup member cell (cell c + v)
  rw [add_comm (cell c) v, ← add_assoc] at set
  rw [add_comm (cell c) v]
  exact add_right_cancel set

theorem sum_zero {M : Type} [AddCommMonoid M] {l : List Nat} {cell : Nat → M}
    (zero : ∀ c ∈ l, cell c = 0) : (l.map cell).sum = 0 := by
  induction l with
  | nil => rfl
  | cons a rest ih =>
      rw [List.map_cons, List.sum_cons, zero a (List.mem_cons_self ..),
        ih fun c inRest => zero c (List.mem_cons_of_mem _ inRest), add_zero]

namespace PC

/-- The call of `add` that is running and has not made its swap. -/
def pending : PC O → Option (O × Word)
  | .addStripes this value | .addBase this value | .addBaseCas this value _
  | .addSize this value _ | .addGet this value _ _ | .addCas this value _ _ _ =>
      some (this, value)
  | .slowNew f | .slowPublish f _ | .slowSize f _ | .slowGet f _ _ | .slowCas f _ _ _
  | .slowGrow f _ | .slowExpand f _ | .slowSwap f _ _ | .slowRetire f _ =>
      some (f.this, f.value)
  | .load (.add this value) | .loadSet (.add this value) _ | .loadCheck (.add this value) _ =>
      some (this, value)
  | .load (.slow f) | .loadSet (.slow f) _ | .loadCheck (.slow f) _ => some (f.this, f.value)
  | _ => none

/-- The object of a running call of `add` that has made its swap. -/
def settled : PC O → Option O
  | .addClear this => some this
  | .slowClear f => some f.this
  | _ => none

theorem adding_iff {pc : PC O} {o : O} :
    pc.adding = some o ↔ (∃ v, pc.pending = some (o, v)) ∨ pc.settled = some o := by
  cases pc with
  | load site | loadSet site | loadCheck site => cases site <;> simp [adding, pending, settled]
  | _ => simp [adding, pending, settled]

theorem writes_of_adding {pc : PC O} {o : O} (adding : pc.adding = some o) :
    pc.writes = some o := by
  cases pc with
  | load site | loadSet site | loadCheck site =>
      cases site <;> simp_all [PC.adding, PC.writes, PC.this, Site.this]
  | _ => first | exact adding | cases adding

end PC

namespace State

variable {s s' : State T O} {t u : T} {e : Effect O} {nx : Next O} {o : O}

/-! ## The four things a step can do to the books -/

/-- Nothing: the running call, if any, is where it was. -/
structure Idles (pc : PC O) (e : Effect O) (nx : Next O) : Prop where
  pending : (Next.pc nx).pending = pc.pending
  settled : (Next.pc nx).settled = pc.settled
  base : ∀ o x, e ≠ .addBase o x
  cell : ∀ c x, e ≠ .addCell c x
  stays : pc.adding = none ∨ ∃ pc', nx = .goto pc'

theorem idles_slowTop {pc : PC O} {f : Slow O} {cur : Nat}
    (pending : pc.pending = some (f.this, f.value)) (settled : pc.settled = none)
    (base : ∀ o x, e ≠ .addBase o x) (cell : ∀ c x, e ≠ .addCell c x) :
    Idles pc e (.goto (slowTop f (some cur))) := by
  refine ⟨?_, ?_, base, cell, .inr ⟨_, rfl⟩⟩
  · simp only [slowTop, Next.pc_goto, pending]
    split <;> rfl
  · simp only [slowTop, Next.pc_goto, settled]
    split <;> rfl

theorem access_progress {pc : PC O} (access : Access s t pc e nx) (here : s.Local pc) :
    Idles pc e nx ∨
    (∃ o, pc.settled = some o ∧ e = .slot none ∧ nx = .ret 0) ∨
    (∃ o v, pc.pending = some (o, v) ∧ e = .addBase o (s.base o + v) ∧ nx = .ret 0) ∨
    ∃ o v c pc', pc.pending = some (o, v) ∧ e = .addCell c (s.cell c + v) ∧ nx = .goto pc' ∧
      pc'.settled = some o ∧ c ∈ s.cells o := by
  cases access
  case addClear this => exact .inr (.inl ⟨this, rfl, rfl, rfl⟩)
  case slowClear f => exact .inr (.inl ⟨f.this, rfl, rfl, rfl⟩)
  case addBaseWon this value => exact .inr (.inr (.inl ⟨this, value, rfl, rfl, rfl⟩))
  case addWon this value cur slot =>
      exact .inr (.inr (.inr ⟨this, value, slot, _, rfl, rfl, rfl, rfl,
        here.1.2.subset here.2⟩))
  case slowWon f cur idx =>
      exact .inr (.inr (.inr ⟨f.this, f.value, _, _, rfl, rfl, rfl, rfl,
        here.1.2.subset (Storage.get_mem here.2)⟩))
  case slowLate | slowFull | slowRetire =>
      exact .inl (idles_slowTop rfl rfl (by simp) (by simp))
  case slowRehash f cur idx expected =>
      exact .inl (idles_slowTop (f := { f with contended := true }) rfl rfl (by simp) (by simp))
  case slowRaced f cur next raced =>
      cases stripes : s.stripes f.this with
      | none => exact absurd stripes here.1.stripes
      | some a => exact .inl (idles_slowTop rfl rfl (by simp) (by simp))
  case loadSame site =>
      cases site with
      | add this value =>
          cases stripes : s.stripes this with
          | none => exact absurd stripes here
          | some a =>
              simp only [Site.this, stripes, loaded]
              exact .inl ⟨rfl, rfl, by simp, by simp, .inr ⟨_, rfl⟩⟩
      | slow f =>
          cases stripes : s.stripes f.this with
          | none => exact absurd stripes here
          | some a =>
              simp only [Site.this, stripes, loaded]
              exact .inl ⟨rfl, rfl, by simp, by simp, .inr ⟨_, rfl⟩⟩
      | reset this =>
          simp only [Site.this]
          cases s.stripes this <;> exact .inl ⟨rfl, rfl, by simp, by simp, .inl rfl⟩
  case load site | loadSet site cur | loadAgain site cur =>
      cases site <;> exact .inl ⟨rfl, rfl, by simp, by simp, .inr ⟨_, rfl⟩⟩
  case valueSize | valueGet =>
      refine .inl ⟨?_, ?_, by simp, by simp, .inl rfl⟩ <;>
        simp only [valueLoop, Next.pc_goto] <;> split <;> rfl
  case resetSize | resetGet =>
      refine .inl ⟨?_, ?_, by simp, by simp, .inl rfl⟩ <;>
        simp only [resetLoop, Next.pc_goto] <;> split <;> rfl
  all_goals
    exact .inl ⟨rfl, rfl, by simp, by simp, by first | exact .inr ⟨_, rfl⟩ | exact .inl rfl⟩

/-! ## The log -/

theorem apply_call (e : Effect O) : (s.apply t e).call = s.call := by
  cases e <;> rfl

theorem after_call_eq : (s.after t e nx).call = s.call := by
  rw [after_call, apply_call]

theorem apply_log (base : ∀ o x, e ≠ .addBase o x) (cell : ∀ c x, e ≠ .addCell c x) :
    (s.apply t e).log = s.log := by
  cases e with
  | addBase this update => exact absurd rfl (base this update)
  | addCell c update => exact absurd rfl (cell c update)
  | _ => rfl

theorem Idles.log (idles : Idles (s.pc t) e nx) : (s.after t e nx).log = s.log := by
  have same := apply_log (s := s) (t := t) idles.base idles.cell
  cases nx with
  | goto pc => exact same
  | ret value =>
      have notAdding : (s.pc t).adding = none := by
        rcases idles.stays with none_ | ⟨pc', goto⟩
        · exact none_
        · cases goto
      simp only [after, ret, apply_pc, notAdding]
      exact same

/-- Every call of `add` has one entry, which says how far the call has come. -/
structure Accounted (s : State T O) : Prop where
  pending : ∀ t o v, (s.pc t).pending = some (o, v) → s.log[s.call t]? = some ⟨o, v, 0, false⟩
  settled : ∀ t o, (s.pc t).settled = some o → ∃ v, s.log[s.call t]? = some ⟨o, v, 1, false⟩
  own : ∀ t u, (s.pc t).adding ≠ none → (s.pc u).adding ≠ none → s.call t = s.call u → t = u
  finished : ∀ (i : Nat) e, s.log[i]? = some e →
    (∀ t, (s.pc t).adding ≠ none → s.call t ≠ i) → e.swaps = 1 ∧ e.returned = true

theorem Idles.adding (idles : Idles (s.pc t) e nx) : (Next.pc nx).adding = (s.pc t).adding := by
  apply Option.ext
  intro o
  rw [PC.adding_iff, PC.adding_iff, idles.pending, idles.settled]

theorem Accounted.idle (accounted : s.Accounted) (idles : Idles (s.pc t) e nx) :
    (s.after t e nx).Accounted := by
  have adding : ∀ u, ((s.after t e nx).pc u).adding = (s.pc u).adding := by
    intro u
    by_cases same : u = t
    · rw [same, after_pc_self, idles.adding]
    · rw [after_pc_other same]
  constructor
  case pending =>
      intro u o v running
      rw [idles.log, after_call_eq]
      by_cases same : u = t
      · subst same
        rw [after_pc_self, idles.pending] at running
        exact accounted.pending u o v running
      · rw [after_pc_other same] at running
        exact accounted.pending u o v running
  case settled =>
      intro u o running
      rw [idles.log, after_call_eq]
      by_cases same : u = t
      · subst same
        rw [after_pc_self, idles.settled] at running
        exact accounted.settled u o running
      · rw [after_pc_other same] at running
        exact accounted.settled u o running
  case own =>
      intro u v
      rw [adding, adding, after_call_eq]
      exact accounted.own u v
  case finished =>
      intro i entry found idle
      rw [idles.log] at found
      refine accounted.finished i entry found fun u running => ?_
      have := idle u (by rwa [adding])
      rwa [after_call_eq] at this

/-- A call of `add` moves its own entry on, and no other. -/
theorem Accounted.update (accounted : s.Accounted) (running : (s.pc t).adding ≠ none)
    {f : Add O → Add O} {entry : Add O} (log : (s.after t e nx).log = s.log.modify (s.call t) f)
    (found : s.log[s.call t]? = some entry) (swapped : (f entry).swaps = 1)
    (stands : ((Next.pc nx).settled = some (f entry).this ∧ (f entry).returned = false) ∨
      ((Next.pc nx).adding = none ∧ (f entry).returned = true))
    (notPending : (Next.pc nx).pending = none) : (s.after t e nx).Accounted := by
  have mine : (s.after t e nx).log[s.call t]? = some (f entry) := by
    simp [log, found]
  have others : ∀ i : Nat, i ≠ s.call t → (s.after t e nx).log[i]? = s.log[i]? := by
    intro i ne
    simp [log, Ne.symm ne]
  have apart : ∀ u, u ≠ t → (s.pc u).adding ≠ none → s.call u ≠ s.call t :=
    fun u ne busy same => ne (accounted.own u t busy running same)
  have stillAdding : (Next.pc nx).adding ≠ none → (Next.pc nx).settled = some (f entry).this ∧
      (f entry).returned = false := by
    intro busy
    rcases stands with now | ⟨idle, -⟩
    · exact now
    · exact absurd idle busy
  constructor
  case pending =>
      intro u o v busy
      rw [after_call_eq]
      by_cases same : u = t
      · subst same
        rw [after_pc_self, notPending] at busy
        cases busy
      · rw [after_pc_other same] at busy
        have adding : (s.pc u).adding = some o := PC.adding_iff.2 (.inl ⟨v, busy⟩)
        rw [others _ (apart u same (by simp [adding]))]
        exact accounted.pending u o v busy
  case settled =>
      intro u o busy
      rw [after_call_eq]
      by_cases same : u = t
      · subst same
        rw [after_pc_self] at busy
        have adding : (Next.pc nx).adding = some o := PC.adding_iff.2 (.inr busy)
        obtain ⟨on, open_⟩ := stillAdding (by simp [adding])
        cases busy.symm.trans on
        refine ⟨(f entry).delta, mine.trans ?_⟩
        rw [← swapped, ← open_]
      · rw [after_pc_other same] at busy
        have adding : (s.pc u).adding = some o := PC.adding_iff.2 (.inr busy)
        rw [others _ (apart u same (by simp [adding]))]
        exact accounted.settled u o busy
  case own =>
      intro u v busyU busyV same
      rw [after_call_eq] at same
      refine accounted.own u v ?_ ?_ same
      · by_cases self : u = t
        · exact self ▸ running
        · rwa [after_pc_other self] at busyU
      · by_cases self : v = t
        · exact self ▸ running
        · rwa [after_pc_other self] at busyV
  case finished =>
      intro i entry' found' idle
      rw [after_call_eq] at idle
      by_cases same : i = s.call t
      · subst same
        cases mine.symm.trans found'
        refine ⟨swapped, ?_⟩
        rcases stands with ⟨on, -⟩ | ⟨-, closed⟩
        · have adding : (Next.pc nx).adding = some (f entry).this := PC.adding_iff.2 (.inr on)
          exact absurd rfl (idle t (by rw [after_pc_self, adding]; simp))
        · exact closed
      · rw [others i same] at found'
        refine accounted.finished i entry' found' fun u busy => ?_
        by_cases self : u = t
        · rw [self]; exact Ne.symm same
        · exact idle u (by rwa [after_pc_other self])

theorem Accounted.after (layout : s.Layout) (accounted : s.Accounted)
    (access : Access s t (s.pc t) e nx) : (s.after t e nx).Accounted := by
  rcases access_progress access (layout.here t) with
    idles | ⟨o, settled, rfl, rfl⟩ | ⟨o, v, pending, rfl, rfl⟩ |
      ⟨o, v, c, pc', pending, rfl, rfl, settled, -⟩
  · exact accounted.idle idles
  · have adding : (s.pc t).adding = some o := PC.adding_iff.2 (.inr settled)
    obtain ⟨v, found⟩ := accounted.settled t o settled
    refine accounted.update (f := fun e => { e with returned := true }) (by simp [adding]) ?_ found
      rfl (.inr ⟨rfl, rfl⟩) rfl
    simp [State.after, ret, apply, adding]
  · have adding : (s.pc t).adding = some o := PC.adding_iff.2 (.inl ⟨v, pending⟩)
    have found := accounted.pending t o v pending
    refine accounted.update (f := fun e => { e with swaps := e.swaps + 1, returned := true })
      (by simp [adding]) ?_ found rfl (.inr ⟨rfl, rfl⟩) rfl
    simp [State.after, ret, apply, adding, List.modify_modify_eq, Function.comp_def]
  · have adding : (s.pc t).adding = some o := PC.adding_iff.2 (.inl ⟨v, pending⟩)
    have found := accounted.pending t o v pending
    refine accounted.update (f := fun e => { e with swaps := e.swaps + 1 })
      (by simp [adding]) rfl found rfl (.inl ⟨settled, rfl⟩) ?_
    cases pc' <;> first | rfl | cases settled

/-! ## The balance -/

/-- The base plus the cells of the current storage. -/
def total (s : State T O) (o : O) : Word := s.base o + ((s.cells o).map s.cell).sum

def Balanced (s : State T O) (o : O) : Prop := s.total o = applied s.log o

/-- The same sum with every word weighed. -/
def weigh {M : Type} [AddCommMonoid M] (w : Word → M) (s : State T O) (o : O) : M :=
  w (s.base o) + ((s.cells o).map fun c => w (s.cell c)).sum

theorem weigh_congr {M : Type} [AddCommMonoid M] (w : Word → M) (base : s'.base o = s.base o)
    (cells : s'.cells o = s.cells o) (cell : ∀ c ∈ s.cells o, s'.cell c = s.cell c) :
    s'.weigh w o = s.weigh w o := by
  rw [weigh, weigh, base, cells, List.map_congr_left fun c member => by rw [cell c member]]

theorem total_congr (base : s'.base o = s.base o) (cells : s'.cells o = s.cells o)
    (cell : ∀ c ∈ s.cells o, s'.cell c = s.cell c) : s'.total o = s.total o :=
  weigh_congr id base cells cell

theorem access_base {pc : PC O} (access : Access s t pc e nx)
    (elsewhere : pc.writes ≠ some o) : (s.after t e nx).base o = s.base o := by
  rw [after_base]
  cases access
  case addBaseWon this value =>
      have : o ≠ this := by rintro rfl; exact elsewhere rfl
      simp [apply, this]
  case resetBase this =>
      have : o ≠ this := by rintro rfl; exact elsewhere rfl
      simp [apply, this]
  all_goals rfl

/-- A step on one object leaves every other object alone. -/
theorem Layout.frame (layout : s.Layout) (access : Access s t (s.pc t) e nx)
    (elsewhere : (s.pc t).writes ≠ some o) :
    (s.after t e nx).base o = s.base o ∧ (s.after t e nx).stripes o = s.stripes o ∧
      (s.after t e nx).cells o = s.cells o ∧
      ∀ c ∈ s.cells o, (s.after t e nx).cell c = s.cell c := by
  have stripes : (s.after t e nx).stripes o = s.stripes o := by
    rw [after_stripes, apply_stripes]
    cases e with
    | stripes this a =>
        have : o ≠ this := by
          rintro rfl
          rcases access_stripes access with ⟨f, rfl, pc, -⟩ | ⟨f, cur, rfl, pc, -⟩ <;>
            exact elsewhere (by rw [pc]; rfl)
        simp [this]
    | _ => rfl
  refine ⟨access_base access elsewhere, stripes,
    layout.cells_after stripes (layout.extends access).data, fun c member => ?_⟩
  by_contra changed
  rcases layout.written access changed with above | ⟨o', writing, member'⟩
  · exact absurd (layout.cells_bound member) (Nat.not_lt.2 above)
  · have : o ≠ o' := by rintro rfl; exact elsewhere writing
    exact layout.apart o o' this c member member'

/-- Creating and growing the table moves no value. -/
theorem Layout.weigh_after {M : Type} [AddCommMonoid M] {w : Word → M} (weightless : w 0 = 0)
    (layout : s.Layout) (access : Access s t (s.pc t) e nx)
    (base : (s.after t e nx).base o = s.base o)
    (cell : ∀ c < s.freshCell, (s.after t e nx).cell c = s.cell c) :
    (s.after t e nx).weigh w o = s.weigh w o := by
  by_cases published : ∃ a, e = .stripes o a
  · obtain ⟨a, rfl⟩ := published
    have here := layout.here t
    have zero : ∀ c ∈ s.draft t, w (s.cell c) = 0 := fun c member => by
      rw [(layout.draft t c member).1, weightless]
    have now : (s.after t (.stripes o a) nx).weigh w o =
        w (s.base o) + ((s.storage a).data.map fun c => w (s.cell c)).sum := by
      simp [weigh, State.cells, apply]
    rw [now, weigh]
    rcases access_stripes access with ⟨f, rfl, pc, empty, -⟩ | ⟨f, cur, rfl, pc, same, -⟩
    · have zero : ((s.storage a).data.map fun c => w (s.cell c)).sum = 0 :=
        sum_zero fun c member => zero c (by simpa [State.draft, pc] using member)
      simp [State.cells, empty, zero]
    · rw [pc] at here
      obtain ⟨rest, split⟩ := here.2.2
      have zero : (rest.map fun c => w (s.cell c)).sum = 0 := sum_zero fun c member => zero c (by
        simpa [State.draft, pc, ← split, List.drop_left' (s.storage cur).length_data] using member)
      simp [State.cells, same, ← split, zero]
  · have stripes : (s.after t e nx).stripes o = s.stripes o := by
      rw [after_stripes, apply_stripes]
      cases e with
      | stripes this a =>
          have : o ≠ this := by rintro rfl; exact published ⟨a, rfl⟩
          simp [this]
      | _ => rfl
    exact weigh_congr w base (layout.cells_after stripes (layout.extends access).data)
      fun c member => cell c (layout.cells_bound member)

theorem Layout.total_after (layout : s.Layout) (access : Access s t (s.pc t) e nx)
    (base : (s.after t e nx).base o = s.base o)
    (cell : ∀ c < s.freshCell, (s.after t e nx).cell c = s.cell c) :
    (s.after t e nx).total o = s.total o :=
  layout.weigh_after (w := id) rfl access base cell

theorem Layout.cells_nodup (layout : s.Layout) (o : O) : (s.cells o).Nodup := by
  cases stripes : s.stripes o with
  | none => simp [State.cells, stripes]
  | some a => simpa [State.cells, stripes] using layout.nodup a (layout.issued o a stripes)

theorem after_cell_eq (cell : ∀ c x, e ≠ .addCell c x) (zero : ∀ c, e ≠ .zeroCell c) {c : Nat}
    (old : c < s.freshCell) : (s.after t e nx).cell c = s.cell c := by
  rw [after_cell]
  cases e with
  | addCell c x => exact absurd rfl (cell c x)
  | zeroCell c => exact absurd rfl (zero c)
  | create | expand => simp [apply, allocate, Nat.not_le.2 old]
  | _ => rfl

theorem after_base_eq (base : ∀ o x, e ≠ .addBase o x) (zero : ∀ o, e ≠ .zeroBase o) :
    (s.after t e nx).base = s.base := by
  rw [after_base]
  cases e with
  | addBase o x => exact absurd rfl (base o x)
  | zeroBase o => exact absurd rfl (zero o)
  | _ => rfl

/-- Only `reset` stores zeros. -/
theorem access_zero {pc : PC O} (access : Access s t pc e nx)
    (adds : pc.writes = some o → pc.adding = some o) (writing : pc.writes = some o) :
    (∀ o', e ≠ .zeroBase o') ∧ ∀ c, e ≠ .zeroCell c := by
  have adding := adds writing
  cases access
  case resetBase => cases adding
  case resetGet => cases adding
  all_goals exact ⟨by simp, by simp⟩

theorem Idles.balanced (layout : s.Layout) (access : Access s t (s.pc t) e nx)
    (idles : Idles (s.pc t) e nx)
    (adds : (s.pc t).writes = some o → (s.pc t).adding = some o) (balanced : s.Balanced o) :
    (s.after t e nx).Balanced o := by
  rw [Balanced, idles.log, ← balanced]
  by_cases writing : (s.pc t).writes = some o
  · obtain ⟨zeroBase, zeroCell⟩ := access_zero access adds writing
    refine layout.total_after access ?_ fun c old => after_cell_eq idles.cell zeroCell old
    rw [after_base_eq idles.base zeroBase]
  · obtain ⟨base, -, cells, cell⟩ := layout.frame access writing
    exact total_congr base cells cell

/-- A call that makes its swap adds its delta to one object, here and in the log. -/
theorem Balanced.add {o' : O} {v : Word} {f : Add O → Add O} (balanced : s.Balanced o)
    (found : s.log[s.call t]? = some ⟨o', v, 0, false⟩)
    (log : s'.log = s.log.modify (s.call t) f) (share : (f ⟨o', v, 0, false⟩).share o =
      if o' = o then v else 0)
    (sum : s'.total o = s.total o + if o' = o then v else 0) : s'.Balanced o := by
  have modified := applied_modify found f o
  rw [share] at modified
  simp only [Add.share, Nat.lt_irrefl, and_false, if_false, add_zero] at modified
  rw [Balanced, sum, log, modified, balanced]

theorem Balanced.after (layout : s.Layout) (accounted : s.Accounted)
    (access : Access s t (s.pc t) e nx)
    (adds : (s.pc t).writes = some o → (s.pc t).adding = some o) (balanced : s.Balanced o) :
    (s.after t e nx).Balanced o := by
  rcases access_progress access (layout.here t) with
    idles | ⟨o', settled, rfl, rfl⟩ | ⟨o', v, pending, rfl, rfl⟩ |
      ⟨o', v, c, pc', pending, rfl, rfl, -, inCells⟩
  · exact idles.balanced layout access adds balanced
  · -- the returning call has its delta in the books already
    have adding : (s.pc t).adding = some o' := PC.adding_iff.2 (.inr settled)
    obtain ⟨v, found⟩ := accounted.settled t o' settled
    have modified := applied_modify found (fun e => { e with returned := true }) o
    simp only [Add.share, add_left_inj] at modified
    have log : (s.after t (.slot none) (.ret 0)).log =
        s.log.modify (s.call t) fun e => { e with returned := true } := by
      simp [State.after, ret, apply, adding]
    rw [Balanced, log, modified]
    exact balanced
  · have adding : (s.pc t).adding = some o' := PC.adding_iff.2 (.inl ⟨v, pending⟩)
    refine balanced.add (accounted.pending t o' v pending)
      (f := fun e => { e with swaps := e.swaps + 1, returned := true }) ?_ ?_ ?_
    · simp [State.after, ret, apply, adding, List.modify_modify_eq, Function.comp_def]
    · simp [Add.share]
    · by_cases same : o' = o
      · subst same
        have cells : (s.after t (.addBase o' (s.base o' + v)) (.ret 0)).cells o' = s.cells o' := rfl
        simp only [total, cells, after_base, after_cell, apply, if_true]
        abel
      · have elsewhere : (s.pc t).writes ≠ some o := by
          rw [PC.writes_of_adding adding]
          simpa using same
        obtain ⟨base, -, cells, cell⟩ := layout.frame access elsewhere
        simpa [same] using total_congr base cells cell
  · have adding : (s.pc t).adding = some o' := PC.adding_iff.2 (.inl ⟨v, pending⟩)
    refine balanced.add (accounted.pending t o' v pending)
      (f := fun e => { e with swaps := e.swaps + 1 }) rfl ?_ ?_
    · simp [Add.share]
    · by_cases same : o' = o
      · subst same
        have nodup : (s.cells o').Nodup := layout.cells_nodup o'
        have cells : (s.after t (.addCell c (s.cell c + v)) (.goto pc')).cells o' = s.cells o' :=
          rfl
        simp only [total, cells, after_base, after_cell, apply, if_true, sum_write nodup inCells]
        abel
      · have elsewhere : (s.pc t).writes ≠ some o := by
          rw [PC.writes_of_adding adding]
          simpa using same
        obtain ⟨base, -, cells, cell⟩ := layout.frame access elsewhere
        simpa [same] using total_congr base cells cell

/-! ## Every run -/

theorem access_writes {pc : PC O} (access : Access s t pc e nx)
    (writing : (Next.pc nx).writes = some o) : pc.writes = some o := by
  cases access
  case slowLate | slowRehash | slowFull | slowRetire =>
      simp only [slowTop, Next.pc_goto] at writing
      split at writing <;> exact writing
  case slowRaced f cur next raced =>
      cases stripes : s.stripes f.this <;> rw [stripes] at writing <;>
        simp only [slowTop, Next.pc_goto] at writing
      · exact writing
      · split at writing <;> exact writing
  case loadSame site =>
      cases site <;> cases stripes : s.stripes _ <;> rw [stripes] at writing <;>
        first | exact writing | cases writing
  case valueSize | valueGet =>
      simp only [valueLoop, Next.pc_goto] at writing
      split at writing <;> cases writing
  case resetSize | resetGet =>
      simp only [resetLoop, Next.pc_goto] at writing
      split at writing <;> exact writing
  all_goals first | exact writing | cases writing

/-- What holds of an object that is never reset. -/
structure Books (s : State T O) (o : O) : Prop where
  layout : s.Layout
  accounted : s.Accounted
  adds : ∀ t, (s.pc t).writes = some o → (s.pc t).adding = some o
  balanced : s.Balanced o

theorem Books.after (books : s.Books o) (access : Access s t (s.pc t) e nx) :
    (s.after t e nx).Books o where
  layout := books.layout.after access
  accounted := books.accounted.after books.layout access
  balanced := books.balanced.after books.layout books.accounted access (books.adds t)
  adds u writing := by
    by_cases same : u = t
    · subst same
      rw [after_pc_self] at writing ⊢
      have adding := books.adds u (access_writes access writing)
      rcases access_progress access (books.layout.here u) with
        idles | ⟨o', -, rfl, rfl⟩ | ⟨o', v, -, rfl, rfl⟩ | ⟨o', v, c, pc', pending, rfl, rfl, settled, -⟩
      · rw [idles.adding]; exact adding
      · cases writing
      · cases writing
      · have before : (s.pc u).adding = some o' := PC.adding_iff.2 (.inl ⟨v, pending⟩)
        rw [← before.symm.trans adding]
        exact PC.adding_iff.2 (.inr settled)
    · rw [after_pc_other same] at writing ⊢
      exact books.adds u writing

/-- A state with the same books, in which thread `t` has entered a function that is no `add`. -/
theorem Accounted.goto (accounted : s.Accounted) (idle : s.pc t = .idle) {pc : PC O}
    (notAdding : pc.adding = none) : (s.goto t pc).Accounted := by
  have adding : ∀ u, ((s.goto t pc).pc u).adding = (s.pc u).adding := by
    intro u
    by_cases same : u = t
    · subst same
      simp only [State.goto, if_true, notAdding, idle]
      rfl
    · simp [State.goto, same]
  have other : ∀ u, ((s.goto t pc).pc u).adding ≠ none → (s.goto t pc).pc u = s.pc u := by
    intro u busy
    by_cases same : u = t
    · subst same; simp [State.goto, notAdding] at busy
    · simp [State.goto, same]
  constructor
  case pending =>
      intro u o v busy
      have := other u (by simp [PC.adding_iff.2 (.inl ⟨v, busy⟩)])
      exact accounted.pending u o v (this ▸ busy)
  case settled =>
      intro u o busy
      have := other u (by simp [PC.adding_iff.2 (.inr busy)])
      exact accounted.settled u o (this ▸ busy)
  case own =>
      intro u v
      rw [adding, adding]
      exact accounted.own u v
  case finished =>
      intro i entry found idle
      exact accounted.finished i entry found fun u busy => idle u (by rwa [adding])

/-- A new call of `add` gets a new entry. -/
theorem Accounted.enter (accounted : s.Accounted) (idle : s.pc t = .idle) (this : O)
    (value : Word) :
    Accounted { s.goto t (.addStripes this value) with
      call := fun u => if u = t then s.log.length else s.call u
      log := s.log ++ [⟨this, value, 0, false⟩] } := by
  have known : ∀ u, (s.pc u).adding ≠ none → s.call u < s.log.length := by
    intro u busy
    obtain ⟨o, adding⟩ := Option.ne_none_iff_exists'.1 busy
    rcases PC.adding_iff.1 adding with ⟨v, pending⟩ | settled
    · exact (List.getElem?_eq_some_iff.1 (accounted.pending u o v pending)).1
    · obtain ⟨v, found⟩ := accounted.settled u o settled
      exact (List.getElem?_eq_some_iff.1 found).1
  constructor
  case pending =>
      intro u o v busy
      by_cases same : u = t
      · subst same
        simp only [State.goto, if_true, PC.pending, Option.some.injEq, Prod.mk.injEq] at busy
        simp [busy]
      · simp only [State.goto, same, if_false] at busy ⊢
        have adding : (s.pc u).adding = some o := PC.adding_iff.2 (.inl ⟨v, busy⟩)
        rw [List.getElem?_append_left (known u (by simp [adding]))]
        exact accounted.pending u o v busy
  case settled =>
      intro u o busy
      by_cases same : u = t
      · subst same
        simp [State.goto, PC.settled] at busy
      · simp only [State.goto, same, if_false] at busy ⊢
        have adding : (s.pc u).adding = some o := PC.adding_iff.2 (.inr busy)
        rw [List.getElem?_append_left (known u (by simp [adding]))]
        exact accounted.settled u o busy
  case own =>
      intro u v busyU busyV same
      by_cases atU : u = t <;> by_cases atV : v = t
      · rw [atU, atV]
      · simp only [State.goto, atU, atV, if_true, if_false] at busyV same
        exact absurd same (Nat.ne_of_gt (known v busyV))
      · simp only [State.goto, atU, atV, if_true, if_false] at busyU same
        exact absurd same (Nat.ne_of_lt (known u busyU))
      · simp only [State.goto, atU, atV, if_false] at busyU busyV same
        exact accounted.own u v busyU busyV same
  case finished =>
      intro i entry found idle'
      by_cases old : i < s.log.length
      · rw [List.getElem?_append_left old] at found
        refine accounted.finished i entry found fun u busy => ?_
        by_cases same : u = t
        · rw [same, idle] at busy
          exact absurd rfl busy
        · have := idle' u (by simpa [State.goto, same] using busy)
          simpa [same] using this
      · have new : i = s.log.length := by
          have := (List.getElem?_eq_some_iff.1 found).1
          simp only [List.length_append, List.length_singleton] at this
          omega
        have := idle' t (by simp [State.goto, PC.adding])
        simp [new] at this

/-- The cells of a new object are zero. -/
theorem Layout.weigh_make {M : Type} [AddCommMonoid M] {w : Word → M} (weightless : w 0 = 0)
    (layout : s.Layout) {this : O} (notLive : s.live this ≠ true) (k : Option Nat) :
    (s.make this k).weigh w o = s.weigh w o := by
  cases k with
  | none => rfl
  | some k =>
      by_cases same : o = this
      · subst same
        have empty : s.stripes o = none := layout.unborn o (by simpa using notLive)
        have zero : (((s.make o (some k)).cells o).map
            fun c => w ((s.make o (some k)).cell c)).sum = 0 := by
          refine sum_zero fun c member => ?_
          have data := growTo_data (Storage.new s.freshCell) k s.freshCell (s.freshCell + 2)
            (by simp [Storage.new, List.range']) rfl
          simp only [State.cells, State.make, if_true, allocate, data, List.mem_range'_1] at member
          simp only [State.make, allocate, member.1, if_true]
          exact weightless
        rw [weigh, weigh, zero]
        simp [State.cells, empty, State.make, allocate]
      · refine weigh_congr w rfl (layout.cells_after ?_ fun a old => ?_) fun c member => ?_
        · simp [State.make, same]
        · simp [State.make, allocate, Nat.ne_of_lt old]
        · simp [State.make, allocate, Nat.not_le.2 (layout.cells_bound member)]

theorem Books.make (books : s.Books o) {this : O} {k : Option Nat}
    (notLive : s.live this ≠ true) (layout : (s.make this k).Layout) : (s.make this k).Books o := by
  have sum : (s.make this k).total o = s.total o :=
    books.layout.weigh_make (w := id) rfl notLive k
  cases k with
  | none => exact ⟨layout, ⟨books.accounted.pending, books.accounted.settled,
      books.accounted.own, books.accounted.finished⟩, books.adds, books.balanced⟩
  | some k =>
      refine ⟨layout, ⟨books.accounted.pending, books.accounted.settled,
        books.accounted.own, books.accounted.finished⟩, books.adds, ?_⟩
      rw [Balanced, sum]
      exact books.balanced

theorem Books.next [Fintype T] (books : s.Books o) {a : Action T O} (kept : ∀ t, a ≠ .reset t o)
    (taken : s.next a = some s') : s'.Books o := by
  have layout := books.layout.next taken
  cases a with
  | make this k =>
      simp only [State.next] at taken
      split at taken
      · cases taken
      · rename_i notLive
        cases taken
        exact books.make notLive layout
  | add t this value =>
      simp only [State.next] at taken
      split at taken
      · rename_i enabled
        cases taken
        refine ⟨layout, books.accounted.enter enabled.1 this value, fun u writing => ?_, ?_⟩
        · by_cases same : u = t
          · subst same
            simpa [State.goto, PC.writes, PC.this, PC.adding] using writing
          · simp only [State.goto, same, if_false] at writing ⊢
            exact books.adds u writing
        · have zero : (⟨this, value, 0, false⟩ : Add O).share o = 0 := by simp [Add.share]
          rw [Balanced, applied_append, zero, add_zero]
          exact books.balanced
      · cases taken
  | value t this =>
      simp only [State.next] at taken
      split at taken
      · rename_i enabled
        cases taken
        refine ⟨layout, books.accounted.goto enabled.1 rfl, fun u writing => ?_, books.balanced⟩
        by_cases same : u = t
        · subst same
          simp [State.goto, PC.writes] at writing
        · simp only [State.goto, same, if_false] at writing ⊢
          exact books.adds u writing
      · cases taken
  | reset t this =>
      simp only [State.next] at taken
      split at taken
      · rename_i enabled
        cases taken
        refine ⟨layout, books.accounted.goto enabled.1 rfl, fun u writing => ?_, books.balanced⟩
        by_cases same : u = t
        · subst same
          simp only [State.goto, if_true, PC.writes, PC.this, Option.some.injEq] at writing
          exact absurd (by rw [writing]) (kept u)
        · simp only [State.goto, same, if_false] at writing ⊢
          exact books.adds u writing
      · cases taken
  | step t =>
      obtain ⟨e, nx, access, rfl⟩ := next_step taken
      exact books.after access
  | reclaim storage =>
      simp only [State.next] at taken
      split at taken
      · cases taken
        exact ⟨layout, ⟨books.accounted.pending, books.accounted.settled, books.accounted.own,
          books.accounted.finished⟩, books.adds, books.balanced⟩
      · cases taken

theorem books_init (hashCode : T → Word) (o : O) : (init hashCode : State T O).Books o where
  layout := layout_init hashCode
  accounted := by constructor <;> simp [init, PC.pending, PC.settled, PC.adding]
  adds := by simp [init, PC.writes, PC.this]
  balanced := by simp [Balanced, total, State.cells, init, applied]

/-! ## Reading -/

/-- An action during a call of `value` on `o` by thread `t`: anything but a change of `o`, or
another call by `t` itself. -/
def Bystander (t : T) (o : O) : Action T O → Prop
  | .add u this _ | .reset u this => u ≠ t ∧ this ≠ o
  | .value u _ => u ≠ t
  | _ => True

/-- The object looks the same in both states. -/
structure Same (s s' : State T O) (o : O) : Prop where
  base : s'.base o = s.base o
  stripes : s'.stripes o = s.stripes o
  cells : s'.cells o = s.cells o
  cell : ∀ c ∈ s.cells o, s'.cell c = s.cell c

theorem Same.trans {s'' : State T O} (first : Same s s' o) (second : Same s' s'' o) :
    Same s s'' o where
  base := second.base.trans first.base
  stripes := second.stripes.trans first.stripes
  cells := second.cells.trans first.cells
  cell c member := (second.cell c (first.cells ▸ member)).trans (first.cell c member)

/-- Where the call of `value` stands, after `n` steps, when the object is as in `s`. -/
def ReadsAt (s : State T O) (o : O) (n : Nat) (result : Word) : PC O → Prop
  | .valueBase this => this = o ∧ n = 0
  | .valueLoad this ret => this = o ∧ ret = s.base o ∧ n ≤ 1
  | .valueSet this ret cur => this = o ∧ ret = s.base o ∧ s.stripes o = some cur ∧ n ≤ 2
  | .valueCheck this ret cur => this = o ∧ ret = s.base o ∧ s.stripes o = some cur ∧ n ≤ 3
  | .valueSize this ret cur => this = o ∧ ret = s.base o ∧ s.stripes o = some cur ∧ n ≤ 4
  | .valueGet this ret cur len i =>
      this = o ∧ ret = s.base o + (((s.cells o).take i).map s.cell).sum ∧
        s.stripes o = some cur ∧ len = (s.cells o).length ∧ i < len ∧ n ≤ 5 + i
  | .valueClear this ret => this = o ∧ ret = s.total o ∧ n ≤ 5 + (s.cells o).length
  | .idle => result = s.total o ∧ n ≤ 6 + (s.cells o).length
  | _ => False

structure Reading (r : State T O) (t : T) (o : O) (n : Nat) (s : State T O) : Prop where
  books : s.Books o
  live : s.live o = true
  quiet : ∀ u, (s.pc u).adding ≠ some o
  same : Same r s o
  here : r.ReadsAt o n (s.result t) (s.pc t)

theorem readsAt_valueLoop {r : State T O} {ret : Word} {cur i n : Nat} {result : Word}
    (sum : ret = r.base o + (((r.cells o).take i).map r.cell).sum)
    (stripes : r.stripes o = some cur) (inside : i ≤ (r.cells o).length) (count : n ≤ 5 + i) :
    r.ReadsAt o n result (valueLoop o ret cur (r.cells o).length i) := by
  simp only [valueLoop]
  split
  · rename_i more
    exact ⟨rfl, sum, stripes, rfl, more, count⟩
  · have all : i = (r.cells o).length := by omega
    rw [all, List.take_length] at sum
    exact ⟨rfl, sum, by omega⟩

/-- The reading thread's own step. -/
theorem readsAt_after {r : State T O} {n : Nat} (layout : s.Layout) (same : Same r s o)
    (here : r.ReadsAt o n (s.result t) (s.pc t)) (access : Access s t (s.pc t) e nx) :
    r.ReadsAt o (n + 1) ((s.after t e nx).result t) (Next.pc nx) := by
  have within := layout.here t
  generalize s.pc t = pc at access here within
  cases access
  case valueBase this =>
      obtain ⟨rfl, rfl⟩ := here
      exact ⟨rfl, same.base, Nat.le_refl _⟩
  case valueEmpty this ret empty =>
      obtain ⟨rfl, rfl, count⟩ := here
      have none_ : r.stripes this = none := same.stripes.symm.trans empty
      refine ⟨?_, by omega⟩
      simp [State.after, ret, total, State.cells, none_]
  case valueLoad this ret cur stripes =>
      obtain ⟨rfl, rfl, count⟩ := here
      exact ⟨rfl, rfl, same.stripes.symm.trans stripes, by omega⟩
  case valueSet this ret cur =>
      obtain ⟨rfl, rfl, stripes, count⟩ := here
      exact ⟨rfl, rfl, stripes, by omega⟩
  case valueSame this ret cur current =>
      obtain ⟨rfl, rfl, stripes, count⟩ := here
      exact ⟨rfl, rfl, stripes, by omega⟩
  case valueAgain this ret cur moved =>
      obtain ⟨rfl, rfl, stripes, count⟩ := here
      exact absurd (same.stripes.trans stripes) moved
  case valueSize this ret cur =>
      obtain ⟨rfl, rfl, stripes, count⟩ := here
      have current : s.stripes this = some cur := same.stripes.trans stripes
      have size : (s.storage cur).size = (r.cells this).length := by
        rw [← same.cells, ← Storage.length_data]
        simp [State.cells, current]
      rw [size]
      exact readsAt_valueLoop (by simp) stripes (Nat.zero_le _) (by omega)
  case valueGet this ret cur len i =>
      obtain ⟨rfl, rfl, stripes, rfl, inside, count⟩ := here
      have current : s.stripes this = some cur := same.stripes.trans stripes
      have data : (s.storage cur).data = r.cells this := by
        rw [← same.cells]
        simp [State.cells, current]
      have get : (s.storage cur).get i = (r.cells this).get ⟨i, inside⟩ := by
        simp [Storage.get, data, List.getElem?_eq_getElem inside]
      refine readsAt_valueLoop ?_ stripes inside (by omega)
      rw [get, same.cell _ (List.get_mem ..), List.take_succ_eq_append_getElem inside,
        List.map_append, List.sum_append]
      simp [add_assoc]
  case valueClear this ret =>
      obtain ⟨rfl, rfl, count⟩ := here
      exact ⟨by simp [State.after, State.ret], by omega⟩
  all_goals cases here

theorem after_result_other (other : u ≠ t) : (s.after t e nx).result u = s.result u := by
  cases nx <;> cases e <;> simp [State.after, State.goto, ret, apply, allocate, other]

theorem Reading.step {r : State T O} {n : Nat} (reading : Reading r t o n s)
    (access : Access s u (s.pc u) e nx) :
    Reading r t o (n + if u = t then 1 else 0) (s.after u e nx) := by
  have elsewhere : (s.pc u).writes ≠ some o := fun writing =>
    reading.quiet u (reading.books.adds u writing)
  obtain ⟨base, stripes, cells, cell⟩ := reading.books.layout.frame access elsewhere
  refine ⟨reading.books.after access, ?_, fun v adding => ?_, reading.same.trans ⟨base, stripes, cells, cell⟩, ?_⟩
  · rw [after_live]; exact reading.live
  · by_cases same : v = u
    · subst same
      rw [after_pc_self] at adding
      exact elsewhere (access_writes access (PC.writes_of_adding adding))
    · rw [after_pc_other same] at adding
      exact reading.quiet v adding
  · by_cases same : u = t
    · subst same
      rw [after_pc_self, if_pos rfl]
      exact readsAt_after reading.books.layout reading.same reading.here access
    · rw [after_pc_other (Ne.symm same), after_result_other (Ne.symm same), if_neg same]
      exact reading.here

/-- Another thread enters a member function. -/
theorem Reading.enter {r : State T O} {n : Nat} (reading : Reading r t o n s) (other : u ≠ t)
    {pc : PC O} (elsewhere : pc.adding ≠ some o) {call : T → Nat} {log : List (Add O)}
    (books : Books { s.goto u pc with call := call, log := log } o) :
    Reading r t o n { s.goto u pc with call := call, log := log } := by
  refine ⟨books, reading.live, fun v adding => ?_, reading.same.trans ⟨rfl, rfl, rfl, fun _ _ => rfl⟩, ?_⟩
  · by_cases same : v = u
    · subst same
      simp only [State.goto, if_true] at adding
      exact elsewhere adding
    · simp only [State.goto, same, if_false] at adding
      exact reading.quiet v adding
  · simpa [State.goto, Ne.symm other] using reading.here

theorem Reading.next [Fintype T] {r : State T O} {n : Nat} (reading : Reading r t o n s)
    {a : Action T O} (bystander : Bystander t o a) (taken : s.next a = some s') :
    Reading r t o (n + if a = .step t then 1 else 0) s' := by
  have kept : ∀ u, a ≠ .reset u o := by
    rintro u rfl
    exact bystander.2 rfl
  have books := reading.books.next kept taken
  cases a with
  | make this k =>
      simp only [State.next] at taken
      split at taken
      · cases taken
      · rename_i notLive
        cases taken
        have other : o ≠ this := by rintro rfl; exact notLive reading.live
        have layout := reading.books.layout
        refine ⟨books, ?_, ?_, reading.same.trans ?_, ?_⟩
        · cases k <;> simp [State.make, other, reading.live]
        · cases k <;> exact reading.quiet
        · cases k with
          | none => exact ⟨rfl, rfl, rfl, fun _ _ => rfl⟩
          | some k =>
              have stripes : (s.make this (some k)).stripes o = s.stripes o := by
                simp [State.make, other]
              refine ⟨rfl, stripes, layout.cells_after stripes fun a old => ?_, fun c member => ?_⟩
              · simp [State.make, allocate, Nat.ne_of_lt old]
              · simp [State.make, allocate, Nat.not_le.2 (layout.cells_bound member)]
        · cases k <;> exact reading.here
  | add u this value =>
      simp only [State.next] at taken
      split at taken
      · cases taken
        exact reading.enter bystander.1 (by simpa [PC.adding] using bystander.2) books
      · cases taken
  | value u this =>
      simp only [State.next] at taken
      split at taken
      · cases taken
        exact reading.enter bystander (by simp [PC.adding]) books
      · cases taken
  | reset u this =>
      simp only [State.next] at taken
      split at taken
      · cases taken
        exact reading.enter bystander.1 (by simp [PC.adding]) books
      · cases taken
  | step u =>
      obtain ⟨e, nx, access, rfl⟩ := next_step taken
      simpa using reading.step access
  | reclaim storage =>
      simp only [State.next] at taken
      split at taken
      · cases taken
        exact ⟨books, reading.live, reading.quiet, reading.same.trans ⟨rfl, rfl, rfl, fun _ _ => rfl⟩,
          reading.here⟩
      · cases taken

theorem Reading.run [Fintype T] {r : State T O} {n : Nat} {as : List (Action T O)}
    (reading : Reading r t o n s) (bystanders : ∀ a ∈ as, Bystander t o a)
    (ran : Theory.run State.next s as = some s') : Reading r t o (n + as.count (.step t)) s' := by
  induction as generalizing s n with
  | nil =>
      simp only [Theory.run_nil, Option.some.injEq] at ran
      exact ran ▸ reading
  | cons a rest ih =>
      obtain ⟨mid, taken, ran⟩ := Theory.run_cons_eq_some.1 ran
      have reading := ih (reading.next (bystanders a (List.mem_cons_self ..)) taken)
        (fun b inRest => bystanders b (List.mem_cons_of_mem _ inRest)) ran
      have count : (a :: rest).count (.step t) =
          (if a = .step t then 1 else 0) + rest.count (.step t) := by
        rw [List.count_cons, Nat.add_comm]
        simp
      rw [count, ← Nat.add_assoc]
      exact reading

/-- A call of `value` is never stuck. -/
theorem readsAt_progress [Fintype T] {r : State T O} {n : Nat} {result : Word}
    (here : r.ReadsAt o n result (s.pc t)) (running : s.pc t ≠ .idle) :
    (s.next (.step t)).isSome := by
  have planned : (s.plan t (s.pc t)).isSome := by
    cases pc : s.pc t <;> rw [pc] at here running <;> simp only [plan] <;>
      first | rfl | exact here.elim | exact absurd rfl running | (split <;> rfl)
  obtain ⟨⟨e, nx⟩, planned⟩ := Option.isSome_iff_exists.1 planned
  simp [State.next, planned]

/-- Every entry is that of a running call, or of one that has made its swap and returned. -/
theorem Accounted.entry (accounted : s.Accounted) {e : Add O} (member : e ∈ s.log) :
    (e.swaps = 1 ∧ e.returned = true) ∨
      ((∃ t, (s.pc t).adding = some e.this) ∧ e.swaps ≤ 1 ∧ e.returned = false) := by
  obtain ⟨i, inside, found⟩ := List.getElem_of_mem member
  have found : s.log[i]? = some e := by rw [List.getElem?_eq_getElem inside, found]
  by_cases running : ∃ t, (s.pc t).adding ≠ none ∧ s.call t = i
  · obtain ⟨t, busy, rfl⟩ := running
    obtain ⟨o, adding⟩ := Option.ne_none_iff_exists'.1 busy
    rcases PC.adding_iff.1 adding with ⟨v, pending⟩ | settled
    · cases (accounted.pending t o v pending).symm.trans found
      exact .inr ⟨⟨t, adding⟩, Nat.zero_le _, rfl⟩
    · obtain ⟨v, mine⟩ := accounted.settled t o settled
      cases mine.symm.trans found
      exact .inr ⟨⟨t, adding⟩, Nat.le_refl _, rfl⟩
  · exact .inl (accounted.finished i e found fun t busy same => running ⟨t, busy, same⟩)

theorem readsAt_bound {r : State T O} {n : Nat} {result : Word} {pc : PC O}
    (here : r.ReadsAt o n result pc) : n ≤ 6 + (r.cells o).length := by
  cases pc <;> simp only [ReadsAt] at here <;> omega

/-- **No lost or duplicated update.** Take any run from a fresh system: constructors, calls and
steps of any threads in any order, deletions of retired storages at any time. In the state
it reaches, for every object that is not reset,

* the base plus the cells of the current storage is, modulo 2^64, the sum of the deltas of
  exactly those calls of `add` that have made their swap;
* every call of `add` has made at most one swap, and one that has returned has made one;
* if no `add` on the object is running, a call of `value` that starts now and meets no change
  of the object returns the sum of all deltas. It does return: it is never stuck, and it
  takes at most six steps and one for each cell. -/
theorem add_conserves [Fintype T] {hashCode : T → Word} {as : List (Action T O)}
    (ran : Theory.run next (init hashCode) as = some s) (kept : ∀ t, .reset t o ∉ as) :
    s.total o = applied s.log o ∧
    (∀ e ∈ s.log, e.swaps ≤ 1 ∧ (e.returned = true → e.swaps = 1)) ∧
    ((∀ u, (s.pc u).adding ≠ some o) → ∀ (t : T) (bs : List (Action T O)) (s' : State T O),
      Theory.run next s (.value t o :: bs) = some s' → (∀ a ∈ bs, Bystander t o a) →
      (s'.pc t = .idle → s'.result t = added s.log o) ∧
      (s'.pc t ≠ .idle → (s'.next (.step t)).isSome) ∧
      bs.count (.step t) ≤ 6 + (s.cells o).length) := by
  have books : s.Books o := by
    have met : Theory.Along next (fun _ a => ∀ t, a ≠ .reset t o) (init hashCode) as :=
      Theory.along_of_forall fun a member t same => kept t (same ▸ member)
    exact Theory.run_along (P := fun s => s.Books o)
      (fun s a s' books kept taken => books.next kept taken) (books_init hashCode o) met ran
  refine ⟨books.balanced, fun e member => ?_, fun quiet t bs s' ran bystanders => ?_⟩
  · rcases books.accounted.entry member with ⟨one, -⟩ | ⟨-, most, running⟩
    · exact ⟨Nat.le_of_eq one, fun _ => one⟩
    · exact ⟨most, fun returned => by rw [running] at returned; cases returned⟩
  · obtain ⟨mid, taken, ran⟩ := Theory.run_cons_eq_some.1 ran
    have start : Reading s t o 0 mid := by
      have books := books.next (by simp) taken
      simp only [State.next] at taken
      split at taken
      · rename_i enabled
        cases taken
        refine ⟨books, enabled.2, fun v adding => ?_, ⟨rfl, rfl, rfl, fun _ _ => rfl⟩, ?_⟩
        · by_cases same : v = t
          · subst same
            simp [State.goto, PC.adding] at adding
          · simp only [State.goto, same, if_false] at adding
            exact quiet v adding
        · simp [State.goto, ReadsAt]
      · cases taken
    have reading := start.run bystanders ran
    have sum : s.total o = added s.log o := by
      rw [books.balanced]
      refine applied_eq_added fun e member here => ?_
      rcases books.accounted.entry member with ⟨one, -⟩ | ⟨⟨u, adding⟩, -⟩
      · omega
      · exact absurd (here ▸ adding) (quiet u)
    refine ⟨fun idle => ?_, readsAt_progress reading.here, ?_⟩
    · have here := reading.here
      rw [idle] at here
      rw [← sum]
      exact here.1
    · have := readsAt_bound reading.here
      omega

/-- Thread 1 takes the base from under thread 0, which then creates the stripes. -/
theorem add_conserves_contended :
    ∃ s : State (Fin 2) Unit, Theory.run next (init fun _ => 0)
      (.make () none :: .add 0 () 1 :: .step 0 :: .step 0 :: .add 1 () 2 :: .step 1 :: .step 1 ::
        .step 1 :: List.replicate 7 (.step 0)) = some s ∧
      s.total () = applied s.log () ∧ applied s.log () = 3 := by
  have taken : (Theory.run next (init fun _ => 0 : State (Fin 2) Unit)
      (.make () none :: .add 0 () 1 :: .step 0 :: .step 0 :: .add 1 () 2 :: .step 1 :: .step 1 ::
        .step 1 :: List.replicate 7 (.step 0))).map (fun s => applied s.log ()) = some 3 := by
    decide +kernel
  obtain ⟨s, ran, sum⟩ := Option.map_eq_some_iff.1 taken
  exact ⟨s, ran, (add_conserves ran (by decide)).1, sum⟩

end State

end Ccmetrics.Striped
