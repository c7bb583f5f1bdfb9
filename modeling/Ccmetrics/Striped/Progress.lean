/-
# Striped.Progress -- `add` is lock-free

A compare-and-swap of `add` fails only if the word or the table has changed since it was read. So
each failure is somebody else's success on the same object, and a call of `add` that is not
disturbed any more returns after a few steps of its own.

`left` is how many steps those are at most, in a state. A step of the thread lowers it; a step of
another thread changes it only by changing a word of the object or its table, and the table changes
four times at most. Hence `add_lock_free`: a call of `add` takes no more than 65 steps, and 13 for
each time that somebody else puts a delta into the object or zero into one of its words.
-/
import Ccmetrics.Striped.Reset
import Ccmetrics.Theory.Amortize

namespace Ccmetrics.Striped

set_option autoImplicit false
set_option linter.unusedSectionVars false

variable {T O : Type} [DecidableEq T] [DecidableEq O]

namespace State

variable {s s' : State T O} {t u : T} {e : Effect O} {nx : Next O} {o : O}

/-- How many steps a call of `add` takes at most if nobody else touches the object from now on. -/
def left (s : State T O) : PC O → Nat
  | .addStripes _ _ => 9
  | .addBase _ _ => 2
  | .addBaseCas this _ expected => if s.base this = expected then 1 else 10
  | .addSize _ _ _ | .slowSize _ _ => 4
  | .addGet _ _ _ _ | .slowGet _ _ _ => 3
  | .addCas _ _ _ slot expected => if s.cell slot = expected then 2 else 8
  | .addClear _ | .slowClear _ => 1
  | .slowNew _ => 9
  | .slowPublish _ _ => 8
  | .slowCas _ cur idx expected => if s.cell ((s.storage cur).get idx) = expected then 2 else 13
  | .slowGrow _ _ => 12
  | .slowExpand _ _ => 11
  | .slowSwap _ _ _ => 10
  | .slowRetire _ _ => 8
  | .load _ => 7
  | .loadSet site cur => if cur = s.stripes site.this then 6 else 9
  | .loadCheck site cur => if cur = s.stripes site.this then 5 else 8
  | _ => 0

theorem left_le (pc : PC O) : s.left pc ≤ 13 := by
  cases pc <;> simp only [left] <;> (try split) <;> omega

structure Adding (t : T) (o : O) (s : State T O) : Prop where
  layout : s.Layout
  accounted : s.Accounted
  sized : s.AllSized
  live : s.live o = true
  here : s.pc t = .idle ∨ (s.pc t).adding = some o

theorem left_slowTop (f : Slow O) (cur : Option Nat) : s.left (slowTop f cur) ≤ 9 := by
  cases cur <;> simp only [slowTop] <;> (try split) <;> simp [left]

theorem left_slowTop_some (f : Slow O) (cur : Nat) : s.left (slowTop f (some cur)) ≤ 7 := by
  simp only [slowTop]
  split <;> simp [left]

/-- A step of the call itself. A word that has just been read is up to date. -/
theorem left_after {pc : PC O} (planned : s.plan t pc = some (e, nx))
    (adding : pc.adding = some o) : (s.after t e nx).left (Next.pc nx) < s.left pc := by
  have top := fun f cur => left_slowTop (s := s.after t e nx) f cur
  have top' := fun f cur => left_slowTop_some (s := s.after t e nx) f cur
  cases pc with
  | idle | fault | valueBase | valueLoad | valueSet | valueCheck | valueSize | valueGet | valueClear
  | resetBase | resetSize | resetGet | resetClear => cases adding
  | addBase | addSize | addGet | addClear | slowNew | slowSize | slowGet | slowExpand | slowClear
  | load =>
      cases planned
      simp [left, apply]
  | addStripes this value =>
      simp only [plan] at planned
      split at planned <;> cases planned <;> simp [left]
  | addBaseCas this value expected =>
      simp only [plan] at planned
      split at planned
      · cases planned
        simp [left, *]
      · rename_i changed
        cases planned
        simp [left, changed, slowTop]
  | addCas this value cur slot expected =>
      simp only [plan] at planned
      split at planned
      · cases planned
        simp [left, *]
      · rename_i changed
        cases planned
        have rest := top' ⟨this, value, false, true⟩ cur
        rw [Next.pc_goto, left, if_neg changed]
        omega
  | slowPublish f cur =>
      simp only [plan] at planned
      split at planned
      · cases planned
        simp [left]
      · cases planned
        have rest := top' f cur
        rw [Next.pc_goto, left]
        omega
  | slowCas f cur idx expected =>
      simp only [plan] at planned
      split at planned
      · cases planned
        simp [left, *]
      · rename_i changed
        rw [left, if_neg changed]
        split at planned
        · cases planned
          simp [left]
        · cases planned
          have rest := top' { f with contended := true } cur
          rw [Next.pc_goto]
          omega
  | slowGrow f cur =>
      simp only [plan] at planned
      split at planned
      · cases planned
        simp [left]
      · cases planned
        have rest := top' f cur
        rw [Next.pc_goto, left]
        omega
  | slowSwap f cur next =>
      simp only [plan] at planned
      split at planned
      · cases planned
        simp [left]
      · cases planned
        have rest := top f (s.stripes f.this)
        rw [Next.pc_goto, left]
        omega
  | slowRetire f cur =>
      cases planned
      have rest := top' f cur
      rw [Next.pc_goto, left]
      omega
  | loadSet site cur =>
      cases planned
      simp only [left, Next.pc_goto, after_stripes, apply]
      split <;> omega
  | loadCheck site cur =>
      simp only [plan] at planned
      split at planned
      · rename_i same
        cases planned
        rw [left, if_pos same]
        cases site with
        | add this value => cases cur <;> simp [loaded, left]
        | slow f => cases cur <;> simp [loaded, left]
        | reset this => cases adding
      · rename_i changed
        cases planned
        simp [left, changed]

/-- Somebody else's step that leaves the words and the table of the object alone. -/
theorem left_same {pc : PC O} (adding : pc.adding = some o) (here : s.Local pc)
    (grows : Extends s s') (stripes : s'.stripes o = s.stripes o)
    (words : ∀ p ∈ s.places o, s'.word p = s.word p) : s'.left pc = s.left pc := by
  have base : s'.base o = s.base o := words (.base o) (mem_places_base.2 rfl)
  have cells : ∀ c ∈ s.cells o, s'.cell c = s.cell c := fun c member =>
    words (.cell c) (mem_places_cell.2 member)
  cases pc with
  | addBaseCas this value expected =>
      cases adding
      simp only [left, base]
  | addCas this value cur slot expected =>
      cases adding
      simp only [left, cells slot (here.1.2.subset here.2)]
  | slowCas f cur idx expected =>
      cases adding
      have slot : (s'.storage cur).get idx = (s.storage cur).get idx := by
        rw [Storage.get, Storage.get, grows.data cur here.1.1]
      simp only [left, slot, cells _ (here.1.2.subset (Storage.get_mem here.2))]
  | loadSet site cur | loadCheck site cur =>
      have on : site.this = o := by
        cases site with
        | add | slow => cases adding; rfl
        | reset => cases adding
      simp only [left, on, stripes]
  | _ => rfl

/-- How often a table of `n` cells can still change. -/
def changes (n : Nat) : Nat :=
  if n = 0 then 4 else if n = 1 then 3 else if n < 4 then 2 else if n < 8 then 1 else 0

theorem changes_double {n : Nat} (some_ : 0 < n) (small : n < stripeLimit) :
    changes (2 * n) + 1 ≤ changes n := by
  simp only [stripeLimit] at small
  simp only [changes]
  repeat' split
  all_goals omega

/-- The table of `o` is the same, or it has one change less to come. -/
theorem Table.changes (layout : s.Layout) (grows : Extends s s') (table : Table o s s') :
    s'.stripes o = s.stripes o ∧ s'.cells o = s.cells o ∨
      State.changes (s'.cells o).length + 1 ≤ State.changes (s.cells o).length := by
  rcases table with same | ⟨empty, two⟩ | ⟨cur, current, small, double⟩
  · exact .inl ⟨same, layout.cells_after same grows.data⟩
  · have none_ : (s.cells o).length = 0 := by simp [cells, empty]
    rw [two, none_]
    exact .inr (by decide)
  · have size : (s.cells o).length = (s.storage cur).size := by
      simp [cells, current, Storage.length_data]
    rw [double, size]
    exact .inr (changes_double (s.storage cur).size_pos small)

/-- Somebody else than `t` puts a delta into `o`, or zero into one of its words. -/
def passes (t : T) (o : O) (s : State T O) : Action T O → Nat
  | .step u =>
      if u = t then 0
      else match s.plan u (s.pc u) with
        | some (e, _) => if (s.puts o e).isSome ∨ (s.zeros o e).isSome then 1 else 0
        | none => 0
  | _ => 0

/-- How many steps the call of thread `t` on `o` takes at most, if nobody passes it. -/
def level (t : T) (o : O) (s : State T O) : Nat :=
  s.left (s.pc t) + 13 * changes (s.cells o).length

/-- A call of `add` goes on or returns. -/
theorem adding_after {pc : PC O} (access : Access s t pc e nx) (here : s.Local pc)
    (adding : pc.adding = some o) :
    Next.pc nx = .idle ∨ (Next.pc nx).adding = some o := by
  cases access <;> first | exact .inl rfl | exact .inr adding | (cases adding; done) | skip
  case load site | loadSet site cur | loadAgain site cur => cases site <;> exact .inr adding
  case slowLate | slowRehash | slowFull | slowRetire =>
      simp only [slowTop, Next.pc_goto]
      split <;> exact .inr adding
  case slowRaced f cur next raced =>
      simp only [Next.pc_goto]
      cases s.stripes f.this with
      | none => exact .inr adding
      | some cur =>
          simp only [slowTop]
          split <;> exact .inr adding
  case loadSame site =>
      cases site with
      | reset this => cases adding
      | add this | slow f =>
          cases stripes : s.stripes _ with
          | none => exact absurd stripes here
          | some cur => exact .inr adding

theorem left_idle : s.left .idle = 0 := rfl

theorem Adding.left_eq (adding : Adding t o s) (grows : Extends s s') (same : s'.pc t = s.pc t)
    (stripes : s'.stripes o = s.stripes o) (words : ∀ p ∈ s.places o, s'.word p = s.word p) :
    s'.left (s'.pc t) = s.left (s.pc t) := by
  rw [same]
  rcases adding.here with idle | inside
  · rw [idle, left_idle, left_idle]
  · exact left_same inside (adding.layout.here t) grows stripes words

/-- A step of somebody else. -/
theorem Adding.others (adding : Adding t o s) (access : Access s u (s.pc u) e nx) (other : u ≠ t)
    (planned : s.plan u (s.pc u) = some (e, nx)) :
    level t o (s.after u e nx) ≤ level t o s + 13 * passes t o s (.step u) := by
  have grows := adding.layout.extends access
  have same : (s.after u e nx).pc t = s.pc t := after_pc_other (Ne.symm other)
  have most := left_le (s := s.after u e nx) ((s.after u e nx).pc t)
  rcases (adding.sized.table (o := o) access).changes adding.layout grows with
    ⟨stripes, cells⟩ | fewer
  · rw [level, level, cells]
    cases access_changes adding.layout adding.accounted access o with
    | keeps _ _ _ words =>
        rw [adding.left_eq grows same stripes words]
        omega
    | puts p v puts =>
        simp only [passes, other, planned, puts]
        simp
        omega
    | zeros p _ zeros =>
        simp only [passes, other, planned, zeros]
        simp
        omega
  · rw [level, level]
    omega

theorem Adding.next [Fintype T] (adding : Adding t o s) {a : Action T O} (other : ¬ Enters t a)
    (taken : s.next a = some s') : Adding t o s' ∧
      (if a = .step t then 1 else 0) + level t o s' ≤ level t o s + 13 * passes t o s a := by
  have layout := adding.layout.next taken
  have accounted := adding.accounted.next adding.layout taken
  have sized := adding.sized.next adding.layout taken
  have grows := adding.layout.extends_next taken
  cases a with
  | make this k =>
      simp only [State.next] at taken
      split at taken
      · cases taken
      · rename_i notLive
        cases taken
        have elsewhere : o ≠ this := by
          rintro rfl
          exact notLive adding.live
        have pc : (s.make this k).pc t = s.pc t := by cases k <;> rfl
        have stripes : (s.make this k).stripes o = s.stripes o := by
          cases k <;> simp [State.make, elsewhere]
        have live : (s.make this k).live o = true := by
          cases k <;> simp [State.make, elsewhere, adding.live]
        have cells := adding.layout.cells_after stripes grows.data
        refine ⟨⟨layout, accounted, sized, live, pc ▸ adding.here⟩, ?_⟩
        rw [level, level, cells, adding.left_eq grows pc stripes
          (places_make adding.layout notLive k).1]
        simp
  | add u _ _ | value u _ | reset u _ =>
      simp only [State.next] at taken
      split at taken
      · cases taken
        have same : t ≠ u := fun same => other same.symm
        refine ⟨⟨layout, accounted, sized, adding.live, ?_⟩, ?_⟩
        · simpa [State.goto, same] using adding.here
        · rw [level, level, adding.left_eq grows (by simp [State.goto, same]) rfl fun _ _ => rfl]
          simp [cells, State.goto]
      · cases taken
  | step u =>
      have planned := taken
      simp only [State.next] at planned
      split at planned
      · cases planned
      · rename_i e nx plan
        cases planned
        have access := access_of_plan plan
        have live : (s.after u e nx).live o = true := by
          rw [after_live]
          exact adding.live
        by_cases same : u = t
        · subst same
          have inside : (s.pc u).adding = some o := by
            rcases adding.here with idle | inside
            · rw [idle] at plan
              cases plan
            · exact inside
          have lower := left_after plan inside
          have here : (s.after u e nx).pc u = Next.pc nx := after_pc_self
          rw [← here] at lower
          refine ⟨⟨layout, accounted, sized, live, ?_⟩, ?_⟩
          · rw [after_pc_self]
            exact adding_after access (adding.layout.here u) inside
          · rw [if_pos rfl, level, level]
            rcases (adding.sized.table (o := o) access).changes adding.layout grows with
              ⟨-, cells⟩ | fewer
            · rw [cells]
              omega
            · omega
        · have skip : (Action.step u : Action T O) ≠ .step t := by simpa using same
          refine ⟨⟨layout, accounted, sized, live, ?_⟩, ?_⟩
          · rw [after_pc_other (Ne.symm same)]
            exact adding.here
          · rw [if_neg skip, Nat.zero_add]
            exact adding.others access same plan
  | reclaim storage =>
      simp only [State.next] at taken
      split at taken
      · cases taken
        refine ⟨⟨layout, accounted, sized, adding.live, adding.here⟩, ?_⟩
        rw [level, level, adding.left_eq grows rfl rfl fun _ _ => rfl]
        simp [cells]
      · cases taken

/-- A call of `add` is never stuck. -/
theorem Adding.progress [Fintype T] (adding : Adding t o s) (running : s.pc t ≠ .idle) :
    (s.next (.step t)).isSome := by
  have inside := adding.here.resolve_left running
  have planned : (s.plan t (s.pc t)).isSome := by
    cases pc : s.pc t <;> rw [pc] at inside running <;> simp only [plan] <;>
      first | rfl | cases inside; done | (repeat' split) <;> rfl
  obtain ⟨⟨e, nx⟩, planned⟩ := Option.isSome_iff_exists.1 planned
  simp [State.next, planned]

end State

end Ccmetrics.Striped
