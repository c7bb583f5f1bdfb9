/-
# Striped.Layout -- which cells belong to which object

Every storage an adder can hold, however stale, has a prefix of the cells of the storage
that `stripes_` points to now (`Within`). Cells of a storage that is not yet published are
zero and known to its creator only (`Layout.draft`). Both survive every step because a
storage never changes its cells (`Extends`).
-/
import Ccmetrics.Striped.Machine

namespace Ccmetrics.Striped.State

set_option autoImplicit false
set_option linter.unusedSectionVars false

variable {T O : Type} [DecidableEq T] [DecidableEq O]
variable {s s' : State T O} {t u : T} {e : Effect O} {nx : Next O} {o : O}

/-! ## The fields of a state after a step -/

section Fields

def Next.pc : Next O → PC O
  | .goto pc => pc
  | .ret _ => .idle

@[simp] theorem Next.pc_goto (pc : PC O) : Next.pc (.goto pc) = pc := rfl
@[simp] theorem Next.pc_ret (value : Word) : Next.pc (.ret value : Next O) = .idle := rfl

theorem apply_pc (e : Effect O) : (s.apply t e).pc = s.pc := by
  cases e <;> rfl

theorem after_pc_self : (s.after t e nx).pc t = Next.pc nx := by
  cases nx <;> simp [after, goto, ret]

theorem after_pc_other (other : u ≠ t) : (s.after t e nx).pc u = s.pc u := by
  cases nx <;> simp [after, goto, ret, other, apply_pc]

@[simp] theorem after_stripes : (s.after t e nx).stripes = (s.apply t e).stripes := by
  cases nx <;> rfl

@[simp] theorem after_storage : (s.after t e nx).storage = (s.apply t e).storage := by
  cases nx <;> rfl

@[simp] theorem after_freshStorage :
    (s.after t e nx).freshStorage = (s.apply t e).freshStorage := by
  cases nx <;> rfl

@[simp] theorem after_cell : (s.after t e nx).cell = (s.apply t e).cell := by
  cases nx <;> rfl

@[simp] theorem after_freshCell : (s.after t e nx).freshCell = (s.apply t e).freshCell := by
  cases nx <;> rfl

@[simp] theorem after_live : (s.after t e nx).live = s.live := by
  cases nx <;> cases e <;> rfl

@[simp] theorem after_base : (s.after t e nx).base = (s.apply t e).base := by
  cases nx <;> rfl

@[simp] theorem after_slot : (s.after t e nx).slot = (s.apply t e).slot := by
  cases nx <;> rfl

@[simp] theorem after_retired : (s.after t e nx).retired = (s.apply t e).retired := by
  cases nx <;> rfl

@[simp] theorem after_deleted : (s.after t e nx).deleted = (s.apply t e).deleted := by
  cases nx <;> rfl

@[simp] theorem after_call : (s.after t e nx).call = (s.apply t e).call := by
  cases nx <;> rfl

end Fields

/-! ## Cells -/

/-- The cells of the storage that `stripes_` points to. -/
def cells (s : State T O) (o : O) : List Nat :=
  match s.stripes o with
  | none => []
  | some a => (s.storage a).data

/-- `a` is a storage of `o`, perhaps one that has been replaced. -/
def Within (s : State T O) (o : O) (a : Nat) : Prop :=
  a < s.freshStorage ∧ (s.storage a).data <+: s.cells o

/-- The cells that a thread has allocated and not yet published. -/
def draft (s : State T O) (t : T) : List Nat :=
  match s.pc t with
  | .slowPublish _ cur => (s.storage cur).data
  | .slowSwap _ cur next => (s.storage next).data.drop (s.storage cur).size
  | _ => []

/-- What a thread knows at each point of its member function. -/
def Local (s : State T O) : PC O → Prop
  | .addSize this _ cur => s.Within this cur
  | .addGet this _ cur idx => s.Within this cur ∧ idx < (s.storage cur).size
  | .addCas this _ cur slot _ => s.Within this cur ∧ slot ∈ (s.storage cur).data
  | .slowNew f => f.load = true
  | .slowPublish f cur => f.load = true ∧ cur < s.freshStorage
  | .slowSize f cur | .slowGrow f cur | .slowExpand f cur | .slowRetire f cur =>
      s.Within f.this cur
  | .slowGet f cur idx | .slowCas f cur idx _ =>
      s.Within f.this cur ∧ idx < (s.storage cur).size
  | .slowSwap f cur next =>
      s.Within f.this cur ∧ next < s.freshStorage ∧ (s.storage cur).data <+: (s.storage next).data
  | .load site | .loadSet site _ | .loadCheck site _ =>
      match site with
      | .add this _ => s.stripes this ≠ none
      | .slow f => s.stripes f.this ≠ none
      | .reset _ => True
  | .valueSize this _ cur | .resetSize this cur => s.Within this cur
  | .valueGet this _ cur len i | .resetGet this cur len i =>
      s.Within this cur ∧ i < len ∧ len = (s.storage cur).size
  | .fault => False
  | _ => True

/-- Nothing that is known to a thread is ever taken back. -/
structure Extends (s s' : State T O) : Prop where
  fresh : s.freshStorage ≤ s'.freshStorage
  data : ∀ a < s.freshStorage, (s'.storage a).data = (s.storage a).data
  cells : ∀ o, s.cells o <+: s'.cells o
  stripes : ∀ o, s.stripes o ≠ none → s'.stripes o ≠ none

theorem Extends.size (grows : Extends s s') {a : Nat} (old : a < s.freshStorage) :
    (s'.storage a).size = (s.storage a).size := by
  rw [← Storage.length_data, ← Storage.length_data, grows.data a old]

theorem Extends.within (grows : Extends s s') {a : Nat} (within : s.Within o a) :
    s'.Within o a :=
  ⟨Nat.lt_of_lt_of_le within.1 grows.fresh,
    by rw [grows.data a within.1]; exact within.2.trans (grows.cells o)⟩

theorem Extends.local (grows : Extends s s') {pc : PC O} (here : s.Local pc) : s'.Local pc := by
  cases pc with
  | addSize | slowSize | slowGrow | slowExpand | slowRetire | valueSize | resetSize =>
      exact grows.within here
  | addGet | slowGet | slowCas =>
      exact ⟨grows.within here.1, by rw [grows.size here.1.1]; exact here.2⟩
  | addCas => exact ⟨grows.within here.1, by rw [grows.data _ here.1.1]; exact here.2⟩
  | slowPublish => exact ⟨here.1, Nat.lt_of_lt_of_le here.2 grows.fresh⟩
  | slowSwap f cur next =>
      refine ⟨grows.within here.1, Nat.lt_of_lt_of_le here.2.1 grows.fresh, ?_⟩
      rw [grows.data _ here.1.1, grows.data _ here.2.1]
      exact here.2.2
  | load site | loadSet site | loadCheck site =>
      cases site with
      | add this value => exact grows.stripes _ here
      | slow f => exact grows.stripes _ here
      | reset this => trivial
  | valueGet | resetGet =>
      exact ⟨grows.within here.1, here.2.1, by rw [grows.size here.1.1]; exact here.2.2⟩
  | _ => exact here

theorem Within.stripes {a : Nat} (within : s.Within o a) : s.stripes o ≠ none := by
  intro empty
  have none_ : (s.storage a).data = [] := by
    have := within.2
    simp only [State.cells, empty] at this
    exact List.prefix_nil.1 this
  have := (s.storage a).size_pos
  rw [← Storage.length_data, none_] at this
  exact absurd this (by simp)

/-! ## The invariant -/

structure Layout (s : State T O) : Prop where
  issued : ∀ o a, s.stripes o = some a → a < s.freshStorage
  bound : ∀ a < s.freshStorage, ∀ c ∈ (s.storage a).data, c < s.freshCell
  nodup : ∀ a < s.freshStorage, (s.storage a).data.Nodup
  apart : ∀ o o', o ≠ o' → ∀ c ∈ s.cells o, c ∉ s.cells o'
  draft : ∀ t, ∀ c ∈ s.draft t, s.cell c = 0 ∧ (∀ o, c ∉ s.cells o) ∧ ∀ u ≠ t, c ∉ s.draft u
  here : ∀ t, s.Local (s.pc t)
  alive : ∀ t o, (s.pc t).this = some o → s.live o = true
  unborn : ∀ o, s.live o = false → s.stripes o = none

theorem apply_data {a : Nat} (old : a < s.freshStorage) (e : Effect O) :
    ((s.apply t e).storage a).data = (s.storage a).data := by
  have notNew : a ≠ s.freshStorage := Nat.ne_of_lt old
  cases e with
  | delete storage disavow => simp only [apply]; split <;> rfl
  | retire storage => simp only [apply]; split <;> rfl
  | create | expand => simp [apply, allocate, notNew]
  | _ => rfl

theorem apply_freshStorage (e : Effect O) : s.freshStorage ≤ (s.apply t e).freshStorage := by
  cases e <;> simp [apply, allocate]

theorem apply_stripes (e : Effect O) :
    (s.apply t e).stripes o =
      (match e with
      | .stripes this a => if o = this then some a else s.stripes o
      | _ => s.stripes o) := by
  cases e <;> rfl

/-- The two rules that change `stripes_`, with what they publish. -/
theorem access_stripes {this : O} {a : Nat} {pc : PC O}
    (access : Access s t pc (.stripes this a) nx) :
    (∃ f, this = f.this ∧ pc = .slowPublish f a ∧ s.stripes f.this = none ∧
      nx = .goto (.slowSize { f with load := false } a)) ∨
    ∃ f cur, this = f.this ∧ pc = .slowSwap f cur a ∧ s.stripes f.this = some cur ∧
      nx = .goto (.slowRetire f cur) := by
  cases access with
  | slowPublished f _ empty => exact .inl ⟨f, rfl, rfl, empty, rfl⟩
  | slowGrown f cur _ same => exact .inr ⟨f, cur, rfl, rfl, same, rfl⟩

theorem Layout.cells_after (layout : s.Layout)
    (same : s'.stripes o = s.stripes o)
    (data : ∀ a < s.freshStorage, (s'.storage a).data = (s.storage a).data) :
    s'.cells o = s.cells o := by
  have issued := layout.issued o
  simp only [cells, same]
  cases stripes : s.stripes o with
  | none => rfl
  | some a => exact data a (issued a stripes)

theorem Layout.extends (layout : s.Layout) (access : Access s t (s.pc t) e nx) :
    Extends s (s.after t e nx) where
  fresh := by rw [after_freshStorage]; exact apply_freshStorage e
  data a old := by rw [after_storage]; exact apply_data old e
  cells o := by
    have data : ∀ a < s.freshStorage,
        ((s.after t e nx).storage a).data = (s.storage a).data := by
      intro a old
      rw [after_storage]
      exact apply_data old e
    by_cases published : ∃ a, e = .stripes o a
    · obtain ⟨a, rfl⟩ := published
      have here := layout.here t
      have now : (s.after t (.stripes o a) nx).cells o = (s.storage a).data := by
        simp [State.cells, apply]
      rw [now]
      rcases access_stripes access with ⟨f, rfl, -, empty, -⟩ | ⟨f, cur, rfl, pc, same, -⟩
      · simp [State.cells, empty]
      · rw [pc] at here
        simpa [State.cells, same] using here.2.2
    · rw [layout.cells_after _ data]
      rw [after_stripes, apply_stripes]
      cases e with
      | stripes this a =>
          have : o ≠ this := by rintro rfl; exact published ⟨a, rfl⟩
          simp [this]
      | _ => rfl
  stripes o known := by
    rw [after_stripes, apply_stripes]
    cases e with
    | stripes this a => simp only; split <;> simp [known]
    | _ => exact known

theorem local_slowTop {f : Slow O} {cur : Nat} (within : s.Within f.this cur) :
    s.Local (slowTop f (some cur)) := by
  simp only [slowTop]
  split
  · exact within.stripes
  · exact within

theorem Layout.within (layout : s.Layout) {a : Nat} (current : s.stripes o = some a) :
    s.Within o a :=
  ⟨layout.issued o a current, by simp [State.cells, current]⟩

theorem local_loaded (layout : s.Layout) {site : Site O}
    (here : s.Local (.loadCheck site (s.stripes site.this))) :
    s.Local (Next.pc (loaded site (s.stripes site.this))) := by
  cases stripes : s.stripes site.this with
  | none =>
      cases site with
      | add this value => exact here stripes
      | slow f => exact here stripes
      | reset this => trivial
  | some a =>
      have within := layout.within stripes
      cases site with
      | add this value => exact within
      | slow f => exact within
      | reset this => exact within

theorem local_valueLoop {this : O} {ret : Word} {cur i : Nat} (within : s.Within this cur) :
    s.Local (valueLoop this ret cur (s.storage cur).size i) := by
  simp only [valueLoop]
  split
  · rename_i inside
    exact ⟨within, inside, rfl⟩
  · trivial

theorem local_resetLoop {this : O} {cur i : Nat} (within : s.Within this cur) :
    s.Local (resetLoop this cur (s.storage cur).size i) := by
  simp only [resetLoop]
  split
  · rename_i inside
    exact ⟨within, inside, rfl⟩
  · trivial

theorem Layout.local_after (layout : s.Layout) (access : Access s t (s.pc t) e nx) :
    (s.after t e nx).Local (Next.pc nx) := by
  have grows := layout.extends access
  have here := layout.here t
  generalize s.pc t = pc at access here
  cases access
  case addBaseWon | addClear | slowClear | valueEmpty | valueClear | resetClear => trivial
  case addEmpty | addBase | valueBase | valueLoad | valueSet | valueAgain | resetBase => trivial
  case addBaseLost => rfl
  case addStriped stripes => exact grows.local (by simp [Local, stripes])
  case addSize => exact grows.local ⟨here, Storage.index_lt _ _⟩
  case addGet => exact grows.local ⟨here.1, Storage.get_mem here.2⟩
  case addWon => trivial
  case addLost => exact grows.local here.1.stripes
  case slowNew f =>
      exact ⟨here, by simp [apply, allocate]⟩
  case slowPublished f cur empty =>
      exact ⟨here.2, by simp [State.cells, apply]⟩
  case slowLate f cur late =>
      simp only [slowTop, here.1, if_true, Next.pc_goto]
      have loads : s.Local (.load (.slow f)) := late
      exact grows.local loads
  case slowSize => exact grows.local ⟨here, Storage.index_lt _ _⟩
  case slowGet => exact grows.local here
  case slowWon => trivial
  case slowContended => exact grows.local here.1
  case slowRehash f cur idx expected =>
      exact grows.local (local_slowTop (f := { f with contended := true }) here.1)
  case slowSmall => exact grows.local here
  case slowFull => exact grows.local (local_slowTop here)
  case slowExpand f cur =>
      refine ⟨grows.within here, by simp [apply, allocate], ?_⟩
      have old : cur ≠ s.freshStorage := Nat.ne_of_lt here.1
      simp [apply, allocate, old, Storage.expand]
  case slowGrown => exact grows.local here.1
  case slowRaced f cur next raced =>
      cases stripes : s.stripes f.this with
      | none => exact absurd stripes here.1.stripes
      | some a => exact grows.local (local_slowTop (layout.within stripes))
  case slowRetire => exact grows.local (local_slowTop here)
  case load => exact grows.local here
  case loadSet => exact grows.local here
  case loadSame site => exact grows.local (local_loaded layout here)
  case loadAgain => exact grows.local here
  case valueSame stripes => exact grows.local (layout.within stripes)
  case valueSize => exact grows.local (local_valueLoop here)
  case valueGet =>
      obtain ⟨within, -, rfl⟩ := here
      exact grows.local (local_valueLoop within)
  case resetSize => exact grows.local (local_resetLoop here)
  case resetGet =>
      obtain ⟨within, -, rfl⟩ := here
      exact grows.local (local_resetLoop within)

/-- The rules after which a thread has cells of its own. -/
theorem access_draft {pc : PC O} (access : Access s t pc e nx) :
    (∃ f, pc = .slowNew f ∧ e = .create ∧ nx = .goto (.slowPublish f s.freshStorage)) ∨
    (∃ f cur, pc = .slowExpand f cur ∧ e = .expand cur ∧
      nx = .goto (.slowSwap f cur s.freshStorage)) ∨
    ((∀ f cur, Next.pc nx ≠ .slowPublish f cur) ∧ ∀ f cur next, Next.pc nx ≠ .slowSwap f cur next) := by
  cases access
  case slowNew f => exact .inl ⟨f, rfl, rfl, rfl⟩
  case slowExpand f cur => exact .inr (.inl ⟨f, cur, rfl, rfl, rfl⟩)
  case slowLate | slowRehash | slowFull | slowRetire =>
      refine .inr (.inr ?_)
      simp only [slowTop, Next.pc_goto]
      split <;> simp
  case slowRaced f cur next raced =>
      refine .inr (.inr ?_)
      cases s.stripes f.this <;> simp only [slowTop, Next.pc_goto] <;> (try split) <;> simp
  case loadSame site =>
      refine .inr (.inr ?_)
      cases site <;> cases s.stripes _ <;> simp [loaded]
  case valueSize | valueGet =>
      refine .inr (.inr ?_)
      simp only [valueLoop, Next.pc_goto]
      split <;> simp
  case resetSize | resetGet =>
      refine .inr (.inr ?_)
      simp only [resetLoop, Next.pc_goto]
      split <;> simp
  all_goals exact .inr (.inr (by simp))

/-- A member function stays on its object. -/
theorem access_this {pc : PC O} (access : Access s t pc e nx) :
    (Next.pc nx).this = pc.this ∨ (Next.pc nx).this = none := by
  cases access
  case slowLate | slowRehash | slowFull | slowRetire =>
      simp only [slowTop, Next.pc_goto]
      split <;> exact .inl rfl
  case slowRaced f cur next raced =>
      cases s.stripes f.this <;> simp only [slowTop, Next.pc_goto] <;> (try split) <;>
        exact .inl rfl
  case loadSame site =>
      cases site <;> cases s.stripes _ <;> simp [loaded, PC.this, Site.this]
  case valueSize | valueGet =>
      simp only [valueLoop, Next.pc_goto]
      split <;> exact .inl rfl
  case resetSize | resetGet =>
      simp only [resetLoop, Next.pc_goto]
      split <;> exact .inl rfl
  all_goals first | exact .inl rfl | exact .inr rfl

theorem Layout.draft_other (layout : s.Layout) (access : Access s t (s.pc t) e nx)
    (other : u ≠ t) : (s.after t e nx).draft u = s.draft u := by
  have grows := layout.extends access
  have here := layout.here u
  simp only [State.draft, after_pc_other other]
  cases pc : s.pc u with
  | slowPublish f cur =>
      rw [pc] at here
      exact grows.data cur here.2
  | slowSwap f cur next =>
      rw [pc] at here
      simp only [grows.data next here.2.1, grows.size here.1.1]
  | _ => rfl

/-- New cells come from unused memory. -/
theorem Layout.draft_self (layout : s.Layout) (access : Access s t (s.pc t) e nx) {c : Nat}
    (member : c ∈ (s.after t e nx).draft t) :
    s.freshCell ≤ c ∧ ((s.after t e nx).cell c = 0) ∧ ∀ this a, e ≠ .stripes this a := by
  have here := layout.here t
  rcases access_draft access with ⟨f, -, rfl, rfl⟩ | ⟨f, cur, pc, rfl, rfl⟩ | ⟨notNew, notNext⟩
  · simp only [State.draft, after_pc_self, Next.pc_goto, after_storage, apply, allocate,
      if_true, Storage.new, List.mem_cons, List.not_mem_nil, or_false] at member
    have above : s.freshCell ≤ c := by omega
    exact ⟨above, by simp [apply, allocate, above], by simp⟩
  · rw [pc] at here
    have old : cur ≠ s.freshStorage := Nat.ne_of_lt here.1
    simp only [State.draft, after_pc_self, Next.pc_goto, after_storage, apply, allocate,
      if_true, old, if_false, Storage.expand] at member
    rw [List.drop_left' (s.storage cur).length_data, List.mem_range'_1] at member
    exact ⟨member.1, by simp [apply, allocate, member.1], by simp⟩
  · simp only [State.draft, after_pc_self] at member
    cases pc : Next.pc nx with
    | slowPublish f cur => exact absurd pc (notNew f cur)
    | slowSwap f cur next => exact absurd pc (notNext f cur next)
    | _ => simp at member

theorem Layout.mem_cells_after (layout : s.Layout) (access : Access s t (s.pc t) e nx) {c : Nat}
    (member : c ∈ (s.after t e nx).cells o) :
    c ∈ s.cells o ∨ (c ∈ s.draft t ∧ ∃ a, e = .stripes o a) := by
  have here := layout.here t
  by_cases published : ∃ a, e = .stripes o a
  · obtain ⟨a, rfl⟩ := published
    have now : (s.after t (.stripes o a) nx).cells o = (s.storage a).data := by
      simp [State.cells, apply]
    rw [now] at member
    rcases access_stripes access with ⟨f, rfl, pc, -, -⟩ | ⟨f, cur, rfl, pc, same, -⟩
    · exact .inr ⟨by simpa [State.draft, pc] using member, a, rfl⟩
    · rw [pc] at here
      obtain ⟨rest, split⟩ := here.2.2
      rw [← split, List.mem_append] at member
      rcases member with old | new
      · exact .inl (by simpa [State.cells, same] using old)
      · refine .inr ⟨?_, a, rfl⟩
        simp only [State.draft, pc, ← split, List.drop_left' (s.storage cur).length_data]
        exact new
  · left
    have same : (s.after t e nx).stripes o = s.stripes o := by
      rw [after_stripes, apply_stripes]
      cases e with
      | stripes this a =>
          have : o ≠ this := by rintro rfl; exact published ⟨a, rfl⟩
          simp [this]
      | _ => rfl
    rwa [layout.cells_after same (layout.extends access).data] at member

theorem Layout.cells_bound (layout : s.Layout) {c : Nat} (member : c ∈ s.cells o) :
    c < s.freshCell := by
  cases stripes : s.stripes o with
  | none => simp [State.cells, stripes] at member
  | some a =>
      simp only [State.cells, stripes] at member
      exact layout.bound a (layout.issued o a stripes) c member

theorem Layout.draft_bound (layout : s.Layout) {c : Nat} (member : c ∈ s.draft t) :
    c < s.freshCell := by
  have here := layout.here t
  cases pc : s.pc t with
  | slowPublish f cur =>
      rw [pc] at here
      exact layout.bound cur here.2 c (by simpa [State.draft, pc] using member)
  | slowSwap f cur next =>
      rw [pc] at here
      simp only [State.draft, pc] at member
      exact layout.bound next here.2.1 c (List.mem_of_mem_drop member)
  | _ => simp [State.draft, pc] at member

/-- A step writes only cells of the object it works on. -/
theorem Layout.written (layout : s.Layout) (access : Access s t (s.pc t) e nx) {c : Nat}
    (changed : (s.after t e nx).cell c ≠ s.cell c) :
    s.freshCell ≤ c ∨ ∃ o, (s.pc t).writes = some o ∧ c ∈ s.cells o := by
  have here := layout.here t
  rw [after_cell] at changed
  generalize s.pc t = pc at access here
  cases access
  case addWon this value cur slot =>
      simp only [apply, ne_eq, ite_eq_right_iff, Classical.not_imp] at changed
      exact .inr ⟨this, rfl, here.1.2.subset (changed.1 ▸ here.2)⟩
  case slowWon f cur idx =>
      simp only [apply, ne_eq, ite_eq_right_iff, Classical.not_imp] at changed
      exact .inr ⟨f.this, rfl, here.1.2.subset (changed.1 ▸ Storage.get_mem here.2)⟩
  case resetGet this cur len i =>
      simp only [apply, ne_eq, ite_eq_right_iff, Classical.not_imp] at changed
      obtain ⟨within, inside, rfl⟩ := here
      exact .inr ⟨this, rfl, within.2.subset (changed.1 ▸ Storage.get_mem inside)⟩
  case slowNew | slowExpand =>
      simp only [apply, allocate, ne_eq, ite_eq_right_iff, Classical.not_imp] at changed
      exact .inl changed.1
  all_goals exact absurd rfl changed

/-- A storage is an old one, or the new one: two new cells, or those of another and new ones. -/
theorem Layout.allocated (layout : s.Layout) (access : Access s t (s.pc t) e nx) {a : Nat}
    (issued : a < (s.after t e nx).freshStorage) :
    (a < s.freshStorage ∧ ((s.after t e nx).storage a).data = (s.storage a).data ∧
      s.freshCell ≤ (s.after t e nx).freshCell) ∨
    ∃ old n, ((s.after t e nx).storage a).data = old ++ List.range' s.freshCell n ∧
      (s.after t e nx).freshCell = s.freshCell + n ∧ old.Nodup ∧ ∀ c ∈ old, c < s.freshCell := by
  have here := layout.here t
  by_cases known : a < s.freshStorage
  · refine .inl ⟨known, (layout.extends access).data a known, ?_⟩
    rw [after_freshCell]
    cases e <;> simp [apply, allocate]
  · right
    have new : a = s.freshStorage := by
      rw [after_freshStorage] at issued
      cases e <;> simp [apply, allocate] at issued known <;> omega
    subst new
    cases e with
    | create =>
        exact ⟨[], 2, by simp [apply, allocate, Storage.new, List.range'], by simp [apply, allocate],
          List.nodup_nil, by simp⟩
    | expand cur =>
        have pc : ∃ f, s.pc t = .slowExpand f cur := by
          generalize s.pc t = pc at access
          cases access
          exact ⟨_, rfl⟩
        obtain ⟨f, pc⟩ := pc
        rw [pc] at here
        exact ⟨(s.storage cur).data, _, by simp [apply, allocate, Storage.expand]; rfl,
          by simp [apply, allocate], layout.nodup cur here.1, layout.bound cur here.1⟩
    | _ => exact absurd issued (by simp [apply])

theorem Layout.after (layout : s.Layout) (access : Access s t (s.pc t) e nx) :
    (s.after t e nx).Layout where
  issued o a current := by
    have here := layout.here t
    have grows := layout.extends access
    rw [after_stripes, apply_stripes] at current
    refine Nat.lt_of_lt_of_le ?_ grows.fresh
    cases e with
    | stripes this b =>
        simp only at current
        split at current
        · cases current
          rcases access_stripes access with ⟨f, -, pc, -⟩ | ⟨f, cur, -, pc, -⟩
          · rw [pc] at here; exact here.2
          · rw [pc] at here; exact here.2.1
        · exact layout.issued o a current
    | _ => exact layout.issued o a current
  bound a issued c member := by
    rcases layout.allocated access issued with ⟨old, data, grown⟩ | ⟨old, n, data, grown, -, below⟩
    · rw [data] at member
      exact Nat.lt_of_lt_of_le (layout.bound a old c member) grown
    · rw [data, List.mem_append, List.mem_range'_1] at member
      rcases member with inOld | new
      · have := below c inOld
        omega
      · omega
  nodup a issued := by
    rcases layout.allocated access issued with ⟨old, data, -⟩ | ⟨old, n, data, -, nodup, below⟩
    · rw [data]
      exact layout.nodup a old
    · rw [data]
      refine List.Nodup.append nodup List.nodup_range' fun c inOld new => ?_
      have := below c inOld
      have := (List.mem_range'_1.1 new).1
      omega
  apart o o' ne c member member' := by
    rcases layout.mem_cells_after access member with old | ⟨new, a, rfl⟩ <;>
      rcases layout.mem_cells_after access member' with old' | ⟨new', a', same⟩
    · exact layout.apart o o' ne c old old'
    · exact (layout.draft t c new').2.1 o old
    · exact (layout.draft t c new).2.1 o' old'
    · cases same
      exact ne rfl
  draft u c member := by
    by_cases same : u = t
    · subst same
      obtain ⟨above, zero, unpublished⟩ := layout.draft_self access member
      refine ⟨zero, fun o inCells => ?_, fun v other inDraft => ?_⟩
      · rcases layout.mem_cells_after access inCells with old | ⟨-, a, rfl⟩
        · exact absurd (layout.cells_bound old) (Nat.not_lt.2 above)
        · exact unpublished o a rfl
      · rw [layout.draft_other access other] at inDraft
        exact absurd (layout.draft_bound inDraft) (Nat.not_lt.2 above)
    · rw [layout.draft_other access same] at member
      obtain ⟨zero, outside, mine⟩ := layout.draft u c member
      refine ⟨?_, fun o inCells => ?_, fun v other inDraft => ?_⟩
      · by_contra written
        rcases layout.written access (fun eq => written (eq.trans zero)) with above | ⟨o, -, inCells⟩
        · exact absurd (layout.draft_bound member) (Nat.not_lt.2 above)
        · exact outside o inCells
      · rcases layout.mem_cells_after access inCells with old | ⟨drafted, -⟩
        · exact outside o old
        · exact mine t (Ne.symm same) drafted
      · by_cases self : v = t
        · subst self
          obtain ⟨above, -, -⟩ := layout.draft_self access inDraft
          exact absurd (layout.draft_bound member) (Nat.not_lt.2 above)
        · rw [layout.draft_other access self] at inDraft
          exact mine v other inDraft
  here u := by
    by_cases same : u = t
    · subst same
      rw [after_pc_self]
      exact layout.local_after access
    · rw [after_pc_other same]
      exact (layout.extends access).local (layout.here u)

  alive u o running := by
    rw [after_live]
    by_cases same : u = t
    · subst same
      rw [after_pc_self] at running
      rcases access_this access with on | off
      · exact layout.alive u o (on ▸ running)
      · cases off.symm.trans running
    · rw [after_pc_other same] at running
      exact layout.alive u o running
  unborn o dead := by
    rw [after_live] at dead
    rw [after_stripes, apply_stripes]
    cases e with
    | stripes this a =>
        have running : (s.pc t).this = some this := by
          rcases access_stripes access with ⟨f, rfl, pc, -⟩ | ⟨f, cur, rfl, pc, -⟩ <;>
            rw [pc] <;> rfl
        have : o ≠ this := by
          rintro rfl
          rw [layout.alive t o running] at dead
          cases dead
        simpa [this] using layout.unborn o dead
    | _ => exact layout.unborn o dead

/-! ## Calls, constructors and deletions -/

/-- A state with the same memory, in which thread `t` has moved to a harmless point. -/
theorem Layout.moved (layout : s.Layout) (pc : PC O)
    (lives : ∀ o, s.live o = true → s'.live o = true) (sameStripes : s'.stripes = s.stripes)
    (sameStorage : s'.storage = s.storage) (sameFresh : s'.freshStorage = s.freshStorage)
    (sameCell : s'.cell = s.cell) (sameFreshCell : s'.freshCell = s.freshCell)
    (here : ∀ u, s'.pc u = s.pc u ∨ (s'.pc u = pc ∧ s'.draft u = [] ∧ s.Local pc ∧
      ∀ o, pc.this = some o → s.live o = true)) : s'.Layout := by
  have grows : Extends s s' := by
    constructor
    · rw [sameFresh]
    · intro a _; rw [sameStorage]
    · intro o; simp [State.cells, sameStripes, sameStorage]
    · intro o; rw [sameStripes]; exact id
  have cells : s'.cells = s.cells := by
    funext o
    simp [State.cells, sameStripes, sameStorage]
  have draft : ∀ u c, c ∈ s'.draft u → c ∈ s.draft u := by
    intro u c member
    rcases here u with same | ⟨-, none_, -⟩
    · simpa [State.draft, same, sameStorage] using member
    · rw [none_] at member
      simp at member
  constructor
  case issued => rw [sameStripes, sameFresh]; exact layout.issued
  case bound => rw [sameFresh, sameStorage, sameFreshCell]; exact layout.bound
  case nodup => rw [sameFresh, sameStorage]; exact layout.nodup
  case apart => rw [cells]; exact layout.apart
  case draft =>
      intro u c member
      obtain ⟨zero, outside, mine⟩ := layout.draft u c (draft u c member)
      rw [sameCell, cells]
      exact ⟨zero, outside, fun v other inDraft => mine v other (draft v c inDraft)⟩
  case here =>
      intro u
      rcases here u with same | ⟨now, -, local_, -⟩
      · rw [same]; exact grows.local (layout.here u)
      · rw [now]; exact grows.local local_
  case alive =>
      intro u o running
      rcases here u with same | ⟨now, -, -, alive⟩
      · exact lives o (layout.alive u o (same ▸ running))
      · exact lives o (alive o (now ▸ running))
  case unborn =>
      intro o dead
      rw [sameStripes]
      refine layout.unborn o (Bool.eq_false_iff.2 fun live => ?_)
      rw [lives o live] at dead
      cases dead

/-- `Striped64(k)` ends with one run of new cells. -/
theorem growTo_data (storage : Storage) (k base slab : Nat)
    (data : storage.data = List.range' base storage.size) (end_ : slab = base + storage.size) :
    (storage.growTo k slab).data = List.range' base (storage.growTo k slab).size := by
  induction storage, slab using Storage.growTo.induct k with
  | case1 storage slab small ih =>
      rw [Storage.growTo, if_pos small]
      have doubled : storage.size <<< 1 = storage.size + (storage.size <<< 1 - storage.size) := by
        rw [Nat.shiftLeft_eq]
        omega
      refine ih ?_ ?_
      · simp only [Storage.expand, data, end_]
        rw [doubled, Nat.add_sub_cancel_left, List.range'_append_1]
      · simp only [Storage.expand]
        omega
  | case2 storage slab large =>
      rw [Storage.growTo, if_neg large]
      exact data

theorem Layout.make_stripes (layout : s.Layout) (notLive : s.live o ≠ true) {k : Nat}
    {storage : Storage} (built : (Storage.new s.freshCell).growTo k (s.freshCell + 2) = storage) :
    Layout { s.allocate storage storage.size with
      live := fun x => if x = o then true else s.live x
      stripes := fun x => if x = o then some s.freshStorage else s.stripes x } := by
  have data : storage.data = List.range' s.freshCell storage.size := by
    rw [← built]
    exact growTo_data _ k s.freshCell _ (by simp [Storage.new, List.range']) rfl
  have empty : s.stripes o = none := layout.unborn o (by simpa using notLive)
  generalize after : ({ s.allocate storage storage.size with
      live := fun x => if x = o then true else s.live x
      stripes := fun x => if x = o then some s.freshStorage else s.stripes x } : State T O) = s'
  have cellsHere : s'.cells o = List.range' s.freshCell storage.size := by
    rw [← after]
    simpa [State.cells, allocate] using data
  have cellsOther : ∀ x, x ≠ o → s'.cells x = s.cells x := by
    intro x other
    refine layout.cells_after ?_ fun a old => ?_
    · rw [← after]; simp [other]
    · rw [← after]; simp [allocate, Nat.ne_of_lt old]
  have grows : Extends s s' := by
    constructor
    · rw [← after]; simp [allocate]
    · intro a old; rw [← after]; simp [allocate, Nat.ne_of_lt old]
    · intro x
      by_cases same : x = o
      · rw [same]; simp [State.cells, empty]
      · rw [cellsOther x same]
    · intro x known
      rw [← after]
      by_cases same : x = o <;> simp [same, known]
  have draft : ∀ u, s'.draft u = s.draft u := by
    intro u
    have here := layout.here u
    have pc : s'.pc u = s.pc u := by rw [← after]; rfl
    simp only [State.draft, pc]
    cases running : s.pc u with
    | slowPublish f cur => rw [running] at here; exact grows.data cur here.2
    | slowSwap f cur next =>
        rw [running] at here
        simp only [grows.data next here.2.1, grows.size here.1.1]
    | _ => rfl
  have bounded : ∀ x c, c ∈ s'.cells x →
      (x = o ∧ s.freshCell ≤ c) ∨ (x ≠ o ∧ c ∈ s.cells x) := by
    intro x c member
    by_cases same : x = o
    · rw [same, cellsHere, List.mem_range'_1] at member
      exact .inl ⟨same, member.1⟩
    · rw [cellsOther x same] at member
      exact .inr ⟨same, member⟩
  constructor
  case issued =>
      intro x a current
      by_cases same : x = o
      · rw [← after] at current ⊢
        simp only [same, if_true, Option.some.injEq] at current
        simp [allocate, ← current]
      · refine Nat.lt_of_lt_of_le (layout.issued x a ?_) grows.fresh
        rw [← after] at current
        simpa [same] using current
  case bound =>
      intro a issued c member
      rw [← after] at issued member ⊢
      simp only [allocate] at issued member ⊢
      split at member
      · rw [data, List.mem_range'_1] at member
        exact member.2
      · have := layout.bound a (by omega) c member
        omega
  case nodup =>
      intro a issued
      rw [← after] at issued ⊢
      simp only [allocate] at issued ⊢
      split
      · rw [data]; exact List.nodup_range'
      · exact layout.nodup a (by omega)
  case apart =>
      intro x x' ne c member member'
      rcases bounded x c member with ⟨rfl, above⟩ | ⟨other, old⟩ <;>
        rcases bounded x' c member' with ⟨rfl, above'⟩ | ⟨other', old'⟩
      · exact ne rfl
      · exact absurd (layout.cells_bound old') (Nat.not_lt.2 above)
      · exact absurd (layout.cells_bound old) (Nat.not_lt.2 above')
      · exact layout.apart x x' ne c old old'
  case draft =>
      intro u c member
      rw [draft] at member
      obtain ⟨zero, outside, mine⟩ := layout.draft u c member
      refine ⟨?_, fun x inCells => ?_, fun v other => by rw [draft]; exact mine v other⟩
      · rw [← after]; simp [allocate, zero]
      · rcases bounded x c inCells with ⟨-, above⟩ | ⟨-, old⟩
        · exact absurd (layout.draft_bound member) (Nat.not_lt.2 above)
        · exact outside x old
  case here =>
      intro u
      have pc : s'.pc u = s.pc u := by rw [← after]; rfl
      rw [pc]
      exact grows.local (layout.here u)
  case alive =>
      intro u x running
      rw [← after] at running ⊢
      simp only
      split
      · rfl
      · exact layout.alive u x running
  case unborn =>
      intro x dead
      rw [← after] at dead ⊢
      by_cases same : x = o
      · simp [same] at dead
      · simp only [same, if_false] at dead ⊢
        exact layout.unborn x dead

theorem Layout.goto (layout : s.Layout) (pc : PC O) (starts : ∀ o, pc.this = some o → s.live o = true)
    (here : s.Local pc) (plain : (∀ f cur, pc ≠ .slowPublish f cur) ∧
      ∀ f cur next, pc ≠ .slowSwap f cur next) (call : T → Nat) (log : List (Add O)) :
    Layout { s.goto t pc with call := call, log := log } := by
  refine layout.moved pc (fun _ => id) rfl rfl rfl rfl rfl fun u => ?_
  by_cases same : u = t
  · subst same
    refine .inr ⟨by simp [State.goto], ?_, here, starts⟩
    simp only [State.draft, State.goto, if_true]
    cases pc with
    | slowPublish f cur => exact absurd rfl (plain.1 f cur)
    | slowSwap f cur next => exact absurd rfl (plain.2 f cur next)
    | _ => rfl
  · exact .inl (by simp [State.goto, same])

theorem Layout.next [Fintype T] (layout : s.Layout) {a : Action T O}
    (taken : s.next a = some s') : s'.Layout := by
  cases a with
  | make this k =>
      simp only [State.next] at taken
      split at taken
      · cases taken
      · rename_i notLive
        cases taken
        cases k with
        | none =>
            refine layout.moved .idle (fun o live => ?_) rfl rfl rfl rfl rfl fun _ => .inl rfl
            simp [make, live]
        | some k => exact layout.make_stripes notLive rfl
  | add t this value =>
      simp only [State.next] at taken
      split at taken
      · rename_i enabled
        cases taken
        exact layout.goto (.addStripes this value) (by rintro _ ⟨⟩; exact enabled.2) trivial
          ⟨by simp, by simp⟩ _ _
      · cases taken
  | value t this =>
      simp only [State.next] at taken
      split at taken
      · rename_i enabled
        cases taken
        exact layout.goto (.valueBase this) (by rintro _ ⟨⟩; exact enabled.2) trivial
          ⟨by simp, by simp⟩ _ _
      · cases taken
  | reset t this =>
      simp only [State.next] at taken
      split at taken
      · rename_i enabled
        cases taken
        exact layout.goto (.resetBase this) (by rintro _ ⟨⟩; exact enabled.2) trivial
          ⟨by simp, by simp⟩ _ _
      · cases taken
  | step t =>
      obtain ⟨e, nx, access, rfl⟩ := next_step taken
      exact layout.after access
  | reclaim a =>
      simp only [State.next] at taken
      split at taken
      · cases taken
        exact layout.moved .idle (fun _ => id) rfl rfl rfl rfl rfl fun _ => .inl rfl
      · cases taken

theorem Layout.extends_make (layout : s.Layout) (notLive : s.live o ≠ true) (k : Option Nat) :
    Extends s (s.make o k) := by
  cases k with
  | none => exact ⟨Nat.le_refl _, fun _ _ => rfl, fun _ => List.prefix_rfl, fun _ known => known⟩
  | some k =>
      have empty : s.stripes o = none := layout.unborn o (by simpa using notLive)
      have data : ∀ a < s.freshStorage,
          ((s.make o (some k)).storage a).data = (s.storage a).data := fun a old => by
        simp [make, allocate, Nat.ne_of_lt old]
      refine ⟨by simp [make, allocate], data, fun x => ?_, fun x known => ?_⟩
      · by_cases same : x = o
        · rw [same]
          simp [State.cells, empty]
        · rw [layout.cells_after (by simp [make, same]) data]
      · by_cases same : x = o <;> simp [make, same, known]

/-- No action takes back what a thread knows. -/
theorem Layout.extends_next [Fintype T] (layout : s.Layout) {a : Action T O}
    (taken : s.next a = some s') : Extends s s' := by
  cases a with
  | make this k =>
      simp only [State.next] at taken
      split at taken
      · cases taken
      · rename_i notLive
        cases taken
        exact layout.extends_make notLive k
  | step t =>
      obtain ⟨e, nx, access, rfl⟩ := next_step taken
      exact layout.extends access
  | add | value | reset | reclaim =>
      simp only [State.next] at taken
      split at taken
      · cases taken
        exact ⟨Nat.le_refl _, fun _ _ => rfl, fun _ => List.prefix_rfl, fun _ known => known⟩
      · cases taken

theorem layout_init (hashCode : T → Word) : (init hashCode : State T O).Layout := by
  constructor <;> simp [init, State.cells, State.draft, Local, PC.this]

end Ccmetrics.Striped.State
