/-
# Striped.Heap -- every slab is deleted exactly once

`Heap` runs the machine of `Striped.Machine` and keeps two lists: the slabs that have been
allocated, with the object they were allocated for, and the pointers that have been passed to
`delete []`. The pointers come from the destructor of `Striped.Slabs` and from the flags of the
storage that is deleted. Retired storages are deleted at any time, `~Striped64` runs when no `add`
on its object is in progress.

Why it adds up: the storage that `stripes_` points to owns all its slabs; a storage that has not
been published owns its last slab; a retired storage owns nothing (`Flags`). So a slab is deleted,
or in the current storage of its object, or the last slab of some thread's new storage
(`Ledger.placed`), and never two of these (`Ledger.gone`).
-/
import Ccmetrics.Striped.Slabs
import Ccmetrics.Striped.Reclaim

namespace Ccmetrics.Striped

set_option autoImplicit false
set_option linter.unusedSectionVars false

variable {T O : Type} [DecidableEq T] [DecidableEq O]

/-! ## The flags of a storage -/

namespace State

variable {s s' : State T O} {t u : T} {e : Effect O} {nx : Next O} {o : O}

/-- Which storages own their slabs. -/
structure Flags (s : State T O) : Prop where
  current : ∀ o a, s.stripes o = some a → (s.storage a).owner = true
  drafted : ∀ t a, (s.pc t).drafts = some a →
    a < s.freshStorage ∧ (s.storage a).owner = true ∧ (s.storage a).cleanCreated = true ∧
      (∀ o, s.stripes o ≠ some a) ∧ ∀ u, (s.pc u).drafts = some a → u = t
  retiring : ∀ t f a, s.pc t = .slowRetire f a →
    (∀ o, s.stripes o ≠ some a) ∧ ∀ u, (s.pc u).drafts ≠ some a
  retired : ∀ a ∈ s.retired, a < s.freshStorage ∧ (s.storage a).owner = false ∧
    (s.storage a).cleanCreated = false

theorem apply_storage {a : Nat} (old : a < s.freshStorage) (e : Effect O) :
    (s.apply t e).storage a =
      (match e with
      | .delete b disavow => if a = b ∧ disavow = true then (s.storage a).disavow else s.storage a
      | .retire b => if a = b then (s.storage a).disavowAll else s.storage a
      | _ => s.storage a) := by
  cases e with
  | create | expand => simp [apply, allocate, Nat.ne_of_lt old]
  | _ => rfl

/-- A step leaves a storage alone that the thread neither drafts nor retires. -/
theorem after_storage_eq (access : Access s t (s.pc t) e nx) {a : Nat} (old : a < s.freshStorage)
    (notDraft : (s.pc t).drafts ≠ some a) (notRetiring : ∀ f, s.pc t ≠ .slowRetire f a) :
    (s.after t e nx).storage a = s.storage a := by
  rw [after_storage, apply_storage old]
  cases e with
  | delete b disavow =>
      have other : a ≠ b := by
        rintro rfl
        exact notDraft (access_delete access)
      simp [other]
  | retire b =>
      have other : a ≠ b := by
        rintro rfl
        obtain ⟨f, pc⟩ := access_retire access
        exact notRetiring f pc
      simp [other]
  | _ => rfl

theorem Flags.after (layout : s.Layout) (flags : s.Flags) (access : Access s t (s.pc t) e nx) :
    (s.after t e nx).Flags := by
  have grows := layout.extends access
  have published : ∀ {o a}, (s.after t e nx).stripes o = some a →
      s.stripes o = some a ∨ (s.pc t).drafts = some a ∧ e = .stripes o a := by
    intro o a now
    rw [after_stripes, apply_stripes] at now
    cases e with
    | stripes this b =>
        by_cases same : o = this
        · simp only [same, if_true, Option.some.injEq] at now
          subst same now
          exact .inr ⟨access_publish access, rfl⟩
        · simp only [same, if_false] at now
          exact .inl now
    | _ => exact .inl now
  have freshDraft : ∀ {a}, (Next.pc nx).drafts = some a → a = s.freshStorage := fun drafts =>
    (access_drafts access drafts).1
  constructor
  case current =>
      intro o a now
      rcases published now with before | ⟨drafts, rfl⟩
      · rw [after_storage_eq access (layout.issued o a before)
          (fun drafts => (flags.drafted t a drafts).2.2.2.1 o before)
          fun f pc => (flags.retiring t f a pc).1 o before]
        exact flags.current o a before
      · rw [after_storage]
        exact (flags.drafted t a drafts).2.1
  case drafted =>
      intro u a drafts
      by_cases same : u = t
      · subst same
        rw [after_pc_self] at drafts
        obtain ⟨rfl, allocates⟩ := access_drafts access drafts
        have notCurrent : ∀ o, (s.after u e nx).stripes o ≠ some s.freshStorage := by
          intro o now
          rcases published now with before | ⟨before, -⟩
          · exact absurd (layout.issued o _ before) (Nat.lt_irrefl _)
          · exact absurd (flags.drafted u _ before).1 (Nat.lt_irrefl _)
        have unique : ∀ v, ((s.after u e nx).pc v).drafts = some s.freshStorage → v = u := by
          intro v other
          by_contra apart
          rw [after_pc_other apart] at other
          exact absurd (flags.drafted v _ other).1 (Nat.lt_irrefl _)
        rcases allocates with rfl | ⟨cur, rfl⟩
        · refine ⟨?_, ?_, ?_, notCurrent, unique⟩ <;> simp [apply, allocate, Storage.new]
        · refine ⟨?_, ?_, ?_, notCurrent, unique⟩ <;> simp [apply, allocate, Storage.expand]
      · rw [after_pc_other same] at drafts
        obtain ⟨old, owner, clean, notCurrent, unique⟩ := flags.drafted u a drafts
        have notMine : (s.pc t).drafts ≠ some a := fun mine => same (unique t mine).symm
        rw [after_storage_eq access old notMine fun f pc => (flags.retiring t f a pc).2 u drafts]
        refine ⟨Nat.lt_of_lt_of_le old grows.fresh, owner, clean, fun o now => ?_, fun v other => ?_⟩
        · rcases published now with before | ⟨mine, -⟩
          · exact notCurrent o before
          · exact notMine mine
        · by_cases here : v = t
          · subst here
            rw [after_pc_self] at other
            exact absurd old (by rw [freshDraft other]; exact Nat.lt_irrefl _)
          · rw [after_pc_other here] at other
            exact unique v other
  case retiring =>
      intro u f a retiring
      by_cases same : u = t
      · subst same
        rw [after_pc_self] at retiring
        obtain ⟨next, pc, rfl, current⟩ := access_slowRetire access retiring
        have drafts : (s.pc u).drafts = some next := by rw [pc]; rfl
        have notCurrent := (flags.drafted u next drafts).2.2.2.1
        refine ⟨fun o now => ?_, fun v other => ?_⟩
        · simp only [after_stripes, apply] at now
          split at now
          · cases now
            exact notCurrent _ current
          · rename_i elsewhere
            exact elsewhere (layout.stripes_inj now current)
        · by_cases here : v = u
          · subst here
            rw [after_pc_self, retiring] at other
            cases other
          · rw [after_pc_other here] at other
            exact (flags.drafted v a other).2.2.2.1 _ current
      · rw [after_pc_other same] at retiring
        obtain ⟨notCurrent, notDraft⟩ := flags.retiring u f a retiring
        refine ⟨fun o now => ?_, fun v other => ?_⟩
        · rcases published now with before | ⟨mine, -⟩
          · exact notCurrent o before
          · exact notDraft t mine
        · by_cases here : v = t
          · subst here
            rw [after_pc_self] at other
            have old := layout.keeps_issued (t := u) (a := a) (by rw [retiring]; rfl)
            exact absurd old (by rw [freshDraft other]; exact Nat.lt_irrefl _)
          · rw [after_pc_other here] at other
            exact notDraft v other
  case retired =>
      intro a member
      have old : a < s.freshStorage ∧ (a ∈ s.retired ∨ e = .retire a) := by
        rw [after_retired, apply_retired] at member
        cases e with
        | retire b =>
            rcases List.mem_cons.1 member with rfl | before
            · obtain ⟨f, pc⟩ := access_retire access
              exact ⟨layout.keeps_issued (t := t) (by rw [pc]; rfl), .inr rfl⟩
            · exact ⟨(flags.retired a before).1, .inl before⟩
        | _ => exact ⟨(flags.retired a member).1, .inl member⟩
      refine ⟨Nat.lt_of_lt_of_le old.1 grows.fresh, ?_⟩
      rw [after_storage, apply_storage old.1]
      rcases old.2 with before | rfl
      · have := (flags.retired a before).2
        cases e <;> simp only <;> (try split) <;> simp [Storage.disavow, Storage.disavowAll, this]
      · simp [Storage.disavowAll]

/-- A thread enters a member function, or an object is constructed without stripes. -/
theorem Flags.moved (flags : s.Flags) (stripes : s'.stripes = s.stripes)
    (storage : s'.storage = s.storage) (fresh : s'.freshStorage = s.freshStorage)
    (retired : s'.retired = s.retired)
    (moves : ∀ u, s'.pc u = s.pc u ∨ (s'.pc u).drafts = none ∧ ∀ f a, s'.pc u ≠ .slowRetire f a) :
    s'.Flags := by
  have drafts : ∀ {u a}, (s'.pc u).drafts = some a → (s.pc u).drafts = some a := by
    intro u a now
    rcases moves u with same | ⟨none_, -⟩
    · rwa [same] at now
    · rw [none_] at now
      cases now
  constructor
  case current => rw [stripes, storage]; exact flags.current
  case drafted =>
      intro u a now
      obtain ⟨old, owner, clean, notCurrent, unique⟩ := flags.drafted u a (drafts now)
      rw [stripes, storage, fresh]
      exact ⟨old, owner, clean, notCurrent, fun v other => unique v (drafts other)⟩
  case retiring =>
      intro u f a now
      rcases moves u with same | ⟨-, notRetiring⟩
      · rw [same] at now
        rw [stripes]
        obtain ⟨notCurrent, notDraft⟩ := flags.retiring u f a now
        exact ⟨notCurrent, fun v other => notDraft v (drafts other)⟩
      · exact absurd now (notRetiring f a)
  case retired => rw [retired, storage, fresh]; exact flags.retired

theorem Flags.make (layout : s.Layout) (flags : s.Flags) (this : O) (k : Nat) :
    (s.make this (some k)).Flags := by
  have storage : ∀ {a}, a < s.freshStorage → (s.make this (some k)).storage a = s.storage a := by
    intro a old
    simp [State.make, allocate, Nat.ne_of_lt old]
  have fresh : s.freshStorage < (s.make this (some k)).freshStorage := by
    simp [State.make, allocate]
  have published : ∀ {o a}, (s.make this (some k)).stripes o = some a →
      s.stripes o = some a ∨ a = s.freshStorage := by
    intro o a now
    simp only [State.make] at now
    split at now
    · exact .inr (Option.some.inj now).symm
    · exact .inl now
  constructor
  case current =>
      intro o a now
      rcases published now with before | rfl
      · rw [storage (layout.issued o a before)]
        exact flags.current o a before
      · have built : (s.make this (some k)).storage s.freshStorage =
            (Storage.new s.freshCell).growTo k (s.freshCell + 2) := by simp [State.make, allocate]
        rw [built]
        exact Storage.growTo_owner _ _ _ rfl
  case drafted =>
      intro u a drafts
      obtain ⟨old, owner, clean, notCurrent, unique⟩ := flags.drafted u a drafts
      rw [storage old]
      refine ⟨old.trans fresh, owner, clean, fun o now => ?_, unique⟩
      rcases published now with before | rfl
      · exact notCurrent o before
      · exact absurd old (Nat.lt_irrefl _)
  case retiring =>
      intro u f a retiring
      obtain ⟨notCurrent, notDraft⟩ := flags.retiring u f a retiring
      refine ⟨fun o now => ?_, notDraft⟩
      rcases published now with before | rfl
      · exact notCurrent o before
      · have pc : s.pc u = .slowRetire f s.freshStorage := retiring
        exact absurd (layout.keeps_issued (t := u) (a := s.freshStorage) (by rw [pc]; rfl))
          (Nat.lt_irrefl _)
  case retired =>
      intro a member
      have before : a ∈ s.retired := member
      rw [storage (flags.retired a before).1]
      exact ⟨(flags.retired a before).1.trans fresh, (flags.retired a before).2⟩

theorem Flags.next [Fintype T] (layout : s.Layout) (flags : s.Flags) {a : Action T O}
    (taken : s.next a = some s') : s'.Flags := by
  cases a with
  | make this k =>
      simp only [State.next] at taken
      split at taken
      · cases taken
      · cases taken
        cases k with
        | none => exact flags.moved rfl rfl rfl rfl fun _ => .inl rfl
        | some k => exact flags.make layout this k
  | step t =>
      obtain ⟨e, nx, access, rfl⟩ := next_step taken
      exact flags.after layout access
  | add t _ _ | value t _ | reset t _ =>
      simp only [State.next] at taken
      split at taken
      · cases taken
        refine flags.moved rfl rfl rfl rfl fun u => ?_
        by_cases same : u = t
        · exact .inr (by simp [State.goto, same, PC.drafts])
        · exact .inl (by simp [State.goto, same])
      · cases taken
  | reclaim storage =>
      simp only [State.next] at taken
      split at taken
      · cases taken
        exact flags.moved rfl rfl rfl rfl fun _ => .inl rfl
      · cases taken

theorem flags_init (hashCode : T → Word) : (init hashCode : State T O).Flags := by
  constructor <;> simp [init, PC.drafts]

/-! ## What an action allocates and deletes -/

/-- The slabs that an action allocates, with the object it allocates them for. -/
def allocates (s : State T O) : Action T O → List (O × Slab)
  | .make this (some k) =>
      (⟨s.freshCell, 2⟩ :: (Storage.new s.freshCell).growSlabs k (s.freshCell + 2)).map fun x =>
        (this, x)
  | .step t =>
      match s.plan t (s.pc t), (s.pc t).this with
      | some (.create, _), some this => [(this, ⟨s.freshCell, 2⟩)]
      | some (.expand cur, _), some this =>
          let size := (s.storage cur).size
          [(this, ⟨s.freshCell, (size <<< 1) - size⟩)]
      | _, _ => []
  | _ => []

/-- What an action passes to `delete []`. -/
def deletes (s : State T O) : Action T O → Option (List Nat)
  | .make _ (some k) => (Storage.new s.freshCell).growDeletes k (s.freshCell + 2)
  | .step t =>
      match s.plan t (s.pc t) with
      | some (.delete a disavow, _) =>
          (if disavow = true then (s.storage a).disavow else s.storage a).destructor
      | _ => some []
  | .reclaim a => (s.storage a).destructor
  | _ => some []

end State

/-- The object whose constructor or member function is called. -/
def Action.calls : Action T O → Option O
  | .make this _ | .add _ this _ | .value _ this | .reset _ this => some this
  | _ => none

/-- The machine, the slabs it has allocated and the pointers it has deleted. -/
structure Heap (T O : Type) where
  state : State T O
  slabs : List (O × Slab)
  deleted : List Nat
  destroyed : O → Bool

/-- An action, the deletion of a retired storage at any time, or `~Striped64`. -/
inductive Event (T O : Type) where
  | act (a : Action T O)
  | reclaim (storage : Nat)
  | destroy (this : O)
  deriving DecidableEq

namespace Heap

variable {h h' : Heap T O} {t u : T} {o : O}

def init (hashCode : T → Word) : Heap T O := ⟨.init hashCode, [], [], fun _ => false⟩

/-- `~Striped64`: `delete stripes_.load()`. -/
def destroy (h : Heap T O) (this : O) : Option (Heap T O) :=
  (match h.state.stripes this with
    | none => some []
    | some a => (h.state.storage a).destructor).map fun pointers =>
      { h with
        deleted := h.deleted ++ pointers
        destroyed := fun o => if o = this then true else h.destroyed o }

def next [Fintype T] (h : Heap T O) : Event T O → Option (Heap T O)
  | .act a =>
      if (a.calls.any h.destroyed) = true then none
      else
        match h.state.next a, h.state.deletes a with
        | some s', some pointers =>
            some { h with
              state := s'
              slabs := h.slabs ++ h.state.allocates a
              deleted := h.deleted ++ pointers }
        | _, _ => none
  | .reclaim a =>
      if a ∈ h.state.retired ∧ a ∉ h.state.deleted then
        (h.state.storage a).destructor.map fun pointers =>
          { h with
            state := { h.state with deleted := a :: h.state.deleted }
            deleted := h.deleted ++ pointers }
      else none
  | .destroy this =>
      if h.state.live this = true ∧ h.destroyed this = false ∧
          ∀ t, (h.state.pc t).adding ≠ some this then h.destroy this
      else none

/-! ## The invariant -/

structure Ledger (h : Heap T O) : Prop where
  layout : h.state.Layout
  sized : h.state.AllSized
  flags : h.state.Flags
  tiled : ∀ a < h.state.freshStorage, ∃ n xs, n ≤ 30 ∧ (h.state.storage a).Tiled n xs ∧
    ∀ x ∈ xs, ∃ o, (o, x) ∈ h.slabs
  apart : h.slabs.Pairwise fun x y => x.2.start + x.2.length ≤ y.2.start
  known : ∀ x ∈ h.slabs, 0 < x.2.length ∧ x.2.start + x.2.length ≤ h.state.freshCell
  once : h.deleted.Nodup
  gone : ∀ c ∈ h.deleted, (∃ x ∈ h.slabs, x.2.start = c) ∧
    (∀ o, h.destroyed o = false → c ∉ h.state.cells o) ∧ ∀ t, c ∉ h.state.draft t
  placed : ∀ x ∈ h.slabs, x.2.start ∈ h.deleted ∨
    (h.destroyed x.1 = false ∧ x.2.start ∈ h.state.cells x.1) ∨
    ∃ t, (h.state.pc t).adding = some x.1 ∧ x.2.start ∈ h.state.draft t
  closed : ∀ o, h.destroyed o = true → ∀ t, (h.state.pc t).adding ≠ some o

theorem same_slab {slabs : List (O × Slab)}
    (apart : slabs.Pairwise fun x y => x.2.start + x.2.length ≤ y.2.start) {x y : O × Slab}
    (memberX : x ∈ slabs) (memberY : y ∈ slabs) {c : Nat} (inX : c ∈ x.2.cells)
    (inY : c ∈ y.2.cells) : x = y := by
  rw [Slab.mem_cells] at inX inY
  obtain ⟨i, insideI, rfl⟩ := List.getElem_of_mem memberX
  obtain ⟨j, insideJ, rfl⟩ := List.getElem_of_mem memberY
  have ordered := List.pairwise_iff_getElem.1 apart
  rcases Nat.lt_trichotomy i j with before | rfl | after
  · have := ordered i j insideI insideJ before
    omega
  · rfl
  · have := ordered j i insideJ insideI after
    omega

theorem Ledger.start_mem (ledger : h.Ledger) {x : O × Slab} (member : x ∈ h.slabs) :
    x.2.start ∈ x.2.cells := by
  have := ledger.known x member
  rw [Slab.mem_cells]
  omega

/-- A slab with a cell in a storage is one of its slabs. -/
theorem Ledger.slab_of_mem (ledger : h.Ledger) {a n c : Nat} {xs : List Slab}
    (tiled : (h.state.storage a).Tiled n xs) (mine : ∀ x ∈ xs, ∃ o, (o, x) ∈ h.slabs)
    {x : O × Slab} (member : x ∈ h.slabs) (inX : c ∈ x.2.cells)
    (inside : c ∈ (h.state.storage a).data) : x.2.start ∈ (h.state.storage a).starts n := by
  rw [tiled.data] at inside
  obtain ⟨y, inXs, inY⟩ := List.mem_flatMap.1 inside
  obtain ⟨o, allocated⟩ := mine y inXs
  have same : x = (o, y) := same_slab ledger.apart member allocated inX inY
  rw [tiled.starts, same]
  exact List.mem_map_of_mem inXs

theorem slab_of_start {a n c : Nat} {xs : List Slab}
    (tiled : (h.state.storage a).Tiled n xs) (mine : ∀ x ∈ xs, ∃ o, (o, x) ∈ h.slabs)
    (start : c ∈ (h.state.storage a).starts n) : ∃ x ∈ h.slabs, x.2.start = c := by
  rw [tiled.starts] at start
  obtain ⟨y, inXs, rfl⟩ := List.mem_map.1 start
  obtain ⟨o, allocated⟩ := mine y inXs
  exact ⟨(o, y), allocated, rfl⟩

theorem tiled_congr {a b : Storage} {n : Nat} {xs : List Slab} (data : b.data = a.data)
    (tiled : a.Tiled n xs) : b.Tiled n xs where
  size := by rw [← b.length_data, data, a.length_data, tiled.size]
  pos := tiled.pos
  data := by rw [data, tiled.data]
  starts := by
    rw [← tiled.starts]
    simp only [Storage.starts, Storage.get, data]

/-- An action that allocates `new` and deletes `pointers`. -/
theorem Ledger.act {s' : State T O} {new : List (O × Slab)} {pointers : List Nat}
    (ledger : h.Ledger) (layout : s'.Layout) (sized : s'.AllSized) (flags : s'.Flags)
    (grows : State.Extends h.state s')
    (tiled : ∀ a < s'.freshStorage, h.state.freshStorage ≤ a → ∃ n xs, n ≤ 30 ∧
      (s'.storage a).Tiled n xs ∧ ∀ x ∈ xs, ∃ o, (o, x) ∈ h.slabs ++ new)
    (apart : new.Pairwise fun x y => x.2.start + x.2.length ≤ y.2.start)
    (known : ∀ x ∈ new, 0 < x.2.length ∧ h.state.freshCell ≤ x.2.start ∧
      x.2.start + x.2.length ≤ s'.freshCell)
    (fresh : h.state.freshCell ≤ s'.freshCell)
    (cells : ∀ o c, c ∈ s'.cells o →
      c ∈ h.state.cells o ∨ (∃ t, c ∈ h.state.draft t) ∨ h.state.freshCell ≤ c)
    (draft : ∀ t c, c ∈ s'.draft t → c ∈ h.state.draft t ∨ h.state.freshCell ≤ c)
    (once : pointers.Nodup)
    (gone : ∀ c ∈ pointers, c ∉ h.deleted ∧ (∃ x ∈ h.slabs, x.2.start = c) ∧
      (∀ o, c ∉ s'.cells o) ∧ ∀ t, c ∉ s'.draft t)
    (drafted : ∀ t, ∀ x ∈ h.slabs, (h.state.pc t).adding = some x.1 → x.2.start ∈ h.state.draft t →
      x.2.start ∈ pointers ∨ x.2.start ∈ s'.cells x.1 ∨
        (s'.pc t).adding = some x.1 ∧ x.2.start ∈ s'.draft t)
    (placed : ∀ x ∈ new, (h.destroyed x.1 = false ∧ x.2.start ∈ s'.cells x.1) ∨
      ∃ t, (s'.pc t).adding = some x.1 ∧ x.2.start ∈ s'.draft t)
    (closed : ∀ t o, (s'.pc t).adding = some o →
      (h.state.pc t).adding = some o ∨ h.destroyed o = false) :
    Ledger { h with
      state := s', slabs := h.slabs ++ new, deleted := h.deleted ++ pointers } where
  layout := layout
  sized := sized
  flags := flags
  tiled a issued := by
    by_cases old : a < h.state.freshStorage
    · obtain ⟨n, xs, fits, is, mine⟩ := ledger.tiled a old
      refine ⟨n, xs, fits, tiled_congr (grows.data a old) is, fun x inside => ?_⟩
      obtain ⟨o, allocated⟩ := mine x inside
      exact ⟨o, List.mem_append_left _ allocated⟩
    · exact tiled a issued (Nat.not_lt.1 old)
  apart := by
    refine List.pairwise_append.2 ⟨ledger.apart, apart, fun x old y later => ?_⟩
    have := ledger.known x old
    have := known y later
    omega
  known x member := by
    show 0 < x.2.length ∧ x.2.start + x.2.length ≤ s'.freshCell
    rcases List.mem_append.1 member with old | later
    · have := ledger.known x old
      omega
    · have := known x later
      omega
  once := by
    refine List.nodup_append.2 ⟨ledger.once, once, fun c old d later same => ?_⟩
    subst same
    exact (gone c later).1 old
  gone c member := by
    rcases List.mem_append.1 member with old | later
    · obtain ⟨⟨x, inside, start⟩, notCells, notDraft⟩ := ledger.gone c old
      have below : c < h.state.freshCell := by
        have := ledger.known x inside
        omega
      refine ⟨⟨x, List.mem_append_left _ inside, start⟩, fun o alive now => ?_, fun t now => ?_⟩
      · rcases cells o c now with before | ⟨t, before⟩ | above
        · exact notCells o alive before
        · exact notDraft t before
        · omega
      · rcases draft t c now with before | above
        · exact notDraft t before
        · omega
    · obtain ⟨-, ⟨x, inside, start⟩, notCells, notDraft⟩ := gone c later
      exact ⟨⟨x, List.mem_append_left _ inside, start⟩, fun o _ => notCells o, notDraft⟩
  placed x member := by
    rcases List.mem_append.1 member with old | later
    · rcases ledger.placed x old with deleted | ⟨alive, inside⟩ | ⟨t, adding, inside⟩
      · exact .inl (List.mem_append_left _ deleted)
      · exact .inr (.inl ⟨alive, (grows.cells x.1).subset inside⟩)
      · have alive : h.destroyed x.1 = false := by
          cases destroyed : h.destroyed x.1 with
          | false => rfl
          | true => exact absurd adding (ledger.closed x.1 destroyed t)
        rcases drafted t x old adding inside with deleted | published | still
        · exact .inl (List.mem_append_right _ deleted)
        · exact .inr (.inl ⟨alive, published⟩)
        · exact .inr (.inr ⟨t, still⟩)
    · exact .inr (placed x later)
  closed o destroyed t adding := by
    rcases closed t o adding with before | alive
    · exact ledger.closed o destroyed t before
    · exact absurd destroyed (by rw [alive]; decide)

/-! ## The steps of a thread -/

section Steps

variable {e : Effect O} {nx : Next O}

/-- A thread's new cells are published or deleted by its next step. -/
theorem draft_leaves {s : State T O} (access : s.Access t (s.pc t) e nx) {c : Nat}
    (member : c ∈ s.draft t) (adding : (s.pc t).adding = some o) :
    c ∈ (s.after t e nx).cells o ∨ ∃ a disavow, e = .delete a disavow := by
  cases pc : s.pc t with
  | slowPublish f cur =>
      simp only [State.draft, pc] at member
      rw [pc] at access adding
      cases adding
      cases access with
      | slowPublished _ _ empty => exact .inl (by simpa [State.cells, State.apply] using member)
      | slowLate _ _ late => exact .inr ⟨_, _, rfl⟩
  | slowSwap f cur next =>
      simp only [State.draft, pc] at member
      rw [pc] at access adding
      cases adding
      cases access with
      | slowGrown _ _ _ same =>
          exact .inl (by simpa [State.cells, State.apply] using List.mem_of_mem_drop member)
      | slowRaced _ _ _ raced => exact .inr ⟨_, _, rfl⟩
  | _ => simp [State.draft, pc] at member

theorem access_adding {s : State T O} {pc : PC O} (access : s.Access t pc e nx)
    (adding : (State.Next.pc nx).adding = some o) : pc.adding = some o := by
  cases access
  case slowLate | slowRehash | slowFull | slowRetire =>
      simp only [State.slowTop, State.Next.pc_goto] at adding
      split at adding <;> exact adding
  case slowRaced f cur next raced =>
      cases stripes : s.stripes f.this <;> rw [stripes] at adding <;>
        simp only [State.slowTop, State.Next.pc_goto] at adding
      · exact adding
      · split at adding <;> exact adding
  case loadSame site =>
      cases site <;> cases stripes : s.stripes _ <;> rw [stripes] at adding <;>
        first | exact adding | cases adding
  case valueSize | valueGet =>
      simp only [State.valueLoop, State.Next.pc_goto] at adding
      split at adding <;> cases adding
  case resetSize | resetGet =>
      simp only [State.resetLoop, State.Next.pc_goto] at adding
      split at adding <;> cases adding
  case load site | loadSet site _ | loadAgain site _ =>
      cases site <;> exact adding
  all_goals first | exact adding | cases adding

/-- A step that neither allocates nor deletes. -/
theorem Ledger.quiet (ledger : h.Ledger) (access : h.state.Access t (h.state.pc t) e nx)
    (notCreate : e ≠ .create) (notExpand : ∀ cur, e ≠ .expand cur)
    (notDelete : ∀ a disavow, e ≠ .delete a disavow) :
    Ledger { h with
      state := h.state.after t e nx, slabs := h.slabs ++ [], deleted := h.deleted ++ [] } := by
  have layout := ledger.layout
  have fresh : (h.state.after t e nx).freshStorage = h.state.freshStorage ∧
      (h.state.after t e nx).freshCell = h.state.freshCell := by
    rw [State.after_freshStorage, State.after_freshCell]
    cases e <;> first | exact ⟨rfl, rfl⟩ | exact absurd rfl notCreate | exact absurd rfl (notExpand _)
  refine ledger.act (layout.after access) (ledger.sized.after layout access) (ledger.flags.after layout access)
    (layout.extends access) (fun a issued old => ?_) .nil (by simp) (Nat.le_of_eq fresh.2.symm)
    (fun o c member => ?_) (fun u c member => ?_) .nil (by simp) (fun u x inside adding member => ?_)
    (by simp) fun u o adding => ?_
  · rw [fresh.1] at issued
    omega
  · rcases layout.mem_cells_after access member with before | ⟨before, -⟩
    · exact .inl before
    · exact .inr (.inl ⟨t, before⟩)
  · by_cases same : u = t
    · subst same
      exact .inr (layout.draft_self access member).1
    · rw [layout.draft_other access same] at member
      exact .inl member
  · by_cases same : u = t
    · subst same
      rcases draft_leaves access member adding with published | ⟨a, disavow, deletes⟩
      · exact .inr (.inl published)
      · exact absurd deletes (notDelete a disavow)
    · rw [layout.draft_other access same, State.after_pc_other same]
      exact .inr (.inr ⟨adding, member⟩)
  · by_cases same : u = t
    · subst same
      rw [State.after_pc_self] at adding
      exact .inl (access_adding access adding)
    · rw [State.after_pc_other same] at adding
      exact .inl adding

theorem draft_nil {s : State T O} (none_ : (s.pc t).drafts = none) : s.draft t = [] := by
  unfold State.draft
  cases pc : s.pc t <;> first | rfl | (rw [pc] at none_; cases none_)

/-- Only an allocation leaves a thread with new cells. -/
theorem draft_after {s : State T O} (access : s.Access t (s.pc t) e nx) (notCreate : e ≠ .create)
    (notExpand : ∀ cur, e ≠ .expand cur) : (s.after t e nx).draft t = [] := by
  refine draft_nil ?_
  rw [State.after_pc_self]
  cases drafts : (State.Next.pc nx).drafts with
  | none => rfl
  | some a =>
      rcases (State.access_drafts access drafts).2 with rfl | ⟨cur, rfl⟩
      · exact absurd rfl notCreate
      · exact absurd rfl (notExpand cur)

/-- The thread that allocates has no draft before. -/
theorem no_draft {s : State T O} (access : s.Access t (s.pc t) e nx)
    (allocates : e = .create ∨ ∃ cur, e = .expand cur) : s.draft t = [] := by
  generalize running : s.pc t = pc at access
  rcases allocates with rfl | ⟨cur, rfl⟩ <;> cases access <;> simp [State.draft, running]

/-- A step that allocates the slab `x`. -/
theorem Ledger.allocate {x : Slab} (ledger : h.Ledger)
    (access : h.state.Access t (h.state.pc t) e nx)
    (allocates : e = .create ∨ ∃ cur, e = .expand cur)
    (adding : ((h.state.after t e nx).pc t).adding = some o)
    (start : x.start = h.state.freshCell) (pos : 0 < x.length)
    (fresh : (h.state.after t e nx).freshCell = h.state.freshCell + x.length)
    (tiled : ∃ n xs, n ≤ 30 ∧
      ((h.state.after t e nx).storage h.state.freshStorage).Tiled n (xs ++ [x]) ∧
      ∀ y ∈ xs, ∃ o, (o, y) ∈ h.slabs)
    (inDraft : x.start ∈ (h.state.after t e nx).draft t) :
    Ledger { h with
      state := h.state.after t e nx, slabs := h.slabs ++ [(o, x)], deleted := h.deleted ++ [] } := by
  have layout := ledger.layout
  have issued : (h.state.after t e nx).freshStorage = h.state.freshStorage + 1 := by
    rw [State.after_freshStorage]
    rcases allocates with rfl | ⟨cur, rfl⟩ <;> rfl
  have stripes : ∀ this a, e ≠ .stripes this a := (layout.draft_self access inDraft).2.2
  refine ledger.act (layout.after access) (ledger.sized.after layout access)
    (ledger.flags.after layout access) (layout.extends access) (fun a new old => ?_)
    (List.pairwise_singleton ..) (fun y member => ?_) (by omega) (fun o c member => ?_)
    (fun u c member => ?_) .nil (by simp) (fun u y inside adds member => ?_) (fun y member => ?_)
    fun u o adds => ?_
  · have same : a = h.state.freshStorage := by omega
    obtain ⟨n, xs, fits, is, mine⟩ := tiled
    subst same
    refine ⟨n, _, fits, is, fun y member => ?_⟩
    rcases List.mem_append.1 member with old | new
    · obtain ⟨o', allocated⟩ := mine y old
      exact ⟨o', List.mem_append_left _ allocated⟩
    · exact ⟨o, by simp [List.mem_singleton.1 new]⟩
  · cases List.mem_singleton.1 member
    exact ⟨pos, Nat.le_of_eq start.symm, by rw [start, fresh]⟩
  · rcases layout.mem_cells_after access member with before | ⟨-, a, published⟩
    · exact .inl before
    · exact absurd published (stripes o a)
  · by_cases same : u = t
    · subst same
      exact .inr (layout.draft_self access member).1
    · rw [layout.draft_other access same] at member
      exact .inl member
  · by_cases same : u = t
    · subst same
      rw [no_draft access allocates] at member
      cases member
    · rw [layout.draft_other access same, State.after_pc_other same]
      exact .inr (.inr ⟨adds, member⟩)
  · cases List.mem_singleton.1 member
    exact .inr ⟨t, adding, inDraft⟩
  · by_cases same : u = t
    · subst same
      rw [State.after_pc_self] at adds
      exact .inl (access_adding access adds)
    · rw [State.after_pc_other same] at adds
      exact .inl adds

/-- What a thread deletes of its own storage is the slab of its new cells. -/
theorem Ledger.delete_draft (ledger : h.Ledger) {a : Nat} {disavow : Bool}
    (access : h.state.Access t (h.state.pc t) (.delete a disavow) nx) :
    ∃ c, (if disavow = true then (h.state.storage a).disavow else h.state.storage a).destructor =
        some [c] ∧ c ∈ h.state.draft t ∧ (∃ x ∈ h.slabs, x.2.start = c) ∧
      ∀ x ∈ h.slabs, x.2.start ∈ h.state.draft t → x.2.start = c := by
  have drafts := State.access_delete access
  obtain ⟨issued, owner, clean, -, -⟩ := ledger.flags.drafted t a drafts
  obtain ⟨n, xs, fits, tiled, mine⟩ := ledger.tiled a issued
  have here := ledger.layout.here t
  have sized := ledger.sized t
  generalize running : h.state.pc t = pc at access here sized
  cases access with
  | slowLate f _ late =>
      have draft : h.state.draft t = (h.state.storage a).data := by simp [State.draft, running]
      have size : (h.state.storage a).size = 2 := sized
      have one : n = 1 := by
        have two : 2 ^ n = 2 ^ 1 := by rw [← tiled.size, size, Nat.pow_one]
        exact Nat.pow_right_injective (Nat.le_refl 2) two
      subst one
      have starts : (h.state.storage a).starts 1 = [(h.state.storage a).get 0] := rfl
      refine ⟨(h.state.storage a).get 0, ?_, ?_, ?_, fun x member inside => ?_⟩
      · rw [if_neg (by simp), Storage.destructor_eq tiled.size tiled.pos fits, if_pos owner, starts]
      · rw [draft]
        exact Storage.get_mem (by omega)
      · exact slab_of_start tiled mine (by rw [starts]; exact List.mem_singleton_self _)
      · rw [draft] at inside
        have start := ledger.slab_of_mem tiled mine member (ledger.start_mem member) inside
        rw [starts] at start
        exact List.mem_singleton.1 start
  | slowRaced f cur _ raced =>
      obtain ⟨m, ys, -, tiledCur, -⟩ := ledger.tiled cur here.1.1
      have grown : n = m + 1 := by
        have twice : 2 ^ n = 2 ^ (m + 1) := by
          rw [← tiled.size, sized.1, tiledCur.size, Nat.shiftLeft_eq, ← Nat.pow_add]
        exact Nat.pow_right_injective (Nat.le_refl 2) twice
      subst grown
      have last : Storage.slabIndex m = (h.state.storage cur).size := by
        rw [tiledCur.size]
        obtain ⟨k, rfl⟩ := Nat.exists_eq_succ_of_ne_zero tiledCur.pos.ne'
        rfl
      have inside : Storage.slabIndex m < (h.state.storage a).data.length := by
        rw [Storage.length_data, tiled.size]
        exact Storage.slabIndex_lt (Nat.lt_succ_self m)
      have draft : h.state.draft t =
          (h.state.storage a).data.drop (Storage.slabIndex m) := by simp [State.draft, running, last]
      refine ⟨(h.state.storage a).get (Storage.slabIndex m), ?_, ?_, ?_, fun x member new => ?_⟩
      · have size : (h.state.storage a).disavow.size = 2 ^ (m + 1) := tiled.size
        rw [if_pos rfl, Storage.destructor_eq size tiled.pos fits]
        simp [Storage.disavow, Storage.get, clean]
      · rw [draft, Storage.get, List.getD_eq_getElem _ _ inside, List.drop_eq_getElem_cons inside]
        exact List.mem_cons_self ..
      · refine slab_of_start tiled mine (List.mem_map.2 ⟨m, ?_, rfl⟩)
        exact List.mem_range.2 (Nat.lt_succ_self m)
      · rw [draft] at new
        have start := ledger.slab_of_mem tiled mine member (ledger.start_mem member)
          (List.mem_of_mem_drop new)
        obtain ⟨j, below, same⟩ := List.mem_map.1 start
        rcases Nat.lt_or_ge j m with early | late
        · -- a slab that was there before starts among the cells of `cur`
          have before : Storage.slabIndex j < Storage.slabIndex m := by
            rw [last, tiledCur.size]
            exact Storage.slabIndex_lt early
          have old : x.2.start ∈ (h.state.storage a).data.take (Storage.slabIndex m) := by
            rw [← same, Storage.get, List.getD_eq_getElem _ _ (before.trans inside)]
            exact List.mem_take_iff_getElem.2 ⟨_, by omega, rfl⟩
          exact absurd new (List.disjoint_take_drop (ledger.layout.nodup a issued) le_rfl old)
        · have equal : j = m := by
            have := List.mem_range.1 below
            omega
          rw [← same, equal]

theorem Ledger.delete (ledger : h.Ledger) {a : Nat} {disavow : Bool}
    (access : h.state.Access t (h.state.pc t) (.delete a disavow) nx) :
    ∃ pointers, (if disavow = true then (h.state.storage a).disavow
        else h.state.storage a).destructor = some pointers ∧
      Ledger { h with
        state := h.state.after t (.delete a disavow) nx
        slabs := h.slabs ++ []
        deleted := h.deleted ++ pointers } := by
  have layout := ledger.layout
  obtain ⟨c, deletes, inDraft, slab, only⟩ := ledger.delete_draft access
  have ended : (h.state.after t (.delete a disavow) nx).draft t = [] :=
    draft_after access (by simp) (by simp)
  obtain ⟨-, notCells, others⟩ := layout.draft t c inDraft
  have cells : ∀ o, ∀ d ∈ (h.state.after t (.delete a disavow) nx).cells o, d ∈ h.state.cells o := by
    intro o d member
    rcases layout.mem_cells_after access member with before | ⟨-, b, published⟩
    · exact before
    · cases published
  refine ⟨[c], deletes, ?_⟩
  refine ledger.act (layout.after access) (ledger.sized.after layout access)
    (ledger.flags.after layout access) (layout.extends access) (fun a' issued old => ?_)
    .nil (by simp) (Nat.le_of_eq ?_) (fun o d member => .inl (cells o d member))
    (fun u d member => ?_) (List.nodup_singleton c) (fun d member => ?_)
    (fun u x inside adds member => ?_) (by simp) fun u o adds => ?_
  · rw [State.after_freshStorage] at issued
    exact absurd issued (Nat.not_lt.2 old)
  · rw [State.after_freshCell]
    rfl
  · by_cases same : u = t
    · subst same
      rw [ended] at member
      cases member
    · rw [layout.draft_other access same] at member
      exact .inl member
  · cases List.mem_singleton.1 member
    refine ⟨fun before => (ledger.gone c before).2.2 t inDraft, slab,
      fun o now => notCells o (cells o c now), fun u now => ?_⟩
    by_cases same : u = t
    · subst same
      rw [ended] at now
      cases now
    · rw [layout.draft_other access same] at now
      exact others u same now
  · by_cases same : u = t
    · subst same
      exact .inl (by rw [only x inside member]; exact List.mem_singleton_self _)
    · rw [layout.draft_other access same, State.after_pc_other same]
      exact .inr (.inr ⟨adds, member⟩)
  · by_cases same : u = t
    · subst same
      rw [State.after_pc_self] at adds
      exact .inl (access_adding access adds)
    · rw [State.after_pc_other same] at adds
      exact .inl adds

theorem Ledger.create (ledger : h.Ledger) {f : Slow O} (pc : h.state.pc t = .slowNew f) :
    Ledger { h with
      state := h.state.after t .create (.goto (.slowPublish f h.state.freshStorage))
      slabs := h.slabs ++ [(f.this, ⟨h.state.freshCell, 2⟩)]
      deleted := h.deleted ++ [] } := by
  have access : h.state.Access t (h.state.pc t) .create
      (.goto (.slowPublish f h.state.freshStorage)) := by
    rw [pc]
    exact .slowNew f
  refine ledger.allocate (x := ⟨h.state.freshCell, 2⟩) access (.inl rfl) ?_ rfl Nat.two_pos ?_ ?_ ?_
  · rw [State.after_pc_self]
    rfl
  · rw [State.after_freshCell]
    rfl
  · refine ⟨1, [], by decide, ?_, by simp⟩
    have built : (h.state.after t .create (.goto (.slowPublish f h.state.freshStorage))).storage
        h.state.freshStorage = .new h.state.freshCell := by
      simp [State.apply, State.allocate]
    rw [built]
    exact Storage.tiled_new _
  · simp [State.draft, State.after_pc_self, State.apply, State.allocate, Storage.new]

theorem Ledger.expand (ledger : h.Ledger) {f : Slow O} {cur : Nat}
    (pc : h.state.pc t = .slowExpand f cur) :
    Ledger { h with
      state := h.state.after t (.expand cur) (.goto (.slowSwap f cur h.state.freshStorage))
      slabs := h.slabs ++ [(f.this, ⟨h.state.freshCell,
        ((h.state.storage cur).size <<< 1) - (h.state.storage cur).size⟩)]
      deleted := h.deleted ++ [] } := by
  have access : h.state.Access t (h.state.pc t) (.expand cur)
      (.goto (.slowSwap f cur h.state.freshStorage)) := by
    rw [pc]
    exact .slowExpand f cur
  have here := ledger.layout.here t
  have small := ledger.sized t
  rw [pc] at here small
  have old : cur ≠ h.state.freshStorage := Nat.ne_of_lt here.1
  have room : 0 < ((h.state.storage cur).size <<< 1) - (h.state.storage cur).size := by
    have := (h.state.storage cur).size_pos
    rw [Nat.shiftLeft_eq]
    omega
  refine ledger.allocate (x := ⟨h.state.freshCell, _⟩) access (.inr ⟨cur, rfl⟩) ?_ rfl room ?_ ?_ ?_
  · rw [State.after_pc_self]
    rfl
  · rw [State.after_freshCell]
    rfl
  · obtain ⟨n, xs, -, tiled, mine⟩ := ledger.tiled cur here.1
    have built : (h.state.after t (.expand cur)
        (.goto (.slowSwap f cur h.state.freshStorage))).storage h.state.freshStorage =
        (h.state.storage cur).expand h.state.freshCell := by
      simp [State.apply, State.allocate]
    refine ⟨n + 1, xs, ?_, built ▸ tiled.expand _, mine⟩
    have size : (h.state.storage cur).size < stripeLimit := small
    have below : 2 ^ n < 2 ^ 3 := by
      rw [← tiled.size]
      exact size
    have := (Nat.pow_lt_pow_iff_right (a := 2) (by decide)).1 below
    omega
  · simp only [State.draft, State.after_pc_self, State.Next.pc_goto, State.after_storage,
      State.apply, State.allocate, if_true, old, if_false, Storage.expand]
    rw [List.drop_left' (h.state.storage cur).length_data, List.mem_range'_1]
    omega

theorem Ledger.step [Fintype T] {s' : State T O} (ledger : h.Ledger)
    (taken : h.state.next (.step t) = some s') :
    ∃ pointers, h.state.deletes (.step t) = some pointers ∧
      Ledger { h with
        state := s'
        slabs := h.slabs ++ h.state.allocates (.step t)
        deleted := h.deleted ++ pointers } := by
  simp only [State.next] at taken
  split at taken
  · cases taken
  · rename_i e nx planned
    cases taken
    have access := State.access_of_plan planned
    cases e with
    | create =>
        obtain ⟨f, pc, rfl⟩ : ∃ f, h.state.pc t = .slowNew f ∧
            nx = .goto (.slowPublish f h.state.freshStorage) := by
          generalize h.state.pc t = pc at access
          cases access
          exact ⟨_, rfl, rfl⟩
        have this : (h.state.pc t).this = some f.this := by rw [pc]; rfl
        have slabs : h.state.allocates (.step t) = [(f.this, ⟨h.state.freshCell, 2⟩)] := by
          simp [State.allocates, planned, this]
        rw [slabs]
        exact ⟨[], by simp [State.deletes, planned], ledger.create pc⟩
    | expand cur =>
        obtain ⟨f, pc, rfl⟩ : ∃ f, h.state.pc t = .slowExpand f cur ∧
            nx = .goto (.slowSwap f cur h.state.freshStorage) := by
          generalize h.state.pc t = pc at access
          cases access
          exact ⟨_, rfl, rfl⟩
        have this : (h.state.pc t).this = some f.this := by rw [pc]; rfl
        have slabs : h.state.allocates (.step t) = [(f.this, ⟨h.state.freshCell,
            ((h.state.storage cur).size <<< 1) - (h.state.storage cur).size⟩)] := by
          simp [State.allocates, planned, this]
        rw [slabs]
        exact ⟨[], by simp [State.deletes, planned], ledger.expand pc⟩
    | delete a disavow =>
        obtain ⟨pointers, deletes, kept⟩ := ledger.delete access
        have slabs : h.state.allocates (.step t) = [] := by simp [State.allocates, planned]
        rw [slabs]
        exact ⟨pointers, by simpa [State.deletes, planned] using deletes, kept⟩
    | _ =>
        have slabs : h.state.allocates (.step t) = [] := by simp [State.allocates, planned]
        rw [slabs]
        exact ⟨[], by simp [State.deletes, planned], ledger.quiet access (by simp) (by simp) (by simp)⟩

end Steps

/-! ## Constructors, calls and destructors -/

/-- An action that touches no storage. -/
theorem Ledger.moved {s' : State T O} (ledger : h.Ledger) (layout : s'.Layout)
    (grows : State.Extends h.state s') (stripes : s'.stripes = h.state.stripes)
    (storage : s'.storage = h.state.storage) (fresh : s'.freshStorage = h.state.freshStorage)
    (cells : s'.freshCell = h.state.freshCell) (retired : s'.retired = h.state.retired)
    (moves : ∀ u, s'.pc u = h.state.pc u ∨ (s'.pc u).drafts = none ∧ s'.Sized (s'.pc u) ∧
      (∀ f a, s'.pc u ≠ .slowRetire f a) ∧ h.state.pc u = .idle ∧
      ∀ o, (s'.pc u).adding = some o → h.destroyed o = false) :
    Ledger { h with state := s', slabs := h.slabs ++ [], deleted := h.deleted ++ [] } := by
  have sameCells : ∀ o, s'.cells o = h.state.cells o := by
    intro o
    simp only [State.cells, stripes, storage]
  refine ledger.act layout (ledger.sized.moved ledger.layout grows fun u => ?_)
    (ledger.flags.moved stripes storage fresh retired fun u => ?_) grows (fun a issued old => ?_)
    .nil (by simp) (Nat.le_of_eq cells.symm) (fun o c member => .inl (sameCells o ▸ member))
    (fun u c member => ?_) .nil (by simp) (fun u x inside adds member => ?_) (by simp)
    fun u o adds => ?_
  · rcases moves u with same | ⟨-, sized, -⟩
    · exact .inl same
    · exact .inr sized
  · rcases moves u with same | ⟨none_, -, notRetiring, -⟩
    · exact .inl same
    · exact .inr ⟨none_, notRetiring⟩
  · rw [fresh] at issued
    exact absurd issued (Nat.not_lt.2 old)
  · rcases moves u with same | ⟨none_, -⟩
    · left
      simpa [State.draft, same, storage] using member
    · rw [draft_nil none_] at member
      cases member
  · rcases moves u with same | ⟨none_, -, -, idle, -⟩
    · refine .inr (.inr ⟨by rw [same]; exact adds, ?_⟩)
      simpa [State.draft, same, storage] using member
    · rw [idle] at adds
      cases adds
  · rcases moves u with same | ⟨none_, -, -, idle, alive⟩
    · exact .inl (by rwa [same] at adds)
    · exact .inr (alive o adds)

/-- `Striped64(k)`. -/
theorem Ledger.make (ledger : h.Ledger) {this : O} {k : Nat} (fits : k ≤ 2 ^ 30)
    (notLive : h.state.live this ≠ true) (alive : h.destroyed this = false)
    (layout : (h.state.make this (some k)).Layout) :
    Ledger { h with
      state := h.state.make this (some k)
      slabs := h.slabs ++ h.state.allocates (.make this (some k))
      deleted := h.deleted ++ [] } := by
  have grows := ledger.layout.extends_make notLive (some k)
  obtain ⟨m, tiled, small⟩ := (Storage.tiled_new h.state.freshCell).growTo k
    (h.state.freshCell + 2)
  obtain ⟨apart, larger, inside⟩ := Storage.growSlabs_between (.new h.state.freshCell) k
    (h.state.freshCell + 2)
  generalize slabsIs : (Storage.new h.state.freshCell).growSlabs k (h.state.freshCell + 2) = slabs
    at tiled apart inside
  have storage : (h.state.make this (some k)).storage h.state.freshStorage =
      (Storage.new h.state.freshCell).growTo k (h.state.freshCell + 2) := by
    simp [State.make, State.allocate]
  have new : h.state.allocates (.make this (some k)) =
      (⟨h.state.freshCell, 2⟩ :: slabs).map fun x => (this, x) := by
    simp only [State.allocates, slabsIs]
  have freshCell : (h.state.make this (some k)).freshCell = h.state.freshCell +
      ((Storage.new h.state.freshCell).growTo k (h.state.freshCell + 2)).size := by
    simp [State.make, State.allocate]
  have fresh : (h.state.make this (some k)).freshStorage = h.state.freshStorage + 1 := by
    simp [State.make, State.allocate]
  have drafts : ∀ u, (h.state.make this (some k)).draft u = h.state.draft u := by
    intro u
    have here := ledger.layout.here u
    have pc : (h.state.make this (some k)).pc u = h.state.pc u := rfl
    simp only [State.draft, pc]
    cases running : h.state.pc u with
    | slowPublish f cur => rw [running] at here; exact grows.data cur here.2
    | slowSwap f cur next =>
        rw [running] at here
        simp only [grows.data next here.2.1, grows.size here.1.1]
    | _ => rfl
  have cells : (h.state.make this (some k)).cells this =
      ((⟨h.state.freshCell, 2⟩ : Slab) :: slabs).flatMap Slab.cells := by
    have stripes : (h.state.make this (some k)).stripes this = some h.state.freshStorage := by
      simp [State.make]
    simp only [State.cells, stripes, storage]
    exact tiled.data
  have size : (Storage.new h.state.freshCell).size = 2 := rfl
  have bounds : ∀ x ∈ (⟨h.state.freshCell, 2⟩ : Slab) :: slabs, 0 < x.length ∧
      h.state.freshCell ≤ x.start ∧ x.start + x.length ≤ (h.state.make this (some k)).freshCell := by
    intro x member
    rcases List.mem_cons.1 member with rfl | later
    · exact ⟨Nat.two_pos, Nat.le_refl _, by show h.state.freshCell + 2 ≤ _; omega⟩
    · have := inside x later
      omega
  rw [new]
  refine ledger.act layout (ledger.sized.moved ledger.layout grows fun u => .inl rfl)
    (ledger.flags.make ledger.layout this k) grows (fun a issued old => ?_) ?_ (fun x member => ?_)
    (by omega) (fun o c member => ?_) (fun u c member => .inl (drafts u ▸ member)) .nil (by simp)
    (fun u x member adds inDraft => .inr (.inr ⟨adds, (drafts u).symm ▸ inDraft⟩))
    (fun x member => ?_) fun u o adds => .inl adds
  · have same : a = h.state.freshStorage := by omega
    subst same
    refine ⟨m, _, small fits (by decide), storage ▸ tiled, fun x member => ⟨this, ?_⟩⟩
    exact List.mem_append_right _ (List.mem_map_of_mem member)
  · refine List.pairwise_map.2 (List.pairwise_cons.2 ⟨fun y later => ?_, apart⟩)
    exact (inside y later).2.1
  · obtain ⟨y, inSlabs, rfl⟩ := List.mem_map.1 member
    exact bounds y inSlabs
  · by_cases same : o = this
    · subst same
      rw [cells] at member
      obtain ⟨y, inSlabs, inY⟩ := List.mem_flatMap.1 member
      have := bounds y inSlabs
      rw [Slab.mem_cells] at inY
      exact .inr (.inr (by omega))
    · left
      rwa [ledger.layout.cells_after (by simp [State.make, same]) grows.data] at member
  · obtain ⟨y, inSlabs, rfl⟩ := List.mem_map.1 member
    refine .inl ⟨alive, ?_⟩
    rw [cells]
    refine List.mem_flatMap.2 ⟨y, inSlabs, Slab.mem_cells.2 ⟨Nat.le_refl _, ?_⟩⟩
    have := bounds y inSlabs
    show y.start < y.start + y.length
    omega

/-- A retired storage takes nothing with it. -/
theorem Ledger.retired_destructor (ledger : h.Ledger) {a : Nat} (retired : a ∈ h.state.retired) :
    (h.state.storage a).destructor = some [] := by
  obtain ⟨issued, owner, clean⟩ := ledger.flags.retired a retired
  obtain ⟨n, xs, fits, tiled, -⟩ := ledger.tiled a issued
  rw [Storage.destructor_eq tiled.size tiled.pos fits]
  simp [owner, clean]

/-- The slabs of the current storage of `o`. -/
theorem Ledger.current_starts (ledger : h.Ledger) (o : O) :
    ∃ pointers, (match h.state.stripes o with
        | none => some []
        | some a => (h.state.storage a).destructor) = some pointers ∧ pointers.Nodup ∧
      (∀ c ∈ pointers, c ∈ h.state.cells o ∧ ∃ x ∈ h.slabs, x.2.start = c) ∧
      ∀ x ∈ h.slabs, x.2.start ∈ h.state.cells o → x.2.start ∈ pointers := by
  cases stripes : h.state.stripes o with
  | none => exact ⟨[], rfl, .nil, by simp, by simp [State.cells, stripes]⟩
  | some a =>
      have issued := ledger.layout.issued o a stripes
      obtain ⟨n, xs, fits, tiled, mine⟩ := ledger.tiled a issued
      have cells : h.state.cells o = (h.state.storage a).data := by simp [State.cells, stripes]
      refine ⟨(h.state.storage a).starts n, ?_,
        Storage.starts_nodup (ledger.layout.nodup a issued) tiled.size, fun c start => ⟨?_, ?_⟩,
        fun x member inside => ?_⟩
      · simp only
        rw [Storage.destructor_eq tiled.size tiled.pos fits, if_pos (ledger.flags.current o a stripes)]
      · rw [cells]
        exact Storage.mem_starts start tiled.size
      · exact slab_of_start tiled mine start
      · rw [cells] at inside
        exact ledger.slab_of_mem tiled mine member (ledger.start_mem member) inside

/-- `~Striped64` deletes what its object still has. -/
theorem Ledger.destroys (ledger : h.Ledger) (quiet : ∀ t, (h.state.pc t).adding ≠ some o)
    (alive : h.destroyed o = false) : ∃ h', h.destroy o = some h' ∧ h'.Ledger := by
  obtain ⟨pointers, deletes, once, current, all⟩ := ledger.current_starts o
  refine ⟨_, by rw [destroy, deletes]; rfl, ?_⟩
  have stays : ∀ o', (if o' = o then true else h.destroyed o') = false →
      o' ≠ o ∧ h.destroyed o' = false := by
    intro o' still
    split at still
    · cases still
    · exact ⟨‹_›, still⟩
  refine ⟨ledger.layout, ledger.sized, ledger.flags, ledger.tiled, ledger.apart, ledger.known,
    ?_, fun c member => ?_, fun x member => ?_, fun o' destroyed t => ?_⟩
  · refine List.nodup_append.2 ⟨ledger.once, once, fun c old d later same => ?_⟩
    subst same
    exact (ledger.gone c old).2.1 o alive (current c later).1
  · rcases List.mem_append.1 member with old | later
    · obtain ⟨slab, notCells, notDraft⟩ := ledger.gone c old
      exact ⟨slab, fun o' still => notCells o' (stays o' still).2, notDraft⟩
    · obtain ⟨inside, slab⟩ := current c later
      refine ⟨slab, fun o' still => ?_, fun t drafted => ?_⟩
      · exact ledger.layout.apart o o' (Ne.symm (stays o' still).1) c inside
      · exact (ledger.layout.draft t c drafted).2.1 o inside
  · rcases ledger.placed x member with deleted | ⟨still, inside⟩ | drafted
    · exact .inl (List.mem_append_left _ deleted)
    · by_cases same : x.1 = o
      · rw [same] at inside
        exact .inl (List.mem_append_right _ (all x member inside))
      · exact .inr (.inl ⟨by simpa [same] using still, inside⟩)
    · exact .inr (.inr drafted)
  · by_cases same : o' = o
    · exact same ▸ quiet t
    · exact ledger.closed o' (by simpa [same] using destroyed) t

theorem ledger_init (hashCode : T → Word) : (init hashCode : Heap T O).Ledger where
  layout := State.layout_init hashCode
  sized := State.allSized_init hashCode
  flags := State.flags_init hashCode
  tiled := by simp [init, State.init]
  apart := .nil
  known := by simp [init]
  once := .nil
  gone := by simp [init]
  placed := by simp [init]
  closed := by simp [init]

/-- `Striped64(k)` with `k` at most 2^30. -/
def Fits : Event T O → Prop
  | .act (.make _ (some k)) => k ≤ 2 ^ 30
  | _ => True

instance decidableFits : (e : Event T O) → Decidable (Fits e)
  | .act (.make _ (some _)) => inferInstanceAs (Decidable (_ ≤ _))
  | .act (.make _ none) | .act (.add _ _ _) | .act (.value _ _) | .act (.reset _ _)
  | .act (.step _) | .act (.reclaim _) | .reclaim _ | .destroy _ => isTrue trivial

/-- An action on an object that has not been destroyed deletes what it should. -/
theorem Ledger.acts [Fintype T] {a : Action T O} {s' : State T O} (ledger : h.Ledger)
    (fits : Fits (.act a : Event T O)) (allowed : (a.calls.any h.destroyed) = false)
    (taken : h.state.next a = some s') :
    ∃ pointers, h.state.deletes a = some pointers ∧
      Ledger { h with
        state := s', slabs := h.slabs ++ h.state.allocates a, deleted := h.deleted ++ pointers } := by
  have layout := ledger.layout.next taken
  have grows := ledger.layout.extends_next taken
  cases a with
  | make this k =>
      simp only [State.next] at taken
      split at taken
      · cases taken
      · rename_i notLive
        cases taken
        cases k with
        | none => exact ⟨[], rfl, ledger.moved layout grows rfl rfl rfl rfl rfl fun _ => .inl rfl⟩
        | some k =>
            have deletes := (Storage.tiled_new h.state.freshCell).growDeletes fits (by decide)
              (h.state.freshCell + 2)
            exact ⟨[], deletes, ledger.make fits notLive (by simpa [Action.calls] using allowed) layout⟩
  | step t => exact ledger.step taken
  | add t this value =>
      simp only [State.next] at taken
      split at taken
      · rename_i enabled
        cases taken
        refine ⟨[], rfl, ledger.moved layout grows rfl rfl rfl rfl rfl fun u => ?_⟩
        by_cases same : u = t
        · subst same
          refine .inr ⟨by simp [State.goto, PC.drafts], by simp [State.goto, State.Sized],
            by simp [State.goto], enabled.1, fun o adds => ?_⟩
          simp only [State.goto, if_true, PC.adding, Option.some.injEq] at adds
          subst adds
          simpa [Action.calls] using allowed
        · exact .inl (by simp [State.goto, same])
      · cases taken
  | value t this | reset t this =>
      simp only [State.next] at taken
      split at taken
      · rename_i enabled
        cases taken
        refine ⟨[], rfl, ledger.moved layout grows rfl rfl rfl rfl rfl fun u => ?_⟩
        by_cases same : u = t
        · subst same
          exact .inr ⟨by simp [State.goto, PC.drafts], by simp [State.goto, State.Sized],
            by simp [State.goto], enabled.1, by simp [State.goto, PC.adding]⟩
        · exact .inl (by simp [State.goto, same])
      · cases taken
  | reclaim a =>
      simp only [State.next] at taken
      split at taken
      · rename_i enabled
        cases taken
        exact ⟨[], ledger.retired_destructor enabled.1,
          ledger.moved layout grows rfl rfl rfl rfl rfl fun _ => .inl rfl⟩
      · cases taken

theorem Ledger.reclaim (ledger : h.Ledger) (a : Nat) :
    Ledger { h with
      state := { h.state with deleted := a :: h.state.deleted }
      deleted := h.deleted ++ [] } := by
  have layout : State.Layout { h.state with deleted := a :: h.state.deleted } :=
    ⟨ledger.layout.issued, ledger.layout.bound, ledger.layout.nodup, ledger.layout.apart,
      ledger.layout.draft, ledger.layout.here, ledger.layout.alive, ledger.layout.unborn⟩
  have grows : State.Extends h.state { h.state with deleted := a :: h.state.deleted } :=
    ⟨Nat.le_refl _, fun _ _ => rfl, fun _ => List.prefix_rfl, fun _ known => known⟩
  have kept := ledger.moved layout grows rfl rfl rfl rfl rfl fun _ => .inl rfl
  simpa using kept

theorem Ledger.next [Fintype T] {e : Event T O} (ledger : h.Ledger) (fits : Fits e)
    (taken : h.next e = some h') : h'.Ledger := by
  cases e with
  | act a =>
      simp only [Heap.next] at taken
      split at taken
      · cases taken
      · rename_i allowed
        split at taken
        · rename_i s' pointers stepped deletes
          cases taken
          obtain ⟨others, same, kept⟩ := ledger.acts fits (by simpa using allowed) stepped
          cases same.symm.trans deletes
          exact kept
        · cases taken
  | reclaim a =>
      simp only [Heap.next] at taken
      split at taken
      · rename_i enabled
        rw [ledger.retired_destructor enabled.1] at taken
        cases taken
        exact ledger.reclaim a
      · cases taken
  | destroy this =>
      simp only [Heap.next] at taken
      split at taken
      · rename_i enabled
        obtain ⟨after, destroys, kept⟩ := ledger.destroys enabled.2.2 enabled.2.1
        cases destroys.symm.trans taken
        exact kept
      · cases taken

/-- No destructor meets a shift without a value: what the machine can do, the heap can do. -/
theorem Ledger.defined [Fintype T] (ledger : h.Ledger) :
    (∀ a, Fits (.act a : Event T O) → (a.calls.any h.destroyed) = false →
      (h.state.next a).isSome → (h.next (.act a)).isSome) ∧
    (∀ a, a ∈ h.state.retired → a ∉ h.state.deleted → (h.next (.reclaim a)).isSome) ∧
    ∀ o, h.state.live o = true → h.destroyed o = false → (∀ t, (h.state.pc t).adding ≠ some o) →
      (h.next (.destroy o)).isSome := by
  refine ⟨fun a fits allowed stepped => ?_, fun a retired alive => ?_, fun o live alive quiet => ?_⟩
  · obtain ⟨s', stepped⟩ := Option.isSome_iff_exists.1 stepped
    obtain ⟨pointers, deletes, -⟩ := ledger.acts fits allowed stepped
    simp [Heap.next, allowed, stepped, deletes]
  · simp [Heap.next, retired, alive, ledger.retired_destructor retired]
  · obtain ⟨after, destroys, -⟩ := ledger.destroys quiet alive
    simp [Heap.next, live, alive, quiet, destroys]

/-- **Every slab is deleted exactly once.** Take any run from a fresh system: constructors
(`Striped64(k)` with `k` at most 2^30), calls and steps of any threads in any order, deletions of
retired storages at any time, destructors of objects on which no `add` is in progress. In the state
it reaches,

* the slabs that have been allocated do not overlap;
* every pointer that has been deleted is the first cell of a slab;
* no slab has been deleted twice, and every slab of a destroyed object has been deleted;
* a slab that has been deleted has no cell in the current storage of an object that still exists;
* no destructor is undefined; in particular, an object without a running `add` can be destroyed. -/
theorem slabs_deleted_once [Fintype T] {hashCode : T → Word} {es : List (Event T O)}
    (ran : Theory.run next (init hashCode) es = some h) (fits : ∀ e ∈ es, Fits e) :
    (h.slabs.Pairwise fun x y => x.2.start + x.2.length ≤ y.2.start) ∧
    (∀ c ∈ h.deleted, ∃ x ∈ h.slabs, x.2.start = c) ∧
    (∀ x ∈ h.slabs, h.deleted.count x.2.start ≤ 1 ∧
      (h.destroyed x.1 = true → h.deleted.count x.2.start = 1)) ∧
    (∀ x ∈ h.slabs, x.2.start ∈ h.deleted → ∀ o, h.destroyed o = false →
      ∀ c ∈ x.2.cells, c ∉ h.state.cells o) ∧
    (∀ a, Fits (.act a : Event T O) → (a.calls.any h.destroyed) = false →
      (h.state.next a).isSome → (h.next (.act a)).isSome) ∧
    (∀ a, a ∈ h.state.retired → a ∉ h.state.deleted → (h.next (.reclaim a)).isSome) ∧
    ∀ o, h.state.live o = true → h.destroyed o = false → (∀ t, (h.state.pc t).adding ≠ some o) →
      (h.next (.destroy o)).isSome := by
  have met : Theory.Along Heap.next (fun _ e => Fits e) (init hashCode) es :=
    Theory.along_of_forall fits
  have ledger : h.Ledger :=
    Theory.run_along (fun h e h' ledger fits taken => Ledger.next ledger fits taken)
      (ledger_init hashCode) met ran
  refine ⟨ledger.apart, fun c member => (ledger.gone c member).1, fun x member => ⟨?_, ?_⟩,
    fun x member deleted o alive c inX inside => ?_, ledger.defined⟩
  · exact List.nodup_iff_count_le_one.1 ledger.once _
  · intro destroyed
    rcases ledger.placed x member with deleted | ⟨alive, -⟩ | ⟨t, adding, -⟩
    · exact List.count_eq_one_of_mem ledger.once deleted
    · rw [alive] at destroyed
      cases destroyed
    · exact absurd adding (ledger.closed x.1 destroyed t)
  · -- the slab would be one of the current storage, and so would its first cell
    have current : x.2.start ∈ h.state.cells o := by
      cases stripes : h.state.stripes o with
      | none => simp [State.cells, stripes] at inside
      | some a =>
          simp only [State.cells, stripes] at inside ⊢
          obtain ⟨n, xs, -, tiled, mine⟩ := ledger.tiled a (ledger.layout.issued o a stripes)
          exact Storage.mem_starts (ledger.slab_of_mem tiled mine member inX inside) tiled.size
    exact (ledger.gone _ deleted).2.1 o alive current

/-- The table is created, grown once by thread 2 and once in vain by thread 0; then all calls return,
the retired storage is deleted and the object destroyed. -/
def growthAndEnd : List (Event (Fin 3) Unit) :=
  let calls : List (Action (Fin 3) Unit) :=
    State.creatorSchedule ++ List.replicate 5 (Action.step 0) ++ List.replicate 7 (Action.step 2)
  calls.map Event.act ++ [Event.reclaim 0, .destroy ()]

theorem slabs_deleted_once_growth :
    ∃ h : Heap (Fin 3) Unit, Theory.run next (init fun _ => 0) growthAndEnd = some h ∧
      h.slabs = [((), ⟨0, 2⟩), ((), ⟨2, 2⟩), ((), ⟨4, 2⟩)] ∧ h.deleted = [2, 0, 4] ∧
      ∀ x ∈ h.slabs, h.deleted.count x.2.start ≤ 1 := by
  have taken : (Theory.run next (init fun _ => 0) growthAndEnd).map
      (fun h => (h.slabs, h.deleted)) =
      some ([((), ⟨0, 2⟩), ((), ⟨2, 2⟩), ((), ⟨4, 2⟩)], [2, 0, 4]) := by
    decide +kernel
  obtain ⟨h, ran, lists⟩ := Option.map_eq_some_iff.1 taken
  simp only [Prod.mk.injEq] at lists
  have fits : ∀ e ∈ growthAndEnd, Fits e := by decide +kernel
  exact ⟨h, ran, lists.1, lists.2, fun x member =>
    ((slabs_deleted_once ran fits).2.2.1 x member).1⟩

end Heap

end Ccmetrics.Striped
