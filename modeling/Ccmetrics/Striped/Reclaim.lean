/-
# Striped.Reclaim -- which storages a thread may still use

A thread that calls `size()`, `get()` or `expand()` on a storage has it in its hazard slot,
and what a slot holds is not deleted. The slot is filled either by `loadAndSetHazard`, whose
second load shows that the storage is current, or by `addSlow` before it publishes the first
storage.

One branch breaks this. An `addSlow` that created the first storage does not load again
(`load` is false); when its growth loses the race, the failed exchange replaces `cur` by the
current storage, which is in no slot of this thread (`creatorRaced`). Without that branch
every use is safe (`uses_not_deleted`); with it, another thread can grow the table and have
the storage deleted before it is used (`creator_uses_deleted`).
-/
import Ccmetrics.Striped.Layout

namespace Ccmetrics.Striped

set_option autoImplicit false
set_option linter.unusedSectionVars false

namespace PC

variable {O : Type}

/-- The storage that the thread goes on to use. -/
def keeps : PC O → Option Nat
  | .addSize _ _ cur | .addGet _ _ cur _ | .addCas _ _ cur _ _ => some cur
  | .slowSize _ cur | .slowGet _ cur _ | .slowCas _ cur _ _ | .slowGrow _ cur
  | .slowExpand _ cur | .slowSwap _ cur _ | .slowRetire _ cur => some cur
  | .valueSize _ _ cur | .valueGet _ _ cur _ _ | .resetSize _ cur | .resetGet _ cur _ _ =>
      some cur
  | _ => none

/-- The storage that the thread has allocated and not yet published. -/
def drafts : PC O → Option Nat
  | .slowPublish _ cur => some cur
  | .slowSwap _ _ next => some next
  | _ => none

/-- The storage in the slot between its store and the load that confirms it. -/
def announces : PC O → Option Nat
  | .slowPublish _ cur => some cur
  | .loadCheck _ cur => cur
  | .valueCheck _ _ cur => some cur
  | _ => none

theorem uses_keeps {pc : PC O} {a : Nat} (uses : pc.uses = some a) : pc.keeps = some a := by
  cases pc <;> first | exact uses | cases uses

end PC

namespace State

variable {T O : Type} [DecidableEq T] [DecidableEq O]
variable {s s' : State T O} {t u : T} {e : Effect O} {nx : Next O} {o : O}

/-- The next step of thread `t` is the lost growth of an `addSlow` that created the first
storage itself. -/
def creatorRaced (s : State T O) (t : T) : Bool :=
  match s.pc t with
  | .slowSwap f cur _ => !f.load && decide (s.stripes f.this ≠ some cur)
  | _ => false

/-! ## What a step does to the storages a thread knows -/

theorem keeps_slowTop {f : Slow O} {cur a : Nat} (keeps : (slowTop f (some cur)).keeps = some a) :
    cur = a := by
  simp only [slowTop] at keeps
  split at keeps
  · cases keeps
  · simpa [PC.keeps] using keeps

/-- A thread keeps a storage it kept before, or one that its slot has just been confirmed to
hold, or the one it has just published, unless it takes the bad branch. -/
theorem access_keeps {a : Nat} (access : Access s t (s.pc t) e nx) (here : s.Local (s.pc t))
    (sound : s.creatorRaced t = false) (keeps : (Next.pc nx).keeps = some a) :
    ((s.pc t).keeps = some a ∧ (s.after t e nx).slot t = s.slot t) ∨
    ((s.pc t).announces = some a ∧ (s.after t e nx).slot t = s.slot t ∧
      ((∃ o, s.stripes o = some a) ∨ ∃ o, e = .stripes o a)) := by
  rw [after_slot]
  generalize running : s.pc t = pc at access here
  cases access
  case addSize | addGet | slowSize | slowGet | slowContended | slowSmall | slowGrown =>
      exact .inl ⟨keeps, rfl⟩
  case slowRehash f cur idx expected =>
      exact .inl ⟨congrArg some (keeps_slowTop keeps), rfl⟩
  case slowFull | slowRetire => exact .inl ⟨congrArg some (keeps_slowTop keeps), rfl⟩
  case slowExpand f cur => exact .inl ⟨keeps, rfl⟩
  case slowPublished f cur empty =>
      cases keeps
      exact .inr ⟨rfl, rfl, .inr ⟨f.this, rfl⟩⟩
  case slowLate f cur late =>
      simp only [slowTop, here.1, if_true, Next.pc_goto] at keeps
      cases keeps
  case slowRaced f cur next raced =>
      have load : f.load = true := by simpa [creatorRaced, running, raced] using sound
      cases stripes : s.stripes f.this <;> rw [stripes] at keeps <;>
        simp [slowTop, load, PC.keeps] at keeps
  case loadSame site =>
      cases stripes : s.stripes site.this with
      | none => cases site <;> simp [stripes, loaded, PC.keeps] at keeps
      | some b =>
          have same : b = a := by cases site <;> simpa [stripes, loaded, PC.keeps] using keeps
          exact .inr ⟨congrArg some same, rfl, .inl ⟨site.this, by rw [stripes, same]⟩⟩
  case valueSame this ret cur stripes =>
      cases keeps
      exact .inr ⟨rfl, rfl, .inl ⟨this, stripes⟩⟩
  case valueSize | valueGet =>
      simp only [valueLoop, Next.pc_goto] at keeps
      split at keeps
      · exact .inl ⟨keeps, rfl⟩
      · cases keeps
  case resetSize | resetGet =>
      simp only [resetLoop, Next.pc_goto] at keeps
      split at keeps
      · exact .inl ⟨keeps, rfl⟩
      · cases keeps
  all_goals cases keeps

theorem access_announces {pc : PC O} {a : Nat} (access : Access s t pc e nx)
    (announces : (Next.pc nx).announces = some a) : (s.after t e nx).slot t = some a := by
  rw [after_slot]
  cases access
  case slowNew f => simpa [apply, PC.announces] using announces
  case loadSet site cur => simpa [apply, PC.announces] using announces
  case valueSet this ret cur => simpa [apply, PC.announces] using announces
  case slowLate | slowRehash | slowFull | slowRetire =>
      simp only [slowTop, Next.pc_goto] at announces
      split at announces <;> cases announces
  case slowRaced f cur next raced =>
      cases stripes : s.stripes f.this <;> rw [stripes] at announces <;>
        simp only [slowTop, Next.pc_goto] at announces
      · cases announces
      · split at announces <;> cases announces
  case loadSame site =>
      cases site <;> cases stripes : s.stripes _ <;> rw [stripes] at announces <;> cases announces
  case valueSize | valueGet =>
      simp only [valueLoop, Next.pc_goto] at announces
      split at announces <;> cases announces
  case resetSize | resetGet =>
      simp only [resetLoop, Next.pc_goto] at announces
      split at announces <;> cases announces
  all_goals cases announces

theorem access_drafts {pc : PC O} {a : Nat} (access : Access s t pc e nx)
    (drafts : (Next.pc nx).drafts = some a) :
    a = s.freshStorage ∧ (e = .create ∨ ∃ cur, e = .expand cur) := by
  rcases access_draft access with ⟨f, -, rfl, rfl⟩ | ⟨f, cur, -, rfl, rfl⟩ | ⟨notNew, notNext⟩
  · exact ⟨by simpa [PC.drafts] using drafts.symm, .inl rfl⟩
  · exact ⟨by simpa [PC.drafts] using drafts.symm, .inr ⟨cur, rfl⟩⟩
  · generalize Next.pc nx = pc at drafts notNew notNext
    cases pc with
    | slowPublish f cur => exact absurd rfl (notNew f cur)
    | slowSwap f cur next => exact absurd rfl (notNext f cur next)
    | _ => cases drafts

theorem access_delete {pc : PC O} {a : Nat} {disavow : Bool}
    (access : Access s t pc (.delete a disavow) nx) : pc.drafts = some a := by
  cases access <;> rfl

theorem access_publish {pc : PC O} {this : O} {a : Nat}
    (access : Access s t pc (.stripes this a) nx) : pc.drafts = some a := by
  cases access <;> rfl

theorem access_retire {pc : PC O} {a : Nat} (access : Access s t pc (.retire a) nx) :
    ∃ f, pc = .slowRetire f a := by
  cases access
  exact ⟨_, rfl⟩

theorem access_slowRetire {pc : PC O} {f : Slow O} {cur : Nat} (access : Access s t pc e nx)
    (retiring : Next.pc nx = .slowRetire f cur) :
    ∃ next, pc = .slowSwap f cur next ∧ e = .stripes f.this next ∧ s.stripes f.this = some cur := by
  cases access
  case slowGrown f' cur' next same =>
      cases retiring
      exact ⟨next, rfl, rfl, same⟩
  case slowLate | slowRehash | slowFull | slowRetire =>
      simp only [slowTop, Next.pc_goto] at retiring
      split at retiring <;> cases retiring
  case slowRaced f cur next raced =>
      cases stripes : s.stripes f.this <;> rw [stripes] at retiring <;>
        simp only [slowTop, Next.pc_goto] at retiring
      · cases retiring
      · split at retiring <;> cases retiring
  case loadSame site =>
      cases site <;> cases stripes : s.stripes _ <;> rw [stripes] at retiring <;> cases retiring
  case valueSize | valueGet =>
      simp only [valueLoop, Next.pc_goto] at retiring
      split at retiring <;> cases retiring
  case resetSize | resetGet =>
      simp only [resetLoop, Next.pc_goto] at retiring
      split at retiring <;> cases retiring
  all_goals cases retiring

theorem apply_slot_other (other : u ≠ t) (e : Effect O) : (s.apply t e).slot u = s.slot u := by
  cases e <;> simp [apply, allocate, other]

theorem apply_retired (e : Effect O) :
    (s.apply t e).retired = (match e with | .retire a => a :: s.retired | _ => s.retired) := by
  cases e <;> rfl

theorem apply_deleted (e : Effect O) :
    (s.apply t e).deleted = (match e with | .delete a _ => a :: s.deleted | _ => s.deleted) := by
  cases e <;> rfl

/-! ## The invariant -/

structure Safe (s : State T O) : Prop where
  known : ∀ a, a ∈ s.retired ∨ a ∈ s.deleted → a < s.freshStorage
  current : ∀ o a, s.stripes o = some a → a ∉ s.retired ∧ a ∉ s.deleted
  kept : ∀ t a, (s.pc t).keeps = some a → s.slot t = some a ∧ a ∉ s.deleted
  announced : ∀ t a, (s.pc t).announces = some a → s.slot t = some a
  retiring : ∀ t f a, s.pc t = .slowRetire f a → ∀ o, s.stripes o ≠ some a
  drafted : ∀ t a, (s.pc t).drafts = some a →
    a < s.freshStorage ∧ a ∉ s.retired ∧ a ∉ s.deleted ∧ (∀ o, s.stripes o ≠ some a) ∧
      (∀ u, (s.pc u).keeps ≠ some a) ∧ ∀ u, (s.pc u).drafts = some a → u = t

/-- A storage that a thread keeps has been allocated. -/
theorem Layout.keeps_issued (layout : s.Layout) {a : Nat} (keeps : (s.pc t).keeps = some a) :
    a < s.freshStorage := by
  have here := layout.here t
  cases pc : s.pc t <;> rw [pc] at keeps here <;> cases keeps <;>
    first | exact here.1 | exact here.1.1

/-- Two objects never share a storage. -/
theorem Layout.stripes_inj (layout : s.Layout) {o o' : O} {a : Nat} (first : s.stripes o = some a)
    (second : s.stripes o' = some a) : o = o' := by
  by_contra ne
  have inside : (s.storage a).get 0 ∈ (s.storage a).data := Storage.get_mem (s.storage a).size_pos
  exact layout.apart o o' ne _ (by simpa [State.cells, first] using inside)
    (by simpa [State.cells, second] using inside)

/-- Deleting touches neither what is current nor what a thread keeps. -/
theorem not_deleted_after (access : Access s t (s.pc t) e nx) {a : Nat}
    (alive : a ∉ s.deleted) (apart : (s.pc t).drafts ≠ some a) : a ∉ (s.after t e nx).deleted := by
  rw [after_deleted, apply_deleted]
  cases e with
  | delete b disavow =>
      simp only [List.mem_cons, not_or]
      refine ⟨?_, alive⟩
      rintro rfl
      exact apart (access_delete access)
  | _ => exact alive

theorem not_retired_after (access : Access s t (s.pc t) e nx) {a : Nat}
    (live : a ∉ s.retired) (apart : ∀ f, s.pc t ≠ .slowRetire f a) :
    a ∉ (s.after t e nx).retired := by
  rw [after_retired, apply_retired]
  cases e with
  | retire b =>
      simp only [List.mem_cons, not_or]
      refine ⟨?_, live⟩
      rintro rfl
      obtain ⟨f, pc⟩ := access_retire access
      exact apart f pc
  | _ => exact live

section Safe

variable {a : Nat} (layout : s.Layout) (safe : s.Safe) (access : Access s t (s.pc t) e nx)
include layout safe access

theorem Safe.known_after (member : a ∈ (s.after t e nx).retired ∨ a ∈ (s.after t e nx).deleted) :
    a < s.freshStorage := by
  rw [after_retired, after_deleted, apply_retired, apply_deleted] at member
  cases e with
  | retire b =>
      rcases member with inRetired | inDeleted
      · rcases List.mem_cons.1 inRetired with rfl | old
        · obtain ⟨f, pc⟩ := access_retire access
          exact layout.keeps_issued (t := t) (by rw [pc]; rfl)
        · exact safe.known a (.inl old)
      · exact safe.known a (.inr inDeleted)
  | delete b disavow =>
      rcases member with inRetired | inDeleted
      · exact safe.known a (.inl inRetired)
      · rcases List.mem_cons.1 inDeleted with rfl | old
        · exact (safe.drafted t a (access_delete access)).1
        · exact safe.known a (.inr old)
  | _ => exact safe.known a member

omit layout in
theorem Safe.current_after (current : (s.after t e nx).stripes o = some a) :
    a ∉ (s.after t e nx).retired ∧ a ∉ (s.after t e nx).deleted := by
  rw [after_stripes, apply_stripes] at current
  have old : s.stripes o = some a → a ∉ (s.after t e nx).retired ∧
      a ∉ (s.after t e nx).deleted := by
    intro before
    refine ⟨not_retired_after access (safe.current o a before).1 fun f pc => ?_,
      not_deleted_after access (safe.current o a before).2 fun drafts => ?_⟩
    · exact safe.retiring t f a pc o before
    · exact (safe.drafted t a drafts).2.2.2.1 o before
  cases e with
  | stripes this b =>
      simp only at current
      split at current
      · cases current
        obtain ⟨-, retired, deleted, -⟩ := safe.drafted t a (access_publish access)
        rw [after_retired, after_deleted]
        exact ⟨retired, deleted⟩
      · exact old current
  | _ => exact old current

/-- What a thread keeps is in its slot. -/
theorem Safe.kept_after (sound : s.creatorRaced t = false)
    (keeps : ((s.after t e nx).pc u).keeps = some a) :
    (s.after t e nx).slot u = some a ∧ a ∉ (s.after t e nx).deleted := by
  have unkept : ∀ {u a}, (s.pc u).keeps = some a → (s.pc t).drafts ≠ some a :=
    fun keeps drafts => (safe.drafted t _ drafts).2.2.2.2.1 _ keeps
  by_cases same : u = t
  · subst same
    rw [after_pc_self] at keeps
    rcases access_keeps access (layout.here u) sound keeps with
      ⟨old, slot⟩ | ⟨announces, slot, ⟨o, current⟩ | ⟨o, rfl⟩⟩
    · obtain ⟨held, alive⟩ := safe.kept u a old
      exact ⟨slot.trans held, not_deleted_after access alive (unkept old)⟩
    · refine ⟨slot.trans (safe.announced u a announces),
        not_deleted_after access (safe.current o a current).2 fun drafts => ?_⟩
      exact (safe.drafted u a drafts).2.2.2.1 o current
    · obtain ⟨-, -, alive, -⟩ := safe.drafted u a (access_publish access)
      exact ⟨slot.trans (safe.announced u a announces), by rw [after_deleted]; exact alive⟩
  · rw [after_pc_other same] at keeps
    obtain ⟨held, alive⟩ := safe.kept u a keeps
    rw [after_slot, apply_slot_other same]
    exact ⟨held, not_deleted_after access alive (unkept keeps)⟩

/-- A thread only retires what it has replaced. -/
theorem Safe.retiring_after {f : Slow O} (retiring : (s.after t e nx).pc u = .slowRetire f a) :
    (s.after t e nx).stripes o ≠ some a := by
  have unkept : ∀ {u a}, (s.pc u).keeps = some a → (s.pc t).drafts ≠ some a :=
    fun keeps drafts => (safe.drafted t _ drafts).2.2.2.2.1 _ keeps
  intro current
  rw [after_stripes, apply_stripes] at current
  by_cases same : u = t
  · subst same
    rw [after_pc_self] at retiring
    obtain ⟨next, pc, rfl, before⟩ := access_slowRetire access retiring
    simp only at current
    split at current
    · cases current
      exact unkept (u := u) (a := a) (by rw [pc]; rfl) (by rw [pc]; rfl)
    · rename_i other
      exact other (layout.stripes_inj current before)
  · rw [after_pc_other same] at retiring
    cases e with
    | stripes this b =>
        simp only at current
        split at current
        · cases current
          exact unkept (u := u) (a := a) (by rw [retiring]; rfl) (access_publish access)
        · exact safe.retiring u f a retiring o current
    | _ => exact safe.retiring u f a retiring o current

/-- What a thread keeps after its step is not a storage that it has just drafted. -/
theorem Safe.keeps_after (sound : s.creatorRaced t = false) (unstriped : ∀ o, s.stripes o ≠ some a)
    (unused : ∀ u, (s.pc u).keeps ≠ some a) (unpublished : ∀ o, e ≠ .stripes o a) :
    ((s.after t e nx).pc u).keeps ≠ some a := by
  intro keeps
  by_cases self : u = t
  · subst self
    rw [after_pc_self] at keeps
    rcases access_keeps access (layout.here u) sound keeps with
      ⟨old, -⟩ | ⟨-, -, ⟨o, current⟩ | ⟨o, isPublish⟩⟩
    · exact unused u old
    · exact unstriped o current
    · exact unpublished o isPublish
  · rw [after_pc_other self] at keeps
    exact unused u keeps

/-- A draft belongs to one thread, and nothing else knows it. -/
theorem Safe.drafted_after (sound : s.creatorRaced t = false)
    (drafts : ((s.after t e nx).pc u).drafts = some a) :
    a < (s.after t e nx).freshStorage ∧ a ∉ (s.after t e nx).retired ∧
      a ∉ (s.after t e nx).deleted ∧ (∀ o, (s.after t e nx).stripes o ≠ some a) ∧
      (∀ v, ((s.after t e nx).pc v).keeps ≠ some a) ∧
      ∀ v, ((s.after t e nx).pc v).drafts = some a → v = u := by
  by_cases same : u = t
  · subst same
    rw [after_pc_self] at drafts
    obtain ⟨rfl, new⟩ := access_drafts access drafts
    have unknown : s.freshStorage ∉ s.retired ∧ s.freshStorage ∉ s.deleted :=
      ⟨fun member => Nat.lt_irrefl _ (safe.known _ (.inl member)),
        fun member => Nat.lt_irrefl _ (safe.known _ (.inr member))⟩
    have unstriped : ∀ o, s.stripes o ≠ some s.freshStorage :=
      fun o current => Nat.lt_irrefl _ (layout.issued o _ current)
    have unused : ∀ v, (s.pc v).keeps ≠ some s.freshStorage :=
      fun v keeps => Nat.lt_irrefl _ (layout.keeps_issued keeps)
    refine ⟨?_, ?_, ?_, fun o => ?_, fun v => ?_, fun v other => ?_⟩
    · rw [after_freshStorage]
      rcases new with rfl | ⟨cur, rfl⟩ <;> simp [apply, allocate]
    · rw [after_retired, apply_retired]
      rcases new with rfl | ⟨cur, rfl⟩ <;> exact unknown.1
    · rw [after_deleted, apply_deleted]
      rcases new with rfl | ⟨cur, rfl⟩ <;> exact unknown.2
    · rw [after_stripes, apply_stripes]
      rcases new with rfl | ⟨cur, rfl⟩ <;> exact unstriped o
    · refine safe.keeps_after layout access sound unstriped unused fun o publishes => ?_
      rcases new with new | ⟨cur, new⟩ <;> rw [publishes] at new <;> cases new
    · by_contra self
      rw [after_pc_other self] at other
      exact Nat.lt_irrefl _ (safe.drafted v _ other).1
  · rw [after_pc_other same] at drafts
    obtain ⟨issued, retired, deleted, unstriped, unused, mine⟩ := safe.drafted u a drafts
    have apart : (s.pc t).drafts ≠ some a := fun other => same (mine t other).symm
    have unpublished : ∀ o, e ≠ .stripes o a := by
      rintro o rfl
      exact apart (access_publish access)
    refine ⟨Nat.lt_of_lt_of_le issued (layout.extends access).fresh,
      not_retired_after access retired fun f pc => unused t (by rw [pc]; rfl),
      not_deleted_after access deleted apart, fun o current => ?_,
      fun v => safe.keeps_after layout access sound unstriped unused unpublished,
      fun v other => ?_⟩
    · rw [after_stripes, apply_stripes] at current
      cases e with
      | stripes this b =>
          simp only at current
          split at current
          · cases current
            exact unpublished this rfl
          · exact unstriped o current
      | _ => exact unstriped o current
    · by_cases self : v = t
      · subst self
        rw [after_pc_self] at other
        exact absurd issued (by rw [(access_drafts access other).1]; exact Nat.lt_irrefl _)
      · rw [after_pc_other self] at other
        exact mine v other

theorem Safe.after (sound : s.creatorRaced t = false) : (s.after t e nx).Safe := by
  constructor
  case known =>
      intro a member
      exact Nat.lt_of_lt_of_le (safe.known_after layout access member) (layout.extends access).fresh
  case current => exact fun o a current => safe.current_after access current
  case kept => exact fun u a keeps => safe.kept_after layout access sound keeps
  case announced =>
      intro u a announces
      by_cases same : u = t
      · subst same
        rw [after_pc_self] at announces
        exact access_announces access announces
      · rw [after_pc_other same] at announces
        rw [after_slot, apply_slot_other same]
        exact safe.announced u a announces
  case retiring => exact fun u f a retiring o => safe.retiring_after layout access retiring
  case drafted => exact fun u a drafts => safe.drafted_after layout access sound drafts

end Safe

/-! ## Every run -/

/-- A state with the same storages, in which one idle thread may have entered a function. -/
theorem Safe.moved (safe : s.Safe) (s' : State T O) (pc : PC O) (sameStripes : s'.stripes = s.stripes)
    (sameFresh : s'.freshStorage = s.freshStorage) (sameSlot : s'.slot = s.slot)
    (sameRetired : s'.retired = s.retired) (sameDeleted : s'.deleted = s.deleted)
    (entered : pc.keeps = none ∧ pc.announces = none ∧ pc.drafts = none ∧
      ∀ f a, pc ≠ .slowRetire f a)
    (here : ∀ u, s'.pc u = s.pc u ∨ s'.pc u = pc) : s'.Safe := by
  have keeps : ∀ {u a}, (s'.pc u).keeps = some a → (s.pc u).keeps = some a := by
    intro u a keeps
    rcases here u with same | now
    · rwa [same] at keeps
    · rw [now, entered.1] at keeps; cases keeps
  have drafts : ∀ {u a}, (s'.pc u).drafts = some a → (s.pc u).drafts = some a := by
    intro u a drafts
    rcases here u with same | now
    · rwa [same] at drafts
    · rw [now, entered.2.2.1] at drafts; cases drafts
  constructor
  case known => rw [sameRetired, sameDeleted, sameFresh]; exact safe.known
  case current => rw [sameStripes, sameRetired, sameDeleted]; exact safe.current
  case kept =>
      intro u a keeping
      rw [sameSlot, sameDeleted]
      exact safe.kept u a (keeps keeping)
  case announced =>
      intro u a announces
      rw [sameSlot]
      rcases here u with same | now
      · exact safe.announced u a (same ▸ announces)
      · rw [now, entered.2.1] at announces; cases announces
  case retiring =>
      intro u f a retiring
      rw [sameStripes]
      rcases here u with same | now
      · exact safe.retiring u f a (same ▸ retiring)
      · exact absurd (now.symm.trans retiring) (entered.2.2.2 f a)
  case drafted =>
      intro u a drafting
      obtain ⟨issued, retired, deleted, unstriped, unused, mine⟩ :=
        safe.drafted u a (drafts drafting)
      rw [sameFresh, sameRetired, sameDeleted, sameStripes]
      exact ⟨issued, retired, deleted, unstriped, fun v keeping => unused v (keeps keeping),
        fun v other => mine v (drafts other)⟩

/-- `Striped64(k)` publishes a storage nobody knows. -/
theorem Safe.make (layout : s.Layout) (safe : s.Safe) (this : O) (k : Nat) :
    (s.make this (some k)).Safe := by
  have old : ∀ {o a}, (s.make this (some k)).stripes o = some a →
      s.stripes o = some a ∨ a = s.freshStorage := by
    intro o a current
    simp only [State.make] at current
    split at current
    · cases current; exact .inr rfl
    · exact .inl current
  constructor
  case known =>
      intro a member
      exact Nat.lt_succ_of_lt (safe.known a member)
  case current =>
      intro o a current
      rcases old current with before | rfl
      · exact safe.current o a before
      · exact ⟨fun member => Nat.lt_irrefl _ (safe.known _ (.inl member)),
          fun member => Nat.lt_irrefl _ (safe.known _ (.inr member))⟩
  case kept => exact safe.kept
  case announced => exact safe.announced
  case retiring =>
      intro u f a retiring o current
      rcases old current with before | rfl
      · exact safe.retiring u f a retiring o before
      · have running : s.pc u = .slowRetire f s.freshStorage := retiring
        exact Nat.lt_irrefl _ (layout.keeps_issued (t := u) (by rw [running]; rfl))
  case drafted =>
      intro u a drafts
      obtain ⟨issued, retired, deleted, unstriped, rest⟩ := safe.drafted u a drafts
      refine ⟨Nat.lt_succ_of_lt issued, retired, deleted, fun o current => ?_, rest⟩
      rcases old current with before | rfl
      · exact unstriped o before
      · exact Nat.lt_irrefl _ issued

/-- A deletion spares what is in a slot. -/
theorem Safe.reclaim (safe : s.Safe) {a : Nat} (retired : a ∈ s.retired)
    (free : ∀ t, s.slot t ≠ some a) : Safe { s with deleted := a :: s.deleted } where
  known b member := by
    rcases member with inRetired | inDeleted
    · exact safe.known b (.inl inRetired)
    · rcases List.mem_cons.1 inDeleted with rfl | old
      · exact safe.known b (.inl retired)
      · exact safe.known b (.inr old)
  current o b current := by
    obtain ⟨live, alive⟩ := safe.current o b current
    refine ⟨live, fun member => ?_⟩
    rcases List.mem_cons.1 member with rfl | old
    · exact live retired
    · exact alive old
  kept t b keeps := by
    obtain ⟨held, alive⟩ := safe.kept t b keeps
    refine ⟨held, fun member => ?_⟩
    rcases List.mem_cons.1 member with rfl | old
    · exact free t held
    · exact alive old
  announced := safe.announced
  retiring := safe.retiring
  drafted t b drafts := by
    obtain ⟨issued, live, alive, rest⟩ := safe.drafted t b drafts
    refine ⟨issued, live, fun member => ?_, rest⟩
    rcases List.mem_cons.1 member with rfl | old
    · exact live retired
    · exact alive old

/-- The action is not the lost growth of a creator. -/
def sound (s : State T O) : Action T O → Bool
  | .step t => !s.creatorRaced t
  | _ => true

theorem Safe.next [Fintype T] (layout : s.Layout) (safe : s.Safe) {a : Action T O}
    (sound : s.sound a = true) (taken : s.next a = some s') : s'.Safe := by
  have entering : ∀ {t : T} (pc : PC O) {call : T → Nat} {log : List (Add O)},
      (pc.keeps = none ∧ pc.announces = none ∧ pc.drafts = none ∧ ∀ f a, pc ≠ .slowRetire f a) →
      Safe { s.goto t pc with call := call, log := log } := by
    intro t pc call log plain
    refine safe.moved _ pc rfl rfl rfl rfl rfl plain fun u => ?_
    by_cases same : u = t
    · exact .inr (by simp [State.goto, same])
    · exact .inl (by simp [State.goto, same])
  cases a with
  | make this k =>
      simp only [State.next] at taken
      split at taken
      · cases taken
      · cases taken
        cases k with
        | none =>
            exact safe.moved (s.make this none) .idle rfl rfl rfl rfl rfl
              ⟨rfl, rfl, rfl, by simp⟩ fun _ => .inl rfl
        | some k => exact safe.make layout this k
  | add t this value =>
      simp only [State.next] at taken
      split at taken
      · cases taken
        exact entering (.addStripes this value) ⟨rfl, rfl, rfl, by simp⟩
      · cases taken
  | value t this =>
      simp only [State.next] at taken
      split at taken
      · cases taken
        exact entering (.valueBase this) ⟨rfl, rfl, rfl, by simp⟩
      · cases taken
  | reset t this =>
      simp only [State.next] at taken
      split at taken
      · cases taken
        exact entering (.resetBase this) ⟨rfl, rfl, rfl, by simp⟩
      · cases taken
  | step t =>
      obtain ⟨e, nx, access, rfl⟩ := next_step taken
      exact safe.after layout access (by simpa [State.sound] using sound)
  | reclaim storage =>
      simp only [State.next] at taken
      split at taken
      · rename_i enabled
        cases taken
        exact safe.reclaim enabled.1 enabled.2.2
      · cases taken

theorem safe_init (hashCode : T → Word) : (init hashCode : State T O).Safe := by
  constructor <;> simp [init, PC.keeps, PC.announces, PC.drafts]

/-- **Stripe storage is used safely**, as long as no `addSlow` that created the first storage
itself loses a growth race: in every state of such a run, a thread about to call `size()`,
`get()` or `expand()` on a storage has it in its slot, and it has not been deleted. -/
theorem uses_not_deleted [Fintype T] {hashCode : T → Word} {as : List (Action T O)}
    (ran : Theory.run next (init hashCode) as = some s)
    (sound : Theory.Along next (fun s a => s.sound a = true) (init hashCode) as) (t : T) (a : Nat)
    (uses : (s.pc t).uses = some a) : s.slot t = some a ∧ a ∉ s.deleted := by
  have inv : s.Layout ∧ s.Safe :=
    Theory.run_along (P := fun s : State T O => s.Layout ∧ s.Safe)
      (fun s a s' inv sound taken => ⟨inv.1.next taken, inv.2.next inv.1 sound taken⟩)
      ⟨layout_init hashCode, safe_init hashCode⟩ sound ran
  exact inv.2.kept t a (PC.uses_keeps uses)

/-- Three threads and one object. Thread 0 loses the base to thread 1, creates the stripes
and is contended twice; thread 2 grows the table before thread 0 does. -/
def creatorSchedule : List (Action (Fin 3) Unit) :=
  let steps (t : Fin 3) (n : Nat) : List (Action (Fin 3) Unit) := List.replicate n (Action.step t)
  let bump := Action.add 1 () 1 :: steps 1 8
  [Action.make () none, .add 0 () 1] ++ steps 0 2 ++
    (Action.add 1 () 1 :: steps 1 3) ++ steps 0 5 ++
    bump ++ steps 0 3 ++ bump ++ steps 0 3 ++
    (Action.add 2 () 1 :: steps 2 6) ++ bump ++ steps 2 6 ++ bump ++ steps 2 6 ++ bump ++ steps 2 5

theorem uses_not_deleted_creator :
    ∃ s : State (Fin 3) Unit, Theory.run next (init fun _ => 0) (creatorSchedule.take 32) = some s ∧
      (s.pc 0).uses = some 0 ∧ s.slot 0 = some 0 ∧ 0 ∉ s.deleted := by
  have taken : (Theory.run next (init fun _ => 0 : State (Fin 3) Unit)
      (creatorSchedule.take 32)).map (fun s => (s.pc 0).uses) = some (some 0) := by
    decide +kernel
  obtain ⟨s, ran, uses⟩ := Option.map_eq_some_iff.1 taken
  exact ⟨s, ran, uses, uses_not_deleted ran (by decide +kernel) 0 0 uses⟩

/-- Thread 0 has the storage 2 from its failed exchange and not in its slot; thread 2 grows
the table again, and the storage is deleted. -/
theorem creator_uses_deleted :
    ∃ s : State (Fin 3) Unit, Theory.run next (init fun _ => 0)
      (creatorSchedule ++ Action.step 0 :: List.replicate 5 (.step 2) ++
        (Action.add 1 () 1 :: List.replicate 8 (.step 1)) ++ List.replicate 7 (Action.step 2) ++
        [Action.reclaim 2]) = some s ∧
      (s.pc 0).uses = some 2 ∧ 2 ∈ s.deleted := by
  have taken : (Theory.run next (init fun _ => 0 : State (Fin 3) Unit)
      (creatorSchedule ++ Action.step 0 :: List.replicate 5 (.step 2) ++
        (Action.add 1 () 1 :: List.replicate 8 (.step 1)) ++ List.replicate 7 (Action.step 2) ++
        [Action.reclaim 2])).map (fun s => ((s.pc 0).uses, decide (2 ∈ s.deleted))) =
      some (some 2, true) := by
    decide +kernel
  obtain ⟨s, ran, reached⟩ := Option.map_eq_some_iff.1 taken
  simp only [Prod.mk.injEq, decide_eq_true_eq] at reached
  exact ⟨s, ran, reached⟩

end State

end Ccmetrics.Striped
