/-
# Hazard.Ownership -- who may touch a record, and which records are on the list

The flag `active_` serves two purposes: a thread owns the record that `allocate` gave it,
and a helper locks an inactive record while it drains it. `Sys.Holds t r` covers both, and
also the record that `allocate` is still building. `Owned` says that a record has at most
one holder and is active while it has one. `Listing` says which records are reachable from
`head_`: every record that a thread owns or walks over is, a record under construction is
not, and a record off the list has only null slots.

Both are kept by every access (`owned_step`, `listing_step`) and by every call
(`owned_call`, `listing_call`).
-/
import Ccmetrics.Hazard.Pointers
import Mathlib.Logic.Relation

namespace Ccmetrics.Hazard

set_option autoImplicit false
set_option linter.unusedSectionVars false

namespace PC

variable {P C : Type}

/-- The record the running member function was called on. -/
def this? : PC P C → Option Nat
  | .retireSlot this _ | .setSlot this _ _ | .load this _ _ _ | .loadSet this _ _ _ _
  | .loadCheck this _ _ _ _ | .loadClear this _ | .push this _ | .should this
  | .scanHead this _ | .scanSlot this _ _ _ _ | .sweep this _ _ _ | .helpHead this
  | .helpLock this _ | .helpDrain this _ | .helpShould this _ | .helpUnlock this _ => some this
  | _ => none

/-- The record `allocate` has made but not yet pushed. -/
def building : PC P C → Option Nat
  | .allocNext hp | .allocPush hp _ => some hp
  | _ => none

/-- The record `helpScan` has locked. -/
def draining : PC P C → Option Nat
  | .scanHead _ helping | .scanSlot _ helping _ _ _ | .sweep _ helping _ _ => helping
  | .helpDrain _ hp | .helpShould _ hp | .helpUnlock _ hp => some hp
  | _ => none

/-- The record whose fields the next access reads on a walk along the list. -/
def visiting : PC P C → Option Nat
  | .allocActive hp | .allocLock hp | .scanSlot _ _ hp _ _ | .helpLock _ hp => some hp
  | _ => none

end PC

namespace Next

variable {P C : Type}

/-- The thread's own record after the access. -/
def own (before : Option Nat) : Next P C → Option Nat
  | .ret (.record hp) => some hp
  | .ret .released => none
  | _ => before

/-- Where the thread stands after the access. -/
def pc : Next P C → PC P C
  | .goto pc => pc
  | .ret _ => .idle

@[simp] theorem pc_goto (at_ : PC P C) : (Next.goto at_).pc = at_ := rfl

@[simp] theorem pc_ret (r : Ret P) : (Next.ret r : Next P C).pc = .idle := rfl

end Next

/-! ## The walks along the record list -/

section Walks

variable {P C : Type} (this : Nat) (helping o own : Option Nat) (live : List P)

@[simp] theorem walkAlloc_this : (walkAlloc o : Next P C).pc.this? = none := by cases o <;> rfl

@[simp] theorem walkAlloc_building : (walkAlloc o : Next P C).pc.building = none := by
  cases o <;> rfl

@[simp] theorem walkAlloc_draining : (walkAlloc o : Next P C).pc.draining = none := by
  cases o <;> rfl

@[simp] theorem walkAlloc_visiting : (walkAlloc o : Next P C).pc.visiting = o := by
  cases o <;> rfl

@[simp] theorem walkAlloc_own : (walkAlloc o : Next P C).own own = own := by cases o <;> rfl

@[simp] theorem walkScan_this : (walkScan this helping live o : PC P C).this? = some this := by
  cases o <;> rfl

@[simp] theorem walkScan_building : (walkScan this helping live o : PC P C).building = none := by
  cases o <;> rfl

@[simp] theorem walkScan_draining :
    (walkScan this helping live o : PC P C).draining = helping := by
  cases o <;> rfl

@[simp] theorem walkScan_visiting : (walkScan this helping live o : PC P C).visiting = o := by
  cases o <;> rfl

@[simp] theorem afterScan_this : (afterScan this o : PC P C).this? = some this := by
  cases o <;> rfl

@[simp] theorem afterScan_building : (afterScan this o : PC P C).building = none := by
  cases o <;> rfl

@[simp] theorem afterScan_draining : (afterScan this o : PC P C).draining = o := by
  cases o <;> rfl

@[simp] theorem afterScan_visiting : (afterScan this o : PC P C).visiting = none := by
  cases o <;> rfl

theorem walkHelp_this {r : Nat} (on : (walkHelp this o : Next P C).pc.this? = some r) :
    this = r := by
  cases o
  · simp [walkHelp, PC.this?] at on
  · simpa [walkHelp, PC.this?] using on

@[simp] theorem walkHelp_building : (walkHelp this o : Next P C).pc.building = none := by
  cases o <;> rfl

@[simp] theorem walkHelp_draining : (walkHelp this o : Next P C).pc.draining = none := by
  cases o <;> rfl

@[simp] theorem walkHelp_visiting : (walkHelp this o : Next P C).pc.visiting = o := by
  cases o <;> rfl

@[simp] theorem walkHelp_own : (walkHelp this o : Next P C).own own = own := by cases o <;> rfl

end Walks

/-! ## The list of records -/

namespace HazardPointers

variable {P : Type}

/-- `b` is met when following `next_` from `a`. -/
def Onward (h : HazardPointers P) (a b : Nat) : Prop :=
  Relation.ReflTransGen (fun x y => (h.record x).next = some y) a b

/-- The record is on the list that starts at `head_`. -/
def Listed (h : HazardPointers P) (r : Nat) : Prop :=
  ∃ a, h.head = some a ∧ h.Onward a r

theorem onward_congr {h h' : HazardPointers P} {a : Nat}
    (same : ∀ x, h.Onward a x → (h'.record x).next = (h.record x).next) (b : Nat) :
    h'.Onward a b ↔ h.Onward a b := by
  constructor
  · intro reach
    induction reach with
    | refl => exact .refl
    | tail _ edge ih => exact ih.tail ((same _ ih).symm.trans edge)
  · intro reach
    induction reach with
    | refl => exact .refl
    | tail first edge ih => exact ih.tail ((same _ first).trans edge)

theorem listed_congr {h h' : HazardPointers P} (head : h'.head = h.head)
    (same : ∀ x, h.Listed x → (h'.record x).next = (h.record x).next) (r : Nat) :
    h'.Listed r ↔ h.Listed r := by
  unfold Listed
  rw [head]
  constructor
  · rintro ⟨a, start, reach⟩
    exact ⟨a, start, (onward_congr (fun x onward => same x ⟨a, start, onward⟩) r).1 reach⟩
  · rintro ⟨a, start, reach⟩
    exact ⟨a, start, (onward_congr (fun x onward => same x ⟨a, start, onward⟩) r).2 reach⟩

theorem listed_next {h : HazardPointers P} {r n : Nat} (listed : h.Listed r)
    (edge : (h.record r).next = some n) : h.Listed n := by
  obtain ⟨a, start, reach⟩ := listed
  exact ⟨a, start, reach.tail edge⟩

theorem listed_head {h : HazardPointers P} {r : Nat} (head : h.head = some r) : h.Listed r :=
  ⟨r, head, .refl⟩

/-- Pushing a record whose `next_` is the old head puts it in front of the list. -/
theorem listed_push {h h' : HazardPointers P} {hp : Nat} (head : h'.head = some hp)
    (next : ∀ x, (h'.record x).next = (h.record x).next)
    (link : (h.record hp).next = h.head) (r : Nat) :
    h'.Listed r ↔ r = hp ∨ h.Listed r := by
  have onward : ∀ a, h'.Onward a r ↔ h.Onward a r := fun a => onward_congr (fun x _ => next x) r
  have front : h.Onward hp r ↔ r = hp ∨ h.Listed r := by
    unfold Onward
    rw [Relation.ReflTransGen.cases_head_iff]
    simp only [link, Listed, Onward, eq_comm]
  unfold Listed
  simp only [head, Option.some.injEq, exists_eq_left', onward]
  exact front

end HazardPointers

/-! ## What one access does to the records a thread holds -/

section Accesses

variable {P C : Type} [DecidableEq P] [Inhabited P]
variable {K : Nat} {rd : C → P} {h : HazardPointers P} {pc : PC P C}
variable {e : Effect P} {nx : Next P C} {own : Option Nat} {r : Nat}

/-- A member function stays on the record it was called on. -/
theorem access_this (access : Access K rd h pc e nx) (on : nx.pc.this? = some r) :
    pc.this? = some r := by
  cases access
  case helpHead | helpSkip | helpUnlock => exact congrArg some (walkHelp_this _ _ on)
  case scanHead | scanNext => exact (walkScan_this ..).symm.trans on
  case sweepEnd | sweepLast => exact (afterScan_this ..).symm.trans on
  case allocHead | allocBusy | allocLost => simp at on
  all_goals first | exact on | simp [PC.this?] at on

/-- A record newly held after an access was inactive before it, or did not exist. -/
theorem access_holds (access : Access K rd h pc e nx)
    (held : nx.own own = some r ∨ nx.pc.building = some r ∨ nx.pc.draining = some r) :
    (own = some r ∨ pc.building = some r ∨ pc.draining = some r) ∨
      (e = .lock r ∧ (h.record r).active = false) ∨ (e = .create ∧ r = h.fresh) := by
  cases access
  case allocNew =>
      rcases held with held | held | held
      · exact .inl (.inl held)
      · exact .inr (.inr ⟨rfl, (Option.some.inj held).symm⟩)
      · cases held
  case helpWon free =>
      rcases held with held | held | held
      · exact .inl (.inl held)
      · cases held
      · cases held
        exact .inr (.inl ⟨rfl, free⟩)
  all_goals
    simp only [walkAlloc_own, walkAlloc_building, walkAlloc_draining, walkHelp_own,
      walkHelp_building, walkHelp_draining, Next.pc_goto, Next.pc_ret, walkScan_building, walkScan_draining,
      afterScan_building, afterScan_draining] at held
    simp_all [Next.own, PC.building, PC.draining]

/-- An access that clears `active_` gives the record up. -/
theorem access_unlock (access : Access K rd h pc (.unlock r) nx)
    (apart : pc.draining = some r → own ≠ some r) :
    (pc.this? = some r ∨ pc.draining = some r) ∧
      ¬ (nx.own own = some r ∨ nx.pc.building = some r ∨ nx.pc.draining = some r) := by
  cases access
  case retireDone => simp [PC.this?, Next.own, PC.building, PC.draining]
  case helpUnlock =>
      simp only [walkHelp_own, walkHelp_building, walkHelp_draining, reduceCtorEq, or_false]
      exact ⟨.inr rfl, apart rfl⟩

/-- A record under construction is written by its builder only. -/
theorem access_setNext {next : Option Nat} (access : Access K rd h pc (.setNext r next) nx) :
    pc.building = some r ∧ next = h.head ∧ nx = .goto (.allocPush r h.head) := by
  cases access
  exact ⟨rfl, rfl, rfl⟩

theorem access_setHead (access : Access K rd h pc (.setHead r) nx) :
    pc = .allocPush r h.head ∧ nx = .ret (.record r) := by
  cases access
  exact ⟨rfl, rfl⟩

theorem access_create (access : Access K rd h pc .create nx) :
    pc = .allocNew ∧ nx = .goto (.allocNext h.fresh) := by
  cases access
  exact ⟨rfl, rfl⟩

/-- Slots and retire lists are written on the thread's own record. -/
theorem access_slot {k : Nat} {value : P} (access : Access K rd h pc (.slot r k value) nx) :
    pc.this? = some r := by
  cases access <;> rfl

/-- A walk only visits records on the list. -/
theorem access_visiting (access : Access K rd h pc e nx) (visit : nx.pc.visiting = some r) :
    pc.visiting = some r ∨ h.head = some r ∨
      ∃ x, (pc.visiting = some x ∨ pc.draining = some x) ∧ (h.record x).next = some r := by
  cases access
  case allocHead | helpHead => exact .inr (.inl (by simpa using visit))
  case allocBusy | allocLost | helpSkip => exact .inr (.inr ⟨_, .inl rfl, by simpa using visit⟩)
  case helpUnlock => exact .inr (.inr ⟨_, .inr rfl, by simpa using visit⟩)
  case scanHead => exact .inr (.inl ((walkScan_visiting ..).symm.trans visit))
  case scanNext => exact .inr (.inr ⟨_, .inl rfl, (walkScan_visiting ..).symm.trans visit⟩)
  case sweepEnd | sweepLast => simp at visit
  all_goals first | exact .inl visit | simp [PC.visiting] at visit

/-- A helper drains the record it has just locked on its walk, never its own. -/
theorem access_draining (access : Access K rd h pc e nx) (drain : nx.pc.draining = some r) :
    pc.draining = some r ∨ (pc.visiting = some r ∧ ∃ this, pc.this? = some this ∧ this ≠ r) := by
  cases access
  case scanHead | scanNext => exact .inl ((walkScan_draining ..).symm.trans drain)
  case sweepEnd | sweepLast => exact .inl ((afterScan_draining ..).symm.trans drain)
  case allocHead | allocBusy | allocLost | helpHead | helpSkip | helpUnlock => simp at drain
  case helpWon this hp ne free =>
      cases drain
      exact .inr ⟨rfl, this, rfl, ne.symm⟩
  all_goals exact .inl drain

/-- `allocate` returns the record it has just locked, or the one it has just pushed. -/
theorem access_own (access : Access K rd h pc e nx) (mine : nx.own own = some r) :
    own = some r ∨ pc.visiting = some r ∨ e = .setHead r := by
  cases access
  case allocWon => exact .inr (.inl mine)
  case allocPushed => cases mine; exact .inr (.inr rfl)
  case allocHead | allocBusy | allocLost => exact .inl ((walkAlloc_own ..).symm.trans mine)
  case helpHead | helpSkip | helpUnlock => exact .inl ((walkHelp_own ..).symm.trans mine)
  all_goals first | exact .inl mine | cases mine

theorem access_building (access : Access K rd h pc e nx) (build : nx.pc.building = some r) :
    pc.building = some r ∨ (e = .create ∧ r = h.fresh) := by
  cases access
  case allocNew => cases build; exact .inr ⟨rfl, rfl⟩
  case allocHead | allocBusy | allocLost | helpHead | helpSkip | helpUnlock => simp at build
  case scanHead | scanNext | sweepEnd | sweepLast => simp at build
  all_goals first | exact .inl build | cases build

theorem access_pushing {oldhead : Option Nat} (access : Access K rd h pc e nx)
    (pushing : nx.pc = .allocPush r oldhead) : e = .setNext r oldhead := by
  have build : nx.pc.building = some r := by rw [pushing]; rfl
  cases access
  case allocNext => cases pushing; rfl
  case allocHead | allocBusy | allocLost | helpHead | helpSkip | helpUnlock => simp at build
  case scanHead | scanNext | sweepEnd | sweepLast => simp at build
  all_goals cases pushing

/-- A lock is taken on the record the walk stands on. -/
theorem access_lock (access : Access K rd h pc (.lock r) nx) : pc.visiting = some r := by
  cases access <;> rfl

end Accesses

/-! ## What an effect does to the flags and links of the records -/

namespace HazardPointers

variable {P : Type} [DecidableEq P] [Inhabited P] {h : HazardPointers P}

theorem apply_active (e : Effect P) (r : Nat) :
    ((h.apply e).record r).active =
      (match e with
      | .lock hp => if r = hp then true else (h.record r).active
      | .unlock hp => if r = hp then false else (h.record r).active
      | .create => if r = h.fresh then true else (h.record r).active
      | _ => (h.record r).active) := by
  cases e <;> simp only [apply, modify, HazardPointer.new] <;> split <;> (try split) <;> rfl

theorem apply_next (e : Effect P) (r : Nat) :
    ((h.apply e).record r).next =
      (match e with
      | .setNext hp next => if r = hp then next else (h.record r).next
      | .create => if r = h.fresh then none else (h.record r).next
      | _ => (h.record r).next) := by
  cases e <;> simp only [apply, modify, HazardPointer.new] <;> split <;> (try split) <;> rfl

theorem apply_head (e : Effect P) :
    (h.apply e).head = (match e with | .setHead hp => some hp | _ => h.head) := by
  cases e <;> rfl

theorem apply_fresh (e : Effect P) :
    (h.apply e).fresh = (match e with | .create => h.fresh + 1 | _ => h.fresh) := by
  cases e <;> rfl

theorem apply_pointers (e : Effect P) (r k : Nat) :
    ((h.apply e).record r).pointers k =
      (match e with
      | .slot hp i value => if r = hp ∧ k = i then value else (h.record r).pointers k
      | .create => if r = h.fresh then default else (h.record r).pointers k
      | _ => (h.record r).pointers k) := by
  cases e <;> simp only [apply, modify, HazardPointer.new] <;> (repeat' split) <;> simp_all

theorem fresh_le_apply (e : Effect P) : h.fresh ≤ (h.apply e).fresh := by
  rw [apply_fresh]
  split <;> omega

end HazardPointers

/-! ## Holders -/

namespace Sys

variable {T P C : Type} [DecidableEq T] [DecidableEq P] [Inhabited P]
variable {K : Nat} {rd : C → P} {s s' : Sys T P C} {t u : T} {e : Effect P} {nx : Next P C}

@[simp] theorem after_pool : (s.after t e nx).pool = s.pool.apply e := by cases nx <;> rfl

@[simp] theorem after_retired : (s.after t e nx).retired = s.retired := by cases nx <;> rfl

@[simp] theorem after_held : (s.after t e nx).held = (s.apply e).held := by cases nx <;> rfl

@[simp] theorem after_pc_self : (s.after t e nx).pc t = nx.pc := by
  cases nx <;> simp [after, goto, finish]

@[simp] theorem after_own_self : (s.after t e nx).own t = nx.own (s.own t) := by
  cases nx with
  | goto pc => rfl
  | ret r => cases r <;> simp [after, finish, Next.own, apply]

theorem after_pc_other (other : u ≠ t) : (s.after t e nx).pc u = s.pc u := by
  cases nx <;> simp [after, goto, finish, other, apply]

theorem after_own_other (other : u ≠ t) : (s.after t e nx).own u = s.own u := by
  cases nx with
  | goto pc => rfl
  | ret r => cases r <;> simp [after, finish, other, apply]

/-- Thread `t` may write the plain fields of record `r`. -/
def Holds (s : Sys T P C) (t : T) (r : Nat) : Prop :=
  s.own t = some r ∨ (s.pc t).building = some r ∨ (s.pc t).draining = some r

/-- A record has at most one holder, and is active while it has one. -/
structure Owned (s : Sys T P C) : Prop where
  this : ∀ t r, (s.pc t).this? = some r → s.own t = some r
  active : ∀ t r, s.Holds t r → (s.pool.record r).active = true
  bounded : ∀ t r, s.Holds t r → r < s.pool.fresh
  exclusive : ∀ t u r, s.Holds t r → s.Holds u r → t = u
  apart : ∀ t r, (s.pc t).draining = some r → s.own t ≠ some r

/-- Which records are on the list that starts at `head_`. -/
structure Listing (s : Sys T P C) : Prop where
  bounded : ∀ r, s.pool.Listed r → r < s.pool.fresh
  own : ∀ t r, s.own t = some r → s.pool.Listed r
  visiting : ∀ t r, (s.pc t).visiting = some r → s.pool.Listed r
  draining : ∀ t r, (s.pc t).draining = some r → s.pool.Listed r
  building : ∀ t r, (s.pc t).building = some r → ¬ s.pool.Listed r
  pushing : ∀ t hp oldhead, s.pc t = .allocPush hp oldhead → (s.pool.record hp).next = oldhead
  slots : ∀ r k, s.slot r k ≠ default → s.pool.Listed r

/-- A record newly held after an access had no holder before it. -/
theorem holds_after (access : Access K rd s.pool (s.pc t) e nx) {r : Nat}
    (held : (s.after t e nx).Holds u r) :
    s.Holds u r ∨ (u = t ∧ ((e = .lock r ∧ (s.pool.record r).active = false) ∨
      (e = .create ∧ r = s.pool.fresh))) := by
  by_cases same : u = t
  · subst same
    simp only [Holds, after_pc_self, after_own_self] at held
    rcases access_holds access held with before | new
    · exact .inl before
    · exact .inr ⟨rfl, new⟩
  · simp only [Holds, after_pc_other same, after_own_other same] at held
    exact .inl held

/-- A holder keeps its record active: only the holder itself clears the flag, on leaving. -/
theorem Owned.active_after (owned : s.Owned) (access : Access K rd s.pool (s.pc t) e nx) {r : Nat}
    (held : (s.after t e nx).Holds u r) : ((s.pool.apply e).record r).active = true := by
  rw [HazardPointers.apply_active]
  rcases holds_after access held with before | ⟨-, ⟨rfl, -⟩ | ⟨rfl, rfl⟩⟩
  · have active := owned.active u r before
    cases e with
    | unlock hp =>
        by_cases same : r = hp
        · subst same
          obtain ⟨mine, left⟩ := access_unlock access (owned.apart t r)
          have holder : s.Holds t r := mine.elim (fun on => .inl (owned.this t r on))
            (fun drain => .inr (.inr drain))
          cases owned.exclusive u t r before holder
          simp only [Holds, after_pc_self, after_own_self] at held
          exact absurd held left
        · simpa [same] using active
    | lock hp | create => simp only; split <;> first | rfl | exact active
    | _ => exact active
  · simp
  · simp

theorem Owned.after (owned : s.Owned) (listing : s.Listing)
    (access : Access K rd s.pool (s.pc t) e nx) : (s.after t e nx).Owned where
  this u r on := by
    by_cases same : u = t
    · subst same
      rw [after_pc_self] at on
      have before := owned.this u r (access_this access on)
      cases nx with
      | goto pc => simpa [Next.own] using before
      | ret q => simp [PC.this?] at on
    · rw [after_pc_other same] at on
      rw [after_own_other same]
      exact owned.this u r on
  active u r held := by
    rw [after_pool]
    exact owned.active_after access held
  bounded u r held := by
    have grows := HazardPointers.fresh_le_apply (h := s.pool) e
    rw [after_pool]
    rcases holds_after access held with before | ⟨-, ⟨rfl, -⟩ | ⟨rfl, rfl⟩⟩
    · exact Nat.lt_of_lt_of_le (owned.bounded u r before) grows
    · exact listing.bounded r (listing.visiting t r (access_lock access))
    · simp [HazardPointers.apply_fresh]
  exclusive u v r heldU heldV := by
    rcases holds_after access heldU with beforeU | ⟨rfl, newU⟩ <;>
      rcases holds_after access heldV with beforeV | ⟨rfl, newV⟩
    · exact owned.exclusive u v r beforeU beforeV
    · rcases newV with ⟨rfl, free⟩ | ⟨rfl, rfl⟩
      · simp [owned.active u r beforeU] at free
      · exact absurd (owned.bounded u _ beforeU) (Nat.lt_irrefl _)
    · rcases newU with ⟨rfl, free⟩ | ⟨rfl, rfl⟩
      · simp [owned.active v r beforeV] at free
      · exact absurd (owned.bounded v _ beforeV) (Nat.lt_irrefl _)
    · rfl
  apart u r drain := by
    by_cases same : u = t
    · subst same
      rw [after_pc_self] at drain
      rw [after_own_self]
      have kept : nx.own (s.own u) = s.own u := by
        cases nx with
        | goto pc => rfl
        | ret q => simp [PC.draining] at drain
      rw [kept]
      rcases access_draining access drain with before | ⟨-, this, on, ne⟩
      · exact owned.apart u r before
      · rw [owned.this u this on]
        exact fun eq => ne (Option.some.inj eq)
    · rw [after_pc_other same] at drain
      rw [after_own_other same]
      exact owned.apart u r drain

/-! ## The record list -/

/-- An access writes `next_` only on records that are not on the list. -/
theorem Listing.next_after (listing : s.Listing) (access : Access K rd s.pool (s.pc t) e nx)
    {x : Nat} (listed : s.pool.Listed x) :
    ((s.pool.apply e).record x).next = (s.pool.record x).next := by
  rw [HazardPointers.apply_next]
  cases e with
  | setNext hp next =>
      have building := (access_setNext access).1
      have : x ≠ hp := by rintro rfl; exact listing.building t x building listed
      simp [this]
  | create =>
      have : x ≠ s.pool.fresh := Nat.ne_of_lt (listing.bounded x listed)
      simp [this]
  | _ => rfl

/-- Pushing a record adds it to the list; no other access changes which records are listed. -/
theorem Listing.listed_after (listing : s.Listing)
    (access : Access K rd s.pool (s.pc t) e nx) (r : Nat) :
    (s.pool.apply e).Listed r ↔ s.pool.Listed r ∨ e = .setHead r := by
  have frame : ∀ x, s.pool.Listed x →
      ((s.pool.apply e).record x).next = (s.pool.record x).next :=
    fun x listed => listing.next_after access listed
  cases e with
  | setHead hp =>
      obtain ⟨pc, -⟩ := access_setHead access
      have pushed : (s.pool.apply (.setHead hp)).Listed r ↔ r = hp ∨ s.pool.Listed r :=
        HazardPointers.listed_push rfl (HazardPointers.apply_next _) (listing.pushing t hp _ pc) r
      rw [pushed, or_comm]
      simp [eq_comm]
  | _ => simpa using HazardPointers.listed_congr (HazardPointers.apply_head _) frame r

theorem Listing.after (owned : s.Owned) (listing : s.Listing)
    (access : Access K rd s.pool (s.pc t) e nx) : (s.after t e nx).Listing := by
  have listed := listing.listed_after access
  constructor
  case bounded =>
      intro r on
      rw [after_pool, listed] at on
      rw [after_pool]
      refine Nat.lt_of_lt_of_le ?_ (HazardPointers.fresh_le_apply e)
      rcases on with on | rfl
      · exact listing.bounded r on
      · obtain ⟨pc, -⟩ := access_setHead access
        exact owned.bounded t r (.inr (.inl (by rw [pc]; rfl)))
  case own =>
      intro u r mine
      rw [after_pool, listed]
      by_cases same : u = t
      · subst same
        rw [after_own_self] at mine
        rcases access_own access mine with before | visit | rfl
        · exact .inl (listing.own u r before)
        · exact .inl (listing.visiting u r visit)
        · exact .inr rfl
      · rw [after_own_other same] at mine
        exact .inl (listing.own u r mine)
  case visiting =>
      intro u r visit
      rw [after_pool, listed]
      by_cases same : u = t
      · subst same
        rw [after_pc_self] at visit
        rcases access_visiting access visit with before | head | ⟨x, on, edge⟩
        · exact .inl (listing.visiting u r before)
        · exact .inl (HazardPointers.listed_head head)
        · exact .inl (HazardPointers.listed_next
            (on.elim (listing.visiting u x) (listing.draining u x)) edge)
      · rw [after_pc_other same] at visit
        exact .inl (listing.visiting u r visit)
  case draining =>
      intro u r drain
      rw [after_pool, listed]
      by_cases same : u = t
      · subst same
        rw [after_pc_self] at drain
        rcases access_draining access drain with before | ⟨visit, -⟩
        · exact .inl (listing.draining u r before)
        · exact .inl (listing.visiting u r visit)
      · rw [after_pc_other same] at drain
        exact .inl (listing.draining u r drain)
  case building =>
      intro u r build
      rw [after_pool, listed]
      rintro (on | rfl)
      · by_cases same : u = t
        · subst same
          rw [after_pc_self] at build
          rcases access_building access build with before | ⟨-, rfl⟩
          · exact listing.building u r before on
          · exact Nat.lt_irrefl _ (listing.bounded _ on)
        · rw [after_pc_other same] at build
          exact listing.building u r build on
      · obtain ⟨pc, next⟩ := access_setHead access
        have mine : s.Holds t r := .inr (.inl (by rw [pc]; rfl))
        by_cases same : u = t
        · subst same
          rw [after_pc_self, next] at build
          simp [PC.building] at build
        · rw [after_pc_other same] at build
          exact same (owned.exclusive u t r (.inr (.inl build)) mine)
  case pushing =>
      intro u hp oldhead pc
      rw [after_pool, HazardPointers.apply_next]
      by_cases same : u = t
      · subst same
        rw [after_pc_self] at pc
        cases access_pushing access pc
        simp
      · rw [after_pc_other same] at pc
        have before := listing.pushing u hp oldhead pc
        have building : (s.pc u).building = some hp := by rw [pc]; rfl
        cases e with
        | setNext hp' next =>
            have : hp ≠ hp' := by
              rintro rfl
              exact same (owned.exclusive u t hp (.inr (.inl building))
                (.inr (.inl (access_setNext access).1)))
            simpa [this] using before
        | create =>
            have : hp ≠ s.pool.fresh := Nat.ne_of_lt (owned.bounded u hp (.inr (.inl building)))
            simpa [this] using before
        | _ => exact before
  case slots =>
      intro r k written
      rw [after_pool, listed]
      simp only [slot, after_pool, HazardPointers.apply_pointers] at written
      cases e with
      | slot hp i value =>
          by_cases at_ : r = hp ∧ k = i
          · obtain ⟨rfl, rfl⟩ := at_
            exact .inl (listing.own t r (owned.this t r (access_slot access)))
          · simp only [at_, if_false] at written
            exact .inl (listing.slots r k written)
      | create =>
          by_cases new : r = s.pool.fresh
          · simp [new] at written
          · simp only [new, if_false] at written
            exact .inl (listing.slots r k written)
      | _ => exact .inl (listing.slots r k written)

/-! ## Calls -/

@[simp] theorem call_pool (c : Call P C) : (s.call t c).pool = s.pool := rfl

@[simp] theorem call_own (c : Call P C) : (s.call t c).own = s.own := rfl

@[simp] theorem call_held (c : Call P C) : (s.call t c).held = s.held := rfl

@[simp] theorem call_pc_self (c : Call P C) :
    (s.call t c).pc t = c.entry ((s.own t).getD 0) := by
  simp [call, goto]

theorem call_pc_other (c : Call P C) (other : u ≠ t) : (s.call t c).pc u = s.pc u := by
  simp [call, goto, other]

/-- Who may call what: `allocate` needs a thread without a record, everything else the
thread's own record and a slot of it. -/
def Callable (K : Nat) (s : Sys T P C) (t : T) : Call P C → Prop
  | .allocate => s.own t = none
  | .setHazard k _ | .loadAndSetHazard _ k | .loadAndSetHazardOrFail _ k =>
      (s.own t).isSome ∧ k < K
  | .retire | .retireNode _ => (s.own t).isSome

theorem entry_building (c : Call P C) (r : Nat) : (c.entry r).building = none := by
  cases c <;> rfl

theorem entry_draining (c : Call P C) (r : Nat) : (c.entry r).draining = none := by
  cases c <;> rfl

theorem entry_visiting (c : Call P C) (r : Nat) : (c.entry r).visiting = none := by
  cases c <;> rfl

theorem entry_this {c : Call P C} (callable : s.Callable K t c) {r : Nat}
    (on : (c.entry ((s.own t).getD 0)).this? = some r) : s.own t = some r := by
  cases c
  case allocate => cases on
  all_goals
    obtain ⟨mine, some_⟩ : ∃ mine, s.own t = some mine := by
      first | exact Option.isSome_iff_exists.1 callable | exact Option.isSome_iff_exists.1 callable.1
    simpa [some_, Call.entry, PC.this?] using on

theorem holds_call (idle : s.pc t = .idle) (c : Call P C) {r : Nat} :
    (s.call t c).Holds u r ↔ s.Holds u r := by
  by_cases same : u = t
  · subst same
    simp only [Holds, call_own, call_pc_self, entry_building, entry_draining, idle]
    exact Iff.rfl
  · simp [Holds, call_pc_other c same]

theorem Owned.call (owned : s.Owned) (idle : s.pc t = .idle) {c : Call P C}
    (callable : s.Callable K t c) : (s.call t c).Owned where
  this u r on := by
    by_cases same : u = t
    · subst same
      rw [call_pc_self] at on
      exact entry_this callable on
    · rw [call_pc_other c same] at on
      exact owned.this u r on
  active u r held := owned.active u r ((holds_call idle c).1 held)
  bounded u r held := owned.bounded u r ((holds_call idle c).1 held)
  exclusive u v r heldU heldV :=
    owned.exclusive u v r ((holds_call idle c).1 heldU) ((holds_call idle c).1 heldV)
  apart u r drain := by
    by_cases same : u = t
    · subst same
      rw [call_pc_self, entry_draining] at drain
      cases drain
    · rw [call_pc_other c same] at drain
      exact owned.apart u r drain

theorem Listing.call (listing : s.Listing) (c : Call P C) : (s.call t c).Listing where
  bounded := listing.bounded
  own := listing.own
  visiting u r visit := by
    by_cases same : u = t
    · subst same
      rw [call_pc_self, entry_visiting] at visit
      cases visit
    · rw [call_pc_other c same] at visit
      exact listing.visiting u r visit
  draining u r drain := by
    by_cases same : u = t
    · subst same
      rw [call_pc_self, entry_draining] at drain
      cases drain
    · rw [call_pc_other c same] at drain
      exact listing.draining u r drain
  building u r build := by
    by_cases same : u = t
    · subst same
      rw [call_pc_self, entry_building] at build
      cases build
    · rw [call_pc_other c same] at build
      exact listing.building u r build
  pushing u hp oldhead pc := by
    by_cases same : u = t
    · subst same
      rw [call_pc_self] at pc
      have := entry_building c ((s.own u).getD 0)
      rw [pc] at this
      cases this
    · rw [call_pc_other c same] at pc
      exact listing.pushing u hp oldhead pc
  slots := listing.slots

theorem not_listed_init (r : Nat) : ¬ (init : Sys T P C).pool.Listed r := by
  rintro ⟨a, head, -⟩
  cases head

theorem owned_init : (init : Sys T P C).Owned := by
  constructor <;> simp [init, PC.this?, Holds, PC.building, PC.draining]

theorem listing_init : (init : Sys T P C).Listing := by
  have none_ := not_listed_init (T := T) (P := P) (C := C)
  constructor
  case bounded => exact fun r on => absurd on (none_ r)
  case slots => exact fun r k written => absurd rfl written
  all_goals simp [init, PC.visiting, PC.building, PC.draining]

end Sys

end Ccmetrics.Hazard
