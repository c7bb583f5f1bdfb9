/-
# Hazard.Cover -- a covered slot keeps its node from being deleted

`scan` collects the slots one at a time while other threads write theirs, so it may miss a
slot. What it cannot miss is a covered one (`Sys.held`): a pointer that was in the slot
before the node was retired, or that was copied there from a covered slot with a smaller
index. Slots are read in ascending order, so such a copy moves the pointer ahead of the
scan, never behind it.

`Covered` is the invariant. Its field `scanned` is the heart: of the nodes on the list of a
scanning thread, each one that sits in a covered slot the scan has already passed is in the
set `live` it has collected. When the scan has passed every slot, what it deletes is in no
covered slot (`gone`).

The discipline asked of the client is `Permitted` and the hypothesis `absent` of
`Covered.write`: a node is retired once, when no cell holds it, and is never put back.
-/
import Ccmetrics.Hazard.Ownership

namespace Ccmetrics.Hazard

set_option autoImplicit false
set_option linter.unusedSectionVars false

/-! ## Retire lists -/

section Lists

variable {P C : Type} [DecidableEq P] [Inhabited P]
variable {K : Nat} {rd : C → P} {h : HazardPointers P} {pc : PC P C}
variable {e : Effect P} {nx : Next P C} {r : Nat} {p : P}

theorem getLastD_mem {l : List P} (nonempty : l ≠ []) : l.getLastD default ∈ l := by
  rw [List.getLastD_eq_getLast?, List.getLast?_eq_some_getLast nonempty]
  exact List.getLast_mem nonempty

theorem mem_swapPop {l : List P} {i : Nat} (member : p ∈ swapPop l i) : p ∈ l := by
  have inSet := (List.dropLast_sublist _).subset member
  rcases List.mem_or_eq_of_mem_set inSet with inList | rfl
  · exact inList
  · cases l with
    | nil => simp at inSet
    | cons a rest => exact getLastD_mem (List.cons_ne_nil a rest)

theorem HazardPointers.apply_retireList (e : Effect P) (r : Nat) :
    ((h.apply e).record r).retireList =
      (match e with
      | .push hp node =>
          if r = hp then (h.record r).retireList ++ [node] else (h.record r).retireList
      | .move hp this =>
          let rest := if r = hp then (h.record r).retireList.dropLast else (h.record r).retireList
          if r = this then rest ++ [(h.record hp).retireList.getLastD default] else rest
      | .delete this i =>
          if r = this then swapPop (h.record r).retireList i else (h.record r).retireList
      | .create => if r = h.fresh then [] else (h.record r).retireList
      | _ => (h.record r).retireList) := by
  cases e <;> simp only [apply, modify, HazardPointer.new] <;> (repeat' split) <;> simp_all

/-- A node newly on a list was pushed there, or moved there by a helper. -/
theorem HazardPointers.mem_apply_retireList
    (access : Access K rd h pc e nx) (member : p ∈ ((h.apply e).record r).retireList) :
    p ∈ (h.record r).retireList ∨ e = .push r p ∨
      ∃ hp, e = .move hp r ∧ p ∈ (h.record hp).retireList := by
  rw [apply_retireList] at member
  cases e with
  | push hp node =>
      simp only at member
      split at member
      · rename_i same
        rcases List.mem_append.1 member with old | new
        · exact .inl old
        · rw [List.mem_singleton] at new
          exact .inr (.inl (by rw [same, new]))
      · exact .inl member
  | move hp this =>
      have nonempty : (h.record hp).retireList ≠ [] := by cases access; assumption
      have last := getLastD_mem nonempty
      have rest : ∀ q ∈ (if r = hp then (h.record r).retireList.dropLast
          else (h.record r).retireList), q ∈ (h.record r).retireList := by
        intro q inRest
        split at inRest
        · exact (List.dropLast_sublist _).subset inRest
        · exact inRest
      simp only at member
      split at member
      · rename_i same
        rcases List.mem_append.1 member with old | new
        · exact .inl (rest p old)
        · rw [List.mem_singleton] at new
          exact .inr (.inr ⟨hp, by rw [same], new ▸ last⟩)
      · exact .inl (rest p member)
  | delete this i =>
      simp only at member
      split at member
      · exact .inl (mem_swapPop member)
      · exact .inl member
  | create =>
      simp only at member
      split at member
      · simp at member
      · exact .inl member
  | _ => exact .inl member

theorem access_push (access : Access K rd h pc (.push r p) nx) :
    pc = .push r p ∧ nx = .goto (.should r) := by
  cases access
  exact ⟨rfl, rfl⟩

theorem access_move {hp : Nat} (access : Access K rd h pc (.move hp r) nx) :
    pc = .helpDrain r hp ∧ nx = .goto (.helpShould r hp) := by
  cases access
  exact ⟨rfl, rfl⟩

/-- `scan` deletes an element of its own list that it did not find in any slot. -/
theorem access_delete {i : Nat} (access : Access K rd h pc (.delete r i) nx) :
    ∃ helping live node, pc = .sweep r helping live i ∧
      (h.record r).retireList[i]? = some node ∧ node ∉ live := by
  cases access
  all_goals exact ⟨_, _, _, rfl, ‹_›, ‹_›⟩

theorem HazardPointers.apply_deleted (e : Effect P) :
    (h.apply e).deleted =
      (match e with
      | .delete this i => h.deleted ++ [(h.record this).retireList.getD i default]
      | _ => h.deleted) := by
  cases e <;> rfl

end Lists

/-! ## Slots -/

namespace PC

variable {P C : Type}

/-- The slots named by the running call exist. -/
def InRange (K : Nat) : PC P C → Prop
  | .setSlot _ k _ | .load _ _ _ k | .loadSet _ _ _ k _ | .loadCheck _ _ _ k _
  | .loadClear _ k => k < K
  | _ => True

/-- The list owner and the hazards collected so far, in a running `scan`. -/
def scanning : PC P C → Option (Nat × List P)
  | .scanSlot this _ _ _ live | .sweep this _ live _ => some (this, live)
  | _ => none

/-- The slots phase 1 of a running `scan` has not read yet. -/
def Unread (h : HazardPointers P) : PC P C → Nat → Nat → Prop
  | .scanSlot _ _ hp i _, r, k =>
      (r = hp ∧ i ≤ k) ∨ ∃ n, (h.record hp).next = some n ∧ h.Onward n r
  | _, _, _ => False

/-- Slots are read in ascending order: what lies above an unread slot is unread. -/
theorem unread_mono {h : HazardPointers P} {pc : PC P C} {r i k : Nat} (below : i ≤ k)
    (unread : pc.Unread h r i) : pc.Unread h r k := by
  cases pc with
  | scanSlot this helping hp j live =>
      rcases unread with ⟨same, le⟩ | later
      · exact .inl ⟨same, Nat.le_trans le below⟩
      · exact .inr later
  | _ => exact unread

theorem unread_congr {h h' : HazardPointers P} {pc : PC P C} {r k : Nat}
    (same : ∀ x, (h'.record x).next = (h.record x).next) (unread : pc.Unread h r k) :
    pc.Unread h' r k := by
  cases pc with
  | scanSlot this helping hp i live =>
      rcases unread with here | ⟨n, next, onward⟩
      · exact .inl here
      · exact .inr ⟨n, (same hp).trans next,
          (HazardPointers.onward_congr (fun x _ => same x) r).2 onward⟩
  | _ => exact unread

end PC

section Slots

variable {P C : Type} [DecidableEq P] [Inhabited P]
variable {K : Nat} {rd : C → P} {h : HazardPointers P} {pc : PC P C}
variable {e : Effect P} {nx : Next P C} {r : Nat}

theorem access_inRange (access : Access K rd h pc e nx) (range : pc.InRange K) :
    nx.pc.InRange K := by
  cases access
  case allocHead | allocBusy | allocLost =>
      simp only [walkAlloc]; split <;> trivial
  case helpHead | helpSkip | helpUnlock =>
      simp only [walkHelp]; split <;> trivial
  case scanHead | scanNext =>
      simp only [walkScan, Next.pc_goto]; split <;> trivial
  case sweepEnd | sweepLast =>
      simp only [afterScan, Next.pc_goto]; split <;> trivial
  all_goals first | exact range | trivial

theorem access_slot_range {k : Nat} {value : P} (access : Access K rd h pc (.slot r k value) nx)
    (range : pc.InRange K) : k < K := by
  cases access
  case retireClear inside => exact inside
  all_goals exact range

theorem access_not_push (access : Access K rd h pc e nx) (this : Nat) (p : P) :
    nx.pc ≠ .push this p := by
  cases access
  case allocHead | allocBusy | allocLost => simp only [walkAlloc]; split <;> simp
  case helpHead | helpSkip | helpUnlock => simp only [walkHelp]; split <;> simp
  case scanHead | scanNext => simp only [walkScan, Next.pc_goto]; split <;> simp
  case sweepEnd | sweepLast => simp only [afterScan, Next.pc_goto]; split <;> simp
  all_goals simp

theorem access_loadCheck {this k : Nat} {once : Bool} {c : C} {cur : P}
    (access : Access K rd h pc e nx) (checking : nx.pc = .loadCheck this once c k cur) :
    e = .slot this k cur := by
  cases access
  case loadSet => cases checking; rfl
  case allocHead | allocBusy | allocLost =>
      simp only [walkAlloc] at checking; split at checking <;> cases checking
  case helpHead | helpSkip | helpUnlock =>
      simp only [walkHelp] at checking; split at checking <;> cases checking
  case scanHead | scanNext =>
      simp only [walkScan, Next.pc_goto] at checking; split at checking <;> cases checking
  case sweepEnd | sweepLast =>
      simp only [afterScan, Next.pc_goto] at checking; split at checking <;> cases checking
  all_goals cases checking

/-- While a scan runs, its thread writes nothing but its own retire list. -/
theorem access_scanning {this : Nat} {live : List P} (access : Access K rd h pc e nx)
    (scanning : nx.pc.scanning = some (this, live)) : e = .none ∨ ∃ hp i, e = .delete hp i := by
  cases access
  case helpUnlock =>
      simp only [walkHelp] at scanning
      split at scanning <;> cases scanning
  case sweepLast | sweepDead => exact .inr ⟨_, _, rfl⟩
  all_goals first | exact .inl rfl | cases scanning

end Slots

/-! ## The invariant -/

namespace Sys

variable {T P C : Type} [DecidableEq T] [DecidableEq P] [Inhabited P]
variable {K : Nat} {rd cells : C → P} {s s' : Sys T P C} {t u : T}
variable {e : Effect P} {nx : Next P C}

structure Covered (K : Nat) (cells : C → P) (s : Sys T P C) : Prop where
  notNull : ∀ p ∈ s.retired, p ≠ default
  away : ∀ p ∈ s.retired, ∀ c, cells c ≠ p
  lists : ∀ r, ∀ p ∈ (s.pool.record r).retireList, p ∈ s.retired
  pending : ∀ t this p, s.pc t = .push this p → p ∈ s.retired
  range : ∀ t, (s.pc t).InRange K
  slots : ∀ r k, s.slot r k ≠ default → k < K
  /-- Whatever a slot holds that is not retired was written there before any retirement. -/
  early : ∀ r k, s.slot r k ∉ s.retired → s.held r k = true
  scanned : ∀ t this live, (s.pc t).scanning = some (this, live) →
    ∀ p ∈ (s.pool.record this).retireList, ∀ r k, s.held r k = true → s.slot r k = p →
      ¬ (s.pc t).Unread s.pool r k → p ∈ live
  gone : ∀ p ∈ s.pool.deleted, p ∈ s.retired ∧ ∀ r k, s.held r k = true → s.slot r k ≠ p
  /-- Between its store and its second load, `loadAndSetHazard` has its slot set. -/
  loaded : ∀ t this once c k cur, s.pc t = .loadCheck this once c k cur → s.slot this k = cur

/-- A covered slot that comes to hold a retired node does so by an upward copy. -/
theorem held_after {r k : Nat} {p : P} (retired : p ∈ s.retired) (notNull : p ≠ default)
    (held : (s.apply e).held r k = true) (holds : (s.apply e).slot r k = p) :
    ∃ i ≤ k, s.held r i = true ∧ s.slot r i = p := by
  have fresh : ∀ hp, e = .create → (if r = hp then default else s.slot r k) = p →
      s.slot r k = p := by
    intro hp _ eq
    split at eq
    · exact absurd eq.symm notNull
    · exact eq
  simp only [slot, apply, HazardPointers.apply_pointers] at held holds
  cases e with
  | slot hp j value =>
      simp only at held holds
      by_cases at_ : r = hp ∧ k = j
      · obtain ⟨rfl, rfl⟩ := at_
        simp only [and_self, if_true] at held holds
        subst holds
        simp only [covers, retired, not_true_eq_false, decide_false, Bool.false_or,
          Bool.or_eq_true, Bool.and_eq_true, decide_eq_true_eq, List.any_eq_true,
          List.mem_range] at held
        rcases held with ⟨covered, same⟩ | ⟨i, below, covered, same⟩
        · exact ⟨k, Nat.le_refl _, covered, same⟩
        · exact ⟨i, Nat.le_of_lt below, covered, same⟩
      · simp only [at_, if_false] at held holds
        exact ⟨k, Nat.le_refl _, held, holds⟩
  | create => exact ⟨k, Nat.le_refl _, held, fresh _ rfl holds⟩
  | _ => exact ⟨k, Nat.le_refl _, held, holds⟩

/-- No other thread writes the list of a thread's own record. -/
theorem Owned.list_other (owned : s.Owned) (access : Access K rd s.pool (s.pc t) e nx)
    (other : u ≠ t) {r : Nat} (mine : s.own u = some r) {p : P}
    (member : p ∈ ((s.pool.apply e).record r).retireList) :
    p ∈ (s.pool.record r).retireList := by
  rcases HazardPointers.mem_apply_retireList access member with old | rfl | ⟨hp, rfl, -⟩
  · exact old
  · have on : (s.pc t).this? = some r := by rw [(access_push access).1]; rfl
    exact absurd (owned.exclusive u t r (.inl mine) (.inl (owned.this t r on))) other
  · have on : (s.pc t).this? = some r := by rw [(access_move access).1]; rfl
    exact absurd (owned.exclusive u t r (.inl mine) (.inl (owned.this t r on))) other

/-- What a scan has still to read does not depend on what other threads do to the list. -/
theorem Listing.unread_after (listing : s.Listing) (access : Access K rd s.pool (s.pc t) e nx)
    {r k : Nat} (unread : (s.pc u).Unread s.pool r k) : (s.pc u).Unread (s.pool.apply e) r k := by
  have visiting := listing.visiting u
  cases pc : s.pc u with
  | scanSlot this helping hp i live =>
      rw [pc] at unread visiting
      have on := visiting hp rfl
      rcases unread with here | ⟨n, next, onward⟩
      · exact .inl here
      · refine .inr ⟨n, (listing.next_after access on).trans next, ?_⟩
        refine (HazardPointers.onward_congr (fun x reach => ?_) r).2 onward
        refine listing.next_after access ?_
        obtain ⟨a, head, first⟩ := HazardPointers.listed_next on next
        exact ⟨a, head, first.trans reach⟩
  | _ => rw [pc] at unread; exact unread

/-- The scanning thread's own accesses: each slot it passes is either null or collected. -/
theorem Covered.scanned_self (listing : s.Listing) (covered : s.Covered K cells)
    (access : Access K rd s.pool (s.pc t) e nx) {this : Nat} {live : List P}
    (scanning : nx.pc.scanning = some (this, live)) {p : P}
    (member : p ∈ ((s.pool.apply e).record this).retireList) {r k : Nat}
    (held : s.held r k = true) (holds : s.slot r k = p) (passed : ¬ nx.pc.Unread s.pool r k) :
    p ∈ live := by
  have scanned := covered.scanned t
  have written : p ∈ (s.pool.record this).retireList → s.pool.Listed r ∧ k < K := by
    intro inList
    have notNull := holds ▸ covered.notNull p (covered.lists this p inList)
    exact ⟨listing.slots r k notNull, covered.slots r k notNull⟩
  generalize s.pc t = pc at access scanned
  cases access
  case scanHead =>
      cases head : s.pool.head with
      | none =>
          simp only [walkScan, head, Next.pc_goto, PC.scanning, Option.some.injEq,
            Prod.mk.injEq] at scanning
          obtain ⟨rfl, -⟩ := scanning
          obtain ⟨a, start, -⟩ := (written member).1
          simp [head] at start
      | some a =>
          simp only [walkScan, head, Next.pc_goto, PC.scanning, Option.some.injEq,
            Prod.mk.injEq] at scanning passed
          obtain ⟨rfl, -⟩ := scanning
          obtain ⟨a', start, onward⟩ := (written member).1
          cases head.symm.trans start
          refine absurd ?_ passed
          rcases Relation.ReflTransGen.cases_head onward with rfl | ⟨n, next, onward⟩
          · exact .inl ⟨rfl, Nat.zero_le _⟩
          · exact .inr ⟨n, next, onward⟩
  case scanNull this' helping hp i live' inside null =>
      cases scanning
      refine scanned _ _ rfl p member r k held holds fun unread => passed ?_
      rcases unread with ⟨rfl, le⟩ | later
      · rcases Nat.eq_or_lt_of_le le with rfl | lt
        · exact absurd (holds.symm.trans null) (covered.notNull p (covered.lists _ p member))
        · exact .inl ⟨rfl, lt⟩
      · exact .inr later
  case scanLive this' helping hp i live' inside notNull =>
      cases scanning
      by_cases here : r = hp ∧ k = i
      · obtain ⟨rfl, rfl⟩ := here
        exact holds ▸ List.mem_cons_self ..
      · refine List.mem_cons_of_mem _
          (scanned _ _ rfl p member r k held holds fun unread => passed ?_)
        rcases unread with ⟨rfl, le⟩ | later
        · exact .inl ⟨rfl, Nat.lt_of_le_of_ne le fun eq => here ⟨rfl, eq.symm⟩⟩
        · exact .inr later
  case scanNext this' helping hp i live' outside =>
      have same : this' = this ∧ live' = live := by
        cases next : (s.pool.record hp).next <;>
          simpa [walkScan, next, PC.scanning] using scanning
      obtain ⟨rfl, rfl⟩ := same
      refine scanned _ _ rfl p member r k held holds fun unread => passed ?_
      rcases unread with ⟨rfl, le⟩ | ⟨n, next, onward⟩
      · exact absurd (Nat.lt_of_le_of_lt le (written member).2) outside
      · simp only [next, walkScan, Next.pc_goto]
        rcases Relation.ReflTransGen.cases_head onward with rfl | ⟨m, further, onward⟩
        · exact .inl ⟨rfl, Nat.zero_le _⟩
        · exact .inr ⟨m, further, onward⟩
  case sweepLive this' helping live' i node found collected =>
      cases scanning
      exact scanned _ _ rfl p member r k held holds id
  case sweepDead this' helping live' i node found dead more =>
      cases scanning
      refine scanned _ _ rfl p ?_ r k held holds id
      simp only [HazardPointers.apply_retireList, if_true] at member
      exact mem_swapPop member
  case allocHead | allocBusy | allocLost =>
      simp only [walkAlloc] at scanning
      split at scanning <;> cases scanning
  case helpHead | helpSkip | helpUnlock =>
      simp only [walkHelp] at scanning
      split at scanning <;> cases scanning
  case sweepEnd | sweepLast =>
      simp only [afterScan, Next.pc_goto] at scanning
      split at scanning <;> cases scanning
  all_goals cases scanning

theorem Covered.slots_after (covered : s.Covered K cells)
    (access : Access K rd s.pool (s.pc t) e nx) {r k : Nat}
    (written : (s.after t e nx).slot r k ≠ default) : k < K := by
  simp only [slot, after_pool, HazardPointers.apply_pointers] at written
  cases e with
  | slot hp i value =>
      by_cases at_ : r = hp ∧ k = i
      · rw [at_.2]
        exact access_slot_range access (covered.range t)
      · simp only [at_, if_false] at written
        exact covered.slots r k written
  | create =>
      simp only at written
      split at written
      · exact absurd rfl written
      · exact covered.slots r k written
  | _ => exact covered.slots r k written

/-- A slot of a new record is null; otherwise only the write of a node that is not retired makes a
slot hold one. -/
theorem Covered.early_after (listing : s.Listing) (covered : s.Covered K cells) {r k : Nat}
    (notRetired : (s.after t e nx).slot r k ∉ (s.after t e nx).retired) :
    (s.after t e nx).held r k = true := by
  simp only [slot, after_pool, after_retired, HazardPointers.apply_pointers] at notRetired
  rw [after_held]
  cases e with
  | slot hp i value =>
      simp only at notRetired
      by_cases at_ : r = hp ∧ k = i
      · simp only [at_, and_self, if_true] at notRetired
        simp [apply, at_, covers, notRetired]
      · simp only [at_, if_false] at notRetired
        simpa [apply, at_] using covered.early r k notRetired
  | create =>
      simp only at notRetired
      split at notRetired
      · rename_i new
        refine covered.early r k ?_
        have unlisted : ¬ s.pool.Listed r := fun on =>
          Nat.lt_irrefl _ (new ▸ listing.bounded r on)
        have null : s.slot r k = default := by
          by_contra written
          exact unlisted (listing.slots r k written)
        rw [null]
        exact notRetired
      · exact covered.early r k notRetired
  | _ => exact covered.early r k notRetired

/-- A node that is still held has been seen by every scan that is past its slot. -/
theorem Covered.scanned_after (owned : s.Owned) (listing : s.Listing) (covered : s.Covered K cells)
    (access : Access K rd s.pool (s.pc t) e nx) {this r k : Nat} {live : List P} {p : P}
    (scanning : ((s.after t e nx).pc u).scanning = some (this, live))
    (member : p ∈ ((s.after t e nx).pool.record this).retireList)
    (held : (s.after t e nx).held r k = true) (holds : (s.after t e nx).slot r k = p)
    (passed : ¬ ((s.after t e nx).pc u).Unread (s.after t e nx).pool r k) : p ∈ live := by
  rw [after_held] at held
  rw [after_pool] at member passed
  have holds : (s.apply e).slot r k = p := by simpa [slot, apply] using holds
  by_cases same : u = t
  · subst same
    rw [after_pc_self] at scanning passed
    have reads := access_scanning access scanning
    have held : s.held r k = true := by
      rcases reads with rfl | ⟨_, _, rfl⟩ <;> exact held
    have holds : s.slot r k = p := by
      rcases reads with rfl | ⟨_, _, rfl⟩ <;>
        simpa [slot, apply, HazardPointers.apply_pointers] using holds
    refine covered.scanned_self listing access scanning member held holds ?_
    rcases reads with rfl | ⟨_, _, rfl⟩
    · exact passed
    · exact fun unread => passed (PC.unread_congr (HazardPointers.apply_next _) unread)
  · rw [after_pc_other same] at scanning passed
    have mine : s.own u = some this := by
      refine owned.this u this ?_
      cases pc : s.pc u <;> rw [pc] at scanning <;> simp_all [PC.scanning, PC.this?]
    have inList := owned.list_other access same mine member
    have retired := covered.lists this p inList
    obtain ⟨i, below, held, holds⟩ := held_after retired (covered.notNull p retired) held holds
    refine covered.scanned u this live scanning p inList r i held holds fun unread => passed ?_
    exact listing.unread_after access (PC.unread_mono below unread)

/-- What a scan deletes is held nowhere. -/
theorem Covered.gone_after (covered : s.Covered K cells)
    (access : Access K rd s.pool (s.pc t) e nx) {p : P}
    (member : p ∈ (s.after t e nx).pool.deleted) :
    p ∈ (s.after t e nx).retired ∧
      ∀ r k, (s.after t e nx).held r k = true → (s.after t e nx).slot r k ≠ p := by
  rw [after_pool, HazardPointers.apply_deleted] at member
  rw [after_retired]
  have old : p ∈ s.pool.deleted → p ∈ s.retired ∧
      ∀ r k, (s.after t e nx).held r k = true → (s.after t e nx).slot r k ≠ p := by
    intro before
    obtain ⟨retired, uncovered⟩ := covered.gone p before
    refine ⟨retired, fun r k held holds => ?_⟩
    rw [after_held] at held
    have holds : (s.apply e).slot r k = p := by simpa [slot, apply] using holds
    obtain ⟨i, -, held, holds⟩ := held_after retired (covered.notNull p retired) held holds
    exact uncovered r i held holds
  cases e with
  | delete this i =>
      rcases List.mem_append.1 member with before | new
      · exact old before
      · obtain ⟨helping, live, node, pc, found, dead⟩ := access_delete access
        have same : p = node := by
          simpa [List.getD_eq_getElem?_getD, found] using new
        subst same
        have inList : p ∈ (s.pool.record this).retireList := List.mem_of_getElem? found
        refine ⟨covered.lists this p inList, fun r k held holds => dead ?_⟩
        refine covered.scanned t this live (by rw [pc]; rfl) p inList r k ?_ ?_ ?_
        · simpa [apply] using held
        · simpa [slot, HazardPointers.apply_pointers] using holds
        · rw [pc]; exact id
  | _ => exact old member

theorem Covered.loaded_after (owned : s.Owned) (covered : s.Covered K cells)
    (access : Access K rd s.pool (s.pc t) e nx) {this k : Nat} {once : Bool} {c : C} {cur : P}
    (pc : (s.after t e nx).pc u = .loadCheck this once c k cur) :
    (s.after t e nx).slot this k = cur := by
  simp only [slot, after_pool, HazardPointers.apply_pointers]
  by_cases same : u = t
  · subst same
    rw [after_pc_self] at pc
    cases access_loadCheck access pc
    simp
  · rw [after_pc_other same] at pc
    have before : (s.pool.record this).pointers k = cur :=
      covered.loaded u this once c k cur pc
    have mine : s.Holds u this := .inl (owned.this u this (by rw [pc]; rfl))
    cases e with
    | slot hp i value =>
        have : this ≠ hp := by
          rintro rfl
          exact same (owned.exclusive u t _ mine (.inl (owned.this t _ (access_slot access))))
        simpa [this] using before
    | create =>
        have : this ≠ s.pool.fresh := Nat.ne_of_lt (owned.bounded u this mine)
        simpa [this] using before
    | _ => exact before

theorem Covered.after (owned : s.Owned) (listing : s.Listing) (covered : s.Covered K cells)
    (access : Access K rd s.pool (s.pc t) e nx) : (s.after t e nx).Covered K cells := by
  constructor
  case notNull => rw [after_retired]; exact covered.notNull
  case away => rw [after_retired]; exact covered.away
  case lists =>
      intro r p member
      rw [after_pool] at member
      rw [after_retired]
      rcases HazardPointers.mem_apply_retireList access member with old | rfl | ⟨hp, rfl, moved⟩
      · exact covered.lists r p old
      · exact covered.pending t r p (access_push access).1
      · exact covered.lists hp p moved
  case pending =>
      intro u this p pc
      rw [after_retired]
      by_cases same : u = t
      · subst same
        rw [after_pc_self] at pc
        exact absurd pc (access_not_push access this p)
      · rw [after_pc_other same] at pc
        exact covered.pending u this p pc
  case range =>
      intro u
      by_cases same : u = t
      · subst same
        rw [after_pc_self]
        exact access_inRange access (covered.range u)
      · rw [after_pc_other same]
        exact covered.range u
  case slots => exact fun r k written => covered.slots_after access written
  case early => exact fun r k notRetired => covered.early_after listing notRetired
  case scanned =>
      intro u this live scanning p member r k held holds passed
      exact covered.scanned_after owned listing access scanning member held holds passed
  case gone => exact fun p member => covered.gone_after access member
  case loaded => exact fun u this once c k cur pc => covered.loaded_after owned access pc

/-! ## Calls and client writes -/

/-- What the client promises when it calls `retireNode`: the node is in no cell, and this is
the only time it is retired. -/
def Permitted (cells : C → P) (s : Sys T P C) : Call P C → Prop
  | .retireNode node => node ≠ default ∧ node ∉ s.retired ∧ ∀ c, cells c ≠ node
  | _ => True

theorem entry_scanning (c : Call P C) (r : Nat) : (c.entry r).scanning = none := by
  cases c <;> rfl

theorem retired_subset_call (c : Call P C) {p : P} (retired : p ∈ s.retired) :
    p ∈ (s.call t c).retired := by
  cases c <;> first | exact retired | exact List.mem_cons_of_mem _ retired

theorem mem_call_retired {c : Call P C} {p : P} (member : p ∈ (s.call t c).retired) :
    p ∈ s.retired ∨ c = .retireNode p := by
  cases c with
  | retireNode node =>
      rcases List.mem_cons.1 member with rfl | old
      · exact .inr rfl
      · exact .inl old
  | _ => exact .inl member

theorem Covered.call (covered : s.Covered K cells) {c : Call P C} (callable : s.Callable K t c)
    (permitted : s.Permitted cells c) : (s.call t c).Covered K cells where
  notNull p member := by
    rcases mem_call_retired member with old | rfl
    · exact covered.notNull p old
    · exact permitted.1
  away p member := by
    rcases mem_call_retired member with old | rfl
    · exact covered.away p old
    · exact permitted.2.2
  lists r p member := retired_subset_call c (covered.lists r p member)
  pending u this p pc := by
    by_cases same : u = t
    · subst same
      rw [call_pc_self] at pc
      cases c with
      | retireNode node => cases pc; exact List.mem_cons_self ..
      | _ => cases pc
    · rw [call_pc_other c same] at pc
      exact retired_subset_call c (covered.pending u this p pc)
  range u := by
    by_cases same : u = t
    · subst same
      rw [call_pc_self]
      cases c with
      | setHazard k value => exact callable.2
      | loadAndSetHazard c k => exact callable.2
      | loadAndSetHazardOrFail c k => exact callable.2
      | _ => trivial
    · rw [call_pc_other c same]
      exact covered.range u
  slots := covered.slots
  early r k notRetired :=
    covered.early r k fun retired => notRetired (retired_subset_call c retired)
  scanned u this live scanning := by
    by_cases same : u = t
    · subst same
      rw [call_pc_self, entry_scanning] at scanning
      cases scanning
    · rw [call_pc_other c same] at scanning ⊢
      exact covered.scanned u this live scanning
  gone p member := by
    obtain ⟨retired, uncovered⟩ := covered.gone p member
    exact ⟨retired_subset_call c retired, uncovered⟩
  loaded u this once c' k cur pc := by
    by_cases same : u = t
    · subst same
      rw [call_pc_self] at pc
      cases c <;> cases pc
    · rw [call_pc_other c same] at pc
      exact covered.loaded u this once c' k cur pc

/-- The client may write any pointer that is not retired. -/
theorem Covered.write (covered : s.Covered K cells) {cells' : C → P}
    (absent : ∀ c, cells' c = cells c ∨ cells' c ∉ s.retired) : s.Covered K cells' :=
  { covered with
    away := fun p retired c same => by
      rcases absent c with old | new
      · exact covered.away p retired c (old.symm.trans same)
      · exact new (same ▸ retired) }

theorem covered_init (cells : C → P) : (init : Sys T P C).Covered K cells := by
  constructor <;> simp [init, PC.InRange, PC.scanning, slot, HazardPointer.new]

/-- The three invariants together, for threads whose cells are `cells`. -/
structure Sound (K : Nat) (cells : C → P) (s : Sys T P C) : Prop where
  owned : s.Owned
  listing : s.Listing
  covered : s.Covered K cells

theorem sound_init (cells : C → P) : (init : Sys T P C).Sound K cells :=
  ⟨owned_init, listing_init, covered_init cells⟩

theorem Sound.step (sound : s.Sound K cells) {r : Option (Ret P)}
    (stepped : s.step K rd t = some (s', r)) : s'.Sound K cells := by
  obtain ⟨e, nx, access, rfl, -⟩ := step_access stepped
  exact ⟨sound.owned.after sound.listing access, sound.listing.after sound.owned access,
    sound.covered.after sound.owned sound.listing access⟩

theorem Sound.call (sound : s.Sound K cells) (idle : s.pc t = .idle) {c : Call P C}
    (callable : s.Callable K t c) (permitted : s.Permitted cells c) :
    (s.call t c).Sound K cells :=
  ⟨sound.owned.call idle callable, sound.listing.call c, sound.covered.call callable permitted⟩

theorem Sound.write (sound : s.Sound K cells) {cells' : C → P}
    (absent : ∀ c, cells' c = cells c ∨ cells' c ∉ s.retired) : s.Sound K cells' :=
  ⟨sound.owned, sound.listing, sound.covered.write absent⟩

end Sys

end Ccmetrics.Hazard
