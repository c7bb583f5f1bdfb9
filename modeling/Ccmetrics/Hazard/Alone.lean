/-
# Hazard.Alone -- member functions that run with no other thread moving

`weight` is a measure for every member function of `hazard_pointers.h`: as long as only the
thread itself moves, each of its accesses lowers it (`weight_access`). The walks are measured by
the records left on the list, `helpScan` in front of that by the nodes left on the list it
drains, and a scan by the slots and the retired nodes it has still to look at. The retry loops
of `allocate` and of `loadAndSetHazard` are run at most twice, since what they compare does not
change any more. So a call that runs alone returns (`Orderly.completes`), and one that has not
read a cell before it was alone returns what is in that cell now (`Completes.steady`).
-/
import Mathlib.Data.Prod.Lex
import Mathlib.Tactic.Ring
import Ccmetrics.Hazard.Calls
import Ccmetrics.Hazard.Records

namespace Ccmetrics.Hazard

set_option autoImplicit false
set_option linter.unusedSectionVars false

variable {P C : Type} [DecidableEq P] [Inhabited P]

namespace HazardPointers

/-- How many records there are from `r` on. -/
def left (h : HazardPointers P) (r : Nat) : Nat :=
  h.records.length - h.records.idxOf r

variable {h : HazardPointers P} {r r' : Nat}

theorem left_le : h.left r ≤ h.records.length := Nat.sub_le _ _

theorem left_pos (member : r ∈ h.records) : 0 < h.left r := by
  have := List.idxOf_lt_length_iff.2 member
  simp only [left]
  omega

/-- One record further on the walk, there is one record less to come. -/
theorem Row.left_next (row : h.Row) (member : r ∈ h.records)
    (next : (h.record r).next = some r') : r' ∈ h.records ∧ h.left r' + 1 = h.left r := by
  obtain ⟨before, behind, split⟩ := List.append_of_mem member
  have chained := row.chained
  have nodup := row.nodup
  simp only [left]
  rw [split] at chained nodup ⊢
  have first : behind.head? = some r' := (Theory.Chain.linked_next chained).symm.trans next
  obtain ⟨rest, rfl⟩ : ∃ rest, behind = r' :: rest := by
    cases behind with
    | nil => cases first
    | cons a rest => exact ⟨rest, by rw [Option.some.inj first]⟩
  obtain ⟨-, after, cross⟩ := List.nodup_append.1 nodup
  have apart : r ≠ r' := by
    rintro rfl
    exact (List.nodup_cons.1 after).1 (List.mem_cons_self ..)
  have outside : r ∉ before := fun inside => cross r inside r (List.mem_cons_self ..) rfl
  have outside' : r' ∉ before :=
    fun inside => cross r' inside r' (List.mem_cons_of_mem _ (List.mem_cons_self ..)) rfl
  refine ⟨by simp, ?_⟩
  rw [List.idxOf_append_of_notMem outside, List.idxOf_append_of_notMem outside',
    List.idxOf_cons_self, List.idxOf_cons_ne _ apart, List.idxOf_cons_self]
  simp only [List.length_append, List.length_cons]
  omega

theorem left_inj (member : r ∈ h.records) (member' : r' ∈ h.records)
    (same : h.left r = h.left r') : r = r' := by
  have inside := List.idxOf_lt_length_iff.2 member
  have inside' := List.idxOf_lt_length_iff.2 member'
  simp only [left] at same
  exact (List.idxOf_inj member).1 (by omega)

/-- The last record of the list is the last one to come. -/
theorem Row.left_last (row : h.Row) (member : r ∈ h.records) (next : (h.record r).next = none) :
    h.left r = 1 := by
  obtain ⟨before, behind, split⟩ := List.append_of_mem member
  have chained := row.chained
  have nodup := row.nodup
  simp only [left]
  rw [split] at chained nodup ⊢
  have last : behind.head? = none := (Theory.Chain.linked_next chained).symm.trans next
  obtain rfl := List.head?_eq_none_iff.1 last
  obtain ⟨-, -, cross⟩ := List.nodup_append.1 nodup
  have outside : r ∉ before := fun inside => cross r inside r (List.mem_cons_self ..) rfl
  rw [List.idxOf_append_of_notMem outside, List.idxOf_cons_self]
  simp

/-- The number of slots and retired nodes a running `scan` has still to look at. -/
def toScan (K : Nat) (h : HazardPointers P) : PC P C → Nat
  | .helpShould this _ => (h.record this).retireList.length + 4 + (h.records.length + 1) * (K + 1)
  | .scanHead this _ => (h.record this).retireList.length + 3 + (h.records.length + 1) * (K + 1)
  | .scanSlot this _ hp i _ =>
      (h.record this).retireList.length + 2 + h.left hp * (K + 1) + (K - i)
  | .sweep this _ _ i => (h.record this).retireList.length - i + 1
  | _ => 0

/-- The nodes left on the list that `helpScan` drains. -/
def toDrain (h : HazardPointers P) (pc : PC P C) : Nat :=
  match pc.draining with
  | some hp => (h.record hp).retireList.length
  | none => 0

/-- The stages of a member function, and the records left to walk over. -/
def stage (K : Nat) (rd : C → P) (h : HazardPointers P) : PC P C → Nat
  | .idle => 0
  | .allocHead => 2 * h.records.length + 6
  | .allocActive hp => 2 * h.left hp + 5
  | .allocLock hp => 2 * h.left hp + 4
  | .allocCount => 3
  | .allocNew => 2
  | .allocNext _ => 1
  | .allocPush _ oldhead => if h.head = oldhead then 0 else 2
  | .retireSlot _ i => K - i
  | .setSlot _ _ _ => 0
  | .load _ _ _ _ => 3
  | .loadSet _ _ c _ cur => if cur = rd c then 2 else 5
  | .loadCheck _ _ c _ cur => if cur = rd c then 1 else 4
  | .loadClear _ _ => 0
  | .push _ _ => 4 * h.records.length + 7
  | .should _ => 4 * h.records.length + 6
  | .scanHead _ none | .scanSlot _ none _ _ _ | .sweep _ none _ _ => 4 * h.records.length + 5
  | .helpHead _ => 4 * h.records.length + 4
  | .helpLock _ hp => 4 * h.left hp + 3
  | .helpDrain _ hp | .helpShould _ hp | .scanHead _ (some hp) | .scanSlot _ (some hp) _ _ _
  | .sweep _ (some hp) _ _ => 4 * h.left hp + 2
  | .helpUnlock _ hp => 4 * h.left hp + 1

def weight (K : Nat) (rd : C → P) (h : HazardPointers P) (pc : PC P C) : Nat × Nat × Nat :=
  (h.stage K rd pc, h.toDrain pc, h.toScan K pc)

end HazardPointers

/-- The order in which `weight` goes down. -/
def Lighter : Nat × Nat × Nat → Nat × Nat × Nat → Prop :=
  Prod.Lex (· < ·) (Prod.Lex (· < ·) (· < ·))

theorem lighter_wf : WellFounded Lighter :=
  (Prod.lex ⟨_, Nat.lt_wfRel.wf⟩ (Prod.lex ⟨_, Nat.lt_wfRel.wf⟩ ⟨_, Nat.lt_wfRel.wf⟩)).wf

theorem lighter_iff {a b c a' b' c' : Nat} : Lighter (a, b, c) (a', b', c') ↔
    a < a' ∨ a = a' ∧ (b < b' ∨ b = b' ∧ c < c') := by
  simp only [Lighter, Prod.lex_def]

/-- Where a running member function stands relative to the list. -/
structure Placed (h : HazardPointers P) (pc : PC P C) : Prop where
  row : h.Row
  visiting : ∀ r, pc.visiting = some r → r ∈ h.records
  draining : ∀ r, pc.draining = some r → r ∈ h.records
  apart : ∀ r, pc.draining = some r → pc.this? ≠ some r
  building : ∀ r, pc.building = some r → r ∉ h.records

section Access

variable {K : Nat} {rd : C → P} {h : HazardPointers P} {pc pc' : PC P C}
variable {e : Effect P} {nx : Next P C}

/-- Only the last access of `allocate` changes the list of records. -/
theorem Placed.same (placed : Placed h pc) (access : Access K rd h pc e nx)
    (stays : ∀ hp, e ≠ .setHead hp) : (h.apply e).records = h.records ∧ (h.apply e).Row := by
  have grows := HazardPointers.fresh_le_apply (h := h) e
  have head : (h.apply e).head = h.head := by
    rw [HazardPointers.apply_head]
    cases e with
    | setHead hp => exact absurd rfl (stays hp)
    | _ => rfl
  refine placed.row.same head (fun r member => ?_) grows
  rw [HazardPointers.apply_next]
  cases e with
  | setNext hp next =>
      have ne : r ≠ hp := by
        rintro rfl
        exact placed.building r (access_setNext access).1 member
      simp [ne]
  | create => simp [Nat.ne_of_lt (placed.row.bounded r member)]
  | _ => rfl

theorem Placed.after (placed : Placed h pc) (access : Access K rd h pc e nx)
    (stays : ∀ hp, e ≠ .setHead hp) : Placed (h.apply e) nx.pc := by
  obtain ⟨records, row⟩ := placed.same access stays
  refine ⟨row, ?_, ?_, ?_, ?_⟩
  · intro r visit
    rw [records]
    rcases access_visiting access visit with before | head | ⟨x, on, edge⟩
    · exact placed.visiting r before
    · rw [← h.records_head] at head
      exact List.mem_of_head? head
    · exact (placed.row.left_next (on.elim (placed.visiting x) (placed.draining x)) edge).1
  · intro r drain
    rw [records]
    rcases access_draining access drain with before | ⟨visit, -⟩
    · exact placed.draining r before
    · exact placed.visiting r visit
  · intro r drain on
    have before := access_this access on
    rcases access_draining access drain with old | ⟨-, this, isThis, ne⟩
    · exact placed.apart r old before
    · exact ne (Option.some.inj (isThis.symm.trans before))
  · intro r build
    rw [records]
    rcases access_building access build with before | ⟨-, rfl⟩
    · exact placed.building r before
    · exact fun member => Nat.lt_irrefl _ (placed.row.bounded _ member)

/-- Inside a scan the stage and the list being drained stay, and the scan gets on. -/
theorem lighter_scan {h' : HazardPointers P} (stage : h'.stage K rd pc' = h.stage K rd pc)
    (drain : h'.toDrain pc' = h.toDrain pc) (scan : h'.toScan K pc' < h.toScan K pc) :
    Lighter (h'.weight K rd pc') (h.weight K rd pc) :=
  lighter_iff.2 (.inr ⟨stage, .inr ⟨drain, scan⟩⟩)

theorem lighter_stage {h' : HazardPointers P} (stage : h'.stage K rd pc' < h.stage K rd pc) :
    Lighter (h'.weight K rd pc') (h.weight K rd pc) :=
  lighter_iff.2 (.inl stage)

/-- Phase 1 of `scan` goes on to the next record or to phase 2. -/
theorem lighter_walkScan {this : Nat} {helping o : Option Nat} {live : List P}
    (stage : ∀ r i live, h.stage K rd (.scanSlot this helping r i live : PC P C) = h.stage K rd pc)
    (drain : ∀ r i live, h.toDrain (.scanSlot this helping r i live : PC P C) = h.toDrain pc)
    (long : (h.record this).retireList.length + 1 < h.toScan K pc)
    (walk : ∀ r, o = some r →
      (h.record this).retireList.length + 2 + h.left r * (K + 1) + K < h.toScan K pc) :
    Lighter (h.weight K rd (walkScan this helping live o)) (h.weight K rd pc) := by
  cases o with
  | none =>
      refine lighter_scan ?_ ?_ ?_
      · rw [← stage 0 0 []]; cases helping <;> rfl
      · rw [← drain 0 0 []]; rfl
      · simpa [walkScan, HazardPointers.toScan] using long
  | some r => exact lighter_scan (stage r 0 live) (drain r 0 live) (walk r rfl)

/-- `scan` is left for the draining it was called from, or for the walk of `helpScan`. -/
theorem lighter_afterScan {h' : HazardPointers P} {this i : Nat} {helping : Option Nat}
    {live : List P} (records : h'.records = h.records)
    (lists : ∀ hp, helping = some hp → (h'.record hp).retireList = (h.record hp).retireList) :
    Lighter (h'.weight K rd (afterScan this helping))
      (h.weight K rd (.sweep this helping live i : PC P C)) := by
  cases helping with
  | none =>
      refine lighter_stage ?_
      simp [afterScan, HazardPointers.stage, records]
  | some hp =>
      refine lighter_scan ?_ ?_ ?_
      · simp [afterScan, HazardPointers.stage, HazardPointers.left, records]
      · simp [afterScan, HazardPointers.toDrain, PC.draining, lists hp rfl]
      · simp [afterScan, HazardPointers.toScan]

/-- **Every access inside a member function lowers its weight.** -/
theorem weight_access (placed : Placed h pc) (access : Access K rd h pc e (.goto pc')) :
    Lighter ((h.apply e).weight K rd pc') (h.weight K rd pc) := by
  have stays : ∀ hp, e ≠ .setHead hp := by
    rintro hp rfl
    cases (access_setHead access).2
  obtain ⟨records, -⟩ := placed.same access stays
  have left : ∀ r, (h.apply e).left r = h.left r := by simp [HazardPointers.left, records]
  have walks : ∀ x r, (pc.visiting = some x ∨ pc.draining = some x) →
      (h.record x).next = some r → h.left r + 1 = h.left x := fun x r on next =>
    (placed.row.left_next (on.elim (placed.visiting x) (placed.draining x)) next).2
  have short : ∀ r, h.left r ≤ h.records.length := fun r => HazardPointers.left_le
  have apart := placed.apart
  generalize going : (.goto pc' : Next P C) = nx at access
  cases access
  case allocHead =>
      refine lighter_stage ?_
      cases first : h.head with
      | none => simp only [walkAlloc, first] at going; cases going; simp [HazardPointers.stage]
      | some r =>
          simp only [walkAlloc, first] at going
          cases going
          have := short r
          simp only [HazardPointers.stage, HazardPointers.apply]
          omega
  case allocBusy hp busy | allocLost hp busy =>
      refine lighter_stage ?_
      cases next : (h.record hp).next with
      | none =>
          simp only [walkAlloc, next] at going
          cases going
          simp only [HazardPointers.stage]
          omega
      | some r =>
          simp only [walkAlloc, next] at going
          cases going
          have := walks hp r (.inl rfl) next
          simp only [HazardPointers.stage, HazardPointers.apply]
          omega
  case allocFree | allocCount | allocNew | retireClear | load | loadSet | loadGone | loadAgain
      | push | full =>
      cases going
      refine lighter_stage ?_
      simp only [HazardPointers.stage, records, left]
      grind
  case allocNext =>
      cases going
      refine lighter_stage ?_
      simp [HazardPointers.stage, HazardPointers.apply_head]
  case allocAgain hp oldhead changed =>
      cases going
      refine lighter_stage ?_
      simp [HazardPointers.stage, changed]
  case scanHead this helping =>
      cases going
      refine lighter_walkScan (fun _ _ _ => by cases helping <;> rfl) (fun _ _ _ => rfl) ?_ ?_
      · simp only [HazardPointers.toScan]
        omega
      · intro r first
        have := Nat.mul_le_mul_right (K + 1) (short r)
        have all := Nat.add_one_mul h.records.length (K + 1)
        simp only [HazardPointers.toScan, HazardPointers.apply]
        omega
  case scanNull this helping hp i live inside null | scanLive this helping hp i live inside set =>
      cases going
      refine lighter_scan (by cases helping <;> rfl) rfl ?_
      simp only [HazardPointers.toScan, HazardPointers.apply]
      omega
  case scanNext this helping hp i live done =>
      cases going
      refine lighter_walkScan (fun _ _ _ => by cases helping <;> rfl) (fun _ _ _ => rfl) ?_ ?_
      · simp only [HazardPointers.toScan]
        omega
      · intro r next
        have behind : h.left hp = h.left r + 1 := (walks hp r (.inl rfl) next).symm
        have all := Nat.add_one_mul (h.left r) (K + 1)
        simp only [HazardPointers.toScan, HazardPointers.apply, behind]
        omega
  case sweepEnd =>
      cases going
      exact lighter_afterScan rfl fun _ _ => rfl
  case sweepLive this helping live i node found alive =>
      cases going
      have inside := (List.getElem?_eq_some_iff.1 found).1
      refine lighter_scan (by cases helping <;> rfl) rfl ?_
      simp only [HazardPointers.toScan, HazardPointers.apply]
      omega
  case sweepLast this helping live i node found dead last =>
      cases going
      refine lighter_afterScan records fun hp isHelping => ?_
      subst isHelping
      have ne : hp ≠ this := by
        rintro rfl
        exact apart hp rfl rfl
      simp [HazardPointers.apply_retireList, ne]
  case sweepDead this helping live i node found dead last =>
      cases going
      have inside := (List.getElem?_eq_some_iff.1 found).1
      refine lighter_scan ?_ ?_ ?_
      · cases helping <;> simp [HazardPointers.stage, records, left]
      · cases helping with
        | none => rfl
        | some hp =>
            have ne : hp ≠ this := by
              rintro rfl
              exact apart hp rfl rfl
            simp [HazardPointers.toDrain, PC.draining, HazardPointers.apply_retireList, ne]
      · have popped : (swapPop (h.record this).retireList i).length =
            (h.record this).retireList.length - 1 := by simp [swapPop]
        simp only [HazardPointers.toScan, HazardPointers.apply_retireList, if_true, popped]
        omega
  case helpHead this =>
      refine lighter_stage ?_
      cases first : h.head with
      | none => simp only [walkHelp, first] at going; cases going
      | some r =>
          simp only [walkHelp, first] at going
          cases going
          have := short r
          simp only [HazardPointers.stage, HazardPointers.apply]
          omega
  case helpSkip this hp skip =>
      refine lighter_stage ?_
      cases next : (h.record hp).next with
      | none => simp only [walkHelp, next] at going; cases going
      | some r =>
          simp only [walkHelp, next] at going
          cases going
          have := walks hp r (.inl rfl) next
          simp only [HazardPointers.stage, HazardPointers.apply]
          omega
  case helpUnlock this hp =>
      refine lighter_stage ?_
      cases next : (h.record hp).next with
      | none => simp only [walkHelp, next] at going; cases going
      | some r =>
          simp only [walkHelp, next] at going
          cases going
          have := walks hp r (.inr rfl) next
          simp only [HazardPointers.stage, left]
          omega
  case helpWon | helpEmpty =>
      cases going
      refine lighter_stage ?_
      simp only [HazardPointers.stage, left]
      omega
  case helpMove this hp nonempty =>
      cases going
      have ne : hp ≠ this := by
        rintro rfl
        exact apart hp rfl rfl
      refine lighter_iff.2 (.inr ⟨by simp [HazardPointers.stage, left], .inl ?_⟩)
      have := List.length_pos_of_ne_nil nonempty
      simp only [HazardPointers.toDrain, PC.draining, HazardPointers.apply_retireList, if_true, ne,
        if_false, List.length_dropLast]
      omega
  case helpScan | helpOn =>
      cases going
      refine lighter_scan rfl rfl ?_
      simp only [HazardPointers.toScan, HazardPointers.apply]
      omega
  all_goals cases going

/-- A thread inside a member function can always move. -/
theorem plan_isSome (K : Nat) (rd : C → P) (h : HazardPointers P) (busy : pc ≠ .idle) : ∃ e nx, plan K rd h pc = some (e, nx) := by
  cases pc
  case idle => exact absurd rfl busy
  case sweep this helping live i =>
      simp only [plan]
      cases (h.record this).retireList[i]? with
      | none => exact ⟨_, _, rfl⟩
      | some node =>
          simp only
          split
          · exact ⟨_, _, rfl⟩
          · split <;> exact ⟨_, _, rfl⟩
  all_goals simp only [plan]
  all_goals repeat' split
  all_goals exact ⟨_, _, rfl⟩

end Access

/-! ## A call run alone -/

/-- A member function that goes on has not returned. -/
theorem goto_ne_idle {K : Nat} {rd : C → P} {h : HazardPointers P} {pc pc' : PC P C} {e : Effect P}
    (access : Access K rd h pc e (.goto pc')) : pc' ≠ .idle := by
  rintro rfl
  generalize going : (.goto .idle : Next P C) = nx at access
  cases access
  case allocHead | allocBusy | allocLost =>
      simp only [walkAlloc] at going
      split at going <;> cases going
  case helpHead | helpSkip | helpUnlock =>
      simp only [walkHelp] at going
      split at going <;> cases going
  case scanHead | scanNext =>
      simp only [walkScan] at going
      split at going <;> cases going
  case sweepEnd | sweepLast =>
      simp only [afterScan] at going
      split at going <;> cases going
  all_goals cases going

/-- What the thread has read from a cell is still there. -/
def PC.Steady (rd : C → P) : PC P C → Prop
  | .loadSet _ _ c _ cur | .loadCheck _ _ c _ cur => cur = rd c
  | .loadClear _ _ => False
  | _ => True

theorem steady_entry (rd : C → P) (c : Call P C) (this : Nat) : (c.entry this).Steady rd := by
  cases c <;> trivial

theorem steady_access {K : Nat} {rd : C → P} {h : HazardPointers P} {pc : PC P C} {e : Effect P}
    {nx : Next P C} (steady : pc.Steady rd) (access : Access K rd h pc e nx) :
    nx.pc.Steady rd ∧ nx ≠ .ret .fail := by
  cases access
  case allocHead | allocBusy | allocLost =>
      simp only [walkAlloc]
      split <;> exact ⟨trivial, by simp⟩
  case helpHead | helpSkip | helpUnlock =>
      simp only [walkHelp]
      split <;> exact ⟨trivial, by simp⟩
  case scanHead | scanNext =>
      simp only [walkScan]
      split <;> exact ⟨trivial, by simp⟩
  case sweepEnd | sweepLast =>
      simp only [afterScan]
      split <;> exact ⟨trivial, by simp⟩
  case load => exact ⟨rfl, by simp⟩
  case loadSet => exact ⟨steady, by simp⟩
  case loadGone this c k cur changed => exact absurd steady changed
  case loadClear => exact steady.elim
  all_goals exact ⟨trivial, by simp⟩

namespace Sys

variable {T : Type} [DecidableEq T] {K : Nat} {rd : C → P} {s s' : Sys T P C} {t : T}

/-- Thread `t` runs alone, and its call returns `r`. -/
inductive Completes (K : Nat) (rd : C → P) (t : T) : Sys T P C → Sys T P C → Ret P → Prop
  | last (s s' r) : s.step K rd t = some (s', some r) → Completes K rd t s s' r
  | more (s mid s' r) : s.step K rd t = some (mid, none) → Completes K rd t mid s' r →
      Completes K rd t s s' r

theorem Orderly.placed (orderly : s.Orderly K) (t : T) : Placed s.pool (s.pc t) where
  row := orderly.row
  visiting r visit := (orderly.row.listed_iff r).1 (orderly.listing.visiting t r visit)
  draining r drain := (orderly.row.listed_iff r).1 (orderly.listing.draining t r drain)
  apart r drain on := orderly.owned.apart t r drain (orderly.owned.this t r on)
  building r build member := orderly.listing.building t r build ((orderly.row.listed_iff r).2 member)

/-- **A call that runs alone returns.** -/
theorem Orderly.completes (orderly : s.Orderly K) (busy : s.pc t ≠ .idle) :
    ∃ s' r, Completes K rd t s s' r := by
  suffices ∀ w, ∀ s : Sys T P C, s.pool.weight K rd (s.pc t) = w → s.Orderly K → s.pc t ≠ .idle →
      ∃ s' r, Completes K rd t s s' r from this _ s rfl orderly busy
  intro w
  induction w using lighter_wf.induction with
  | _ w ih =>
      rintro s rfl orderly busy
      obtain ⟨e, nx, planned⟩ := plan_isSome K rd s.pool busy
      have access := access_of_plan planned
      cases nx with
      | ret r =>
          have stepped : s.step K rd t = some ((s.apply e).finish t r, some r) := by
            simp only [Sys.step, planned]
          exact ⟨_, r, .last _ _ _ stepped⟩
      | goto pc =>
          have stepped : s.step K rd t = some ((s.apply e).goto t pc, none) := by
            simp only [Sys.step, planned]
          have here : ((s.apply e).goto t pc).pc t = pc := if_pos rfl
          have lower : Lighter (((s.apply e).goto t pc).pool.weight K rd
              (((s.apply e).goto t pc).pc t)) (s.pool.weight K rd (s.pc t)) := by
            rw [here]
            exact weight_access (orderly.placed t) access
          by_cases rests : pc = .idle
          · rw [rests] at access
            exact absurd rfl (goto_ne_idle access)
          · obtain ⟨s', r, completes⟩ := ih _ lower _ rfl
              (orderly.step (.access s t rd _ none stepped)) (by rwa [here])
            exact ⟨s', r, .more _ _ _ _ stepped completes⟩

theorem Completes.steady {r : Ret P} (completes : Completes K rd t s s' r) (steady : (s.pc t).Steady rd) :
    r ≠ .fail := by
  induction completes with
  | last s s' r stepped =>
      obtain ⟨e, nx, access, -, last⟩ := step_access stepped
      obtain rfl := (last _).1 rfl
      intro failed
      exact (steady_access steady access).2 (by rw [failed])
  | more s mid s' r stepped _ ih =>
      obtain ⟨e, nx, access, rfl, last⟩ := step_access stepped
      cases nx with
      | ret q => exact absurd ((last q).2 rfl) (by simp)
      | goto pc =>
          refine ih ?_
          have here : (s.after t e (.goto pc)).pc t = pc := if_pos rfl
          rw [here]
          exact (steady_access steady access).1

end Sys

end Ccmetrics.Hazard
