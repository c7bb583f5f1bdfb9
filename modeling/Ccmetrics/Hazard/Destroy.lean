/-
# Hazard.Destroy -- what is left of the retired nodes after `~HazardPointers`

The destructor runs `helpScan` and then `scan` on the first record of the list, without
activating that record, and deletes the records. `destructor` is that run, with no other thread
moving. If every record has been retired, `helpScan` locks every other record in turn and moves
what it holds to the first one, and since no slot is set any more `scan` deletes it all.

`retired_conserved` puts both together: a node given to `retireNode` is always in one place, and
after the destructor it has been deleted once.
-/
import Ccmetrics.Theory.Alone
import Ccmetrics.Hazard.Alone

namespace Ccmetrics.Hazard

set_option autoImplicit false
set_option linter.unusedSectionVars false

variable {P : Type} [DecidableEq P] [Inhabited P]

/-- One access of the thread that runs the destructor. -/
def advance (K : Nat) (x : HazardPointers P × PC P Empty) :
    Option (HazardPointers P × PC P Empty) :=
  (plan K Empty.elim x.1 x.2).map fun y => (x.1.apply y.1, y.2.pc)

/-- `~HazardPointers`, with the records it deletes in the end. `helpScan` has returned when the
thread is outside again, `scan` when control is back where `retireNode` would call `helpScan`. -/
def HazardPointers.destructor (K fuel : Nat) (h : HazardPointers P) :
    Option (HazardPointers P × List Nat) :=
  match h.head with
  | none => some (h, [])
  | some hp =>
      (Theory.runUntil (advance K) (fun x => x.2 = .idle) fuel (h, .helpHead hp)).bind fun x =>
        (Theory.runUntil (advance K) (fun x => x.2 = .helpHead hp) fuel
          (x.1, .scanHead hp none)).map fun x => (x.1, x.1.records)

/-- Whether a thread is inside `scan` or `helpScan`. -/
def PC.cleaning {C : Type} : PC P C → Bool
  | .scanHead _ _ | .scanSlot _ _ _ _ _ | .sweep _ _ _ _ | .helpHead _ | .helpLock _ _
  | .helpDrain _ _ | .helpShould _ _ | .helpUnlock _ _ => true
  | _ => false

section Cleaning

variable {K : Nat} {h : HazardPointers P} {pc : PC P Empty} {e : Effect P} {nx : Next P Empty}

/-- `scan` and `helpScan` lock and unlock records, move nodes and delete them, and no more. -/
theorem access_cleaning (access : Access K Empty.elim h pc e nx) (inside : pc.cleaning = true) :
    (nx.pc.cleaning = true ∨ nx.pc = .idle) ∧
    (e = .none ∨ (∃ hp, e = .lock hp) ∨ (∃ hp, e = .unlock hp) ∨ (∃ hp this, e = .move hp this) ∨
      ∃ this i, e = .delete this i) := by
  cases access
  case helpHead | helpSkip =>
      refine ⟨?_, .inl rfl⟩
      simp only [walkHelp]
      split <;> simp [PC.cleaning]
  case helpUnlock =>
      refine ⟨?_, .inr (.inr (.inl ⟨_, rfl⟩))⟩
      simp only [walkHelp]
      split <;> simp [PC.cleaning]
  case scanHead | scanNext =>
      refine ⟨.inl ?_, .inl rfl⟩
      simp only [walkScan, Next.pc_goto]
      split <;> rfl
  case sweepEnd =>
      refine ⟨.inl ?_, .inl rfl⟩
      simp only [afterScan, Next.pc_goto]
      split <;> rfl
  case sweepLast =>
      refine ⟨.inl ?_, .inr (.inr (.inr (.inr ⟨_, _, rfl⟩)))⟩
      simp only [afterScan, Next.pc_goto]
      split <;> rfl
  case helpWon => exact ⟨.inl rfl, .inr (.inl ⟨_, rfl⟩)⟩
  case helpMove => exact ⟨.inl rfl, .inr (.inr (.inr (.inl ⟨_, _, rfl⟩)))⟩
  case sweepDead => exact ⟨.inl rfl, .inr (.inr (.inr (.inr ⟨_, _, rfl⟩)))⟩
  all_goals first | exact ⟨.inl rfl, .inl rfl⟩ | cases inside

/-- What holds while the destructor cleans up on the record `first`: no slot is set, so nothing
is live, and the nodes given to `retireNode` are all on some list or deleted. -/
structure Closing (given : List P) (records : List Nat) (first : Nat) (h : HazardPointers P)
    (pc : PC P Empty) : Prop where
  placed : Placed h pc
  listed : first ∈ h.records
  intact : h.Intact
  slots : ∀ r k, (h.record r).pointers k = default
  stocked : ∀ r, (h.record r).retireList ≠ [] → r ∈ h.records
  kept : ∀ p ∈ given, (∃ r, p ∈ (h.record r).retireList) ∨ p ∈ h.deleted
  same : h.records = records
  this : pc = .idle ∨ (pc.cleaning = true ∧ pc.this? = some first)
  live : ∀ this live, pc.scanning = some (this, live) → live = []

variable {given : List P} {records : List Nat} {first : Nat}

theorem this_of_cleaning (inside : pc.cleaning = true) : ∃ this, pc.this? = some this := by
  cases pc <;> first | exact ⟨_, rfl⟩ | cases inside

/-- The lists of the other records only get shorter. -/
theorem Closing.drained_after (closing : Closing given records first h pc)
    (access : Access K Empty.elim h pc e nx) (inside : pc.cleaning = true) {r : Nat}
    (other : r ≠ first) (empty : (h.record r).retireList = []) :
    ((h.apply e).record r).retireList = [] := by
  rw [List.eq_nil_iff_forall_not_mem] at empty ⊢
  intro p member
  rcases HazardPointers.mem_apply_retireList access member with old | rfl | ⟨hp, rfl, -⟩
  · exact empty p old
  · rw [(access_push access).1] at inside
    cases inside
  · obtain ⟨pc, -⟩ := access_move access
    rcases closing.this with idle | ⟨-, on⟩
    · rw [idle] at inside
      cases inside
    · rw [pc] at on
      exact other (Option.some.inj on)

theorem Closing.live_after (closing : Closing given records first h pc)
    (access : Access K Empty.elim h pc e nx) {this : Nat} {live : List P}
    (scanning : nx.pc.scanning = some (this, live)) : live = [] := by
  have before := closing.live
  cases access
  case scanHead =>
      simp only [walkScan, Next.pc_goto] at scanning
      split at scanning <;> cases scanning <;> rfl
  case scanNext =>
      simp only [walkScan, Next.pc_goto] at scanning
      split at scanning <;> cases scanning <;> exact before _ _ rfl
  case scanLive set => exact absurd (closing.slots _ _) set
  case helpHead | helpSkip | helpUnlock =>
      simp only [walkHelp] at scanning
      split at scanning <;> cases scanning
  case sweepEnd | sweepLast =>
      simp only [afterScan, Next.pc_goto] at scanning
      split at scanning <;> cases scanning
  case allocHead | allocBusy | allocLost =>
      simp only [walkAlloc] at scanning
      split at scanning <;> cases scanning
  case scanNull | sweepLive | sweepDead =>
      cases scanning
      exact before _ _ rfl
  all_goals cases scanning

theorem Closing.after (closing : Closing given records first h pc)
    (access : Access K Empty.elim h pc e nx) (inside : pc.cleaning = true) :
    Closing given records first (h.apply e) nx.pc := by
  obtain ⟨onwards, effect⟩ := access_cleaning access inside
  have on : pc.this? = some first := by
    rcases closing.this with idle | ⟨-, on⟩
    · rw [idle] at inside
      cases inside
    · exact on
  have stays : ∀ hp, e ≠ .setHead hp := by
    rintro hp rfl
    simp at effect
  have noPush : ∀ hp node, e ≠ .push hp node := by
    rintro hp node rfl
    simp at effect
  obtain ⟨whole, -⟩ := closing.placed.same access stays
  have other : ∀ hp this, e = .move hp this → hp ≠ this := by
    rintro hp this rfl rfl
    obtain ⟨pc, -⟩ := access_move access
    subst pc
    exact closing.placed.apart hp rfl rfl
  have born : first < h.fresh := closing.placed.row.bounded first closing.listed
  have members := closing.intact.mem_after access other
  refine ⟨closing.placed.after access stays, ?_, ?_, ?_, ?_, ?_, whole.trans closing.same, ?_, ?_⟩
  · rw [whole]
    exact closing.listed
  · refine closing.intact.after access other (fun hp node pushed => ?_) ?_
    · exact absurd pushed (noPush hp node)
    · rintro this (⟨hp, rfl⟩ | ⟨node, rfl⟩)
      · obtain ⟨pc, -⟩ := access_move access
        subst pc
        exact Option.some.inj on ▸ born
      · exact absurd rfl (noPush this node)
  · intro r k
    rw [HazardPointers.apply_pointers]
    cases e with
    | slot => simp at effect
    | create => simp at effect
    | _ => exact closing.slots r k
  · intro r stocked
    rw [whole]
    by_contra outside
    have empty : (h.record r).retireList = [] := by
      by_contra before
      exact outside (closing.stocked r before)
    have ne : r ≠ first := by
      rintro rfl
      exact outside closing.listed
    exact stocked (closing.drained_after access inside ne empty)
  · intro p isGiven
    rw [HazardPointers.apply_deleted]
    simp only [members]
    rcases closing.kept p isGiven with ⟨r, listed⟩ | gone
    · cases e with
      | push hp node => exact absurd rfl (noPush hp node)
      | move hp this =>
          by_cases isLast : p = (h.record hp).retireList.getLastD default
          · exact .inl ⟨this, .inr ⟨rfl, isLast⟩⟩
          · exact .inl ⟨r, .inl ⟨listed, isLast⟩⟩
      | delete this i =>
          by_cases isNode : p = (h.record this).retireList.getD i default
          · exact .inr (List.mem_append_right _ (List.mem_singleton.2 isNode))
          · exact .inl ⟨r, listed, isNode⟩
      | _ => exact .inl ⟨r, listed⟩
    · refine .inr ?_
      cases e with
      | delete this i => exact List.mem_append_left _ gone
      | _ => exact gone
  · rcases onwards with still | idle
    · obtain ⟨this, isThis⟩ := this_of_cleaning still
      rw [access_this access isThis] at on
      exact .inr ⟨still, isThis.trans on⟩
    · exact .inl idle
  · exact fun this live => closing.live_after access

/-! ## `helpScan` -/

/-- The records that `helpScan` has still to drain are the last `toHelp` ones of the list. -/
def toHelp (h : HazardPointers P) : PC P Empty → Nat
  | .helpHead _ => h.records.length
  | .helpLock _ hp | .helpDrain _ hp | .helpShould _ hp => h.left hp
  | .scanHead _ (some hp) | .scanSlot _ (some hp) _ _ _ | .sweep _ (some hp) _ _ => h.left hp
  | .helpUnlock _ hp => h.left hp - 1
  | _ => 0

structure Helping (given : List P) (records : List Nat) (first : Nat) (h : HazardPointers P)
    (pc : PC P Empty) : Prop where
  closing : Closing given records first h pc
  inside : ∀ this, pc ≠ .scanHead this none ∧ (∀ hp i live, pc ≠ .scanSlot this none hp i live) ∧
    ∀ live i, pc ≠ .sweep this none live i
  free : ∀ r ∈ h.records, r ≠ first → pc.draining ≠ some r → (h.record r).active = false
  drained : ∀ r ∈ h.records, r ≠ first → toHelp h pc < h.left r → (h.record r).retireList = []

/-- From the record `hp` the walk goes on to the one behind it. -/
theorem toHelp_walkHelp {hp : Nat} (row : h.Row) (member : hp ∈ h.records) (this : Nat) :
    toHelp h (walkHelp this (h.record hp).next : Next P Empty).pc = h.left hp - 1 := by
  cases next : (h.record hp).next with
  | none => simp [walkHelp, toHelp, row.left_last member next]
  | some r =>
      have := (row.left_next member next).2
      simp only [walkHelp, Next.pc_goto, toHelp]
      omega

/-- What is to be drained after an access was to be drained before, or has just been drained. -/
theorem Helping.toHelp_after (helping : Helping given records first h pc)
    (access : Access K Empty.elim h pc e nx) (inside : pc.cleaning = true) {r : Nat}
    (member : r ∈ h.records) (other : r ≠ first) (behind : toHelp h nx.pc < h.left r) :
    toHelp h pc < h.left r ∨ (h.record r).retireList = [] := by
  obtain ⟨closing, notScan, free, drained⟩ := helping
  obtain ⟨row, visiting, draining, -, -⟩ := closing.placed
  have same : ∀ hp, hp ∈ h.records → h.left hp - 1 < h.left r → ¬ h.left hp < h.left r → r = hp := by
    intro hp listed above notBelow
    have := HazardPointers.left_pos listed
    exact HazardPointers.left_inj member listed (by omega)
  cases access
  case helpHead =>
      refine .inl ?_
      cases start : h.head with
      | none =>
          rw [← h.records_head, List.head?_eq_none_iff] at start
          simp [start] at member
      | some a =>
          have whole : h.left a = h.records.length := by
            rw [← h.records_head] at start
            cases list : h.records with
            | nil => rw [list] at start; cases start
            | cons b rest =>
                rw [list] at start
                obtain rfl := Option.some.inj start
                simp [HazardPointers.left, list]
          rw [start] at behind
          simp only [walkHelp, Next.pc_goto, toHelp] at behind ⊢
          omega
  case helpSkip this hp skip =>
      have listed := visiting hp rfl
      have isFirst : hp = first := by
        by_contra ne
        rcases skip with own | busy
        · rcases closing.this with idle | ⟨-, on⟩
          · cases idle
          · exact ne (own.trans (Option.some.inj on))
        · rw [free hp listed ne (by simp [PC.draining])] at busy
          cases busy
      rw [toHelp_walkHelp row listed] at behind
      by_cases below : h.left hp < h.left r
      · exact .inl below
      · exact absurd ((same hp listed behind below).trans isFirst) other
  case helpWon => exact .inl behind
  case helpEmpty this hp empty =>
      by_cases below : h.left hp < h.left r
      · exact .inl below
      · exact .inr (same hp (draining hp rfl) behind below ▸ empty)
  case helpUnlock this hp =>
      rw [toHelp_walkHelp row (draining hp rfl)] at behind
      exact .inl behind
  case scanHead this helping =>
      cases helping with
      | none => exact absurd rfl (notScan this).1
      | some hp =>
          refine .inl ?_
          simp only [walkScan, Next.pc_goto] at behind
          split at behind <;> exact behind
  case scanNext this helping hp i live done =>
      cases helping with
      | none => exact absurd rfl ((notScan this).2.1 hp i live)
      | some hp' =>
          refine .inl ?_
          simp only [walkScan, Next.pc_goto] at behind
          split at behind <;> exact behind
  case scanNull this helping hp i live _ _ | scanLive this helping hp i live _ _ =>
      cases helping with
      | none => exact absurd rfl ((notScan this).2.1 hp i live)
      | some hp' => exact .inl behind
  case sweepEnd this helping live i _ | sweepLast this helping live i _ _ _ _
      | sweepLive this helping live i _ _ _ | sweepDead this helping live i _ _ _ _ =>
      cases helping with
      | none => exact absurd rfl ((notScan this).2.2 live i)
      | some hp' => exact .inl behind
  all_goals first | exact .inl behind | cases inside

/-- A scan called by `helpScan` returns to it. -/
theorem Helping.inside_after (helping : Helping given records first h pc)
    (access : Access K Empty.elim h pc e nx) (inside : pc.cleaning = true) (this : Nat) :
    nx.pc ≠ .scanHead this none ∧ (∀ hp i live, nx.pc ≠ .scanSlot this none hp i live) ∧
      ∀ live i, nx.pc ≠ .sweep this none live i := by
  have notScan := helping.inside
  cases access
  case helpHead | helpSkip | helpUnlock =>
      simp only [walkHelp]
      split <;> simp
  case sweepEnd | sweepLast =>
      simp only [afterScan, Next.pc_goto]
      split <;> simp
  case scanHead this' from_ =>
      have called : from_ ≠ none := by rintro rfl; exact (notScan this').1 rfl
      simp only [walkScan, Next.pc_goto]
      split <;> simp [called]
  case scanNext this' from_ hp i live done =>
      have called : from_ ≠ none := by rintro rfl; exact (notScan this').2.1 hp i live rfl
      simp only [walkScan, Next.pc_goto]
      split <;> simp [called]
  case scanNull this' from_ hp i live _ _ | scanLive this' from_ hp i live _ _ =>
      have called : from_ ≠ none := by rintro rfl; exact (notScan this').2.1 hp i live rfl
      simp [called]
  case sweepLive this' from_ live i _ _ _ | sweepDead this' from_ live i _ _ _ _ =>
      have called : from_ ≠ none := by rintro rfl; exact (notScan this').2.2 live i rfl
      simp [called]
  case helpWon | helpEmpty | helpMove | helpScan | helpOn => simp
  all_goals cases inside

/-- A lock that `helpScan` takes on its walk it gives back. -/
theorem Helping.free_after (helping : Helping given records first h pc)
    (access : Access K Empty.elim h pc e nx) (inside : pc.cleaning = true) {r : Nat}
    (member : r ∈ h.records) (other : r ≠ first) (free : nx.pc.draining ≠ some r) :
    ((h.apply e).record r).active = false := by
  have before := helping.free r member other
  rw [HazardPointers.apply_active]
  cases access
  case helpWon this hp ne idle =>
      have ne : r ≠ hp := by rintro rfl; exact free rfl
      simpa [ne] using before (by simp [PC.draining])
  case helpUnlock this hp =>
      by_cases same : r = hp
      · simp [same]
      · simpa [same] using before (by simpa [PC.draining] using Ne.symm same)
  case scanHead | scanNext => exact before fun drain => free ((walkScan_draining ..).trans drain)
  case sweepEnd | sweepLast => exact before fun drain => free ((afterScan_draining ..).trans drain)
  case helpHead | helpSkip => exact before (by simp [PC.draining])
  all_goals first | exact before free | cases inside

theorem Helping.after (helping : Helping given records first h pc)
    (access : Access K Empty.elim h pc e nx) (inside : pc.cleaning = true) :
    Helping given records first (h.apply e) nx.pc := by
  have closing := helping.closing.after access inside
  have whole : (h.apply e).records = h.records := closing.same.trans helping.closing.same.symm
  have left : ∀ r, (h.apply e).left r = h.left r := by simp [HazardPointers.left, whole]
  have toHelp_eq : toHelp (h.apply e) nx.pc = toHelp h nx.pc := by
    cases nx.pc <;> first | rfl | simp only [toHelp, left, whole]
  refine ⟨closing, helping.inside_after access inside, ?_, ?_⟩
  · intro r member other free
    rw [whole] at member
    exact helping.free_after access inside member other free
  · intro r member other behind
    rw [whole] at member
    rw [left, toHelp_eq] at behind
    have empty : (h.record r).retireList = [] := by
      rcases helping.toHelp_after access inside member other behind with before | empty
      · exact helping.drained r member other before
      · exact empty
    exact helping.closing.drained_after access inside other empty

theorem advance_access {x : HazardPointers P × PC P Empty} (busy : x.2 ≠ .idle) :
    ∃ e nx, Access K Empty.elim x.1 x.2 e nx ∧ advance K x = some (x.1.apply e, nx.pc) := by
  obtain ⟨e, nx, planned⟩ := plan_isSome K Empty.elim x.1 busy
  exact ⟨e, nx, access_of_plan planned, by simp [advance, planned]⟩

theorem Closing.cleaning (closing : Closing given records first h pc) (busy : pc ≠ .idle) :
    pc.cleaning = true :=
  closing.this.elim (fun idle => absurd idle busy) fun on => on.1

/-- `helpScan` ends, with every other record drained. -/
theorem helpScan_ends (helping : Helping given records first h (.helpHead first)) :
    ∃ n h', Theory.runUntil (advance K) (fun x => x.2 = .idle) n (h, .helpHead first) =
      some (h', .idle) ∧ Helping given records first h' .idle := by
  have progress : ∀ x : HazardPointers P × PC P Empty, Helping given records first x.1 x.2 →
      decide (x.2 = .idle) = false → ∃ y, advance K x = some y ∧ Helping given records first y.1 y.2 ∧
        (decide (y.2 = .idle) = true ∨
          Lighter (y.1.weight K Empty.elim y.2) (x.1.weight K Empty.elim x.2)) := by
    rintro ⟨h, pc⟩ helping busy
    have busy : pc ≠ .idle := by simpa using busy
    obtain ⟨e, nx, access, taken⟩ := advance_access (K := K) (x := (h, pc)) busy
    refine ⟨_, taken, helping.after access (helping.closing.cleaning busy), ?_⟩
    cases nx with
    | goto pc' => exact .inr (weight_access helping.closing.placed access)
    | ret r => exact .inl (by simp)
  obtain ⟨n, ⟨h', pc⟩, ends, final⟩ := Theory.runUntil_ends lighter_wf _ progress
    (s := (h, .helpHead first)) helping
  have idle : pc = .idle := by simpa using Theory.done_of_runUntil ends
  subst idle
  exact ⟨n, h', ends, final⟩

/-! ## `scan` -/

/-- In the last scan nothing is live, so its position in the list stays at the front. -/
def Sweeping (first : Nat) (h : HazardPointers P) : PC P Empty → Prop
  | .scanHead _ none | .scanSlot _ none _ _ _ => True
  | .sweep _ none _ i => i = 0
  | .helpHead _ => (h.record first).retireList = []
  | _ => False

theorem Sweeping.after (closing : Closing given records first h pc) (sweeping : Sweeping first h pc)
    (access : Access K Empty.elim h pc e nx) (busy : pc ≠ .helpHead first) :
    Sweeping first (h.apply e) nx.pc ∧ ∃ pc', nx = .goto pc' := by
  have live := closing.live
  have onFirst : pc.this? = some first := by
    rcases closing.this with idle | ⟨-, on⟩
    · rw [idle] at sweeping
      exact sweeping.elim
    · exact on
  cases access
  case scanHead this helping =>
      cases helping with
      | none => exact ⟨by simp only [walkScan, Next.pc_goto]; split <;> trivial, _, rfl⟩
      | some hp => exact sweeping.elim
  case scanNext this helping hp i found done =>
      cases helping with
      | none => exact ⟨by simp only [walkScan, Next.pc_goto]; split <;> trivial, _, rfl⟩
      | some hp => exact sweeping.elim
  case scanNull this helping hp i found _ _ | scanLive this helping hp i found _ _ =>
      cases helping with
      | none => exact ⟨trivial, _, rfl⟩
      | some hp => exact sweeping.elim
  case sweepEnd this helping found i ended =>
      obtain rfl := Option.some.inj onFirst
      cases helping with
      | none =>
          obtain rfl : i = 0 := sweeping
          refine ⟨?_, _, rfl⟩
          simpa [afterScan, Sweeping, HazardPointers.apply] using ended
      | some hp => exact sweeping.elim
  case sweepLast this helping found i node at_ dead last =>
      obtain rfl := Option.some.inj onFirst
      cases helping with
      | none =>
          obtain rfl : i = 0 := sweeping
          refine ⟨?_, _, rfl⟩
          have one : (swapPop (h.record this).retireList 0).length = 0 := by
            simp only [swapPop, List.length_dropLast, List.length_set]
            omega
          simpa [afterScan, Sweeping, HazardPointers.apply_retireList] using one
      | some hp => exact sweeping.elim
  case sweepLive this helping found i node at_ alive =>
      rw [live _ _ rfl] at alive
      cases alive
  case sweepDead this helping found i node at_ dead last =>
      cases helping with
      | none => exact ⟨sweeping, _, rfl⟩
      | some hp => exact sweeping.elim
  case helpHead this => exact absurd (congrArg PC.helpHead (Option.some.inj onFirst)) busy
  all_goals exact sweeping.elim

/-- After `helpScan` the destructor calls `scan`. -/
theorem Closing.scan (closing : Closing given records first h .idle) :
    Closing given records first h (.scanHead first none) := by
  obtain ⟨⟨row, -, -, -, -⟩, listed, intact, slots, stocked, kept, same, -, -⟩ := closing
  refine ⟨⟨row, ?_, ?_, ?_, ?_⟩, listed, intact, slots, stocked, kept, same, .inr ⟨rfl, rfl⟩, ?_⟩
  all_goals simp [PC.visiting, PC.draining, PC.building, PC.scanning]

/-- The last `scan` ends, with every given node deleted. -/
theorem scan_ends (closing : Closing given records first h (.scanHead first none))
    (drained : ∀ r, r ≠ first → (h.record r).retireList = []) :
    ∃ n h', Theory.runUntil (advance K) (fun x => x.2 = .helpHead first) n
      (h, .scanHead first none) = some (h', .helpHead first) ∧
      Closing given records first h' (.helpHead first) ∧ ∀ r, (h'.record r).retireList = [] := by
  have progress : ∀ x : HazardPointers P × PC P Empty,
      (Closing given records first x.1 x.2 ∧ Sweeping first x.1 x.2 ∧
        ∀ r, r ≠ first → (x.1.record r).retireList = []) →
      decide (x.2 = .helpHead first) = false → ∃ y, advance K x = some y ∧
        (Closing given records first y.1 y.2 ∧ Sweeping first y.1 y.2 ∧
          ∀ r, r ≠ first → (y.1.record r).retireList = []) ∧
        (decide (y.2 = .helpHead first) = true ∨
          Lighter (y.1.weight K Empty.elim y.2) (x.1.weight K Empty.elim x.2)) := by
    rintro ⟨h, pc⟩ ⟨closing, sweeping, drained⟩ busy
    have busy : pc ≠ .helpHead first := by simpa using busy
    have outside : pc ≠ .idle := by rintro rfl; exact sweeping.elim
    have inside := closing.cleaning outside
    obtain ⟨e, nx, access, taken⟩ := advance_access (K := K) (x := (h, pc)) outside
    obtain ⟨still, pc', rfl⟩ := Sweeping.after closing sweeping access busy
    refine ⟨_, taken, ⟨closing.after access inside, still, fun r other => ?_⟩, .inr ?_⟩
    · exact closing.drained_after access inside other (drained r other)
    · exact weight_access closing.placed access
  have start : Sweeping first h (.scanHead first none) := trivial
  obtain ⟨n, ⟨h', pc⟩, ends, last, swept, others⟩ := Theory.runUntil_ends lighter_wf _ progress
    (s := (h, .scanHead first none)) ⟨closing, start, drained⟩
  have back : pc = .helpHead first := by simpa using Theory.done_of_runUntil ends
  subst back
  refine ⟨n, h', ends, last, fun r => ?_⟩
  by_cases same : r = first
  · exact same ▸ swept
  · exact others r same

end Cleaning

namespace Sys

variable {T C : Type} [DecidableEq T] {K : Nat} {s : Sys T P C}

theorem Orderly.unowned (orderly : s.Orderly K)
    (inactive : ∀ r < s.pool.fresh, (s.pool.record r).active = false) (t : T) (r : Nat) :
    s.own t ≠ some r := by
  intro mine
  have active := orderly.owned.active t r (.inl mine)
  rw [inactive r (orderly.owned.bounded t r (.inl mine))] at active
  cases active

/-- When every record has been retired, no call of `retireNode` is under way. -/
theorem Orderly.stored (orderly : s.Orderly K)
    (inactive : ∀ r < s.pool.fresh, (s.pool.record r).active = false) {p : P}
    (given : p ∈ s.retired) :
    (∃ r, p ∈ (s.pool.record r).retireList) ∨ p ∈ s.pool.deleted := by
  rcases orderly.conserved.kept p given with ⟨t, this, pushing⟩ | stored
  · have mine := orderly.owned.this t this (by rw [pushing]; rfl)
    exact absurd mine (orderly.unowned inactive t this)
  · exact stored

/-- When every record has been retired, the destructor finds no slot set. -/
theorem Orderly.closing (orderly : s.Orderly K)
    (inactive : ∀ r < s.pool.fresh, (s.pool.record r).active = false) {first : Nat}
    (head : s.pool.head = some first) :
    Helping s.retired s.pool.records first s.pool (.helpHead first) := by
  have listed : first ∈ s.pool.records := by
    rw [← s.pool.records_head] at head
    exact List.mem_of_head? head
  refine ⟨⟨?_, listed, orderly.conserved.intact, ?_, ?_, ?_, rfl, .inr ⟨rfl, rfl⟩, ?_⟩, ?_, ?_, ?_⟩
  · exact ⟨orderly.row, by simp [PC.visiting], by simp [PC.draining], by simp [PC.draining],
      by simp [PC.building]⟩
  · intro r k
    by_contra set
    obtain ⟨t, mine⟩ := orderly.vacant.owned r k set
    exact orderly.unowned inactive t r mine
  · exact fun r stocked => (orderly.row.listed_iff r).1 (orderly.vacant.stocked r stocked)
  · exact fun p given => orderly.stored inactive given
  · simp [PC.scanning]
  · simp
  · exact fun r member _ _ => inactive r (orderly.row.bounded r member)
  · intro r member _ behind
    exact absurd behind (Nat.not_lt.2 HazardPointers.left_le)

/-- **Retired nodes are conserved.** In every reachable state a node given to `retireNode` is
still to be pushed by that call, or is on one retire list, once, and not deleted, or has been
deleted, once, and is on no list. If `~HazardPointers` runs when every record has been retired
it ends, and every node ever given to `retireNode` has been deleted once. -/
theorem retired_conserved (reachable : Reachable K s) :
    (∀ p ∈ s.retired,
      (∃ t this, s.pc t = .push this p) ∨
      (∃ r, (s.pool.record r).retireList.count p = 1 ∧
        (∀ r', r' ≠ r → p ∉ (s.pool.record r').retireList) ∧ p ∉ s.pool.deleted) ∨
      (s.pool.deleted.count p = 1 ∧ ∀ r, p ∉ (s.pool.record r).retireList)) ∧
    ((∀ r < s.pool.fresh, (s.pool.record r).active = false) →
      ∃ fuel h', s.pool.destructor K fuel = some (h', s.pool.records) ∧
        ∀ p ∈ s.retired, h'.deleted.count p = 1) := by
  have orderly := orderly_of_reachable reachable
  refine ⟨fun p given => orderly.one_place given, fun inactive => ?_⟩
  cases head : s.pool.head with
  | none =>
      have empty : s.pool.records = [] := by simp [HazardPointers.records, head]
      refine ⟨0, s.pool, by simp [HazardPointers.destructor, head, empty], fun p given => ?_⟩
      rcases orderly.stored inactive given with ⟨r, listed⟩ | gone
      · have member := orderly.vacant.stocked r (List.ne_nil_of_mem listed)
        rw [orderly.row.listed_iff, empty] at member
        cases member
      · exact List.count_eq_one_of_mem orderly.conserved.intact.deleted gone
  | some first =>
      obtain ⟨n, h₁, helped, done⟩ := helpScan_ends (K := K) (orderly.closing inactive head)
      obtain ⟨closing, -, -, drained⟩ := done
      have others : ∀ r, r ≠ first → (h₁.record r).retireList = [] := by
        intro r other
        by_contra stocked
        have member := closing.stocked r stocked
        exact stocked (drained r member other (HazardPointers.left_pos member))
      obtain ⟨m, h₂, scanned, final, empty⟩ := scan_ends (K := K) closing.scan others
      refine ⟨max n m, h₂, ?_, fun p given => ?_⟩
      · simp only [HazardPointers.destructor, head,
          Theory.runUntil_mono helped (Nat.le_max_left n m), Option.bind_some,
          Theory.runUntil_mono scanned (Nat.le_max_right n m), Option.map_some, final.same]
      · rcases final.kept p given with ⟨r, listed⟩ | gone
        · rw [empty r] at listed
          cases listed
        · exact List.count_eq_one_of_mem final.intact.deleted gone

/-- Two threads allocate records, retire one node each and then their records. -/
def abandoned : List (Bool × Option (Call Nat Unit)) :=
  (true, some Call.allocate) :: List.replicate 5 (true, none) ++
  (false, some Call.allocate) :: List.replicate 6 (false, none) ++
  (true, some (Call.retireNode 5)) :: List.replicate 2 (true, none) ++
  (false, some (Call.retireNode 6)) :: List.replicate 2 (false, none) ++
  (true, some Call.retire) :: List.replicate 2 (true, none) ++
  (false, some Call.retire) :: List.replicate 2 (false, none)

/-- Nothing has been deleted when both have left; the destructor deletes both nodes. -/
theorem retired_conserved_abandoned : ∃ s : Sys Bool Nat Unit,
    (s.retired = [6, 5] ∧ s.pool.deleted = []) ∧
    ∃ fuel h', s.pool.destructor 1 fuel = some (h', s.pool.records) ∧
      h'.deleted.count 5 = 1 ∧ h'.deleted.count 6 = 1 := by
  have replay : (Theory.run (next 1 fun _ => 0) (init : Sys Bool Nat Unit) abandoned).map
      (fun s => (s.retired, s.pool.deleted,
        decide (∀ r < s.pool.fresh, (s.pool.record r).active = false))) =
      some ([6, 5], [], true) := by
    decide +kernel
  obtain ⟨s, ran, seen⟩ := Option.map_eq_some_iff.1 replay
  simp only [Prod.mk.injEq, decide_eq_true_eq] at seen
  obtain ⟨retired, deleted, inactive⟩ := seen
  obtain ⟨fuel, h', ends, once⟩ := (retired_conserved (reachable_run ran .refl)).2 inactive
  refine ⟨s, ⟨retired, deleted⟩, fuel, h', ends, once 5 ?_, once 6 ?_⟩
  all_goals simp [retired]

end Sys

end Ccmetrics.Hazard
