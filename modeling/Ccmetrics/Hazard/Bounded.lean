/-
# Hazard.Bounded -- how many retired nodes a record can keep

A retire list may only be too long while its owner is on the way to a scan or inside one
(`PC.over`). A scan leaves nodes that it has found in a slot, and it has read one slot for each
of the `K` slots of a record: phase 1 starts at the head of a list of at most `hp_count_` records,
and records that are pushed meanwhile come in front of the walk (`Walked`). Nodes are retired once,
so what phase 2 keeps is no longer than what phase 1 has collected (`Swept`).

* `garbage_bounded`: `retireNode` returns with fewer than `1.25 * K * hp_count_` nodes on its
  list, and every list is that short while no `retireNode` runs.
-/
import Ccmetrics.Hazard.Alone

namespace Ccmetrics.Hazard

set_option autoImplicit false
set_option linter.unusedSectionVars false

variable {P C : Type} [DecidableEq P] [Inhabited P]

/-- The retire list of `r` is below the length at which `shouldScan` asks for a scan. -/
def HazardPointers.Short (K : Nat) (h : HazardPointers P) (r : Nat) : Prop :=
  4 * (h.record r).retireList.length < 5 * (K * h.hpCount)

/-- The record whose list may be too long, between a push and the end of the scan. -/
def PC.over : PC P C → Option Nat
  | .should this | .helpShould this _ | .scanHead this _ | .scanSlot this _ _ _ _
  | .sweep this _ _ _ => some this
  | _ => none

/-- The slots that phase 1 has collected, and those it has still to read. -/
def PC.Walked (K : Nat) (h : HazardPointers P) : PC P C → Prop
  | .scanSlot _ _ hp i live => live.length + (K - i) + K * (h.left hp - 1) ≤ K * h.hpCount
  | _ => True

/-- Phase 2 has kept what is in `live`. -/
def PC.Swept (K : Nat) (h : HazardPointers P) : PC P C → Prop
  | .sweep this _ live i =>
      live.length ≤ K * h.hpCount ∧ ∀ p ∈ (h.record this).retireList.take i, p ∈ live
  | _ => True

section Access

variable {K : Nat} {rd : C → P} {h : HazardPointers P} {pc : PC P C}
variable {e : Effect P} {nx : Next P C} {this r : Nat}

theorem shouldScan_eq_false : shouldScan K h r = false ↔ h.Short K r := by
  unfold shouldScan HazardPointers.Short
  rw [decide_eq_false_iff_not, Nat.mul_comm h.hpCount]
  omega

/-- What a scan leaves is short. -/
theorem short_of_le (positive : 0 < K * h.hpCount)
    (few : (h.record r).retireList.length ≤ K * h.hpCount) : h.Short K r := by
  unfold HazardPointers.Short
  omega

theorem over_this (scans : pc.over = some r) : pc.this? = some r := by
  cases pc <;> first | exact scans | cases scans

@[simp] theorem walkScan_over {helping o : Option Nat} {live : List P} :
    (walkScan this helping live o : PC P C).over = some this := by cases o <;> rfl

theorem le_hpCount_apply (h : HazardPointers P) (e : Effect P) :
    h.hpCount ≤ (h.apply e).hpCount := by
  rw [Sys.apply_hpCount]
  cases e with
  | count => exact Nat.le_succ _
  | _ => exact le_rfl

/-- Swapping out a node leaves the nodes in front of it where they are. -/
theorem take_swapPop {l : List P} {i : Nat} (inside : i < l.length) :
    (swapPop l i).take i = l.take i := by
  rw [swapPop, List.dropLast_eq_take, List.take_take, List.length_set, Nat.min_eq_left (by omega),
    List.take_set_of_le le_rfl]

/-- A list only grows on the way to `shouldScan`. -/
theorem access_grows (access : Access K rd h pc e nx) (r : Nat) :
    ((h.apply e).record r).retireList.length ≤ (h.record r).retireList.length ∨
      nx.pc.over = some r := by
  rw [HazardPointers.apply_retireList]
  cases e with
  | push hp node =>
      by_cases same : r = hp
      · obtain ⟨-, rfl⟩ := access_push access
        exact .inr (congrArg some same.symm)
      · simp only [same, if_false]
        exact .inl le_rfl
  | move hp this =>
      by_cases same : r = this
      · obtain ⟨-, rfl⟩ := access_move access
        exact .inr (congrArg some same.symm)
      · simp only [same, if_false]
        split
        · exact .inl (by rw [List.length_dropLast]; omega)
        · exact .inl le_rfl
  | delete this i =>
      simp only
      split
      · exact .inl (by rw [swapPop, List.length_dropLast, List.length_set]; omega)
      · exact .inl le_rfl
  | create =>
      simp only
      split
      · exact .inl (Nat.zero_le _)
      · exact .inl le_rfl
  | _ => exact .inl le_rfl

/-- The way to a scan is left below the bound, and a scan when phase 2 has seen everything. -/
theorem access_over (access : Access K rd h pc e nx) (scans : pc.over = some r) :
    nx.pc.over = some r ∨ (h.Short K r ∧ e = .none) ∨
      ∃ helping live i, pc = .sweep r helping live i ∧
        ((h.apply e).record r).retireList = (h.record r).retireList.take i := by
  cases access
  case notFull this few =>
      cases scans
      exact .inr (.inl ⟨shouldScan_eq_false.1 few, rfl⟩)
  case helpOn this hp few =>
      cases scans
      exact .inr (.inl ⟨shouldScan_eq_false.1 few, rfl⟩)
  case scanHead this helping => cases scans; exact .inl walkScan_over
  case scanNext this helping hp i live done => cases scans; exact .inl walkScan_over
  case sweepEnd this helping live i ended =>
      cases scans
      refine .inr (.inr ⟨helping, live, i, rfl, ?_⟩)
      exact (List.take_of_length_le (List.getElem?_eq_none_iff.1 ended)).symm
  case sweepLast this helping live i node found dead last =>
      cases scans
      refine .inr (.inr ⟨helping, live, i, rfl, ?_⟩)
      have inside := (List.getElem?_eq_some_iff.1 found).1
      have all : (swapPop (h.record r).retireList i).length ≤ i := by
        rw [swapPop, List.length_dropLast, List.length_set]
        omega
      rw [HazardPointers.apply_retireList]
      simp only [if_true]
      rw [← take_swapPop inside, List.take_of_length_le all]
  all_goals first | exact .inl scans | cases scans

end Access

namespace Sys

variable {T : Type} [DecidableEq T]
variable {K : Nat} {rd : C → P} {s s' : Sys T P C} {t u : T} {e : Effect P} {nx : Next P C}

/-- A push puts a record in front, so that there are as many records to come as before. -/
theorem Orderly.left_after (orderly : s.Orderly K) (access : Access K rd s.pool (s.pc t) e nx)
    {r : Nat} (member : r ∈ s.pool.records) : (s.pool.apply e).left r = s.pool.left r := by
  have row := row_after orderly.row orderly.owned orderly.listing access
  by_cases pushed : ∃ hp, e = .setHead hp
  · obtain ⟨hp, rfl⟩ := pushed
    obtain ⟨pc, -⟩ := access_setHead access
    have first : (s.pool.apply (.setHead hp)).records.head? = some hp :=
      (s.pool.apply (.setHead hp)).records_head
    obtain ⟨rest, split⟩ : ∃ rest, (s.pool.apply (.setHead hp)).records = hp :: rest := by
      cases records : (s.pool.apply (.setHead hp)).records with
      | nil => rw [records] at first; cases first
      | cons a rest => rw [records] at first; exact ⟨rest, by rw [Option.some.inj first]⟩
    have chained := row.chained
    have nodup := row.nodup
    have bounded := row.bounded
    rw [split] at chained nodup bounded
    have next : rest.head? = s.pool.head :=
      chained.1.symm.trans (orderly.listing.pushing t hp _ pc)
    have same : s.pool.records = rest :=
      HazardPointers.records_eq next chained.2 (List.nodup_cons.1 nodup).2
        fun x inRest => bounded x (List.mem_cons_of_mem _ inRest)
    have ne : hp ≠ r := by
      rintro rfl
      rw [same] at member
      exact (List.nodup_cons.1 nodup).1 member
    unfold HazardPointers.left
    rw [split, same, List.idxOf_cons_ne _ ne, List.length_cons]
    omega
  · have records := ((orderly.placed t).same access fun hp is => pushed ⟨hp, is⟩).1
    unfold HazardPointers.left
    rw [records]

/-- No other thread touches the list of a thread's own record. -/
theorem Owned.list_same (owned : s.Owned) (access : Access K rd s.pool (s.pc t) e nx)
    (other : u ≠ t) {r : Nat} (mine : s.own u = some r) :
    ((s.pool.apply e).record r).retireList = (s.pool.record r).retireList := by
  have apart : ¬ s.Holds t r := fun held => other (owned.exclusive u t r (.inl mine) held)
  have notThis : (s.pc t).this? ≠ some r := fun on => apart (.inl (owned.this t r on))
  rw [HazardPointers.apply_retireList]
  cases e with
  | push hp node =>
      refine if_neg ?_
      rintro rfl
      exact notThis (by rw [(access_push access).1]; rfl)
  | move hp this =>
      obtain ⟨pc, -⟩ := access_move access
      have first : r ≠ hp := by
        rintro rfl
        exact apart (.inr (.inr (by rw [pc]; rfl)))
      have second : r ≠ this := by
        rintro rfl
        exact notThis (by rw [pc]; rfl)
      simp only [first, second, if_false]
  | delete this i =>
      obtain ⟨helping, live, node, pc, -⟩ := access_delete access
      refine if_neg ?_
      rintro rfl
      exact notThis (by rw [pc]; rfl)
  | create => exact if_neg (Nat.ne_of_lt (owned.bounded u r (.inl mine)))
  | _ => rfl

/-- `hp_count_` is raised before a record is made. -/
theorem Counted.fresh_le (counted : s.Counted) : s.pool.fresh ≤ s.pool.hpCount := by
  obtain ⟨waiting, -, -, count⟩ := counted
  omega

/-- Every list is short, except on the way to a scan and inside one. -/
structure Bounded (K : Nat) (s : Sys T P C) : Prop where
  lists : ∀ r < s.pool.fresh, s.pool.Short K r ∨ ∃ t, (s.pc t).over = some r
  walked : ∀ t, (s.pc t).Walked K s.pool
  swept : ∀ t, (s.pc t).Swept K s.pool

/-- Phase 1 reads one more slot, or goes on to the next record. -/
theorem Bounded.walked_self (bounded : s.Bounded K) (orderly : s.Orderly K)
    (access : Access K rd s.pool (s.pc t) e nx) : nx.pc.Walked K (s.pool.apply e) := by
  have placed := orderly.placed (K := K) t
  have before := bounded.walked t
  generalize s.pc t = pc at access placed before
  cases access
  case allocHead | allocBusy | allocLost =>
      simp only [walkAlloc]
      split <;> trivial
  case helpHead | helpSkip | helpUnlock =>
      simp only [walkHelp]
      split <;> trivial
  case sweepEnd | sweepLast =>
      simp only [afterScan]
      split <;> trivial
  case scanHead this helping =>
      cases first : s.pool.head with
      | none => trivial
      | some hp =>
          have member : hp ∈ s.pool.records := by
            refine List.mem_of_head? ?_
            rw [s.pool.records_head, first]
          have positive := HazardPointers.left_pos member
          have room : s.pool.left hp ≤ s.pool.hpCount :=
            HazardPointers.left_le.trans (orderly.row.length_le.trans orderly.counted.fresh_le)
          show 0 + (K - 0) + K * (s.pool.left hp - 1) ≤ K * s.pool.hpCount
          have all : K * (s.pool.left hp - 1) + K = K * s.pool.left hp := by
            rw [← Nat.mul_succ]
            congr 1
            omega
          have := Nat.mul_le_mul_left K room
          omega
  case scanNull this helping hp i live inside null =>
      show live.length + (K - (i + 1)) + K * (s.pool.left hp - 1) ≤ K * s.pool.hpCount
      unfold PC.Walked at before
      omega
  case scanLive this helping hp i live inside set =>
      show live.length + 1 + (K - (i + 1)) + K * (s.pool.left hp - 1) ≤ K * s.pool.hpCount
      unfold PC.Walked at before
      omega
  case scanNext this helping hp i live done =>
      cases next : (s.pool.record hp).next with
      | none => trivial
      | some r =>
          obtain ⟨member, fewer⟩ := orderly.row.left_next (placed.visiting hp rfl) next
          have positive := HazardPointers.left_pos member
          show live.length + (K - 0) + K * (s.pool.left r - 1) ≤ K * s.pool.hpCount
          unfold PC.Walked at before
          have all : K * (s.pool.left r - 1) + K = K * (s.pool.left hp - 1) := by
            rw [← Nat.mul_succ]
            congr 1
            omega
          omega
  all_goals trivial

/-- Phase 2 passes over the nodes that phase 1 has collected. -/
theorem Bounded.swept_self (bounded : s.Bounded K)
    (access : Access K rd s.pool (s.pc t) e nx) : nx.pc.Swept K (s.pool.apply e) := by
  have walked := bounded.walked t
  have before := bounded.swept t
  generalize s.pc t = pc at access walked before
  cases access
  case allocHead | allocBusy | allocLost =>
      simp only [walkAlloc]
      split <;> trivial
  case helpHead | helpSkip | helpUnlock =>
      simp only [walkHelp]
      split <;> trivial
  case sweepEnd | sweepLast =>
      simp only [afterScan]
      split <;> trivial
  case scanHead this helping =>
      cases first : s.pool.head with
      | none => exact ⟨Nat.zero_le _, fun p member => absurd member List.not_mem_nil⟩
      | some hp => trivial
  case scanNext this helping hp i live done =>
      cases next : (s.pool.record hp).next with
      | some r => trivial
      | none =>
          refine ⟨?_, fun p member => absurd member List.not_mem_nil⟩
          unfold PC.Walked at walked
          exact (by omega : live.length ≤ K * s.pool.hpCount)
  case sweepLive this helping live i node found alive =>
      refine ⟨before.1, fun p member => ?_⟩
      obtain ⟨inside, is⟩ := List.getElem?_eq_some_iff.1 found
      change p ∈ (s.pool.record this).retireList.take (i + 1) at member
      rw [← List.take_append_getElem inside, List.mem_append, List.mem_singleton] at member
      rcases member with member | rfl
      · exact before.2 p member
      · rwa [is]
  case sweepDead this helping live i node found dead last =>
      refine ⟨before.1, fun p member => before.2 p ?_⟩
      have inside := (List.getElem?_eq_some_iff.1 found).1
      have same : ((s.pool.apply (.delete this i)).record this).retireList.take i =
          (s.pool.record this).retireList.take i := by
        rw [HazardPointers.apply_retireList]
        simp only [if_true]
        exact take_swapPop inside
      rwa [same] at member
  all_goals trivial

/-- **One access** keeps the lists short. -/
theorem Bounded.after (bounded : s.Bounded K) (positive : 0 < K) (orderly : s.Orderly K)
    (access : Access K rd s.pool (s.pc t) e nx) : (s.after t e nx).Bounded K := by
  have count := le_hpCount_apply s.pool e
  have more : K * s.pool.hpCount ≤ K * (s.pool.apply e).hpCount := Nat.mul_le_mul_left K count
  constructor
  case lists =>
      intro r born
      rw [after_pool] at born ⊢
      rcases access_grows access r with few | grown
      · by_cases old : r < s.pool.fresh
        · rcases bounded.lists r old with short | ⟨u, scans⟩
          · refine .inl ?_
            unfold HazardPointers.Short at short ⊢
            omega
          · by_cases same : u = t
            · subst same
              rcases access_over access scans with still | ⟨short, rfl⟩ | ⟨helping, live, i, pc, left⟩
              · exact .inr ⟨u, by rwa [after_pc_self]⟩
              · exact .inl short
              · refine .inl (short_of_le (Nat.mul_pos positive ?_) ?_)
                · have := orderly.counted.fresh_le
                  omega
                · have swept := bounded.swept u
                  rw [pc] at swept
                  obtain ⟨bound, kept⟩ := swept
                  have once : ((s.pool.record r).retireList.take i).Nodup :=
                    (orderly.conserved.intact.lists r).sublist (List.take_sublist _ _)
                  rw [left]
                  exact (once.length_le_of_subset kept).trans (bound.trans more)
            · exact .inr ⟨u, by rwa [after_pc_other same]⟩
        · -- a record that has just been made
          refine .inl (short_of_le (Nat.mul_pos positive ?_) ?_)
          · have after := (orderly.counted.after access).fresh_le
            rw [after_pool] at after
            omega
          · rw [orderly.conserved.intact.unborn r (Nat.le_of_not_lt old)] at few
            exact few.trans (Nat.zero_le _)
      · exact .inr ⟨t, by rwa [after_pc_self]⟩
  case walked =>
      intro u
      rw [after_pool]
      by_cases same : u = t
      · subst same
        rw [after_pc_self]
        exact bounded.walked_self orderly access
      · rw [after_pc_other same]
        have before := bounded.walked u
        have visits := (orderly.placed u).visiting
        cases pc : s.pc u with
        | scanSlot this helping hp i live =>
            rw [pc] at before visits
            show live.length + (K - i) + K * ((s.pool.apply e).left hp - 1) ≤
              K * (s.pool.apply e).hpCount
            rw [orderly.left_after access (visits hp rfl)]
            exact before.trans more
        | _ => trivial
  case swept =>
      intro u
      rw [after_pool]
      by_cases same : u = t
      · subst same
        rw [after_pc_self]
        exact bounded.swept_self access
      · rw [after_pc_other same]
        have before := bounded.swept u
        cases pc : s.pc u with
        | sweep this helping live i =>
            rw [pc] at before
            have mine : s.own u = some this := orderly.owned.this u this (by rw [pc]; rfl)
            refine ⟨before.1.trans more, ?_⟩
            rw [orderly.owned.list_same access same mine]
            exact before.2
        | _ => trivial

theorem Bounded.call (bounded : s.Bounded K) (idle : s.pc t = .idle) (c : Call P C) :
    (s.call t c).Bounded K := by
  refine ⟨fun r born => ?_, fun u => ?_, fun u => ?_⟩
  · rcases bounded.lists r born with short | ⟨u, scans⟩
    · exact .inl short
    · refine .inr ⟨u, ?_⟩
      have ne : u ≠ t := by
        rintro rfl
        rw [idle] at scans
        cases scans
      rwa [call_pc_other c ne]
  · by_cases same : u = t
    · subst same
      rw [call_pc_self]
      cases c <;> trivial
    · rw [call_pc_other c same]
      exact bounded.walked u
  · by_cases same : u = t
    · subst same
      rw [call_pc_self]
      cases c <;> trivial
    · rw [call_pc_other c same]
      exact bounded.swept u

theorem bounded_init : (init : Sys T P C).Bounded K :=
  ⟨fun r born => absurd born (Nat.not_lt_zero r), fun _ => trivial, fun _ => trivial⟩

theorem bounded_of_reachable (positive : 0 < K) (reachable : Reachable K s) : s.Bounded K := by
  induction reachable with
  | refl => exact bounded_init
  | tail before last ih =>
      have orderly := orderly_of_reachable before
      cases last with
      | call t c idle => exact ih.call idle c
      | access t rd _ r stepped =>
          obtain ⟨e, nx, access, rfl, -⟩ := step_access stepped
          exact ih.after positive orderly access

/-- A list that is too long is that of a running `retireNode`. -/
theorem runs_of_over {pc : PC P C} {r : Nat} (scans : pc.over = some r) (p : P) :
    (Call.retireNode p : Call P C).Runs pc := by
  cases pc with
  | should | scanHead | scanSlot | sweep | helpShould => trivial
  | _ => cases scans

/-- **Garbage is bounded.** When `retireNode` returns, the record it was called on keeps fewer
than `1.25 * K * hp_count_` nodes, and while no `retireNode` runs every record that was ever
made keeps fewer than that. -/
theorem garbage_bounded (positive : 0 < K) (reachable : Reachable K s) :
    (∀ t rd s' p r, (Call.retireNode p : Call P C).Runs (s.pc t) → (s.pc t).this? = some r →
      s.step K rd t = some (s', some .unit) →
      4 * (s'.pool.record r).retireList.length < 5 * (K * s'.pool.hpCount)) ∧
    ((∀ t p, ¬ (Call.retireNode p : Call P C).Runs (s.pc t)) → ∀ r < s.pool.fresh,
      4 * (s.pool.record r).retireList.length < 5 * (K * s.pool.hpCount)) := by
  refine ⟨fun t rd s' p r runs on stepped => ?_, fun quiet r born => ?_⟩
  · have next : Reachable K s' := reachable.tail (.access s t rd s' _ stepped)
    have orderly := orderly_of_reachable reachable
    have mine := orderly.owned.this t r on
    have after := orderly_of_reachable next
    obtain ⟨e, nx, access, rfl, last⟩ := step_access stepped
    obtain rfl := (last _).1 rfl
    have mine' : (s.after t e (.ret .unit)).own t = some r := by
      rw [after_own_self]
      exact mine
    rcases (bounded_of_reachable positive next).lists r
      (after.owned.bounded t r (.inl mine')) with short | ⟨u, scans⟩
    · exact short
    · -- whoever is on the way to a scan of `r` owns it, and that is the thread that has returned
      have same : u = t := after.owned.exclusive u t r
        (.inl (after.owned.this u r (over_this scans))) (.inl mine')
      rw [same, after_pc_self] at scans
      cases scans
  · rcases (bounded_of_reachable positive reachable).lists r born with short | ⟨u, scans⟩
    · exact short
    · exact absurd (runs_of_over scans default) (quiet u default)

/-- Both threads allocate. The first one retires a node and then its record, and the second one
retires nodes until it scans, and helps. -/
def scanned : List (Bool × Option (Call Nat Unit)) :=
  (true, some Call.allocate) :: List.replicate 5 (true, none) ++
  (false, some Call.allocate) :: List.replicate 6 (false, none) ++
  (true, some (Call.retireNode 5)) :: List.replicate 2 (true, none) ++
  (true, some Call.retire) :: List.replicate 2 (true, none) ++
  (false, some (Call.retireNode 6)) :: List.replicate 2 (false, none) ++
  (false, some (Call.retireNode 7)) :: List.replicate 2 (false, none) ++
  (false, some (Call.retireNode 8)) :: List.replicate 16 (false, none)

/-- The scan deletes the three nodes of the second record, and the node of the first one has moved
there by the time `retireNode` returns. -/
theorem garbage_bounded_scanned : ∃ s s' : Sys Bool Nat Unit,
    s.step 1 (fun _ => 0) false = some (s', some .unit) ∧ s'.pool.deleted = [6, 8, 7] ∧
      (s'.pool.record 0).retireList = [] ∧ (s'.pool.record 1).retireList = [5] ∧
      4 * (s'.pool.record 1).retireList.length < 5 * (1 * s'.pool.hpCount) := by
  have replay : (Theory.run (next 1 fun _ => 0) (init : Sys Bool Nat Unit) scanned).map
      (fun s => (s.pc false, (s.step 1 (fun _ => 0) false).map fun out =>
        (out.2, [out.1.pool.deleted, (out.1.pool.record 0).retireList,
          (out.1.pool.record 1).retireList]))) =
      some (.helpUnlock 1 0, some (some .unit, [[6, 8, 7], [], [5]])) := by
    decide +kernel
  obtain ⟨s, ran, seen⟩ := Option.map_eq_some_iff.1 replay
  obtain ⟨pc, stepped⟩ := Prod.mk.inj seen
  obtain ⟨⟨s', r⟩, stepped, result⟩ := Option.map_eq_some_iff.1 stepped
  simp only [Prod.mk.injEq, List.cons.injEq, and_true] at result
  obtain ⟨rfl, deleted, moved, kept⟩ := result
  have reachable : Reachable 1 s := reachable_run ran .refl
  exact ⟨s, s', stepped, deleted, moved, kept,
    (garbage_bounded Nat.one_pos reachable).1 false (fun _ => 0) s' 8 1
      (by rw [pc]; trivial) (by rw [pc]; rfl) stepped⟩

end Sys

end Ccmetrics.Hazard
