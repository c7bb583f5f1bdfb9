/-
# SkipList.Lifetime -- every node is deleted once

A node is made by `mkNode`, in the constructor or in `insert`. It is deleted by the `insert` that
made it, or by `scan` after a `find` or an `insert` has retired it, or by `~ConcurrentSkipListMap`,
which frees the nodes on level 0 from `head_` on.

The destructor follows `next_[0]` as it is, mark included. So it comes to its end exactly if no
node on the chain is marked (`SkipList.Quiescent` says when one is left over); then what it has
freed, what `insert` has freed and what `~HazardPointers` deletes are together all nodes ever
made, each of them once (`deleted_once`).
-/
import Ccmetrics.Hazard.Emptied
import Ccmetrics.SkipList.Agreement
import Ccmetrics.SkipList.Reclaim

namespace Ccmetrics.SkipList

set_option autoImplicit false
set_option linter.unusedSectionVars false

variable {T Key Value : Type} [DecidableEq T] [LinearOrder Key] [Inhabited Key] [Inhabited Value]

namespace State

variable {s s' : State T Key Value} {t u : T} {e : Effect Key Value} {nx : Next Key Value}
variable {pc : PC Key Value} {a n : Addr}

/-- `~ConcurrentSkipListMap` from the pointer `n` on: the nodes it frees, and the pointer at which
it stops. It returns at a null pointer, and faults at a tagged one. -/
def destroy (s : State T Key Value) : Nat → Ptr → List Addr × Ptr
  | fuel + 1, .node d =>
      let rest := s.destroy fuel ((s.node d).next 0)
      (d :: rest.1, rest.2)
  | _, n => ([], n)

/-! ## The nodes there are -/

theorem owns_finding {f : Find Key Value} (finding : pc.finding = some f) : pc.owns = f.owns := by
  cases pc with
  | acquire start => cases start <;> cases finding; rfl
  | _ => cases finding <;> rfl

/-- A thread keeps its node until it links or frees it. -/
theorem Local.keeps_owned (here : s.Local pc) (access : s.Access t pc e nx) (memory : s.Memory)
    (tall : ∀ a, 0 < (s.node a).height) (owned : pc.owns = some n) :
    nx.pc.owns = some n ∨ (∃ prev, e = .link prev n) ∨ e = .free n := by
  have ofFind : ∀ f, pc.finding = some f →
      nx.pc.owns = some n ∨ (∃ prev, e = .link prev n) ∨ e = .free n := by
    intro f finding
    rw [owns_finding finding] at owned
    rcases here.access_finding access memory tall finding with onward | ⟨prev, cur, rfl⟩
    · exact .inl ((owns_finding onward).trans owned)
    · obtain ⟨key, site⟩ := f
      cases site <;> cases owned
      cases access with
      | matchNull => exact .inl rfl
      | matchNode => simp only [found]; split <;> exact .inl rfl
      | matchFault f prev cur tagged =>
          rcases tagged with rfl | ⟨a, rfl⟩ <;> exact here.2.2.1.elim
  cases access with
  | newGuarded | counted | stored => exact .inl owned
  | linked => cases owned; exact .inr (.inl ⟨_, rfl⟩)
  | linkFailed => exact .inl (owns_enter.trans owned)
  | clearedLast k leave =>
      cases leave with
      | ret r => cases owned
      | free m => exact .inl owned
  | cleared k last leave more =>
      cases leave with
      | ret r => cases owned
      | free m => exact .inl owned
  | freed => cases owned; exact .inr (.inr rfl)
  | acquired start => cases start <;> first | exact ofFind _ rfl | cases owned
  | _ => first | cases owned | exact ofFind _ rfl

/-- Every node ever made has been published, belongs to a thread, or has been freed by `insert`. -/
def Accounted (s : State T Key Value) : Prop :=
  ∀ n, head < n → n < s.fresh → s.linked n = true ∨ (∃ t, (s.pc t).owns = some n) ∨ n ∈ s.freed

theorem Accounted.move (accounted : s.Accounted) (same : s.SameNodes s') (freed : s'.freed = s.freed)
    (kept : ∀ t n, (s.pc t).owns = some n → (s'.pc t).owns = some n) : s'.Accounted := by
  intro n above below
  rw [same.fresh] at below
  rw [same.linked, freed]
  refine (accounted n above below).imp_right (Or.imp_left ?_)
  rintro ⟨t, owned⟩
  exact ⟨t, kept t n owned⟩

/-- The thread that makes a node gets it. -/
theorem Local.create_owns {h : Nat} {key : Key} {value : Value}
    (access : s.Access t pc (.create h key value) nx) : nx.pc.owns = some s.fresh := by
  generalize effect : (.create h key value : Effect Key Value) = e at access
  cases access with
  | matchNull f prev | matchNode f prev cur =>
      obtain ⟨key', site⟩ := f
      simp only [found] at effect ⊢
      cases site <;> simp only at effect ⊢
      case insert =>
          split at effect
          · cases effect
          · rename_i missed
            rw [if_neg missed]
            rfl
      all_goals (try split at effect) <;> cases effect
  | _ => cases effect

theorem apply_fresh_le (e : Effect Key Value) (below : n < (s.apply t e).fresh) :
    n < s.fresh ∨ n = s.fresh ∧ ∃ h key value, e = .create h key value := by
  cases e with
  | create h key value =>
      rcases Nat.lt_succ_iff_lt_or_eq.1 below with old | new
      · exact .inl old
      · exact .inr ⟨new, h, key, value, rfl⟩
  | link prev m => rw [(apply_link prev m).2.2] at below; exact .inl below
  | mark cur i nexti => rw [(apply_mark cur i nexti).2.2] at below; exact .inl below
  | _ => exact .inl below

theorem Accounted.access {sys : Hazard.Sys T Ptr (Addr × Nat)} (accounted : s.Accounted)
    (level0 : s.Level0) (access : s.Access t (s.pc t) e nx) :
    (({ s with sys := sys }.apply t e).after t nx).Accounted := by
  have here := level0.here t
  have kept := level0.memory.extends_write (t := t) (here.write access)
  have same := sameNodes_after (s := s) (t := t) sys e nx
  have freed := step_freed (s := s) (t := t) sys e nx
  intro n above below
  rw [same.fresh] at below
  rw [same.linked, freed]
  rcases apply_fresh_le e below with old | ⟨rfl, h, key, value, rfl⟩
  · rcases accounted n above old with isLinked | ⟨u, owned⟩ | isFreed
    · exact .inl (kept.linked n isLinked)
    · by_cases isT : u = t
      · subst isT
        rcases here.keeps_owned access level0.memory level0.tall owned with
          owned' | ⟨prev, rfl⟩ | rfl
        · exact .inr (.inl ⟨u, by rw [step_pc_self]; exact owned'⟩)
        · exact .inl (by rw [(apply_link prev n).2.1]; simp)
        · exact .inr (.inr (List.mem_cons_self ..))
      · exact .inr (.inl ⟨u, by rw [step_pc_other isT]; exact owned⟩)
    · refine .inr (.inr ?_)
      split
      · exact List.mem_cons_of_mem _ isFreed
      · exact isFreed
  · exact .inr (.inl ⟨t, by rw [step_pc_self]; exact Local.create_owns access⟩)

theorem Accounted.next (accounted : s.Accounted) (level0 : s.Level0) {a : Action T Key Value}
    (taken : s.next a = some s') : s'.Accounted := by
  have entering : ∀ t pc, (s.pc t).isIdle = true → ∀ u n, (s.pc u).owns = some n →
      ((s.goto t pc).pc u).owns = some n := by
    intro t pc idle u n owned
    by_cases isT : u = t
    · subst isT
      cases atPc : s.pc u <;> rw [atPc] at idle owned
      case idle => cases owned
      all_goals cases idle
    · rwa [show (s.goto t pc).pc u = s.pc u from if_neg isT]
  cases a with
  | call t op =>
      simp only [State.next] at taken
      split at taken
      · rename_i enabled
        split at taken
        all_goals
          cases taken
          exact accounted.move ⟨rfl, rfl, rfl⟩ rfl (entering t _ enabled.1)
      · cases taken
  | exit t =>
      simp only [State.next] at taken
      split at taken
      · rename_i enabled
        cases taken
        exact accounted.move ⟨rfl, rfl, rfl⟩ rfl (entering t _ enabled.1)
      · cases taken
  | step t =>
      rcases step_map level0.synced taken with ⟨sys, -, rfl⟩ | ⟨sys, e, nx, access, rfl⟩
      · exact accounted.move ⟨rfl, rfl, rfl⟩ rfl fun _ _ => id
      · exact accounted.access level0 access

theorem accounted_init : (init : State T Key Value).Accounted := by
  intro n above below
  exact absurd below (Nat.not_lt.2 above)

/-! ## The destructor -/

/-- From a node on, the destructor frees the whole chain if no node on it is marked, and comes to
a tagged pointer otherwise. -/
theorem destroy_linked {l : List Addr} {fuel : Nat}
    (linked : Theory.Chain.Linked (s.edgeAt 0) (a :: l)) (enough : l.length < fuel) :
    ((∀ x ∈ a :: l, s.dead x = false) ∧ s.destroy fuel (.node a) = (a :: l, .null)) ∨
    ((∃ x ∈ a :: l, s.dead x = true) ∧ (s.destroy fuel (.node a)).2.marked0 = true) := by
  induction l generalizing a fuel with
  | nil =>
      obtain ⟨fuel, rfl⟩ : ∃ k, fuel = k + 1 := ⟨fuel - 1, by omega⟩
      have ends : s.edgeAt 0 a = none := linked.1
      rw [edgeAt] at ends
      simp only [destroy, List.mem_singleton, forall_eq, exists_eq_left, dead]
      cases points : (s.node a).next 0 with
      | null => exact .inl ⟨rfl, by cases fuel <;> rfl⟩
      | markedNull => exact .inr ⟨rfl, by cases fuel <;> rfl⟩
      | node b | marked b => rw [points] at ends; cases ends
  | cons b rest ih =>
      obtain ⟨fuel, rfl⟩ : ∃ k, fuel = k + 1 := ⟨fuel - 1, by omega⟩
      have next : s.edgeAt 0 a = some b := linked.1
      have shorter : rest.length < fuel := Nat.lt_of_succ_lt_succ enough
      cases isDead : s.dead a with
      | true =>
          refine .inr ⟨⟨a, List.mem_cons_self .., isDead⟩, ?_⟩
          simp only [destroy]
          rw [dead] at isDead
          cases points : (s.node a).next 0 with
          | node c | null => rw [points] at isDead; cases isDead
          | marked c | markedNull => cases fuel <;> rfl
      | false =>
          have points := points_of_edge next isDead
          simp only [destroy, points, List.mem_cons]
          rcases ih linked.2 shorter with ⟨alive, freed⟩ | ⟨⟨x, member, isDead'⟩, tagged⟩
          · refine .inl ⟨?_, by rw [freed]⟩
            rintro x (rfl | member)
            · exact isDead
            · exact alive x (List.mem_cons.2 member)
          · exact .inr ⟨⟨x, .inr (List.mem_cons.1 member), isDead'⟩, tagged⟩

theorem idle_eq (idle : pc.isIdle = true) : pc = .idle := by
  cases pc <;> first | rfl | cases idle

/-- Between calls, every node that has been cut off has been retired. -/
theorem Counted.retired_quiescent (counted : s.Counted) (quiescent : ∀ t, (s.pc t).isIdle = true)
    (isLinked : s.linked n = true) (off : n ∉ s.chain) : .node n ∈ s.sys.retired := by
  have quiet : ∀ t d, (s.pc t).duty ≠ some d := by
    intro t d duty
    rw [idle_eq (quiescent t)] at duty
    cases duty
  have spent : (s.node n).linkCount = 0 := by
    rw [counted.count n isLinked, due, if_neg, if_neg]
    · rintro ⟨t, duty⟩
      exact quiet t _ duty
    · rintro (inChain | ⟨t, duty⟩)
      · exact off inChain
      · exact quiet t _ duty
  refine (counted.spent n isLinked spent).resolve_right ?_
  rintro ⟨t, duty⟩
  exact quiet t _ duty

/-- **Every node is deleted once.** Take any reachable state in which no call is in progress. The
destructor of the map comes to its end exactly if no node on the chain is marked. If it does,
and all threads have exited, then each node ever made, `head_` included, has been deleted once:
by the destructor, by the `insert` that made it, or by the hazard pointers, whose destructor
leaves nothing behind. -/
theorem deleted_once {as : List (Action T Key Value)}
    (ran : Theory.run State.next (init : State T Key Value) as = some s)
    (quiescent : ∀ t, (s.pc t).isIdle = true) :
    ((s.destroy s.fresh (.node head)).2 = .null ↔ ∀ c ∈ s.chain, s.dead c = false) ∧
    ((∀ c ∈ s.chain, s.dead c = false) →
      (∀ r < s.sys.pool.fresh, (s.sys.pool.record r).active = false) →
      ∃ fuel h', s.sys.pool.destructor 4 fuel = some (h', s.sys.pool.records) ∧
        ∀ n < s.fresh, (s.destroy s.fresh (.node head)).1.count n + s.freed.count n +
          h'.deleted.count (.node n) = 1) := by
  obtain ⟨reached, freed, accounted⟩ : s.Reached ∧ s.Freed ∧ s.Accounted := by
    refine Theory.run_induction (P := fun q : State T Key Value => q.Reached ∧ q.Freed ∧ q.Accounted)
      ?_ ⟨⟨level0_init, counted_init, hazards_init⟩, freed_init, accounted_init⟩ ran
    rintro q a q' ⟨reached, freed, accounted⟩ taken
    exact ⟨reached.next taken, freed.next reached.level0 taken, accounted.next reached.level0 taken⟩
  have memory := reached.level0.memory
  have known : ∀ c ∈ s.chain, head < c ∧ c < s.fresh := fun c member =>
    memory.known c (memory.member c member)
  have distinct : (head :: s.chain).Nodup := sorted_nodup memory.sorted
  have enough : s.chain.length < s.fresh := by
    have whole := chain_length (s := s) distinct fun c member => by
      rcases List.mem_cons.1 member with rfl | inChain
      · exact memory.started
      · exact (known c inChain).2
    exact whole
  have walked := destroy_linked memory.chained enough
  refine ⟨?_, fun alive inactive => ?_⟩
  · rcases walked with ⟨alive, freed'⟩ | ⟨⟨x, member, isDead⟩, tagged⟩
    · exact iff_of_true (by rw [freed']) fun c member => alive c (List.mem_cons_of_mem _ member)
    · refine iff_of_false (fun ends => by rw [ends] at tagged; cases tagged) fun alive => ?_
      rcases List.mem_cons.1 member with rfl | inChain
      · rw [memory.headAlive] at isDead; cases isDead
      · rw [alive x inChain] at isDead; cases isDead
  · have whole : (s.destroy s.fresh (.node head)).1 = head :: s.chain := by
      rcases walked with ⟨-, freed'⟩ | ⟨⟨x, member, isDead⟩, -⟩
      · rw [freed']
      · rcases List.mem_cons.1 member with rfl | inChain
        · rw [memory.headAlive] at isDead; cases isDead
        · rw [alive x inChain] at isDead; cases isDead
    obtain ⟨fuel, h', ends, deleted⟩ :=
      reached.hazards.orderly.emptied reached.counted.nodup inactive
    refine ⟨fuel, h', ends, fun n below => ?_⟩
    rw [whole, deleted.count_eq, List.Nodup.count distinct, List.Nodup.count freed.nodup,
      List.Nodup.count reached.counted.nodup]
    have unfreed : s.linked n = true → n ∉ s.freed := by
      intro isLinked isFreed
      obtain ⟨k, mine⟩ := freed.known n isFreed
      rw [mine.new] at isLinked
      cases isLinked
    have unretired : .node n ∈ s.sys.retired → s.linked n = true ∧ n ∉ s.chain := by
      intro retired
      obtain ⟨isLinked, off⟩ := reached.counted.retired_off retired
      exact ⟨isLinked, fun inChain => off (.inl inChain)⟩
    obtain rfl | above : n = head ∨ head < n := Nat.eq_zero_or_pos n
    · have notLinked : s.linked head ≠ true := fun isLinked =>
        Nat.lt_irrefl _ (memory.known head isLinked).1
      have notFreed : head ∉ s.freed := by
        intro isFreed
        obtain ⟨k, mine⟩ := freed.known head isFreed
        exact Nat.lt_irrefl _ mine.known.1
      rw [if_pos (List.mem_cons_self ..), if_neg notFreed,
        if_neg fun retired => notLinked (unretired retired).1]
    · rcases accounted n above below with isLinked | ⟨u, owned⟩ | isFreed
      · by_cases inChain : n ∈ s.chain
        · rw [if_pos (List.mem_cons_of_mem _ inChain), if_neg (unfreed isLinked),
            if_neg fun retired => (unretired retired).2 inChain]
        · have outside : n ∉ head :: s.chain := fun member =>
            (List.mem_cons.1 member).elim (Nat.ne_of_gt above) inChain
          rw [if_neg outside, if_neg (unfreed isLinked),
            if_pos (reached.counted.retired_quiescent quiescent isLinked inChain)]
      · rw [idle_eq (quiescent u)] at owned
        cases owned
      · have new : s.linked n = false := by
          obtain ⟨k, mine⟩ := freed.known n isFreed
          exact mine.new
        have outside : n ∉ head :: s.chain := by
          intro member
          rcases List.mem_cons.1 member with rfl | inChain
          · exact Nat.lt_irrefl _ above
          · rw [memory.member n inChain] at new; cases new
        have notRetired : .node n ∉ s.sys.retired := by
          intro retired
          rw [(unretired retired).1] at new
          cases new
        rw [if_neg outside, if_pos isFreed, if_neg notRetired]

/-- One thread inserts 1 and 2, erases 1 and exits. -/
def visit : List (Action (Fin 2) Nat Nat) :=
  Action.call 0 (.insert 1 10 0) :: List.replicate 21 (.step 0) ++
    Action.call 0 (.insert 2 20 0) :: List.replicate 24 (.step 0) ++
    Action.call 0 (.erase 1) :: List.replicate 34 (.step 0) ++
    Action.exit 0 :: List.replicate 5 (.step 0)

/-- Its node of 1 is left to the hazard pointers, the other two nodes to the destructor. -/
theorem deleted_once_visit : ∃ s : State (Fin 2) Nat Nat,
    Theory.run State.next State.init visit = some s ∧ s.fresh = 3 ∧
    s.destroy 3 (.node head) = ([0, 2], .null) ∧
    ∃ fuel h', s.sys.pool.destructor 4 fuel = some (h', s.sys.pool.records) ∧
      ∀ n < 3, ([0, 2] : List Nat).count n + s.freed.count n + h'.deleted.count (.node n) = 1 := by
  have played : (Theory.run State.next State.init visit).map
      (fun s : State (Fin 2) Nat Nat => decide ((∀ t, (s.pc t).isIdle = true) ∧ s.fresh = 3 ∧
        s.destroy 3 (.node head) = ([0, 2], .null) ∧ (∀ c ∈ s.chain, s.dead c = false) ∧
        ∀ r < s.sys.pool.fresh, (s.sys.pool.record r).active = false)) = some true := by
    decide +kernel
  obtain ⟨s, ran, checked⟩ := Option.map_eq_some_iff.1 played
  obtain ⟨quiescent, fresh, freed, alive, inactive⟩ := of_decide_eq_true checked
  obtain ⟨fuel, h', ends, once⟩ := (deleted_once ran quiescent).2 alive inactive
  rw [fresh, freed] at once
  exact ⟨s, ran, fresh, freed, fuel, h', ends, once⟩

end State

end Ccmetrics.SkipList
