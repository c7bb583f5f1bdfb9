/-
# SkipList.Quiescent -- marked nodes are unlinked by the call that marked them

A node is marked by the `erase` that then searches for its key again, to unlink it. That
second search ends with the node off the chain, unless it unlinks some other marked node on
the way and gives up (`strays`). In a run without such a step every marked node on the chain
still has its `erase` at work (`Swept`), so none is left when all calls have returned.
-/
import Ccmetrics.SkipList.Agreement

namespace Ccmetrics.SkipList

set_option autoImplicit false
set_option linter.unusedSectionVars false

variable {T Key Value : Type} [DecidableEq T] [LinearOrder Key] [Inhabited Key] [Inhabited Value]

namespace State

variable {s s' : State T Key Value} {t u : T} {e : Effect Key Value} {nx : Next Key Value}
variable {k : Key} {pc : PC Key Value} {f : Find Key Value}

/-- The second search of an `erase` unlinks another node than the one the call has marked,
which is still on the chain. -/
def strays (s : State T Key Value) : Action T Key Value → Bool
  | .step t =>
      match s.pc t with
      | .findUnlink f 0 prev cur _ =>
          decide ((s.node prev).next 0 = .node cur) &&
            match f.site with
            | .eraseAgain c true => decide (cur ≠ c ∧ c ∈ s.chain)
            | _ => false
      | _ => false
  | _ => false

/-- The node that the call has marked is off the chain. -/
def Gone (s : State T Key Value) (f : Find Key Value) : Prop :=
  ∀ c, f.site = .eraseAgain c true → c ∉ s.chain

/-- What the second search of `erase` knows about the node that the call has marked. -/
def Sweeps (s : State T Key Value) : PC Key Value → Prop
  | .findPrev f _ _ cur next => next = .null → s.key cur < f.key → s.Gone f
  | .findDead f _ _ cur next =>
      (next = .null → s.key cur < f.key → s.Gone f) ∧
        ∀ c, f.site = .eraseAgain c true → f.key ≤ s.key cur → c ∉ s.chain ∨ cur = c
  | .findKey f _ _ cur next =>
      (next = .null → s.key cur < f.key → s.Gone f) ∧ (f.key ≤ s.key cur → s.Gone f)
  | .findSetPrev f _ _ next | .findSetCur f _ _ next => next = .null → s.Gone f
  | .findDrop f _ _ _ | .findClear f _ _ _ | .findRetire f _ _ _ | .findMatch f _ _ => s.Gone f
  | _ => True

/-- A published node that is off the chain stays off it. -/
theorem Memory.stays_off (memory : s.Memory) (write : s.Write e) {c : Addr}
    (isLinked : s.linked c = true) (off : c ∉ s.chain) : c ∉ (s.apply t e).chain := by
  have spliced := (memory.write (t := t) write).2
  cases write with
  | link prev n k mine before behind stored =>
      intro member
      rcases (spliced c).1 member with rfl | inChain
      · rw [mine.new] at isLinked; cases isLinked
      · exact off inChain
  | unlink prev cur shared isLinked' isDead points =>
      obtain ⟨cur', -, members⟩ := spliced
      exact fun member => off ((members c).1 member).1
  | _ =>
      have same : (s.apply t _).chain = s.chain := spliced
      rwa [same]

theorem Gone.write (gone : s.Gone f) (memory : s.Memory) (write : s.Write e)
    (site : s.SiteOk f) : (s.apply t e).Gone f := by
  intro c atSite
  rw [SiteOk, atSite] at site
  exact memory.stays_off write site.1 (gone c atSite)

theorem Sweeps.write (sweeps : s.Sweeps pc) (memory : s.Memory) (write : s.Write e)
    (here : s.Local pc) : (s.apply t e).Sweeps pc := by
  have kept := memory.extends_write (t := t) write
  cases pc with
  | findPrev f i prev cur next =>
      intro last less
      rw [key_extend memory kept here.1.linked] at less
      exact (sweeps last less).write memory write here.1.site
  | findDead f i prev cur next =>
      have atKey := key_extend memory kept here.1.linked
      refine ⟨fun last less => ?_, fun c atSite atLeast => ?_⟩
      · rw [atKey] at less
        exact (sweeps.1 last less).write memory write here.1.site
      · rw [atKey] at atLeast
        refine (sweeps.2 c atSite atLeast).imp_left fun off => ?_
        have site := here.1.site
        rw [SiteOk, atSite] at site
        exact memory.stays_off write site.1 off
  | findKey f i prev cur next =>
      have atKey := key_extend memory kept here.1.linked
      refine ⟨fun last less => ?_, fun atLeast => ?_⟩
      · rw [atKey] at less
        exact (sweeps.1 last less).write memory write here.1.site
      · rw [atKey] at atLeast
        exact (sweeps.2 atLeast).write memory write here.1.site
  | findSetPrev f i prev next => exact fun last => (sweeps last).write memory write here.1
  | findSetCur f i prev next => exact fun last => (sweeps last).write memory write here.1
  | findDrop f | findClear f | findRetire f => exact Gone.write sweeps memory write here.1.site
  | findMatch f => exact Gone.write sweeps memory write here.1
  | _ => trivial

theorem SameNodes.sweeps (same : s.SameNodes s') (sweeps : s.Sweeps pc) : s'.Sweeps pc := by
  cases pc <;> first | exact sweeps | simpa only [Sweeps, Gone, same.key, same.chain] using sweeps

/-- Behind a node in front of `k`, nothing up to its successor is on the chain. -/
theorem Memory.gone_of_gap (memory : s.Memory) {a c : Addr} (before : s.Before k a)
    (clean : ((s.node a).next 0).marked0 = false) (isLinked : s.linked c = true)
    (atKey : s.key c = k) (inChain : c ∈ s.chain) :
    ∃ b, (s.node a).next 0 = .node b ∧ b ∈ s.chain ∧ s.key b ≤ k := by
  have above : s.rank a < s.rank c := by
    rw [memory.rank_linked isLinked, atKey]
    exact before.2
  obtain ⟨b, next, inChain', below⟩ := memory.gap (memory.onChain before.1 clean) inChain above
  rw [memory.rank_linked isLinked, memory.rank_linked (memory.member b inChain'), atKey,
    WithBot.coe_le_coe] at below
  exact ⟨b, points_of_edge next clean, inChain', below⟩

theorem Memory.gone_of_null (memory : s.Memory) (site : s.SiteOk f) {a : Addr}
    (before : s.Before f.key a) (last : (s.node a).next 0 = .null) : s.Gone f := by
  intro c atSite inChain
  rw [SiteOk, atSite] at site
  obtain ⟨b, points, -⟩ := memory.gone_of_gap before (by rw [last]; rfl) site.1 site.2.2 inChain
  rw [last] at points
  cases points

theorem sweeps_enter : s'.Sweeps (s.enter t (.find f)) := by
  simp only [enter]
  split <;> trivial

theorem sweeps_eraseDown {key : Key} {cur : Addr} {i : Nat} {m : Bool} :
    s'.Sweeps (s.eraseDown t key cur i m) := by
  simp only [eraseDown]
  split
  · exact sweeps_enter
  · trivial

theorem sweeps_indexLevel {x : Index Key} {i : Nat} {prev : Addr} :
    s.Sweeps (indexLevel x prev i : PC Key Value) := by
  cases i with
  | zero => simp only [indexLevel]; split <;> trivial
  | succ i => trivial

theorem sweeps_itemsLoop {what : Extract} {ret : List (Item Key Value)} {prev cur : Ptr} :
    s.Sweeps (itemsLoop what ret prev cur) := by
  cases cur with
  | node c => cases prev <;> trivial
  | _ => trivial

theorem sweeps_found {prev : Addr} {cur : Ptr} {hit : Bool} :
    s'.Sweeps (s.found f prev cur hit).2.pc := by
  simp only [found]
  repeat' split
  all_goals trivial

/-- One step of a search. -/
theorem Sweeps.access (sweeps : s.Sweeps pc) (here : s.Local pc) (access : s.Access t pc e nx)
    (memory : s.Memory) (kept : ∀ f prev cur nexti c, pc = .findUnlink f 0 prev cur nexti →
      (s.node prev).next 0 = .node cur → f.site = .eraseAgain c true → c ∈ s.chain → cur = c) :
    (s.apply t e).Sweeps nx.pc := by
  have write := here.write access
  cases access with
  | acquired start => cases start <;> trivial
  | curLoaded f i prev clean =>
      obtain ⟨site, before, onHead⟩ := here
      cases i with
      | zero =>
          cases points : (s.node prev).next 0 with
          | null => exact memory.gone_of_null site before points
          | node c => trivial
          | markedNull => rw [points] at clean; cases clean
          | marked c => trivial
      | succ i =>
          obtain rfl := onHead (Nat.succ_ne_zero i)
          simp only [memory.index head (i + 1) (Nat.succ_pos i), findLoop, findDown,
            Nat.succ_ne_zero, if_false]
          trivial
  | nextLoaded f i prev cur =>
      obtain rfl := here.bottom
      intro last less
      exact memory.gone_of_null here.site (memory.before_linked here.linked less) last
  | prevSame f i prev cur next points clean =>
      obtain ⟨window, -, -⟩ := here
      obtain rfl := window.bottom
      refine ⟨sweeps, fun c atSite atLeast => ?_⟩
      have site := window.site
      rw [SiteOk, atSite] at site
      by_cases inChain : c ∈ s.chain
      · obtain ⟨b, points', inChain', below⟩ := memory.gone_of_gap window.before
          (by rw [points]; rfl) site.1 site.2.2 inChain
        cases points.symm.trans points'
        refine .inr (memory.key_inj inChain' inChain ?_)
        exact (le_antisymm below atLeast).trans site.2.2.symm
      · exact .inl inChain
  | notDead f i prev cur next alive =>
      refine ⟨sweeps.1, fun atLeast c atSite => ?_⟩
      rcases sweeps.2 c atSite atLeast with off | rfl
      · exact off
      · have site := here.1.site
        rw [SiteOk, atSite] at site
        have isDead : ((s.node cur).next 0).marked0 = true := site.2.1
        rw [alive] at isDead
        cases isDead
  | keyReached f i prev cur next reached =>
      obtain rfl := here.1.bottom
      exact sweeps.2 reached
  | keyBelow f i prev cur next below => exact fun last => sweeps.1 last below
  | prevSet f i prev next => exact sweeps
  | curSet f i prev cur =>
      obtain ⟨site, rfl, before, shared⟩ := here
      cases cur with
      | null => exact sweeps rfl
      | node c => trivial
      | markedNull => exact shared.elim
      | marked c => trivial
  | unlinked f i prev cur nexti points =>
      obtain ⟨window, -, -⟩ := here
      obtain rfl := window.bottom
      intro c atSite inChain
      obtain ⟨cur', points', members⟩ := (memory.write (t := t) write).2
      cases points.symm.trans points'
      obtain ⟨inChain, ne⟩ := (members c).1 inChain
      exact ne (kept f prev cur nexti c rfl points atSite inChain).symm
  | dropLast f i prev cur last => exact Gone.write sweeps memory write here.1.site
  | drop f i prev cur more =>
      obtain rfl := here.1.bottom
      exact Gone.write sweeps memory write here.1.site
  | curCleared f i prev cur => exact sweeps
  | retired f i prev cur =>
      obtain rfl := here.1.bottom
      exact sweeps
  | matchNull f prev => exact sweeps_found
  | matchNode f prev cur => exact sweeps_found
  | eraseFlat | marked => exact sweeps_eraseDown
  | grown | levelled | linkFailed => exact sweeps_enter
  | overage => exact sweeps_indexLevel
  | indexMarked => rw [Next.pc_goto, indexExit]; exact sweeps_indexLevel
  | indexLoaded x i prev clean =>
      obtain ⟨-, rfl, above⟩ := here
      rw [memory.index head i (Nat.pos_of_ne_zero above)] at clean
      cases clean
  | itemsLoaded | itemsCurSet => rw [Next.pc_goto]; exact sweeps_itemsLoop
  | itemsNextLoaded => simp only [itemsNextOf]; split <;> trivial
  | clearedLast k leave => cases leave <;> trivial
  | indexReached | indexNextMarked | indexPrevChanged | indexCurSet | indexFailed | indexDead
  | indexAlive => exact here.elim
  | _ => trivial

/-! ## Marked nodes on the chain -/

structure Swept (s : State T Key Value) : Prop where
  marker : ∀ c ∈ s.chain, s.dead c = true →
    ∃ t f, (s.pc t).finding = some f ∧ f.site = .eraseAgain c true
  sweeps : ∀ t, s.Sweeps (s.pc t)

/-- A marked node on the chain was there before, or it has just been marked. -/
theorem Memory.marked_before (memory : s.Memory) (write : s.Write e) {c : Addr}
    (inChain : c ∈ (s.apply t e).chain) (isDead : (s.apply t e).dead c = true) :
    (c ∈ s.chain ∧ s.dead c = true) ∨
      (s.linked c = true ∧ s.dead c = false ∧ e = .mark c 0 ((s.node c).next 0)) := by
  have spliced := (memory.write (t := t) write).2
  cases swaps : e.swaps with
  | false =>
      have before : c ∈ s.chain := by
        cases write with
        | link => cases swaps
        | unlink prev cur shared isLinked isDead' points =>
            obtain ⟨cur', -, members⟩ := spliced
            exact ((members c).1 inChain).1
        | _ =>
            have same : (s.apply t _).chain = s.chain := spliced
            rwa [same] at inChain
      rw [(memory.quiet (t := t) write swaps).2 c (memory.member c before)] at isDead
      exact .inl ⟨before, isDead⟩
  | true =>
      cases write with
      | link prev n k mine before behind stored =>
          rw [dead_link behind.alive] at isDead
          rcases (spliced c).1 inChain with rfl | inChain
          · rw [dead, stored, behind.alive] at isDead
            cases isDead
          · exact .inl ⟨inChain, isDead⟩
      | mark cur i isLinked =>
          obtain ⟨rfl, clean⟩ := of_decide_eq_true swaps
          have same : (s.apply t (.mark cur 0 ((s.node cur).next 0))).chain = s.chain := spliced
          rw [same] at inChain
          rw [dead_mark, Bool.or_eq_true, decide_eq_true_eq] at isDead
          rcases isDead with isDead | rfl
          · exact .inl ⟨inChain, isDead⟩
          · exact .inr ⟨isLinked, (Ptr.eq_clear_iff _).1 clean, rfl⟩
      | _ => cases swaps

/-- The `erase` that marks a node starts its second search at once. -/
theorem finding_marked {c : Addr} (access : s.Access t pc e nx)
    (isMark : e = .mark c 0 ((s.node c).next 0)) (alive : s.dead c = false) :
    ∃ f, nx.pc.finding = some f ∧ f.site = .eraseAgain c true := by
  have clean := (Ptr.eq_clear_iff _).2 alive
  cases access with
  | marked key cur i m =>
      cases isMark
      refine ⟨⟨key, .eraseAgain c true⟩, ?_, rfl⟩
      simp only [eraseDown, if_true, Next.pc_goto, finding_enter, if_pos clean, true_and]
  | matchNull | matchNode =>
      have swaps := swaps_found.symm.trans (congrArg Effect.swaps isMark)
      simp only [Effect.swaps, true_and, decide_eq_true clean] at swaps
      cases swaps
  | _ => cases isMark

theorem Swept.access {sys : Hazard.Sys T Ptr (Addr × Nat)} (swept : s.Swept) (level0 : s.Level0)
    (access : s.Access t (s.pc t) e nx) (kept : strays s (.step t) = false) :
    (({ s with sys := sys }.apply t e).after t nx).Swept := by
  have memory := level0.memory
  have here := level0.here t
  have write := here.write access
  have same := sameNodes_after (s := s) (t := t) sys e nx
  have pcOther : ∀ u, u ≠ t → (({ s with sys := sys }.apply t e).after t nx).pc u = s.pc u := by
    intro u other
    rw [after_pc_other other, apply_pc]
  refine ⟨fun c inChain isDead => ?_, fun u => same.sweeps ?_⟩
  · rw [same.chain] at inChain
    rw [dead, same.node] at isDead
    rcases memory.marked_before write inChain isDead with ⟨before, wasDead⟩ | ⟨-, alive, isMark⟩
    · obtain ⟨u, f, finding, atSite⟩ := swept.marker c before wasDead
      by_cases isT : u = t
      · subst isT
        rcases here.access_finding access memory level0.tall finding with onward | ⟨prev, cur, atMatch⟩
        · exact ⟨u, f, by rw [after_pc_self]; exact onward, atSite⟩
        · -- a second search that ends has seen the node go
          have gone := swept.sweeps u
          rw [atMatch] at gone
          exact absurd before (gone c atSite)
      · exact ⟨u, f, by rw [pcOther u isT]; exact finding, atSite⟩
    · obtain ⟨f, finding, atSite⟩ := finding_marked access isMark alive
      exact ⟨t, f, by rw [after_pc_self]; exact finding, atSite⟩
  · by_cases isT : u = t
    · subst isT
      rw [after_pc_self]
      refine (swept.sweeps u).access here access memory ?_
      intro f prev cur nexti c atUnlink points atSite inChain
      by_contra other
      simp only [strays, atUnlink, points, decide_true, Bool.true_and, atSite] at kept
      exact absurd ⟨other, inChain⟩ (of_decide_eq_false kept)
    · rw [pcOther u isT]
      exact (swept.sweeps u).write memory write (level0.here u)

/-- Moving one thread without touching a node. -/
theorem Swept.move (swept : s.Swept) (same : s.SameNodes s')
    (moved : ∀ u, s'.pc u ≠ s.pc u → (s.pc u).finding = none ∧ s'.Sweeps (s'.pc u)) : s'.Swept := by
  refine ⟨fun c inChain isDead => ?_, fun u => ?_⟩
  · rw [same.chain] at inChain
    rw [dead, same.node] at isDead
    obtain ⟨u, f, finding, atSite⟩ := swept.marker c inChain isDead
    refine ⟨u, f, ?_, atSite⟩
    by_cases stays : s'.pc u = s.pc u
    · rw [stays]; exact finding
    · rw [(moved u stays).1] at finding
      cases finding
  · by_cases stays : s'.pc u = s.pc u
    · rw [stays]; exact same.sweeps (swept.sweeps u)
    · exact (moved u stays).2

theorem finding_idle (idle : pc.isIdle = true) : pc.finding = none := by
  cases pc <;> first | rfl | cases idle

theorem sweeps_begin (op : Op Key Value) : s'.Sweeps (s.begin t op) := by
  cases op with
  | exists_ key | find key | erase key => exact sweeps_enter
  | insert key value level => trivial
  | firstKey | extract what => simp only [begin, enter]; split <;> trivial

theorem Swept.next (swept : s.Swept) (level0 : s.Level0) {a : Action T Key Value}
    (kept : strays s a = false) (taken : s.next a = some s') : s'.Swept := by
  have moves : ∀ t pc, (s.pc t).isIdle = true → s'.Sweeps pc → ∀ u,
      (s.goto t pc).pc u ≠ s.pc u →
        (s.pc u).finding = none ∧ s'.Sweeps ((s.goto t pc).pc u) := by
    intro t pc idle sweeps u moved
    have isT : u = t := by
      by_contra other
      exact moved (if_neg other)
    subst isT
    rw [goto_pc_ne moved]
    exact ⟨finding_idle idle, sweeps⟩
  cases a with
  | call t op =>
      simp only [State.next] at taken
      split at taken
      · rename_i enabled
        split at taken
        all_goals
          cases taken
          exact swept.move ⟨rfl, rfl, rfl⟩ (moves t _ enabled.1 (sweeps_begin op))
      · cases taken
  | exit t =>
      simp only [State.next] at taken
      split at taken
      · rename_i enabled
        cases taken
        exact swept.move ⟨rfl, rfl, rfl⟩ (moves t _ enabled.1 trivial)
      · cases taken
  | step t =>
      rcases step_map level0.synced taken with ⟨sys, -, rfl⟩ | ⟨sys, e, nx, access, rfl⟩
      · exact swept.move ⟨rfl, rfl, rfl⟩ fun u moved => absurd rfl moved
      · exact swept.access level0 access kept

theorem swept_init : (init : State T Key Value).Swept :=
  ⟨fun _ member => (List.not_mem_nil member).elim, fun _ => trivial⟩

/-- **No marked node is left over** in a run in which no second search of an `erase` unlinks
another node while its own is still on the chain: whenever no call is in progress, the chain
has no marked node. -/
theorem no_leftover_marks {as : List (Action T Key Value)}
    (kept : Theory.Along State.next (fun s a => strays s a = false) (init : State T Key Value) as)
    (ran : Theory.run State.next (init : State T Key Value) as = some s)
    (quiescent : ∀ t, (s.pc t).isIdle = true) : ∀ c ∈ s.chain, s.dead c = false := by
  have both : s.Swept ∧ s.Level0 :=
    Theory.run_along (P := fun q : State T Key Value => q.Swept ∧ q.Level0)
      (fun _ _ _ before kept taken => ⟨before.1.next before.2 kept taken, before.2.next taken⟩)
      ⟨swept_init, level0_init⟩ kept ran
  intro c inChain
  cases isDead : s.dead c with
  | false => rfl
  | true =>
      obtain ⟨t, f, finding, -⟩ := both.1.marker c inChain isDead
      rw [finding_idle (quiescent t)] at finding
      cases finding

theorem no_leftover_marks_race : ∃ s : State (Fin 2) Nat Nat,
    Theory.run State.next State.init eraseRace = some s ∧ s.log.length = 3 ∧
    ∀ c ∈ s.chain, s.dead c = false := by
  have played : (Theory.run State.next State.init eraseRace).map
      (fun s : State (Fin 2) Nat Nat => decide (s.log.length = 3 ∧ ∀ t, (s.pc t).isIdle = true)) =
        some true := by decide +kernel
  obtain ⟨s, ran, checked⟩ := Option.map_eq_some_iff.1 played
  obtain ⟨entries, quiescent⟩ := of_decide_eq_true checked
  exact ⟨s, ran, entries, no_leftover_marks (by decide +kernel) ran quiescent⟩

/-- The map holds 1, 2 and 3. Thread 0 finds 3, thread 1 marks 1, thread 0 marks 3 and unlinks 1
in place of it; thread 1 then sees only that 1 is gone. -/
def strayErase : List (Action (Fin 2) Nat Nat) :=
  Action.call 0 (.insert 1 10 0) :: List.replicate 21 (.step 0) ++
    Action.call 0 (.insert 2 20 0) :: List.replicate 24 (.step 0) ++
    Action.call 0 (.insert 3 30 0) :: List.replicate 32 (.step 0) ++
    Action.call 0 (.erase 3) :: List.replicate 28 (.step 0) ++
    Action.call 1 (.erase 1) :: List.replicate 21 (.step 1) ++
    List.replicate 22 (Action.step 0) ++ List.replicate 15 (Action.step 1)

/-- Both calls have returned, and the node of 3 is marked and still on the chain. -/
theorem leftover_mark : ∃ s : State (Fin 2) Nat Nat,
    Theory.run State.next State.init strayErase = some s ∧
    (∀ t, (s.pc t).isIdle = true) ∧ ∃ c ∈ s.chain, s.dead c = true := by
  have played : (Theory.run State.next State.init strayErase).map
      (fun s : State (Fin 2) Nat Nat => decide ((∀ t, (s.pc t).isIdle = true) ∧
        ∃ c ∈ s.chain, s.dead c = true)) = some true := by decide +kernel
  obtain ⟨s, ran, checked⟩ := Option.map_eq_some_iff.1 played
  exact ⟨s, ran, of_decide_eq_true checked⟩

end State

end Ccmetrics.SkipList
