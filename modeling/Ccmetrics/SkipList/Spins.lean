/-
# SkipList.Spins -- when a thread running alone comes to the end of its call

`values` and `entries` do not unlink. When `extractor` comes to a dead node, it loads the node
again from `prev`, and it gives up only if `prev` is dead too. So a thread that runs alone loads
one pointer for ever, if the node was marked by a thread that has been stopped, or left on the
chain (`Spins`). Where `prev` is dead the loop starts again at `head_`.

`resumesAt` is the node from which the loop goes on. The thread ends its call exactly if no dead
node is behind it (`ends_alone_iff`); the other functions end their calls from every state.
-/
import Ccmetrics.SkipList.Progress

namespace Ccmetrics.SkipList

set_option autoImplicit false
set_option linter.unusedSectionVars false

variable {T Key Value : Type} [DecidableEq T] [LinearOrder Key] [Inhabited Key] [Inhabited Value]

namespace State

open Theory (Leads)

variable {s s' q : State T Key Value} {t : T} {e : Effect Key Value} {nx : Next Key Value}
variable {Q : State T Key Value → Prop} {pc : PC Key Value}
variable {what : Extract} {ret : List (Item Key Value)} {p c : Addr}

/-- No dead node is on the chain behind `a`. -/
def Unblocked (s : State T Key Value) (a : Addr) : Prop :=
  ∀ d ∈ s.chain, s.rank a < s.rank d → s.dead d = false

/-- `prev`, or `head_` where `prev` is dead. -/
def retreat (s : State T Key Value) (prev : Addr) : Addr := if s.dead prev = true then head else prev

/-- Where the loop goes on that has come to `cur`. -/
def advance (s : State T Key Value) (prev cur : Addr) : Addr :=
  if s.dead cur = true then s.retreat prev else cur

/-- The node from which the loop of `extractor` goes on. -/
def resumesAt (s : State T Key Value) : PC Key Value → Option Addr
  | .acquire (.items _) | .itemsCur _ _ => some head
  | .itemsRead _ _ prev cur | .itemsNext _ _ prev cur
  | .itemsSetPrev _ _ (.node prev) (.node cur) | .itemsSetCur _ _ (.node prev) (.node cur) =>
      some (s.advance prev cur)
  | .itemsAgain _ _ prev => some (s.retreat prev)
  | _ => none

/-- `extractor` loads a dead node again and again. -/
def Spins (s : State T Key Value) (t : T) : Prop :=
  s.Reached ∧ ∃ what ret prev d,
    (s.pc t = .itemsNext what ret prev d ∨ s.pc t = .itemsAgain what ret prev) ∧
    (s.node prev).next 0 = .node d ∧ s.dead d = true

theorem Spins.busy (spins : s.Spins t) : (s.pc t).isIdle = false := by
  obtain ⟨-, what, ret, prev, d, at_ | at_, -⟩ := spins <;> rw [at_] <;> rfl

/-- No access of the thread itself gets it out. -/
theorem Spins.access (spins : s.Spins t) (access : s.Access t (s.pc t) e nx) :
    e = .none ∧ ∃ what ret prev d,
      (nx.pc = .itemsNext what ret prev d ∨ nx.pc = .itemsAgain what ret prev) ∧
      (s.node prev).next 0 = .node d ∧ s.dead d = true := by
  obtain ⟨-, what, ret, prev, d, at_, points, isDead⟩ := spins
  rcases at_ with at_ | at_
  · rw [at_] at access
    cases access with
    | itemsNextLoaded =>
        refine ⟨rfl, what, ret, prev, d, .inr ?_, points, isDead⟩
        exact if_pos isDead
  · rw [at_] at access
    cases access with
    | itemsAgainNull _ _ _ isNull => rw [points] at isNull; cases isNull
    | itemsAgainNode _ _ _ cur leads =>
        rw [points] at leads
        cases leads
        exact ⟨rfl, what, ret, prev, d, .inl rfl, points, isDead⟩
    | itemsRestart _ _ _ marked => rw [points] at marked; cases marked

theorem Spins.step (spins : s.Spins t) (taken : s.step t = some s') : s'.Spins t := by
  have reached' := spins.1.step taken
  rcases step_map spins.1.level0.synced taken with ⟨sys, -, rfl⟩ | ⟨sys, e, nx, access, rfl⟩
  · exact ⟨reached', spins.2⟩
  · obtain ⟨rfl, what, ret, prev, d, at_, points, isDead⟩ := spins.access access
    have nodes := sameNodes_after (s := s) (t := t) sys .none nx
    refine ⟨reached', what, ret, prev, d, ?_, ?_, ?_⟩
    · rwa [after_pc_self]
    · rw [nodes.node]
      exact points
    · rw [nodes.dead]
      exact isDead

/-! ## One turn of the loop -/

/-- The node that the loop has come to is not dead, so it goes on behind it. -/
theorem Ready.passes (ready : s.Ready t) (at_ : s.pc t = .itemsNext what ret p c)
    (alive : s.dead c = false)
    (rest : ∀ s', s'.Ready t → s.Same s' →
      s'.pc t = itemsLoop what ret (.node c) ((s'.node c).next 0) → Leads (fun s => s.step t) s' Q) :
    Leads (fun s => s.step t) s Q := by
  have goes : s.solo t =
      some (.none, .goto (.itemsSetPrev what ret (.node c) ((s.node c).next 0))) := by
    rw [solo_call at_ rfl]
    have clean : (s.cell (c, 0)).marked0 = false := alive
    simp only [reply, resume, itemsNextOf, clean, Bool.false_eq_true, if_false]
    rfl
  refine ready.reads goes fun s₁ ready₁ same₁ at₁ => ?_
  refine ready₁.reads (solo_call at₁ rfl) fun s₂ ready₂ same₂ at₂ => ?_
  refine ready₂.reads (solo_call at₂ rfl) fun s₃ ready₃ same₃ at₃ => ?_
  have same : s.Same s₃ := same₁.trans (same₂.trans same₃)
  refine rest s₃ ready₃ same ?_
  rw [same.nodes.node]
  exact at₃

/-- The node that the loop has come to is dead, and it is loaded again. -/
theorem Ready.reloads (ready : s.Ready t) (at_ : s.pc t = .itemsNext what ret p c)
    (isDead : s.dead c = true)
    (rest : ∀ s', s'.Ready t → s.Same s' → s'.pc t = .itemsAgain what ret p →
      Leads (fun s => s.step t) s' Q) : Leads (fun s => s.step t) s Q := by
  have goes : s.solo t = some (.none, .goto (.itemsAgain what ret p)) := by
    rw [solo_call at_ rfl]
    have marked : (s.cell (c, 0)).marked0 = true := isDead
    simp only [reply, resume, itemsNextOf, marked, if_true]
  exact ready.reads goes rest

/-- The loop ends at the end of the chain. -/
theorem Ready.ends_items {prev : Ptr} (ready : s.Ready t)
    (at_ : s.pc t = itemsLoop what ret prev .null) : s.Ends t (.items ret) :=
  ready.clears at_

/-- What `extractor` returns, if none of the nodes ahead is dead. -/
theorem Ready.collects {l₁ l₂ : List Addr} (ready : s.Ready t)
    (at_ : s.pc t = itemsLoop what ret (.node p) ((s.node p).next 0))
    (split : head :: s.chain = l₁ ++ p :: l₂) (alive : ∀ a ∈ p :: l₂, s.dead a = false) :
    s.Ends t (.items (ret ++ l₂.map fun a => what.item (s.node a))) := by
  have next := ready.reached.level0.memory.next_of_split split (alive p List.mem_cons_self)
  rw [next] at at_
  induction l₂ generalizing s l₁ p ret with
  | nil => simpa using ready.ends_items at_
  | cons c l₃ ih =>
      have pushed : ret ++ (c :: l₃).map (fun a => what.item (s.node a)) =
          (ret ++ [what.item (s.node c)]) ++ l₃.map fun a => what.item (s.node a) := by simp
      rw [pushed]
      refine ready.reads (solo_plan at_ rfl) fun s₁ ready₁ same₁ at₁ => ?_
      have aliveC : s₁.dead c = false := by
        rw [same₁.dead]
        exact alive c (by simp)
      refine ready₁.passes at₁ aliveC fun s₂ ready₂ same₂ at₂ => ?_
      have same : s.Same s₂ := same₁.trans same₂
      have split₂ : head :: s₂.chain = (l₁ ++ [p]) ++ c :: l₃ := by
        rw [same.nodes.chain, split]
        simp
      have alive₂ : ∀ a ∈ c :: l₃, s₂.dead a = false := by
        intro a member
        rw [same.dead]
        exact alive a (List.mem_cons_of_mem p member)
      have next₂ := ready₂.reached.level0.memory.next_of_split split₂ (alive₂ c List.mem_cons_self)
      rw [next₂] at at₂
      have ends := ih ready₂ at₂ split₂ alive₂ next₂
      rw [same.nodes.node] at ends
      exact ends.after same.alike

/-- A dead node ahead is the end of the run. -/
theorem Ready.spins {l₁ l₂ : List Addr} (ready : s.Ready t)
    (at_ : s.pc t = itemsLoop what ret (.node p) ((s.node p).next 0))
    (split : head :: s.chain = l₁ ++ p :: l₂) (alive : s.dead p = false)
    (someDead : ∃ d ∈ l₂, s.dead d = true) :
    Leads (fun s => s.step t) s fun s' => s'.Spins t := by
  have next := ready.reached.level0.memory.next_of_split split alive
  rw [next] at at_
  induction l₂ generalizing s l₁ p ret with
  | nil =>
      obtain ⟨d, member, -⟩ := someDead
      cases member
  | cons c l₃ ih =>
      refine ready.reads (solo_plan at_ rfl) fun s₁ ready₁ same₁ at₁ => ?_
      by_cases isDead : s.dead c = true
      · refine Theory.leads_here ⟨ready₁.reached, what, _, p, c, .inl at₁, ?_, ?_⟩
        · rw [same₁.nodes.node]
          exact next
        · rwa [same₁.dead]
      · have aliveC : s.dead c = false := by simpa using isDead
        refine ready₁.passes at₁ (by rwa [same₁.dead]) fun s₂ ready₂ same₂ at₂ => ?_
        have same : s.Same s₂ := same₁.trans same₂
        have split₂ : head :: s₂.chain = (l₁ ++ [p]) ++ c :: l₃ := by
          rw [same.nodes.chain, split]
          simp
        have ahead : ∃ d ∈ l₃, s₂.dead d = true := by
          obtain ⟨d, member, dIsDead⟩ := someDead
          rcases List.mem_cons.1 member with rfl | behind
          · exact absurd dIsDead isDead
          · exact ⟨d, behind, by rwa [same.dead]⟩
        have alive₂ : s₂.dead c = false := by rwa [same.dead]
        have next₂ := ready₂.reached.level0.memory.next_of_split split₂ alive₂
        rw [next₂] at at₂
        exact ih ready₂ at₂ split₂ alive₂ ahead next₂

/-! ## From inside `extractor` -/

/-- What is behind a node of the chain. -/
theorem Memory.mem_behind (memory : s.Memory) {l₁ l₂ : List Addr}
    (split : head :: s.chain = l₁ ++ p :: l₂) (d : Addr) :
    d ∈ l₂ ↔ d ∈ s.chain ∧ s.rank p < s.rank d := by
  have sorted := memory.sorted
  rw [split, List.pairwise_append, List.pairwise_cons] at sorted
  obtain ⟨-, ⟨behind, -⟩, before⟩ := sorted
  constructor
  · intro member
    have above := behind d member
    have inside : d ∈ head :: s.chain := by rw [split]; simp [member]
    rcases List.mem_cons.1 inside with rfl | inside
    · rw [rank_head] at above
      exact absurd above not_lt_bot
    · exact ⟨inside, above⟩
  · rintro ⟨member, above⟩
    have inside : d ∈ l₁ ++ p :: l₂ := split ▸ List.mem_cons_of_mem head member
    rcases List.mem_append.1 inside with first | rest
    · exact absurd (before d first p List.mem_cons_self) (lt_asymm above)
    · rcases List.mem_cons.1 rest with rfl | rest
      · exact absurd above (lt_irrefl _)
      · exact rest

/-- The thread ends its call if no dead node is behind `a`, and spins otherwise. -/
def Settles (s : State T Key Value) (t : T) (a : Addr) : Prop :=
  Leads (fun s => s.step t) s fun s' =>
    ((s'.pc t).isIdle = true ∧ s.Unblocked a) ∨ (s'.Spins t ∧ ¬ s.Unblocked a)

theorem Same.retreat (same : s.Same s') : s'.retreat p = s.retreat p := by
  unfold State.retreat
  rw [same.dead]

theorem Same.advance (same : s.Same s') : s'.advance p c = s.advance p c := by
  unfold State.advance
  rw [same.dead, same.retreat]

theorem Same.unblocked {a : Addr} (same : s.Same s') : s'.Unblocked a ↔ s.Unblocked a := by
  unfold Unblocked rank State.key
  rw [same.nodes.chain, same.dead, same.nodes.node]

theorem Settles.of_same {a : Addr} (same : s.Same q) (settles : q.Settles t a) :
    Leads (fun s => s.step t) q fun s' =>
      ((s'.pc t).isIdle = true ∧ s.Unblocked a) ∨ (s'.Spins t ∧ ¬ s.Unblocked a) := by
  refine Leads.imp settles ?_
  rintro s' (⟨idle, clear⟩ | ⟨spins, blocked⟩)
  · exact .inl ⟨idle, same.unblocked.1 clear⟩
  · exact .inr ⟨spins, fun clear => blocked (same.unblocked.2 clear)⟩

theorem Ready.loop_settles (ready : s.Ready t) (shared : s.Public p) (alive : s.dead p = false)
    (at_ : s.pc t = itemsLoop what ret (.node p) ((s.node p).next 0)) : s.Settles t p := by
  have memory := ready.reached.level0.memory
  obtain ⟨l₁, l₂, split⟩ := List.append_of_mem (memory.onChain shared alive)
  by_cases clear : s.Unblocked p
  · have behind : ∀ a ∈ p :: l₂, s.dead a = false := by
      intro a member
      rcases List.mem_cons.1 member with rfl | member
      · exact alive
      · obtain ⟨inside, above⟩ := (memory.mem_behind split a).1 member
        exact clear a inside above
    refine Leads.imp (ready.collects at_ split behind) ?_
    rintro s' ⟨-, -, idle, -⟩
    exact .inl ⟨idle, clear⟩
  · have someDead : ∃ d ∈ l₂, s.dead d = true := by
      by_contra none
      refine clear fun d inside above => ?_
      by_contra isDead
      exact none ⟨d, (memory.mem_behind split d).2 ⟨inside, above⟩, by simpa using isDead⟩
    exact (ready.spins at_ split alive someDead).imp fun s' spins => .inr ⟨spins, clear⟩

theorem Ready.start_settles (ready : s.Ready t) (at_ : s.pc t = .itemsCur what ret) :
    s.Settles t head := by
  refine ready.reads (solo_call at_ rfl) fun s₁ ready₁ same₁ at₁ => ?_
  have atLoop : s₁.pc t = itemsLoop what ret (.node head) ((s₁.node head).next 0) := by
    rw [same₁.nodes.node]
    exact at₁
  have alive := ready₁.reached.level0.memory.headAlive
  exact (ready₁.loop_settles (.inl rfl) alive atLoop).of_same same₁

/-- The node that the loop has come to is not dead. -/
theorem Ready.alive_settles (ready : s.Ready t) (at_ : s.pc t = .itemsNext what ret p c)
    (alive : s.dead c = false) : s.Settles t c := by
  have here := ready.reached.level0.here t
  rw [at_] at here
  refine ready.passes at_ alive fun s₁ ready₁ same₁ at₁ => ?_
  have shared₁ : s₁.Public c := .inr (by rw [same₁.nodes.linked]; exact here.2)
  have alive₁ : s₁.dead c = false := by rwa [same₁.dead]
  exact (ready₁.loop_settles shared₁ alive₁ at₁).of_same same₁

theorem Ready.again_settles (ready : s.Ready t) (at_ : s.pc t = .itemsAgain what ret p) :
    s.Settles t (s.retreat p) := by
  have memory := ready.reached.level0.memory
  have here := ready.reached.level0.here t
  rw [at_] at here
  unfold retreat
  by_cases isDead : s.dead p = true
  · rw [if_pos isDead]
    have goes : s.solo t = some (.none, .goto (.itemsCur what ret)) := by
      rw [solo_call at_ rfl]
      have marked : (s.cell (p, 0)).marked0 = true := isDead
      cases load : s.cell (p, 0) <;> rw [load] at marked <;> simp only [reply, load] <;>
        first | rfl | cases marked
    refine ready.reads goes fun s₁ ready₁ same₁ at₁ => ?_
    exact (ready₁.start_settles at₁).of_same same₁
  · rw [if_neg isDead]
    have alive : s.dead p = false := by simpa using isDead
    obtain ⟨l₁, l₂, split⟩ := List.append_of_mem (memory.onChain here alive)
    have next := memory.next_of_split split alive
    cases l₂ with
    | nil =>
        have goes : s.solo t = some (.none, .goto (.itemsSetPrev what ret .null .null)) := by
          rw [solo_call at_ rfl]
          simp only [reply, cell, next]
          rfl
        have clear : s.Unblocked p := fun d inside above =>
          (List.not_mem_nil ((memory.mem_behind split d).2 ⟨inside, above⟩)).elim
        refine ready.reads goes fun s₁ ready₁ same₁ at₁ => ?_
        refine ready₁.reads (solo_call at₁ rfl) fun s₂ ready₂ same₂ at₂ => ?_
        refine ready₂.reads (solo_call at₂ rfl) fun s₃ ready₃ same₃ at₃ => ?_
        exact (ready₃.ends_items at₃).finishes.imp fun s' idle => .inl ⟨idle, clear⟩
    | cons c l₃ =>
        have goes : s.solo t = some (.none, .goto (.itemsNext what ret p c)) := by
          rw [solo_call at_ rfl]
          simp only [reply, cell, next]
          rfl
        have behind : c ∈ s.chain ∧ s.rank p < s.rank c :=
          (memory.mem_behind split c).1 List.mem_cons_self
        refine ready.reads goes fun s₁ ready₁ same₁ at₁ => ?_
        by_cases cIsDead : s.dead c = true
        · refine Theory.leads_here (.inr ⟨⟨ready₁.reached, what, ret, p, c, .inl at₁, ?_, ?_⟩, ?_⟩)
          · rw [same₁.nodes.node]
            exact next
          · rwa [same₁.dead]
          · intro clear
            rw [clear c behind.1 behind.2] at cIsDead
            cases cIsDead
        · have aliveC : s.dead c = false := by simpa using cIsDead
          have settles : Leads (fun s => s.step t) s₁ fun s' =>
              ((s'.pc t).isIdle = true ∧ s.Unblocked c) ∨ (s'.Spins t ∧ ¬ s.Unblocked c) :=
            (ready₁.alive_settles at₁ (by rwa [same₁.dead])).of_same same₁
          have same : s.Unblocked c ↔ s.Unblocked p := by
            constructor
            · intro clear d inside above
              rcases List.mem_cons.1 ((memory.mem_behind split d).2 ⟨inside, above⟩) with rfl | rest
              · exact aliveC
              · have split' : head :: s.chain = (l₁ ++ [p]) ++ c :: l₃ := by rw [split]; simp
                obtain ⟨-, above'⟩ := (memory.mem_behind split' d).1 rest
                exact clear d inside above'
            · exact fun clear d inside above => clear d inside (behind.2.trans above)
          rwa [same] at settles

theorem Ready.next_settles (ready : s.Ready t) (at_ : s.pc t = .itemsNext what ret p c) :
    s.Settles t (s.advance p c) := by
  unfold advance
  by_cases isDead : s.dead c = true
  · rw [if_pos isDead]
    refine ready.reloads at_ isDead fun s₁ ready₁ same₁ at₁ => ?_
    rw [← same₁.retreat]
    exact (ready₁.again_settles at₁).of_same same₁
  · rw [if_neg isDead]
    exact ready.alive_settles at_ (by simpa using isDead)

theorem Ready.read_settles (ready : s.Ready t) (at_ : s.pc t = .itemsRead what ret p c) :
    s.Settles t (s.advance p c) := by
  refine ready.reads (solo_plan at_ rfl) fun s₁ ready₁ same₁ at₁ => ?_
  rw [← same₁.advance]
  exact (ready₁.next_settles at₁).of_same same₁

theorem Ready.setCur_settles (ready : s.Ready t)
    (at_ : s.pc t = .itemsSetCur what ret (.node p) (.node c)) :
    s.Settles t (s.advance p c) := by
  refine ready.reads (solo_call at_ rfl) fun s₁ ready₁ same₁ at₁ => ?_
  rw [← same₁.advance]
  exact (ready₁.read_settles at₁).of_same same₁

theorem Ready.setPrev_settles (ready : s.Ready t)
    (at_ : s.pc t = .itemsSetPrev what ret (.node p) (.node c)) :
    s.Settles t (s.advance p c) := by
  refine ready.reads (solo_call at_ rfl) fun s₁ ready₁ same₁ at₁ => ?_
  rw [← same₁.advance]
  exact (ready₁.setCur_settles at₁).of_same same₁

/-! ## From every state -/

theorem Reached.ready (reached : s.Reached)
    (other : ∀ f i prev cur, s.pc t ≠ .findNext f i prev cur) : s.Ready t :=
  ⟨reached, fun f i prev cur at_ => absurd at_ (other f i prev cur)⟩

theorem Reached.settles {a : Addr} (reached : s.Reached)
    (resumes : s.resumesAt (s.pc t) = some a) : s.Settles t a := by
  have ready : s.Ready t := by
    refine reached.ready fun f i prev cur at_ => ?_
    rw [at_] at resumes
    cases resumes
  cases at_ : s.pc t with
  | acquire start =>
      rw [at_] at resumes
      cases start with
      | items what =>
          cases resumes
          refine ready.reads (solo_call at_ rfl) fun s₁ ready₁ same₁ at₁ => ?_
          exact (ready₁.start_settles at₁).of_same same₁
      | _ => cases resumes
  | itemsCur what ret =>
      rw [at_] at resumes
      cases resumes
      exact ready.start_settles at_
  | itemsRead what ret prev cur =>
      rw [at_] at resumes
      cases resumes
      exact ready.read_settles at_
  | itemsNext what ret prev cur =>
      rw [at_] at resumes
      cases resumes
      exact ready.next_settles at_
  | itemsAgain what ret prev =>
      rw [at_] at resumes
      cases resumes
      exact ready.again_settles at_
  | itemsSetPrev what ret prev next =>
      rw [at_] at resumes
      cases prev <;> cases next <;> cases resumes
      exact ready.setPrev_settles at_
  | itemsSetCur what ret prev cur =>
      rw [at_] at resumes
      cases prev <;> cases cur <;> cases resumes
      exact ready.setCur_settles at_
  | _ =>
      rw [at_] at resumes
      cases resumes

/-- `extractor` at the end of the chain. -/
theorem Ready.end_finishes {prev next : Ptr} (ready : s.Ready t)
    (at_ : s.pc t = .itemsSetPrev what ret prev next ∨ s.pc t = .itemsSetCur what ret prev next)
    (other : s.resumesAt (s.pc t) = none) : s.Finishes t := by
  have here := ready.reached.level0.here t
  obtain rfl : next = .null := by
    rcases at_ with at_ | at_
    all_goals
      rw [at_] at here other
      obtain ⟨first, second, both⟩ := here
      cases next with
      | null => rfl
      | node c =>
          cases prev with
          | null => exact both rfl
          | node a => cases other
          | markedNull | marked a => exact first.elim
      | markedNull | marked c => exact second.elim
  have last : ∀ s : State T Key Value, s.Ready t → s.pc t = .itemsSetCur what ret prev .null →
      s.Finishes t := fun s ready at_ =>
    ready.reads (solo_call at_ rfl) fun _ ready₁ _ at₁ => (ready₁.ends_items at₁).finishes
  rcases at_ with at_ | at_
  · exact ready.reads (solo_call at_ rfl) fun s₁ ready₁ _ at₁ => last s₁ ready₁ at₁
  · exact last s ready at_

theorem Reached.finishes (reached : s.Reached) (other : s.resumesAt (s.pc t) = none) :
    s.Finishes t := by
  by_cases stopped : ∃ f i prev cur, s.pc t = .findNext f i prev cur
  · obtain ⟨f, i, prev, cur, at_⟩ := stopped
    exact reached.next_finishes at_
  have ready : s.Ready t :=
    reached.ready fun f i prev cur at_ => stopped ⟨f, i, prev, cur, at_⟩
  have here := reached.level0.here t
  cases at_ : s.pc t <;> rw [at_] at here other
  case idle => exact Theory.leads_here (by rw [at_]; rfl)
  case acquire start =>
      cases start with
      | find f => exact ready.finding_finishes (f := f) (by rw [at_]; rfl)
      | first => exact ready.reads (solo_call at_ rfl) fun _ ready₁ _ at₁ => (ready₁.reads_first at₁).finishes
      | items what => cases other
  case findValue cur => exact (ready.reads_value at_).finishes
  case eraseHeight key cur =>
      refine (ready.erases at_).bind ?_
      rintro s₁ ⟨ready₁, -, at₁⟩
      exact ready₁.head_finishes at₁
  case eraseLoad key cur i m =>
      obtain ⟨-, -, rfl⟩ := here
      exact ready.load_finishes at_
  case eraseMark key cur i nexti m =>
      obtain ⟨-, -, rfl⟩ := here
      exact ready.mark_finishes at_
  case insertLevel key value level => exact ready.level_finishes at_
  case insertHazard key level n prev cur => exact ready.hazard_finishes at_
  case insertCount key level n prev cur => exact ready.count_finishes at_
  case insertStore key level n prev cur => exact ready.store_finishes at_
  case insertLink key level n prev cur => exact ready.link_finishes at_
  case insertOverage key level n => exact (ready.linked at_).finishes
  case indexCur x i prev =>
      obtain ⟨-, rfl, inside⟩ := here
      obtain ⟨j, rfl⟩ := Nat.exists_eq_succ_of_ne_zero inside
      exact (ready.indexes (x := x) (i := j + 1) at_).finishes
  case insertDrop n overage => exact (ready.drops at_).finishes
  case insertRetire n => exact (ready.retires_new at_).finishes
  case firstCur => exact (ready.reads_first at_).finishes
  case firstKey cur => exact (ready.reads_key at_).finishes
  case itemsSetPrev what ret prev next =>
      exact ready.end_finishes (.inl at_) (by rw [at_]; exact other)
  case itemsSetCur what ret prev cur =>
      exact ready.end_finishes (.inr at_) (by rw [at_]; exact other)
  case clear k last leave => exact (ready.clears at_).finishes
  case free n => exact (ready.frees at_).finishes
  case exiting => exact (ready.leaves (r := .exit) (solo_call at_ rfl)).finishes
  case itemsCur | itemsRead | itemsNext | itemsAgain => cases other
  case indexKey | indexNext | indexPrev | indexSetPrev | indexSetCur | indexStore | indexLink
    | indexDead | fault => exact here.elim
  all_goals exact ready.finding_finishes (by rw [at_]; rfl)

/-! ## When a call ends -/

/-- A thread outside the map takes no step. -/
theorem Reached.halts (reached : s.Reached) (idle : (s.pc t).isIdle = true) : s.step t = none := by
  have at_ : s.pc t = .idle := by
    cases at_ : s.pc t <;> rw [at_] at idle <;> first | rfl | cases idle
  have outside := reached.level0.synced t
  rw [at_] at outside
  have outside : s.sys.pc t = .idle := outside
  unfold State.step Hazard.Sys.step
  rw [outside, at_]
  rfl

/-- The thread `t` runs alone, for at most `n` steps, up to the end of its call. -/
def alone (s : State T Key Value) (t : T) (n : Nat) : Option (State T Key Value) :=
  Theory.runUntil (fun s => s.step t) (fun s => (s.pc t).isIdle) n s

theorem Reached.alone_leads {Q : State T Key Value → Prop} (reached : s.Reached)
    (leads : Leads (fun s => s.step t) s fun s' => (s'.pc t).isIdle = true ∧ Q s') :
    ∃ n s', s.alone t n = some s' ∧ Q s' :=
  leads.ends (fun _ _ before taken => Reached.step before taken)
    (fun _ before idle => Reached.halts before idle) reached

theorem Reached.alone_ends (reached : s.Reached) (finishes : s.Finishes t) :
    ∃ n s', s.alone t n = some s' := by
  have leads : Leads (fun s => s.step t) s fun s' => (s'.pc t).isIdle = true ∧ True :=
    Leads.imp finishes fun _ idle => ⟨idle, trivial⟩
  obtain ⟨n, s', ended, -⟩ := reached.alone_leads leads
  exact ⟨n, s', ended⟩

theorem Reached.alone_spins {a : Addr} (reached : s.Reached)
    (resumes : s.resumesAt (s.pc t) = some a) (blocked : ¬ s.Unblocked a) (n : Nat)
    (s' : State T Key Value) : s.alone t n ≠ some s' := by
  have leads : Leads (fun s => s.step t) s fun s' => s'.Spins t := by
    refine Leads.imp (reached.settles resumes) ?_
    rintro s' (⟨-, unblocked⟩ | ⟨spins, -⟩)
    · exact absurd unblocked blocked
    · exact spins
  exact leads.trapped (fun _ _ before taken => Reached.step before taken)
    (fun _ before idle => Reached.halts before idle) reached
    (fun _ _ spins taken => spins.step taken) (fun _ spins => spins.busy) n s'

/-- **When a thread that runs alone comes to the end of its call.** In every reachable state,
whatever the other threads are in the middle of: exactly if it is not in `values` or `entries`, or
no dead node is behind the node from which the loop of `extractor` goes on. -/
theorem ends_alone_iff {as : List (Action T Key Value)}
    (ran : Theory.run State.next (init : State T Key Value) as = some s) (t : T) :
    (∃ n s', s.alone t n = some s') ↔
      ∀ a, s.resumesAt (s.pc t) = some a → s.Unblocked a := by
  have reached := reached_run ran
  cases resumes : s.resumesAt (s.pc t) with
  | none => exact ⟨fun _ a at_ => (nomatch at_), fun _ => reached.alone_ends (reached.finishes resumes)⟩
  | some a =>
      constructor
      · rintro ⟨n, s', ended⟩ a' ⟨rfl⟩
        by_contra blocked
        exact reached.alone_spins resumes blocked n s' ended
      · intro unblocked
        refine reached.alone_ends (Leads.imp (reached.settles resumes) ?_)
        rintro s' (⟨idle, -⟩ | ⟨-, blocked⟩)
        · exact idle
        · exact absurd (unblocked a rfl) blocked

/-- Thread 1 has marked the only node and is stopped in front of its second `find`; then thread 0
calls `values`. -/
def stoppedErase : List (Action (Fin 2) Nat Nat) :=
  Action.call 0 (.insert 1 10 0) :: List.replicate 21 (.step 0) ++
    Action.call 1 (.erase 1) :: List.replicate 21 (.step 1) ++ [Action.call 0 (.extract .values)]

/-- The stopped `erase` itself would return if it went on. -/
theorem ends_alone_iff_erase : ∃ s : State (Fin 2) Nat Nat,
    Theory.run State.next State.init stoppedErase = some s ∧ ∃ n s', s.alone 1 n = some s' := by
  have played : (Theory.run State.next State.init stoppedErase).map
      (fun s : State (Fin 2) Nat Nat => decide (s.resumesAt (s.pc 1) = none)) = some true := by
    decide +kernel
  obtain ⟨s, ran, checked⟩ := Option.map_eq_some_iff.1 played
  have other := of_decide_eq_true checked
  exact ⟨s, ran, (ends_alone_iff ran 1).2 fun a at_ => by rw [other] at at_; cases at_⟩

/-- `values` loads the marked node for ever. -/
theorem values_never_ends : ∃ s : State (Fin 2) Nat Nat,
    Theory.run State.next State.init stoppedErase = some s ∧ s.pc 0 = .itemsCur .values [] ∧
    ∀ n s', s.alone 0 n ≠ some s' := by
  have played : (Theory.run State.next State.init stoppedErase).map
      (fun s : State (Fin 2) Nat Nat => decide (s.pc 0 = .itemsCur .values [] ∧ s.chain = [1] ∧
        s.dead 1 = true ∧ s.rank head < s.rank 1)) = some true := by
    decide +kernel
  obtain ⟨s, ran, checked⟩ := Option.map_eq_some_iff.1 played
  obtain ⟨at_, chain, isDead, behind⟩ := of_decide_eq_true checked
  have resumes : s.resumesAt (s.pc 0) = some head := by rw [at_]; rfl
  refine ⟨s, ran, at_, (reached_run ran).alone_spins resumes fun unblocked => ?_⟩
  have alive : s.dead 1 = false := unblocked 1 (by rw [chain]; simp) behind
  rw [alive] at isDead
  cases isDead

end State

end Ccmetrics.SkipList
