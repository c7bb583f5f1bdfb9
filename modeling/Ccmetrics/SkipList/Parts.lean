/-
# SkipList.Parts -- the parts of a call, run alone

What a thread that runs alone does from a point of a call up to its return, or up to the next
search: leaving, the end of `find(key)` for each of its callers, the exchanges of `erase` and the
one of `insert`. Each of these leaves the map `Alike`, marks a node (`Marked`) or links one
(`Added`).
-/
import Ccmetrics.SkipList.Walk

namespace Ccmetrics.SkipList

set_option autoImplicit false
set_option linter.unusedSectionVars false

variable {T Key Value : Type} [DecidableEq T] [LinearOrder Key] [Inhabited Key] [Inhabited Value]

/-- What a call returns after its last `clearHazard`. -/
def Leave.result : Leave Key Value → Result Key Value
  | .ret r => r
  | .free _ => .flag false

namespace State

open Theory (Leads)

variable {s s' q : State T Key Value} {t : T} {e : Effect Key Value} {nx : Next Key Value}
variable {Q : State T Key Value → Prop} {pc : PC Key Value}

/-- The chain and what is in its nodes; there may be new nodes off the chain. -/
structure Alike (s s' : State T Key Value) : Prop where
  fresh : s.fresh ≤ s'.fresh
  chain : s'.chain = s.chain
  dead : ∀ a ∈ s.chain, s'.dead a = s.dead a
  key : ∀ a < s.fresh, s'.key a = s.key a
  value : ∀ a < s.fresh, (s'.node a).value = (s.node a).value

theorem SameNodes.alike (same : s.SameNodes s') : s.Alike s' := by
  refine ⟨same.fresh.ge, same.chain, fun a _ => ?_, fun a _ => ?_, fun a _ => by rw [same.node]⟩
  · rw [same.dead]
  · rw [same.key]

theorem Same.alike (same : s.Same s') : s.Alike s' := same.nodes.alike

theorem Alike.trans (first : s.Alike q) (second : q.Alike s') : s.Alike s' := by
  refine ⟨first.fresh.trans second.fresh, second.chain.trans first.chain, fun a member => ?_,
    fun a old => ?_, fun a old => ?_⟩
  · exact (second.dead a (first.chain ▸ member)).trans (first.dead a member)
  · exact (second.key a (old.trans_le first.fresh)).trans (first.key a old)
  · exact (second.value a (old.trans_le first.fresh)).trans (first.value a old)

/-- A write to a node that changes no pointer of the chain. -/
theorem alike_of_node (memory : s.Memory) (write : s.Write e)
    (chain : (s.apply t e).chain = s.chain) (fresh : s.fresh ≤ (s.apply t e).fresh)
    (next : ∀ a ∈ s.chain, ((s.apply t e).node a).next 0 = (s.node a).next 0)
    (value : ∀ a < s.fresh, ((s.apply t e).node a).value = (s.node a).value) :
    s.Alike (s.apply t e) := by
  refine ⟨fresh, chain, fun a member => ?_, (memory.extends_write write).key, value⟩
  unfold State.dead
  rw [next a member]

/-- Dropping a count. -/
theorem alike_drop (memory : s.Memory) {n : Addr} {k : Nat} (isLinked : s.linked n = true) :
    s.Alike (s.apply t (.drop n k)) := by
  have fields : ∀ a, ((s.apply t (.drop n k)).node a).next = (s.node a).next ∧
      ((s.apply t (.drop n k)).node a).value = (s.node a).value := by
    intro a
    by_cases here : a = n <;> simp [apply, modify, here]
  have write : s.Write (.drop n k) := .drop n k isLinked
  exact alike_of_node memory write (memory.write (t := t) write).2 le_rfl
    (fun a _ => by rw [(fields a).1]) fun a _ => (fields a).2

/-- The call of a thread that runs alone returns `r`, and the map is as before. -/
def Ends (s : State T Key Value) (t : T) (r : Result Key Value) : Prop :=
  Leads (fun s => s.step t) s fun s' =>
    s'.Ready t ∧ s.Alike s' ∧ (s'.pc t).isIdle = true ∧ s'.result t = r

theorem Ends.after {r : Result Key Value} (ends : q.Ends t r) (alike : s.Alike q) :
    Leads (fun s => s.step t) q fun s' =>
      s'.Ready t ∧ s.Alike s' ∧ (s'.pc t).isIdle = true ∧ s'.result t = r := by
  refine Leads.imp ends ?_
  rintro s' ⟨ready, alike', idle, result⟩
  exact ⟨ready, alike.trans alike', idle, result⟩

/-- What a node of the chain that is not dead points to. -/
theorem Alike.next (alike : s.Alike s') (memory : s.Memory) (memory' : s'.Memory) {prev : Addr}
    (shared : s.Public prev) (alive : s.dead prev = false) :
    (s'.node prev).next 0 = (s.node prev).next 0 := by
  obtain ⟨l₁, l₂, split⟩ := List.append_of_mem (memory.onChain shared alive)
  have alive' : s'.dead prev = false := by
    rcases shared with rfl | linked
    · exact memory'.headAlive
    · rw [alike.dead prev (memory.live prev linked alive), alive]
  have split' : head :: s'.chain = l₁ ++ prev :: l₂ := by rw [alike.chain, split]
  rw [memory'.next_of_split split' alive', memory.next_of_split split alive]

/-! ## Leaving -/

theorem Ready.frees (ready : s.Ready t) {n : Addr} (at_ : s.pc t = .free n) :
    s.Ends t (.flag false) := by
  refine ready.goes (solo_plan at_ rfl) fun s₁ ready₁ stepped => ?_
  have same₁ : s.Same s₁ :=
    ⟨⟨stepped.node, stepped.linked, stepped.fresh⟩, stepped.height⟩
  refine Theory.leads_here ⟨ready₁, same₁.alike, ?_, stepped.result _ rfl⟩
  rw [stepped.pc]
  rfl

/-- The last calls of `clearHazard`. -/
theorem Ready.clears (ready : s.Ready t) {k last : Nat} {leave : Leave Key Value}
    (at_ : s.pc t = .clear k last leave) : s.Ends t leave.result := by
  have equipped := ready.reached.hazards.equipped t
  rw [at_] at equipped
  obtain ⟨-, inside, -⟩ := equipped
  obtain ⟨more, isLast⟩ := Nat.exists_eq_add_of_le inside
  clear inside
  induction more generalizing s k with
  | zero =>
      have goes : s.solo t = some (.none, if k = last then leave.next
          else .goto (.clear (k + 1) last leave)) := solo_call at_ rfl
      rw [if_pos (by omega)] at goes
      refine ready.goes goes fun s₁ ready₁ stepped => ?_
      cases leave with
      | ret r =>
          refine Theory.leads_here ⟨ready₁, stepped.same.alike, ?_, stepped.result _ rfl⟩
          rw [stepped.pc]
          rfl
      | free n => exact (ready₁.frees stepped.pc).after stepped.same.alike
  | succ more ih =>
      have goes : s.solo t = some (.none, if k = last then leave.next
          else .goto (.clear (k + 1) last leave)) := solo_call at_ rfl
      rw [if_neg (by omega)] at goes
      refine ready.reads goes fun s₁ ready₁ same₁ at₁ => ?_
      exact (ih ready₁ at₁ (by omega)).after same₁.alike

theorem Ready.reads_value (ready : s.Ready t) {cur : Addr} (at_ : s.pc t = .findValue cur) :
    s.Ends t (.value (some (s.node cur).value)) :=
  ready.reads (solo_plan at_ rfl) fun _ ready₁ same₁ at₁ => (ready₁.clears at₁).after same₁.alike

theorem Ready.reads_key (ready : s.Ready t) {cur : Addr} (at_ : s.pc t = .firstKey cur) :
    s.Ends t (.key (s.node cur).key) :=
  ready.reads (solo_plan at_ rfl) fun _ ready₁ same₁ at₁ => (ready₁.clears at₁).after same₁.alike

/-- What `firstKey` returns to a thread that runs alone. -/
theorem Ready.reads_first (ready : s.Ready t) (at_ : s.pc t = .firstCur) :
    s.Ends t (.key (match s.chain with
      | [] => default
      | c :: _ => s.key c)) := by
  have memory := ready.reached.level0.memory
  have split : head :: s.chain = [] ++ head :: s.chain := rfl
  have first := memory.next_of_split split memory.headAlive
  have goes := solo_call at_ rfl
  simp only [reply, cell, first] at goes
  cases chain : s.chain with
  | nil =>
      rw [chain] at goes
      exact ready.reads goes fun s₁ ready₁ same₁ at₁ => (ready₁.clears at₁).after same₁.alike
  | cons c rest =>
      rw [chain] at goes
      refine ready.reads goes fun s₁ ready₁ same₁ at₁ => ?_
      have atKey : s.key c = (s₁.node c).key := by rw [same₁.nodes.node]; rfl
      simp only [atKey]
      exact (ready₁.reads_key at₁).after same₁.alike

/-! ## The end of `insert` -/

theorem Ready.retires_new (ready : s.Ready t) {n : Addr} (at_ : s.pc t = .insertRetire n) :
    s.Ends t (.flag true) :=
  ready.reads (solo_call at_ rfl) fun _ ready₁ same₁ at₁ => (ready₁.clears at₁).after same₁.alike

theorem Ready.drops (ready : s.Ready t) {n : Addr} {overage : Nat}
    (at_ : s.pc t = .insertDrop n overage) : s.Ends t (.flag true) := by
  have memory := ready.reached.level0.memory
  have isLinked : s.linked n = true := by
    have here := ready.reached.level0.here t
    rw [at_] at here
    exact here
  have goes : s.solo t = s.plan t (.insertDrop n overage) := solo_plan at_ rfl
  unfold plan at goes
  by_cases last : countSub (s.node n).linkCount overage = 0
  · simp only [if_pos last] at goes
    refine ready.goes goes fun s₁ ready₁ stepped => ?_
    exact (ready₁.retires_new stepped.pc).after
      ((alike_drop memory isLinked).trans stepped.same.alike)
  · simp only [if_neg last] at goes
    refine ready.goes goes fun s₁ ready₁ stepped => ?_
    exact (ready₁.clears stepped.pc).after
      ((alike_drop memory isLinked).trans stepped.same.alike)

/-- `exit:` of `insert`. -/
theorem Ready.exits (ready : s.Ready t) {x : Index Key} (at_ : s.pc t = indexExit x) :
    s.Ends t (.flag true) := by
  change s.pc t = if 0 < x.overage then .insertDrop x.n x.overage
    else .clear 0 3 (.ret (.flag true)) at at_
  split at at_
  · exact ready.drops at_
  · exact ready.clears at_

/-- The index lists are empty, so `insert` gives up at once. -/
theorem Ready.indexes (ready : s.Ready t) {x : Index Key} {i : Nat}
    (at_ : s.pc t = indexLevel x head i) : s.Ends t (.flag true) := by
  cases i with
  | zero => exact ready.exits at_
  | succ i =>
      have empty : s.cell (head, i + 1) = .markedNull :=
        ready.reached.level0.memory.index head (i + 1) (Nat.succ_pos i)
      have goes : s.solo t = some (.none, .goto (indexExit x)) := by
        rw [solo_call at_ rfl]
        simp only [reply, empty]
        rfl
      exact ready.reads goes fun s₁ ready₁ same₁ at₁ => (ready₁.exits at₁).after same₁.alike

theorem Ready.linked (ready : s.Ready t) {key : Key} {level : Nat} {n : Addr}
    (at_ : s.pc t = .insertOverage key level n) : s.Ends t (.flag true) :=
  ready.reads (solo_plan at_ rfl) fun _ ready₁ same₁ at₁ => (ready₁.indexes at₁).after same₁.alike

/-! ## The end of `find(key)` -/

/-- Whether the node that `find` has ended at has the key. -/
def meets (s : State T Key Value) (k : Key) : Ptr → Bool
  | .node c => decide (s.key c = k)
  | _ => false

/-- The value that `find(key, value)` reads there. -/
def gets (s : State T Key Value) (k : Key) : Ptr → Option Value
  | .node c => if s.key c = k then some (s.node c).value else none
  | _ => none

theorem Ready.matched (ready : s.Ready t) {f : Find Key Value} {prev : Addr} {cur : Ptr}
    (at_ : s.pc t = .findMatch f prev cur) :
    s.solo t = some (s.found f prev cur (s.meets f.key cur)) := by
  have here := ready.reached.level0.here t
  rw [at_] at here
  obtain ⟨-, -, shared, -⟩ := here
  rw [solo_plan at_ rfl]
  cases cur with
  | null | node c => rfl
  | markedNull | marked c => exact shared.elim

theorem Ready.match_exists (ready : s.Ready t) {k : Key} {prev : Addr} {cur : Ptr}
    (at_ : s.pc t = .findMatch ⟨k, .exists_⟩ prev cur) : s.Ends t (.flag (s.meets k cur)) :=
  ready.reads (ready.matched at_) fun _ ready₁ same₁ at₁ => (ready₁.clears at₁).after same₁.alike

theorem Ready.match_again (ready : s.Ready t) {k : Key} {prev c : Addr} {cur : Ptr} {m : Bool}
    (at_ : s.pc t = .findMatch ⟨k, .eraseAgain c m⟩ prev cur) : s.Ends t (.flag m) :=
  ready.reads (ready.matched at_) fun _ ready₁ same₁ at₁ => (ready₁.clears at₁).after same₁.alike

theorem Ready.match_find (ready : s.Ready t) {k : Key} {prev : Addr} {cur : Ptr}
    (at_ : s.pc t = .findMatch ⟨k, .find⟩ prev cur) : s.Ends t (.value (s.gets k cur)) := by
  have goes := ready.matched at_
  cases cur with
  | node c =>
      unfold found meets at goes
      unfold gets
      by_cases same : s.key c = k
      · simp only [same, decide_true] at goes
        simp only [same, if_true]
        refine ready.reads goes fun s₁ ready₁ same₁ at₁ => ?_
        rw [← same₁.nodes.node]
        exact (ready₁.reads_value at₁).after same₁.alike
      · simp only [same, decide_false] at goes
        simp only [same, if_false]
        exact ready.reads goes fun s₁ ready₁ same₁ at₁ => (ready₁.clears at₁).after same₁.alike
  | _ => exact ready.reads goes fun s₁ ready₁ same₁ at₁ => (ready₁.clears at₁).after same₁.alike

/-- An access that leaves the map. -/
theorem Ready.leaves (ready : s.Ready t) {r : Result Key Value}
    (goes : s.solo t = some (.none, .ret r)) : s.Ends t r := by
  refine ready.goes goes fun s₁ ready₁ stepped => ?_
  refine Theory.leads_here ⟨ready₁, stepped.same.alike, ?_, stepped.result _ rfl⟩
  rw [stepped.pc]
  rfl

/-- A call that first gets the thread a record. -/
theorem Ready.enters (ready : s.Ready t) {start : Start Key Value} (at_ : s.pc t = q.enter t start)
    (rest : ∀ s', s'.Ready t → s.Same s' → s'.pc t = start.pc → Leads (fun s => s.step t) s' Q) :
    Leads (fun s => s.step t) s Q := by
  unfold enter at at_
  split at at_
  · exact rest s ready (.refl s) at_
  · exact ready.reads (solo_call at_ rfl) rest

/-! ## The exchanges of `erase` -/

/-- The node `c` has been marked on some levels, on level 0 if `bottom`. -/
structure Marked (s s' : State T Key Value) (c : Addr) (bottom : Bool) : Prop where
  chain : s'.chain = s.chain
  dead : ∀ a, s'.dead a = (decide (a = c) && bottom || s.dead a)
  key : s'.key = s.key
  value : ∀ a, (s'.node a).value = (s.node a).value

theorem Same.marked {c : Addr} (same : s.Same s') : s.Marked s' c false := by
  refine ⟨same.nodes.chain, fun a => ?_, same.key, fun a => by rw [same.nodes.node]⟩
  rw [Bool.and_false, Bool.false_or, same.dead]

theorem Marked.trans {c : Addr} {b b' : Bool} (first : s.Marked q c b) (second : q.Marked s' c b') :
    s.Marked s' c (b' || b) := by
  refine ⟨second.chain.trans first.chain, fun a => ?_, second.key.trans first.key,
    fun a => (second.value a).trans (first.value a)⟩
  rw [second.dead, first.dead]
  cases decide (a = c) <;> cases b' <;> simp

/-- An exchange on level `i`; above level 0 it writes the marked null that is there. -/
theorem marked_apply (memory : s.Memory) {c : Addr} {i : Nat} (isLinked : s.linked c = true) :
    s.Marked (s.apply t (.mark c i ((s.node c).next i))) c (decide (i = 0)) := by
  obtain ⟨node, -, -⟩ := apply_mark (s := s) (t := t) c i ((s.node c).next i)
  refine ⟨(memory.write (t := t) (.mark c i isLinked)).2, fun a => ?_, key_of_node node, fun a => ?_⟩
  · unfold State.dead
    rw [node, setNext_next]
    by_cases here : a = c
    · by_cases bottom : i = 0
      · subst bottom
        simp [here]
      · simp [here, bottom, Ne.symm bottom]
    · simp [here]
  · rw [node]
    by_cases here : a = c <;> simp [setNext, modify, here]

/-- One level. -/
theorem Ready.marks_level (ready : s.Ready t) {key : Key} {c : Addr} {i : Nat}
    (at_ : s.pc t = .eraseLoad key c i false) :
    Leads (fun s => s.step t) s fun s' => s'.Ready t ∧ s.Marked s' c (decide (i = 0)) ∧
      ∃ q : State T Key Value, s'.pc t = q.eraseDown t key c i (decide (i = 0) && !s.dead c) := by
  refine ready.reads (solo_plan at_ rfl) fun s₁ ready₁ same₁ at₁ => ?_
  rw [← same₁.nodes.node] at at₁
  have isLinked : s₁.linked c = true := by
    have here := ready₁.reached.level0.here t
    rw [at₁] at here
    exact here.1
  have goes := solo_plan at₁ rfl
  simp only [plan, if_true] at goes
  refine ready₁.goes goes fun s₂ ready₂ stepped => ?_
  have marked : s.Marked s₂ c (decide (i = 0)) := by
    have applied := (marked_apply (t := t) (i := i) ready₁.reached.level0.memory isLinked).trans
      stepped.same.marked
    have all := same₁.marked.trans applied
    rwa [Bool.false_or, Bool.or_false] at all
  refine Theory.leads_here ⟨ready₂, marked, s₁, ?_⟩
  have flag : (if i = 0 ∧ (s₁.node c).next i = ((s₁.node c).next i).clear then true else false) =
      (decide (i = 0) && !s.dead c) := by
    unfold State.dead
    rw [same₁.nodes.node]
    by_cases bottom : i = 0
    · subst bottom
      cases clean : ((s.node c).next 0).marked0 with
      | false => rw [if_pos ⟨rfl, (Ptr.eq_clear_iff _).2 clean⟩]; rfl
      | true =>
          have changes : ¬ (s.node c).next 0 = ((s.node c).next 0).clear := by
            rw [Ptr.eq_clear_iff, clean]
            decide
          rw [if_neg fun both => changes both.2]
          rfl
    · rw [if_neg fun both => bottom both.1, decide_eq_false bottom]
      rfl
  rw [← flag]
  exact stepped.pc

/-- `erase` marks the levels of a node from the top down, and searches again. -/
theorem Ready.marks (ready : s.Ready t) {key : Key} {c : Addr} {i : Nat}
    (at_ : s.pc t = .eraseLoad key c i false) :
    Leads (fun s => s.step t) s fun s' => s'.Ready t ∧ s.Marked s' c true ∧
      s'.pc t = .findHead ⟨key, .eraseAgain c (!s.dead c)⟩ := by
  induction i generalizing s with
  | zero =>
      refine (ready.marks_level at_).bind ?_
      rintro s₁ ⟨ready₁, marked₁, q, at₁⟩
      have at₁ : s₁.pc t = q.enter t (.find ⟨key, .eraseAgain c (!s.dead c)⟩) := at₁
      refine ready₁.enters at₁ fun s₂ ready₂ same₂ at₂ => ?_
      exact Theory.leads_here ⟨ready₂, marked₁.trans same₂.marked, at₂⟩
  | succ i ih =>
      refine (ready.marks_level at_).bind ?_
      rintro s₁ ⟨ready₁, marked₁, q, at₁⟩
      have atNext : s₁.pc t = .eraseLoad key c i false := at₁
      refine (ih ready₁ atNext).imp ?_
      rintro s₂ ⟨ready₂, marked₂, at₂⟩
      have same : s₁.dead c = s.dead c := by simpa using marked₁.dead c
      exact ⟨ready₂, marked₁.trans marked₂, same ▸ at₂⟩

theorem Ready.erases (ready : s.Ready t) {key : Key} {c : Addr}
    (at_ : s.pc t = .eraseHeight key c) :
    Leads (fun s => s.step t) s fun s' => s'.Ready t ∧ s.Marked s' c true ∧
      s'.pc t = .findHead ⟨key, .eraseAgain c (!s.dead c)⟩ := by
  have tall := ready.reached.level0.tall c
  have goes : s.solo t = s.plan t (.eraseHeight key c) := solo_plan at_ rfl
  unfold plan at goes
  cases height : (s.node c).height with
  | zero => omega
  | succ i =>
      simp only [height] at goes
      refine ready.reads goes fun s₁ ready₁ same₁ at₁ => ?_
      refine (ready₁.marks at₁).imp ?_
      rintro s₂ ⟨ready₂, marked₂, at₂⟩
      exact ⟨ready₂, by simpa using same₁.marked.trans marked₂, same₁.dead ▸ at₂⟩

/-! ## The exchange of `insert` -/

/-- The node `n` has been linked. -/
structure Added (s s' : State T Key Value) (n : Addr) : Prop where
  isNew : n ∉ s.chain
  chain : ∀ a, a ∈ s'.chain ↔ a = n ∨ a ∈ s.chain
  dead : ∀ a ∈ s'.chain, s'.dead a = (decide (a ≠ n) && s.dead a)
  key : ∀ a ∈ s'.chain, s'.key a = s.key a
  value : ∀ a ∈ s'.chain, (s'.node a).value = (s.node a).value

/-- Private nodes are off the chain. -/
theorem Private.off (memory : s.Memory) {n : Addr} {k : Key} (mine : s.Private n k) :
    n ∉ s.chain := by
  intro member
  have linked := memory.member n member
  rw [mine.new] at linked
  cases linked

theorem Ready.stores (ready : s.Ready t) {key : Key} {level : Nat} {n prev : Addr} {cur : Ptr}
    (at_ : s.pc t = .insertStore key level n prev cur) :
    Leads (fun s => s.step t) s fun s' => s'.Ready t ∧ s.Alike s' ∧
      s'.pc t = .insertLink key level n prev cur := by
  have memory := ready.reached.level0.memory
  have here := ready.reached.level0.here t
  rw [at_] at here
  obtain ⟨mine, -, -⟩ := here
  have write : s.Write (.store n 0 cur) := .store n key cur mine
  refine ready.goes (solo_plan at_ rfl) fun s₁ ready₁ stepped => ?_
  refine Theory.leads_here ⟨ready₁, Alike.trans ?_ stepped.same.alike, stepped.pc⟩
  refine alike_of_node memory write (memory.write (t := t) write).2 le_rfl (fun a member => ?_)
    fun a _ => ?_
  · have other : a ≠ n := by
      rintro rfl
      exact mine.off memory member
    simp [apply, other]
  · by_cases same : a = n <;> simp [apply, setNext, modify, same]

theorem Ready.builds (ready : s.Ready t) {key : Key} {level : Nat} {n prev : Addr} {cur : Ptr}
    (at_ : s.pc t = .insertHazard key level n prev cur) :
    Leads (fun s => s.step t) s fun s' => s'.Ready t ∧ s.Alike s' ∧
      s'.pc t = .insertLink key level n prev cur := by
  refine ready.reads (solo_call at_ rfl) fun s₁ ready₁ same₁ at₁ => ?_
  have memory₁ := ready₁.reached.level0.memory
  have here₁ := ready₁.reached.level0.here t
  rw [at₁] at here₁
  obtain ⟨mine₁, -, -⟩ := here₁
  have write : s₁.Write (.count n) := .count n key mine₁
  refine ready₁.goes (solo_plan at₁ rfl) fun s₂ ready₂ stepped₂ => ?_
  have counted : s₁.Alike (s₁.apply t (.count n)) := by
    refine alike_of_node memory₁ write (memory₁.write (t := t) write).2 le_rfl (fun a _ => ?_)
      fun a _ => ?_
    all_goals by_cases same : a = n <;> simp [apply, modify, same]
  refine (ready₂.stores stepped₂.pc).imp ?_
  rintro s₃ ⟨ready₃, alike₃, at₃⟩
  exact ⟨ready₃, same₁.alike.trans (counted.trans (stepped₂.same.alike.trans alike₃)), at₃⟩

/-- The exchange that links the new node. -/
theorem added_apply (memory : s.Memory) {prev n : Addr} {k : Key} (mine : s.Private n k)
    (write : s.Write (.link prev n)) (alive : s.dead n = false) (clean : s.dead prev = false) :
    s.Added (s.apply t (.link prev n)) n := by
  obtain ⟨node, -, -⟩ := apply_link (s := s) (t := t) prev n
  have chain : ∀ a, a ∈ (s.apply t (.link prev n)).chain ↔ a = n ∨ a ∈ s.chain :=
    (memory.write (t := t) write).2
  refine ⟨mine.off memory, chain, fun a member => ?_, fun a _ => ?_, fun a _ => ?_⟩
  · have after : (s.apply t (.link prev n)).dead a = (decide (a ≠ prev) && s.dead a) := by
      unfold State.dead
      rw [node, setNext_next]
      by_cases isPrev : a = prev
      · simp only [isPrev, and_self, if_true, ne_eq, not_true, decide_false, Bool.false_and]
        rfl
      · simp [isPrev]
    rw [after]
    by_cases isPrev : a = prev
    · rw [isPrev, clean, Bool.and_false, Bool.and_false]
    · by_cases isNew : a = n
      · rw [isNew, alive, Bool.and_false, Bool.and_false]
      · simp [isPrev, isNew]
  · rw [key_of_node node]
  · rw [node]
    by_cases isPrev : a = prev <;> simp [setNext, modify, isPrev]

theorem Ready.links (ready : s.Ready t) {key : Key} {level : Nat} {n prev : Addr} {cur : Ptr}
    (at_ : s.pc t = .insertLink key level n prev cur) (points : (s.node prev).next 0 = cur) :
    Leads (fun s => s.step t) s fun s' =>
      s'.Ready t ∧ s.Added s' n ∧ (s'.pc t).isIdle = true ∧ s'.result t = .flag true := by
  have memory := ready.reached.level0.memory
  have here := ready.reached.level0.here t
  rw [at_] at here
  obtain ⟨mine, before, behind, stored⟩ := here
  have write : s.Write (.link prev n) :=
    .link prev n key mine before (points ▸ behind) (stored.trans points.symm)
  have goes : s.solo t = some (.link prev n, .goto (.insertOverage key level n)) := by
    rw [solo_plan at_ rfl]
    exact if_pos points
  refine ready.goes goes fun s₁ ready₁ stepped => ?_
  have alive : s.dead n = false := alive_of_next stored behind.alive
  have clean : s.dead prev = false := alive_of_next points behind.alive
  have added := added_apply (t := t) memory mine write alive clean
  refine (ready₁.linked stepped.pc).imp ?_
  rintro s₂ ⟨ready₂, alike₂, idle, result⟩
  have same := stepped.same.alike.trans alike₂
  have memory₁ := (memory.write (t := t) write).1
  refine ⟨ready₂, ⟨added.isNew, fun a => ?_, fun a member => ?_, fun a member => ?_,
    fun a member => ?_⟩, idle, result⟩
  · rw [same.chain, added.chain]
  all_goals
    rw [same.chain] at member
    have old := (memory₁.known a (memory₁.member a member)).2
  · rw [same.dead a member, added.dead a member]
  · rw [same.key a old, added.key a member]
  · rw [same.value a old, added.value a member]

end State

end Ccmetrics.SkipList
