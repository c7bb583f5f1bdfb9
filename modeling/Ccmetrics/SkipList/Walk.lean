/-
# SkipList.Walk -- `find(key)` run alone from its start

The index lists are empty, so `find` goes down to level 0 at `head_` and walks along the chain.
It stops at the first node that is dead or whose key is not below the one it looks for. An
unmarked node there is `cur`; a dead one is unlinked, and then `find` gives up with the null
pointer (`Landed`).
-/
import Ccmetrics.SkipList.Alone

namespace Ccmetrics.SkipList

set_option autoImplicit false
set_option linter.unusedSectionVars false

variable {T Key Value : Type} [DecidableEq T] [LinearOrder Key] [Inhabited Key] [Inhabited Value]

/-- The pointer to the first node of a chain. -/
def Ptr.toFirst : List Addr → Ptr
  | [] => .null
  | b :: _ => .node b

namespace State

open Theory (Leads)

variable {s s' q : State T Key Value} {t : T} {e : Effect Key Value} {nx : Next Key Value}
variable {Q : State T Key Value → Prop} {pc : PC Key Value}

/-! ## Where a thread goes on -/

theorem solo_call {c : Hazard.Call Ptr (Addr × Nat)} (at_ : s.pc t = pc) (calls : pc.call = some c) :
    s.solo t = some (.none, resume pc (s.reply c)) := by
  unfold solo
  rw [at_, calls]

theorem solo_plan (at_ : s.pc t = pc) (outside : pc.call = none) : s.solo t = s.plan t pc := by
  unfold solo
  rw [at_, outside]

/-- The chain with `head_` in front, split at a node that is not dead. -/
theorem Memory.next_of_split (memory : s.Memory) {a : Addr} {l₁ l₂ : List Addr}
    (split : head :: s.chain = l₁ ++ a :: l₂) (alive : s.dead a = false) :
    (s.node a).next 0 = Ptr.toFirst l₂ := by
  have chained := memory.chained
  rw [split] at chained
  have first : ((s.node a).next 0).target = l₂.head? := Theory.Chain.linked_next chained
  unfold dead at alive
  cases points : (s.node a).next 0 <;> rw [points] at first alive
  case null => cases l₂ <;> first | rfl | cases first
  case node b =>
      cases l₂ with
      | nil => cases first
      | cons c rest => cases first; rfl
  all_goals cases alive

/-! ## A dead node is unlinked -/

/-- The dead node `c` has been taken off the chain. -/
structure Unlinked (s s' : State T Key Value) (c : Addr) : Prop where
  member : c ∈ s.chain
  wasDead : s.dead c = true
  chain : ∀ a, a ∈ s'.chain ↔ a ∈ s.chain ∧ a ≠ c
  dead : ∀ a, s'.dead a = s.dead a
  key : s'.key = s.key
  value : ∀ a, (s'.node a).value = (s.node a).value
  height : s'.height = s.height

theorem Unlinked.of_same {c : Addr} (same : s.Same q) (unlinked : q.Unlinked s' c) :
    s.Unlinked s' c := by
  have chain := same.nodes.chain
  obtain ⟨member, wasDead, after, dead, key, value, height⟩ := unlinked
  exact ⟨chain ▸ member, same.dead ▸ wasDead, fun a => by rw [after, chain],
    fun a => by rw [dead, same.dead], key.trans same.key, fun a => by rw [value, same.nodes.node],
    height.trans same.height⟩

theorem Unlinked.same {c : Addr} (unlinked : s.Unlinked q c) (same : q.Same s') :
    s.Unlinked s' c := by
  obtain ⟨member, wasDead, after, dead, key, value, height⟩ := unlinked
  exact ⟨member, wasDead, fun a => by rw [same.nodes.chain, after], fun a => by rw [same.dead, dead],
    same.key.trans key, fun a => by rw [same.nodes.node, value], same.height.trans height⟩

/-- The exchange of `find` that unlinks a dead node. -/
theorem unlinked_apply (memory : s.Memory) {prev c : Addr} (shared : s.Public prev)
    (points : (s.node prev).next 0 = .node c) (isDead : s.dead c = true) :
    s.Unlinked (s.apply t (.unlink prev 0 ((s.node c).next 0).clear)) c := by
  have alive : s.dead prev = false := alive_of_next points rfl
  obtain ⟨-, chain⟩ : (s.setNext prev 0 ((s.node c).next 0).clear).Memory ∧ _ :=
    memory.unlink shared points isDead (fun _ _ => rfl) (key_of_node rfl) rfl rfl
  refine ⟨memory.points shared points, isDead, chain, fun a => ?_, key_of_node rfl, fun a => ?_, rfl⟩
  · unfold State.dead apply
    rw [setNext_next]
    split
    · rename_i here
      rw [here.1]
      exact (Ptr.marked0_clear _).trans alive.symm
    · rfl
  · by_cases here : a = prev <;> simp [apply, setNext, modify, here]

/-- Dropping a count changes nothing else. -/
theorem unlinked_drop (memory : s.Memory) {c n : Addr} {k : Nat} (unlinked : q.Unlinked s c)
    (isLinked : s.linked n = true) : q.Unlinked (s.apply t (.drop n k)) c := by
  have chain : (s.apply t (.drop n k)).chain = s.chain :=
    (memory.write (t := t) (.drop n k isLinked)).2
  have fields : ∀ a, ((s.apply t (.drop n k)).node a).next = (s.node a).next ∧
      ((s.apply t (.drop n k)).node a).key = (s.node a).key ∧
      ((s.apply t (.drop n k)).node a).value = (s.node a).value := by
    intro a
    by_cases here : a = n <;> simp [apply, modify, here]
  obtain ⟨member, wasDead, after, dead, key, value, height⟩ := unlinked
  refine ⟨member, wasDead, fun a => by rw [chain, after], fun a => ?_, ?_, fun a => ?_, height⟩
  · rw [← dead]
    unfold State.dead
    rw [(fields a).1]
  · rw [← key]
    funext a
    exact (fields a).2.1
  · rw [(fields a).2.2, value]

/-- `find` unlinks the dead node it has come to. -/
theorem Ready.unlinks (ready : s.Ready t) {f : Find Key Value} {prev c : Addr}
    (at_ : s.pc t = .findNexti f 0 prev c) (points : (s.node prev).next 0 = .node c) :
    Leads (fun s => s.step t) s fun s' =>
      s'.Ready t ∧ s'.pc t = .findMatch f prev .null ∧ s.Unlinked s' c := by
  have here := ready.reached.level0.here t
  rw [at_] at here
  obtain ⟨window, isDead⟩ := here
  refine ready.reads (solo_plan at_ rfl) fun s₁ ready₁ same₁ at₁ => ?_
  have points₁ : (s₁.node prev).next 0 = .node c := by rw [same₁.nodes.node, points]
  have loaded : (s.node c).next 0 = (s₁.node c).next 0 := by rw [same₁.nodes.node]
  rw [loaded] at at₁
  have exchange : s₁.solo t = some (.unlink prev 0 ((s₁.node c).next 0).clear,
      .goto (.findDrop f 0 prev c)) := by
    rw [solo_plan at₁ rfl]
    exact if_pos points₁
  refine ready₁.goes exchange fun s₂ ready₂ stepped₂ => ?_
  have memory₁ := ready₁.reached.level0.memory
  have memory₂ := ready₂.reached.level0.memory
  have unlinked₂ : s.Unlinked s₂ c := by
    have isDead₁ : s₁.dead c = true := by
      unfold State.dead
      rw [← loaded]
      exact isDead
    have shared₁ : s₁.Public prev := window.before.1.extend ready.reached.level0.memory
      same₁.nodes.extends
    exact ((unlinked_apply memory₁ shared₁ points₁ isDead₁).same stepped₂.same).of_same same₁
  have here₂ := ready₂.reached.level0.here t
  rw [stepped₂.pc] at here₂
  obtain ⟨window₂, -⟩ := here₂
  have drops : ∃ pc, s₂.solo t = some (.drop c 1, .goto pc) ∧
      (pc = .findClear f 0 prev c ∨ pc = .findMatch f prev .null) := by
    rw [solo_plan stepped₂.pc rfl]
    by_cases last : countSub (s₂.node c).linkCount 1 = 0
    · exact ⟨_, if_pos last, .inl rfl⟩
    · exact ⟨_, if_neg last, .inr rfl⟩
  obtain ⟨pc, dropped, next⟩ := drops
  refine ready₂.goes dropped fun s₃ ready₃ stepped₃ => ?_
  have unlinked₃ : s.Unlinked s₃ c :=
    (unlinked_drop memory₂ unlinked₂ window₂.linked).same stepped₃.same
  have at₃ : s₃.pc t = pc := stepped₃.pc
  rcases next with rfl | rfl
  · refine ready₃.reads (solo_call at₃ rfl) fun s₄ ready₄ same₄ at₄ => ?_
    refine ready₄.reads (solo_call at₄ rfl) fun s₅ ready₅ same₅ at₅ => ?_
    exact Theory.leads_here ⟨ready₅, at₅, unlinked₃.same (same₄.trans same₅)⟩
  · exact Theory.leads_here ⟨ready₃, at₃, unlinked₃⟩

/-! ## The walk -/

/-- Where `find` has ended: with what `prev` points to, which is not dead, or with the null pointer
after it has unlinked a dead node. -/
def Landed (s s' : State T Key Value) (prev : Addr) (cur : Ptr) : Prop :=
  (s.Same s' ∧ (s'.node prev).next 0 = cur ∧ ∀ c, cur = .node c → s.dead c = false) ∨
  (cur = .null ∧ ∃ c, s.Unlinked s' c)

theorem Landed.of_same {prev : Addr} {cur : Ptr} (same : s.Same q)
    (landed : q.Landed s' prev cur) : s.Landed s' prev cur := by
  rcases landed with ⟨same', next, alive⟩ | ⟨isNull, c, unlinked⟩
  · exact .inl ⟨same.trans same', next, same.dead ▸ alive⟩
  · exact .inr ⟨isNull, c, unlinked.of_same same⟩

/-- The walk along the chain from a node that is not dead. -/
theorem Ready.walks {f : Find Key Value} {l₁ l₂ : List Addr} {prev : Addr} (ready : s.Ready t)
    (at_ : s.pc t = findLoop f 0 prev ((s.node prev).next 0))
    (split : head :: s.chain = l₁ ++ prev :: l₂) (alive : s.dead prev = false) :
    Leads (fun s => s.step t) s fun s' => s'.Ready t ∧ ∃ prev cur,
      s'.pc t = .findMatch f prev cur ∧ s.Landed s' prev cur := by
  have memory := ready.reached.level0.memory
  have next := memory.next_of_split split alive
  rw [next] at at_
  induction l₂ generalizing s l₁ prev with
  | nil =>
      exact Theory.leads_here ⟨ready, prev, .null, at_, .inl ⟨.refl s, next, nofun⟩⟩
  | cons c l₃ ih =>
      have next : (s.node prev).next 0 = .node c := next
      refine ready.reads (solo_call at_ rfl) fun s₁ ready₁ same₁ at₁ => ?_
      have next₁ : (s₁.node prev).next 0 = .node c := by rw [same₁.nodes.node, next]
      have loaded : s.cell (c, 0) = (s₁.node c).next 0 := by rw [same₁.nodes.node]; rfl
      rw [loaded] at at₁
      by_cases isDead : s.dead c = true
      · -- marked: `find` unlinks it and gives up
        have marked : ((s₁.node c).next 0).isMarked 0 = true := by rw [← loaded]; exact isDead
        have goes : s₁.solo t = some (.none, .goto (.findNexti f 0 prev c)) := by
          rw [solo_plan at₁ rfl]
          simp only [plan, next₁, ne_eq, not_true, if_false, marked, if_true]
        refine ready₁.reads goes fun s₂ ready₂ same₂ at₂ => ?_
        have next₂ : (s₂.node prev).next 0 = .node c := by rw [same₂.nodes.node, next₁]
        refine (ready₂.unlinks at₂ next₂).imp ?_
        rintro s₃ ⟨ready₃, at₃, unlinked⟩
        exact ⟨ready₃, prev, .null, at₃,
          .inr ⟨rfl, c, unlinked.of_same (same₁.trans same₂)⟩⟩
      · have isAlive : s.dead c = false := by simpa using isDead
        have clean : ((s₁.node c).next 0).isMarked 0 = false := by rw [← loaded]; exact isAlive
        have goes : s₁.solo t =
            some (.none, .goto (.findDead f 0 prev c ((s₁.node c).next 0))) := by
          rw [solo_plan at₁ rfl]
          simp only [plan, next₁, ne_eq, not_true, if_false, clean, Bool.false_eq_true]
        refine ready₁.reads goes fun s₂ ready₂ same₂ at₂ => ?_
        have clean₂ : ((s₂.node c).next 0).marked0 = false := by rw [same₂.nodes.node]; exact clean
        have goes₂ : s₂.solo t =
            some (.none, .goto (.findKey f 0 prev c ((s₁.node c).next 0))) := by
          rw [solo_plan at₂ rfl]
          simp only [plan, clean₂, Bool.false_eq_true, if_false]
        refine ready₂.reads goes₂ fun s₃ ready₃ same₃ at₃ => ?_
        have same : s.Same s₃ := same₁.trans (same₂.trans same₃)
        by_cases reached : f.key ≤ (s₃.node c).key
        · have goes₃ : s₃.solo t = some (.none, .goto (.findMatch f prev (.node c))) := by
            rw [solo_plan at₃ rfl]
            exact if_pos reached
          refine ready₃.reads goes₃ fun s₄ ready₄ same₄ at₄ => ?_
          have whole := same.trans same₄
          refine Theory.leads_here ⟨ready₄, prev, .node c, at₄, .inl ⟨whole, ?_, ?_⟩⟩
          · rw [whole.nodes.node, next]
          · rintro c' ⟨rfl⟩
            exact isAlive
        · have goes₃ : s₃.solo t =
              some (.none, .goto (.findSetPrev f 0 c ((s₁.node c).next 0))) := by
            rw [solo_plan at₃ rfl]
            exact if_neg reached
          refine ready₃.reads goes₃ fun s₄ ready₄ same₄ at₄ => ?_
          refine ready₄.reads (solo_call at₄ rfl) fun s₅ ready₅ same₅ at₅ => ?_
          refine ready₅.reads (solo_call at₅ rfl) fun s₆ ready₆ same₆ at₆ => ?_
          have whole : s.Same s₆ := same.trans (same₄.trans (same₅.trans same₆))
          have chain : s₆.chain = s.chain := whole.nodes.chain
          have alive₆ : s₆.dead c = false := by rwa [whole.dead]
          have split₆ : head :: s₆.chain = (l₁ ++ [prev]) ++ c :: l₃ := by
            rw [chain, split]
            simp
          have memory₆ := ready₆.reached.level0.memory
          have next₆ := memory₆.next_of_split split₆ alive₆
          have pointer : (s₁.node c).next 0 = (s₆.node c).next 0 := by
            rw [← loaded, whole.nodes.node]
            rfl
          rw [pointer, next₆] at at₆
          refine (ih ready₆ at₆ split₆ alive₆ memory₆ next₆).imp ?_
          rintro s₇ ⟨ready₇, prev', cur', at₇, landed⟩
          exact ⟨ready₇, prev', cur', at₇, landed.of_same whole⟩

/-- From `head_` on some level down to level 0, and along the chain. -/
theorem Ready.descends {f : Find Key Value} {i : Nat} (ready : s.Ready t)
    (at_ : s.pc t = .findCur f i head) :
    Leads (fun s => s.step t) s fun s' => s'.Ready t ∧ ∃ prev cur,
      s'.pc t = .findMatch f prev cur ∧ s.Landed s' prev cur := by
  have memory := ready.reached.level0.memory
  induction i generalizing s with
  | zero =>
      have clean : (s.cell (head, 0)).isMarked 0 = false := memory.headAlive
      have goes : s.solo t =
          some (.none, .goto (findLoop f 0 head ((s.node head).next 0))) := by
        rw [solo_call at_ rfl]
        simp only [reply, resume, clean, Bool.false_eq_true, if_false]
        rfl
      refine ready.reads goes fun s₁ ready₁ same₁ at₁ => ?_
      rw [← same₁.nodes.node] at at₁
      have split : head :: s₁.chain = [] ++ head :: s₁.chain := rfl
      refine (ready₁.walks at₁ split ready₁.reached.level0.memory.headAlive).imp ?_
      rintro s₂ ⟨ready₂, prev, cur, at₂, landed⟩
      exact ⟨ready₂, prev, cur, at₂, landed.of_same same₁⟩
  | succ i ih =>
      have empty : s.cell (head, i + 1) = .markedNull := memory.index head (i + 1) (Nat.succ_pos i)
      have goes : s.solo t = some (.none, .goto (.findCur f i head)) := by
        rw [solo_call at_ rfl]
        simp only [reply, empty]
        rfl
      refine ready.reads goes fun s₁ ready₁ same₁ at₁ => ?_
      refine (ih ready₁ at₁ ready₁.reached.level0.memory).imp ?_
      rintro s₂ ⟨ready₂, prev, cur, at₂, landed⟩
      exact ⟨ready₂, prev, cur, at₂, landed.of_same same₁⟩

/-- **`find` run alone from its start.** -/
theorem Ready.finds {f : Find Key Value} (ready : s.Ready t) (at_ : s.pc t = .findHead f) :
    Leads (fun s => s.step t) s fun s' => s'.Ready t ∧ ∃ prev cur,
      s'.pc t = .findMatch f prev cur ∧ s.Landed s' prev cur := by
  refine ready.reads (solo_call at_ rfl) fun s₁ ready₁ same₁ at₁ => ?_
  refine ready₁.reads (solo_plan at₁ rfl) fun s₂ ready₂ same₂ at₂ => ?_
  refine (ready₂.descends at₂).imp ?_
  rintro s₃ ⟨ready₃, prev, cur, at₃, landed⟩
  exact ⟨ready₃, prev, cur, at₃, landed.of_same (same₁.trans same₂)⟩

end State

end Ccmetrics.SkipList
