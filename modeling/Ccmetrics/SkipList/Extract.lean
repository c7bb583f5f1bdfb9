/-
# SkipList.Extract -- what `values` and `entries` collect

`extractor` pushes a node before it knows that the node is being deleted. If it is, `cur` is
loaded again from `prev`, and two things can go wrong:

* the pointer of `prev` is marked too: the loop starts again at `head_`, with everything that it
  has pushed still in the vector;
* the pointer leads to another node, which is not marked: the inner loop ends, the node becomes
  `prev`, and it has never been pushed.

`slips` is a reload of one of these two kinds. A call that makes none collects every node that
stays in the map exactly once (`extract_exact`).
-/
import Ccmetrics.SkipList.Lookup

namespace Ccmetrics.SkipList

set_option autoImplicit false
set_option linter.unusedSectionVars false

variable {T Key Value : Type} [DecidableEq T] [LinearOrder Key] [Inhabited Key] [Inhabited Value]

/-- The node that the next access pushes. -/
def PC.pushes : PC Key Value → List Addr
  | .itemsRead _ _ _ cur => [cur]
  | _ => []

namespace State

variable {s s' : State T Key Value} {t u : T} {e : Effect Key Value} {nx : Next Key Value}
variable {pc : PC Key Value} {what : Extract} {x : Addr} {l : List Addr}

def pushed (t : T) (s : State T Key Value) : Action T Key Value → List Addr
  | .step u => if u = t then (s.pc t).pushes else []
  | _ => []

/-- The nodes that thread `t` pushes in a run, in their order. -/
def pushes (t : T) : State T Key Value → List (Action T Key Value) → List Addr
  | _, [] => []
  | s, a :: rest =>
      pushed t s a ++
        match s.next a with
        | some s' => pushes t s' rest
        | none => []

/-- `extractor` loads `cur` again from `prev`, and the pointer is marked, or leads to a node that
is not and that was in the map when the call began. -/
def slips (t : T) (start s : State T Key Value) : Action T Key Value → Bool
  | .step u =>
      decide (u = t) &&
        match s.pc t, s.sys.step 4 s.cell t with
        | .itemsAgain _ _ _, some (_, some (.value p)) =>
            match p with
            | .null => false
            | .node c => start.linked c && !s.dead c
            | _ => true
        | _, _ => false
  | _ => false

/-- What the pushed nodes give. -/
def items (s : State T Key Value) (what : Extract) (l : List Addr) : List (Item Key Value) :=
  l.map fun a => what.item (s.node a)

/-- Node `x` has been pushed once if it does not lie behind `a`, and not at all otherwise. -/
def Collected (s : State T Key Value) (x : Addr) (l : List Addr) (a : Addr) : Prop :=
  (l.count x = 1 ∧ s.rank x ≤ s.rank a) ∨ (x ∉ l ∧ s.rank a < s.rank x)

/-- The pointer of node `a` does not lead past `x`. -/
def Follows (s : State T Key Value) (x a : Addr) : Ptr → Prop
  | .node c => (s.rank x ≤ s.rank a → s.rank x < s.rank c) ∧
      (s.rank a < s.rank x → c = x ∨ s.rank c < s.rank x)
  | _ => s.rank x ≤ s.rank a

/-- Where `extractor` stands with respect to a node `x` that stays in the map. -/
def Gathering (s : State T Key Value) (what : Extract) (x : Addr) (l : List Addr) :
    PC Key Value → Prop
  | .acquire (.items w) => w = what ∧ l = []
  | .itemsCur w ret => w = what ∧ ret = [] ∧ l = []
  | .itemsRead w ret prev cur =>
      w = what ∧ ret = s.items what l ∧ s.Collected x l prev ∧ s.Follows x prev (.node cur)
  | .itemsNext w ret prev cur =>
      w = what ∧ ret = s.items what l ∧ s.Collected x l cur ∧ (cur = x ∨ s.Collected x l prev)
  | .itemsAgain w ret prev => w = what ∧ ret = s.items what l ∧ s.Collected x l prev
  | .itemsSetPrev w ret prev next | .itemsSetCur w ret prev next =>
      w = what ∧ ret = s.items what l ∧
        match prev with
        | .node a => s.Collected x l a ∧ s.Follows x a next
        | _ => l.count x = 1
  | .clear _ _ (.ret (.items ret)) => ret = s.items what l ∧ l.count x = 1
  | _ => False

/-- Behind an unmarked node comes its successor, and nothing between the two. -/
theorem Memory.follows (memory : s.Memory) {a : Addr} (shared : s.Public a)
    (clean : ((s.node a).next 0).marked0 = false) (inChain : x ∈ s.chain) :
    s.Follows x a ((s.node a).next 0) := by
  have member := memory.onChain shared clean
  have toward : s.rank a < s.rank x → ∃ b, (s.node a).next 0 = .node b ∧ b ∈ s.chain ∧
      s.rank b ≤ s.rank x := by
    intro below
    obtain ⟨b, next, inChain', atMost⟩ := memory.gap member inChain below
    exact ⟨b, points_of_edge next clean, inChain', atMost⟩
  cases points : (s.node a).next 0 with
  | node c =>
      refine ⟨fun atLeast => ?_, fun below => ?_⟩
      · exact lt_of_le_of_lt atLeast (memory.rank_next member (by simp [edgeAt, points, Ptr.target]))
      · obtain ⟨b, next, inChain', atMost⟩ := toward below
        rw [points] at next
        cases next
        rcases lt_or_eq_of_le atMost with less | same
        · exact .inr less
        · exact .inl (memory.rank_inj inChain' inChain same)
  | null =>
      refine not_lt.1 fun below => ?_
      obtain ⟨b, next, -⟩ := toward below
      rw [points] at next
      cases next
  | markedNull => rw [points] at clean; cases clean
  | marked c => rw [points] at clean; cases clean

section Keeping

variable (memory : s.Memory) (kept : s.Extends s')
include memory kept

theorem Collected.extend {a : Addr} (collected : s.Collected x l a) (isLinked : s.linked x = true)
    (shared : s.Public a) : s'.Collected x l a := by
  simpa only [Collected, rank_extend memory kept shared,
    rank_extend memory kept (.inr isLinked)] using collected

theorem Follows.extend {a : Addr} {p : Ptr} (follows : s.Follows x a p)
    (isLinked : s.linked x = true) (shared : s.Public a) (next : s.Shared p) :
    s'.Follows x a p := by
  cases p with
  | node c =>
      simpa only [Follows, rank_extend memory kept shared, rank_extend memory kept (.inr isLinked),
        rank_extend memory kept (.inr next)] using follows
  | null =>
      simpa only [Follows, rank_extend memory kept shared,
        rank_extend memory kept (.inr isLinked)] using follows
  | markedNull => exact next.elim
  | marked c => exact next.elim

theorem Gathering.extend (gathering : s.Gathering what x l pc) (here : s.Local pc)
    (isLinked : s.linked x = true) (items : s'.items what l = s.items what l) :
    s'.Gathering what x l pc := by
  cases pc with
  | acquire start => cases start <;> exact gathering
  | itemsCur w ret => exact gathering
  | itemsRead w ret prev cur =>
      obtain ⟨isWhat, isRet, collected, follows⟩ := gathering
      exact ⟨isWhat, isRet.trans items.symm, collected.extend memory kept isLinked here.1,
        follows.extend memory kept isLinked here.1 here.2⟩
  | itemsNext w ret prev cur =>
      obtain ⟨isWhat, isRet, collected, isPrev⟩ := gathering
      exact ⟨isWhat, isRet.trans items.symm, collected.extend memory kept isLinked (.inr here.2),
        isPrev.imp_right fun before => before.extend memory kept isLinked here.1⟩
  | itemsAgain w ret prev =>
      obtain ⟨isWhat, isRet, collected⟩ := gathering
      exact ⟨isWhat, isRet.trans items.symm, collected.extend memory kept isLinked here⟩
  | itemsSetPrev w ret prev next | itemsSetCur w ret prev next =>
      obtain ⟨isWhat, isRet, stands⟩ := gathering
      refine ⟨isWhat, isRet.trans items.symm, ?_⟩
      cases prev with
      | node a =>
          exact ⟨stands.1.extend memory kept isLinked (.inr here.1),
            stands.2.extend memory kept isLinked (.inr here.1) here.2.1⟩
      | null | markedNull | marked a => exact stands
  | clear k last leave =>
      cases leave with
      | ret r =>
          cases r with
          | items ret => exact ⟨gathering.1.trans items.symm, gathering.2⟩
          | _ => exact gathering
      | free n => exact gathering
  | _ => exact gathering

end Keeping

theorem items_append (a : Addr) :
    s.items what (l ++ [a]) = s.items what l ++ [what.item (s.node a)] := by
  simp [items]

/-- Pushing the successor of `prev`. -/
theorem Collected.push {prev cur : Addr} (collected : s.Collected x l prev)
    (follows : s.Follows x prev (.node cur)) :
    s.Collected x (l ++ [cur]) cur ∧ (cur = x ∨ s.Collected x (l ++ [cur]) prev) := by
  rcases collected with ⟨once, atMost⟩ | ⟨missing, below⟩
  · have above := follows.1 atMost
    have apart : cur ≠ x := by rintro rfl; exact lt_irrefl _ above
    have again : (l ++ [cur]).count x = 1 := by
      simp [List.count_append, once, apart]
    exact ⟨.inl ⟨again, le_of_lt above⟩, .inr (.inl ⟨again, atMost⟩)⟩
  · rcases follows.2 below with rfl | less
    · refine ⟨.inl ⟨?_, le_refl _⟩, .inl rfl⟩
      simp [List.count_append, List.count_eq_zero_of_not_mem missing]
    · have apart : x ≠ cur := by rintro rfl; exact lt_irrefl _ less
      have still : x ∉ l ++ [cur] := by simp [missing, apart]
      exact ⟨.inr ⟨still, less⟩, .inr (.inr ⟨still, below⟩)⟩

/-- At the end of the chain everything has been collected. -/
theorem Collected.last {a : Addr} (collected : s.Collected x l a) (atMost : s.rank x ≤ s.rank a) :
    l.count x = 1 := by
  rcases collected with ⟨once, -⟩ | ⟨-, below⟩
  · exact once
  · exact absurd atMost (not_le.2 below)

theorem Collected.loop {ret : List (Item Key Value)} {a : Addr} {p : Ptr}
    (collected : s.Collected x l a) (follows : s.Follows x a p) (shared : s.Shared p)
    (isRet : ret = s.items what l) : s.Gathering what x l (itemsLoop what ret (.node a) p) := by
  cases p with
  | null => exact ⟨isRet, collected.last follows⟩
  | node c => exact ⟨rfl, isRet, collected, follows⟩
  | markedNull => exact shared.elim
  | marked c => exact shared.elim

/-- One step of `extractor`, unless it slips. -/
theorem Gathering.access (gathering : s.Gathering what x l pc) (here : s.Local pc)
    (access : s.Access t pc e nx) (memory : s.Memory) (isLinked : s.linked x = true)
    (alive : s.dead x = false)
    (careful : ∀ w ret prev, pc = .itemsAgain w ret prev →
      ((s.node prev).next 0).marked0 = false ∧ (s.node prev).next 0 ≠ .node x) :
    e = .none ∧ (s.Gathering what x (l ++ pc.pushes) nx.pc ∨
      (nx = .ret (.items (s.items what l)) ∧ l.count x = 1 ∧ pc.pushes = [])) := by
  have inChain := memory.live x isLinked alive
  cases access with
  | acquired start =>
      cases start with
      | items w => obtain ⟨rfl, rfl⟩ := gathering; exact ⟨rfl, .inl ⟨rfl, rfl, rfl⟩⟩
      | find f => exact gathering.elim
      | first => exact gathering.elim
  | itemsLoaded w ret =>
      obtain ⟨rfl, rfl, rfl⟩ := gathering
      have collected : s.Collected x [] head := by
        refine .inr ⟨List.not_mem_nil, ?_⟩
        rw [rank_head, memory.rank_linked isLinked]
        exact WithBot.bot_lt_coe _
      exact ⟨rfl, .inl (collected.loop (memory.follows (.inl rfl) memory.headAlive inChain)
        (memory.shared_next (.inl rfl) memory.headAlive) rfl)⟩
  | itemRead w ret prev cur =>
      obtain ⟨rfl, rfl, collected, follows⟩ := gathering
      exact ⟨rfl, .inl ⟨rfl, (items_append cur).symm, collected.push follows⟩⟩
  | itemsNextLoaded w ret prev cur =>
      obtain ⟨rfl, rfl, collected, isPrev⟩ := gathering
      refine ⟨rfl, .inl ?_⟩
      simp only [PC.pushes, List.append_nil, itemsNextOf, Next.pc_goto]
      split
      · rename_i isMarked
        refine ⟨rfl, rfl, isPrev.resolve_left ?_⟩
        rintro rfl
        rw [dead, isMarked] at alive
        cases alive
      · rename_i clean
        exact ⟨rfl, rfl, collected, memory.follows (.inr here.2) (by simpa using clean) inChain⟩
  | itemsAgainNull w ret prev points =>
      obtain ⟨rfl, rfl, collected⟩ := gathering
      have follows := memory.follows here (by rw [points]; rfl) inChain
      rw [points] at follows
      refine ⟨rfl, .inl ?_⟩
      simp only [PC.pushes, List.append_nil]
      exact ⟨rfl, rfl, collected.last follows⟩
  | itemsAgainNode w ret prev cur points =>
      obtain ⟨rfl, rfl, collected⟩ := gathering
      have follows := memory.follows here (by rw [points]; rfl) inChain
      rw [points] at follows
      have apart : cur ≠ x := by
        rintro rfl
        exact (careful _ _ _ rfl).2 points
      refine ⟨rfl, .inl ?_⟩
      simp only [PC.pushes, List.append_nil]
      refine ⟨rfl, rfl, ?_, .inr collected⟩
      rcases collected with ⟨once, atMost⟩ | ⟨missing, below⟩
      · exact .inl ⟨once, le_of_lt (follows.1 atMost)⟩
      · exact .inr ⟨missing, (follows.2 below).resolve_left apart⟩
  | itemsRestart w ret prev isMarked =>
      rw [(careful _ _ _ rfl).1] at isMarked
      cases isMarked
  | itemsPrevSet w ret prev next =>
      refine ⟨rfl, .inl ?_⟩
      simp only [PC.pushes, List.append_nil]
      exact gathering
  | itemsCurSet w ret prev cur =>
      obtain ⟨rfl, rfl, stands⟩ := gathering
      obtain ⟨isPrev, isCur, last⟩ := here
      refine ⟨rfl, .inl ?_⟩
      simp only [PC.pushes, List.append_nil]
      cases prev with
      | node a => exact stands.1.loop stands.2 isCur rfl
      | null => rw [last rfl]; exact ⟨rfl, stands⟩
      | markedNull => exact isPrev.elim
      | marked a => exact isPrev.elim
  | clearedLast k leave =>
      cases leave with
      | ret r =>
          cases r with
          | items ret => obtain ⟨rfl, once⟩ := gathering; exact ⟨rfl, .inr ⟨rfl, once, rfl⟩⟩
          | _ => exact gathering.elim
      | free n => exact gathering.elim
  | cleared k last leave more =>
      refine ⟨rfl, .inl ?_⟩
      simp only [PC.pushes, List.append_nil]
      cases leave with
      | ret r =>
          cases r with
          | items ret => exact gathering
          | _ => exact gathering.elim
      | free n => exact gathering.elim
  | _ => exact gathering.elim

/-! ## The whole call -/

/-- No step takes a node back or changes its value. -/
theorem Level0.keeps (level0 : s.Level0) {a : Action T Key Value} (taken : s.next a = some s') :
    s.Extends s' ∧ ∀ y < s.fresh, (s'.node y).value = (s.node y).value := by
  have unmoved : s.SameNodes s' →
      s.Extends s' ∧ ∀ y < s.fresh, (s'.node y).value = (s.node y).value :=
    fun same => ⟨same.extends, fun y _ => by rw [same.node]⟩
  cases a with
  | call u op => exact unmoved (next_outside (t := u) (fun v same => by cases same) taken).1
  | exit u => exact unmoved (next_outside (t := u) (fun v same => by cases same) taken).1
  | step u =>
      rcases step_map level0.synced taken with ⟨sys, -, rfl⟩ | ⟨sys, e, nx, access, rfl⟩
      · exact unmoved ⟨rfl, rfl, rfl⟩
      · have write := (level0.here u).write access
        have same := sameNodes_after (s := s) (t := u) sys e nx
        refine ⟨(level0.memory.extends_write (t := u) write).same same, fun y known => ?_⟩
        rw [same.node]
        exact value_write write known

/-- A node that is not marked at the end of a run has not been marked before. -/
theorem alive_before {as : List (Action T Key Value)} (level0 : s.Level0)
    (ran : Theory.run State.next s as = some s') (isLinked : s.linked x = true)
    (alive : s'.dead x = false) : s.dead x = false := by
  by_contra isDead
  have kept : s'.Level0 ∧ s'.linked x = true ∧ s'.dead x = true := by
    refine Theory.run_induction (P := fun q : State T Key Value =>
      q.Level0 ∧ q.linked x = true ∧ q.dead x = true) ?_ ⟨level0, isLinked, by simpa using isDead⟩ ran
    rintro q a q' ⟨level0, isLinked, isDead⟩ taken
    have kept := (level0.keeps taken).1
    exact ⟨level0.next taken, kept.linked x isLinked, dead_extend level0.memory kept isLinked isDead⟩
  rw [alive] at kept
  cases kept.2.2

/-- A call of `extractor` that has pushed the nodes `l`, and node `x` exactly once if it is past it. -/
structure Gathers (s : State T Key Value) (t : T) (what : Extract) (x : Addr) (l : List Addr) :
    Prop where
  linked : s.linked x = true
  listed : ∀ a ∈ l, s.linked a = true
  single : ∀ a ∈ l, s.key a = s.key x → a = x
  stands : s.Gathering what x l (s.pc t) ∨
    (s.pc t = .idle ∧ s.result t = .items (s.items what l) ∧ l.count x = 1)

theorem items_keep (known : ∀ a ∈ l, (s'.node a).key = (s.node a).key ∧
    (s'.node a).value = (s.node a).value) : s'.items what l = s.items what l := by
  refine List.map_congr_left fun a member => ?_
  cases what <;> simp [Extract.item, known a member]

/-- What is known of the pushed nodes stays true. -/
theorem Level0.keeps_listed (what : Extract) (level0 : s.Level0) {a : Action T Key Value}
    (taken : s.next a = some s') (isLinked : s.linked x = true) (listed : ∀ y ∈ l, s.linked y = true)
    (single : ∀ y ∈ l, s.key y = s.key x → y = x) :
    s'.items what l = s.items what l ∧ s'.linked x = true ∧
      (∀ y ∈ l, s'.linked y = true) ∧ ∀ y ∈ l, s'.key y = s'.key x → y = x := by
  obtain ⟨kept, value⟩ := level0.keeps taken
  have key : ∀ y, s.linked y = true → s'.key y = s.key y :=
    fun y isLinked => key_extend level0.memory kept isLinked
  refine ⟨items_keep fun y member => ?_, kept.linked x isLinked,
    fun y member => kept.linked y (listed y member), fun y member same => ?_⟩
  · exact ⟨key y (listed y member), value y (level0.memory.known y (listed y member)).2⟩
  · rw [key y (listed y member), key x isLinked] at same
    exact single y member same

/-- A step that `t` does not make. -/
theorem Gathers.other (gathers : s.Gathers t what x l) (level0 : s.Level0)
    {a : Action T Key Value} (taken : s.next a = some s') (pc : s'.pc t = s.pc t)
    (result : s'.result t = s.result t) : s'.Gathers t what x l := by
  obtain ⟨items, isLinked, listed, single⟩ :=
    level0.keeps_listed what taken gathers.linked gathers.listed gathers.single
  refine ⟨isLinked, listed, single, ?_⟩
  rw [pc, result, items]
  refine gathers.stands.imp_left fun gathering => ?_
  exact gathering.extend level0.memory (level0.keeps taken).1 (level0.here t) gathers.linked items

/-- The node that is pushed next is `x`, or has another key. -/
theorem Gathering.pushed (gathering : s.Gathering what x l pc) (here : s.Local pc)
    (memory : s.Memory) (isLinked : s.linked x = true) :
    ∀ a ∈ pc.pushes, s.linked a = true ∧ (s.key a = s.key x → a = x) := by
  intro a member
  cases pc with
  | itemsRead w ret prev cur =>
      obtain ⟨-, -, -, follows⟩ := gathering
      obtain rfl : a = cur := List.mem_singleton.1 member
      refine ⟨here.2, fun same => ?_⟩
      have rank : s.rank a = s.rank x := by
        rw [memory.rank_linked here.2, memory.rank_linked isLinked, same]
      rcases le_or_gt (s.rank x) (s.rank prev) with atMost | below
      · exact absurd rank (ne_of_gt (follows.1 atMost))
      · exact (follows.2 below).resolve_right fun less => absurd rank (ne_of_lt less)
  | _ => cases member

theorem pushes_call {c : Hazard.Call Ptr (Addr × Nat)} (calls : pc.call = some c) :
    pc.pushes = [] := by
  cases pc <;> first | rfl | cases calls

/-- A reload that does not slip. -/
theorem careful_of_slips {start : State T Key Value} {sys : Hazard.Sys T Ptr (Addr × Nat)}
    {c : Hazard.Call Ptr (Addr × Nat)} {r : Hazard.Ret Ptr}
    (stepped : s.sys.step 4 s.cell t = some (sys, some r)) (calls : (s.pc t).call = some c)
    (returns : c.Returns s.cell r) (quiet : slips t start s (.step t) = false)
    (old : start.linked x = true) (alive : s.dead x = false) (w : Extract)
    (ret : List (Item Key Value)) (prev : Addr) (at_ : s.pc t = .itemsAgain w ret prev) :
    ((s.node prev).next 0).marked0 = false ∧ (s.node prev).next 0 ≠ .node x := by
  rw [at_] at calls
  cases calls
  cases r with
  | value p =>
      obtain rfl : p = (s.node prev).next 0 := returns
      simp only [slips, decide_true, Bool.true_and, at_, stepped] at quiet
      cases points : (s.node prev).next 0 with
      | null => exact ⟨rfl, fun same => by cases same⟩
      | node b =>
          refine ⟨rfl, ?_⟩
          rintro ⟨⟩
          simp [points, old, alive] at quiet
      | markedNull => rw [points] at quiet; cases quiet
      | marked b => rw [points] at quiet; cases quiet
  | _ => exact returns.elim

theorem Gathers.after (sys : Hazard.Sys T Ptr (Addr × Nat)) (gathers : s.Gathers t what x l)
    (level0 : s.Level0) (busy : (s.pc t).isIdle = false) (alive : s.dead x = false)
    (access : s.Access t (s.pc t) e nx)
    (careful : ∀ w ret prev, s.pc t = .itemsAgain w ret prev →
      ((s.node prev).next 0).marked0 = false ∧ (s.node prev).next 0 ≠ .node x)
    (isNext : s' = ({ s with sys := sys }.apply t e).after t nx)
    (taken : s.next (.step t) = some s') : s'.Gathers t what x (l ++ (s.pc t).pushes) := by
  have memory := level0.memory
  have here := level0.here t
  have gathering : s.Gathering what x l (s.pc t) := by
    rcases gathers.stands with gathering | ⟨idle, -⟩
    · exact gathering
    · rw [idle] at busy; cases busy
  have pushed := gathering.pushed here memory gathers.linked
  have listed : ∀ y ∈ l ++ (s.pc t).pushes, s.linked y = true := by
    intro y member
    exact (List.mem_append.1 member).elim (gathers.listed y) fun new => (pushed y new).1
  have single : ∀ y ∈ l ++ (s.pc t).pushes, s.key y = s.key x → y = x := by
    intro y member
    exact (List.mem_append.1 member).elim (gathers.single y) fun new => (pushed y new).2
  obtain ⟨items, isLinked, listed', single'⟩ :=
    level0.keeps_listed what taken gathers.linked listed single
  obtain ⟨rfl, step⟩ := gathering.access here access memory gathers.linked alive careful
  refine ⟨isLinked, listed', single', ?_⟩
  subst isNext
  rw [after_pc_self]
  rcases step with onward | ⟨rfl, once, none_⟩
  · refine .inl ?_
    have local' := here.access access memory level0.tall
    exact onward.extend memory (level0.keeps taken).1 local' gathers.linked items
  · rw [none_, List.append_nil] at items ⊢
    exact .inr ⟨rfl, by rw [after_result_self, items], once⟩

/-- A step of the call itself. -/
theorem Gathers.own {start : State T Key Value} (gathers : s.Gathers t what x l) (level0 : s.Level0)
    (busy : (s.pc t).isIdle = false) (alive : s.dead x = false) (old : start.linked x = true)
    (quiet : slips t start s (.step t) = false) (taken : s.next (.step t) = some s') :
    s'.Gathers t what x (l ++ (s.pc t).pushes) := by
  rcases step_cases level0.synced taken with
    ⟨sys, c, -, calls, -, rfl⟩ | ⟨sys, c, r, stepped, calls, returns, access, isNext⟩ |
      ⟨e, nx, calls, access, isNext⟩
  · rw [pushes_call calls, List.append_nil]
    exact gathers.other level0 taken rfl rfl
  · exact gathers.after sys level0 busy alive access
      (careful_of_slips stepped calls returns quiet old alive) isNext taken
  · refine gathers.after s.sys level0 busy alive access ?_ isNext taken
    intro w ret prev at_
    rw [at_] at calls
    cases calls

theorem Gathers.next {start : State T Key Value} (gathers : s.Gathers t what x l)
    (level0 : s.Level0) (busy : (s.pc t).isIdle = false) (alive : s.dead x = false)
    (old : start.linked x = true) {a : Action T Key Value} (quiet : slips t start s a = false)
    (taken : s.next a = some s') : s'.Gathers t what x (l ++ pushed t s a) := by
  have outside : a ≠ .step t → s'.Gathers t what x (l ++ []) := by
    intro other
    obtain ⟨pc, result⟩ := next_other level0.synced busy other taken
    rw [List.append_nil]
    exact gathers.other level0 taken pc result
  cases a with
  | call u op => exact outside fun same => by cases same
  | exit u => exact outside fun same => by cases same
  | step u =>
      by_cases isT : u = t
      · subst isT
        rw [pushed, if_pos rfl]
        exact gathers.own level0 busy alive old quiet taken
      · rw [pushed, if_neg isT]
        refine outside fun same => isT ?_
        cases same
        rfl

/-- The call is running, and its next step is no slip. -/
def Careful (t : T) (start s : State T Key Value) (a : Action T Key Value) : Prop :=
  (s.pc t).isIdle = false ∧ slips t start s a = false

instance (t : T) (start s : State T Key Value) (a : Action T Key Value) :
    Decidable (Careful t start s a) := inferInstanceAs (Decidable (_ ∧ _))

theorem Gathers.run {start : State T Key Value} {as : List (Action T Key Value)}
    (gathers : s.Gathers t what x l) (level0 : s.Level0) (old : start.linked x = true)
    (careful : Theory.Along State.next (Careful t start) s as)
    (ran : Theory.run State.next s as = some s') (alive : s'.dead x = false) :
    s'.Gathers t what x (l ++ pushes t s as) := by
  induction as generalizing s l with
  | nil =>
      simp only [Theory.run_nil, Option.some.injEq] at ran
      rw [pushes, List.append_nil]
      exact ran ▸ gathers
  | cons a rest ih =>
      have aliveNow := alive_before level0 ran gathers.linked alive
      obtain ⟨mid, taken, ran⟩ := Theory.run_cons_eq_some.1 ran
      have onward := gathers.next level0 careful.1.1 aliveNow old careful.1.2 taken
      have ends := ih onward (level0.next taken) (careful.2 mid taken) ran
      simpa only [pushes, taken, List.append_assoc] using ends

/-- **Stable entries are collected exactly once, unless the call slips**: let `values` or `entries`
run from `s₁` to `s₂` while the other threads do whatever they like, and let no reload of `cur`
slip. Then the vector is made of the nodes that the call has pushed, in their order, and a node
`x` that was in the list when the call began and is not marked when it returns is one of them
exactly once; no other of them has its key. -/
theorem extract_exact {as bs : List (Action T Key Value)} {s₁ s₂ : State T Key Value}
    (ran : Theory.run State.next (init : State T Key Value) as = some s)
    (called : s.next (.call t (.extract what)) = some s₁)
    (careful : Theory.Along State.next (Careful t s₁) s₁ bs)
    (ran' : Theory.run State.next s₁ bs = some s₂) (returned : (s₂.pc t).isIdle = true)
    (stable : x ∈ s₁.chain ∧ s₂.dead x = false) :
    s₂.result t = .items (s₂.items what (pushes t s₁ bs)) ∧
      ∃ before behind, pushes t s₁ bs = before ++ x :: behind ∧
        ∀ a ∈ before ++ behind, s₂.key a ≠ s₂.key x := by
  have level0 := level0_run ran
  have level0' := level0.next called
  have isLinked := level0'.memory.member x stable.1
  have begins : s₁.Gathers t what x [] := by
    refine ⟨isLinked, fun a member => absurd member List.not_mem_nil,
      fun a member => absurd member List.not_mem_nil, .inl ?_⟩
    rw [next_call_pc called]
    simp only [begin, enter]
    split
    · exact ⟨rfl, rfl, rfl⟩
    · exact ⟨rfl, rfl⟩
  have ends := begins.run level0' isLinked careful ran' stable.2
  rw [List.nil_append] at ends
  have idle : s₂.pc t = .idle := by
    cases pc : s₂.pc t <;> rw [pc] at returned <;> first | rfl | cases returned
  rcases ends.stands with gathering | ⟨-, result, once⟩
  · rw [idle] at gathering
    exact gathering.elim
  · refine ⟨result, ?_⟩
    have member : x ∈ pushes t s₁ bs := List.count_pos_iff.1 (by rw [once]; exact Nat.one_pos)
    obtain ⟨before, behind, split⟩ := List.append_of_mem member
    refine ⟨before, behind, split, fun a inRest same => ?_⟩
    have inPushes : a ∈ pushes t s₁ bs := by
      rw [split]
      rcases List.mem_append.1 inRest with first | second
      · exact List.mem_append_left _ first
      · exact List.mem_append_right _ (List.mem_cons_of_mem _ second)
    obtain rfl := ends.single a inPushes same
    have twice : 0 < (before ++ behind).count a := List.count_pos_iff.2 inRest
    rw [split, List.count_append, List.count_cons_self] at once
    rw [List.count_append] at twice
    omega

/-- The map holds 1, 2 and 3. -/
def threeKeys : List (Action (Fin 2) Nat Nat) :=
  Action.call 0 (.insert 1 10 0) :: List.replicate 21 (.step 0) ++
    Action.call 0 (.insert 2 20 0) :: List.replicate 24 (.step 0) ++
    Action.call 0 (.insert 3 30 0) :: List.replicate 32 (.step 0)

/-- Thread 0 stands in front of the `next_` of node 1 when thread 1 erases 2. -/
def eraseAhead : List (Action (Fin 2) Nat Nat) :=
  List.replicate 4 (Action.step 0) ++ Action.call 1 (.erase 2) :: List.replicate 56 (.step 1) ++
    List.replicate 14 (Action.step 0)

/-- The next node is erased while `entries` runs, and 3 is listed once. -/
theorem extract_exact_erase : ∃ s s₁ s₂ : State (Fin 2) Nat Nat,
    Theory.run State.next State.init threeKeys = some s ∧
    s.next (.call 0 (.extract .entries)) = some s₁ ∧
    Theory.run State.next s₁ eraseAhead = some s₂ ∧
    s₂.result 0 = .items (s₂.items .entries (pushes 0 s₁ eraseAhead)) ∧
    ∃ before behind, pushes 0 s₁ eraseAhead = before ++ 3 :: behind ∧
      ∀ a ∈ before ++ behind, s₂.key a ≠ s₂.key 3 := by
  have played : ((Theory.run State.next State.init threeKeys).bind fun s : State (Fin 2) Nat Nat =>
      (s.next (.call 0 (.extract .entries))).bind fun s₁ =>
        (Theory.run State.next s₁ eraseAhead).map fun s₂ =>
          decide (Theory.Along State.next (Careful 0 s₁) s₁ eraseAhead ∧
            (s₂.pc 0).isIdle = true ∧ 3 ∈ s₁.chain ∧ s₂.dead 3 = false)) = some true := by
    decide +kernel
  obtain ⟨s, ran, played⟩ := Option.bind_eq_some_iff.1 played
  obtain ⟨s₁, called, played⟩ := Option.bind_eq_some_iff.1 played
  obtain ⟨s₂, ran', checked⟩ := Option.map_eq_some_iff.1 played
  obtain ⟨careful, returned, stable⟩ := of_decide_eq_true checked
  exact ⟨s, s₁, s₂, ran, called, ran', extract_exact ran called careful ran' returned stable⟩

/-- A node that is in the list and not marked. -/
def InMap (x : Addr) (s : State T Key Value) : Prop := x ∈ s.chain ∧ s.dead x = false

instance (x : Addr) (s : State T Key Value) : Decidable (InMap x s) :=
  inferInstanceAs (Decidable (_ ∧ _))

/-- Thread 0 has pushed 1 and 2 when thread 1 erases 2: the pointer of node 1 now leads to node 3. -/
def eraseLast : List (Action (Fin 2) Nat Nat) :=
  List.replicate 10 (Action.step 0) ++ Action.call 1 (.erase 2) :: List.replicate 56 (.step 1) ++
    List.replicate 14 (Action.step 0)

/-- Thread 0 has pushed 1, 2 and 3 when thread 1 erases 3 and then 2. -/
def eraseBoth : List (Action (Fin 2) Nat Nat) :=
  List.replicate 16 (Action.step 0) ++ Action.call 1 (.erase 3) :: List.replicate 72 (.step 1) ++
    Action.call 1 (.erase 2) :: List.replicate 50 (.step 1) ++ List.replicate 18 (Action.step 0)

/-- Entries that are in the map during the whole call: 3 is left out, and 1 is listed twice. -/
theorem extract_misses_and_repeats :
    (∃ s s₁ s₂ : State (Fin 2) Nat Nat, Theory.run State.next State.init threeKeys = some s ∧
      s.next (.call 0 (.extract .entries)) = some s₁ ∧
      Theory.run State.next s₁ eraseLast = some s₂ ∧
      Theory.Along State.next (fun s _ => InMap 3 s) s₁ eraseLast ∧ InMap 3 s₂ ∧
      (s₂.node 3).key = 3 ∧ s₂.result 0 = .items [.entry 1 10, .entry 2 20]) ∧
    ∃ s s₁ s₂ : State (Fin 2) Nat Nat, Theory.run State.next State.init threeKeys = some s ∧
      s.next (.call 0 (.extract .entries)) = some s₁ ∧
      Theory.run State.next s₁ eraseBoth = some s₂ ∧
      Theory.Along State.next (fun s _ => InMap 1 s) s₁ eraseBoth ∧ InMap 1 s₂ ∧
      (s₂.node 1).key = 1 ∧
      s₂.result 0 = .items [.entry 1 10, .entry 2 20, .entry 3 30, .entry 1 10] := by
  have missed : ((Theory.run State.next State.init threeKeys).bind fun s : State (Fin 2) Nat Nat =>
      (s.next (.call 0 (.extract .entries))).bind fun s₁ =>
        (Theory.run State.next s₁ eraseLast).map fun s₂ =>
          decide (Theory.Along State.next (fun s _ => InMap 3 s) s₁ eraseLast ∧ InMap 3 s₂ ∧
            (s₂.node 3).key = 3 ∧ s₂.result 0 = .items [.entry 1 10, .entry 2 20])) =
        some true := by decide +kernel
  have repeated : ((Theory.run State.next State.init threeKeys).bind fun s : State (Fin 2) Nat Nat =>
      (s.next (.call 0 (.extract .entries))).bind fun s₁ =>
        (Theory.run State.next s₁ eraseBoth).map fun s₂ =>
          decide (Theory.Along State.next (fun s _ => InMap 1 s) s₁ eraseBoth ∧ InMap 1 s₂ ∧
            (s₂.node 1).key = 1 ∧
            s₂.result 0 = .items [.entry 1 10, .entry 2 20, .entry 3 30, .entry 1 10])) =
        some true := by decide +kernel
  constructor
  · obtain ⟨s, ran, missed⟩ := Option.bind_eq_some_iff.1 missed
    obtain ⟨s₁, called, missed⟩ := Option.bind_eq_some_iff.1 missed
    obtain ⟨s₂, ran', checked⟩ := Option.map_eq_some_iff.1 missed
    exact ⟨s, s₁, s₂, ran, called, ran', of_decide_eq_true checked⟩
  · obtain ⟨s, ran, repeated⟩ := Option.bind_eq_some_iff.1 repeated
    obtain ⟨s₁, called, repeated⟩ := Option.bind_eq_some_iff.1 repeated
    obtain ⟨s₂, ran', checked⟩ := Option.map_eq_some_iff.1 repeated
    exact ⟨s, s₁, s₂, ran, called, ran', of_decide_eq_true checked⟩

end State

end Ccmetrics.SkipList
