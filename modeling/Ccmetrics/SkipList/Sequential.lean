/-
# SkipList.Sequential -- one thread, one call after the other

A single thread sees a finite ordered map (`Theory.OrderedMap`). Between its calls no node on the
chain is dead, and the chain has the entries of the map (`Calm`); inside `erase` the one dead node
is its own, and the second `find` comes to it and unlinks it (`Calm.cleans`).

`sequential_refines` is for every list of calls from the empty map: each of them returns after
finitely many steps, with what the ordered map answers.
-/
import Ccmetrics.Theory.OrderedMap
import Ccmetrics.SkipList.Lookup
import Ccmetrics.SkipList.Spins

namespace Ccmetrics.SkipList

set_option autoImplicit false
set_option linter.unusedSectionVars false

open Theory (OrderedMap)

variable {T Key Value : Type} [DecidableEq T] [LinearOrder Key] [Inhabited Key] [Inhabited Value]

/-- What is collected of an entry. -/
def Extract.pick (e : Key × Value) : Extract → Item Key Value
  | .values => .value e.2
  | .entries => .entry e.1 e.2

/-- The answer of an ordered map, and the map after it. -/
def Op.onMap (m : OrderedMap Key Value) : Op Key Value → Result Key Value × OrderedMap Key Value
  | .exists_ key => (.flag (m.contains key), m)
  | .find key => (.value (m.find? key), m)
  | .erase key => (.flag (m.contains key), m.erase key)
  | .insert key value _ => (.flag (!m.contains key), m.insert key value)
  | .firstKey => (.key m.firstKey, m)
  | .extract what => (.items (m.entries.map what.pick), m)

/-- What an ordered map answers to a list of calls. -/
def answers : OrderedMap Key Value → List (Op Key Value) → List (Result Key Value)
  | _, [] => []
  | m, op :: ops => (op.onMap m).1 :: answers (op.onMap m).2 ops

namespace State

open Theory (Leads)

variable {s s' q : State T Key Value} {t : T} {e : Effect Key Value} {nx : Next Key Value}
variable {m : OrderedMap Key Value} {k : Key}

/-- The thread `t` makes its calls one after the other, each in at most `n` steps. -/
def session (t : T) (n : Nat) : State T Key Value → List (Op Key Value) →
    Option (List (Result Key Value))
  | _, [] => some []
  | s, op :: ops =>
      (s.next (.call t op)).bind fun s => (s.alone t n).bind fun s =>
        (session t n s ops).map (s.result t :: ·)

/-! ## Between two calls -/

def entry (s : State T Key Value) (a : Addr) : Key × Value := (s.key a, (s.node a).value)

/-- No node on the chain is dead, and the map has the entries of the chain. -/
structure Calm (s : State T Key Value) (m : OrderedMap Key Value) : Prop where
  alive : ∀ a ∈ s.chain, s.dead a = false
  holds : s.chain.map s.entry = m.entries

theorem Memory.calm (memory : s.Memory) (alive : ∀ a ∈ s.chain, s.dead a = false)
    (same : ∀ e, e ∈ m.entries ↔ ∃ a ∈ s.chain, s.entry a = e) : s.Calm m := by
  refine ⟨alive, OrderedMap.sorted_unique ?_ m.sorted fun e => ?_⟩
  · exact List.pairwise_map.2 memory.sorted_keys
  · rw [List.mem_map, same]

theorem Calm.mem (calm : s.Calm m) (e : Key × Value) :
    e ∈ m.entries ↔ ∃ a ∈ s.chain, s.entry a = e := by
  rw [← calm.holds, List.mem_map]

theorem Calm.contains_iff (calm : s.Calm m) (k : Key) :
    m.contains k = true ↔ ∃ a ∈ s.chain, s.key a = k := by
  rw [OrderedMap.contains_iff, OrderedMap.mem_keys]
  constructor
  · rintro ⟨e, member, rfl⟩
    obtain ⟨a, inside, rfl⟩ := (calm.mem e).1 member
    exact ⟨a, inside, rfl⟩
  · rintro ⟨a, inside, rfl⟩
    exact ⟨s.entry a, (calm.mem _).2 ⟨a, inside, rfl⟩, rfl⟩

theorem Alike.calm (alike : s.Alike s') (memory : s.Memory) (calm : s.Calm m) : s'.Calm m := by
  refine ⟨fun a member => ?_, ?_⟩
  · rw [alike.chain] at member
    rw [alike.dead a member, calm.alive a member]
  · rw [alike.chain, ← calm.holds]
    refine List.map_congr_left fun a member => ?_
    have old := (memory.known a (memory.member a member)).2
    exact Prod.ext (alike.key a old) (alike.value a old)

/-- The call returns `r`, and the map is `m` afterwards. -/
def Does (s : State T Key Value) (t : T) (m : OrderedMap Key Value) (r : Result Key Value) : Prop :=
  Leads (fun s => s.step t) s fun s' =>
    s'.Reached ∧ s'.Calm m ∧ (s'.pc t).isIdle = true ∧ s'.result t = r

theorem Calm.does {r : Result Key Value} (calm : s.Calm m) (ready : s.Ready t) (ends : s.Ends t r) :
    s.Does t m r := by
  refine Leads.imp ends ?_
  rintro s' ⟨ready', alike, idle, result⟩
  exact ⟨ready'.reached, alike.calm ready.reached.level0.memory calm, idle, result⟩

/-! ## Searches -/

/-- `find` unlinks nothing, as there is nothing to unlink. -/
theorem Calm.searches {f : Find Key Value} (calm : s.Calm m) (ready : s.Ready t)
    (at_ : s.pc t = .findHead f) :
    Leads (fun s => s.step t) s fun s' => s'.Ready t ∧ s'.Calm m ∧ ∃ prev cur,
      s'.pc t = .findMatch f prev cur ∧ (s'.node prev).next 0 = cur := by
  refine (ready.finds at_).imp ?_
  rintro s' ⟨ready', prev, cur, at', ⟨same, next, -⟩ | ⟨-, c, unlinked⟩⟩
  · exact ⟨ready', same.alike.calm ready.reached.level0.memory calm, prev, cur, at', next⟩
  · have alive := calm.alive c unlinked.member
    rw [unlinked.wasDead] at alive
    cases alive

/-- Where `find` has ended, all nodes in front have smaller keys, and all behind have greater ones. -/
theorem Ready.placed {f : Find Key Value} {prev : Addr} {cur : Ptr} (ready : s.Ready t)
    (at_ : s.pc t = .findMatch f prev cur) (next : (s.node prev).next 0 = cur) :
    ∃ l₁ l₂, head :: s.chain = l₁ ++ prev :: l₂ ∧ cur = Ptr.toFirst l₂ ∧
      ∀ a ∈ s.chain, s.key a = f.key → a ∈ l₂ ∧ cur = .node a := by
  have memory := ready.reached.level0.memory
  have here := ready.reached.level0.here t
  rw [at_] at here
  obtain ⟨-, before, shared, atLeast⟩ := here
  have alive : s.dead prev = false := alive_of_next next shared.alive
  obtain ⟨l₁, l₂, split⟩ := List.append_of_mem (memory.onChain before.1 alive)
  have first := next.symm.trans (memory.next_of_split split alive)
  refine ⟨l₁, l₂, split, first, fun a member atKey => ?_⟩
  have above : s.rank prev < s.rank a := by
    rw [memory.rank_linked (memory.member a member), atKey]
    exact before.2
  have behind : a ∈ l₂ := (memory.mem_behind split a).2 ⟨member, above⟩
  refine ⟨behind, ?_⟩
  cases l₂ with
  | nil => cases behind
  | cons c rest =>
      rcases List.mem_cons.1 behind with rfl | further
      · exact first
      · have split' : head :: s.chain = (l₁ ++ [prev]) ++ c :: rest := by rw [split]; simp
        obtain ⟨-, beyond⟩ := (memory.mem_behind split' a).1 further
        have inside : c ∈ s.chain := ((memory.mem_behind split c).1 List.mem_cons_self).1
        rw [memory.rank_linked (memory.member c inside),
          memory.rank_linked (memory.member a member), WithBot.coe_lt_coe, atKey] at beyond
        exact absurd (atLeast c first) (not_le.2 beyond)

theorem Calm.meets {f : Find Key Value} {prev : Addr} {cur : Ptr} (calm : s.Calm m)
    (ready : s.Ready t) (at_ : s.pc t = .findMatch f prev cur) (next : (s.node prev).next 0 = cur) :
    s.meets f.key cur = m.contains f.key := by
  obtain ⟨l₁, l₂, split, first, found⟩ := ready.placed at_ next
  rw [Bool.eq_iff_iff, calm.contains_iff]
  constructor
  · intro hit
    cases l₂ with
    | nil => rw [first] at hit; cases hit
    | cons c rest =>
        have inside : c ∈ s.chain :=
          ((ready.reached.level0.memory.mem_behind split c).1 List.mem_cons_self).1
        rw [first] at hit
        exact ⟨c, inside, of_decide_eq_true hit⟩
  · rintro ⟨a, member, atKey⟩
    rw [(found a member atKey).2]
    exact decide_eq_true atKey

theorem Calm.gets {f : Find Key Value} {prev : Addr} {cur : Ptr} (calm : s.Calm m)
    (ready : s.Ready t) (at_ : s.pc t = .findMatch f prev cur) (next : (s.node prev).next 0 = cur) :
    s.gets f.key cur = m.find? f.key := by
  obtain ⟨l₁, l₂, split, first, found⟩ := ready.placed at_ next
  refine Option.ext fun v => ?_
  rw [OrderedMap.find?_eq_some, calm.mem]
  constructor
  · intro read
    cases l₂ with
    | nil => rw [first] at read; cases read
    | cons c rest =>
        have inside : c ∈ s.chain :=
          ((ready.reached.level0.memory.mem_behind split c).1 List.mem_cons_self).1
        rw [first] at read
        change (if s.key c = f.key then some (s.node c).value else none) = some v at read
        split at read
        · rename_i atKey
          cases read
          exact ⟨c, inside, by rw [← atKey]; rfl⟩
        · cases read
  · rintro ⟨a, member, same⟩
    obtain ⟨atKey, atValue⟩ := Prod.ext_iff.1 same
    have atKey : s.key a = f.key := atKey
    have atValue : (s.node a).value = v := atValue
    rw [(found a member atKey).2, ← atValue]
    exact if_pos atKey

/-! ## The calls that only read -/

theorem Calm.does_exists (calm : s.Calm m) (ready : s.Ready t)
    (at_ : s.pc t = .findHead ⟨k, .exists_⟩) : s.Does t m (.flag (m.contains k)) := by
  refine (calm.searches ready at_).bind ?_
  rintro s₁ ⟨ready₁, calm₁, prev, cur, at₁, next₁⟩
  have same : s₁.meets k cur = m.contains k := calm₁.meets ready₁ at₁ next₁
  rw [← same]
  exact calm₁.does ready₁ (ready₁.match_exists at₁)

theorem Calm.does_find (calm : s.Calm m) (ready : s.Ready t)
    (at_ : s.pc t = .findHead ⟨k, .find⟩) : s.Does t m (.value (m.find? k)) := by
  refine (calm.searches ready at_).bind ?_
  rintro s₁ ⟨ready₁, calm₁, prev, cur, at₁, next₁⟩
  have same : s₁.gets k cur = m.find? k := calm₁.gets ready₁ at₁ next₁
  rw [← same]
  exact calm₁.does ready₁ (ready₁.match_find at₁)

theorem Calm.does_first (calm : s.Calm m) (ready : s.Ready t) (at_ : s.pc t = .firstCur) :
    s.Does t m (.key m.firstKey) := by
  have does := calm.does ready (ready.reads_first at_)
  have holds := calm.holds
  unfold OrderedMap.firstKey
  rw [← holds]
  cases chain : s.chain with
  | nil => rwa [chain] at does
  | cons c rest => rwa [chain] at does

theorem Calm.does_items {what : Extract} (calm : s.Calm m) (ready : s.Ready t)
    (at_ : s.pc t = .itemsCur what []) : s.Does t m (.items (m.entries.map what.pick)) := by
  refine ready.reads (solo_call at_ rfl) fun s₁ ready₁ same₁ at₁ => ?_
  have calm₁ := same₁.alike.calm ready.reached.level0.memory calm
  have atLoop : s₁.pc t = itemsLoop what [] (.node head) ((s₁.node head).next 0) := by
    rw [same₁.nodes.node]
    exact at₁
  have split : head :: s₁.chain = [] ++ head :: s₁.chain := rfl
  have alive : ∀ a ∈ head :: s₁.chain, s₁.dead a = false := by
    intro a member
    rcases List.mem_cons.1 member with rfl | inside
    · exact ready₁.reached.level0.memory.headAlive
    · exact calm₁.alive a inside
  have items : m.entries.map what.pick = [] ++ s₁.chain.map fun a => what.item (s₁.node a) := by
    rw [← calm₁.holds, List.map_map, List.nil_append]
    refine List.map_congr_left fun a _ => ?_
    cases what <;> rfl
  rw [items]
  exact calm₁.does ready₁ (ready₁.collects atLoop split alive)

/-! ## `insert` -/

/-- A key that is there already stays as it is. -/
theorem insert_contains (present : m.contains k = true) (v : Value) : m.insert k v = m := by
  refine OrderedMap.ext (OrderedMap.sorted_unique (m.insert k v).sorted m.sorted fun e => ?_)
  have member : e ∈ (m.insert k v).entries ↔ e ∈ m.entries ∨ e = (k, v) ∧ k ∉ m.entries.map (·.1) :=
    OrderedMap.mem_iff_insertEntry m.sorted
  obtain ⟨e', inside, atKey⟩ := OrderedMap.mem_keys.1 (OrderedMap.contains_iff.1 present)
  rw [member]
  refine ⟨fun both => both.elim id fun new => absurd ?_ new.2, .inl⟩
  exact List.mem_map.2 ⟨e', inside, atKey⟩

/-- A node that has been linked is a new entry. -/
theorem Added.calm {n : Addr} {v : Value} (added : s.Added s' n) (memory' : s'.Memory)
    (calm : s.Calm m) (atKey : s.key n = k) (atValue : (s.node n).value = v)
    (absent : m.contains k = false) : s'.Calm (m.insert k v) := by
  refine memory'.calm (fun a member => ?_) fun e => ?_
  · rw [added.dead a member]
    by_cases isNew : a = n
    · simp [isNew]
    · have old := ((added.chain a).1 member).resolve_left isNew
      simp [calm.alive a old]
  · have member : e ∈ (m.insert k v).entries ↔
        e ∈ m.entries ∨ e = (k, v) ∧ k ∉ m.entries.map (·.1) :=
      OrderedMap.mem_iff_insertEntry m.sorted
    have outside : k ∉ m.entries.map (·.1) := by
      intro inside
      have present : m.contains k = true :=
        OrderedMap.contains_iff.2 (by simpa [OrderedMap.keys] using inside)
      rw [absent] at present
      cases present
    have same : ∀ a ∈ s'.chain, s'.entry a = s.entry a := fun a inside =>
      Prod.ext (added.key a inside) (added.value a inside)
    rw [member, calm.mem]
    constructor
    · rintro (⟨a, inside, rfl⟩ | ⟨rfl, -⟩)
      · have inside' := (added.chain a).2 (.inr inside)
        exact ⟨a, inside', same a inside'⟩
      · have inside' := (added.chain n).2 (.inl rfl)
        exact ⟨n, inside', (same n inside').trans (Prod.ext atKey atValue)⟩
    · rintro ⟨a, inside', rfl⟩
      rw [same a inside']
      rcases (added.chain a).1 inside' with rfl | inside
      · exact .inr ⟨Prod.ext atKey atValue, outside⟩
      · exact .inl ⟨a, inside, rfl⟩

/-- A new node off the chain. -/
theorem alike_create (memory : s.Memory) (height : Nat) (key : Key) (v : Value) :
    s.Alike (s.apply t (.create (height + 1) key v)) := by
  have write : s.Write (.create (height + 1) key v) := .create height key v
  refine alike_of_node memory write (memory.write (t := t) write).2 (Nat.le_succ _)
    (fun a member => ?_) fun a old => ?_
  · have old := (memory.known a (memory.member a member)).2
    simp [apply, Nat.ne_of_lt old]
  · simp [apply, Nat.ne_of_lt old]

theorem Calm.does_insert {v : Value} {level : Nat} (calm : s.Calm m) (ready : s.Ready t)
    (at_ : s.pc t = .findHead ⟨k, .insert v level⟩) :
    s.Does t (m.insert k v) (.flag (!m.contains k)) := by
  refine (calm.searches ready at_).bind ?_
  rintro s₁ ⟨ready₁, calm₁, prev, cur, at₁, next₁⟩
  have same : s₁.meets k cur = m.contains k := calm₁.meets ready₁ at₁ next₁
  have goes := ready₁.matched at₁
  have memory₁ := ready₁.reached.level0.memory
  cases present : m.contains k with
  | true =>
      have hit : s₁.meets k cur = true := same.trans present
      rw [insert_contains present]
      change s₁.solo t = some (s₁.found _ prev cur (s₁.meets k cur)) at goes
      rw [hit] at goes
      exact calm₁.does ready₁ (ready₁.leaves goes)
  | false =>
      have hit : s₁.meets k cur = false := same.trans present
      change s₁.solo t = some (s₁.found _ prev cur (s₁.meets k cur)) at goes
      rw [hit] at goes
      have here₁ := ready₁.reached.level0.here t
      rw [at₁] at here₁
      obtain ⟨-, before, shared, -⟩ := here₁
      have alive : s₁.dead prev = false := alive_of_next next₁ shared.alive
      refine ready₁.goes goes fun s₂ ready₂ stepped => ?_
      have alike₂ := (alike_create (t := t) memory₁ level k v).trans stepped.same.alike
      have value₂ : (s₂.node s₁.fresh).value = v := by
        rw [stepped.node]
        simp [apply, mkNode]
      have fresh₂ : s₁.fresh < s₂.fresh := by
        rw [stepped.fresh]
        exact Nat.lt_succ_self _
      refine (ready₂.builds stepped.pc).bind ?_
      rintro s₃ ⟨ready₃, alike₃, at₃⟩
      have memory₃ := ready₃.reached.level0.memory
      have alike := alike₂.trans alike₃
      have next₃ : (s₃.node prev).next 0 = cur :=
        (alike.next memory₁ memory₃ before.1 alive).trans next₁
      have here₃ := ready₃.reached.level0.here t
      rw [at₃] at here₃
      have atKey : s₃.key s₁.fresh = k := here₃.1.key
      have atValue : (s₃.node s₁.fresh).value = v := (alike₃.value _ fresh₂).trans value₂
      refine (ready₃.links at₃ next₃).imp ?_
      rintro s₄ ⟨ready₄, added, idle, result⟩
      exact ⟨ready₄.reached, added.calm ready₄.reached.level0.memory (alike.calm memory₁ calm₁)
        atKey atValue present, idle, result⟩

/-! ## `erase` -/

theorem Unlinked.calm {c : Addr} (unlinked : s.Unlinked s' c) (memory' : s'.Memory)
    (others : ∀ a ∈ s.chain, a ≠ c → s.dead a = false) (entries : ∀ e, e ∈ m.entries ↔
      ∃ a ∈ s.chain, s.entry a = e) (atKey : s.key c = k)
    (single : ∀ a ∈ s.chain, s.key a = k → a = c) : s'.Calm (m.erase k) := by
  have same : ∀ a, s'.entry a = s.entry a := fun a =>
    Prod.ext (congrFun unlinked.key a) (unlinked.value a)
  refine memory'.calm (fun a member => ?_) fun e => ?_
  · obtain ⟨inside, other⟩ := (unlinked.chain a).1 member
    rw [unlinked.dead, others a inside other]
  · unfold OrderedMap.erase
    rw [List.mem_filter, entries, decide_eq_true_eq]
    constructor
    · rintro ⟨⟨a, inside, rfl⟩, otherKey⟩
      refine ⟨a, (unlinked.chain a).2 ⟨inside, ?_⟩, same a⟩
      rintro rfl
      exact otherKey atKey
    · rintro ⟨a, member, rfl⟩
      obtain ⟨inside, other⟩ := (unlinked.chain a).1 member
      rw [same]
      exact ⟨⟨a, inside, rfl⟩, fun here => other (single a inside here)⟩

/-- The second `find` of `erase` unlinks the node that `erase` has marked: it cannot end in front
of it, and there is no other dead node on its way. -/
theorem Calm.cleans {c : Addr} {b : Bool} (calm : s.Calm m) (memory : s.Memory)
    (member : c ∈ s.chain) (atKey : s.key c = k) (marked : s.Marked q c true) (ready : q.Ready t)
    (at_ : q.pc t = .findHead ⟨k, .eraseAgain c b⟩) :
    Leads (fun s => s.step t) q fun s' => s'.Ready t ∧ s'.Calm (m.erase k) ∧ ∃ prev cur,
      s'.pc t = .findMatch ⟨k, .eraseAgain c b⟩ prev cur := by
  have isDead : q.dead c = true := by simp [marked.dead]
  have others : ∀ a ∈ q.chain, a ≠ c → q.dead a = false := by
    intro a inside other
    rw [marked.chain] at inside
    simp [marked.dead, other, calm.alive a inside]
  refine (ready.finds at_).imp ?_
  rintro s' ⟨ready', prev, cur, at', landed⟩
  have memory' := ready'.reached.level0.memory
  refine ⟨ready', ?_, prev, cur, at'⟩
  rcases landed with ⟨same, next, alive⟩ | ⟨-, d, unlinked⟩
  · -- in front of the node there is nothing to stop at
    obtain ⟨l₁, l₂, split, first, found⟩ := ready'.placed at' next
    have inside : c ∈ s'.chain := by rw [same.nodes.chain, marked.chain]; exact member
    have atKey' : s'.key c = k := by
      rw [same.key, marked.key]
      exact atKey
    have clean := alive c (found c inside atKey').2
    rw [isDead] at clean
    cases clean
  · obtain rfl : d = c := by
      by_contra other
      have clean := others d unlinked.member other
      rw [unlinked.wasDead] at clean
      cases clean
    have same : ∀ a, q.entry a = s.entry a := fun a =>
      Prod.ext (congrFun marked.key a) (marked.value a)
    refine unlinked.calm memory' others (fun e => ?_) ((congrFun marked.key d).trans atKey)
      fun a inside here => ?_
    · rw [calm.mem, marked.chain]
      simp only [same]
    · rw [marked.chain] at inside
      rw [marked.key] at here
      exact memory.key_inj inside member (here.trans atKey.symm)

/-- A key that is not there leaves the map as it is. -/
theorem erase_absent (absent : m.contains k = false) : m.erase k = m := by
  refine OrderedMap.ext (List.filter_eq_self.2 fun e member => ?_)
  refine decide_eq_true fun here => ?_
  have present : m.contains k = true :=
    OrderedMap.contains_iff.2 (OrderedMap.mem_keys.2 ⟨e, member, here⟩)
  rw [absent] at present
  cases present

theorem Calm.does_erase (calm : s.Calm m) (ready : s.Ready t)
    (at_ : s.pc t = .findHead ⟨k, .erase⟩) : s.Does t (m.erase k) (.flag (m.contains k)) := by
  refine (calm.searches ready at_).bind ?_
  rintro s₁ ⟨ready₁, calm₁, prev, cur, at₁, next₁⟩
  have same : s₁.meets k cur = m.contains k := calm₁.meets ready₁ at₁ next₁
  have goes : s₁.solo t = some (s₁.found ⟨k, .erase⟩ prev cur (s₁.meets k cur)) :=
    ready₁.matched at₁
  have memory₁ := ready₁.reached.level0.memory
  cases present : m.contains k with
  | false =>
      rw [same.trans present] at goes
      rw [erase_absent present]
      exact calm₁.does ready₁ (ready₁.leaves goes)
  | true =>
      obtain ⟨c, inside, atKey⟩ := (calm₁.contains_iff k).1 present
      obtain ⟨l₁, l₂, -, -, found⟩ := ready₁.placed at₁ next₁
      obtain ⟨-, rfl⟩ := found c inside atKey
      rw [same.trans present] at goes
      refine ready₁.reads goes fun s₂ ready₂ same₂ at₂ => ?_
      have calm₂ := same₂.alike.calm memory₁ calm₁
      have inside₂ : c ∈ s₂.chain := by rw [same₂.nodes.chain]; exact inside
      have atKey₂ : s₂.key c = k := by rw [same₂.key]; exact atKey
      refine (ready₂.erases at₂).bind ?_
      rintro s₃ ⟨ready₃, marked, at₃⟩
      rw [calm₂.alive c inside₂] at at₃
      refine (calm₂.cleans ready₂.reached.level0.memory inside₂ atKey₂ marked ready₃ at₃).bind ?_
      rintro s₄ ⟨ready₄, calm₄, prev', cur', at₄⟩
      exact calm₄.does ready₄ (ready₄.match_again at₄)

/-! ## A whole call -/

theorem call_taken {op : Op Key Value} (idle : (s.pc t).isIdle = true) (allowed : op.allowed = true) :
    ∃ s', s.next (.call t op) = some s' ∧ s.Same s' := by
  unfold State.next
  simp only [idle, allowed, and_self, if_true]
  split
  · exact ⟨_, rfl, ⟨rfl, rfl, rfl⟩, rfl⟩
  · exact ⟨_, rfl, ⟨rfl, rfl, rfl⟩, rfl⟩

theorem Calm.does_level {v : Value} {level : Nat} (calm : s.Calm m) (ready : s.Ready t)
    (at_ : s.pc t = .insertLevel k v level) : s.Does t (m.insert k v) (.flag (!m.contains k)) := by
  have memory := ready.reached.level0.memory
  have goes : s.solo t = s.plan t (.insertLevel k v level) := solo_plan at_ rfl
  simp only [plan] at goes
  split at goes
  all_goals
    refine ready.goes goes fun s₁ ready₁ stepped => ?_
    have nodes₁ : s.SameNodes s₁ := ⟨stepped.node, stepped.linked, stepped.fresh⟩
    have at₁ := stepped.pc
    refine ready₁.enters at₁ fun s₂ ready₂ same₂ at₂ => ?_
    have alike := nodes₁.alike.trans same₂.alike
    exact (alike.calm memory calm).does_insert ready₂ at₂

/-- One call: it returns with the answer of the ordered map, and leaves the map in that state. -/
theorem Calm.does_call {op : Op Key Value} (calm : s.Calm m) (ready : s.Ready t)
    (at_ : s.pc t = q.begin t op) : s.Does t (op.onMap m).2 (op.onMap m).1 := by
  have memory := ready.reached.level0.memory
  cases op with
  | insert key v level => exact calm.does_level ready at_
  | exists_ key =>
      refine ready.enters at_ fun s₁ ready₁ same₁ at₁ => ?_
      exact (same₁.alike.calm memory calm).does_exists ready₁ at₁
  | find key =>
      refine ready.enters at_ fun s₁ ready₁ same₁ at₁ => ?_
      exact (same₁.alike.calm memory calm).does_find ready₁ at₁
  | erase key =>
      refine ready.enters at_ fun s₁ ready₁ same₁ at₁ => ?_
      exact (same₁.alike.calm memory calm).does_erase ready₁ at₁
  | firstKey =>
      refine ready.enters at_ fun s₁ ready₁ same₁ at₁ => ?_
      exact (same₁.alike.calm memory calm).does_first ready₁ at₁
  | extract what =>
      refine ready.enters at_ fun s₁ ready₁ same₁ at₁ => ?_
      exact (same₁.alike.calm memory calm).does_items ready₁ at₁

/-! ## A list of calls -/

theorem begin_not_next (op : Op Key Value) (f : Find Key Value) (i : Nat) (prev cur : Addr) :
    s.begin t op ≠ .findNext f i prev cur := by
  cases op with
  | insert key v level =>
      intro same
      cases same
  | exists_ key | find key | erase key | firstKey | extract what =>
      simp only [begin, enter, Start.pc]
      split <;> (intro same; cases same)

theorem Calm.session {ops : List (Op Key Value)} (calm : s.Calm m) (reached : s.Reached)
    (idle : (s.pc t).isIdle = true) (allowed : ∀ op ∈ ops, op.allowed = true) :
    ∃ n, ∀ fuel, n ≤ fuel → s.session t fuel ops = some (answers m ops) := by
  induction ops generalizing s m with
  | nil => exact ⟨0, fun _ _ => rfl⟩
  | cons op ops ih =>
      obtain ⟨s₁, called, same⟩ := call_taken (t := t) idle (allowed op List.mem_cons_self)
      have reached₁ := reached.next called
      have at₁ := next_call_pc called
      have ready₁ : s₁.Ready t := reached₁.ready fun f i prev cur next =>
        begin_not_next op f i prev cur (at₁.symm.trans next)
      have does := (same.alike.calm reached.level0.memory calm).does_call ready₁ at₁
      have leads : Leads (fun s => s.step t) s₁ fun s' => (s'.pc t).isIdle = true ∧
          s'.Reached ∧ s'.Calm (op.onMap m).2 ∧ (s'.pc t).isIdle = true ∧
          s'.result t = (op.onMap m).1 :=
        Leads.imp does fun _ after => ⟨after.2.2.1, after⟩
      obtain ⟨n₁, s₂, ended, reached₂, calm₂, idle₂, result⟩ := reached₁.alone_leads leads
      obtain ⟨n₂, rest⟩ := ih calm₂ reached₂ idle₂ fun op member =>
        allowed op (List.mem_cons_of_mem _ member)
      refine ⟨max n₁ n₂, fun fuel enough => ?_⟩
      have ended' : s₁.alone t fuel = some s₂ :=
        Theory.runUntil_mono ended ((Nat.le_max_left n₁ n₂).trans enough)
      have rest' := rest fuel ((Nat.le_max_right n₁ n₂).trans enough)
      simp only [State.session, called, Option.bind_some, ended', rest', Option.map_some, result,
        answers]

theorem calm_init : (init : State T Key Value).Calm OrderedMap.empty :=
  ⟨fun _ member => (nomatch member), rfl⟩

/-- **One thread sees an ordered map.** Whatever it calls on a new map, and whatever levels are
drawn, every call returns, and the results are those of a finite ordered map. -/
theorem sequential_refines (t : T) (ops : List (Op Key Value))
    (allowed : ∀ op ∈ ops, op.allowed = true) :
    ∃ n, ∀ fuel, n ≤ fuel →
      (init : State T Key Value).session t fuel ops = some (answers OrderedMap.empty ops) := by
  have ran : Theory.run State.next (init : State T Key Value) [] = some init := rfl
  exact calm_init.session (reached_run ran) rfl allowed

/-- A key is inserted twice, and another one is erased. -/
def fewCalls : List (Op Nat Nat) :=
  [.insert 2 20 3, .insert 1 10 0, .insert 2 21 11, .find 2, .erase 1, .extract .entries]

theorem sequential_refines_few : ∃ n, ∀ fuel, n ≤ fuel →
    (init : State (Fin 1) Nat Nat).session 0 fuel fewCalls = some [.flag true, .flag true,
      .flag false, .value (some 20), .flag true, .items [.entry 2 20]] :=
  sequential_refines 0 fewCalls (by decide)

end State

end Ccmetrics.SkipList
